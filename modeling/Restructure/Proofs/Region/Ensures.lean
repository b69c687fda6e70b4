import Restructure.Region.Pass

namespace Restructure.Pass

/-!
# Passes that succeed — what holds of their results

* `Ensures x p Q` — if `x` succeeds from the progress `p`, its result and the progress behind it
  satisfy `Q`. Nothing is said about failures.
* `ensures_bind` and its companions — one rule for every way in which passes are built.
-/

variable {α β : Type} {p : Progress} {Q : α → Progress → Prop}

/-- The result and the progress behind a pass satisfy `Q`, if it succeeds. -/
def Ensures (x : Pass α) (p : Progress) (Q : α → Progress → Prop) : Prop :=
  ∀ a p', x.run p = .ok (a, p') → Q a p'

/-! ### Building passes -/

/-- A step without effect ensures what holds of its result. -/
theorem ensures_pure {a : α} (h : Q a p) : Ensures (pure a) p Q := by
  intro b p' hrun
  cases hrun
  exact h

/-- The second step starts from what the first one ensures. -/
theorem ensures_bind {x : Pass α} {f : α → Pass β} {R : β → Progress → Prop}
    (h : Ensures x p fun a p' => Ensures (f a) p' R) : Ensures (x >>= f) p R := by
  intro b p' hrun
  rw [StateT.run_bind] at hrun
  cases hx : x.run p with
  | error e =>
    rw [hx] at hrun
    cases hrun
  | ok r =>
    rw [hx] at hrun
    exact h r.1 r.2 hx b p' hrun

/-- A weaker postcondition. -/
theorem Ensures.imp {x : Pass α} {R : α → Progress → Prop} (h : Ensures x p Q)
    (hQ : ∀ a p', Q a p' → R a p') : Ensures x p R :=
  fun a p' hrun => hQ a p' (h a p' hrun)

/-! ### Single steps -/

/-- A computation beside the pass leaves the progress as it is. -/
theorem ensures_of {r : Except Error α} (h : ∀ a, r = .ok a → Q a p) : Ensures (of r) p Q := by
  intro a p' hrun
  cases r with
  | error e => cases hrun
  | ok b =>
    cases hrun
    exact h _ rfl

/-- What always fails ensures anything. -/
theorem ensures_fail (e : Error) : Ensures (fail e) p Q := by
  intro a p' hrun
  cases hrun

/-- Behind a check its test has failed. -/
theorem ensures_failIf {test : Bool} {e : Error} {R : Unit → Progress → Prop}
    (h : test = false → R () p) : Ensures (failIf test e) p R := by
  cases test with
  | true => exact ensures_fail e
  | false => exact ensures_pure (h rfl)

/-- The blocks are written. -/
theorem ensures_markAll {ns : List Nat} {R : Unit → Progress → Prop}
    (h : R () { p with written := ns ++ p.written }) : Ensures (markAll ns) p R := by
  intro a p' hrun
  cases hrun
  exact h

/-- The block is written. -/
theorem ensures_mark {n : Nat} {R : Unit → Progress → Prop}
    (h : R () { p with written := n :: p.written }) : Ensures (mark n) p R :=
  ensures_markAll h

/-- The targets are kept in ascending order. -/
theorem ensures_addTargets {ns : List Nat} {R : Unit → Progress → Prop}
    (h : R () { p with
      targets := ns.foldl (fun ts n => Loop.insertAscending n ts) p.targets }) :
    Ensures (addTargets ns) p R := by
  intro a p' hrun
  cases hrun
  exact h

/-- The label is placed. -/
theorem ensures_place {n : Nat} {R : Unit → Progress → Prop}
    (h : R () { p with placed := n :: p.placed }) : Ensures (place n) p R := by
  intro a p' hrun
  cases hrun
  exact h

/-- A position is made of the blocks that are written by then. -/
theorem ensures_position {frames : Frames} {stop : Option Nat} {R : Position → Progress → Prop}
    (h : R ⟨frames, p.written, stop⟩ p) : Ensures (position frames stop) p R := by
  intro a p' hrun
  cases hrun
  exact h

/-- The progress is read. -/
theorem ensures_get {R : Progress → Progress → Prop} (h : R p p) : Ensures get p R := by
  intro a p' hrun
  cases hrun
  exact h

/-- A block that is read is one of the graph's. -/
theorem ensures_block {c : Context} {n : Nat} {R : Block → Progress → Prop}
    (h : ∀ b, c.graph.block? n = some b → R b p) : Ensures (c.block n) p R := by
  unfold Context.block
  split
  · exact ensures_pure (h _ ‹_›)
  · exact ensures_fail _

end Restructure.Pass
