import Mathlib.Algebra.Order.BigOperators.Group.Finset
import Restructure.Proofs.Region.Balanced
import Restructure.Proofs.Region.Begun

namespace Restructure

/-!
# Depth — regions are never nested too deeply

Wherever the walk writes a block, the block is written for the first time, or it is the header of
a `do` loop that is written for the second time, now inside the loop. So every step of the walk
lowers the number of times that blocks may still be entered, and a walk that is given as much
depth as this number never reaches the bottom: with more depth it would do the same.

Along the way nothing fails but for the reasons that `Context.Fails` lists.

* `Pass.Settles` — with a deeper walk a pass does the same.
* `Context.remaining` — how often blocks may still be entered.
* `Walk.Settles` — a deeper walk does the same wherever less than a bound remains.
* `Context.region_settles` — so it is for the code of every region, the bound being its depth.
-/

namespace Pass

/-! ### Building passes -/

section Rules

variable {α β : Type} {E : Error → Prop} {p : Progress} {Q : α → Progress → Prop} {x y : Pass α}

/-- The passes do the same. Either their result and the progress behind them satisfy `Q`, or their
    failure is one of `E`. -/
def Settles (E : Error → Prop) (x y : Pass α) (p : Progress) (Q : α → Progress → Prop) : Prop :=
  x.run p = y.run p ∧ Gives E (x.run p) fun r => Q r.1 r.2

/-- A step without effect settles with its result. -/
theorem settles_pure {a : α} (h : Q a p) : Settles E (pure a) (pure a) p Q := ⟨rfl, h⟩

/-- The second steps start from where the first ones settle together. -/
theorem settles_bind {f g : α → Pass β} {R : β → Progress → Prop}
    (h : Settles E x y p fun a p' => Settles E (f a) (g a) p' R) :
    Settles E (x >>= f) (y >>= g) p R := by
  obtain ⟨heq, hgives⟩ := h
  unfold Settles
  rw [StateT.run_bind, StateT.run_bind, ← heq]
  cases hx : x.run p with
  | error e =>
    rw [hx] at hgives
    exact ⟨rfl, hgives⟩
  | ok r =>
    rw [hx] at hgives
    exact hgives

/-- A weaker postcondition. -/
theorem Settles.imp {R : α → Progress → Prop} (h : Settles E x y p Q)
    (hQ : ∀ a p', Q a p' → R a p') : Settles E x y p R :=
  ⟨h.1, h.2.imp fun r hr => hQ r.1 r.2 hr⟩

/-- A computation beside the pass is the same for both. -/
theorem settles_of {r : Except Error α} (h : Gives E r fun a => Q a p) :
    Settles E (of r) (of r) p Q := by
  cases r with
  | error e => exact ⟨rfl, h⟩
  | ok a => exact ⟨rfl, h⟩

/-- A check may fail with the errors that are allowed. -/
theorem settles_failIf {test : Bool} {e : Error} {R : Unit → Progress → Prop}
    (he : E e) (h : test = false → R () p) :
    Settles E (failIf test e) (failIf test e) p R := by
  cases test with
  | true => exact ⟨rfl, he⟩
  | false => exact ⟨rfl, h rfl⟩

/-- An attempt is made, or there is none. -/
theorem settles_tryIf {test : Bool} {x y : Pass (Option α)} {R : Option α → Progress → Prop}
    (h : Settles E x y p R) (hnone : R none p) :
    Settles E (tryIf test x) (tryIf test y) p R := by
  cases test with
  | true => exact h
  | false => exact ⟨rfl, hnone⟩

/-- A pass that only changes the progress. -/
theorem settles_modify {f : Progress → Progress} {R : Unit → Progress → Prop} (h : R () (f p)) :
    Settles E (modify f) (modify f) p R := ⟨rfl, h⟩

/-- A position is made of the blocks that are written by then. -/
theorem settles_position {frames : Frames} {stop : Option Nat} {R : Position → Progress → Prop}
    (h : R ⟨frames, p.written, stop⟩ p) :
    Settles E (position frames stop) (position frames stop) p R := ⟨rfl, h⟩

/-- The progress is read. -/
theorem settles_get {R : Progress → Progress → Prop} (h : R p p) :
    Settles E get get p R := ⟨rfl, h⟩

end Rules

end Pass

open Pass

/-! ### Progress -/

namespace Context

variable {c : Context} {frames frames' : Frames} {W W' : List Nat} {n : Nat}

/-- How often a block may still be entered: once, and once more to begin the loop around it. -/
def entries (frames : Frames) (written : List Nat) (n : Nat) : Nat :=
  if n ∈ written then 0 else if frames.isHeader n = true then 1 else 2

/-- How often blocks may still be entered. -/
def remaining (c : Context) (frames : Frames) (written : List Nat) : Nat :=
  ∑ n ∈ Finset.range c.graph.size, entries frames written n

/-- A block is entered twice at most: as a header, and then as a block. -/
theorem entries_le_two (frames : Frames) (written : List Nat) (n : Nat) :
    entries frames written n ≤ 2 := by
  unfold entries
  split
  · omega
  · split <;> omega

/-- Writing blocks and beginning loops leaves less to enter. -/
theorem entries_le (hframes : frames.isHeader n = true → frames'.isHeader n = true)
    (hsub : W ⊆ W') : entries frames' W' n ≤ entries frames W n := by
  -- a written block cannot be entered any more, and an open header only once
  by_cases hW : n ∈ W
  · have hW' : n ∈ W' := hsub hW
    unfold entries
    rw [if_pos hW, if_pos hW']
  · by_cases hheader : frames.isHeader n = true
    · unfold entries
      rw [if_neg hW, if_pos hheader, if_pos (hframes hheader)]
      split <;> omega
    · have htwo : entries frames W n = 2 := by
        unfold entries
        rw [if_neg hW, if_neg hheader]
      have hle := entries_le_two frames' W' n
      omega

/-- Fewer entries remain when more loops are open and more blocks are written. -/
theorem remaining_le (hframes : ∀ k, frames.isHeader k = true → frames'.isHeader k = true)
    (hsub : W ⊆ W') : c.remaining frames' W' ≤ c.remaining frames W :=
  Finset.sum_le_sum fun k _ => entries_le (hframes k) hsub

/-- With more blocks written there is still less to enter than the bound. -/
theorem remaining_lt_of_subset {bound : Nat} (hsub : W ⊆ W')
    (hlt : c.remaining frames W < bound) : c.remaining frames W' < bound :=
  Nat.lt_of_le_of_lt (remaining_le (fun _ h => h) hsub) hlt

/-- One entry less remains when a block has been entered. -/
theorem remaining_lt (hframes : ∀ k, frames.isHeader k = true → frames'.isHeader k = true)
    (hsub : W ⊆ W') (hn : n < c.graph.size) (hlt : entries frames' W' n < entries frames W n) :
    c.remaining frames' W' < c.remaining frames W :=
  Finset.sum_lt_sum (fun k _ => entries_le (hframes k) hsub) ⟨n, Finset.mem_range.2 hn, hlt⟩

/-- A block is written. -/
theorem remaining_cons_lt (frames : Frames) (hn : n < c.graph.size) (hW : n ∉ W) :
    c.remaining frames (n :: W) < c.remaining frames W := by
  apply remaining_lt (fun _ h => h) (List.subset_cons_self n W) hn
  unfold entries
  rw [if_pos (List.mem_cons_self ..), if_neg hW]
  split <;> omega

/-- A loop is begun. -/
theorem remaining_loop_lt (hn : n < c.graph.size) (hW : n ∉ W)
    (hheader : frames.isHeader n = false) (next : Nat) (body : List Nat) (follow : Option Nat) :
    c.remaining (.loop n next body follow :: frames) W < c.remaining frames W := by
  have hframes : ∀ k, frames.isHeader k = true →
      Frames.isHeader (.loop n next body follow :: frames) k = true := by
    intro k hk
    show (_ || frames.isHeader k) = true
    rw [hk, Bool.or_true]
  have hbegun : Frames.isHeader (.loop n next body follow :: frames) n = true := by
    show ((n == n) || _) = true
    rw [beq_self_eq_true, Bool.true_or]
  apply remaining_lt hframes (List.Subset.refl W) hn
  unfold entries
  rw [if_neg hW, if_neg hW, if_pos hbegun, hheader]
  exact Nat.lt_succ_self 1

/-- Beginning a switch is no step. -/
theorem remaining_switch (follow : Option Nat) :
    c.remaining (.switch follow :: frames) W = c.remaining frames W := rfl

/-- The depth of the walk is enough for a whole graph. -/
theorem remaining_lt_depth (frames : Frames) (W : List Nat) : c.remaining frames W < c.depth := by
  have hle : c.remaining frames W ≤ ∑ _n ∈ Finset.range c.graph.size, 2 :=
    Finset.sum_le_sum fun k _ => entries_le_two frames W k
  rw [Finset.sum_const_nat (fun _ _ => rfl), Finset.card_range] at hle
  unfold depth
  omega

end Context

/-! ### Jumps that are taken away -/

variable {E : Error → Prop} {k : ScopeKind}

/-- A jump at the end of an arm can be taken away. -/
theorem closeArm_gives {next follow : Option Nat} {s : Scope} (h : s.Opened k) :
    Gives E (closeArm next follow s) fun r => r.2.Opened k := by
  unfold closeArm
  split
  · rename_i hlast
    exact gives_map (Scope.pop_gives h hlast)
  · exact gives_ok h

/-- What becomes of a `for` loop is there. -/
theorem promoteFor_gives {k' : ScopeKind} {enabled : Bool} {scope body : Scope} {cond : Cond}
    (hs : scope.Opened k) (hb : body.Opened k') :
    Gives E (promoteFor enabled scope cond body) fun r => r.2.Opened k := by
  obtain ⟨stmt, scope', h, hopen, hkind⟩ := promoteFor_unlocked enabled cond hs.unlocked hb.unlocked
  rw [h]
  exact gives_ok ⟨hopen, hkind.trans hs.kind⟩

namespace Context

/-- A `continue` at the end of an open scope can be dropped. -/
theorem dropContinue_gives {s : Scope} (h : s.Opened k) :
    Gives E (dropContinue s) (Scope.Opened k) := by
  unfold dropContinue
  split
  · rename_i hlast
    exact gives_map (Scope.pop_gives h hlast)
  · exact gives_ok h

/-- A `return` at the end of an open scope can be dropped. -/
theorem dropReturn_gives {s : Scope} (h : s.Opened k) :
    Gives E (dropReturn s) (Scope.Opened k) := by
  unfold dropReturn
  split
  · rename_i hlast
    exact gives_map (Scope.pop_gives h hlast)
  · exact gives_ok h

/-! ### Blocks and arms -/

variable {c : Context} {tidy : Prop} {p : Progress} {m : Simulation} {n : Nat} {ks : Layout}

/-- A statement is added to an open scope. -/
theorem settles_append (hm : m.Ready tidy k ks) (s : Stmt) :
    Settles (c.Fails tidy) (Pass.append m s) (Pass.append m s) p fun m' p' =>
      m'.Ready tidy k ks ∧ p' = p :=
  settles_of ((hm.append s).imp fun _ hm' => ⟨hm', rfl⟩)

/-- The blocks below the size of the graph are there. -/
theorem settles_block {Q : Block → Progress → Prop} (hn : n < c.graph.size)
    (h : ∀ b, c.graph.block? n = some b → Q b p) :
    Settles (c.Fails tidy) (c.block n) (c.block n) p Q := by
  have hget : c.graph.block? n = some c.graph.graph.nodes[n] := List.getElem?_eq_getElem hn
  unfold Context.block
  rw [hget]
  exact settles_pure (h _ hget)

/-- A block leaves the operands of its terminator. -/
theorem settles_simulate (hg : tidy → c.graph.Balanced) (hn : n < c.graph.size)
    (hm : m.Ready tidy k []) :
    Settles (c.Fails tidy) (c.simulate n m) (c.simulate n m) p fun m' p' => p' = p ∧
      ∀ b, c.graph.block? n = some b → m'.Ready tidy k (List.replicate b.exit.pops .value) := by
  apply settles_bind
  apply settles_block hn
  intro b hb
  refine settles_of ((hm.run hg hb).imp fun m' hm' => ⟨rfl, fun b' hb' => ?_⟩)
  cases hb.symm.trans hb'
  exact hm'

end Context

/-! ### Regions inside -/

/-- Wherever less than the bound remains, the walk does the same as the other one, keeps the scope
    open and leaves the written blocks written, or it fails as code may fail. -/
def Walk.Settles (c : Context) (tidy : Prop) (bound : Nat) (walk walk' : Walk) : Prop :=
  ∀ frames n stop (m : Simulation) p k, n < c.graph.size → m.Ready tidy k [] →
    c.remaining frames p.written < bound → Pass.Settles (c.Fails tidy) (walk frames n stop m)
      (walk' frames n stop m) p fun m' p' => m'.Ready tidy k [] ∧ p.written ⊆ p'.written

/-- The code of a part of a region goes on with a block of the graph, if it does. The scope is open,
    and the given blocks are written. -/
structure Context.Onwards (c : Context) (tidy : Prop) (k : ScopeKind) (W : List Nat) (r : Onward)
    (p : Progress) : Prop where
  next : ∀ j, r.1 = some j → j < c.graph.size
  ready : r.2.Ready tidy k []
  written : W ⊆ p.written

namespace Context

variable {c : Context} {tidy : Prop} {walk walk' : Walk} {bound : Nat} {frames : Frames}
  {p : Progress} {m : Simulation} {n : Nat} {stop : Option Nat} {scope : Scope} {W : List Nat}

/-- The same with fewer blocks that had to be written. -/
theorem Onwards.mono {W' : List Nat} {r : Onward} (h : c.Onwards tidy k W r p) (hsub : W' ⊆ W) :
    c.Onwards tidy k W' r p := ⟨h.next, h.ready, List.Subset.trans hsub h.written⟩

/-- The result of a loop form: nothing has been done, or the loop has been written. -/
def Attempt (c : Context) (tidy : Prop) (k : ScopeKind) (n : Nat) (p : Progress) (r : Option Onward)
    (p' : Progress) : Prop :=
  match r with
  | none => p' = p
  | some onward => c.Onwards tidy k (n :: p.written) onward p'

/-- One more statement, and a place to go on at. -/
theorem settles_append_onwards {next : Option Nat} {s : Stmt} (hm : m.Ready tidy k [])
    (hnext : ∀ j, next = some j → j < c.graph.size) (hW : W ⊆ p.written) :
    Settles (c.Fails tidy) (do
      let m ← Pass.append m s
      return (next, m)) (do
      let m ← Pass.append m s
      return (next, m)) p (c.Onwards tidy k W) := by
  apply settles_bind
  refine (settles_append hm s).imp ?_
  rintro m' _ ⟨hm', rfl⟩
  exact settles_pure ⟨hnext, hm', hW⟩

variable (hg : tidy → c.graph.Balanced) (hw : Walk.Settles c tidy bound walk walk')
include hw

/-- A region that must end where it stops, with an error that is allowed if it does not. -/
theorem into_settles (hn : n < c.graph.size) (hs : scope.Opened k)
    (hlt : c.remaining frames p.written < bound) {e : Error} (he : c.Fails tidy e) :
    Settles (c.Fails tidy) (walk.into frames n stop scope e) (walk'.into frames n stop scope e) p
      fun s p' => s.Opened k ∧ p.written ⊆ p'.written := by
  apply settles_bind
  -- the only use of what is known of the walk inside
  refine (hw frames n stop (.start scope) p k hn (.start hs) hlt).imp ?_
  rintro m' p' ⟨hm', hsub⟩
  apply settles_bind
  apply settles_failIf he
  intro _
  exact settles_pure ⟨hm'.opened, hsub⟩

/-- Control goes on behind a part of a region. -/
theorem goOn_settles (r : Onward) (hr : c.Onwards tidy k W r p)
    (hlt : c.remaining frames W < bound) :
    Settles (c.Fails tidy) (walk.goOn frames stop r) (walk'.goOn frames stop r) p fun m' p' =>
      m'.Ready tidy k [] ∧ p.written ⊆ p'.written := by
  obtain ⟨next, m⟩ := r
  cases next with
  | none => exact settles_pure ⟨hr.ready, List.Subset.refl _⟩
  | some next =>
    exact hw frames next stop m p k (hr.next next rfl) hr.ready
      (remaining_lt_of_subset hr.written hlt)

/-! ### Branches -/

/-- An arm of a conditional, in a scope of its own. -/
theorem arm_settles (hn : n < c.graph.size) (hlt : c.remaining frames p.written < bound) :
    Settles (c.Fails tidy) (walk.arm frames n stop scope) (walk'.arm frames n stop scope) p
      fun _ p' => p.written ⊆ p'.written := by
  apply settles_bind
  refine (into_settles hw hn (Scope.opened_child scope .arm) hlt ?_).imp ?_
  · exact .form rfl nofun
  rintro s p' ⟨hs, hsub⟩
  exact settles_of ((Scope.lock_gives hs).imp fun _ _ => hsub)

/-- An arm that may be missing. -/
theorem armIf_settles {start : Option Nat} (hstart : ∀ j, start = some j → j < c.graph.size)
    (hlt : c.remaining frames p.written < bound) :
    Settles (c.Fails tidy) (walk.armIf frames stop scope start)
      (walk'.armIf frames stop scope start) p fun _ p' => p.written ⊆ p'.written := by
  cases start with
  | none => exact settles_pure (List.Subset.refl _)
  | some j =>
    apply settles_bind
    exact (arm_settles hw (hstart j rfl) hlt).imp fun _ _ hsub => settles_pure hsub

/-- Both arms of a conditional, up to the block where they meet. -/
theorem conditional_settles (hm : m.Ready tidy k []) {test : BranchTest} {merge : Nat}
    (htaken : test.taken < c.graph.size) (hfall : test.fallthrough < c.graph.size)
    (hmerge : merge < c.graph.size) (hlt : c.remaining frames p.written < bound) :
    Settles (c.Fails tidy) (walk.conditional frames test merge m)
      (walk'.conditional frames test merge m) p (c.Onwards tidy k p.written) := by
  unfold Walk.conditional
  split
  rename_i cond thenStart elseStart heq
  -- whichever way the test is turned, the arms begin at targets of the branch
  have hstarts : thenStart < c.graph.size ∧ ∀ j, elseStart = some j → j < c.graph.size := by
    split at heq
    · cases heq
      exact ⟨htaken, fun _ h => by cases h⟩
    · split at heq
      · cases heq
        exact ⟨hfall, fun _ h => by cases h⟩
      · cases heq
        exact ⟨hfall, fun _ h => Option.some.inj h ▸ htaken⟩
  apply settles_bind
  refine (arm_settles hw hstarts.1 hlt).imp fun body p₁ hsub => ?_
  have hlt₁ : c.remaining frames p₁.written < bound := remaining_lt_of_subset hsub hlt
  apply settles_bind
  refine (armIf_settles hw hstarts.2 hlt₁).imp fun orElse p₂ hsub' => ?_
  apply settles_append_onwards hm _ (List.Subset.trans hsub hsub')
  intro j hj
  exact Option.some.inj hj ▸ hmerge

/-- The arm behind a guard; control goes on at the other target. -/
theorem guard_settles (hm : m.Ready tidy k []) {pos : Position} {test : BranchTest} {g : Guard}
    (hstart : g.start < c.graph.size) (hother : g.other < c.graph.size)
    (hlt : c.remaining pos.frames p.written < bound) :
    Settles (c.Fails tidy) (walk.guard pos test g m) (walk'.guard pos test g m) p
      (c.Onwards tidy k p.written) := by
  apply settles_bind
  refine (arm_settles hw hstart hlt).imp fun body p₁ hsub => ?_
  apply settles_append_onwards hm _ hsub
  intro j hj
  exact Option.some.inj hj ▸ hother

omit hw in
/-- A conditional jump to a label; control goes on at the fallthrough. -/
theorem conditionalJump_settles (hm : m.Ready tidy k []) {test : BranchTest}
    (hfall : test.fallthrough < c.graph.size) :
    Settles (c.Fails tidy) (c.conditionalJump n test m) (c.conditionalJump n test m) p
      (c.Onwards tidy k p.written) := by
  apply settles_bind
  apply settles_failIf
  · exact .form rfl nofun
  intro _
  apply settles_bind
  apply settles_modify
  apply settles_append_onwards hm _ (List.Subset.refl _)
  intro j hj
  exact Option.some.inj hj ▸ hfall

/-- A branch as a conditional, as a guard or as a jump. Where none of them is allowed there is no
    structured form. -/
theorem plainBranch_settles (stop : Option Nat) (hm : m.Ready tidy k []) {test : BranchTest}
    (hn : n < c.graph.size) (htaken : test.taken < c.graph.size)
    (hfall : test.fallthrough < c.graph.size) {W : List Nat}
    (hlt : c.remaining frames p.written < bound) :
    Settles (c.Fails tidy) (c.plainBranch walk ⟨frames, W, stop⟩ n test m)
      (c.plainBranch walk' ⟨frames, W, stop⟩ n test m) p (c.Onwards tidy k p.written) := by
  -- a guard comes up in two places, once where the arms meet and once where they do not
  have hguard : ∀ {g : Guard}, c.guardedArm? ⟨frames, W, stop⟩ test = some g →
      Settles (c.Fails tidy) (walk.guard ⟨frames, W, stop⟩ test g m)
        (walk'.guard ⟨frames, W, stop⟩ test g m) p (c.Onwards tidy k p.written) := fun hg => by
    obtain ⟨hstart, hother⟩ := (guardedArm_inv hg).1.both (P := (· < c.graph.size)) htaken hfall
    exact guard_settles hw hm hstart hother hlt
  unfold plainBranch
  apply settles_bind
  apply settles_failIf
  · exact .form rfl nofun
  intro _
  split
  · rename_i j hj
    have hmerge := postDominator_lt hn (Option.filter_eq_some_iff.1 hj).1
    have hcond := conditional_settles hw hm htaken hfall hmerge hlt
    split
    · split
      · rename_i g hg
        exact hguard hg
      · exact hcond
    · exact hcond
  · split
    · rename_i g hg
      exact hguard hg
    · exact conditionalJump_settles hm hfall

omit hw in
/-- A branch that collapses: a value on the stack, or a statement. -/
theorem collapsed_settles (hm : m.Ready tidy k []) {form : Collapsed}
    (hform : c.Collapsing tidy form) :
    Settles (c.Fails tidy) (collapsed m form) (collapsed m form) p
      (c.Onwards tidy k p.written) := by
  cases form with
  | value blocks e merge =>
    -- where all is tidy, there are no conditional values
    have hm' : Simulation.Ready tidy k [] (m.pushOn m.stack e) := by
      refine ⟨hm.opened, fun ht => ?_⟩
      obtain ⟨_, _, _, h⟩ := hform.stmt ht
      cases h
    apply settles_bind
    apply settles_modify
    exact settles_pure ⟨hform.merge, hm', List.subset_append_right blocks _⟩
  | stmt blocks s merge =>
    apply settles_bind
    apply settles_modify
    exact settles_append_onwards hm hform.merge (List.subset_append_right blocks _)

include hg

/-- A branch takes its operands from the stack, and collapses or becomes a statement. -/
theorem branch_settles (hn : n < c.graph.size) {taken fallthrough : Nat} {test : Branch}
    (hm : m.Ready tidy k (List.replicate test.pops .value))
    (hsucc : ∀ j, j ∈ c.graph.successors n ↔ j = taken ∨ j = fallthrough)
    (hlt : c.remaining frames p.written < bound) :
    Settles (c.Fails tidy) (c.branch walk frames n test taken fallthrough stop m)
      (c.branch walk' frames n test taken fallthrough stop m) p (c.Onwards tidy k p.written) := by
  apply settles_bind
  refine settles_of (hm.branchCondition.imp ?_)
  rintro ⟨cond, st⟩ hm
  apply settles_bind
  apply settles_position
  simp only
  generalize hfold : BranchTest.fold c m.scope _ _ n = folded
  obtain ⟨test, chain⟩ := folded
  have hchain := BranchTest.fold_chained hfold hsucc
  have htarget : ∀ j, j = test.taken ∨ j = test.fallthrough → j < c.graph.size := fun j hj => by
    obtain ⟨_, _, hleads⟩ := hchain.left j hj
    exact c.graph.lt_of_successor hleads
  have htaken := htarget _ (.inl rfl)
  have hfall := htarget _ (.inr rfl)
  -- the blocks of the chain are written before anything else is
  have hsub : p.written ⊆ chain ++ p.written := List.subset_append_right chain _
  have hlt' : c.remaining frames (chain ++ p.written) < bound := remaining_lt_of_subset hsub hlt
  apply settles_bind
  apply settles_modify
  apply settles_bind
  apply settles_position
  apply settles_bind
  have hplain := plainBranch_settles hw stop hm hn htaken hfall
    (p := { p with written := chain ++ p.written }) (W := chain ++ p.written) hlt'
  -- the attempt to collapse the branch may be given up, and then nothing has been done
  apply settles_tryIf
  · refine settles_of ((ternary_gives hg htaken hfall).imp fun choice hchoice => ?_)
    cases choice with
    | none => exact hplain.imp fun _ _ h => h.mono hsub
    | some form => exact (collapsed_settles hm (hchoice form rfl)).imp fun _ _ h => h.mono hsub
  · exact hplain.imp fun _ _ h => h.mono hsub

omit hg

/-! ### Switches -/

/-- An arm of a switch, with the jump at its end. -/
theorem switchArm_settles (hn : n < c.graph.size) (hs : scope.Opened k)
    {follow next : Option Nat} (hlt : c.remaining frames p.written < bound) :
    Settles (c.Fails tidy) (walk.switchArm frames follow next scope n)
      (walk'.switchArm frames follow next scope n) p fun r p' =>
        r.2.Opened k ∧ p.written ⊆ p'.written := by
  unfold Walk.switchArm
  split
  · exact settles_pure ⟨hs, List.Subset.refl _⟩
  · apply settles_bind
    refine (into_settles hw hn hs hlt ?_).imp ?_
    · exact .form rfl nofun
    rintro s p' ⟨hs', hsub⟩
    exact settles_of ((closeArm_gives hs').imp fun _ h => ⟨h, hsub⟩)

/-- All arms of a switch, one after the other. By induction on the entries. -/
theorem switchArms_settle {follow : Option Nat} (es : List ArmEntry)
    (hes : ∀ e ∈ es, e.start < c.graph.size) (hlt : c.remaining frames p.written < bound) :
    Settles (c.Fails tidy) (walk.switchArms frames follow scope es)
      (walk'.switchArms frames follow scope es) p fun _ p' => p.written ⊆ p'.written := by
  induction es generalizing p with
  | nil => exact settles_pure (List.Subset.refl _)
  | cons e es ih =>
    have he := hes e (List.mem_cons_self ..)
    apply settles_bind
    refine (switchArm_settles hw he (Scope.opened_child scope .switch) hlt).imp ?_
    rintro ⟨_, body⟩ p₁ ⟨hbody, hsub⟩
    apply settles_bind
    refine settles_of ((Scope.lock_gives hbody).imp fun _ _ => ?_)
    apply settles_bind
    have hlt₁ : c.remaining frames p₁.written < bound := remaining_lt_of_subset hsub hlt
    refine (ih (fun e he => hes e (List.mem_cons_of_mem _ he)) hlt₁).imp fun _ _ hsub' => ?_
    exact settles_pure (List.Subset.trans hsub hsub')

/-- A switch takes its key from the stack. -/
theorem switch_settles (hn : n < c.graph.size) (hm : m.Ready tidy k [.value]) {default : Nat}
    {cases : List (Int × Nat)}
    (hsucc : ∀ j, j ∈ c.graph.successors n ↔ j ∈ cases.map (·.2) ∨ j = default)
    (hlt : c.remaining frames p.written < bound) :
    Settles (c.Fails tidy) (c.switch walk frames n cases default stop m)
      (c.switch walk' frames n cases default stop m) p (c.Onwards tidy k p.written) := by
  apply settles_bind
  refine settles_of (hm.pop.imp ?_)
  rintro ⟨key, st⟩ hm
  apply settles_bind
  apply settles_failIf
  · exact .form rfl nofun
  intro _
  apply settles_bind
  apply settles_position
  simp only
  generalize Option.filter _ (c.graph.postDominator? n) = own
  -- a switch is no loop, so within it there is as much to enter as before
  rw [← remaining_switch own] at hlt
  apply settles_bind
  refine (switchArms_settle hw _ (fun e he => ?_) hlt).imp fun _ _ hsub => ?_
  · have hstart := mem_groupCases_iff.1 (List.mem_map_of_mem (f := (·.start)) he)
    exact c.graph.lt_of_successor ((hsucc e.start).2 (hstart.imp_right And.left))
  · exact settles_append_onwards hm (fun j hj => postDominator_lt hn hj) hsub

/-! ### Blocks -/

include hg

/-- A block is simulated, and then its terminator is written. -/
theorem blockCode_settles (hn : n < c.graph.size) (hm : m.Ready tidy k [])
    (hlt : c.remaining frames (n :: p.written) < bound) :
    Settles (c.Fails tidy) (c.blockCode walk frames n stop m) (c.blockCode walk' frames n stop m) p
      (c.Onwards tidy k (n :: p.written)) := by
  have hsub : n :: p.written ⊆ n :: p.written := List.Subset.refl _
  apply settles_bind
  apply settles_modify
  apply settles_bind
  refine (settles_simulate hg hn hm).imp ?_
  rintro m₁ _ ⟨rfl, hm₁⟩
  apply settles_bind
  apply settles_block hn
  intro b hb
  -- behind the instructions the stack holds the operands of the terminator and nothing more
  have hm₁ := hm₁ b hb
  have hsucc : ∀ j, j ∈ c.graph.successors n ↔ j ∈ b.exit.successors := fun _ =>
    FlowGraph.mem_successors_of_block hb
  cases hexit : b.exit with
  | goto t =>
    rw [hexit] at hm₁ hsucc
    have ht : t < c.graph.size := c.graph.lt_of_successor ((hsucc t).2 (List.mem_singleton_self t))
    exact settles_pure ⟨fun _ h => Option.some.inj h ▸ ht, hm₁, hsub⟩
  | ret =>
    rw [hexit] at hm₁
    exact settles_append_onwards hm₁ (fun _ h => by cases h) hsub
  | retValue | throw =>
    rw [hexit] at hm₁
    apply settles_bind
    refine settles_of (hm₁.pop.imp ?_)
    rintro ⟨e, st⟩ hm₂
    exact settles_append_onwards hm₂ (fun _ h => by cases h) hsub
  | branch test taken fallthrough =>
    rw [hexit] at hm₁ hsucc
    exact branch_settles hg hw hn hm₁
      (fun j => (hsucc j).trans Terminator.mem_successors_branch) hlt
  | switch cases default =>
    rw [hexit] at hm₁ hsucc
    exact switch_settles hw hn hm₁
      (fun j => (hsucc j).trans Terminator.mem_successors_switch) hlt


/-! ### Loops -/

omit hg in
/-- The attempt to write a loop that tests first. The header is open in the body, so fewer entries
    remain there. -/
theorem whileLoop_settles (hm : m.Ready tidy k []) {l : Loop} (hheader : l.header < c.graph.size)
    (hnew : l.header ∉ p.written) (hopen : frames.isHeader l.header = false)
    (hlt : c.remaining frames p.written ≤ bound) :
    Settles (c.Fails tidy) (c.whileLoop walk frames l m) (c.whileLoop walk' frames l m) p
      (c.Attempt tidy k l.header p) := by
  apply settles_bind
  apply settles_get
  split
  · exact settles_pure (Q := c.Attempt tidy k l.header p) rfl
  · rename_i t htest
    have hfirst : l.header ∈ t.chain := header_mem_chain htest
    obtain ⟨test, head, hhead, hfold, -, -, -, htargets⟩ := loopTest_inv htest
    have hchain := BranchTest.fold_chained hfold fun j => mem_successors_of_pureTest hhead
    have htarget : ∀ j, j = t.inside ∨ j = t.outside → j < c.graph.size := fun j hj => by
      obtain ⟨_, _, hleads⟩ := hchain.left j ((htargets j).2 hj)
      exact c.graph.lt_of_successor hleads
    have hsub : l.header :: p.written ⊆ t.chain ++ p.written :=
      List.cons_subset.2 ⟨List.mem_append_left _ hfirst, List.subset_append_right t.chain _⟩
    -- the loop that is begun here leaves one entry less for the body
    have hlt' : c.remaining (.loop l.header l.header l.body (some t.outside) :: frames)
        (t.chain ++ p.written) < bound := by
      have hbegun := remaining_loop_lt hheader hnew hopen l.header l.body (some t.outside)
      apply remaining_lt_of_subset (List.subset_append_right t.chain p.written)
      omega
    apply settles_bind
    apply settles_modify
    apply settles_bind
    refine (into_settles hw (htarget _ (.inl rfl)) (Scope.opened_child m.scope .loop) hlt'
      ?_).imp ?_
    · exact .form rfl nofun
    rintro body p₁ ⟨hbody, hsub₁⟩
    apply settles_bind
    refine settles_of ((promoteFor_gives hm.opened hbody).imp ?_)
    rintro ⟨stmt, scope⟩ hscope
    have hm' : Simulation.Ready tidy k [] { m with scope } := hm.withScope hscope
    apply settles_bind
    refine (settles_append hm' _).imp ?_
    rintro m'' _ ⟨hm'', rfl⟩
    apply settles_pure
    show c.Onwards tidy k (l.header :: p.written) _ _
    exact ⟨fun _ h => Option.some.inj h ▸ htarget _ (.inr rfl), hm'',
      List.Subset.trans hsub hsub₁⟩

omit hg in
/-- What a loop that tests last holds in front of its latch. -/
theorem doPrefix_settles {header latch : Nat} (hheader : header < c.graph.size)
    (hs : scope.Opened k) (hlt : c.remaining frames p.written < bound) :
    Settles (c.Fails tidy) (doPrefix walk frames header latch scope)
      (doPrefix walk' frames header latch scope) p fun s p' =>
        s.Opened k ∧ p.written ⊆ p'.written := by
  unfold doPrefix
  split
  · exact settles_pure ⟨hs, List.Subset.refl _⟩
  · apply into_settles hw hheader hs hlt
    exact .form rfl nofun

/-- The body of a loop that tests last, with its latch. -/
theorem doBody_settles {header latch taken fallthrough : Nat} {b : Block} {test : Branch}
    (hheader : header < c.graph.size) (hb : c.graph.block? latch = some b)
    (hexit : b.exit = .branch test taken fallthrough) (hs : scope.Opened k)
    (hlt : c.remaining frames p.written < bound) :
    Settles (c.Fails tidy) (c.doBody walk frames header latch test scope)
      (c.doBody walk' frames header latch test scope) p fun r p' =>
        r.2.Opened k ∧ header :: p.written ⊆ p'.written := by
  apply settles_bind
  refine (doPrefix_settles hw hheader hs hlt).imp ?_
  rintro s p₁ ⟨hs', hsub⟩
  -- header and latch are marked together, behind whatever the body has written
  have hsub' : header :: p.written ⊆ [header, latch] ++ p₁.written :=
    List.cons_subset.2 ⟨List.mem_cons_self .., List.Subset.trans hsub
      (List.subset_append_right [header, latch] _)⟩
  apply settles_bind
  apply settles_modify
  apply settles_bind
  have hlatch : latch < c.graph.size := (List.getElem?_eq_some_iff.1 hb).1
  refine (settles_simulate hg hlatch (.start hs')).imp ?_
  rintro m _ ⟨rfl, hm⟩
  have hm := hm b hb
  rw [hexit] at hm
  apply settles_bind
  refine settles_of (hm.branchCondition.imp ?_)
  rintro ⟨cond, st⟩ -
  apply settles_bind
  apply settles_failIf
  · exact .form rfl nofun
  intro _
  exact settles_pure ⟨hm.opened, hsub'⟩

/-- The attempt to write a loop that tests last. -/
theorem doLoop_settles (hm : m.Ready tidy k []) {l : Loop} (hheader : l.header < c.graph.size)
    (hnew : l.header ∉ p.written) (hopen : frames.isHeader l.header = false)
    (hlt : c.remaining frames p.written ≤ bound) :
    Settles (c.Fails tidy) (c.doLoop walk frames l m) (c.doLoop walk' frames l m) p
      (c.Attempt tidy k l.header p) := by
  unfold doLoop
  split
  · exact settles_pure (Q := c.Attempt tidy k l.header p) rfl
  · rename_i latch test outside onTaken htest
    obtain ⟨-, -, b, taken, fallthrough, hb, hexit, hchosen⟩ := latchTest_inv htest
    have houtside : outside < c.graph.size := c.graph.lt_of_successor
      ((mem_successors_of_chosen hb hexit hchosen outside).2 (.inr rfl))
    -- the header is not written yet, but now it is the header of a loop around
    have hlt' : c.remaining (.loop l.header latch l.body (some outside) :: frames) p.written
        < bound := by
      have hbegun := remaining_loop_lt hheader hnew hopen latch l.body (some outside)
      omega
    apply settles_bind
    -- so the body may begin with the header again, at a lower depth
    refine (doBody_settles hg hw hheader hb hexit (Scope.opened_child m.scope .loop) hlt').imp ?_
    rintro ⟨cond, body⟩ p₁ ⟨hbody, hsub⟩
    apply settles_bind
    refine settles_of ((Scope.lock_gives hbody).imp fun body' _ => ?_)
    apply settles_bind
    refine (settles_append hm _).imp ?_
    rintro m' _ ⟨hm', rfl⟩
    apply settles_pure
    show c.Onwards tidy k (l.header :: p.written) _ _
    exact ⟨fun _ h => Option.some.inj h ▸ houtside, hm', hsub⟩

/-- A loop without a test, whose header is written inside. -/
theorem endlessLoop_settles (hm : m.Ready tidy k []) {l : Loop} (hl : c.graph.loopAt? n = some l)
    (hheader : l.header < c.graph.size) (hnew : l.header ∉ p.written)
    (hopen : frames.isHeader l.header = false) (hlt : c.remaining frames p.written ≤ bound) :
    Settles (c.Fails tidy) (c.endlessLoop walk (c.blockCode walk) frames l m)
      (c.endlessLoop walk' (c.blockCode walk') frames l m) p
      (c.Onwards tidy k (l.header :: p.written)) := by
  have hlt' : c.remaining (.loop l.header l.header l.body (c.loopFollow? l.exitTargets) :: frames)
      (l.header :: p.written) < bound := by
    have hbegun := remaining_loop_lt hheader hnew hopen l.header l.body
      (c.loopFollow? l.exitTargets)
    apply remaining_lt_of_subset (List.subset_cons_self l.header p.written)
    omega
  apply settles_bind
  refine (blockCode_settles hg hw hheader (.start (Scope.opened_child m.scope .loop)) hlt').imp ?_
  intro onward p₁ honward
  apply settles_bind
  refine (goOn_settles hw onward honward hlt').imp ?_
  rintro body p₂ ⟨hbody, hsub⟩
  apply settles_bind
  apply settles_failIf
  · exact .form rfl nofun
  intro _
  apply settles_bind
  refine settles_of ((dropContinue_gives hbody.opened).imp fun body₁ hbody₁ => ?_)
  apply settles_bind
  refine settles_of ((Scope.lock_gives hbody₁).imp fun body₂ _ => ?_)
  -- the block behind the loop is where one of its blocks leaves it
  refine settles_append_onwards hm (fun j hj => ?_) (List.Subset.trans honward.written hsub)
  obtain ⟨_, _, hleads, _⟩ := exists_of_exitTarget hl (mem_of_loopFollow hj)
  exact c.graph.lt_of_successor hleads

/-- A loop in the first of the three forms that fits. -/
theorem loop_settles (hn : n < c.graph.size) (hm : m.Ready tidy k []) {l : Loop}
    (hl : c.graph.loopAt? n = some l) (hnew : n ∉ p.written) (hopen : frames.isHeader n = false)
    (hlt : c.remaining frames p.written ≤ bound) :
    Settles (c.Fails tidy) (c.loop walk (c.blockCode walk) frames l m)
      (c.loop walk' (c.blockCode walk') frames l m) p (c.Onwards tidy k (n :: p.written)) := by
  obtain rfl : l.header = n := c.graph.header_of_loopAt hl
  apply settles_bind
  apply settles_failIf
  · exact .form rfl nofun
  intro _
  apply settles_bind
  refine (settles_tryIf (whileLoop_settles hw hm hn hnew hopen hlt) rfl).imp ?_
  intro r p₁ hr
  cases r with
  | some r => exact settles_pure hr
  | none =>
    obtain rfl : p₁ = p := hr
    apply settles_bind
    refine (settles_tryIf (doLoop_settles hg hw hm hn hnew hopen hlt) rfl).imp ?_
    intro r p₂ hr
    cases r with
    | some r => exact settles_pure hr
    | none =>
      obtain rfl : p₂ = p₁ := hr
      exact endlessLoop_settles hg hw hm hl hn hnew hopen hlt

/-! ### Regions -/

/-- A block that is entered, as the header of a loop or as a plain block. -/
theorem entered_settles (hn : n < c.graph.size) (hm : m.Ready tidy k []) (hnew : n ∉ p.written)
    (hlt : c.remaining frames p.written ≤ bound) :
    Settles (c.Fails tidy) (c.entered walk frames n stop m) (c.entered walk' frames n stop m) p
      (c.Onwards tidy k (n :: p.written)) := by
  -- also the header of a loop is a plain block inside that loop
  have hblock : Settles (c.Fails tidy) (c.blockCode walk frames n stop m)
      (c.blockCode walk' frames n stop m) p (c.Onwards tidy k (n :: p.written)) := by
    have hwritten := remaining_cons_lt frames hn hnew
    exact blockCode_settles hg hw hn hm (by omega)
  unfold entered
  split
  · rename_i l hl
    split
    · exact hblock
    · rename_i hopen
      exact loop_settles hg hw hn hm hl hnew (by simpa using hopen) hlt
  · exact hblock

omit hg hw in
/-- A jump to a label. -/
theorem gotoLabel_settles (hm : m.Ready tidy k []) :
    Settles (c.Fails tidy) (c.gotoLabel n m) (c.gotoLabel n m) p fun m' p' =>
      m'.Ready tidy k [] ∧ p.written ⊆ p'.written := by
  apply settles_bind
  apply settles_failIf
  · exact .form rfl nofun
  intro _
  apply settles_bind
  apply settles_failIf
  · exact .form rfl nofun
  intro _
  apply settles_bind
  apply settles_modify
  exact (settles_append hm _).imp fun _ _ h => ⟨h.1, h.2 ▸ List.Subset.refl _⟩

omit hg hw in
/-- The label in front of a block, if it gets one. -/
theorem labelled_settles (hm : m.Ready tidy k []) {labels : List Nat} :
    Settles (c.Fails tidy) (labelled labels n m) (labelled labels n m) p fun m' p' =>
      m'.Ready tidy k [] ∧ p'.written = p.written := by
  unfold labelled
  split
  · apply settles_bind
    apply settles_failIf
    · exact .form rfl nofun
    intro _
    apply settles_bind
    apply settles_modify
    exact settles_of ((hm.append _).imp fun _ hm' => ⟨hm', rfl⟩)
  · exact settles_pure ⟨hm, rfl⟩

/-- One step more of the walk needs one more. -/
theorem regionStep_settles (labels : List Nat) :
    Walk.Settles c tidy (bound + 1) (c.regionStep labels walk) (c.regionStep labels walk') := by
  intro frames n stop m p k hn hm hlt
  have hleave : ∀ s, Settles (c.Fails tidy) (Pass.append m s) (Pass.append m s) p fun m' p' =>
      m'.Ready tidy k [] ∧ p.written ⊆ p'.written := fun s => by
    refine (settles_append hm s).imp ?_
    rintro m' _ ⟨hm', rfl⟩
    exact ⟨hm', List.Subset.refl _⟩
  apply settles_bind
  apply settles_position
  cases hjump : c.jump ⟨frames, p.written, stop⟩ n with
  | stop => exact settles_pure ⟨hm, List.Subset.refl _⟩
  | nextRound | leave => exact hleave _
  | invalid => exact gotoLabel_settles hm
  | enter =>
    have hnew : n ∉ p.written := not_mem_written_of_enter hjump
    apply settles_bind
    refine (labelled_settles hm).imp ?_
    rintro m₁ p₁ ⟨hm₁, hp₁⟩
    -- a label is no progress, but the block behind it is
    rw [← hp₁] at hnew hlt ⊢
    have hlt' : c.remaining frames (n :: p₁.written) < bound := by
      have hwritten := remaining_cons_lt frames hn hnew
      omega
    apply settles_bind
    refine (entered_settles hg hw hn hm₁ hnew (by omega)).imp fun r p₂ hr => ?_
    refine (goOn_settles hw r hr hlt').imp ?_
    rintro m' p' ⟨hm', hsub⟩
    exact ⟨hm', List.Subset.trans (List.Subset.trans (List.subset_cons_self n _) hr.written) hsub⟩

omit hw in
/-- More depth than blocks may be entered changes nothing. -/
theorem region_settles (labels : List Nat) {fuel fuel' : Nat} (hle : fuel ≤ fuel') :
    Walk.Settles c tidy fuel (c.region labels fuel) (c.region labels fuel') := by
  induction fuel generalizing fuel' with
  | zero =>
    -- nothing less than zero can remain
    intro frames n stop m p k _ _ hlt
    omega
  -- both walks take one step, with the walks of less depth inside
  | succ fuel ih =>
    cases fuel' with
    | zero => omega
    | succ fuel' => exact regionStep_settles hg (ih (by omega)) labels

end Context

end Restructure
