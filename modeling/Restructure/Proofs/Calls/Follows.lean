import Restructure.Proofs.Calls.Run

namespace Restructure

/-!
# Following — runs that see the same until a `continue` misses a call

* `Event.Agree` — two runs see the same calls, or the same up to a `continue` of a `do` loop where
  the other run makes one more call before the condition.
* `Run.Follows` — what is seen from two points on agrees up to a number of calls.

What comes behind a call needs to agree only up to one call less. So a loop follows what each of
its rounds follows, by induction on the number of calls.
-/

namespace Event

/-- The first run sees what the second one sees, as long as no `continue` of a `do` loop misses a
    call. -/
inductive Agree : List Event → List Event → Prop
  | nil : Agree [] []
  | call {m : MethodRef} {es fs : List Event} (h : Agree es fs) :
      Agree (.call m :: es) (.call m :: fs)
  | missed {m m' : MethodRef} {es fs : List Event} (h : m ≠ m') :
      Agree (.retest :: .call m :: es) (.call m' :: fs)

/-- The calls are the same exactly if no `continue` comes up. -/
theorem Agree.calls_eq_iff {es fs : List Event} (h : Agree es fs) :
    es.filterMap method? = fs.filterMap method? ↔ Event.retest ∉ es := by
  induction h with
  | nil => simp
  | call _ ih => simpa [method?] using ih
  | missed h => simp [List.filterMap_cons, method?, h]

end Event

namespace Run

variable {answers : Answers} {n n' : Nat} {r r' g g' : Run}

/-- The first `n` calls from one point on agree with those from another one. -/
def Follows (n : Nat) (r g : Run) : Prop := ∀ i ≤ n, ∀ k, Event.Agree (r i k) (g i k)

/-- A run that follows for long follows for a shorter time, too. -/
theorem Follows.mono (h : Follows n r g) (hn : n' ≤ n) : Follows n' r g :=
  fun i hi k => h i (Nat.le_trans hi hn) k

/-- No calls are left. -/
theorem follows_halt (n : Nat) : Follows n halt halt := fun _ _ _ => .nil

/-- Both runs make the same call. -/
theorem follows_call {m : MethodRef} (h : ∀ i < n, Follows i r g) :
    Follows n (call m r) (call m g) := by
  intro i hi k
  cases i with
  | zero => exact .nil
  | succ i => exact .call (h i hi i (Nat.le_refl i) k)

/-- Both runs ask the same test. -/
theorem follows_ask {m : MethodRef} {f f' : Int → Run} (h : ∀ v, ∀ i < n, Follows i (f v) (f' v)) :
    Follows n (ask answers m f) (ask answers m f') := by
  intro i hi k
  cases i with
  | zero => exact .nil
  | succ i => exact .call (h (answers k) i hi i (Nat.le_refl i) (k + 1))

/-- A `continue` to a condition that calls another method. -/
theorem follows_retest {m m' : MethodRef} {f : Int → Run} (h : m ≠ m') :
    Follows n (retest (ask answers m f)) (call m' g) := by
  intro i _ k
  cases i with
  | zero => exact .nil
  | succ i => exact .missed h

/-- A loop follows what every round follows if the next round does so for fewer calls. -/
theorem follows_loop {round : Run → Run}
    (h : ∀ i ≤ n, ∀ again, (∀ j < i, Follows j again g) → Follows i (round again) g) :
    Follows n (loop round) g := by
  have hrounds : ∀ i ≤ n, ∀ room, i < room → Follows i (rounds round room) g := by
    intro i
    induction i using Nat.strongRecOn with
    | ind i ih =>
      intro hi room hroom
      cases room with
      | zero => exact absurd hroom (Nat.not_lt_zero i)
      | succ room =>
        refine h i hi _ fun j hj => ?_
        exact ih j hj (by omega) room (by omega)
  intro i hi k
  exact hrounds i hi (i + 1) (Nat.lt_succ_self i) i (Nat.le_refl i) k

end Run

end Restructure
