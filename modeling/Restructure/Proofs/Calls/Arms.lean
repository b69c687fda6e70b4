import Mathlib.Data.List.Forall2
import Restructure.Proofs.Calls.Blocks

namespace Restructure

/-!
# Arms — the arm that a switch chooses leads where the block does

The arms of a switch are grouped by their targets. If the keys are distinct, the arm with a key
begins at the target of that key, and without such an arm the default is taken, be it an arm or the
code behind the switch.

* `switchTarget_of_mem`, `switchTarget_of_not_mem` — the target of a value.
* `ArmRun.select_follows` — the chosen arm follows the target.
-/

/-! ### Targets -/

section Targets

variable {cases : List (Int × Nat)} {default : Nat} {v : Int} {t : Nat}

/-- The target of a key. -/
theorem switchTarget_of_mem (hkeys : (cases.map (·.1)).Nodup) (h : (v, t) ∈ cases) :
    switchTarget cases default v = t := by
  unfold switchTarget
  split
  · rename_i k hk
    have hmem := List.mem_of_find?_eq_some hk
    have hkey : k.1 = v := by simpa using List.find?_some hk
    have := List.inj_on_of_nodup_map hkeys hmem h hkey
    rw [this]
  · rename_i hnone
    have := List.find?_eq_none.1 hnone _ h
    simp at this

/-- Without the key the target is the default. -/
theorem switchTarget_of_not_mem (h : ∀ t, (v, t) ∉ cases) :
    switchTarget cases default v = default := by
  unfold switchTarget
  split
  · rename_i k hk
    have hkey : k.1 = v := by simpa using List.find?_some hk
    rw [← hkey] at h
    exact absurd (List.mem_of_find?_eq_some hk) (h k.2)
  · rfl

end Targets

/-! ### The chosen arm -/

/-- The run from an arm on follows its target. -/
structure ArmRun.Leads (n : Nat) (next : Nat → Run) (e : ArmEntry) (r : ArmRun) : Prop where
  labels : r.labels = e.keys
  isDefault : r.isDefault = e.isDefault
  run : Run.Follows n r.run (next e.start)

/-- What is on one side of related lists is related to something on the other side. -/
theorem exists_of_forall₂ {α β : Type} {R : α → β → Prop} {xs : List α} {ys : List β}
    (h : List.Forall₂ R xs ys) : (∀ x ∈ xs, ∃ y ∈ ys, R x y) ∧ ∀ y ∈ ys, ∃ x ∈ xs, R x y := by
  induction h with
  | nil => simp
  | cons hxy _ ih =>
    refine ⟨fun x hx => ?_, fun y hy => ?_⟩
    · rcases List.mem_cons.1 hx with rfl | hx
      · exact ⟨_, List.mem_cons_self .., hxy⟩
      · obtain ⟨y, hy, hR⟩ := ih.1 x hx
        exact ⟨y, List.mem_cons_of_mem _ hy, hR⟩
    · rcases List.mem_cons.1 hy with rfl | hy
      · exact ⟨_, List.mem_cons_self .., hxy⟩
      · obtain ⟨x, hx, hR⟩ := ih.2 y hy
        exact ⟨x, List.mem_cons_of_mem _ hx, hR⟩

/-- The arm that is chosen for a value follows the target of that value. -/
theorem ArmRun.select_follows {cases : List (Int × Nat)} {default n : Nat} {follow : Option Nat}
    {next : Nat → Run} {rs : List ArmRun} {behind : Run} (hkeys : (cases.map (·.1)).Nodup)
    (hrs : List.Forall₂ (Leads n next) (groupCases cases default follow) rs)
    (hbehind : follow = some default → Run.Follows n behind (next default)) (v : Int) :
    Run.Follows n (select rs v behind) (next (switchTarget cases default v)) := by
  obtain ⟨hleft, hright⟩ := exists_of_forall₂ hrs
  unfold select
  split
  · rename_i r hr
    obtain ⟨e, he, hlead⟩ := hright r (List.mem_of_find?_eq_some hr)
    have hv : v ∈ e.keys := by
      rw [← hlead.labels]
      simpa using List.find?_some hr
    rw [switchTarget_of_mem hkeys (exists_key_iff.1 ⟨e, he, rfl, hv⟩)]
    exact hlead.run
  · rename_i hnone
    -- no arm has the key, so no case has it
    have hno : ∀ t, (v, t) ∉ cases := by
      intro t ht
      obtain ⟨e, he, _, hv⟩ := exists_key_iff.2 ht
      obtain ⟨r, hr, hlead⟩ := hleft e he
      have := List.find?_eq_none.1 hnone r hr
      rw [hlead.labels] at this
      exact this (by simpa using hv)
    rw [switchTarget_of_not_mem hno]
    split
    · rename_i r hr
      obtain ⟨e, he, hlead⟩ := hright r (List.mem_of_find?_eq_some hr)
      have hdefault : e.isDefault = true := hlead.isDefault ▸ List.find?_some hr
      obtain ⟨hstart, _⟩ := exists_default_iff.1 ⟨e, he, rfl, hdefault⟩
      exact hstart ▸ hlead.run
    · rename_i hnone'
      -- the default has an arm, unless control goes on behind the switch for it
      refine hbehind ?_
      by_contra hfollow
      obtain ⟨e, he, _, hdefault⟩ := exists_default_iff.2 ⟨rfl, hfollow⟩
      obtain ⟨r, hr, hlead⟩ := hleft e he
      have := List.find?_eq_none.1 hnone' r hr
      exact this (hlead.isDefault ▸ hdefault)

end Restructure
