import Mathlib.Data.List.Nodup
import Mathlib.Data.List.Perm.Subperm
import Mathlib.Logic.Relation
import Restructure.Hierarchy

namespace Restructure

/-!
# Assignability — the bounded walk decides whether superclass links lead to a class

* `Hierarchy.Extends` — a known class and its superclass.
* `Hierarchy.Lineage` — the classes whose links lead from one class to another.  Where there is a
  lineage, there is one without repetitions, however the links run in circles.
* `Hierarchy.inherits_iff` — any walk of at least as many links as there are classes is long
  enough.
* `Hierarchy.isAssignable_exactly` — the main statement.
-/

namespace Descriptor

/-- A descriptor that starts as an object type and ends as one names the class between. -/
theorem eq_object_iff {d name : String} :
    d = object name ↔ d.toList = 'L' :: (name.toList ++ [';']) := by
  rw [← String.toList_inj, object, String.toList_append, String.toList_append]
  rfl

end Descriptor

namespace Hierarchy

variable {h : Hierarchy} {a b c : String} {cs : List String}

/-! ### Names -/

/-- A descriptor has the name of the class that it is the descriptor of. -/
theorem internalName?_eq_some_iff {d name : String} :
    internalName? d = some name ↔ d = Descriptor.object name := by
  rw [Descriptor.eq_object_iff]
  refine ⟨fun h => ?_, fun h => ?_⟩
  · simp only [internalName?] at h
    split at h
    · next rest hd =>
      split at h
      · next hlast =>
        obtain rfl := Option.some.inj h
        rw [hd, String.toList_ofList, List.dropLast_append_getLast? _ hlast]
      · cases h
    · cases h
  · simp [internalName?, h]

/-! ### Superclass links -/

/-- The class `a` is known, and its superclass is `b`. -/
def Extends (h : Hierarchy) (a b : String) : Prop :=
  ∃ c, h.find? a = some c ∧ c.superName = some b

/-- A class extends the superclass that it declares. -/
theorem extends_iff : h.Extends a b ↔ (h.find? a).bind (·.superName) = some b :=
  Option.bind_eq_some_iff.symm

/-- A class with a superclass is one of the known classes. -/
theorem Extends.mem_names (hab : h.Extends a b) : a ∈ h.classes.map (·.name) := by
  obtain ⟨c, hc, _⟩ := hab
  rw [find?] at hc
  have hname := List.find?_some hc
  exact List.mem_map.2 ⟨c, List.mem_of_find?_eq_some hc, eq_of_beq hname⟩

/-! ### Lineages -/

/-- The classes whose superclass links lead from `a` to `b`, beginning with `a`. -/
inductive Lineage (h : Hierarchy) (b : String) : (a : String) → List String → Prop
  | last {a : String} (link : h.Extends a b) : Lineage h b a [a]
  | cons {a c : String} {cs : List String} (link : h.Extends a c) (rest : Lineage h b c cs) :
      Lineage h b a (a :: cs)

/-- A lineage goes on from each of its classes. -/
theorem Lineage.drop (hab : h.Lineage b a cs) (hc : c ∈ cs) :
    ∃ ds, h.Lineage b c ds ∧ ds <:+ cs := by
  induction hab with
  | last link =>
    obtain rfl := List.mem_singleton.1 hc
    exact ⟨_, .last link, List.suffix_refl _⟩
  | cons link rest ih =>
    rcases List.mem_cons.1 hc with rfl | hc
    · exact ⟨_, .cons link rest, List.suffix_refl _⟩
    · obtain ⟨ds, hds, hsuffix⟩ := ih hc
      exact ⟨ds, hds, hsuffix.trans (List.suffix_cons _ _)⟩

/-- Links that lead from one class to another also do so without passing a class twice. -/
theorem exists_nodup_lineage (hab : Relation.TransGen h.Extends a b) :
    ∃ cs, h.Lineage b a cs ∧ cs.Nodup := by
  -- by induction from the far end: each link is put in front of a lineage without repetitions
  induction hab using Relation.TransGen.head_induction_on with
  | single link => exact ⟨_, .last link, List.nodup_singleton _⟩
  | @head a c link _ ih =>
    obtain ⟨cs, hcs, hnodup⟩ := ih
    by_cases ha : a ∈ cs
    · -- the walk comes back to `a`: its part from there on is enough
      obtain ⟨ds, hds, hsuffix⟩ := hcs.drop ha
      exact ⟨ds, hds, hnodup.sublist hsuffix.sublist⟩
    · exact ⟨a :: cs, .cons link hcs, List.nodup_cons.2 ⟨ha, hnodup⟩⟩

/-- All classes of a lineage are declared. -/
theorem Lineage.subset_names (hab : h.Lineage b a cs) : cs ⊆ h.classes.map (·.name) := by
  induction hab with
  | last link => simpa using link.mem_names
  | cons link _ ih => exact List.cons_subset.2 ⟨link.mem_names, ih⟩

/-- A lineage without repetitions has no more links than there are classes. -/
theorem Lineage.length_le (hab : h.Lineage b a cs) (hnodup : cs.Nodup) : cs.length ≤ h.size := by
  have hle := (hnodup.subperm hab.subset_names).length_le
  rwa [List.length_map] at hle

/-! ### The bounded walk -/

/-- A walk that is as long as a lineage comes to its end. -/
theorem Lineage.inherits (hab : h.Lineage b a cs) {fuel : Nat} (hfuel : cs.length ≤ fuel) :
    h.inherits fuel a b = true := by
  -- every link of the lineage takes one step of the walk
  induction hab generalizing fuel with
  | last link =>
    obtain ⟨fuel, rfl⟩ := Nat.exists_eq_add_of_le' hfuel
    simp [Hierarchy.inherits, extends_iff.1 link]
  | cons link _ ih =>
    obtain ⟨fuel, rfl⟩ := Nat.exists_eq_add_of_le' (Nat.le_trans (Nat.le_add_left 1 _) hfuel)
    simp [Hierarchy.inherits, extends_iff.1 link, ih (Nat.le_of_succ_le_succ hfuel)]

/-- What a walk comes to is reached by links. -/
theorem transGen_of_inherits {fuel : Nat} (hab : h.inherits fuel a b = true) :
    Relation.TransGen h.Extends a b := by
  induction fuel generalizing a with
  | zero => cases hab
  | succ fuel ih =>
    simp only [inherits] at hab
    split at hab
    · cases hab
    · next parent hparent =>
      have link : h.Extends a parent := extends_iff.2 hparent
      rcases Bool.or_eq_true_iff.1 hab with heq | hrest
      · exact .single (eq_of_beq heq ▸ link)
      · exact .head link (ih hrest)

/-- A walk of as many links as there are classes, or more, comes to all that links lead to. -/
theorem inherits_iff {fuel : Nat} (hfuel : h.size ≤ fuel) :
    h.inherits fuel a b = true ↔ Relation.TransGen h.Extends a b := by
  refine ⟨transGen_of_inherits, fun hab => ?_⟩
  obtain ⟨cs, hcs, hnodup⟩ := exists_nodup_lineage hab
  exact hcs.inherits (Nat.le_trans (hcs.length_le hnodup) hfuel)

/-! ### Assignability -/

/-- References are objects and arrays. -/
theorem isReference_iff {d : String} : Descriptor.isReference d = true ↔
    d.toList.head? = some 'L' ∨ d.toList.head? = some '[' := by
  simp [Descriptor.isReference, Descriptor.isArray]

/-- Every reference may stand where the root class is expected. -/
theorem isAssignable_root {source : String} (hne : source ≠ Descriptor.root) :
    h.isAssignable source Descriptor.root = true ↔
      source.toList.head? = some 'L' ∨ source.toList.head? = some '[' := by
  rw [isAssignable, if_neg hne, if_pos rfl, isReference_iff]

/-- The walk is taken for two object types only. -/
theorem isAssignable_of_ne {source target : String} (hne : source ≠ target)
    (hroot : target ≠ Descriptor.root) : h.isAssignable source target = true ↔
      ∃ a b, source = Descriptor.object a ∧ target = Descriptor.object b ∧
        Relation.TransGen h.Extends a b := by
  simp only [isAssignable, hne, hroot, if_false, ← internalName?_eq_some_iff]
  cases hs : internalName? source <;> cases ht : internalName? target <;>
    simp [inherits_iff (Nat.le_succ h.size)]

/-- **Assignability.** A value may stand where another type is expected exactly if the types are
    equal, or the root class is expected and the value is a reference, or one or more superclass
    links of known classes lead from its class to the expected one.  No longer walk would find
    more. -/
theorem isAssignable_exactly (h : Hierarchy) (source target : String) :
    (h.isAssignable source target = true ↔
      source = target ∨
        target = Descriptor.root ∧
          (source.toList.head? = some 'L' ∨ source.toList.head? = some '[') ∨
        target ≠ Descriptor.root ∧ ∃ a b, source = Descriptor.object a ∧
          target = Descriptor.object b ∧ Relation.TransGen h.Extends a b) ∧
      ∀ a b, h.inherits (h.size + 1) a b = true ↔ ∃ fuel, h.inherits fuel a b = true := by
  refine ⟨?_, fun a b => ⟨fun hab => ⟨_, hab⟩, fun ⟨_, hab⟩ => ?_⟩⟩
  · by_cases hne : source = target
    · simp [isAssignable, hne]
    · by_cases hroot : target = Descriptor.root
      · subst hroot
        rw [isAssignable_root hne]
        simp [hne]
      · rw [isAssignable_of_ne hne hroot]
        simp [hne, hroot]
  · exact (inherits_iff (Nat.le_succ h.size)).2 (transGen_of_inherits hab)

/-- Two classes, each the superclass of the other one: a walk that misses its target ends. -/
example : (ofList [⟨"a/A", some "a/B", []⟩, ⟨"a/B", some "a/A", []⟩]).isAssignable "La/A;" "La/C;"
    = false := by decide +kernel

end Hierarchy

end Restructure
