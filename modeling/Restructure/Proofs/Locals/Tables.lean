import Restructure.Proofs.Locals.Uses
import Restructure.Proofs.Simulation.Moves

namespace Restructure

/-!
# Tables — the locals that instructions bind and name

A table begins with the parameters, and a slot that is not among them is bound to a local named
after it when an instruction names it first. So all tables agree on the names of slots, although
each binds only what is used in its scope.

* `Locals.Names` — the name of a local is the one of its slot.
* `Locals.Extends` — a table that has grown from the parameters.
* `Use.Fits` — an occurrence of a local with the right name, which is bound unless it is moved.
* `Expr.allFit_stored`, `Stmt.fits_assign` — what is made of values that fit does so as well.
* `Cond.Fits` — a condition with such occurrences; joined tests may come from other scopes.
-/

/-! ### Names of slots -/

/-- The local is the one that the parameters bind to its slot, or it is named after its slot. -/
def Locals.Names (params : Locals) (v : Local) : Prop :=
  match params.find? v.slot with
  | some w => v = w
  | none => v.name = "local" ++ toString v.slot

/-- The table binds the parameters, and all its locals have the names of their slots. -/
structure Locals.Extends (t params : Locals) : Prop where
  kept : ∀ slot v, params.find? slot = some v → t.find? slot = some v
  names : ∀ slot v, t.find? slot = some v → params.Names v

variable {params t t' : Locals} {v w : Local} {slot : Nat}

/-- The local found for a slot has this slot. -/
theorem Locals.slot_of_find (h : t.find? slot = some v) : v.slot = slot := by
  simpa using List.find?_some h

/-- A parameter is named. -/
theorem Locals.names_of_find (h : params.find? slot = some v) : params.Names v := by
  unfold Names
  rw [slot_of_find h, h]

/-- Locals of one slot have the same name. -/
theorem Locals.Names.name_eq (hv : params.Names v) (hw : params.Names w) (h : v.slot = w.slot) :
    v.name = w.name := by
  unfold Names at hv hw
  rw [h] at hv
  split at hv
  · rename_i u hu
    rw [hu] at hw
    rw [hv, hw]
  · rename_i hu
    rw [hu] at hw
    rw [hv, hw]

namespace Locals.Extends

/-- The parameters extend themselves. -/
theorem refl (params : Locals) : params.Extends params := ⟨fun _ _ h => h, fun _ _ => names_of_find⟩

/-- A slot that is not bound is bound to a local named after it. -/
theorem declare (h : t.Extends params) {type : String} (hnone : t.find? slot = none) :
    (t.declare ⟨slot, "local" ++ toString slot, type⟩).Extends params where
  kept k v hv := by
    have hkept := h.kept k v hv
    rw [find?_declare]
    split
    · rename_i heq
      obtain rfl : k = slot := heq
      rw [hnone] at hkept
      cases hkept
    · exact hkept
  names k v hv := by
    rw [find?_declare] at hv
    split at hv
    · cases hv
      -- a parameter would have been bound already
      have hfree : params.find? slot = none := by
        cases hfind : params.find? slot with
        | none => rfl
        | some w => exact absurd (h.kept slot w hfind) (by simp [hnone])
      unfold Names
      simp only [hfree]
    · exact h.names k v hv

end Locals.Extends

/-! ### Occurrences -/

/-- The occurrence has the name of its slot, and it is bound by the table unless it is moved. -/
structure Use.Fits (params t : Locals) (u : Use) : Prop where
  names : params.Names u.v
  bound : u.moved = false → t.find? u.v.slot = some u.v

/-- All occurrences fit. -/
def Use.AllFit (params t : Locals) (us : List Use) : Prop := ∀ u ∈ us, u.Fits params t

namespace Use

variable {us vs : List Use}

/-- No occurrences fit. -/
theorem allFit_nil : AllFit params t [] := List.forall_mem_nil _

/-- One occurrence that fits. -/
theorem allFit_singleton {b : Bool} (h : Use.Fits params t ⟨v, b⟩) :
    AllFit params t [⟨v, b⟩] := List.forall_mem_singleton.2 h

/-- Two lists of occurrences fit if each of them does. -/
@[simp] theorem allFit_append :
    AllFit params t (us ++ vs) ↔ AllFit params t us ∧ AllFit params t vs :=
  List.forall_mem_append

/-- What is moved has to have the right name only. -/
theorem AllFit.move (h : AllFit params t us) : AllFit params t' (us.map Use.move) := by
  intro u hu
  obtain ⟨w, hw, rfl⟩ := List.mem_map.1 hu
  exact ⟨(h w hw).names, fun hmoved => by cases hmoved⟩

/-- A table that binds more locals. -/
theorem AllFit.mono (h : AllFit params t us)
    (hgrow : ∀ slot v, t.find? slot = some v → t'.find? slot = some v) : AllFit params t' us :=
  fun u hu => ⟨(h u hu).names, fun hmoved => hgrow _ _ ((h u hu).bound hmoved)⟩

end Use

open Use

namespace Expr

variable {e : Expr} {es : List Expr} {b : Bool}

/-- A value that is moved into another scope. -/
theorem fits_moved (h : AllFit params t (e.uses b)) : AllFit params t' (e.uses true) :=
  e.uses_true b ▸ h.move

/-- A list of values fits if each of them does. -/
theorem allFit_allUses (h : ∀ e ∈ es, AllFit params t (e.uses b)) :
    AllFit params t (allUses es b) := by
  induction es with
  | nil => exact allFit_nil
  | cons e es ih =>
    obtain ⟨he, hes⟩ := List.forall_mem_cons.1 h
    exact allFit_append.2 ⟨he, ih hes⟩

/-- If a list of values fits, each of them does. -/
theorem allFit_of_allUses (h : AllFit params t (allUses es b)) :
    ∀ e ∈ es, AllFit params t (e.uses b) := by
  induction es with
  | nil => exact List.forall_mem_nil _
  | cons e es ih =>
    obtain ⟨he, hes⟩ := allFit_append.1 h
    exact List.forall_mem_cons.2 ⟨he, ih hes⟩

/-- A store into an array that is being constructed. -/
theorem allFit_stored {array index value filled : Expr} (ha : AllFit params t (array.uses b))
    (hv : AllFit params t (value.uses b)) (h : stored? array index value = some filled) :
    AllFit params t (filled.uses b) := by
  have hset : ∀ {values : List Expr} {i : Nat}, (∀ v ∈ values, AllFit params t (v.uses b)) →
      AllFit params t (allUses (values.set i value) b) := by
    intro values i hvalues
    refine allFit_allUses fun v hmem => ?_
    rcases List.mem_or_eq_of_mem_set hmem with hmem | rfl
    · exact hvalues v hmem
    · exact hv
  unfold stored? at h
  split at h
  · split at h
    · split at h
      · cases h
        refine allFit_append.2 ⟨ha, hset fun v hmem => ?_⟩
        rw [List.eq_of_mem_replicate hmem]
        exact allFit_nil
      · cases h
    · cases h
  · obtain ⟨hsize, hvalues⟩ := allFit_append.1 ha
    split at h
    · split at h
      · cases h
        exact allFit_append.2 ⟨hsize, hset (allFit_of_allUses hvalues)⟩
      · cases h
    · cases h
  · cases h

end Expr

/-- In an arm all occurrences in a place are moved ones. -/
theorem Place.uses_true (b : Bool) (target : Place) :
    target.uses true = (target.uses b).map Use.move := by
  cases target with
  | var v => rfl
  | field f r => exact r.uses_true b
  | static f => rfl
  | element a i => rw [Place.uses, Place.uses, List.map_append, a.uses_true b, i.uses_true b]

/-- An assignment fits if its destination and its value do. -/
theorem Stmt.fits_assign {target : Place} {value : Expr}
    (ht : AllFit params t (target.uses false)) (hv : AllFit params t (value.uses false)) :
    AllFit params t (Stmt.assign target value).uses := by
  refine allFit_append.2 ⟨?_, hv⟩
  cases value.isTernary with
  | false => exact ht
  | true =>
    rw [target.uses_true false]
    exact ht.move

/-! ### Conditions -/

/-- The condition is normal, and all occurrences in it fit. -/
structure Cond.Fits (params t : Locals) (b : Bool) (c : Cond) : Prop where
  normal : c.Normal
  uses : AllFit params t (c.uses b)

namespace Cond.Fits

variable {c d : Cond} {b : Bool}

/-- The negation of a condition fits as the condition does. -/
protected theorem negate (h : c.Fits params t b) : c.negate.Fits params t b :=
  ⟨h.normal.negate, h.normal.uses_negate ▸ h.uses⟩

/-- A condition that is moved into another scope. -/
theorem moved (h : c.Fits params t b) : c.Fits params t' true :=
  ⟨h.normal, c.uses_true b ▸ h.uses.move⟩

/-- The second test of a conjunction may fit another table, as it is not always asked. -/
protected theorem all (hc : c.Fits params t b) (hd : d.Fits params t' true) :
    (Cond.all [c, d]).Fits params t b where
  normal := normal_all (List.cons_ne_nil _ _) (by simp [hc.normal, hd.normal])
  uses := by
    rw [hc.normal.uses_all]
    exact allFit_append.2 ⟨hc.uses, hd.moved.uses⟩

/-- The same for a disjunction. -/
protected theorem any (hc : c.Fits params t b) (hd : d.Fits params t' true) :
    (Cond.any [c, d]).Fits params t b where
  normal := normal_any (List.cons_ne_nil _ _) (by simp [hc.normal, hd.normal])
  uses := by
    rw [hc.normal.uses_any]
    exact allFit_append.2 ⟨hc.uses, hd.moved.uses⟩

end Cond.Fits

end Restructure
