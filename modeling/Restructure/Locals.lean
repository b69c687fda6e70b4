namespace Restructure

/-!
# Locals — the local variables bound in a scope

* `Local` — a frame slot with a name and a type.
* `Locals` — a table of locals, at most one per slot, in ascending order of slots.
* `Locals.find?_declare` — a declaration is found at its slot and changes no other one.
-/

/-- A slot of the method's frame with its source name and its type descriptor. -/
structure Local where
  slot : Nat
  name : String
  type : String
  deriving DecidableEq

/-! ### Insertion by slot -/

/-- Puts `v` at its slot's place, over the local that is there. -/
def Local.insertInto (v : Local) : List Local → List Local
  | [] => [v]
  | w :: ws =>
    if v.slot < w.slot then v :: w :: ws
    else if v.slot = w.slot then v :: ws
    else w :: v.insertInto ws

/-- A local is put among the others. -/
theorem Local.mem_insertInto {v w : Local} {ws : List Local} (h : w ∈ v.insertInto ws) :
    w = v ∨ w ∈ ws := by
  induction ws with
  | nil => simpa [insertInto] using h
  | cons u us ih =>
    simp only [insertInto] at h
    split at h
    · simpa using h
    · split at h
      · rcases List.mem_cons.1 h with h | h
        · exact .inl h
        · exact .inr (by simp [h])
      · rcases List.mem_cons.1 h with h | h
        · exact .inr (by simp [h])
        · rcases ih h with h | h
          · exact .inl h
          · exact .inr (by simp [h])

/-- The locals stay in the order of their slots. -/
theorem Local.pairwise_insertInto (v : Local) {ws : List Local}
    (h : ws.Pairwise (·.slot < ·.slot)) : (v.insertInto ws).Pairwise (·.slot < ·.slot) := by
  induction ws with
  | nil => simp [insertInto]
  | cons u us ih =>
    have hu := List.pairwise_cons.1 h
    simp only [insertInto]
    split
    · refine List.pairwise_cons.2 ⟨fun w hw => ?_, h⟩
      rcases List.mem_cons.1 hw with rfl | hw
      · assumption
      · exact Nat.lt_trans ‹_› (hu.1 w hw)
    · split
      · exact List.pairwise_cons.2 ⟨fun w hw => by have := hu.1 w hw; omega, hu.2⟩
      · refine List.pairwise_cons.2 ⟨fun w hw => ?_, ih hu.2⟩
        rcases mem_insertInto hw with rfl | hw
        · omega
        · exact hu.1 w hw

/-! ### Tables -/

/-- A table of locals in ascending order of slots. -/
structure Locals where
  toList : List Local
  ascending : toList.Pairwise (·.slot < ·.slot) := by simp
  deriving DecidableEq

namespace Locals

/-- The table that binds no slot. -/
def empty : Locals where
  toList := []

/-- The table without locals. -/
instance : Inhabited Locals := ⟨empty⟩

/-- Binds the slot of `v` to it. -/
def declare (t : Locals) (v : Local) : Locals where
  toList := v.insertInto t.toList
  ascending := v.pairwise_insertInto t.ascending

/-- The local bound to a slot. -/
def find? (t : Locals) (slot : Nat) : Option Local := t.toList.find? (·.slot == slot)

/-- The slot is bound. -/
def contains (t : Locals) (slot : Nat) : Bool := (t.find? slot).isSome

/-- The number of bound slots. -/
def size (t : Locals) : Nat := t.toList.length

/-- No slot is bound. -/
def isEmpty (t : Locals) : Bool := t.toList.isEmpty

/-- The table after declaring the locals in order. -/
def ofList (vs : List Local) : Locals := vs.foldl declare empty

/-- The new local is found for its slot, and the others for theirs. -/
theorem find?_insertInto (v : Local) (slot : Nat) (ws : List Local)
    (h : ws.Pairwise (·.slot < ·.slot)) :
    (v.insertInto ws).find? (·.slot == slot)
      = if slot = v.slot then some v else ws.find? (·.slot == slot) := by
  induction ws with
  | nil =>
    by_cases hs : slot = v.slot
    · simp [Local.insertInto, hs]
    · have : (v.slot == slot) = false := by simpa using Ne.symm hs
      simp [Local.insertInto, this, hs]
  | cons u us ih =>
    have hu := List.pairwise_cons.1 h
    simp only [Local.insertInto]
    split
    · by_cases hs : slot = v.slot
      · simp [hs]
      · have : (v.slot == slot) = false := by simpa using Ne.symm hs
        simp [List.find?_cons, this, hs]
    · split
      · by_cases hs : slot = v.slot
        · simp [hs]
        · have h₁ : (v.slot == slot) = false := by simpa using Ne.symm hs
          have h₂ : (u.slot == slot) = false := by simp; omega
          simp [h₁, h₂, hs]
      · by_cases hs : u.slot = slot
        · have : slot ≠ v.slot := by omega
          simp [hs, this]
        · have : (u.slot == slot) = false := by simpa using hs
          simp [this, ih hu.2]

/-- A declaration is found at its slot, and every other slot is as before. -/
theorem find?_declare (t : Locals) (v : Local) (slot : Nat) :
    (t.declare v).find? slot = if slot = v.slot then some v else t.find? slot :=
  find?_insertInto v slot t.toList t.ascending

end Locals

end Restructure
