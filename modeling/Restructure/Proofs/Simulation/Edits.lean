import Mathlib.Data.List.Basic
import Restructure.Simulation.Step

namespace Restructure

/-!
# Edits — what simulated instructions do to the statements of a scope

Instructions add statements at the end of a scope and take some back, and all of these stand for
themselves: they hold no other statements, no labels and no jumps to labels.

* `Scope.stmts_of_append`, `Scope.locals_of_append` and their companions — what a change of a scope
  does to its statements and locals.
* `Stmt.isAtomic` — a statement that stands for itself.
* `Edited` — statements at the end come and go.
-/

/-! ### Successful computations -/

/-- A computation in two parts succeeds if both parts do. -/
theorem Except.bind_eq_ok {ε α β : Type} {x : Except ε α} {f : α → Except ε β} {b : β} :
    (x >>= f) = .ok b ↔ ∃ a, x = .ok a ∧ f a = .ok b := by
  cases x <;> simp [bind, Except.bind]

/-- A function of a result has a value if there is a result. -/
theorem Except.map_eq_ok {ε α β : Type} {x : Except ε α} {f : α → β} {b : β} :
    x.map f = .ok b ↔ ∃ a, x = .ok a ∧ f a = b := by
  cases x <;> simp [Except.map]

/-- A result that is kept without its error is the result. -/
theorem Except.eq_ok_of_toOption {ε α : Type} {x : Except ε α} {a : α} (h : x.toOption = some a) :
    x = .ok a := by
  cases x with
  | error e => cases h
  | ok a' =>
    cases h
    rfl

/-- What succeeds has a result. -/
theorem Except.eq_ok_of_isOk {ε α : Type} {x : Except ε α} (h : x.isOk = true) :
    ∃ a, x = .ok a := by
  cases x with
  | error e => cases h
  | ok a => exact ⟨a, rfl⟩

/-! ### Changes of scopes -/

namespace Scope

variable {s s' : Scope} {stmt : Stmt}

/-- An open scope is handed on as it is. -/
theorem ifOpen_inv {change : ScopeChange} (h : s.ifOpen change = .ok s') : s' = s := by
  unfold ifOpen at h
  split at h
  · cases h
  · exact (Except.ok.inj h).symm

/-- A statement is added behind the others, and nothing else changes. -/
theorem append_inv (h : s.append stmt = .ok s') :
    s' = { s with stmts := s.stmts ++ [stmt] } := by
  obtain ⟨s₁, hs₁, rfl⟩ := Except.map_eq_ok.1 h
  rw [ifOpen_inv hs₁]

/-- The last statement is taken away, and nothing else changes. -/
theorem pop_inv (h : s.pop = .ok (stmt, s')) :
    s.last? = some stmt ∧ s' = { s with stmts := s.stmts.dropLast } := by
  unfold pop at h
  split at h
  · cases h
  · rename_i s₁ hs₁
    rw [ifOpen_inv hs₁] at h
    split at h
    · rename_i x hx
      cases h
      exact ⟨hx, rfl⟩
    · cases h

/-- The last statement of an open scope can be taken away. -/
theorem pop_unlocked (h : s.locked = false) (hlast : s.last? = some stmt) :
    s.pop = .ok (stmt, { s with stmts := s.stmts.dropLast }) := by
  have hlast : s.stmts.getLast? = some stmt := hlast
  simp [pop, ifOpen, h, hlast]

/-- An open scope can be locked. -/
theorem lock_unlocked (h : s.locked = false) : s.lock = .ok { s with locked := true } := by
  simp [lock, ifOpen, h, Except.map]

/-- A local is bound, and nothing else changes. -/
theorem declare_inv {v : Local} (h : s.declare v = .ok s') :
    s' = { s with locals := s.locals.declare v } := by
  obtain ⟨s₁, hs₁, rfl⟩ := Except.map_eq_ok.1 h
  rw [ifOpen_inv hs₁]

/-- A statement that is added is the last one. -/
theorem stmts_of_append (h : s.append stmt = .ok s') : s'.stmts = s.stmts ++ [stmt] := by
  rw [append_inv h]

/-- A statement that is taken away was the last one. -/
theorem stmts_of_pop (h : s.pop = .ok (stmt, s')) : s.stmts = s'.stmts ++ [stmt] := by
  obtain ⟨hlast, rfl⟩ := pop_inv h
  exact (List.dropLast_append_getLast? stmt hlast).symm

/-- Binding a local leaves the statements. -/
theorem stmts_of_declare {v : Local} (h : s.declare v = .ok s') : s'.stmts = s.stmts := by
  rw [declare_inv h]

/-- Locking a scope leaves its statements. -/
theorem stmts_of_lock (h : s.lock = .ok s') : s'.stmts = s.stmts := by
  obtain ⟨s₁, hs₁, rfl⟩ := Except.map_eq_ok.1 h
  rw [ifOpen_inv hs₁]

/-- Adding a statement leaves the locals. -/
theorem locals_of_append (h : s.append stmt = .ok s') : s'.locals = s.locals := by
  rw [append_inv h]

/-- Taking a statement away leaves the locals. -/
theorem locals_of_pop (h : s.pop = .ok (stmt, s')) : s'.locals = s.locals := by
  rw [(pop_inv h).2]

/-- A local that is bound is found from then on. -/
theorem locals_of_declare {v : Local} (h : s.declare v = .ok s') :
    s'.locals = s.locals.declare v := by
  rw [declare_inv h]

end Scope

namespace Simulation

variable {m m' : Simulation} {st st' : Operands}

/-! ### Operands -/

/-- A value that is taken was on top. -/
theorem pop_ok {e : Expr} (h : st.pop = .ok (e, st')) : st = .value e :: st' := by
  cases st with
  | nil => cases h
  | cons o st =>
    cases o with
    | value e' =>
      cases h
      rfl
    | uninitialized t => cases h

/-- An entry that is taken was on top. -/
theorem popEntry_ok {o : Operand} (h : st.popEntry = .ok (o, st')) : st = o :: st' := by
  cases st with
  | nil => cases h
  | cons o' st =>
    cases h
    rfl

/-- A descriptor that is taken for read has been read. -/
theorem parse_of_ofDescriptor {β : Type} {x : Except DescriptorFault β} {t : β}
    (h : Error.ofDescriptor x = .ok t) : x = .ok t := by
  cases x with
  | error e => cases h
  | ok u =>
    cases h
    rfl

/-! ### Scopes of simulations -/

/-- A statement is added to the scope, and the operands stay. -/
theorem append_inv {s : Stmt} (h : m.append s = .ok m') :
    m.scope.append s = .ok m'.scope ∧ m'.stack = m.stack := by
  obtain ⟨scope, hscope, rfl⟩ := Except.map_eq_ok.1 h
  exact ⟨hscope, rfl⟩

/-- Adding a statement leaves the locals. -/
theorem locals_of_append {s : Stmt} (h : m.append s = .ok m') :
    m'.scope.locals = m.scope.locals :=
  Scope.locals_of_append (append_inv h).1

/-- A local that is looked up or bound leaves the statements. -/
theorem stmts_of_resolve {slot : Nat} {type : String} {v : Local}
    (h : m.resolve slot type = .ok (v, m')) : m'.scope.stmts = m.scope.stmts := by
  unfold resolve at h
  split at h
  · cases h
    rfl
  · obtain ⟨scope, hscope, h⟩ := Except.map_eq_ok.1 h
    cases h
    exact Scope.stmts_of_declare hscope

/-! ### Reads and increments of a local -/

/-- The increment in front of a read is the last statement. -/
theorem last_of_justIncremented {prev : Option Insn} {slot : Nat} {v : Local} {n : Int}
    (h : m.justIncremented? prev slot = some (v, n)) :
    v.slot = slot ∧ m.scope.last? = some (.increment v n) := by
  -- the search looks at the last statement and at the instruction before
  unfold justIncremented? at h
  split at h
  · rename_i hlast
    split at h
    · rename_i hslots
      cases h
      exact ⟨hslots.2, hlast⟩
    · cases h
  · cases h

/-- The local that an increment finds has been read last. -/
theorem stack_of_justRead {prev : Option Insn} {slot : Nat} {st : Operands}
    (h : m.justRead? prev slot = some st) :
    ∃ v : Local, v.slot = slot ∧ m.stack = .value (.var v) :: st := by
  unfold justRead? at h
  split at h
  · rename_i v st' hstack
    split at h
    · rename_i hslots
      cases h
      exact ⟨v, hslots.2, hstack⟩
    · cases h
  · cases h

end Simulation

/-! ### Edits -/

/-- The statement holds no others, and is neither a label nor a jump to one. -/
def Stmt.isAtomic : Stmt → Bool
  | .assign _ _ | .compound _ _ _ | .increment _ _ | .eval _ | .ret _ | .throw _ | .breakOut
  | .continueLoop => true
  | _ => false

/-- Atomic statements at the end come and go. -/
inductive Edited : List Stmt → List Stmt → Prop
  | refl (ss : List Stmt) : Edited ss ss
  | add {ss ts : List Stmt} {s : Stmt} (h : Edited ss ts) (hs : s.isAtomic = true) :
      Edited ss (ts ++ [s])
  | drop {ss ts : List Stmt} {s : Stmt} (h : Edited ss (ts ++ [s])) (hs : s.isAtomic = true) :
      Edited ss ts

/-- A statement that assigns to a local and does nothing else is atomic. -/
theorem Stmt.isAtomic_of_assignedLocal {s : Stmt} {slot : Nat} (h : s.assignedLocal? = some slot) :
    s.isAtomic = true := by
  cases s <;> first | rfl | cases h

end Restructure
