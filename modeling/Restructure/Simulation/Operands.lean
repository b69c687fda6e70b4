import Restructure.Error
import Restructure.Stmt.Scope

namespace Restructure

/-!
# Operand stacks — values whose computation is not written down yet

* `Operand` — a finished value, or an object whose constructor has not run.
* `Operands` — a stack of operands, the top first.
* `Simulation` — the scope that receives statements, and the stack.
-/

/-- An entry of the operand stack. -/
inductive Operand where
  | value (e : Expr)
  | uninitialized (type : String)

/-- A stack of operands, the top first. -/
abbrev Operands := List Operand

namespace Operand

/-- An entry may stand on the stack twice: evaluating it twice changes nothing. -/
def duplicable : Operand → Except Error Unit
  | value e => if e.hasEffects then .error (.duplicatedEffect e) else .ok ()
  | uninitialized _ => .ok ()

/-- The entry is a finished value of two slots. -/
def isWide : Operand → Bool
  | value e => Descriptor.isWide e.type
  | uninitialized _ => false

end Operand

namespace Operands

/-- Takes the top entry. -/
def popEntry : Operands → Except Error (Operand × Operands)
  | [] => .error .stackUnderflow
  | o :: st => .ok (o, st)

/-- Takes the top entry, which must be a finished value. -/
def pop (st : Operands) : Except Error (Expr × Operands) :=
  match st with
  | [] => .error .stackUnderflow
  | .value e :: st => .ok (e, st)
  | .uninitialized t :: _ => .error (.uninitializedValue t)

/-- Takes `count` finished values; they are returned in the order in which they were pushed. -/
def popMany : (count : Nat) → Operands → Except Error (List Expr × Operands)
  | 0, st => .ok ([], st)
  | count + 1, st => do
    let (e, st) ← st.pop
    let (es, st) ← popMany count st
    return (es ++ [e], st)

/-- Puts a finished value on top. -/
def push (st : Operands) (e : Expr) : Operands := .value e :: st

/-- The top entry is a finished value of two slots. -/
def topIsWide : Operands → Bool
  | o :: _ => o.isWide
  | [] => false

end Operands

/-- The scope that receives statements, and the stack of operands. -/
structure Simulation where
  scope : Scope
  stack : Operands

namespace Simulation

/-- An empty stack over a scope. -/
def start (scope : Scope) : Simulation := ⟨scope, []⟩

/-- Puts a finished value on top of the given stack. -/
def pushOn (m : Simulation) (st : Operands) (e : Expr) : Simulation :=
  { m with stack := st.push e }

/-- Adds a statement to the scope. -/
def append (m : Simulation) (s : Stmt) : Except Error Simulation :=
  (m.scope.append s).map fun scope => { m with scope }

/-- The local in a slot. A slot that the scope does not bind is bound to a local named after the
    slot. -/
def resolve (m : Simulation) (slot : Nat) (type : String) : Except Error (Local × Simulation) :=
  match m.scope.locals.find? slot with
  | some v => .ok (v, m)
  | none =>
    let v : Local := ⟨slot, "local" ++ toString slot, type⟩
    (m.scope.declare v).map fun scope => (v, { m with scope })

end Simulation

end Restructure
