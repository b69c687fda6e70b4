import Restructure.Config
import Restructure.Simulation.Operands
import Restructure.Simulation.Arrays

namespace Restructure.Simulation

/-!
# Simulating instructions — stack code as values and statements

An instruction takes its operands from the stack as values, and leaves a larger value there or
adds a statement to the scope.

* `step` — one instruction; some idioms also take in the instruction behind it.
* `run` — a list of instructions, each checked for enough operands before it is simulated.
-/

variable (config : Config)

/-! ### Assignments -/

/-- Adds `target = value`, written as a compound assignment if the value is an operator on the
    target and that idiom is on. -/
def assign (m : Simulation) (target : Place) (value : Expr) : Except Error Simulation :=
  match value with
  | .binary op left right =>
    if config.compoundAssignments && left.same target.read then
      m.append (.compound target op right)
    else m.append (.assign target value)
  | _ => m.append (.assign target value)

/-- The destination of a store instruction that takes one operand. -/
def storeTarget? (m : Simulation) (next : Option Insn) :
    Except Error (Option (Place × Simulation)) :=
  match next with
  | some (.store slot t) => (m.resolve slot t).map fun r => some (.var r.1, r.2)
  | some (.putStatic f) => .ok (some (.static f, m))
  | _ => .ok none

/-! ### Results of single instructions -/

/-- Whether an instruction took in the one behind it, and the new state. -/
structure Outcome where
  tookNext : Bool
  state : Simulation

/-- The outcome of an instruction that stands for itself. -/
def alone (m : Simulation) : Outcome := ⟨false, m⟩

/-- The outcome of an instruction that took in the one behind it. -/
def withNext (m : Simulation) : Outcome := ⟨true, m⟩

/-- Drops an entry; a value with effects stays as a statement. -/
def discard (m : Simulation) (o : Operand) : Except Error Simulation :=
  match o with
  | .value e => if e.hasEffects then m.append (.eval e) else .ok m
  | .uninitialized _ => .ok m

/-- A call with a result is a value, one without a statement. -/
def emitCall (m : Simulation) (st : Operands) (call : Expr) (isVoid : Bool) :
    Except Error Simulation :=
  let m := { m with stack := st }
  if isVoid then m.append (.eval call) else .ok (m.pushOn st call)

/-! ### Locals -/

/-- The local that an increment statement at the end of the scope has just changed. -/
def justIncremented? (m : Simulation) (prev : Option Insn) (slot : Nat) : Option (Local × Int) :=
  match prev, m.scope.last? with
  | some (.increment s _), some (.increment v n) =>
    if s = slot ∧ v.slot = slot then some (v, n) else none
  | _, _ => none

/-- Reads a local. A read right behind its increment is an increment before the read. -/
def load (m : Simulation) (prev : Option Insn) (slot : Nat) (type : String) :
    Except Error Simulation := do
  let (v, m) ← m.resolve slot type
  match m.justIncremented? prev slot with
  | some (w, n) =>
    if config.increments then
      let (_, scope) ← m.scope.pop
      return { scope, stack := m.stack.push (.increment w n true) }
    else return m.pushOn m.stack (.var v)
  | none => return m.pushOn m.stack (.var v)

/-- The stack below a read of the local that was pushed by the instruction before. -/
def justRead? (m : Simulation) (prev : Option Insn) (slot : Nat) : Option Operands :=
  match prev, m.stack with
  | some (.load s _), .value (.var v) :: st => if s = slot ∧ v.slot = slot then some st else none
  | _, _ => none

/-- Increments a local. An increment right behind a read of the local is an increment after the
    read. -/
def increment (m : Simulation) (prev : Option Insn) (slot : Nat) (amount : Int) :
    Except Error Simulation := do
  let (v, m) ← m.resolve slot Descriptor.int
  match m.justRead? prev slot with
  | some st =>
    if config.increments then return m.pushOn st (.increment v amount false)
    else m.append (.increment v amount)
  | none => m.append (.increment v amount)

/-! ### Arrays -/

/-- Stores into an array. A store into an array that is still being constructed becomes part of
    the construction. -/
def arrayStore (m : Simulation) : Except Error Simulation := do
  let (value, st) ← m.stack.pop
  let (index, st) ← st.pop
  let (array, st) ← st.pop
  let m := { m with stack := st }
  match st with
  | .value top :: below =>
    if top.same array then
      match Expr.stored? top index value with
      | some filled => return m.pushOn below filled
      | none =>
        if array.isNewArray then throw (.unnamedArray array index)
        else assign config m (.element array index) value
    else assign config m (.element array index) value
  | _ => assign config m (.element array index) value

/-! ### Invocations -/

/-- Runs a constructor on an uninitialized object. A copy of the object that waits below becomes
    the finished value; without one the construction is a statement. -/
def construct (m : Simulation) (st : Operands) (type : String) (made : Expr) :
    Except Error Simulation :=
  match st with
  | .uninitialized t :: below =>
    if t = type then .ok (m.pushOn below made)
    else { m with stack := st }.append (.eval made)
  | _ => { m with stack := st }.append (.eval made)

/-- Invokes a method. -/
def invoke (m : Simulation) (dispatch : Dispatch) (method : MethodRef) :
    Except Error Simulation := do
  let t ← Error.ofDescriptor method.parse
  let (args, st) ← Operands.popMany t.params.length m.stack
  if dispatch.hasReceiver then
    match ← st.popEntry with
    | (.uninitialized type, st) =>
      if dispatch = .special ∧ method.name = "<init>" then
        m.construct st type (.new type method.descriptor args)
      else throw (.uninitializedReceiver method type)
    | (.value receiver, st) => m.emitCall st (.call method receiver args) t.returnsVoid
  else m.emitCall st (.staticCall method args) t.returnsVoid

/-! ### Copies -/

/-- Copies the top entry. A copy of a value with effects that is stored at once is a store
    followed by a read of its destination. -/
def dup (m : Simulation) (next : Option Insn) : Except Error Outcome := do
  let (top, st) ← m.stack.popEntry
  match top with
  | .value e =>
    if e.hasEffects then
      match ← { m with stack := st }.storeTarget? next with
      | some (target, m) =>
        let m ← assign config m target e
        return withNext (m.pushOn m.stack target.read)
      | none => throw (.duplicatedEffect e)
    else return alone { m with stack := top :: top :: st }
  | .uninitialized _ => return alone { m with stack := top :: top :: st }

/-- Copies the top entry below the second one. If a store into a field of the second one is next,
    the assignment is used as a value. -/
def dupX1 (m : Simulation) (next : Option Insn) : Except Error Outcome := do
  let (v₁, st) ← m.stack.popEntry
  let (v₂, st) ← st.popEntry
  match v₁, v₂, next with
  | .value value, .value receiver, some (.putField f) =>
    if receiver.hasEffects then throw (.effectfulReceiver receiver)
    let target : Place := .field f receiver
    let m ← assign config { m with stack := st } target value
    return withNext (m.pushOn m.stack target.read)
  | _, _, _ =>
    v₁.duplicable
    return alone { m with stack := v₁ :: v₂ :: v₁ :: st }

/-- Copies the top entry below the two slots under it. -/
def dupX2 (m : Simulation) : Except Error Simulation := do
  let (v₁, st) ← m.stack.popEntry
  v₁.duplicable
  let (v₂, st') ← st.popEntry
  if st.topIsWide then
    return { m with stack := v₁ :: v₂ :: v₁ :: st' }
  else
    let (v₃, st'') ← st'.popEntry
    return { m with stack := v₁ :: v₂ :: v₃ :: v₁ :: st'' }

/-- Copies the two slots at the top. -/
def dup2 (m : Simulation) : Except Error Simulation := do
  let (v₁, st) ← m.stack.popEntry
  if m.stack.topIsWide then
    v₁.duplicable
    return { m with stack := v₁ :: v₁ :: st }
  else
    let (v₂, st) ← st.popEntry
    v₁.duplicable
    v₂.duplicable
    return { m with stack := v₁ :: v₂ :: v₁ :: v₂ :: st }

/-- Drops the top entry. -/
def pop (m : Simulation) : Except Error Simulation := do
  let (o, st) ← m.stack.popEntry
  { m with stack := st }.discard o

/-- Drops the two slots at the top. -/
def pop2 (m : Simulation) : Except Error Simulation := do
  let m' ← m.pop
  if m.stack.topIsWide then return m' else m'.pop

/-- Exchanges the two top entries. -/
def swap (m : Simulation) : Except Error Simulation := do
  let (v₁, st) ← m.stack.popEntry
  let (v₂, st) ← st.popEntry
  return { m with stack := v₂ :: v₁ :: st }

/-! ### Operators -/

/-- Replaces the top value. -/
def unary (m : Simulation) (f : Expr → Expr) : Except Error Simulation := do
  let (e, st) ← m.stack.pop
  return m.pushOn st (f e)

/-- Replaces the two top values, the lower one being the left operand. -/
def binary (m : Simulation) (f : Expr → Expr → Expr) : Except Error Simulation := do
  let (right, st) ← m.stack.pop
  let (left, st) ← st.pop
  return m.pushOn st (f left right)

/-! ### Instructions -/

/-- Simulates one instruction between the ones before and behind it. -/
def step (m : Simulation) (prev : Option Insn) (insn : Insn) (next : Option Insn) :
    Except Error Outcome :=
  match insn with
  | .const c => .ok (alone (m.pushOn m.stack (.const c)))
  | .load slot t => (load config m prev slot t).map alone
  | .store slot t => do
    let (value, st) ← m.stack.pop
    let (v, m) ← { m with stack := st }.resolve slot t
    (assign config m (.var v) value).map alone
  | .increment slot n => (increment config m prev slot n).map alone
  | .binary op _ => (m.binary (.binary op)).map alone
  | .negate _ => (m.unary .negate).map alone
  | .compare k => (m.binary (.compare k)).map alone
  | .convert t => (m.unary (.cast t)).map alone
  | .checkCast c => (m.unary (.cast (Descriptor.classRef c))).map alone
  | .instanceOf c => (m.unary (.instanceOf (Descriptor.classRef c))).map alone
  | .getField f => (m.unary (.field f)).map alone
  | .getStatic f => .ok (alone (m.pushOn m.stack (.static f)))
  | .putField f => do
    let (value, st) ← m.stack.pop
    let (receiver, st) ← st.pop
    (assign config { m with stack := st } (.field f receiver) value).map alone
  | .putStatic f => do
    let (value, st) ← m.stack.pop
    (assign config { m with stack := st } (.static f) value).map alone
  | .arrayLoad _ => (m.binary .element).map alone
  | .arrayStore _ => (arrayStore config m).map alone
  | .arrayLength => (m.unary .length).map alone
  | .newArray t => (m.unary (.newArray t)).map alone
  | .new c =>
    .ok (alone { m with stack := .uninitialized (Descriptor.classRef c) :: m.stack })
  | .invoke dispatch method => (m.invoke dispatch method).map alone
  | .dup => dup config m next
  | .dupX1 => dupX1 config m next
  | .dupX2 => m.dupX2.map alone
  | .dup2 => m.dup2.map alone
  | .pop => m.pop.map alone
  | .pop2 => m.pop2.map alone
  | .swap => m.swap.map alone

/-- The number of operands of the instruction depends on their types. -/
def movesSlots : Insn → Bool
  | .dup2 | .pop2 | .dupX2 => true
  | _ => false

/-- The stack holds the operands of an instruction. -/
def checkOperands (m : Simulation) (insn : Insn) : Except Error Unit := do
  let effect ← Error.ofEffect insn.effect
  if !movesSlots insn && m.stack.length < effect.pops then
    throw (.tooFewValues insn effect.pops m.stack.length)

/-- Simulates instructions that stand behind `prev`. -/
def runAfter (prev : Option Insn) (m : Simulation) : List Insn → Except Error Simulation
  | [] => .ok m
  | [insn] => do
    m.checkOperands insn
    let out ← step config m prev insn none
    return out.state
  | insn :: next :: rest => do
    m.checkOperands insn
    let out ← step config m prev insn (some next)
    if out.tookNext then runAfter (some next) out.state rest
    else runAfter (some insn) out.state (next :: rest)

/-- Simulates instructions. -/
def run (m : Simulation) (insns : List Insn) : Except Error Simulation :=
  runAfter config none m insns

end Restructure.Simulation
