import Restructure.Expr.Basic

namespace Restructure

/-!
# Instructions — the operations of a stack machine inside a basic block

Typed families of operations are one instruction with an operand descriptor, and references to
fields and methods are resolved. Transfers of control are no instructions; they end a block.

* `Insn` — one instruction.
* `Insn.effect` — how many values it pops and pushes, a wide value counting once.
* `Insn.describe` — the instruction in diagnostics.
-/

/-- How an invocation finds its method. -/
inductive Dispatch where
  | virtual | interface | special | static
  deriving DecidableEq

namespace Dispatch

/-- The invocation pops a receiver. -/
def hasReceiver : Dispatch → Bool
  | static => false
  | _ => true

/-- The name in diagnostics. -/
def name : Dispatch → String
  | virtual => "Virtual"
  | interface => "Interface"
  | special => "Special"
  | static => "Static"

end Dispatch

/-- An instruction. The form of `dup` and `pop` that moves two slots moves one wide value or two
    others. -/
inductive Insn where
  | const (value : Constant)
  | load (slot : Nat) (type : String)
  | store (slot : Nat) (type : String)
  | increment (slot : Nat) (amount : Int)
  | binary (op : BinaryOp) (type : String)
  | negate (type : String)
  | compare (kind : ThreeWay)
  | convert (type : String)
  | checkCast (operand : String)
  | instanceOf (operand : String)
  | getField (f : FieldRef)
  | putField (f : FieldRef)
  | getStatic (f : FieldRef)
  | putStatic (f : FieldRef)
  | arrayLoad (type : String)
  | arrayStore (type : String)
  | arrayLength
  | newArray (elementType : String)
  | new (operand : String)
  | invoke (dispatch : Dispatch) (m : MethodRef)
  | dup | dupX1 | dupX2 | dup2 | pop | pop2 | swap
  deriving DecidableEq

/-! ### Stack effects -/

/-- Numbers of values popped and pushed. -/
structure StackEffect where
  pops : Nat
  pushes : Nat
  deriving DecidableEq

/-- The change of the stack's depth. -/
def StackEffect.net (e : StackEffect) : Int := e.pushes - e.pops

/-- Why an instruction has no stack effect. -/
inductive EffectFault where
  | descriptor (fault : DescriptorFault)
  | tooManyArguments (m : MethodRef)

namespace Insn

/-- The most values that one instruction pops. -/
def maxPops : Nat := 65535

/-- The stack effect of an instruction. An invocation takes it from its descriptor. -/
def effect : Insn → Except EffectFault StackEffect
  | const _ | load _ _ | getStatic _ | new _ => .ok ⟨0, 1⟩
  | store _ _ | putStatic _ | pop | pop2 => .ok ⟨1, 0⟩
  | increment _ _ => .ok ⟨0, 0⟩
  | binary _ _ | compare _ | arrayLoad _ => .ok ⟨2, 1⟩
  | negate _ | convert _ | checkCast _ | instanceOf _ | getField _ | arrayLength | newArray _ =>
    .ok ⟨1, 1⟩
  | putField _ => .ok ⟨2, 0⟩
  | arrayStore _ => .ok ⟨3, 0⟩
  | invoke dispatch m =>
    match m.parse with
    | .error e => .error (.descriptor e)
    | .ok t =>
      let pops := t.params.length + (if dispatch.hasReceiver then 1 else 0)
      if pops ≤ maxPops then .ok ⟨pops, if t.returnsVoid then 0 else 1⟩
      else .error (.tooManyArguments m)
  | dup => .ok ⟨1, 2⟩
  | dupX1 => .ok ⟨2, 3⟩
  | dupX2 => .ok ⟨3, 4⟩
  | dup2 => .ok ⟨2, 4⟩
  | swap => .ok ⟨2, 2⟩

/-! ### Diagnostics -/

/-- A name with named fields between braces. -/
def record (name : String) (fields : List (String × String)) : String :=
  name ++ " \x7b " ++ ", ".intercalate (fields.map fun f => f.1 ++ ": " ++ f.2) ++ " \x7d"

/-- A field reference in diagnostics. -/
def describeField (f : FieldRef) : String :=
  record "FieldRef"
    [("owner", Text.quote f.owner), ("name", Text.quote f.name), ("descriptor", Text.quote f.type)]

/-- A method reference in diagnostics. -/
def describeMethod (m : MethodRef) : String :=
  record "MethodRef"
    [("owner", Text.quote m.owner), ("name", Text.quote m.name),
      ("descriptor", Text.quote m.descriptor)]

/-- The instruction in diagnostics. -/
def describe : Insn → String
  | const c => "Const(" ++ c.describe ++ ")"
  | load slot t => record "Load" [("local", toString slot), ("ty", Text.quote t)]
  | store slot t => record "Store" [("local", toString slot), ("ty", Text.quote t)]
  | increment slot n => record "Iinc" [("local", toString slot), ("amount", toString n)]
  | binary op t => record "Binary" [("op", op.name), ("ty", Text.quote t)]
  | negate t => record "Negate" [("ty", Text.quote t)]
  | compare k => "Compare(" ++ k.name ++ ")"
  | convert t => record "Convert" [("to", Text.quote t)]
  | checkCast c => "CheckCast(" ++ Text.quote c ++ ")"
  | instanceOf c => "InstanceOf(" ++ Text.quote c ++ ")"
  | getField f => "GetField(" ++ describeField f ++ ")"
  | putField f => "PutField(" ++ describeField f ++ ")"
  | getStatic f => "GetStatic(" ++ describeField f ++ ")"
  | putStatic f => "PutStatic(" ++ describeField f ++ ")"
  | arrayLoad t => record "ArrayLoad" [("ty", Text.quote t)]
  | arrayStore t => record "ArrayStore" [("ty", Text.quote t)]
  | arrayLength => "ArrayLength"
  | newArray t => record "NewArray" [("element", Text.quote t)]
  | new c => "New(" ++ Text.quote c ++ ")"
  | invoke d m => record "Invoke" [("kind", d.name), ("method", describeMethod m)]
  | dup => "Dup"
  | dupX1 => "DupX1"
  | dupX2 => "DupX2"
  | dup2 => "Dup2"
  | pop => "Pop"
  | pop2 => "Pop2"
  | swap => "Swap"

end Insn

end Restructure
