import Restructure.Error

namespace Restructure

/-!
# Methods and classes — the input of the recovery

* `Method` — signature, access flags, named locals and basic blocks, the entry block first.
* `Method.validate` — the descriptor can be read and every jump leads to a block.
* `Method.parameterLocals` — the locals that are bound when the method starts.
* `ClassFile` — a class with its methods.
-/

/-- A method with its code. -/
structure Method where
  owner : String
  name : String
  descriptor : String
  access : Nat
  maxLocals : Nat
  locals : List Local
  blocks : List Block
  deriving DecidableEq

namespace Method

/-! ### Access flags -/

/-- The method has no receiver. -/
def isStatic (m : Method) : Bool := m.access.testBit 3

/-- The method is native. -/
def isNative (m : Method) : Bool := m.access.testBit 8

/-- The method is abstract. -/
def isAbstract (m : Method) : Bool := m.access.testBit 10

/-- The method has no code to recover. -/
def isBodyless (m : Method) : Bool := m.isNative || m.isAbstract || m.blocks.isEmpty

/-! ### Validation -/

/-- The method's type. -/
def type (m : Method) : Except Error MethodType :=
  Error.ofDescriptor (MethodType.parse m.descriptor)

/-- The first jump to a block that does not exist, as source and target. -/
def danglingJump? (m : Method) : Option (Nat × Nat) :=
  (m.blocks.zipIdx.flatMap fun p => p.1.exit.successors.map fun t => (p.2, t)).find? fun e =>
    m.blocks.length ≤ e.2

/-- The descriptor can be read and every jump leads to a block. -/
def validate (m : Method) : Except Error Unit :=
  match m.type with
  | .error e => .error e
  | .ok _ =>
    match m.danglingJump? with
    | some (b, t) => .error (.missingTarget b m.name m.descriptor t)
    | none => .ok ()

/-! ### Parameters -/

/-- The number of slots that a value of the type takes. -/
def slots (type : String) : Nat := if Descriptor.isWide type then 2 else 1

/-- The number of slots that values of the types take. -/
def totalSlots : List String → Nat
  | [] => 0
  | t :: ts => slots t + totalSlots ts

/-- The parameters from a slot and an index on, named by their indices.

    The slots stay below 65536, since the parameters of a method in a class file take at most 255
    slots. They are counted without a bound here, where 16-bit numbers would overflow for longer
    descriptors. -/
def namedParams : (slot index : Nat) → List String → List Local
  | _, _, [] => []
  | slot, index, t :: ts =>
    ⟨slot, "arg" ++ toString index, t⟩ :: namedParams (slot + slots t) (index + 1) ts

/-- The receiver, the parameters and the named locals, a named local taking the place of another
    one of its slot. -/
def parameterLocals (m : Method) : Except Error Locals :=
  m.type.map fun t =>
    let receiver := if m.isStatic then [] else [⟨0, "this", Descriptor.object m.owner⟩]
    Locals.ofList (receiver ++ namedParams receiver.length 0 t.params ++ m.locals)

end Method

/-- A class with its methods in the order of declaration. -/
structure ClassFile where
  name : String
  superName : Option String
  methods : List Method

end Restructure
