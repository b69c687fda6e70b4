import Restructure.Code.Method

namespace Restructure

/-!
# Building methods — instructions in order, blocks closed by terminators

Instructions are added to the open block, and a terminator closes it and opens the next one.
Blocks are numbered in the order in which they are closed.
-/

/-- A method under construction. -/
structure MethodBuilder where
  owner : String
  name : String
  descriptor : String
  access : Nat := 0
  maxLocals : Option Nat := none
  locals : List Local := []
  blocks : List Block := []
  pending : List Insn := []

namespace MethodBuilder

/-- Names a local. -/
def withLocal (b : MethodBuilder) (v : Local) : MethodBuilder :=
  { b with locals := b.locals ++ [v] }

/-- Adds an instruction to the open block. -/
def insn (b : MethodBuilder) (i : Insn) : MethodBuilder :=
  { b with pending := b.pending ++ [i] }

/-- Closes the open block. -/
def terminate (b : MethodBuilder) (t : Terminator) : MethodBuilder :=
  { b with blocks := b.blocks ++ [⟨b.pending, t⟩], pending := [] }

/-- The slot behind the last one that an instruction uses; 0 if it uses none. -/
def slotsUsed : Insn → Nat
  | .load slot t | .store slot t => slot + Method.slots t
  | .increment slot _ => slot + 1
  | _ => 0

/-- The number of slots that the receiver, the parameters, the code and the named locals need. -/
def frameSize (b : MethodBuilder) (t : MethodType) : Nat :=
  let receiver := if b.access.testBit 3 then 0 else 1
  let used := (b.blocks.flatMap (·.insns)).map slotsUsed ++ b.locals.map (·.slot + 1)
  used.foldl Nat.max (receiver + Method.totalSlots t.params)

/-- Finishes the method. Without a given frame size it is taken from the use of slots. -/
def build (b : MethodBuilder) : Except Error Method := do
  if !b.pending.isEmpty then
    throw (.unfinishedBlock b.pending.length b.name b.descriptor)
  let maxLocals ←
    match b.maxLocals with
    | some n => pure n
    | none => (Error.ofDescriptor (MethodType.parse b.descriptor)).map b.frameSize
  let m : Method := ⟨b.owner, b.name, b.descriptor, b.access, maxLocals, b.locals, b.blocks⟩
  m.validate
  return m

end MethodBuilder

end Restructure
