import Restructure.Expr.Render
import Restructure.Code.Block
import Restructure.Graph.Basic
import Restructure.Stmt.Basic

namespace Restructure

/-!
# Failures — why a method has no recovered form

* `Error` — one constructor per cause.
* `Error.kind` — the class of a cause: damaged input, a graph that cannot be built, a scope that
  was changed when it must not be, or code without a structured form.
* `Error.message` — the wording; `ErrorKind.display` puts the class before it.
-/

/-! ### Classes -/

/-- The classes of failures. -/
inductive ErrorKind where
  | unstructurable | malformed | scopeMisuse | unrecognized | graph
  deriving DecidableEq

/-- A line of a file. -/
structure SourceLine where
  file : String
  line : Nat

namespace ErrorKind

/-- The class in answers. -/
def name : ErrorKind → String
  | unstructurable => "Unstructurable"
  | malformed => "Malformed"
  | scopeMisuse => "InvalidContainerMutation"
  | unrecognized => "UnrecognizedInput"
  | graph => "GraphError"

/-- All classes. -/
def all : List ErrorKind := [unstructurable, malformed, scopeMisuse, unrecognized, graph]

/-- A failure as it is shown to a user. Malformed input also names the line that found it. -/
def display (k : ErrorKind) (place : SourceLine) (message : String) : String :=
  match k with
  | unstructurable => "Unstructurable region - " ++ message
  | malformed =>
    "Malformed - " ++ place.file ++ ":" ++ toString place.line ++ ": " ++ message
  | scopeMisuse => "Invalid container mutation - " ++ message
  | unrecognized => "Unrecognized input - " ++ message
  | graph => message

end ErrorKind

/-! ### Causes -/

/-- A change that only an open scope allows. -/
inductive ScopeChange where
  | declare | append | pop | lock
  deriving DecidableEq

/-- The change in messages. -/
def ScopeChange.text : ScopeChange → String
  | declare => "modify locals of"
  | append => "append to"
  | pop => "pop from"
  | lock => "lock"

/-- Why there is no recovered form. Blocks are named by their numbers, and `count` is a number of
    values on the operand stack. -/
inductive Error where
  | descriptor (fault : DescriptorFault)
  | tooManyArguments (m : MethodRef)
  | missingTarget (block : Nat) (name descriptor : String) (target : Nat)
  | unfinishedBlock (count : Nat) (name descriptor : String)
  | noBlocks
  | missingSuccessor (block target size : Nat)
  | missingNode (missing : MissingNode)
  | missingBlock (block : Nat)
  | lockedScope (change : ScopeChange) (kind : ScopeKind)
  | emptyScope (kind : ScopeKind)
  | stackUnderflow
  | tooFewValues (insn : Insn) (pops count : Nat)
  | uninitializedValue (type : String)
  | uninitializedReceiver (m : MethodRef) (type : String)
  | duplicatedEffect (value : Expr)
  | effectfulReceiver (receiver : Expr)
  | unnamedArray (array index : Expr)
  | effectfulKey (key : Expr) (block : Nat)
  | valuesAtEnd (count block : Nat)
  | valuesAtJump (count block : Nat)
  | valuesAtLabel (block : Nat)
  | valuesAtBranch (count block : Nat)
  | valuesAtSwitch (count block : Nat)
  | valuesAtLoop (block : Nat)
  | valuesAfterArm (block : Nat)
  | valuesAfterSwitchArm (block : Nat)
  | valuesAfterLoopBody (block : Nat)
  | valuesAfterLoopTest (block : Nat)
  | valuesAfterLoop (block : Nat)
  | needsLabel (block : Nat)
  | noStructuredForm (block : Nat)
  | unplacedLabels (blocks : List Nat)
  | irreducible (edges : List (Nat × Nat))
  | nestedTooDeep

namespace Error

/-- The class of a cause. -/
def kind : Error → ErrorKind
  | descriptor _ | tooManyArguments _ | missingTarget _ _ _ _ | unfinishedBlock _ _ _ =>
    .unrecognized
  | noBlocks | missingSuccessor _ _ _ | missingNode _ | missingBlock _ => .graph
  | lockedScope _ _ | emptyScope _ => .scopeMisuse
  | stackUnderflow | tooFewValues _ _ _ | uninitializedValue _ | uninitializedReceiver _ _ =>
    .malformed
  | _ => .unstructurable

/-- An edge between blocks in diagnostics. -/
def describePair (e : Nat × Nat) : String :=
  "(" ++ describeNode e.1 ++ ", " ++ describeNode e.2 ++ ")"

/-- The wording of a cause. -/
def message : Error → String
  | descriptor f => f.message
  | tooManyArguments m => m.owner ++ "." ++ m.name ++ m.descriptor ++ " takes too many arguments"
  | missingTarget b name d t =>
    "block " ++ toString b ++ " of " ++ name ++ d ++ " jumps to missing block " ++ toString t
  | unfinishedBlock n name d =>
    toString n ++ " instructions after the last terminator of " ++ name ++ d
  | noBlocks => "Cannot create CFG from empty block list"
  | missingSuccessor b t n =>
    "Block " ++ toString b ++ " has successor index " ++ toString t
      ++ " which exceeds block count " ++ toString n
  | missingNode m => m.message
  | missingBlock b => "block " ++ nodeName b ++ " out of range"
  | lockedScope change k => "cannot " ++ change.text ++ " locked " ++ k.name ++ " block"
  | emptyScope k => "cannot pop from empty " ++ k.name ++ " block"
  | stackUnderflow => "operand stack underflow"
  | tooFewValues insn pops n =>
    insn.describe ++ " pops " ++ toString pops ++ " values but the stack holds " ++ toString n
  | uninitializedValue t => "uninitialized " ++ t ++ " used before its constructor"
  | uninitializedReceiver m t =>
    m.owner ++ "." ++ m.name ++ " invoked on uninitialized " ++ t
  | duplicatedEffect e => "duplicated side-effecting value " ++ e.render
  | effectfulReceiver e => "field store through side-effecting receiver " ++ e.render
  | unnamedArray a i => "store into unnamed array " ++ a.render ++ " at index " ++ i.render
  | effectfulKey e b =>
    "switch key " ++ e.render ++ " in block " ++ toString b ++ " has side effects"
  | valuesAtEnd n b => toString n ++ " values cross the end of block " ++ toString b
  | valuesAtJump n b => toString n ++ " values on the stack at the jump to block " ++ nodeName b
  | valuesAtLabel b => "goto target " ++ nodeName b ++ " is entered with values on the stack"
  | valuesAtBranch n b =>
    toString n ++ " values left on the stack at the branch in block " ++ nodeName b
  | valuesAtSwitch n b =>
    toString n ++ " values left on the stack at the switch in block " ++ nodeName b
  | valuesAtLoop b => "loop at block " ++ nodeName b ++ " entered with values on the stack"
  | valuesAfterArm b =>
    "conditional arm starting at block " ++ nodeName b ++ " leaves values on the stack"
  | valuesAfterSwitchArm b => "switch arm at block " ++ nodeName b ++ " leaves values on the stack"
  | valuesAfterLoopBody b =>
    "loop body starting at block " ++ nodeName b ++ " leaves values on the stack"
  | valuesAfterLoopTest b =>
    "loop condition in block " ++ nodeName b ++ " leaves values on the stack"
  | valuesAfterLoop b => "loop at block " ++ nodeName b ++ " leaves values on the stack"
  | needsLabel b => "jump to block " ++ nodeName b ++ " cannot be expressed without a label"
  | noStructuredForm b => "no structured form for the branch in block " ++ nodeName b
  | unplacedLabels bs =>
    "goto targets " ++ describeList describeNode bs ++ " have no place for a label"
  | irreducible es =>
    "irreducible control flow, retreating edges " ++ describeList describePair es
  | nestedTooDeep => "regions nested too deeply"

/-- Carries a descriptor's fault over. -/
def ofDescriptor {α : Type} (r : Except DescriptorFault α) : Except Error α :=
  r.mapError descriptor

/-- Carries a missing stack effect over. -/
def ofEffect {α : Type} (r : Except EffectFault α) : Except Error α :=
  r.mapError fun
    | .descriptor f => descriptor f
    | .tooManyArguments m => tooManyArguments m

end Error

end Restructure
