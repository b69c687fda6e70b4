import Restructure.Code.Insn

namespace Restructure

/-!
# Basic blocks — straight-line code and how control leaves it

* `Branch` — the test of a two-way branch.
* `Terminator` — the end of a block; `Terminator.successors` are its targets in edge order.
* `Block` — instructions and a terminator.
-/

/-- The test of a two-way branch: one value against zero, two values, or a reference against
    null. -/
inductive Branch where
  | zero (r : Relation)
  | values (r : Relation)
  | isNull
  | isNotNull
  deriving DecidableEq

namespace Branch

/-- The number of values that the test pops. -/
def pops : Branch → Nat
  | values _ => 2
  | _ => 1

/-- The test in diagnostics. -/
def describe : Branch → String
  | zero r => "IfZero(" ++ r.name ++ ")"
  | values r => "IfCmp(" ++ r.name ++ ")"
  | isNull => "IfNull"
  | isNotNull => "IfNonNull"

end Branch

/-- What a terminator does with control. -/
inductive FlowKind where
  | goto | branch | switch | leave | throw
  deriving DecidableEq

/-- The kind's name in diagnostics. -/
def FlowKind.name : FlowKind → String
  | goto => "UnconditionalBranch"
  | branch => "ConditionalBranch"
  | switch => "Switch"
  | leave => "Return"
  | throw => "Throw"

/-- How control leaves a block. Targets are block numbers. -/
inductive Terminator where
  | goto (target : Nat)
  | branch (test : Branch) (taken fallthrough : Nat)
  | switch (cases : List (Int × Nat)) (default : Nat)
  | ret
  | retValue
  | throw
  deriving DecidableEq

namespace Terminator

/-- The targets in edge order: the taken one first, cases in their order before the default. -/
def successors : Terminator → List Nat
  | goto t => [t]
  | branch _ taken fallthrough => [taken, fallthrough]
  | switch cases default => cases.map (·.2) ++ [default]
  | ret | retValue | throw => []

/-- What the terminator does with control. -/
def flow : Terminator → FlowKind
  | goto _ => .goto
  | branch _ _ _ => .branch
  | switch _ _ => .switch
  | ret | retValue => .leave
  | throw => .throw

/-- The number of values that the terminator pops. -/
def pops : Terminator → Nat
  | goto _ | ret => 0
  | branch test _ _ => test.pops
  | switch _ _ | retValue | throw => 1

/-- The terminator in diagnostics. -/
def describe : Terminator → String
  | goto t => "Goto(" ++ toString t ++ ")"
  | branch test taken fallthrough =>
    Insn.record "Branch"
      [("kind", test.describe), ("taken", toString taken), ("fallthrough", toString fallthrough)]
  | switch cases default =>
    Insn.record "Switch"
      [("cases", "[" ++ ", ".intercalate
          (cases.map fun c => "(" ++ toString c.1 ++ ", " ++ toString c.2 ++ ")") ++ "]"),
        ("default", toString default)]
  | ret => "Return"
  | retValue => "ReturnValue"
  | throw => "Throw"

end Terminator

/-- Straight-line code and how control leaves it. -/
structure Block where
  insns : List Insn
  exit : Terminator
  deriving DecidableEq

end Restructure
