import Restructure.Expr.Render
import Restructure.Stmt.Basic

namespace Restructure

/-!
# Rendering statements — source code as lines

* `Stmt.lines`, `Scope.lines` — the lines of a statement or scope at a depth of nesting, four
  columns a level.
* `Stmt.render` — a statement's lines, without a line end after the last.
* `Scope.render` — a scope's lines, each with its line end.
-/

/-! ### Simple statements -/

/-- The destination in source code. -/
def Place.render (p : Place) : String := p.read.render

/-- The text of an assignment. -/
def assignmentLine (target : Place) (value : Expr) : String :=
  target.render ++ " = " ++ value.render

/-- The text of a compound assignment. -/
def compoundLine (target : Place) (op : BinaryOp) (value : Expr) : String :=
  target.render ++ " " ++ op.symbol ++ "= " ++ value.render

/-- The text of an increment statement. -/
def incrementLine (name : String) (amount : Int) : String :=
  if amount = 1 then name ++ "++"
  else if amount = -1 then name ++ "--"
  else if amount < 0 then name ++ " -= " ++ toString amount.natAbs
  else name ++ " += " ++ toString amount

/-- The text of a statement that evaluates or assigns, without its semicolon. -/
def Stmt.simple? : Stmt → Option String
  | .assign t e => some (assignmentLine t e)
  | .compound t op e => some (compoundLine t op e)
  | .increment v n => some (incrementLine v.name n)
  | .eval e => some e.render
  | _ => none

/-- What stands before the first part of a loop header: the type of an assigned local. -/
def Stmt.declaredType : Stmt → String
  | .assign (.var v) _ => Descriptor.sourceName v.type ++ " "
  | _ => ""

/-! ### Lines -/

/-- The blanks in front of a line. -/
def pad (depth : Nat) : String := String.ofList (List.replicate (4 * depth) ' ')

/-- The lines with a line end between each two. -/
def joinLines (lines : List String) : String := "\n".intercalate lines

/-- The lines with a line end after each. -/
def endLines (lines : List String) : String := String.join (lines.map (· ++ "\n"))

mutual

/-- The lines of a statement. -/
def Stmt.lines (depth : Nat) : Stmt → List String
  | .assign t e => [pad depth ++ assignmentLine t e ++ ";"]
  | .compound t op e => [pad depth ++ compoundLine t op e ++ ";"]
  | .increment v n => [pad depth ++ incrementLine v.name n ++ ";"]
  | .eval e => [pad depth ++ e.render ++ ";"]
  | .ret none => [pad depth ++ "return;"]
  | .ret (some e) => [pad depth ++ "return " ++ e.render ++ ";"]
  | .throw e => [pad depth ++ "throw " ++ e.render ++ ";"]
  | .ifElse c b none =>
    (pad depth ++ "if (" ++ c.render ++ ") \x7b") :: b.lines (depth + 1) ++ [pad depth ++ "\x7d"]
  | .ifElse c b (some e) =>
    (pad depth ++ "if (" ++ c.render ++ ") \x7b") :: b.lines (depth + 1)
      ++ (pad depth ++ "\x7d else \x7b") :: e.lines (depth + 1) ++ [pad depth ++ "\x7d"]
  | .whileLoop c b =>
    (pad depth ++ "while (" ++ c.render ++ ") \x7b") :: b.lines (depth + 1)
      ++ [pad depth ++ "\x7d"]
  | .doWhile c b =>
    (pad depth ++ "do \x7b") :: b.lines (depth + 1)
      ++ [pad depth ++ "\x7d while (" ++ c.render ++ ");"]
  | .forLoop init c update b =>
    let first :=
      match init with
      | none => ""
      | some s => s.declaredType ++ (s.simple?.getD (joinLines (s.lines 0)))
    let last :=
      match update with
      | none => ""
      | some s => s.simple?.getD (joinLines (s.lines 0))
    (pad depth ++ "for (" ++ first ++ "; " ++ c.render ++ "; " ++ last ++ ") \x7b")
      :: b.lines (depth + 1) ++ [pad depth ++ "\x7d"]
  | .switch e arms =>
    (pad depth ++ "switch (" ++ e.render ++ ") \x7b") :: SwitchArm.allLines depth arms
      ++ [pad depth ++ "\x7d"]
  | .breakOut => [pad depth ++ "break;"]
  | .continueLoop => [pad depth ++ "continue;"]
  | .label n => [pad depth ++ "label_" ++ toString n ++ ":"]
  | .goto n => [pad depth ++ "goto label_" ++ toString n ++ ";"]
  | .gotoIf c n => [pad depth ++ "if (" ++ c.render ++ ") goto label_" ++ toString n ++ ";"]

/-- The lines of statements, one after the other. -/
def Stmt.allLines (depth : Nat) : List Stmt → List String
  | [] => []
  | s :: ss => s.lines depth ++ Stmt.allLines depth ss

/-- The lines of a scope's statements. -/
def Scope.lines (depth : Nat) : Scope → List String
  | ⟨_, _, ss, _⟩ => Stmt.allLines depth ss

/-- The lines of switch arms: a line per key, the default, the statements and the jump. -/
def SwitchArm.allLines (depth : Nat) : List SwitchArm → List String
  | [] => []
  | ⟨keys, isDefault, body, breaks⟩ :: arms =>
    keys.map (fun k => pad depth ++ "case " ++ toString k ++ ":")
      ++ (if isDefault then [pad depth ++ "default:"] else [])
      ++ body.lines (depth + 1)
      ++ (if breaks then [pad (depth + 1) ++ "break;"] else [])
      ++ SwitchArm.allLines depth arms

end

/-- The statement in source code. -/
def Stmt.render (s : Stmt) : String := joinLines (s.lines 0)

/-- The scope in source code. -/
def Scope.render (s : Scope) : String := endLines (s.lines 0)

end Restructure
