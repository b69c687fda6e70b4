import Restructure.Expr.Basic

namespace Restructure

/-!
# Rendering values — expressions and conditions as source code

Parentheses are set by binding strength: each position of a tree asks for a least strength,
and a weaker operand is put in parentheses.

* `Expr.strength` — how tightly the outermost operator of a value binds.
* `Expr.render`, `Cond.render` — the texts.
-/

/-! ### Strengths -/

/-- How tightly the outermost operator of a value binds. Everything that is not joined by an
    operator binds tightest. -/
def Expr.strength : Expr → Nat
  | .binary op _ _ => op.strength
  | .ternary _ _ _ => 1
  | .instanceOf _ _ => 7
  | .cast _ _ | .negate _ => 12
  | _ => 15

/-- The text of a value, in parentheses where the value binds weaker than `least`. -/
def Expr.atLeast (e : Expr) (least : Nat) (text : String) : String :=
  if e.strength < least then "(" ++ text ++ ")" else text

/-- The test is a value tested for a truth value. -/
def Cond.isTest : Cond → Bool
  | .test _ _ => true
  | _ => false

/-- The test is a disjunction. -/
def Cond.isDisjunction : Cond → Bool
  | .or _ => true
  | _ => false

/-! ### Increments -/

/-- The text of an increment used as a value. An amount other than 1 and -1 has no operator of
    its own, so the value from before the update is recovered by undoing it. -/
def incrementText (name : String) (amount : Int) (before : Bool) : String :=
  if amount = 1 then if before then "++" ++ name else name ++ "++"
  else if amount = -1 then if before then "--" ++ name else name ++ "--"
  else
    let size := toString amount.natAbs
    let op := if amount < 0 then "-" else "+"
    let undo := if amount < 0 then "+" else "-"
    let update := "(" ++ name ++ " " ++ op ++ "= " ++ size ++ ")"
    if before then update else "(" ++ update ++ " " ++ undo ++ " " ++ size ++ ")"

/-! ### Texts -/

/-- The texts with a comma between each two. -/
def commaSeparated (texts : List String) : String := ", ".intercalate texts

mutual

/-- The value in source code. -/
def Expr.render : Expr → String
  | .const c => c.render
  | .var v => v.name
  | .field f r => r.atLeast 15 r.render ++ "." ++ f.name
  | .static f => Descriptor.classSourceName f.owner ++ "." ++ f.name
  | .element a i => a.atLeast 15 a.render ++ "[" ++ i.render ++ "]"
  | .length a => a.atLeast 15 a.render ++ ".length"
  | .binary op l r =>
    l.atLeast op.strength l.render ++ " " ++ op.symbol ++ " "
      ++ r.atLeast (op.strength + 1) r.render
  | .negate e => "-" ++ e.atLeast 12 e.render
  | .cast t e => "(" ++ Descriptor.sourceName t ++ ") " ++ e.atLeast 12 e.render
  | .instanceOf t e => e.atLeast 8 e.render ++ " instanceof " ++ Descriptor.sourceName t
  | .newArray t n => "new " ++ Descriptor.sourceName t ++ "[" ++ n.render ++ "]"
  | .arrayOf t _ vs =>
    "new " ++ Descriptor.sourceName t ++ "[] \x7b" ++ commaSeparated (Expr.renderAll vs) ++ "\x7d"
  | .new t _ args =>
    "new " ++ Descriptor.sourceName t ++ "(" ++ commaSeparated (Expr.renderAll args) ++ ")"
  | .call m r args =>
    r.atLeast 15 r.render ++ "." ++ m.name ++ "(" ++ commaSeparated (Expr.renderAll args) ++ ")"
  | .staticCall m args =>
    Descriptor.classSourceName m.owner ++ "." ++ m.name
      ++ "(" ++ commaSeparated (Expr.renderAll args) ++ ")"
  | .ternary c a b =>
    c.render ++ " ? " ++ a.atLeast 2 a.render ++ " : " ++ b.atLeast 1 b.render
  | .compare k l r => k.mnemonic ++ "(" ++ l.render ++ ", " ++ r.render ++ ")"
  | .increment v n before => incrementText v.name n before

/-- The texts of values. -/
def Expr.renderAll : List Expr → List String
  | [] => []
  | e :: es => e.render :: Expr.renderAll es

/-- The test in source code. -/
def Cond.render : Cond → String
  | .test e true => "!" ++ e.atLeast 15 e.render
  | .test e false => e.atLeast 2 e.render
  | .compare l o r => l.atLeast 8 l.render ++ " " ++ o.symbol ++ " " ++ r.atLeast 8 r.render
  | .not c => "!" ++ (if c.isTest then c.render else "(" ++ c.render ++ ")")
  | .and cs => " && ".intercalate (Cond.conjuncts cs)
  | .or cs => " || ".intercalate (Cond.renderAll cs)

/-- The texts of the operands of a conjunction, disjunctions in parentheses. -/
def Cond.conjuncts : List Cond → List String
  | [] => []
  | c :: cs =>
    (if c.isDisjunction then "(" ++ c.render ++ ")" else c.render) :: Cond.conjuncts cs

/-- The texts of tests. -/
def Cond.renderAll : List Cond → List String
  | [] => []
  | c :: cs => c.render :: Cond.renderAll cs

end

end Restructure
