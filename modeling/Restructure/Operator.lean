namespace Restructure

/-!
# Operators — the symbols that join values

* `BinaryOp` — the arithmetic and bitwise operators, with their binding strength.
* `Relation` — the relations of a comparison, with their negation.
* `ThreeWay` — the comparisons that yield -1, 0 or 1.
-/

/-! ### Arithmetic and bitwise operators -/

/-- The binary operators on numbers. -/
inductive BinaryOp where
  | add | sub | mul | div | rem | shl | shr | ushr | and | or | xor
  deriving DecidableEq

namespace BinaryOp

/-- All operators. -/
def all : List BinaryOp := [add, sub, mul, div, rem, shl, shr, ushr, and, or, xor]

/-- The operator in source code. -/
def symbol : BinaryOp → String
  | add => "+"
  | sub => "-"
  | mul => "*"
  | div => "/"
  | rem => "%"
  | shl => "<<"
  | shr => ">>"
  | ushr => ">>>"
  | and => "&"
  | or => "|"
  | xor => "^"

/-- How tightly the operator binds; a higher strength binds tighter. -/
def strength : BinaryOp → Nat
  | mul | div | rem => 10
  | add | sub => 9
  | shl | shr | ushr => 8
  | and => 5
  | xor => 4
  | or => 3

/-- The operator's name in diagnostics. -/
def name : BinaryOp → String
  | add => "Add"
  | sub => "Sub"
  | mul => "Mul"
  | div => "Div"
  | rem => "Rem"
  | shl => "Shl"
  | shr => "Shr"
  | ushr => "Ushr"
  | and => "And"
  | or => "Or"
  | xor => "Xor"

end BinaryOp

/-! ### Relations -/

/-- The relations between two values. -/
inductive Relation where
  | eq | ne | lt | ge | gt | le
  deriving DecidableEq

namespace Relation

/-- All relations. -/
def all : List Relation := [eq, ne, lt, ge, gt, le]

/-- The relation that holds exactly when this one does not. -/
def negate : Relation → Relation
  | eq => ne
  | ne => eq
  | lt => ge
  | ge => lt
  | gt => le
  | le => gt

/-- The relation in source code. -/
def symbol : Relation → String
  | eq => "=="
  | ne => "!="
  | lt => "<"
  | ge => ">="
  | gt => ">"
  | le => "<="

/-- The relation's name in diagnostics. -/
def name : Relation → String
  | eq => "Eq"
  | ne => "Ne"
  | lt => "Lt"
  | ge => "Ge"
  | gt => "Gt"
  | le => "Le"

end Relation

/-! ### Three-way comparisons -/

/-- Comparisons that yield -1, 0 or 1; the last letter of the floating point ones says which of
    -1 and 1 an unordered pair yields. -/
inductive ThreeWay where
  | long | floatLess | floatGreater | doubleLess | doubleGreater
  deriving DecidableEq

namespace ThreeWay

/-- The comparison as rendered code calls it. -/
def mnemonic : ThreeWay → String
  | long => "lcmp"
  | floatLess => "fcmpl"
  | floatGreater => "fcmpg"
  | doubleLess => "dcmpl"
  | doubleGreater => "dcmpg"

/-- The comparison's name in diagnostics. -/
def name : ThreeWay → String
  | long => "Long"
  | floatLess => "FloatL"
  | floatGreater => "FloatG"
  | doubleLess => "DoubleL"
  | doubleGreater => "DoubleG"

end ThreeWay

end Restructure
