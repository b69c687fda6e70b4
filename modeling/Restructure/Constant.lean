import Restructure.Descriptor
import Restructure.Text.Quoted
import Restructure.Decimal.Shortest

namespace Restructure

/-!
# Constants — literal values

Floating point constants are kept as bit patterns, so that every one of them can be written
and told apart; `Constant.same` compares them as numbers.
-/

/-- A literal value. -/
inductive Constant where
  | int (value : Int)
  | long (value : Int)
  | float (bits : UInt32)
  | double (bits : UInt64)
  | string (value : String)
  | null
  | classLiteral (descriptor : String)
  | boolean (value : Bool)
  deriving DecidableEq

namespace Constant

/-- The descriptor of the constant's type. -/
def type : Constant → String
  | int _ => Descriptor.int
  | long _ => Descriptor.long
  | float _ => Descriptor.float
  | double _ => Descriptor.double
  | string _ => Descriptor.string
  | null => Descriptor.root
  | classLiteral _ => Descriptor.classObject
  | boolean _ => Descriptor.boolean

/-- The text of a truth value. -/
def boolText (b : Bool) : String := if b then "true" else "false"

/-- The constant in source code. -/
def render : Constant → String
  | int v => toString v
  | long v => toString v ++ "L"
  | float bits => Decimal.Format.single.literal bits.toNat ++ "F"
  | double bits => Decimal.Format.double.literal bits.toNat
  | string s => Text.quote s
  | null => "null"
  | classLiteral d => Descriptor.sourceName d ++ ".class"
  | boolean b => boolText b

/-- The constant in diagnostics. -/
def describe : Constant → String
  | int v => "Int(" ++ toString v ++ ")"
  | long v => "Long(" ++ toString v ++ ")"
  | float bits => "Float(" ++ Decimal.Format.single.literal bits.toNat ++ ")"
  | double bits => "Double(" ++ Decimal.Format.double.literal bits.toNat ++ ")"
  | string s => "String(" ++ Text.quote s ++ ")"
  | null => "Null"
  | classLiteral d => "Type(" ++ Text.quote d ++ ")"
  | boolean b => "Boolean(" ++ boolText b ++ ")"

/-- The constants are of one kind and equal, floating point ones as numbers: not-a-number
    differs from itself, and the two zeros are equal. -/
def same : Constant → Constant → Bool
  | float a, float b => Decimal.Format.single.equal a.toNat b.toNat
  | double a, double b => Decimal.Format.double.equal a.toNat b.toNat
  | a, b => a == b

end Constant

end Restructure
