namespace Restructure.Decimal

/-!
# Shortest decimals — the fewest digits that read back as a binary floating point number

All arithmetic is exact, on natural numbers.

* `Format.decode` — the class of a bit pattern: a signed zero, infinity, not-a-number, or a
  positive magnitude `m · 2^q` with its sign.
* `Magnitude.shortest` — of the decimals that round to the magnitude, one with the fewest
  digits, and of those the nearest; a tie goes away from zero.
* `Style.write` — the text of a number: positional between two decimal exponents, with at
  least one digit on each side of the point, and scientific outside of them.
-/

/-! ### Binary formats -/

/-- A binary interchange format: the widths of its exponent and fraction fields. -/
structure Format where
  exponentBits : Nat
  fractionBits : Nat

/-- The 32-bit format. -/
def Format.single : Format where
  exponentBits := 8
  fractionBits := 23

/-- The 64-bit format. -/
def Format.double : Format where
  exponentBits := 11
  fractionBits := 52

/-- The positive number `mantissa · 2^exponent`. Numbers of the format just below it are half
    as far away as those above it when `narrowBelow` holds. -/
structure Magnitude where
  mantissa : Nat
  exponent : Int
  narrowBelow : Bool

/-- What a bit pattern stands for. -/
inductive Class where
  | nan
  | infinite (negative : Bool)
  | zero (negative : Bool)
  | finite (negative : Bool) (magnitude : Magnitude)

namespace Format

/-- The exponent of the unit in the last place of the smallest numbers. -/
def minExponent (f : Format) : Int :=
  2 - Nat.pow 2 (f.exponentBits - 1) - f.fractionBits

/-- Reads a bit pattern. -/
def decode (f : Format) (bits : Nat) : Class :=
  let fractions := Nat.pow 2 f.fractionBits
  let exponents := Nat.pow 2 f.exponentBits
  let fraction := bits % fractions
  let exponent := bits / fractions % exponents
  let negative := bits / (fractions * exponents) % 2 == 1
  if exponent = exponents - 1 then
    if fraction = 0 then .infinite negative else .nan
  else if exponent = 0 then
    if fraction = 0 then .zero negative
    else .finite negative ⟨fraction, f.minExponent, false⟩
  else
    .finite negative
      ⟨fractions + fraction, f.minExponent + exponent - 1, fraction == 0 && exponent > 1⟩

/-- The bit pattern stands for not-a-number. -/
def isNaN (f : Format) (bits : Nat) : Bool :=
  match f.decode bits with
  | .nan => true
  | _ => false

/-- The bit pattern stands for a zero of either sign. -/
def isZero (f : Format) (bits : Nat) : Bool :=
  match f.decode bits with
  | .zero _ => true
  | _ => false

/-- Numeric equality of two bit patterns: not-a-number differs from everything, and the two
    zeros are equal. -/
def equal (f : Format) (a b : Nat) : Bool :=
  !f.isNaN a && !f.isNaN b && (a == b || f.isZero a && f.isZero b)

end Format

/-! ### The fewest digits -/

/-- The decimal number `digits · 10^exponent`. -/
structure Scaled where
  digits : Nat
  exponent : Int

/-- The number of decimal digits of `n`; zero has none. -/
def digitCount (n : Nat) : Nat :=
  if n = 0 then 0 else (Nat.toDigits 10 n).length

/-- A positive fraction as numerator and denominator. -/
structure Ratio where
  num : Nat
  den : Nat

/-- `m · 2^q · 10^d` as a fraction. -/
def Ratio.scaled (m : Nat) (q d : Int) : Ratio where
  num := m * Nat.pow 2 q.toNat * Nat.pow 10 d.toNat
  den := Nat.pow 2 (-q).toNat * Nat.pow 10 (-d).toNat

/-- The decimal exponent of the leading digit of a positive fraction. -/
def Ratio.leading (r : Ratio) : Int :=
  if r.num ≥ r.den then (digitCount (r.num / r.den) : Int) - 1
  else -(digitCount ((r.den + r.num - 1) / r.num - 1) : Int)

namespace Magnitude

/-- Four times the mantissa, and the two ends of the interval of reals that round to the
    number, all in units of a quarter of the last place. -/
def bounds (v : Magnitude) : Nat × Nat × Nat :=
  (4 * v.mantissa - (if v.narrowBelow then 1 else 2), 4 * v.mantissa, 4 * v.mantissa + 2)

/-- `a` units of `10^unit` round to the number: they lie between the ends of its interval,
    which belong to it when the mantissa is even. -/
def readsBack (v : Magnitude) (unit : Int) (a : Nat) : Bool :=
  let low := Ratio.scaled v.bounds.1 (v.exponent - 2) (-unit)
  let high := Ratio.scaled v.bounds.2.2 (v.exponent - 2) (-unit)
  if v.mantissa % 2 = 0 then low.num ≤ a * low.den && a * high.den ≤ high.num
  else low.num < a * low.den && a * high.den < high.num

/-- The nearer of the two neighbours of the number on the grid of `10^unit` that read back;
    halfway between them the upper one. -/
def onGrid (v : Magnitude) (unit : Int) : Option Scaled :=
  let r := Ratio.scaled v.bounds.2.1 (v.exponent - 2) (-unit)
  let below := r.num / r.den
  let nearUp : Bool := r.den ≤ 2 * (r.num % r.den)
  match v.readsBack unit below, v.readsBack unit (below + 1) with
  | true, true => some ⟨if nearUp then below + 1 else below, unit⟩
  | true, false => some ⟨below, unit⟩
  | false, true => some ⟨below + 1, unit⟩
  | false, false => none

/-- Tries grids of `count` digits and more, `fuel` of them; beyond that the grid itself. -/
def shortestFrom (v : Magnitude) (lead : Int) : (fuel count : Nat) → Scaled
  | 0, count => ⟨0, lead + 1 - count⟩
  | fuel + 1, count =>
    match v.onGrid (lead + 1 - count) with
    | some d => d
    | none => v.shortestFrom lead fuel (count + 1)

/-- The shortest decimal that reads back. Seventeen digits always suffice in the formats here. -/
def shortest (v : Magnitude) : Scaled :=
  v.shortestFrom (Ratio.scaled v.bounds.2.1 (v.exponent - 2) 0).leading 18 1

end Magnitude

/-! ### Writing -/

/-- A decimal as its significant digits, without trailing zeros, and the exponent of the first. -/
def Scaled.significant (d : Scaled) : List Char × Int :=
  let digits := Nat.toDigits 10 d.digits
  let kept := (digits.reverse.dropWhile (· = '0')).reverse
  (kept, d.exponent + digits.length - 1)

/-- How numbers are written: the decimal exponents between which a number is positional (the
    upper one excluded), and the names of the special values. -/
structure Style where
  positionalFrom : Int
  positionalTo : Int
  nan : String
  infinity : String

/-- Positional from a ten-thousandth up to ten to the sixteenth. -/
def Style.literal : Style where
  positionalFrom := -4
  positionalTo := 16
  nan := "NaN"
  infinity := "inf"

/-- The digits with the point behind the one of exponent zero, and at least one digit on each
    side of it. -/
def positional (digits : List Char) (lead : Int) : List Char :=
  if lead < 0 then
    ['0', '.'] ++ List.replicate (-lead - 1).toNat '0' ++ digits
  else
    let whole := lead.toNat + 1
    let front := digits.take whole ++ List.replicate (whole - digits.length) '0'
    let back := digits.drop whole
    front ++ '.' :: (if back = [] then ['0'] else back)

/-- One digit, the others behind a point if there are any, and the exponent. -/
def scientific (digits : List Char) (lead : Int) : List Char :=
  let back := digits.drop 1
  digits.take 1 ++ (if back = [] then [] else '.' :: back) ++ 'e' :: (toString lead).toList

/-- The text of a class of bit patterns. -/
def Style.write (s : Style) : Class → String
  | .nan => s.nan
  | .infinite negative => (if negative then "-" else "") ++ s.infinity
  | .zero negative => (if negative then "-" else "") ++ "0.0"
  | .finite negative v =>
    let (digits, lead) := v.shortest.significant
    let body :=
      if s.positionalFrom ≤ lead ∧ lead < s.positionalTo then positional digits lead
      else scientific digits lead
    (if negative then "-" else "") ++ String.ofList body

/-- The literal of a bit pattern of the format. -/
def Format.literal (f : Format) (bits : Nat) : String :=
  Style.literal.write (f.decode bits)

end Restructure.Decimal
