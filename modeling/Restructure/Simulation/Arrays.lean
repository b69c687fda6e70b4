import Restructure.Expr.Basic

namespace Restructure.Expr

/-!
# Array initializers — stores into a new array folded into its construction

A new array of constant size that is filled by ascending stores right after its construction is
written with the values between braces. Elements without a store keep the default of their type.

* `defaultOf` — the value of an element before it is stored.
* `stored?` — the construction after one more store, if the store can be folded.
-/

/-- The longest array whose stores are folded. -/
def maxFolded : Nat := 64

/-- The value of an array element before it is stored. -/
def defaultOf (type : String) : Expr :=
  .const
    (if type = Descriptor.long then .long 0
     else if type = Descriptor.float then .float 0
     else if type = Descriptor.double then .double 0
     else if type = Descriptor.boolean then .boolean false
     else if Descriptor.isReference type then .null
     else .int 0)

/-- The value of a literal that is an `int` from 0 on. -/
def natLiteral? : Expr → Option Nat
  | .const (.int n) => if 0 ≤ n then some n.toNat else none
  | _ => none

/-- Every value from position `i` on is the default. -/
def onlyDefaultsFrom (default : Expr) (values : List Expr) (i : Nat) : Bool :=
  (values.drop i).all (·.same default)

/-- The construction of a new array with the value at position `index`, if the size and the
    index are small literals and no store at `index` or behind it was folded before. -/
def stored? (array index value : Expr) : Option Expr :=
  match array with
  | .newArray t size =>
    match size.natLiteral?, index.natLiteral? with
    | some n, some i =>
      if n ≤ maxFolded ∧ i < n then
        some (.arrayOf t size ((List.replicate n (defaultOf t)).set i value))
      else none
    | _, _ => none
  | .arrayOf t size values =>
    match size.natLiteral?, index.natLiteral? with
    | some n, some i =>
      if n ≤ maxFolded ∧ i < n ∧ onlyDefaultsFrom (defaultOf t) values i then
        some (.arrayOf t size (values.set i value))
      else none
    | _, _ => none
  | _ => none

/-- The value is the construction of an array. -/
def isNewArray : Expr → Bool
  | .newArray _ _ | .arrayOf _ _ _ => true
  | _ => false

end Restructure.Expr
