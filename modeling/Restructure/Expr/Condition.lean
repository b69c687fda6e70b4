import Restructure.Expr.Basic

namespace Restructure.Cond

/-!
# Building conditions — flattening and negation

* `all`, `any` — short-circuit conjunction and disjunction of a list of tests; an operand of
  the same kind is replaced by its own operands, and a single operand stands for itself.
* `negate` — the opposite test, with the same values evaluated in the same order.
-/

/-! ### Constants -/

/-- The test that always holds. -/
def always : Cond := .test (.const (.boolean true)) false

/-- The test that a value is true. -/
def holds (e : Expr) : Cond := .test e false

/-! ### Conjunction and disjunction -/

/-- The operands that a test contributes to a conjunction. -/
def andOperands : Cond → List Cond
  | .and cs => cs
  | c => [c]

/-- The operands that a test contributes to a disjunction. -/
def orOperands : Cond → List Cond
  | .or cs => cs
  | c => [c]

/-- The conjunction of operands that are already flat. -/
def conjunction : List Cond → Cond
  | [c] => c
  | cs => .and cs

/-- The disjunction of operands that are already flat. -/
def disjunction : List Cond → Cond
  | [c] => c
  | cs => .or cs

/-- The conjunction of tests, in their order. -/
def all (cs : List Cond) : Cond := conjunction (cs.flatMap andOperands)

/-- The disjunction of tests, in their order. -/
def any (cs : List Cond) : Cond := disjunction (cs.flatMap orOperands)

/-! ### Negation -/

mutual

/-- The opposite of a test. Comparisons take the opposite relation, as if floating point values
    were always ordered, and an explicit negation is dropped. -/
def negate : Cond → Cond
  | .test e inverse => .test e (!inverse)
  | .compare l r e => .compare l r.negate e
  | .not c => c
  | .and cs => any (negateAll cs)
  | .or cs => all (negateAll cs)

/-- The opposites of tests. -/
def negateAll : List Cond → List Cond
  | [] => []
  | c :: cs => c.negate :: negateAll cs

end

/-- The negations of a list are those of its members. -/
theorem negateAll_eq_map (cs : List Cond) : negateAll cs = cs.map negate := by
  induction cs with
  | nil => rfl
  | cons c cs ih => simp [negateAll, ih]

end Restructure.Cond
