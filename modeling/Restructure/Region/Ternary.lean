import Restructure.Region.Jump

namespace Restructure

/-!
# Conditional values — branches whose arms only choose a value

A branch is a conditional expression when both of its arms do nothing but push a value and meet
again, assign to the same destination and meet again, or return a value.

* `Context.valueArm?` — the value of an arm that only computes one; its own branches are
  conditional values again.
* `Context.ternary?` — how a branch collapses, if it does.
-/

/-- The value of an arm, the block behind it, and the blocks it consists of. -/
structure ValueArm where
  value : Expr
  merge : Nat
  blocks : List Nat

/-- An arm that assigns and goes on, or that returns. -/
inductive ArmShape where
  | assign (target : Place) (value : Expr) (merge : Nat)
  | ret (value : Expr)

/-- A collapsed branch: the blocks of its arms, and the value it leaves on the stack or the
    statement it becomes, with the block behind it. -/
inductive Collapsed where
  | value (blocks : List Nat) (e : Expr) (merge : Nat)
  | stmt (blocks : List Nat) (s : Stmt) (merge : Option Nat)

/-- The conditional expression of a test, given the values at its fallthrough and its taken
    target. -/
def BranchTest.choose (t : BranchTest) (atFallthrough atTaken : Expr) : Expr :=
  .ternary t.cond.negate atFallthrough atTaken

namespace Context

variable (c : Context)

/-- The value of an arm that starts at block `n` and that only the blocks `chain` lead to, with
    up to `fuel` branches inside one another. -/
def valueArmWithin? (p : Position) (scope : Scope) :
    (fuel n : Nat) → (chain : List Nat) → Option ValueArm
  | 0, _, _ => none
  | fuel + 1, n, chain =>
    if c.entersPlain p n && c.onlyReachedFrom n chain then do
      let b ← c.graph.block? n
      match b.exit with
      | .goto merge =>
        let m ← c.scratch? n scope
        match m.scope.isEmpty, m.stack with
        | true, [.value e] => some ⟨e, merge, [n]⟩
        | _, _ => none
      | .branch _ _ _ =>
        let head ← c.pureTest n scope
        let (test, inner) := head.fold c scope (c.entersPlain p) n
        let taken ← valueArmWithin? p scope fuel test.taken inner
        let fall ← valueArmWithin? p scope fuel test.fallthrough inner
        if taken.merge = fall.merge then
          some ⟨test.choose fall.value taken.value, taken.merge,
            taken.blocks ++ fall.blocks ++ inner⟩
        else none
      | _ => none
    else none

/-- The value of an arm. Branches nest no deeper than there are blocks. -/
def valueArm? (p : Position) (scope : Scope) (n : Nat) (chain : List Nat) : Option ValueArm :=
  c.valueArmWithin? p scope (c.graph.size + 1) n chain

/-- The collapsed branch if both arms only compute values and meet behind them. -/
def valueTernary? (p : Position) (scope : Scope) (test : BranchTest) (chain : List Nat) :
    Option Collapsed := do
  let taken ← c.valueArm? p scope test.taken chain
  let fall ← c.valueArm? p scope test.fallthrough chain
  if taken.merge = fall.merge ∧ taken.merge ≠ test.taken ∧ taken.merge ≠ test.fallthrough then
    some (.value (taken.blocks ++ fall.blocks) (test.choose fall.value taken.value) taken.merge)
  else none

/-- The shape of an arm that is a single block. -/
def armShape? (scope : Scope) (n : Nat) : Except Error (Option ArmShape) :=
  match c.graph.block? n, c.scratch? n scope with
  | some b, some m =>
    match b.exit, m.scope.stmts, m.stack with
    | .goto merge, [.assign target value], [] => .ok (some (.assign target value merge))
    | .retValue, [], [o] => (Operands.pop [o]).map fun r => some (.ret r.1)
    | _, _, _ => .ok none
  | _, _ => .ok none

/-- The collapsed branch if both arms assign to one destination and meet, or both return. -/
def stmtTernary? (scope : Scope) (test : BranchTest) : Except Error (Option Collapsed) := do
  match ← c.armShape? scope test.fallthrough with
  | none => return none
  | some fall =>
    match fall, ← c.armShape? scope test.taken with
    | .assign target value merge, some (.assign target' value' merge') =>
      if target.same target' ∧ merge = merge' then
        return some (.stmt [test.fallthrough, test.taken]
          (.assign target (test.choose value value')) (some merge))
      else return none
    | .ret value, some (.ret value') =>
      return some (.stmt [test.fallthrough, test.taken]
        (.ret (some (test.choose value value'))) none)
    | _, _ => return none

/-- How a branch with the given chain collapses. With values waiting on the stack it can only
    become a value itself. -/
def ternary? (p : Position) (m : Simulation) (test : BranchTest) (chain : List Nat) :
    Except Error (Option Collapsed) :=
  if test.taken = test.fallthrough then .ok none
  else
    match c.valueTernary? p m.scope test chain with
    | some v => .ok (some v)
    | none =>
      if m.stack.isEmpty
          && [test.fallthrough, test.taken].all (fun n =>
            c.entersPlain p n && c.onlyReachedFrom n chain) then
        c.stmtTernary? m.scope test
      else .ok none

end Context

end Restructure
