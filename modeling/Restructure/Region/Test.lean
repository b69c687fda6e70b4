import Restructure.Expr.Condition
import Restructure.Flow.Graph
import Restructure.Simulation.Step

namespace Restructure

/-!
# Branch tests — the conditions of two-way branches, folded along chains

Source code tests `a && b` by a chain of blocks that share targets. A block that does nothing
but test joins the chain of the blocks that lead to it.

* `branchCondition` — the condition under which a branch is taken.
* `BranchTest` — a condition with the blocks that it leads to.
* `pureTest` — the test of a block that does nothing else.
* `BranchTest.fold` — the test of a whole chain of such blocks.
-/

/-! ### Conditions -/

/-- The test of a value against zero. A three-way comparison is undone, and a truth value is
    tested directly. -/
def zeroTest (value : Expr) (r : Relation) : Cond :=
  match value with
  | .compare _ left right => .compare left r right
  | _ =>
    if value.type = Descriptor.boolean ∧ r = .eq then .test value true
    else if value.type = Descriptor.boolean ∧ r = .ne then .test value false
    else .compare value r (.int 0)

/-- The condition under which a branch is taken, and the stack without its operands. -/
def branchCondition (test : Branch) (st : Operands) : Except Error (Cond × Operands) :=
  match test with
  | .zero r => do
    let (value, st) ← st.pop
    return (zeroTest value r, st)
  | .values r => do
    let (right, st) ← st.pop
    let (left, st) ← st.pop
    return (.compare left r right, st)
  | .isNull => do
    let (value, st) ← st.pop
    return (.compare value .eq (.const .null), st)
  | .isNotNull => do
    let (value, st) ← st.pop
    return (.compare value .ne (.const .null), st)

/-! ### Tests -/

/-- A condition and the blocks that control goes to when it holds and when it does not. -/
structure BranchTest where
  cond : Cond
  taken : Nat
  fallthrough : Nat

/-- What stays the same while a method is structured. -/
structure Context where
  config : Config
  graph : FlowGraph

namespace Context

variable (c : Context)

/-- Simulates a block over an empty stack and a scope of its own. -/
def scratch? (n : Nat) (scope : Scope) : Option Simulation :=
  match c.graph.block? n with
  | some b => (Simulation.run c.config (.start (scope.child .block)) b.insns).toOption
  | none => none

/-- The test of a block that only computes the operands of its branch. -/
def pureTest (n : Nat) (scope : Scope) : Option BranchTest := do
  let b ← c.graph.block? n
  match b.exit with
  | .branch test taken fallthrough =>
    let m ← c.scratch? n scope
    if m.scope.isEmpty && m.stack.length == test.pops then
      let (cond, _) ← (branchCondition test m.stack).toOption
      return ⟨cond, taken, fallthrough⟩
    else none
  | _ => none

/-- A block may join a chain: it is eligible, and only the chain leads to it. -/
def joinable (eligible : Nat → Bool) (chain : List Nat) (n : Nat) : Bool :=
  !chain.contains n && eligible n && (c.graph.predecessors n).all chain.contains

end Context

namespace BranchTest

/-- Joins the test at the fallthrough target: `a || b`. -/
def joinFallthrough (head next : BranchTest) : Option BranchTest :=
  if next.taken = head.taken then
    some ⟨.any [head.cond, next.cond], head.taken, next.fallthrough⟩
  else if next.fallthrough = head.taken then
    some ⟨.any [head.cond, next.cond.negate], head.taken, next.taken⟩
  else none

/-- Joins the test at the taken target: `a && b`. -/
def joinTaken (head next : BranchTest) : Option BranchTest :=
  if next.fallthrough = head.fallthrough then
    some ⟨.all [head.cond, next.cond], next.taken, head.fallthrough⟩
  else if next.taken = head.fallthrough then
    some ⟨.all [head.cond, next.cond.negate], next.fallthrough, head.fallthrough⟩
  else none

/-- The block that the chain takes in next, with the test of the longer chain. -/
def extension? (c : Context) (scope : Scope) (eligible : Nat → Bool) (chain : List Nat)
    (head : BranchTest) : Option (Nat × BranchTest) :=
  let atFallthrough :=
    if c.joinable eligible chain head.fallthrough then
      ((c.pureTest head.fallthrough scope).bind head.joinFallthrough).map (head.fallthrough, ·)
    else none
  atFallthrough.or
    (if c.joinable eligible chain head.taken then
      ((c.pureTest head.taken scope).bind head.joinTaken).map (head.taken, ·)
    else none)

/-- Takes in up to `room` blocks. -/
def foldWithin (c : Context) (scope : Scope) (eligible : Nat → Bool) :
    (room : Nat) → BranchTest → (chain : List Nat) → BranchTest × List Nat
  | 0, head, chain => (head, chain)
  | room + 1, head, chain =>
    match head.extension? c scope eligible chain with
    | some (n, longer) => longer.foldWithin c scope eligible room (chain ++ [n])
    | none => (head, chain)

/-- The test of the longest chain from a block on, and the chain. -/
def fold (c : Context) (scope : Scope) (eligible : Nat → Bool) (head : BranchTest) (n : Nat) :
    BranchTest × List Nat :=
  head.foldWithin c scope eligible (c.config.maxChain - 1) [n]

end BranchTest

end Restructure
