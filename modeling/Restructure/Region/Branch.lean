import Restructure.Region.Pass
import Restructure.Region.Ternary

namespace Restructure

/-!
# Branches — conditionals, guards and conditional jumps

A two-way branch is written, in this order of preference, as a conditional value, as a
conditional whose arms meet again, as a guard around the arm that never comes back, or as a
conditional jump to a label.

* `Context.guardedArm?` — the arm that never rejoins the other one.
* `Context.branch` — the code of a branch.
-/

/-- One arm of a branch: where it starts, where the other one starts, and whether it is the taken
    one. -/
structure Guard where
  start : Nat
  other : Nat
  isTaken : Bool

namespace Context

variable (c : Context)

/-! ### Arms that never come back -/

/-- The number of blocks that an arm reaches before control leaves by a jump or ends. There is no
    such number if the arm reaches the other one or the end of the region, or if it needs a jump
    that cannot be written other than back to a loop header inside the arm. -/
def closedArmSize? (p : Position) (arm other : Nat) : Option Nat :=
  if arm = other then none
  else
    match c.jump p arm with
    | .nextRound | .leave => some 0
    | .stop | .invalid => none
    | .enter =>
      let g := c.graph
      let reached :=
        search g.size (fun n => if c.jump p n == .enter then g.successors n else []) [arm]
      let isOpen (n : Nat) : Bool :=
        n == other || p.stop == some n ||
          (c.jump p n == .invalid && !(g.isLoopHeader n && g.dominates arm n))
      if reached.any isOpen then none else some reached.length

/-- The smaller arm of those that never rejoin the other one. -/
def guardedArm? (p : Position) (test : BranchTest) : Option Guard :=
  let fall : Guard := ⟨test.fallthrough, test.taken, false⟩
  let taken : Guard := ⟨test.taken, test.fallthrough, true⟩
  match c.closedArmSize? p.guarded fall.start fall.other,
    c.closedArmSize? p.guarded taken.start taken.other with
  | some m, some n => some (if m ≤ n then fall else taken)
  | some _, none => some fall
  | none, some _ => some taken
  | none, none => none

/-- The block can serve as the place where both arms meet. -/
def usableMerge (p : Position) (n : Nat) : Bool :=
  match c.jump p n with
  | .stop | .nextRound | .leave => true
  | .enter => p.frames.inLoop n
  | .invalid => false

end Context

namespace Walk

/-! ### Writing -/

/-- The code of an arm. -/
def arm (walk : Walk) (frames : Frames) (start : Nat) (stop : Option Nat) (scope : Scope) :
    Pass Scope := do
  let s ← walk.into frames start stop (scope.child .arm) (.valuesAfterArm start)
  Pass.of s.lock

/-- The code of an arm, if there is one. -/
def armIf (walk : Walk) (frames : Frames) (stop : Option Nat) (scope : Scope) :
    (start : Option Nat) → Pass (Option Scope)
  | some start => do
    let s ← walk.arm frames start stop scope
    return some s
  | none => return none

/-- A conditional whose arms meet at `merge`. -/
def conditional (walk : Walk) (frames : Frames) (test : BranchTest) (merge : Nat)
    (m : Simulation) : Pass Onward := do
  let (cond, thenStart, elseStart) :=
    if test.fallthrough = merge then (test.cond, test.taken, none)
    else if test.taken = merge then (test.cond.negate, test.fallthrough, none)
    else (test.cond.negate, test.fallthrough, some test.taken)
  let body ← walk.arm frames thenStart (some merge) m.scope
  let orElse ← walk.armIf frames (some merge) m.scope elseStart
  let m ← Pass.append m (.ifElse cond body orElse)
  return (some merge, m)

/-- A guard around an arm that never comes back; control goes on with the other one. -/
def guard (walk : Walk) (p : Position) (test : BranchTest) (g : Guard) (m : Simulation) :
    Pass Onward := do
  let cond := if g.isTaken then test.cond else test.cond.negate
  let body ← walk.arm p.frames g.start p.guarded.stop m.scope
  let m ← Pass.append m (.ifElse cond body none)
  return (some g.other, m)

end Walk

namespace Context

variable (c : Context)

/-- A conditional jump to the taken target. -/
def conditionalJump (n : Nat) (test : BranchTest) (m : Simulation) : Pass Onward := do
  Pass.failIf (!c.config.fallback) (.noStructuredForm n)
  Pass.addTargets [test.taken]
  let m ← Pass.append m (.gotoIf test.cond test.taken)
  return (some test.fallthrough, m)

/-- The code of a branch that is no conditional value. -/
def plainBranch (walk : Walk) (p : Position) (n : Nat) (test : BranchTest) (m : Simulation) :
    Pass Onward := do
  Pass.failIf (!m.stack.isEmpty) (.valuesAtBranch m.stack.length n)
  match (c.graph.postDominator? n).filter (c.usableMerge p) with
  | some merge =>
    if c.jump p merge = .leave then
      match c.guardedArm? p test with
      | some g => walk.guard p test g m
      | none => walk.conditional p.frames test merge m
    else walk.conditional p.frames test merge m
  | none =>
    match c.guardedArm? p test with
    | some g => walk.guard p test g m
    | none => c.conditionalJump n test m

/-- The code of a collapsed branch. -/
def collapsed (m : Simulation) : Collapsed → Pass Onward
  | .value blocks e merge => do
    Pass.markAll blocks
    return (some merge, m.pushOn m.stack e)
  | .stmt blocks s merge => do
    Pass.markAll blocks
    let m ← Pass.append m s
    return (merge, m)

/-- The code of the branch that ends block `n`. -/
def branch (walk : Walk) (frames : Frames) (n : Nat) (test : Branch) (taken fallthrough : Nat)
    (stop : Option Nat) (m : Simulation) : Pass Onward := do
  let (cond, st) ← Pass.of (branchCondition test m.stack)
  let m := { m with stack := st }
  let p ← Pass.position frames stop
  let eligible (k : Nat) : Bool := c.entersPlain p k && frames.inLoop k
  let (test, chain) := BranchTest.fold c m.scope eligible ⟨cond, taken, fallthrough⟩ n
  Pass.markAll chain
  let p ← Pass.position frames stop
  match ← Pass.tryIf c.config.ternaries (Pass.of (c.ternary? p m test chain)) with
  | some form => collapsed m form
  | none => c.plainBranch walk p n test m

end Context

end Restructure
