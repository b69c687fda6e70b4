import Restructure.Region.Pass

namespace Restructure

/-!
# Loops — `while`, `do`, `for` and endless loops

A loop that tests in its header is written as `while`, one that tests in its only latch as `do`,
and any other one as an endless loop that is left by jumps. A `while` loop over a local that is
set before it and updated at the end of its body becomes `for`.

* `promoteFor` — the statement for a `while` loop, and the scope before it.
* `Context.loop` — the code of a loop.
-/

/-! ### Counting loops -/

mutual

/-- The statement holds a jump to the next round that belongs to the loop around it. -/
def Stmt.hasOwnContinue : Stmt → Bool
  | .continueLoop => true
  | .ifElse _ b none => b.hasOwnContinue
  | .ifElse _ b (some e) => b.hasOwnContinue || e.hasOwnContinue
  | .switch _ arms => SwitchArm.anyHasOwnContinue arms
  | _ => false

/-- Some statement holds such a jump. -/
def Stmt.anyHasOwnContinue : List Stmt → Bool
  | [] => false
  | s :: ss => s.hasOwnContinue || Stmt.anyHasOwnContinue ss

/-- The scope holds such a jump. -/
def Scope.hasOwnContinue : Scope → Bool
  | ⟨_, _, ss, _⟩ => Stmt.anyHasOwnContinue ss

/-- Some arm holds such a jump. -/
def SwitchArm.anyHasOwnContinue : List SwitchArm → Bool
  | [] => false
  | ⟨_, _, b, _⟩ :: arms => b.hasOwnContinue || SwitchArm.anyHasOwnContinue arms

end

/-- The local that an assignment at the end of the scope sets, if it does nothing else. -/
def Scope.initialized? (s : Scope) : Option Nat :=
  match s.last? with
  | some (.assign t e) => (Stmt.assign t e).assignedLocal?
  | _ => none

/-- The local of a counting loop: set at the end of the scope before it, tested by its condition,
    and changed at the end of its body. -/
def counter? (scope : Scope) (cond : Cond) (body : Scope) : Option Nat := do
  let slot ← scope.initialized?
  if (body.last?.bind Stmt.assignedLocal?) = some slot ∧ cond.reads slot ∧ !body.hasOwnContinue then
    some slot
  else none

/-- The statement for a loop that tests first, and the scope before it. -/
def promoteFor (enabled : Bool) (scope : Scope) (cond : Cond) (body : Scope) :
    Except Error (Stmt × Scope) :=
  match if enabled then counter? scope cond body else none with
  | some _ => do
    let (update, body) ← body.pop
    let (init, scope) ← scope.pop
    let body ← body.lock
    return (.forLoop (some init) cond (some update) body, scope)
  | none => do
    let body ← body.lock
    return (.whileLoop cond body, scope)

/-! ### Tests of loops -/

/-- The test of a loop header with the block inside the loop, the block outside, and the chain of
    blocks that it consists of. -/
structure LoopTest where
  cond : Cond
  inside : Nat
  outside : Nat
  chain : List Nat

namespace Context

variable (c : Context)

/-- The test of a loop header that does nothing else. -/
def loopTest? (l : Loop) (written : List Nat) (scope : Scope) : Option LoopTest := do
  let head ← c.pureTest l.header scope
  let eligible (n : Nat) : Bool :=
    n != l.header && l.contains n && !written.contains n && !c.graph.isLoopHeader n
  let (test, chain) := BranchTest.fold c scope eligible head l.header
  match l.contains test.taken, l.contains test.fallthrough with
  | true, false => some ⟨test.cond, test.taken, test.fallthrough, chain⟩
  | false, true => some ⟨test.cond.negate, test.fallthrough, test.taken, chain⟩
  | _, _ => none

/-- The branch of a latch that leads to the header and to the outside, and the block outside. -/
def latchTest? (l : Loop) : Option (Nat × Branch × Nat × Bool) := do
  let latch ← l.singleLatch
  let b ← c.graph.block? latch
  match b.exit with
  | .branch test taken fallthrough =>
    if taken = l.header ∧ !l.contains fallthrough then some (latch, test, fallthrough, true)
    else if fallthrough = l.header ∧ !l.contains taken then some (latch, test, taken, false)
    else none
  | _ => none

/-- The block behind an endless loop: the only exit, the only exit that is not a tail of its own,
    or the exit that all others lead to. -/
def loopFollow? (exits : List Nat) : Option Nat :=
  match exits with
  | [n] => some n
  | _ =>
    match exits.filter fun n => !c.isPrivateTail n with
    | [n] => some n
    | shared => shared.find? fun n =>
      shared.all fun m => m == n || c.graph.graph.links.reaches m n

/-! ### The three forms -/

/-- `while` or `for`, if the header only tests. -/
def whileLoop (walk : Walk) (frames : Frames) (l : Loop) (m : Simulation) :
    Pass (Option Onward) := do
  match c.loopTest? l (← get).written m.scope with
  | none => return none
  | some test => do
    Pass.markAll test.chain
    let frames := .loop l.header l.header l.body (some test.outside) :: frames
    let body ← walk.into frames test.inside (some l.header) (m.scope.child .loop)
      (.valuesAfterLoopBody test.inside)
    let enabled := c.config.forLoops && l.preheader.isSome
    let (stmt, scope) ← Pass.of (promoteFor enabled m.scope test.cond body)
    let m ← Pass.append { m with scope } stmt
    return some (some test.outside, m)

/-- The body of a `do` loop up to its latch. -/
def doPrefix (walk : Walk) (frames : Frames) (header latch : Nat) (body : Scope) : Pass Scope :=
  if latch = header then pure body
  else walk.into frames header (some latch) body (.valuesAfterLoopBody header)

/-- The body of a `do` loop and the condition under which its latch is taken. -/
def doBody (walk : Walk) (frames : Frames) (header latch : Nat) (test : Branch) (body : Scope) :
    Pass (Cond × Scope) := do
  let body ← doPrefix walk frames header latch body
  Pass.markAll [header, latch]
  let m ← c.simulate latch (.start body)
  let (cond, st) ← Pass.of (branchCondition test m.stack)
  Pass.failIf (!st.isEmpty) (.valuesAfterLoopTest latch)
  return (cond, m.scope)

/-- `do`, if the only latch branches between the header and the outside. -/
def doLoop (walk : Walk) (frames : Frames) (l : Loop) (m : Simulation) :
    Pass (Option Onward) := do
  match c.latchTest? l with
  | none => return none
  | some (latch, test, outside, onTaken) => do
    let frames := .loop l.header latch l.body (some outside) :: frames
    let (cond, body) ← c.doBody walk frames l.header latch test (m.scope.child .loop)
    let body ← Pass.of body.lock
    let m ← Pass.append m (.doWhile (if onTaken then cond else cond.negate) body)
    return some (some outside, m)

/-- The scope without a jump to the next round at its end. -/
def dropContinue (s : Scope) : Except Error Scope :=
  match s.last? with
  | some .continueLoop => s.pop.map (·.2)
  | _ => .ok s

/-- A loop that is left only by jumps. `enter` writes its header. -/
def endlessLoop (walk : Walk) (enter : Frames → Nat → Option Nat → Simulation → Pass Onward)
    (frames : Frames) (l : Loop) (m : Simulation) : Pass Onward := do
  let follow := c.loopFollow? l.exitTargets
  let frames := .loop l.header l.header l.body follow :: frames
  let onward ← enter frames l.header none (.start (m.scope.child .loop))
  let body ← walk.goOn frames none onward
  Pass.failIf (!body.stack.isEmpty) (.valuesAfterLoop l.header)
  let body ← Pass.of (dropContinue body.scope)
  let body ← Pass.of body.lock
  let m ← Pass.append m (.whileLoop .always body)
  return (follow, m)

/-- The code of a loop. -/
def loop (walk : Walk) (enter : Frames → Nat → Option Nat → Simulation → Pass Onward)
    (frames : Frames) (l : Loop) (m : Simulation) : Pass Onward := do
  Pass.failIf (!m.stack.isEmpty) (.valuesAtLoop l.header)
  match ← Pass.tryIf (l.form == .preTested || l.form == .complex) (c.whileLoop walk frames l m) with
  | some onward => return onward
  | none =>
    match ← Pass.tryIf (l.form == .postTested || l.form == .complex) (c.doLoop walk frames l m) with
    | some onward => return onward
    | none => c.endlessLoop walk enter frames l m

end Context

end Restructure
