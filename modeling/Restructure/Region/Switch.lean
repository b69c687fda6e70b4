import Restructure.Region.Pass

namespace Restructure

/-!
# Switches — arms in the order of their blocks

Keys with one target share an arm, arms are in the order of their blocks, and an arm that runs
into the next one is written without a jump.

* `groupCases` — the arms of a switch by ascending target.
* `Context.switch` — the code of a switch.
-/

/-- The start of an arm, its keys, and whether it is the default. -/
structure ArmEntry where
  start : Nat
  keys : List Int
  isDefault : Bool

namespace ArmEntry

/-- Changes the entry of a target, or puts a new one at its place. -/
def update (f : ArmEntry → ArmEntry) (start : Nat) : List ArmEntry → List ArmEntry
  | [] => [f ⟨start, [], false⟩]
  | e :: es =>
    if start < e.start then f ⟨start, [], false⟩ :: e :: es
    else if start = e.start then f e :: es
    else e :: update f start es

/-- Adds a key. -/
def addKey (k : Int) (e : ArmEntry) : ArmEntry := { e with keys := e.keys ++ [k] }

/-- The arm is taken when no key matches. -/
def makeDefault (e : ArmEntry) : ArmEntry := { e with isDefault := true }

/-- The keys in ascending order. -/
def sorted (e : ArmEntry) : ArmEntry := { e with keys := e.keys.mergeSort (· ≤ ·) }

end ArmEntry

/-- The arms of a switch by ascending target. The default has none if it is the block behind the
    switch. -/
def groupCases (cases : List (Int × Nat)) (default : Nat) (follow : Option Nat) :
    List ArmEntry :=
  let keyed := cases.foldl (fun es k => ArmEntry.update (ArmEntry.addKey k.1) k.2 es) []
  let all :=
    if follow = some default then keyed
    else ArmEntry.update ArmEntry.makeDefault default keyed
  all.map ArmEntry.sorted

/-- Ends the code of an arm: whether a jump behind the switch belongs at its end, and the scope
    without that jump. `next` is the block that the arm runs into. -/
def closeArm (next follow : Option Nat) (s : Scope) : Except Error (Bool × Scope) :=
  match s.last? with
  | some .breakOut => s.pop.map fun r => (true, r.2)
  | last => .ok (next.isSome && next == follow && !last.any Stmt.isTerminal, s)

namespace Walk

/-- The code of one arm that runs into `next`, and whether a jump behind the switch belongs at its
    end. -/
def switchArm (walk : Walk) (frames : Frames) (follow next : Option Nat) (body : Scope)
    (start : Nat) : Pass (Bool × Scope) :=
  if follow = some start then pure (true, body)
  else do
    let body ← walk.into frames start next body (.valuesAfterSwitchArm start)
    Pass.of (closeArm next follow body)

/-- The code of the arms, `follow` being the block behind the switch. -/
def switchArms (walk : Walk) (frames : Frames) (follow : Option Nat) (scope : Scope) :
    List ArmEntry → Pass (List SwitchArm)
  | [] => return []
  | e :: es => do
    let next := (es.head?.map (·.start)).or follow
    let (breaks, body) ← walk.switchArm frames follow next (scope.child .switch) e.start
    let body ← Pass.of body.lock
    let arms ← switchArms walk frames follow scope es
    return ⟨e.keys, e.isDefault, body, breaks⟩ :: arms

end Walk

namespace Context

variable (c : Context)

/-- The code of the switch that ends block `n`. -/
def switch (walk : Walk) (frames : Frames) (n : Nat) (cases : List (Int × Nat)) (default : Nat)
    (stop : Option Nat) (m : Simulation) : Pass Onward := do
  let (key, st) ← Pass.of m.stack.pop
  Pass.failIf (!st.isEmpty) (.valuesAtSwitch st.length n)
  let m := { m with stack := st }
  let p ← Pass.position frames stop
  let follow := c.graph.postDominator? n
  let own := follow.filter fun f =>
    stop == some f || (c.jump p f == .enter && frames.inLoop f)
  let entries := groupCases cases default own
  let arms ← walk.switchArms (.switch own :: frames) own m.scope entries
  let m ← Pass.append m (.switch key arms)
  return (follow, m)

end Context

end Restructure
