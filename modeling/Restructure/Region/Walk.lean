import Restructure.Flat
import Restructure.Region.Branch
import Restructure.Region.Loop
import Restructure.Region.Switch

namespace Restructure

/-!
# Regions — structuring a method from block to block

A region is written from its first block on, each block with its terminator, until control
reaches the end of the region, jumps out of it or leaves the method.

* `Context.regionStep` — one block of a region, given how regions are structured.
* `Context.region` — regions, nested to a bounded depth.
* `Context.pass` — the code of a whole graph with labels at given blocks.
* `Context.structured` — passes until every jump has its label.
-/

namespace Context

variable (c : Context)

/-! ### Single blocks -/

/-- A block and what follows from its terminator. -/
def blockCode (walk : Walk) (frames : Frames) (n : Nat) (stop : Option Nat) (m : Simulation) :
    Pass Onward := do
  Pass.mark n
  let m ← c.simulate n m
  match (← c.block n).exit with
  | .goto t => return (some t, m)
  | .ret => do
    let m ← Pass.append m (.ret none)
    return (none, m)
  | .retValue => do
    let (e, st) ← Pass.of m.stack.pop
    let m ← Pass.append { m with stack := st } (.ret (some e))
    return (none, m)
  | .throw => do
    let (e, st) ← Pass.of m.stack.pop
    let m ← Pass.append { m with stack := st } (.throw e)
    return (none, m)
  | .branch test taken fallthrough => c.branch walk frames n test taken fallthrough stop m
  | .switch cases default => c.switch walk frames n cases default stop m

/-- A jump to a label. -/
def gotoLabel (n : Nat) (m : Simulation) : Pass Simulation := do
  Pass.failIf (!c.config.fallback) (.needsLabel n)
  Pass.failIf (!m.stack.isEmpty) (.valuesAtJump m.stack.length n)
  Pass.addTargets [n]
  Pass.append m (.goto n)

/-- The label of a block. -/
def placeLabel (n : Nat) (m : Simulation) : Pass Simulation := do
  Pass.failIf (!m.stack.isEmpty) (.valuesAtLabel n)
  Pass.place n
  Pass.append m (.label n)

/-! ### Regions -/

/-- The label of a block that needs one. -/
def labelled (labels : List Nat) (n : Nat) (m : Simulation) : Pass Simulation :=
  if labels.contains n then placeLabel n m else pure m

/-- The code of a block that is written here, as a loop if it is the header of one that it is not
    in yet. -/
def entered (walk : Walk) (frames : Frames) (n : Nat) (stop : Option Nat) (m : Simulation) :
    Pass Onward :=
  match c.graph.loopAt? n with
  | some l =>
    if frames.isHeader n then c.blockCode walk frames n stop m
    else c.loop walk (c.blockCode walk) frames l m
  | none => c.blockCode walk frames n stop m

/-- The code of a region that starts at a block, given the code of regions inside and behind. -/
def regionStep (labels : List Nat) (walk : Walk) : Walk := fun frames n stop m => do
  match c.jump (← Pass.position frames stop) n with
  | .stop => return m
  | .nextRound => Pass.append m .continueLoop
  | .leave => Pass.append m .breakOut
  | .invalid => c.gotoLabel n m
  | .enter => do
    let m ← labelled labels n m
    let onward ← c.entered walk frames n stop m
    walk.goOn frames stop onward

/-- The code of a region, with up to `fuel` blocks behind or inside one another. -/
def region (labels : List Nat) : (fuel : Nat) → Walk
  | 0 => fun _ _ _ _ => Pass.fail .nestedTooDeep
  | fuel + 1 => c.regionStep labels (region labels fuel)

/-- Enough for every graph: a block is entered once, and a loop header once more for its loop. -/
def depth : Nat := 2 * c.graph.size + 2

/-! ### Passes -/

/-- A body, and the targets of its jumps that have no label in it. -/
structure Result where
  body : Scope
  hasJumps : Bool
  unlabeled : List Nat

/-- The body without a plain return at its end. -/
def dropReturn (s : Scope) : Except Error Scope :=
  match s.last? with
  | some (.ret none) => s.pop.map (·.2)
  | _ => .ok s

/-- The code of the blocks that only jumps lead to, behind the structured code. -/
def tail (body : Scope) : Pass Scope := do
  let written := (← get).written
  let rest := c.reachableBlocks.filter fun n => !written.contains n
  if rest.isEmpty || !c.config.fallback then Pass.of (dropReturn body)
  else do
    Pass.markAll rest
    rest.forM Pass.place
    let (body, targets) ← Pass.of (c.flatBlocks body rest)
    Pass.addTargets targets
    return body

/-- The structured code of the whole graph, and what only jumps lead to behind it. -/
def code (labels : List Nat) (body : Scope) : Pass Scope := do
  let m ← c.region labels c.depth [] FlowGraph.entry none (.start body)
  c.tail m.scope

/-- Structures the whole graph into a body, with labels at the given blocks. -/
def pass (labels : List Nat) (body : Scope) : Except Error Result :=
  if !c.config.fallback && !c.graph.isReducible then
    .error (.irreducible c.graph.irreducibleEdges)
  else do
    let (body, progress) ← (c.code labels body).run {}
    return ⟨body, !progress.targets.isEmpty,
      progress.targets.filter fun n => !progress.placed.contains n⟩

/-- Repeats passes, labels added where they were missing, until no target lacks its label. -/
def passes (body : Scope) : (fuel : Nat) → (labels : List Nat) → Except Error Result
  | 0, labels => .error (.unplacedLabels labels)
  | fuel + 1, labels => do
    let r ← c.pass labels body
    if r.unlabeled.isEmpty then return r
    else if r.unlabeled.all labels.contains then throw (.unplacedLabels r.unlabeled)
    else passes body fuel (labels ++ r.unlabeled.filter fun n => !labels.contains n)

/-- Structures the whole graph into a body. Every pass but the last adds a label. -/
def structured (body : Scope) : Except Error Result := c.passes body (c.graph.size + 1) []

end Context

end Restructure
