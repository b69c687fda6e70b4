import Restructure.Region.Jump

namespace Restructure

/-!
# Passes — what is known while code is written

* `Progress` — the blocks written so far, the labels placed, and the blocks that jumps lead to.
* `Pass` — a computation that updates the progress or fails.
-/

/-- What has been written: blocks, labels, and the targets of jumps, the latter ascending. -/
structure Progress where
  written : List Nat := []
  placed : List Nat := []
  targets : List Nat := []

/-- A computation that updates the progress or fails. -/
abbrev Pass := StateT Progress (Except Error)

/-- Structures code from a block on, within enclosing constructs, up to a block that ends the
    region. -/
abbrev Walk := Frames → (start : Nat) → (stop : Option Nat) → Simulation → Pass Simulation

/-- The block that control goes on to, if any, and the code written so far. -/
abbrev Onward := Option Nat × Simulation

namespace Pass

/-- Carries a failure over. -/
def of {α : Type} (r : Except Error α) : Pass α := StateT.lift r

/-- Fails. -/
def fail {α : Type} (e : Error) : Pass α := of (.error e)

/-- Fails if the test holds. -/
def failIf (test : Bool) (e : Error) : Pass Unit := if test then fail e else pure ()

/-- A computation that is only tried if the test holds. -/
def tryIf {α : Type} (test : Bool) (x : Pass (Option α)) : Pass (Option α) :=
  if test then x else pure none

/-- The blocks have been written. -/
def markAll (ns : List Nat) : Pass Unit :=
  modify fun p => { p with written := ns ++ p.written }

/-- The block has been written. -/
def mark (n : Nat) : Pass Unit := markAll [n]

/-- The blocks are targets of jumps. -/
def addTargets (ns : List Nat) : Pass Unit :=
  modify fun p => { p with targets := ns.foldl (fun ts n => Loop.insertAscending n ts) p.targets }

/-- The label of the block has been placed. -/
def place (n : Nat) : Pass Unit := modify fun p => { p with placed := n :: p.placed }

/-- The place in the code within the given constructs. -/
def position (frames : Frames) (stop : Option Nat) : Pass Position :=
  return ⟨frames, (← get).written, stop⟩

/-- Adds a statement to the code. -/
def append (m : Simulation) (s : Stmt) : Pass Simulation := of (m.append s)

end Pass

namespace Context

variable (c : Context)

/-- The block with the given number. -/
def block (n : Nat) : Pass Block :=
  match c.graph.block? n with
  | some b => return b
  | none => Pass.fail (.missingBlock n)

/-- Simulates the instructions of a block. -/
def simulate (n : Nat) (m : Simulation) : Pass Simulation := do
  let b ← c.block n
  Pass.of (Simulation.run c.config m b.insns)

end Context

namespace Walk

/-- Structures code into a scope over an empty stack, which must be empty again at the end. -/
def into (walk : Walk) (frames : Frames) (start : Nat) (stop : Option Nat) (scope : Scope)
    (leftover : Error) : Pass Scope := do
  let m ← walk frames start stop (.start scope)
  Pass.failIf (!m.stack.isEmpty) leftover
  return m.scope

/-- Goes on with the code of the next block, if there is one. -/
def goOn (walk : Walk) (frames : Frames) (stop : Option Nat) : Onward → Pass Simulation
  | (some next, m) => walk frames next stop m
  | (none, m) => return m

end Walk

end Restructure
