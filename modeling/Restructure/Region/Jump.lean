import Restructure.Region.Test

namespace Restructure

/-!
# Jumps — how a transfer of control is written

A block is reached from inside the constructs that enclose it, and from there a transfer to it is
a jump that one of them offers, the place where the block is written, or nothing that structured
code has.

* `Frame` — an enclosing loop or switch.
* `Position` — a place in the code: the enclosing constructs, the blocks written so far, and the
  block at which the present region ends.
* `Context.jump` — how a transfer to a block is written there.
-/

/-- An enclosing construct, with the block that control reaches behind it. A loop also has the
    block that begins its next round. -/
inductive Frame where
  | loop (header next : Nat) (body : List Nat) (follow : Option Nat)
  | switch (follow : Option Nat)

namespace Frame

/-- The block behind the construct. -/
def follow : Frame → Option Nat
  | loop _ _ _ f => f
  | switch f => f

/-- The block that begins the next round of a loop. -/
def next? : Frame → Option Nat
  | loop _ n _ _ => some n
  | switch _ => none

/-- The construct is a loop. -/
def isLoop : Frame → Bool
  | loop _ _ _ _ => true
  | switch _ => false

/-- The construct is the loop with the given header. -/
def isLoopAt (n : Nat) : Frame → Bool
  | loop h _ _ _ => h == n
  | switch _ => false

end Frame

/-- The enclosing constructs, the innermost first. -/
abbrev Frames := List Frame

namespace Frames

/-- The block that begins the next round of the innermost loop. -/
def nextRound? (fs : Frames) : Option Nat := (fs.find? Frame.isLoop).bind Frame.next?

/-- The block belongs to the innermost loop; outside of loops every block counts. -/
def inLoop (fs : Frames) (n : Nat) : Bool :=
  match fs.find? Frame.isLoop with
  | some (.loop _ _ body _) => body.contains n
  | _ => true

/-- The block is the header of an enclosing loop. -/
def isHeader (fs : Frames) (n : Nat) : Bool := fs.any (Frame.isLoopAt n)

/-- The block behind the innermost construct. -/
def follow? (fs : Frames) : Option Nat := fs.head?.bind Frame.follow

/-- Some enclosing construct can be left or continued to reach the block. -/
def isOuterTarget (fs : Frames) (n : Nat) : Bool :=
  fs.any fun f => f.follow == some n || f.next? == some n

end Frames

/-- How a transfer of control is written: by writing its target here, by reaching the end of the
    region, by a jump of an enclosing construct, or not at all. -/
inductive Jump where
  | enter | stop | nextRound | leave | invalid
  deriving DecidableEq

/-- A place in the code. -/
structure Position where
  frames : Frames
  written : List Nat
  stop : Option Nat

namespace Context

variable (c : Context)

/-- The block dominates all blocks that it reaches, so they can be written where it is. -/
def isPrivateTail (n : Nat) : Bool :=
  (c.graph.graph.links.postorder n).all (c.graph.dominates n)

/-- How a transfer to a block is written. -/
def jump (p : Position) (n : Nat) : Jump :=
  if p.stop = some n then .stop
  else if p.frames.nextRound? = some n then .nextRound
  else if p.frames.follow? = some n then .leave
  else if p.frames.isOuterTarget n then .invalid
  else if !p.frames.inLoop n && !c.isPrivateTail n then .invalid
  else if p.written.contains n then .invalid
  else .enter

/-- The block can be written here, and it is no loop header. -/
def entersPlain (p : Position) (n : Nat) : Bool :=
  c.jump p n == .enter && !c.graph.isLoopHeader n

/-- Only the given blocks lead to the block. -/
def onlyReachedFrom (n : Nat) (blocks : List Nat) : Bool :=
  (c.graph.predecessors n).all blocks.contains

end Context

namespace Position

/-- The place in an arm that never comes back: there the next round of the innermost loop is no
    end of the region but a jump. -/
def guarded (p : Position) : Position :=
  match p.stop with
  | some s => if p.frames.nextRound? = some s then { p with stop := none } else p
  | none => p

end Position

end Restructure
