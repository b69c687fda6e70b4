import Restructure.Graph.Search

namespace Restructure

/-!
# Dominators — which nodes lie on every path from an entry

* `DominatorTree` — the immediate dominator of every reachable node; the entry is its own.
* `DominatorTree.dominators` — the nodes from a given one up to the entry.
* `Links.dominators` — the tree of a graph: immediate dominators are improved in reverse
  postorder until a whole sweep changes nothing.
-/

/-! ### The tree -/

/-- For every node of a graph its immediate dominator, the entry's being itself; nodes that the
    entry does not reach have none. -/
structure DominatorTree where
  entry : Nat
  idom : Array (Option Nat)

namespace DominatorTree

/-- The number of nodes. -/
def size (t : DominatorTree) : Nat := t.idom.size

/-- The immediate dominator; the entry, unreachable nodes and unknown nodes have none. -/
def immediate? (t : DominatorTree) (n : Nat) : Option Nat :=
  if n = t.entry then none else t.idom[n]?.join

/-- The entry reaches the node. -/
def isReachable (t : DominatorTree) (n : Nat) : Bool := t.idom[n]?.join.isSome

/-- The node and up to `fuel` nodes above it. -/
def climb (t : DominatorTree) : (fuel : Nat) → Nat → List Nat
  | 0, n => [n]
  | fuel + 1, n =>
    match t.immediate? n with
    | some m => n :: t.climb fuel m
    | none => [n]

/-- The dominators of a node from itself up to the entry; an unreachable node has only itself. -/
def dominators (t : DominatorTree) (n : Nat) : List Nat := t.climb t.size n

/-- Every path from the entry to `b` passes through `a`. -/
def dominates (t : DominatorTree) (a b : Nat) : Bool := (t.dominators b).contains a

/-- The node dominates another one. -/
def strictlyDominates (t : DominatorTree) (a b : Nat) : Bool := a != b && t.dominates a b

/-- The number of steps from a node up to the entry. -/
def depth (t : DominatorTree) (n : Nat) : Nat := (t.dominators n).length - 1

/-- The nodes that a node dominates immediately, ascending. -/
def children (t : DominatorTree) (n : Nat) : List Nat :=
  (List.range t.size).filter fun m => t.immediate? m == some n

end DominatorTree

/-! ### Computing the tree -/

/-- Where two walks up a partial tree meet. `number` grows towards the entry, and the walk whose
    node has the smaller number moves. -/
def meet (idom : Array (Option Nat)) (number : Nat → Nat) : (fuel a b : Nat) → Nat
  | 0, a, _ => a
  | fuel + 1, a, b =>
    if a = b then a
    else if number a < number b then
      match idom[a]?.join with
      | some c => meet idom number fuel c b
      | none => b
    else
      match idom[b]?.join with
      | some c => meet idom number fuel a c
      | none => a

/-- The meeting point so far and one more node, which counts only if it has a dominator; `room`
    bounds the walk. -/
def meetNext (idom : Array (Option Nat)) (number : Nat → Nat) (room : Nat) (best : Option Nat)
    (p : Nat) : Option Nat :=
  if idom[p]?.join.isNone then best
  else
    match best with
    | none => some p
    | some b => some (meet idom number room p b)

namespace Links

/-- The meeting point of the predecessors of a node that have a dominator already. -/
def meetPredecessors (l : Links) (number : Nat → Nat) (room : Nat) (idom : Array (Option Nat))
    (n : Nat) : Option Nat :=
  (l.pred n).foldl (meetNext idom number room) none

/-- Improves the dominator of one node. -/
def improve (l : Links) (entry : Nat) (number : Nat → Nat) (room : Nat)
    (idom : Array (Option Nat)) (n : Nat) : Array (Option Nat) :=
  if n = entry then idom
  else
    match l.meetPredecessors number room idom n with
    | none => idom
    | some d => idom.setIfInBounds n (some d)

/-- Improves the dominators of the given nodes one after the other. -/
def sweep (l : Links) (entry : Nat) (number : Nat → Nat) (room : Nat) (order : List Nat)
    (idom : Array (Option Nat)) : Array (Option Nat) :=
  order.foldl (l.improve entry number room) idom

/-- Sweeps until nothing changes, at most `fuel` times. -/
def settle (l : Links) (entry : Nat) (number : Nat → Nat) (room : Nat) (order : List Nat) :
    (fuel : Nat) → Array (Option Nat) → Array (Option Nat)
  | 0, idom => idom
  | fuel + 1, idom =>
    let next := l.sweep entry number room order idom
    if next = idom then idom else l.settle entry number room order fuel next

/-- The table before the first sweep: only the entry has a dominator. -/
def initialTable (l : Links) (entry : Nat) : Array (Option Nat) :=
  (Array.replicate l.size none).setIfInBounds entry (some entry)

/-- The dominators found with the given bounds on walks and on sweeps. -/
def dominatorsWithin (l : Links) (entry room fuel : Nat) : DominatorTree where
  entry := entry
  idom :=
    let order := l.postorder entry
    l.settle entry (fun n => order.idxOf n) room order.reverse fuel (l.initialTable entry)

/-- The dominator tree of the nodes reachable from `entry`. A walk moves each of its two ends up
    at every step, and a sweep that changes something moves a dominator up, so larger bounds
    change nothing. -/
def dominators (l : Links) (entry : Nat) : DominatorTree :=
  l.dominatorsWithin entry (2 * l.size) (l.size * l.size + 1)

end Links

end Restructure
