import Restructure.Graph.Dominators

namespace Restructure

/-!
# Post-dominators — which nodes lie on every path to an exit

* `Links.reversed` — the graph with its edges turned round and one more node, the way out, from
  which all exits are reached.
* `PostDominatorTree` — the dominator tree of that graph; the way out never shows in an answer.
-/

/-- Turns the edges round and puts a way out, numbered behind the nodes, before every exit. -/
def Links.reversed (l : Links) : Links where
  size := l.size + 1
  succ n :=
    if n = l.size then (List.range l.size).filter fun m => (l.succ m).isEmpty
    else l.pred n
  pred n :=
    if n = l.size then []
    else if (l.succ n).isEmpty then [l.size]
    else l.succ n

/-- The dominator tree of the reversed graph, whose entry is the way out. -/
structure PostDominatorTree where
  tree : DominatorTree

namespace PostDominatorTree

/-- The number of nodes, the way out not counted. -/
def size (t : PostDominatorTree) : Nat := t.tree.entry

/-- The nearest other node on every path from the node to an exit. -/
def immediate? (t : PostDominatorTree) (n : Nat) : Option Nat :=
  (t.tree.immediate? n).filter (· != t.tree.entry)

/-- Every path from `b` to an exit passes through `a`. -/
def postDominates (t : PostDominatorTree) (a b : Nat) : Bool := t.tree.dominates a b

/-- Some exit can be reached from the node. -/
def reachesExit (t : PostDominatorTree) (n : Nat) : Bool :=
  n != t.tree.entry && t.tree.isReachable n

end PostDominatorTree

/-- The post-dominators of a graph; the exits are the nodes without successors. -/
def Links.postDominators (l : Links) : PostDominatorTree where
  tree := l.reversed.dominators l.size

end Restructure
