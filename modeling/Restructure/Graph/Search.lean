import Restructure.Graph.Basic

namespace Restructure

/-!
# Depth-first search — the order in which nodes are finished

* `search size next starts` — the nodes below `size` that can be reached from `starts` by
  `next`, each once, in the order in which a depth-first search finishes them: neighbours in
  their order, nodes seen before skipped.
* `Links.postorder`, `Links.reversePostorder` — the search along the edges from one node.
-/

/-- What is left to do in a search: to enter a node, or to finish one whose neighbours are
    done. -/
inductive Visit where
  | enter (n : Nat)
  | finish (n : Nat)

/-- Runs a search from a state until it enters a node, and goes on with `onward`. The state is what
    is left to do, the nodes seen, and the nodes finished with the latest first. -/
def searchStep (size : Nat) (next : Nat → List Nat)
    (onward : List Visit → List Nat → List Nat → List Nat) :
    (todo : List Visit) → (seen finished : List Nat) → List Nat
  | [], _, finished => finished.reverse
  | .finish n :: todo, seen, finished => searchStep size next onward todo seen (n :: finished)
  | .enter n :: todo, seen, finished =>
    if n < size ∧ n ∉ seen then
      onward (((next n).filter (fun m => !(n :: seen).contains m)).map .enter ++ .finish n :: todo)
        (n :: seen) finished
    else searchStep size next onward todo seen finished

/-- Runs a search from a state, entering at most `room` nodes. -/
def searchFrom (size : Nat) (next : Nat → List Nat) :
    (room : Nat) → (todo : List Visit) → (seen finished : List Nat) → List Nat
  | 0 => searchStep size next fun _ _ finished => finished.reverse
  | room + 1 => searchStep size next (searchFrom size next room)

/-- The nodes below `size` that can be reached, in the order in which they are finished. No more
    than `size` nodes can be entered. -/
def search (size : Nat) (next : Nat → List Nat) (starts : List Nat) : List Nat :=
  searchFrom size next size (starts.map .enter) [] []

namespace Links

/-- The nodes reachable from `start` in the order in which a depth-first search finishes them;
    none if there is no such node. -/
def postorder (l : Links) (start : Nat) : List Nat := search l.size l.succ [start]

/-- The nodes reachable from `start`, the last one finished first. -/
def reversePostorder (l : Links) (start : Nat) : List Nat := (l.postorder start).reverse

/-- Some path leads from one node to the other. -/
def reaches (l : Links) (a b : Nat) : Bool := (l.postorder a).contains b

end Links

end Restructure
