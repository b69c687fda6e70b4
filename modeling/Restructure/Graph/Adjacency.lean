import Restructure.Graph.Basic

namespace Restructure

/-!
# Adjacency tables — the edges at each node, kept as rows of numbers

The queries of a `Digraph` look through all its edges. The same graph can be kept together with two
tables that grow with it, so that a query reads a single row.

* `Adjacency` — a graph and, for either end of its edges, one row of edge numbers for every node.
* `Adjacency.addEdge` — writes the number of the new edge behind one row of each table.
* `Adjacency.outgoing`, `Adjacency.incoming` — the edges of a row, and their other ends.
-/

/-- A graph with the numbers of the edges that leave each node and of those that enter it. -/
structure Adjacency (ν ε : Type) where
  graph : Digraph ν ε
  leaving : List (List Nat)
  entering : List (List Nat)

namespace Adjacency

variable {ν ε : Type}

/-- The given nodes without edges: every row is empty. -/
def ofNodes (nodes : List ν) : Adjacency ν ε where
  graph := .ofNodes nodes
  leaving := List.replicate nodes.length []
  entering := List.replicate nodes.length []

/-- Adds an edge between two nodes and enters its number at both. -/
def addEdge (t : Adjacency ν ε) (source target : Nat) (label : ε) :
    Except MissingNode (Adjacency ν ε) := do
  let graph ← t.graph.addEdge source target label
  return {
    graph
    leaving := t.leaving.modify source (· ++ [t.graph.edgeCount])
    entering := t.entering.modify target (· ++ [t.graph.edgeCount]) }

/-- The row of a node; a missing node has an empty one. -/
def row (table : List (List Nat)) (n : Nat) : List Nat := table[n]?.getD []

/-- The edges with the given numbers. -/
def edgesOf (t : Adjacency ν ε) (numbers : List Nat) : List (Nat × Edge ε) :=
  numbers.filterMap fun i => t.graph.edges[i]?.map fun e => (i, e)

/-- The edges that leave a node, with their numbers. -/
def outgoing (t : Adjacency ν ε) (n : Nat) : List (Nat × Edge ε) := t.edgesOf (row t.leaving n)

/-- The edges that enter a node, with their numbers. -/
def incoming (t : Adjacency ν ε) (n : Nat) : List (Nat × Edge ε) := t.edgesOf (row t.entering n)

/-- The targets of the edges that leave a node. -/
def successors (t : Adjacency ν ε) (n : Nat) : List Nat := (t.outgoing n).map (·.2.target)

/-- The sources of the edges that enter a node. -/
def predecessors (t : Adjacency ν ε) (n : Nat) : List Nat := (t.incoming n).map (·.2.source)

end Adjacency

end Restructure
