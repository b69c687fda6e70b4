namespace Restructure

/-!
# Directed graphs — numbered nodes and labelled edges

Nodes and edges are numbered from 0 in the order in which they were added. Parallel edges and
self loops are allowed, and every list below names an edge's end as often as there are edges.

* `Digraph` — nodes and edges, every edge between existing nodes.
* `Digraph.addEdge` — refuses an edge from or to a missing node.
* `Digraph.successors`, `Digraph.predecessors` — in the order of the edges.
* `Links` — a graph as the algorithms see it: a number of nodes and two neighbour functions.
-/

/-- An edge. -/
structure Edge (ε : Type) where
  source : Nat
  target : Nat
  label : ε

/-- Nodes and edges in the order of their numbers. -/
structure Digraph (ν ε : Type) where
  nodes : List ν
  edges : List (Edge ε)
  closed : ∀ e ∈ edges, e.source < nodes.length ∧ e.target < nodes.length

/-- Which end of an edge is missing in a graph of `size` nodes. -/
inductive MissingNode where
  | source (n size : Nat)
  | target (n size : Nat)
  deriving DecidableEq

/-- The neighbours of the nodes `0 … size - 1`. -/
structure Links where
  size : Nat
  succ : Nat → List Nat
  pred : Nat → List Nat

namespace Digraph

variable {ν ε : Type}

/-! ### Construction -/

/-- The graph with the given nodes and no edges. -/
def ofNodes (nodes : List ν) : Digraph ν ε where
  nodes := nodes
  edges := []
  closed := by simp

/-- The graph without nodes. -/
def empty : Digraph ν ε := ofNodes []

/-- The number of nodes. -/
def size (g : Digraph ν ε) : Nat := g.nodes.length

/-- The number of edges. -/
def edgeCount (g : Digraph ν ε) : Nat := g.edges.length

/-- Adds a node; its number is the former size. -/
def addNode (g : Digraph ν ε) (label : ν) : Digraph ν ε where
  nodes := g.nodes ++ [label]
  edges := g.edges
  closed := fun e he => by
    have := g.closed e he
    simp only [List.length_append, List.length_cons, List.length_nil]
    omega

/-- Adds an edge between two nodes; its number is the former number of edges. -/
def addEdge (g : Digraph ν ε) (source target : Nat) (label : ε) :
    Except MissingNode (Digraph ν ε) :=
  if hs : source < g.size then
    if ht : target < g.size then
      .ok {
        nodes := g.nodes
        edges := g.edges ++ [⟨source, target, label⟩]
        closed := fun e he => by
          rcases List.mem_append.1 he with he | he
          · exact g.closed e he
          · obtain rfl := List.mem_singleton.1 he
            exact ⟨hs, ht⟩ }
    else .error (.target target g.size)
  else .error (.source source g.size)

/-! ### Queries -/

/-- The edges with their numbers. -/
def numbered (g : Digraph ν ε) : List (Nat × Edge ε) := g.edges.zipIdx.map fun p => (p.2, p.1)

/-- The edges that leave a node, with their numbers. -/
def outgoing (g : Digraph ν ε) (n : Nat) : List (Nat × Edge ε) :=
  g.numbered.filter (·.2.source == n)

/-- The edges that enter a node, with their numbers. -/
def incoming (g : Digraph ν ε) (n : Nat) : List (Nat × Edge ε) :=
  g.numbered.filter (·.2.target == n)

/-- The targets of the edges that leave a node. -/
def successors (g : Digraph ν ε) (n : Nat) : List Nat :=
  (g.edges.filter (·.source == n)).map (·.target)

/-- The sources of the edges that enter a node. -/
def predecessors (g : Digraph ν ε) (n : Nat) : List Nat :=
  (g.edges.filter (·.target == n)).map (·.source)

/-- The nodes that no edge leaves. -/
def exits (g : Digraph ν ε) : List Nat :=
  (List.range g.size).filter fun n => (g.successors n).isEmpty

/-- The graph as the algorithms see it. -/
def links (g : Digraph ν ε) : Links where
  size := g.size
  succ := g.successors
  pred := g.predecessors

/-- Edges lead to nodes. -/
theorem successors_lt (g : Digraph ν ε) {n m : Nat} (h : m ∈ g.successors n) : m < g.size := by
  obtain ⟨e, he, rfl⟩ := List.mem_map.1 h
  exact (g.closed e (List.mem_filter.1 he).1).2

/-- Edges come from nodes. -/
theorem predecessors_lt (g : Digraph ν ε) {n m : Nat} (h : m ∈ g.predecessors n) :
    m < g.size := by
  obtain ⟨e, he, rfl⟩ := List.mem_map.1 h
  exact (g.closed e (List.mem_filter.1 he).1).1

/-- A node is as often a predecessor of another as that one is a successor of it. -/
theorem count_predecessors (g : Digraph ν ε) (n m : Nat) :
    (g.predecessors n).count m = (g.successors m).count n := by
  simp only [predecessors, successors]
  induction g.edges with
  | nil => rfl
  | cons e es ih =>
    by_cases ht : e.target = n <;> by_cases hs : e.source = m <;> grind

end Digraph

/-! ### Names of nodes and edges -/

/-- A node in messages. -/
def nodeName (n : Nat) : String := "n" ++ toString n

/-- A node in diagnostics. -/
def describeNode (n : Nat) : String := "NodeId(" ++ toString n ++ ")"

/-- An edge in messages. -/
def edgeName (e : Nat) : String := "e" ++ toString e

/-- An edge in diagnostics. -/
def describeEdge (e : Nat) : String := "EdgeId(" ++ toString e ++ ")"

/-- A list in diagnostics. -/
def describeList {α : Type} (describe : α → String) (xs : List α) : String :=
  "[" ++ ", ".intercalate (xs.map describe) ++ "]"

/-- The wording of a missing end. -/
def MissingNode.message : MissingNode → String
  | source n size =>
    "source node " ++ nodeName n ++ " does not exist in graph with " ++ toString size ++ " nodes"
  | target n size =>
    "target node " ++ nodeName n ++ " does not exist in graph with " ++ toString size ++ " nodes"

end Restructure
