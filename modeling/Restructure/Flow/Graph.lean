import Restructure.Error
import Restructure.Graph.Adjacency
import Restructure.Graph.PostDominators
import Restructure.Graph.Loops

namespace Restructure

/-!
# Control flow — the graph of a method's basic blocks

* `FlowLabel` — why control follows an edge.
* `FlowGraph` — the blocks with an edge for every jump, and what is known about the graph:
  dominators from block 0, post-dominators and natural loops.
* `FlowGraph.ofBlocks` — fails without blocks or with a jump to a missing block.
* `FlowGraph.connect` — the same graph, made one edge after the other together with its tables.
* `FlowGraph.irreducibleEdges` — the edges that enter a cycle other than at its header.
-/

/-! ### Edges -/

/-- Why control follows an edge: always, because a test holds or fails, or because a switch key
    matches, the default having no key. -/
inductive FlowLabel where
  | always
  | holds (test : Branch)
  | fails
  | case (key : Option Int)
  deriving DecidableEq

namespace FlowLabel

/-- The edge belongs to a two-way branch. -/
def isConditional : FlowLabel → Bool
  | holds _ | fails => true
  | _ => false

/-- The edge belongs to a switch. -/
def isSwitch : FlowLabel → Bool
  | case _ => true
  | _ => false

end FlowLabel

/-- The targets of a terminator with the reasons for taking them. -/
def Terminator.edges : Terminator → List (Nat × FlowLabel)
  | goto t => [(t, .always)]
  | branch test taken fallthrough => [(taken, .holds test), (fallthrough, .fails)]
  | switch cases default =>
    cases.map (fun c => (c.2, .case (some c.1))) ++ [(default, .case none)]
  | ret | retValue | throw => []

/-- The targets of the edges are the terminator's successors. -/
theorem Terminator.map_fst_edges (t : Terminator) : t.edges.map (·.1) = t.successors := by
  cases t <;> simp [edges, successors]

/-- The edges of blocks numbered from 0, by ascending source. -/
def flowEdges (blocks : List Block) : List (Edge FlowLabel) :=
  blocks.zipIdx.flatMap fun p => p.1.exit.edges.map fun e => ⟨p.2, e.1, e.2⟩

/-- Edges leave blocks. -/
theorem source_lt_of_mem_flowEdges {blocks : List Block} {e : Edge FlowLabel}
    (h : e ∈ flowEdges blocks) : e.source < blocks.length := by
  obtain ⟨p, hp, he⟩ := List.mem_flatMap.1 h
  obtain ⟨_, _, rfl⟩ := List.mem_map.1 he
  have := List.mem_zipIdx hp
  show p.2 < blocks.length
  omega

/-! ### The graph -/

/-- A non-empty list of blocks with the edges of their terminators, and its analyses. -/
structure FlowGraph where
  graph : Digraph Block FlowLabel
  tree : DominatorTree
  postTree : PostDominatorTree
  loops : List Loop
  nonempty : 0 < graph.size
  edges_eq : graph.edges = flowEdges graph.nodes
  tree_eq : tree = graph.links.dominators 0
  postTree_eq : postTree = graph.links.postDominators
  loops_eq : loops = graph.links.loops tree

namespace FlowGraph

/-- The entry block. -/
def entry : Nat := 0

/-- The flow graph of a digraph that holds the edges of its blocks. -/
def ofDigraph (g : Digraph Block FlowLabel) (hg : 0 < g.size)
    (he : g.edges = flowEdges g.nodes) : FlowGraph where
  graph := g
  tree := g.links.dominators 0
  postTree := g.links.postDominators
  loops := g.links.loops (g.links.dominators 0)
  nonempty := hg
  edges_eq := he
  tree_eq := rfl
  postTree_eq := rfl
  loops_eq := rfl

/-- The flow graph of blocks. -/
def ofBlocks (blocks : List Block) : Except Error FlowGraph :=
  if hb : 0 < blocks.length then
    match hf : (flowEdges blocks).find? fun e => blocks.length ≤ e.target with
    | some e => .error (.missingSuccessor e.source e.target blocks.length)
    | none =>
      have closed : ∀ e ∈ flowEdges blocks,
          e.source < blocks.length ∧ e.target < blocks.length := fun e he =>
        ⟨source_lt_of_mem_flowEdges he, by simpa using List.find?_eq_none.1 hf e he⟩
      .ok (ofDigraph ⟨blocks, flowEdges blocks, closed⟩ hb rfl)
  else .error .noBlocks

/-- Adds an edge from a block, unless it leads out of the blocks. -/
def connectEdge (t : Adjacency Block FlowLabel) (e : Edge FlowLabel) :
    Except Error (Adjacency Block FlowLabel) :=
  if t.graph.size ≤ e.target then
    .error (.missingSuccessor e.source e.target t.graph.size)
  else (t.addEdge e.source e.target e.label).mapError .missingNode

/-- The graph of blocks with its tables, to which the jumps are added block by block. -/
def connect (blocks : List Block) : Except Error (Adjacency Block FlowLabel) :=
  if blocks.isEmpty then .error .noBlocks
  else (flowEdges blocks).foldlM connectEdge (.ofNodes blocks)

variable (g : FlowGraph)

/-! ### Queries -/

/-- The number of blocks. -/
def size : Nat := g.graph.size

/-- The block with the given number. -/
def block? (n : Nat) : Option Block := g.graph.nodes[n]?

/-- The targets of a block, in edge order. -/
def successors (n : Nat) : List Nat := g.graph.successors n

/-- The blocks with an edge to a block, once for every edge. -/
def predecessors (n : Nat) : List Nat := g.graph.predecessors n

/-- The blocks that end the method. -/
def exits : List Nat :=
  (g.graph.nodes.zipIdx.filter fun p => p.1.exit.flow == .leave || p.1.exit.flow == .throw).map
    (·.2)

/-- Every path from the entry to `b` passes through `a`. -/
def dominates (a b : Nat) : Bool := g.tree.dominates a b

/-- The entry reaches the block. -/
def isReachable (n : Nat) : Bool := g.tree.isReachable n

/-- The nearest other block on every path from the block to an exit. -/
def postDominator? (n : Nat) : Option Nat := g.postTree.immediate? n

/-- The loop with the given header. -/
def loopAt? (header : Nat) : Option Loop := Restructure.loopAt? g.loops header

/-- The block is the header of a loop. -/
def isLoopHeader (n : Nat) : Bool := (g.loopAt? n).isSome

/-- The reasons for going from one block to another. -/
def labels (a b : Nat) : List FlowLabel :=
  ((g.graph.outgoing a).filter (·.2.target == b)).map (·.2.label)

/-- The reachable blocks in postorder. -/
def postorder : List Nat := g.graph.links.postorder entry

/-- The reachable blocks in reverse postorder. -/
def reversePostorder : List Nat := g.graph.links.reversePostorder entry

/-! ### Reducibility -/

/-- The edges that do not go forward in reverse postorder and do not lead to a dominator. -/
def irreducibleEdges : List (Nat × Nat) :=
  let order := g.reversePostorder
  order.flatMap fun n =>
    ((g.successors n).filter fun m =>
      order.idxOf m ≤ order.idxOf n && !g.dominates m n).map fun m => (n, m)

/-- Every cycle is entered at a block that dominates it. -/
def isReducible : Bool := g.irreducibleEdges.isEmpty

end FlowGraph

end Restructure
