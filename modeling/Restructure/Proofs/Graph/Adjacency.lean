import Mathlib.Data.List.Basic
import Restructure.Graph.Adjacency

namespace Restructure

/-!
# Adjacency tables — a row lists the edges at its node

* `Digraph.addEdge_of_lt` — what a new edge changes.
* `numbersAt` — the numbers of the edges with a given end, found by looking through all of them.
* `Adjacency.Tabled` — every row of either table holds these numbers.
* `Adjacency.tabled_ofNodes`, `Adjacency.Tabled.addEdge_of_lt` — so it is without edges, and a new
  edge keeps it so.
* `Adjacency.Tabled.successors_eq`, `Adjacency.Tabled.predecessors_eq` — reading one row is looking
  through all edges.
-/

variable {ν ε : Type}

/-! ### Adding an edge -/

namespace Digraph

/-- A graph is determined by its nodes and its edges. -/
theorem eq_of_edges {g g' : Digraph ν ε} (hn : g.nodes = g'.nodes) (he : g.edges = g'.edges) :
    g = g' := by
  cases g
  cases g'
  cases hn
  cases he
  rfl

/-- An edge between two nodes is added behind the others. -/
theorem addEdge_of_lt {g : Digraph ν ε} {e : Edge ε} (hs : e.source < g.size)
    (ht : e.target < g.size) :
    ∃ g', g.addEdge e.source e.target e.label = .ok g' ∧ g'.nodes = g.nodes ∧
      g'.edges = g.edges ++ [e] := by
  unfold addEdge
  rw [dif_pos hs, dif_pos ht]
  exact ⟨_, rfl, rfl, rfl⟩

/-- Numbers make no difference to which edges are chosen. -/
theorem map_filter_numbered {α : Type} (g : Digraph ν ε) (p : Edge ε → Bool) (f : Edge ε → α) :
    (g.numbered.filter (p ·.2)).map (f ·.2) = (g.edges.filter p).map f := by
  conv => rhs; rw [← List.zipIdx_map_fst 0 g.edges]
  simp only [numbered, List.filter_map, List.map_map]
  rfl

/-- The successors are read off the outgoing edges. -/
theorem successors_eq_outgoing (g : Digraph ν ε) (n : Nat) :
    g.successors n = (g.outgoing n).map (·.2.target) :=
  (g.map_filter_numbered (·.source == n) (·.target)).symm

/-- The predecessors are read off the incoming edges. -/
theorem predecessors_eq_incoming (g : Digraph ν ε) (n : Nat) :
    g.predecessors n = (g.incoming n).map (·.2.source) :=
  (g.map_filter_numbered (·.target == n) (·.source)).symm

end Digraph

/-! ### Tables of edge numbers -/

/-- The numbers of the edges with a given end. -/
def numbersAt (key : Edge ε → Nat) (es : List (Edge ε)) (n : Nat) : List Nat :=
  (es.zipIdx.filter (key ·.1 == n)).map (·.2)

/-- A new edge is the last one at its end. -/
theorem numbersAt_concat (key : Edge ε → Nat) (es : List (Edge ε)) (e : Edge ε) (n : Nat) :
    numbersAt key (es ++ [e]) n
      = if key e = n then numbersAt key es n ++ [es.length] else numbersAt key es n := by
  unfold numbersAt
  rw [List.zipIdx_append, List.filter_append, List.map_append]
  by_cases h : key e = n <;> simp [h]

/-- One row for each of `size` nodes, with the numbers of the edges at that node. -/
def edgeTable (size : Nat) (key : Edge ε → Nat) (es : List (Edge ε)) : List (List Nat) :=
  (List.range size).map (numbersAt key es)

/-- Without edges all lists are empty. -/
theorem edgeTable_nil (size : Nat) (key : Edge ε → Nat) :
    edgeTable size key [] = List.replicate size [] := by
  rw [edgeTable, List.eq_replicate_iff]
  simp [numbersAt]

/-- A new edge is entered behind the row of its end, and no other row changes. -/
theorem edgeTable_concat (size : Nat) (key : Edge ε → Nat) (es : List (Edge ε)) (e : Edge ε) :
    edgeTable size key (es ++ [e]) = (edgeTable size key es).modify (key e) (· ++ [es.length]) := by
  refine List.ext_getElem? fun n => ?_
  rw [List.getElem?_modify]
  simp only [edgeTable, List.getElem?_map, Option.map_eq_map, Option.map_map]
  by_cases hn : n < size
  · rw [List.getElem?_range hn]
    simp [numbersAt_concat]
  · rw [List.getElem?_eq_none (by simpa using hn)]
    rfl

namespace Adjacency

variable {t : Adjacency ν ε} {n : Nat}

/-- The row of a node holds the numbers of the edges at it; where there is no node, there is no
    such edge. -/
theorem row_edgeTable {size : Nat} {key : Edge ε → Nat} {es : List (Edge ε)}
    (hkey : ∀ e ∈ es, key e < size) : row (edgeTable size key es) n = numbersAt key es n := by
  by_cases hn : n < size
  · simp [row, edgeTable, List.getElem?_range hn]
  · -- an edge at `n` would make it a node
    have hnone : numbersAt key es n = [] := by
      rw [numbersAt, List.map_eq_nil_iff, List.filter_eq_nil_iff]
      intro p hp
      have := hkey p.1 (List.fst_mem_of_mem_zipIdx hp)
      simp only [beq_iff_eq]
      omega
    simp [row, edgeTable, hn, hnone]

/-! ### What the tables hold -/

/-- Either table has a row for every node, with the numbers of the edges that have their source,
    or their target, there. -/
structure Tabled (t : Adjacency ν ε) : Prop where
  leaving_eq : t.leaving = edgeTable t.graph.size (·.source) t.graph.edges
  entering_eq : t.entering = edgeTable t.graph.size (·.target) t.graph.edges

/-- Nodes without edges are tabled. -/
theorem tabled_ofNodes (nodes : List ν) : (ofNodes nodes : Adjacency ν ε).Tabled where
  leaving_eq := (edgeTable_nil _ _).symm
  entering_eq := (edgeTable_nil _ _).symm

/-- An edge between two nodes is added to the graph and entered in both tables. -/
theorem Tabled.addEdge_of_lt (h : t.Tabled) {e : Edge ε} (hs : e.source < t.graph.size)
    (ht : e.target < t.graph.size) :
    ∃ t', t.addEdge e.source e.target e.label = .ok t' ∧ t'.Tabled ∧
      t'.graph.nodes = t.graph.nodes ∧ t'.graph.edges = t.graph.edges ++ [e] := by
  obtain ⟨g, hadd, hnodes, hedges⟩ := Digraph.addEdge_of_lt hs ht
  have hsize : g.size = t.graph.size := congrArg List.length hnodes
  refine ⟨_, by rw [addEdge, hadd]; rfl, ⟨?_, ?_⟩, hnodes, hedges⟩
  · show t.leaving.modify e.source (· ++ [t.graph.edges.length]) = _
    rw [h.leaving_eq, hsize, hedges, edgeTable_concat]
  · show t.entering.modify e.target (· ++ [t.graph.edges.length]) = _
    rw [h.entering_eq, hsize, hedges, edgeTable_concat]

/-- The numbers of a row lead to the edges that are found by looking through all of them. -/
theorem edgesOf_row {key : Edge ε → Nat} (hkey : ∀ e ∈ t.graph.edges, key e < t.graph.size) :
    t.edgesOf (row (edgeTable t.graph.size key t.graph.edges) n)
      = t.graph.numbered.filter (key ·.2 == n) := by
  rw [row_edgeTable hkey, edgesOf, numbersAt, Digraph.numbered, List.filter_map,
    List.filterMap_map, ← List.filterMap_eq_map]
  refine List.filterMap_congr fun p hp => ?_
  have hget : t.graph.edges[p.2]? = some p.1 :=
    List.mem_zipIdx_iff_getElem?.1 (List.mem_filter.1 hp).1
  simp [hget]

namespace Tabled

variable (h : t.Tabled)

include h

/-- The row of a node in the first table is the edges that leave it. -/
theorem outgoing_eq : t.outgoing n = t.graph.outgoing n := by
  rw [outgoing, h.leaving_eq]
  exact edgesOf_row fun e he => (t.graph.closed e he).1

/-- The row of a node in the second table is the edges that enter it. -/
theorem incoming_eq : t.incoming n = t.graph.incoming n := by
  rw [incoming, h.entering_eq]
  exact edgesOf_row fun e he => (t.graph.closed e he).2

/-- The tables give the successors of the graph. -/
theorem successors_eq : t.successors n = t.graph.successors n := by
  rw [successors, h.outgoing_eq, Digraph.successors_eq_outgoing]

/-- The tables give the predecessors of the graph. -/
theorem predecessors_eq : t.predecessors n = t.graph.predecessors n := by
  rw [predecessors, h.incoming_eq, Digraph.predecessors_eq_incoming]

end Tabled

end Adjacency

end Restructure
