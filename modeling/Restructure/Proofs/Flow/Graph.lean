import Restructure.Flow.Graph
import Restructure.Proofs.Graph.LoopDetection
import Restructure.Proofs.Graph.PostDominators

namespace Restructure

/-!
# Flow graphs — terminators as edges, and what the analyses say

* `exists_of_targets` — blocks whose jumps lead to blocks have a graph.
* `Terminator.mem_successors_branch`, `Terminator.mem_successors_switch` — the targets of a test and
  of a switch.
* `successors_of_block` — the successors of a block are the targets of its terminator, in their
  order and as often as they stand there.
* `tree_exact` — the dominators of a flow graph are those of its paths from the entry.
* `isReachable_of_successor` — reachable blocks lead to reachable ones.
* `exact_of_loopAt`, `loopAt_natural` — the loops of a flow graph are exact, and natural loops.
* `not_isLoopHeader_of_exit` — no loop begins at the latch that leaves another one.
-/

namespace Terminator

variable {m : Nat}

/-- A test leads to its two targets. -/
theorem mem_successors_branch {test : Branch} {taken fallthrough : Nat} :
    m ∈ (branch test taken fallthrough).successors ↔ m = taken ∨ m = fallthrough := by
  simp [successors]

/-- A switch leads to the targets of its cases and to its default. -/
theorem mem_successors_switch {cases : List (Int × Nat)} {default : Nat} :
    m ∈ (switch cases default).successors ↔ m ∈ cases.map (·.2) ∨ m = default := by
  simp only [successors, List.mem_append, List.mem_singleton]

end Terminator

namespace FlowGraph

variable (g : FlowGraph) {n m : Nat}

/-- The links of a flow graph lead to its blocks, both ways. -/
theorem links_lawful : g.graph.links.Lawful := g.graph.links_lawful

/-- The graph of blocks holds these blocks. -/
theorem nodes_of_ofBlocks {blocks : List Block} {g : FlowGraph} (h : ofBlocks blocks = .ok g) :
    g.graph.nodes = blocks := by
  unfold ofBlocks at h
  split at h
  · split at h
    · cases h
    · cases h
      rfl
  · cases h

/-- Blocks whose jumps lead to blocks have a graph. -/
theorem exists_of_targets {blocks : List Block} (hne : blocks ≠ [])
    (h : ∀ b ∈ blocks, ∀ t ∈ b.exit.successors, t < blocks.length) :
    ∃ g, ofBlocks blocks = .ok g := by
  have hclosed : ∀ e ∈ flowEdges blocks, e.target < blocks.length := by
    intro e he
    obtain ⟨⟨b, n⟩, hb, he⟩ := List.mem_flatMap.1 he
    obtain ⟨x, hx, rfl⟩ := List.mem_map.1 he
    have hmem : x.1 ∈ b.exit.successors := by
      rw [← b.exit.map_fst_edges]
      exact List.mem_map_of_mem hx
    exact h b (List.mem_of_getElem? (List.mem_zipIdx_iff_getElem?.1 hb)) x.1 hmem
  unfold ofBlocks
  rw [dif_pos (List.length_pos_iff.2 hne)]
  split
  · rename_i e he
    have hlt := hclosed e (List.mem_of_find?_eq_some he)
    have hle : blocks.length ≤ e.target := by simpa using List.find?_some he
    omega
  · exact ⟨_, rfl⟩

/-! ### Edges of one block -/

/-- The edges of other blocks do not leave this one. -/
theorem filter_edges_of_others {ps : List (Block × Nat)} (h : ∀ p ∈ ps, p.2 ≠ n) :
    ((ps.flatMap fun p => p.1.exit.edges.map fun e => (⟨p.2, e.1, e.2⟩ : Edge FlowLabel)).filter
      (·.source == n)) = [] := by
  rw [List.filter_eq_nil_iff]
  intro e he
  obtain ⟨p, hp, he⟩ := List.mem_flatMap.1 he
  obtain ⟨_, _, rfl⟩ := List.mem_map.1 he
  simpa using h p hp

/-- The edges that leave a block are those of its terminator. -/
theorem filter_flowEdges_of_block {blocks : List Block} {b : Block} (hb : blocks[n]? = some b) :
    (flowEdges blocks).filter (·.source == n) = b.exit.edges.map fun e => ⟨n, e.1, e.2⟩ := by
  obtain ⟨hn, rfl⟩ := List.getElem?_eq_some_iff.1 hb
  -- the blocks in front and behind have other numbers, so only this block's edges are left
  have hcut : blocks.zipIdx
      = (blocks.take n).zipIdx ++ (blocks[n], n) :: (blocks.drop (n + 1)).zipIdx (n + 1) := by
    conv => lhs; rw [← List.take_append_drop n blocks, List.drop_eq_getElem_cons hn]
    rw [List.zipIdx_append, List.zipIdx_cons]
    simp [Nat.min_eq_left (Nat.le_of_lt hn)]
  have hfront : ∀ p ∈ (blocks.take n).zipIdx, p.2 ≠ n := by
    intro p hp
    have := List.mem_zipIdx hp
    simp only [List.length_take] at this
    omega
  have hback : ∀ p ∈ (blocks.drop (n + 1)).zipIdx (n + 1), p.2 ≠ n := by
    intro p hp
    have := List.mem_zipIdx hp
    omega
  rw [flowEdges, hcut, List.flatMap_append, List.filter_append, filter_edges_of_others hfront,
    List.flatMap_cons, List.filter_append, filter_edges_of_others hback]
  simp [List.filter_map, Function.comp_def]

/-- No edge leaves a missing block. -/
theorem filter_flowEdges_of_missing {blocks : List Block} (hn : blocks[n]? = none) :
    (flowEdges blocks).filter (·.source == n) = [] := by
  refine filter_edges_of_others fun p hp hpn => ?_
  rw [List.mem_zipIdx_iff_getElem?, hpn, hn] at hp
  cases hp

/-- The successors of a block are the targets of its terminator. -/
theorem successors_of_block {g : FlowGraph} {b : Block} (hb : g.block? n = some b) :
    g.successors n = b.exit.successors := by
  rw [successors, Digraph.successors, g.edges_eq, filter_flowEdges_of_block hb,
    ← b.exit.map_fst_edges, List.map_map]
  rfl

/-- No edge leaves a missing block. -/
theorem successors_of_missing {g : FlowGraph} (hn : g.block? n = none) : g.successors n = [] := by
  rw [successors, Digraph.successors, g.edges_eq, filter_flowEdges_of_missing hn]
  rfl

/-- The successors of a block are the targets of its terminator. -/
theorem mem_successors_of_block {g : FlowGraph} {b : Block} (hb : g.block? n = some b) :
    m ∈ g.successors n ↔ m ∈ b.exit.successors := by
  rw [successors_of_block hb]

/-- The edges of a block lead to the targets of its terminator. -/
theorem mem_successors_iff :
    m ∈ g.successors n ↔ ∃ b, g.block? n = some b ∧ m ∈ b.exit.successors := by
  cases hb : g.block? n with
  | none => simp [successors_of_missing hb]
  | some b => simp [successors_of_block hb]

/-! ### Dominators -/

/-- The dominator tree tells dominance from the entry. -/
theorem tree_exact : g.tree.Exact g.graph.links entry := by
  rw [g.tree_eq]
  exact Links.dominators_exact g.links_lawful g.nonempty

/-- Whether a block is reachable is read off the dominator tree. -/
theorem isReachable_iff : g.isReachable n = true ↔ g.graph.links.Reachable entry n :=
  g.tree_exact.isReachable_iff n

/-- What a reachable block leads to is reachable. -/
theorem isReachable_of_successor (hn : g.isReachable n = true) (hm : m ∈ g.successors n) :
    g.isReachable m = true := by
  rw [isReachable_iff] at hn ⊢
  exact hn.step hm

/-! ### Loops -/

/-- The loop found at a block is one of the graph's, and begins at that block. -/
theorem mem_loops_of_loopAt {l : Loop} (h : g.loopAt? n = some l) :
    l ∈ g.graph.links.loops (g.graph.links.dominators entry) ∧ l.header = n := by
  have hfound := loopAt?_eq_some h
  rwa [g.loops_eq, g.tree_eq] at hfound

/-- The loop found at a block begins there. -/
theorem header_of_loopAt {l : Loop} (h : g.loopAt? n = some l) : l.header = n :=
  (g.mem_loops_of_loopAt h).2

/-- Its latches, its body and its exits are those of the edges back to the block. -/
theorem exact_of_loopAt {l : Loop} (h : g.loopAt? n = some l) : l.Exact g.graph.links entry :=
  Digraph.exact_of_mem_loops (g.mem_loops_of_loopAt h).1

/-- A latch leads back to the header, which dominates it. -/
theorem backEdge_of_latch {l : Loop} {z : Nat} (h : g.loopAt? n = some l) (hz : z ∈ l.latches) :
    g.graph.links.BackEdge entry z n := by
  rw [← g.header_of_loopAt h]
  exact ((g.exact_of_loopAt h).mem_latches z).1 hz

/-- The exits of a loop lead from its body to the outside. -/
theorem exit_of_loopAt {l : Loop} {e : Nat × Nat} (h : g.loopAt? n = some l) (he : e ∈ l.exits) :
    e.1 ∈ l.body ∧ e.2 ∈ g.successors e.1 ∧ e.2 ∉ l.body := by
  have hmem : e.2 ∈ (l.exits.filter (·.1 == e.1)).map (·.2) :=
    List.mem_map_of_mem (List.mem_filter.2 ⟨he, beq_self_eq_true e.1⟩)
  rw [(g.exact_of_loopAt h).exits_from] at hmem
  split at hmem
  · rename_i hbody
    obtain ⟨hsucc, hout⟩ := List.mem_filter.1 hmem
    exact ⟨hbody, hsucc, by simpa using hout⟩
  · exact absurd hmem List.not_mem_nil

/-- Edges of the graph lead to blocks. -/
theorem lt_of_successor (hm : m ∈ g.successors n) : m < g.size := g.graph.successors_lt hm

/-- The loop is a natural one. -/
theorem loopAt_natural {l : Loop} (h : g.loopAt? n = some l) :
    NaturalLoop g.graph.links entry n l.body := by
  have hnatural := (g.exact_of_loopAt h).natural
  rwa [g.header_of_loopAt h] at hnatural

/-- The header of a loop dominates a block that leads back to it. -/
theorem exists_latch_of_isLoopHeader (h : g.isLoopHeader n = true) :
    ∃ z, g.graph.links.BackEdge entry z n := by
  obtain ⟨l, hl⟩ := Option.isSome_iff_exists.1 h
  obtain ⟨hmem, hheader⟩ := g.mem_loops_of_loopAt hl
  exact hheader ▸ Digraph.exists_backEdge_of_mem_loops hmem

/-- Where a loop goes back to its header or is left, no other loop begins. -/
theorem not_isLoopHeader_of_exit {l : Loop} (h : g.loopAt? n = some l) (hm : m ∈ l.body)
    (hne : m ≠ n) (hexit : ∀ k ∈ g.successors m, k = n ∨ k ∉ l.body) :
    g.isLoopHeader m = false := by
  rw [Bool.eq_false_iff]
  intro hheader
  obtain ⟨z, hz, hzm, hdom⟩ := g.exists_latch_of_isLoopHeader hheader
  exact (g.loopAt_natural h).not_dominates_of_exit hm hne hexit hz hzm hdom

/-! ### Post-dominators -/

/-- To its immediate post-dominator some path from a block avoids any given other block. -/
theorem exists_avoiding_postDominator {x : Nat} (h : g.postDominator? n = some m) (hxm : x ≠ m)
    (hxn : x ≠ n) : ∃ ns, g.graph.links.Path n m ns ∧ x ∉ ns := by
  unfold postDominator? at h
  rw [g.postTree_eq] at h
  exact g.graph.exists_avoiding_postDominator h hxm hxn

/-- Some path leads to the immediate post-dominator. -/
theorem reachable_of_postDominator (h : g.postDominator? n = some m) :
    g.graph.links.Reachable n m := by
  obtain ⟨ns, hp, _⟩ := g.exists_avoiding_postDominator (x := n + m + 1) h (by omega) (by omega)
  exact ⟨ns, hp⟩

end FlowGraph

end Restructure
