import Restructure.Proofs.Flow.Graph
import Restructure.Proofs.Graph.Adjacency

namespace Restructure

/-!
# Terminators and edges — the graph of blocks is read off their ends

* `FlowGraph.exits_eq` — the blocks that return or throw are those without successors.
* `FlowGraph.wayOut_succ`, `FlowGraph.wayOut_mem_pred` — and these are the exits of the
  post-dominators.
* `FlowGraph.foldlM_connectEdge`, `FlowGraph.foldlM_connectEdge_of_stray` — adding edges one at a
  time, up to the first one that leads out of the blocks.
* `FlowGraph.connect_follows_ofBlocks` — adding all of them makes the same graph.
* `FlowGraph.ofBlocks_follows_terminators` — the graph of any list of blocks, and when there is one.
-/

/-- A terminator without targets returns or throws. -/
theorem Terminator.isEmpty_successors (t : Terminator) :
    t.successors.isEmpty = (t.flow == .leave || t.flow == .throw) := by
  cases t with
  | switch cases default =>
    -- the default is a target also when there are no cases
    have hdefault : (cases.map (·.2) ++ [default]).isEmpty = false := by simp
    exact hdefault
  | _ => rfl

namespace FlowGraph

variable (g : FlowGraph) {n : Nat}

/-! ### Exits -/

/-- The blocks that return or throw are those without successors. -/
theorem exits_eq : g.exits = (List.range g.size).filter fun n => (g.successors n).isEmpty := by
  -- one side goes through the numbers, the other through the numbered blocks
  have hrange : List.range g.size = g.graph.nodes.zipIdx.map (·.2) := by
    rw [List.zipIdx_map_snd, List.range_eq_range']
    rfl
  rw [exits, hrange, List.filter_map]
  refine congrArg _ (List.filter_congr fun p hp => ?_)
  have hb : g.block? p.2 = some p.1 := List.mem_zipIdx_iff_getElem?.1 hp
  rw [Function.comp_apply, successors_of_block hb, Terminator.isEmpty_successors]

/-- The way out leads, against the edges, to the blocks that end the method. -/
theorem wayOut_succ : g.graph.links.reversed.succ g.size = g.exits :=
  (if_pos rfl : g.graph.links.reversed.succ g.size = g.graph.exits).trans g.exits_eq.symm

/-- The blocks that come from the way out are those that end the method. -/
theorem wayOut_mem_pred (hn : n < g.size) :
    g.size ∈ g.graph.links.reversed.pred n ↔ n ∈ g.exits := by
  rw [← g.wayOut_succ]
  exact g.graph.reversed_lawful.mem_pred (Nat.lt_succ_of_lt hn)

/-! ### One edge at a time -/

/-- Edges between blocks are added behind those that are there, and entered in both tables. -/
theorem foldlM_connectEdge {es : List (Edge FlowLabel)} {t : Adjacency Block FlowLabel}
    (ht : t.Tabled) (hs : ∀ e ∈ es, e.source < t.graph.size)
    (hd : ∀ e ∈ es, e.target < t.graph.size) :
    ∃ t', es.foldlM connectEdge t = .ok t' ∧ t'.Tabled ∧ t'.graph.nodes = t.graph.nodes ∧
      t'.graph.edges = t.graph.edges ++ es := by
  induction es generalizing t with
  | nil => exact ⟨t, rfl, ht, rfl, (List.append_nil _).symm⟩
  | cons e es ih =>
    have hed := hd e List.mem_cons_self
    obtain ⟨u, hadd, hu, hnodes, hedges⟩ := ht.addEdge_of_lt (hs e List.mem_cons_self) hed
    have hstep : connectEdge t e = .ok u := by
      rw [connectEdge, if_neg (Nat.not_le.2 hed), hadd]
      rfl
    -- the step leaves the nodes alone, so the other edges still lie between nodes
    have hsize : u.graph.size = t.graph.size := congrArg List.length hnodes
    obtain ⟨t', hrun, ht', hnodes', hedges'⟩ := ih hu
      (fun e he => hsize ▸ hs e (List.mem_cons_of_mem _ he))
      (fun e he => hsize ▸ hd e (List.mem_cons_of_mem _ he))
    refine ⟨t', ?_, ht', hnodes'.trans hnodes, ?_⟩
    · rw [List.foldlM_cons, hstep]
      exact hrun
    · rw [hedges', hedges, List.append_assoc, List.singleton_append]

/-- The first edge that leads out of the blocks ends the run. -/
theorem foldlM_connectEdge_of_stray {es : List (Edge FlowLabel)} {t : Adjacency Block FlowLabel}
    (ht : t.Tabled) (hs : ∀ e ∈ es, e.source < t.graph.size) {stray : Edge FlowLabel}
    (h : es.find? (fun e => t.graph.size ≤ e.target) = some stray) :
    es.foldlM connectEdge t
      = .error (.missingSuccessor stray.source stray.target t.graph.size) := by
  obtain ⟨hout, front, back, rfl, hfront⟩ := List.find?_eq_some_iff_append.1 h
  -- up to the stray edge the run succeeds, and the number of nodes is the same there
  have hinside : ∀ e ∈ front, e.target < t.graph.size := fun e he => by simpa using hfront e he
  obtain ⟨u, hrun, -, hnodes, -⟩ :=
    foldlM_connectEdge ht (fun e he => hs e (List.mem_append_left _ he)) hinside
  have hsize : u.graph.size = t.graph.size := congrArg List.length hnodes
  have hstep : connectEdge u stray
      = .error (.missingSuccessor stray.source stray.target t.graph.size) := by
    rw [connectEdge, hsize, if_pos (by simpa using hout)]
  rw [List.foldlM_append, hrun]
  show (stray :: back).foldlM connectEdge u = _
  rw [List.foldlM_cons, hstep]
  rfl

/-- With tables and one edge after the other, the same graph is made, or the same failure found. -/
theorem connect_follows_ofBlocks (blocks : List Block) :
    (∀ e, ofBlocks blocks = .error e → connect blocks = .error e) ∧
      ∀ g, ofBlocks blocks = .ok g →
        ∃ t, connect blocks = .ok t ∧ t.Tabled ∧ t.graph = g.graph := by
  have hempty := Adjacency.tabled_ofNodes (ε := FlowLabel) blocks
  have hsource : ∀ e ∈ flowEdges blocks, e.source < blocks.length :=
    fun _ => source_lt_of_mem_flowEdges
  by_cases hne : blocks = []
  · subst hne
    refine ⟨fun e h => ?_, nofun⟩
    cases h
    rfl
  · have hconnect : connect blocks = (flowEdges blocks).foldlM connectEdge (.ofNodes blocks) :=
      if_neg (by simpa using hne)
    rw [hconnect]
    unfold ofBlocks
    rw [dif_pos (List.length_pos_iff.2 hne)]
    split
    · rename_i stray hstray
      refine ⟨fun e h => ?_, nofun⟩
      cases h
      exact foldlM_connectEdge_of_stray hempty hsource hstray
    · rename_i hnone
      refine ⟨nofun, fun g h => ?_⟩
      cases h
      have htarget : ∀ e ∈ flowEdges blocks, e.target < blocks.length := fun e he => by
        simpa using List.find?_eq_none.1 hnone e he
      obtain ⟨t, hrun, ht, hnodes, hedges⟩ := foldlM_connectEdge hempty hsource htarget
      exact ⟨t, hrun, ht, Digraph.eq_of_edges hnodes hedges⟩

/-! ### The graph of blocks -/

/-- Blocks have a graph exactly if there are some and no jump leads out of them. -/
theorem exists_ofBlocks_iff {blocks : List Block} :
    (∃ g, ofBlocks blocks = .ok g) ↔
      blocks ≠ [] ∧ ∀ b ∈ blocks, ∀ t ∈ b.exit.successors, t < blocks.length := by
  constructor
  · rintro ⟨g, hg⟩
    have hnodes := nodes_of_ofBlocks hg
    refine ⟨?_, fun b hb t ht => ?_⟩
    · rw [← hnodes]
      exact List.length_pos_iff.1 g.nonempty
    · obtain ⟨n, hn⟩ := List.mem_iff_getElem?.1 hb
      rw [← hnodes] at hn ⊢
      exact g.lt_of_successor ((mem_successors_of_block hn).2 ht)
  · rintro ⟨hne, htargets⟩
    exact exists_of_targets hne htargets

/-- **The graph of blocks.** Blocks have a graph exactly if there are some and no jump leads out of
    them. Then the successors of a block are the targets of its terminator, in their order and with
    their repetitions; one block is as often among the predecessors of another as that one is among
    its successors; and the exits, told by how the terminators move control, are the blocks without
    successors, from which alone the post-dominators are computed. The graph that is made one edge
    after the other fails alike and is the same; every row of its tables holds the numbers of the
    edges at its node, and reading the rows gives the same answers. -/
theorem ofBlocks_follows_terminators (blocks : List Block) :
    ((∃ g, ofBlocks blocks = .ok g) ↔
        blocks ≠ [] ∧ ∀ b ∈ blocks, ∀ t ∈ b.exit.successors, t < blocks.length) ∧
      (∀ e, connect blocks = .error e ↔ ofBlocks blocks = .error e) ∧
      ∀ g, ofBlocks blocks = .ok g →
        g.size = blocks.length ∧
          (∀ n b, blocks[n]? = some b → g.successors n = b.exit.successors) ∧
          (∀ n m, (g.predecessors n).count m = (g.successors m).count n) ∧
          g.exits = (List.range g.size).filter (fun n => (g.successors n).isEmpty) ∧
          g.postTree.tree = g.graph.links.reversed.dominators g.size ∧
          g.graph.links.reversed.succ g.size = g.exits ∧
          (∀ n < g.size, g.size ∈ g.graph.links.reversed.pred n ↔ n ∈ g.exits) ∧
          ∃ t, connect blocks = .ok t ∧ t.graph = g.graph ∧ t.Tabled ∧
            ∀ n, t.successors n = g.successors n ∧ t.predecessors n = g.predecessors n := by
  obtain ⟨herror, hok⟩ := connect_follows_ofBlocks blocks
  refine ⟨exists_ofBlocks_iff, fun e => ⟨fun h => ?_, herror e⟩, fun g hg => ?_⟩
  · cases hg : ofBlocks blocks with
    | error e' => exact congrArg _ (Except.error.inj ((herror e' hg).symm.trans h))
    | ok g =>
      obtain ⟨t, ht, -⟩ := hok g hg
      rw [ht] at h
      cases h
  · have hnodes := nodes_of_ofBlocks hg
    obtain ⟨t, ht, htabled, hgraph⟩ := hok g hg
    refine ⟨congrArg List.length hnodes, fun n b hb => ?_, g.graph.count_predecessors, g.exits_eq,
      congrArg _ g.postTree_eq, g.wayOut_succ, fun n hn => g.wayOut_mem_pred hn, t, ht, hgraph,
      htabled, fun n => ?_⟩
    · rw [← hnodes] at hb
      exact successors_of_block hb
    · rw [htabled.successors_eq, htabled.predecessors_eq, hgraph]
      exact ⟨rfl, rfl⟩

/-- Block 1 is the target of three edges of a switch, of both edges of its own branch, and of a jump
    from a block that nothing leads to. -/
def manyEdges : List Block :=
  [⟨[.load 0 "I"], .switch [(1, 1), (5, 1), (9, 3)] 1⟩, ⟨[.load 0 "I"], .branch (.zero .eq) 1 1⟩,
    ⟨[], .goto 1⟩, ⟨[.load 1 "LT;"], .throw⟩, ⟨[], .ret⟩]

/-- Edges that stand several times in a switch are several edges. -/
theorem manyEdges_follow_terminators :
    ∃ g, ofBlocks manyEdges = .ok g ∧ g.successors 0 = [1, 1, 3, 1] ∧ g.successors 1 = [1, 1] ∧
      (g.predecessors 1).count 0 = 3 ∧ (g.predecessors 1).count 1 = 2 ∧ g.exits = [3, 4] ∧
      g.graph.links.reversed.succ 5 = [3, 4] ∧ 5 ∈ g.graph.links.reversed.pred 3 ∧
      ∃ t, connect manyEdges = .ok t ∧ t.successors 0 = [1, 1, 3, 1] ∧
        (t.predecessors 1).count 0 = 3 := by
  obtain ⟨hiff, -, hgraph⟩ := ofBlocks_follows_terminators manyEdges
  obtain ⟨g, hg⟩ := hiff.2 (by decide)
  obtain ⟨hsize, hsucc, hcount, hexits, -, hway, hback, t, ht, -, -, hrows⟩ := hgraph g hg
  rw [show g.size = 5 from hsize] at hexits hway hback
  have h0 : g.successors 0 = [1, 1, 3, 1] := hsucc 0 _ rfl
  have h1 : g.successors 1 = [1, 1] := hsucc 1 _ rfl
  have hleave : g.exits = [3, 4] := by
    rw [hexits]
    simp [List.range_succ, h0, h1, hsucc 2 _ rfl, hsucc 3 _ rfl, hsucc 4 _ rfl,
      Terminator.successors]
  have h3 : (g.predecessors 1).count 0 = 3 := by
    rw [hcount, h0]
    rfl
  refine ⟨g, hg, h0, h1, h3, ?_, hleave, hway.trans hleave, ?_, t, ht, (hrows 0).1.trans h0, ?_⟩
  · rw [hcount, h1]
    rfl
  · rw [hback 3 (by decide), hleave]
    decide
  · rw [(hrows 1).2]
    exact h3

end FlowGraph

end Restructure
