import Restructure.Proofs.Graph.LoopDrafts
import Restructure.Proofs.Graph.Loops

namespace Restructure

/-!
# The loops of a graph — one for every target of back edges

* `Links.BackEdge` — an edge from a reachable node to one that dominates it.
* `Loop.Exact` — header, latches, body and exits told by back edges and paths.
* `Digraph.loops_exact` — the loops found from any entry are exact, and there is one for each node
  that a back edge leads to.
* `Digraph.loops_dominated_iff` — which nodes of a loop its header dominates: the reachable ones,
  and these are all exactly if nothing leads into the loop from a node that is not reachable.
* `Digraph.loops_nest` — two loops with a reachable node in common lie one within the other.
-/

/-! ### Grouped edges -/

section

variable {f : Nat → List Nat} {ns : List Nat}

/-- The pairs with a given first member, of pairs listed by their first member. -/
theorem filter_flatMap_pairs (hnd : ns.Nodup) (n : Nat) :
    ((ns.flatMap fun k => (f k).map fun m => (k, m)).filter (·.1 == n)).map (·.2)
      = if n ∈ ns then f n else [] := by
  induction ns with
  | nil => simp
  | cons k ns ih =>
    obtain ⟨hk, hnd⟩ := List.nodup_cons.1 hnd
    rw [List.flatMap_cons, List.filter_append, List.map_append, ih hnd]
    by_cases hkn : k = n
    · subst hkn
      simp [hk, List.filter_map, Function.comp_def]
    · simp [hkn, Ne.symm hkn, List.filter_map, Function.comp_def]

/-- The first members ascend if the pairs are listed by ascending first members. -/
theorem pairwise_flatMap_pairs (hns : ns.Pairwise (· < ·)) :
    (ns.flatMap fun k => (f k).map fun m => (k, m)).Pairwise fun e e' => e.1 ≤ e'.1 := by
  refine List.pairwise_flatMap.2 ⟨fun k _ => ?_, hns.imp fun {k k'} hlt e he e' he' => ?_⟩
  · rw [List.pairwise_map]
    exact List.pairwise_of_forall fun _ _ => Nat.le_refl k
  · obtain ⟨_, _, rfl⟩ := List.mem_map.1 he
    obtain ⟨_, _, rfl⟩ := List.mem_map.1 he'
    exact Nat.le_of_lt hlt

end

/-! ### What a loop consists of -/

/-- An edge from a reachable node to one of its dominators. -/
def Links.BackEdge (l : Links) (entry n header : Nat) : Prop :=
  l.Reachable entry n ∧ header ∈ l.succ n ∧ l.Dominates entry header n

/-- The loop has the sources of the back edges to its header as latches; its body are the header
    and the nodes from which a latch is reached without passing the header; and its exits are the
    edges from the body to the outside, node by node, an edge as often as it stands in the graph. -/
structure Loop.Exact (o : Loop) (l : Links) (entry : Nat) : Prop where
  mem_latches : ∀ n, n ∈ o.latches ↔ l.BackEdge entry n o.header
  latches_ascending : o.latches.Pairwise (· < ·)
  mem_body : ∀ n, n ∈ o.body ↔
    n = o.header ∨ ∃ z ∈ o.latches, ∃ ns, l.Path n z ns ∧ o.header ∉ ns
  body_ascending : o.body.Pairwise (· < ·)
  exits_from : ∀ n, (o.exits.filter (·.1 == n)).map (·.2)
    = if n ∈ o.body then (l.succ n).filter (fun m => !o.body.contains m) else []
  exits_ascending : o.exits.Pairwise fun e e' => e.1 ≤ e'.1

/-- An exact loop is a natural one. -/
theorem Loop.Exact.natural {o : Loop} {l : Links} {entry : Nat} (h : o.Exact l entry) :
    NaturalLoop l entry o.header o.body where
  header_mem := (h.mem_body o.header).2 (.inl rfl)
  dominated n hn ns hp := by
    rcases (h.mem_body n).1 hn with rfl | ⟨z, hz, ms, hq, hms⟩
    · exact hp.target_mem
    · -- the path goes on to a latch, and does not come upon the header there
      have hmem := ((h.mem_latches z).1 hz).2.2 _ (hp.trans hq)
      refine (List.mem_append.1 hmem).resolve_right fun htail => hms ?_
      exact List.mem_of_mem_tail htail
  closed n hn hne m hm := by
    have hlead : l.LeadsBack o.header o.latches n := (h.mem_body n).1 hn
    exact (h.mem_body m).2 (hlead.of_succ hne hm)
  least P hheader hlatch hstep n hn := by
    rcases (h.mem_body n).1 hn with rfl | ⟨z, hz, ns, hp, hns⟩
    · exact hheader
    · clear hn
      induction hp with
      | single n => exact hlatch n ((h.mem_latches n).1 hz).2.1
      | @cons n m z ns hm tail ih =>
        have htail : o.header ∉ ns := fun hmem => hns (List.mem_cons_of_mem n hmem)
        have hmb : m ∈ o.body := (h.mem_body m).2 (.inr ⟨z, hz, ns, tail, htail⟩)
        have hne : m ≠ o.header := fun heq => htail (heq ▸ tail.source_mem)
        exact hstep m hmb hne (ih hz htail) n hm

/-- A latch belongs to the loop. -/
theorem Loop.Exact.latch_mem_body {o : Loop} {l : Links} {entry z : Nat} (h : o.Exact l entry)
    (hz : z ∈ o.latches) : z ∈ o.body :=
  (h.mem_body z).2 (Links.LeadsBack.latch hz)

/-- What the loop does not hold is not in its body. -/
theorem Loop.not_mem_body {o : Loop} {n : Nat} (h : o.contains n = false) : n ∉ o.body := by
  simpa [Loop.contains] using h

namespace Digraph

variable {ν ε : Type} (g : Digraph ν ε) {entry header n m : Nat}

/-! ### From any entry -/

/-- Nothing leads on from what is no node. -/
theorem entry_lt (hr : g.links.Reachable entry n) (hn : n < g.size) : entry < g.size := by
  obtain ⟨ns, hp⟩ := hr
  cases hp with
  | single => exact hn
  | cons hm _ => exact g.source_lt hm

/-- The tree of an entry that is no node of the graph is empty. -/
theorem isReachable_of_not_lt (he : ¬entry < g.size) (n : Nat) :
    (g.links.dominators entry).isReachable n = false := by
  have hnone : g.links.postorder entry = [] := by
    rw [List.eq_nil_iff_forall_not_mem]
    intro k hk
    have hfound := ((search_searched g.size g.successors [entry]).mem_iff k).1 hk
    clear hk
    induction hfound with
    | start hmem hlt =>
      rw [List.mem_singleton.1 hmem] at hlt
      exact he hlt
    | step _ _ _ ih => exact ih
  have htable : (g.links.dominators entry).idom = Array.replicate g.size none := by
    have hinit : g.links.initialTable entry = Array.replicate g.size none := by
      have : g.links.size = g.size := rfl
      simp [Links.initialTable, Array.setIfInBounds, this, he]
    simp [Links.dominators, Links.dominatorsWithin, hnone, Links.settle, Links.sweep, hinit]
  rw [DominatorTree.isReachable, htable]
  by_cases hn : n < g.size <;> simp [hn]

/-- The edges gone through are the back edges. -/
theorem mem_backEdges_iff :
    (n, header) ∈ g.links.backEdges (g.links.dominators entry) ↔
      g.links.BackEdge entry n header := by
  rw [Links.mem_backEdges]
  by_cases he : entry < g.size
  · have hexact := Links.dominators_exact g.links_lawful he
    rw [hexact.isReachable_iff]
    constructor
    · rintro ⟨_, hr, hs, hd⟩
      exact ⟨hr, hs, (hexact.dominates_iff _ _ hr).1 hd⟩
    · rintro ⟨hr, hs, hd⟩
      exact ⟨g.source_lt hs, hr, hs, (hexact.dominates_iff _ _ hr).2 hd⟩
  · constructor
    · rintro ⟨_, hr, _⟩
      rw [g.isReachable_of_not_lt he n] at hr
      cases hr
    · exact fun h => absurd (g.entry_lt h.1 (g.source_lt h.2.1)) he

/-- The drafts of a graph account for its back edges. -/
theorem loopDrafts_drafted (entry : Nat) :
    Drafted g.links (g.links.backEdges (g.links.dominators entry))
      (g.links.loopDrafts (g.links.dominators entry)) :=
  Links.loopDrafts_drafted _ _ g.links_lawful fun _ _ hm => g.predecessors_lt hm

/-- The headers are the nodes that back edges lead to. -/
theorem mem_headers_iff :
    header ∈ (g.links.loops (g.links.dominators entry)).map (·.header) ↔
      ∃ n, g.links.BackEdge entry n header := by
  rw [Links.loops, Links.mem_map_header_finishLoops,
    (g.loopDrafts_drafted entry).mem_headers]
  exact exists_congr fun n => g.mem_backEdges_iff

/-- The loop of a draft that accounts for the back edges is exact. -/
theorem finishLoop_exact {d : LoopDraft}
    (hd : d.Drawn g.links (g.links.backEdges (g.links.dominators entry))) :
    (g.links.finishLoop d).Exact g.links entry := by
  have hbody : (sortByKey id d.body).Pairwise (· < ·) :=
    pairwise_sortByKey_id hd.grown.nodup
  have hmem : ∀ z, z ∈ sortByKey id d.latches ↔ z ∈ d.latches := fun _ =>
    (sortByKey_perm _ _).mem_iff
  exact {
    mem_latches := fun n => by
      rw [← g.mem_backEdges_iff]
      exact (hmem n).trans (hd.mem_latches n)
    latches_ascending := pairwise_sortByKey_id hd.latches_nodup
    mem_body := fun n => by
      refine (sortByKey_perm _ _).mem_iff.trans ((hd.grown.mem_iff g.links_lawful).trans ?_)
      exact or_congr_right (exists_congr fun z => and_congr_left' (hmem z).symm)
    body_ascending := hbody
    exits_from := filter_flatMap_pairs (hbody.imp Nat.ne_of_lt)
    exits_ascending := pairwise_flatMap_pairs hbody }

section

variable {g} {o : Loop} (ho : o ∈ g.links.loops (g.links.dominators entry))

include ho

/-- Every loop has a back edge to its header. -/
theorem exists_backEdge_of_mem_loops : ∃ z, g.links.BackEdge entry z o.header :=
  g.mem_headers_iff.1 (List.mem_map_of_mem ho)

/-- Every loop is exact. -/
theorem exact_of_mem_loops : o.Exact g.links entry := by
  obtain ⟨d, hd, rfl⟩ := Links.mem_finishLoops.1 ho
  exact g.finishLoop_exact ((g.loopDrafts_drafted entry).drawn d hd)

end

/-- **Loop detection.** For every graph and every entry there is one loop for each node that a back
    edge leads to, in ascending order, whatever the order of the drafts; the loop of a header is
    found by bisection; and each loop has its latches, its body and its exits exactly. -/
theorem loops_exact (g : Digraph ν ε) (entry : Nat) :
    let loops := g.links.loops (g.links.dominators entry)
    (loops.map (·.header)).Pairwise (· < ·) ∧
      (∀ h, h ∈ loops.map (·.header) ↔ ∃ n, g.links.BackEdge entry n h) ∧
      (∀ h, (loopAt? loops h).isSome = true ↔ ∃ n, g.links.BackEdge entry n h) ∧
      (∀ h o, loopAt? loops h = some o ↔ o ∈ loops ∧ o.header = h) ∧
      (∀ drafts : List LoopDraft,
        drafts.Perm (g.links.loopDrafts (g.links.dominators entry)) →
          g.links.finishLoops drafts = loops) ∧
      ∀ o ∈ loops, o.Exact g.links entry := by
  intro loops
  have hdrafted := g.loopDrafts_drafted entry
  have hascending : (loops.map (·.header)).Pairwise (· < ·) :=
    Links.pairwise_header_finishLoops hdrafted.headers_nodup
  refine ⟨hascending, fun h => g.mem_headers_iff, fun h => ?_,
    fun h o => loopAt?_eq_some_iff hascending,
    fun drafts hperm => (Links.finishLoops_perm hdrafted.headers_nodup hperm.symm).symm,
    fun o ho => exact_of_mem_loops ho⟩
  rw [← g.mem_headers_iff, Option.isSome_iff_exists, List.mem_map]
  exact exists_congr fun o => loopAt?_eq_some_iff hascending

end Digraph

/-- A loop with two latches and a self loop in it, edges that stand twice, and an edge into the loop
    from a node that the entry does not reach. -/
def braid : Digraph Unit Unit where
  nodes := List.replicate 6 ()
  edges := [⟨0, 1, ()⟩, ⟨1, 2, ()⟩, ⟨1, 2, ()⟩, ⟨2, 1, ()⟩, ⟨2, 3, ()⟩, ⟨3, 3, ()⟩, ⟨3, 1, ()⟩,
    ⟨3, 4, ()⟩, ⟨3, 4, ()⟩, ⟨5, 2, ()⟩]
  closed := by decide

/-- Two back edges to one header make one loop. -/
theorem braid_loops_exact :
    let loops := braid.links.loops (braid.links.dominators 0)
    loops.map (·.header) = [1, 3] ∧
      ∃ o ∈ loops, o.Exact braid.links 0 ∧ o.header = 1 ∧ o.latches = [2, 3] ∧
        o.body = [1, 2, 3, 5] ∧ o.exits = [(3, 4), (3, 4)] := by
  intro loops
  obtain ⟨_, _, _, hfind, _, hexact⟩ := braid.loops_exact 0
  have heval : (loopAt? loops 1).map (fun o => (o.latches, o.body, o.exits))
      = some ([2, 3], [1, 2, 3, 5], [(3, 4), (3, 4)]) := by decide +kernel
  obtain ⟨o, ho, heq⟩ := Option.map_eq_some_iff.1 heval
  obtain ⟨hmem, hheader⟩ := (hfind 1 o).1 ho
  obtain ⟨hlatches, hrest⟩ := Prod.mk.inj heq
  obtain ⟨hbody, hexits⟩ := Prod.mk.inj hrest
  exact ⟨by decide +kernel, o, hmem, hexact o hmem, hheader, hlatches, hbody, hexits⟩

namespace Digraph

variable {ν ε : Type} {g : Digraph ν ε} {entry n : Nat}

/-! ### What the header dominates -/

section

variable {o : Loop} (ho : o ∈ g.links.loops (g.links.dominators entry))

include ho

/-- The loop is a natural one. -/
theorem natural_of_mem_loops : NaturalLoop g.links entry o.header o.body :=
  (exact_of_mem_loops ho).natural

/-- A back edge leads to the header, so that the entry reaches it. -/
theorem reachable_header : g.links.Reachable entry o.header := by
  obtain ⟨z, hz⟩ := exists_backEdge_of_mem_loops ho
  exact hz.1.step hz.2.1

/-- In the dominator tree the header lies above the reachable nodes of the loop only. -/
theorem dominates_header_iff (hn : n ∈ o.body) :
    (g.links.dominators entry).dominates o.header n = true ↔ g.links.Reachable entry n := by
  obtain ⟨z, hz⟩ := exists_backEdge_of_mem_loops ho
  have hexact := Links.dominators_exact g.links_lawful (g.entry_lt hz.1 (g.source_lt hz.2.1))
  by_cases hr : g.links.Reachable entry n
  · rw [hexact.dominates_iff _ _ hr]
    exact iff_of_true ((natural_of_mem_loops ho).dominated n hn) hr
  · rw [hexact.dominates_unreached _ _ hr]
    exact iff_of_false (fun heq => hr (heq ▸ reachable_header ho)) hr

/-- The loop consists of reachable nodes exactly if only such nodes lead into it, the header
    apart. -/
theorem forall_reachable_iff :
    (∀ n ∈ o.body, g.links.Reachable entry n) ↔
      ∀ n m, m ∈ o.body → m ≠ o.header → m ∈ g.successors n → g.links.Reachable entry n := by
  have hexact := exact_of_mem_loops ho
  constructor
  · intro hall n m hm hne hnm
    exact hall n ((natural_of_mem_loops ho).closed m hm hne n hnm)
  · intro hinto n hn
    rcases (hexact.mem_body n).1 hn with rfl | ⟨z, hz, ns, hp, hns⟩
    · exact reachable_header ho
    · cases hp with
      | single => exact ((hexact.mem_latches n).1 hz).1
      | @cons _ m _ ns hm tail =>
        -- the next node on the way to the latch lies in the loop as well
        have htail : o.header ∉ ns := fun hmem => hns (List.mem_cons_of_mem _ hmem)
        refine hinto n m ((hexact.mem_body m).2 (.inr ⟨z, hz, ns, tail, htail⟩)) ?_ hm
        exact fun heq => htail (heq ▸ tail.source_mem)

end

/-- **Dominated loops.** The header of a loop dominates the nodes of the loop that the entry
    reaches, and no others; all of them are reached and dominated exactly if no edge leads to a node
    of the loop other than the header from a node that the entry does not reach. -/
theorem loops_dominated_iff (g : Digraph ν ε) (entry : Nat) :
    ∀ o ∈ g.links.loops (g.links.dominators entry),
      (∀ n ∈ o.body, g.links.Reachable entry n → g.links.Dominates entry o.header n) ∧
        (∀ n ∈ o.body,
          (g.links.dominators entry).dominates o.header n = true ↔ g.links.Reachable entry n) ∧
        ((∀ n ∈ o.body, g.links.Reachable entry n ∧ g.links.Dominates entry o.header n) ↔
          ∀ n m, m ∈ o.body → m ≠ o.header → m ∈ g.successors n →
            g.links.Reachable entry n) := by
  intro o ho
  have hdom := (natural_of_mem_loops ho).dominated
  refine ⟨fun n hn _ => hdom n hn, fun n hn => dominates_header_iff ho hn, ?_⟩
  rw [← forall_reachable_iff ho]
  exact forall₂_congr fun n hn => and_iff_left (hdom n hn)

end Digraph

/-- A loop of nodes 1 and 2, and an edge into it from node 3, which the entry does not reach. -/
def sideEntered : Digraph Unit Unit where
  nodes := List.replicate 4 ()
  edges := [⟨0, 1, ()⟩, ⟨1, 2, ()⟩, ⟨2, 1, ()⟩, ⟨3, 2, ()⟩]
  closed := by decide

/-- The entry does not reach the node at the side. -/
theorem sideEntered_not_reachable : ¬sideEntered.links.Reachable 0 3 := by
  have hpos : 0 < sideEntered.size := by decide
  have hexact := Links.dominators_exact sideEntered.links_lawful hpos
  rw [← hexact.isReachable_iff]
  decide +kernel

/-- A loop may have nodes that the entry does not reach. -/
theorem sideEntered_body_not_dominated :
    ¬∀ o ∈ sideEntered.links.loops (sideEntered.links.dominators 0), ∀ n ∈ o.body,
      sideEntered.links.Reachable 0 n ∧ sideEntered.links.Dominates 0 o.header n := by
  intro hall
  have heval : (loopAt? (sideEntered.links.loops (sideEntered.links.dominators 0)) 1).map (·.body)
      = some [1, 2, 3] := by decide +kernel
  obtain ⟨o, ho, hbody⟩ := Option.map_eq_some_iff.1 heval
  have hmem : 3 ∈ o.body := by simp [hbody]
  exact sideEntered_not_reachable (hall o (loopAt?_eq_some ho).1 3 hmem).1

/-- The body takes in the node at the side, which the header does not dominate. -/
theorem sideEntered_dominated :
    ∃ o ∈ sideEntered.links.loops (sideEntered.links.dominators 0),
      o.header = 1 ∧ o.body = [1, 2, 3] ∧ sideEntered.links.Dominates 0 1 2 ∧
        (sideEntered.links.dominators 0).dominates 1 3 = false ∧
        ¬∀ n m, m ∈ o.body → m ≠ o.header → m ∈ sideEntered.successors n →
          sideEntered.links.Reachable 0 n := by
  have heval : (loopAt? (sideEntered.links.loops (sideEntered.links.dominators 0)) 1).map
      (fun o => (o.header, o.body)) = some (1, [1, 2, 3]) := by decide +kernel
  obtain ⟨o, ho, heq⟩ := Option.map_eq_some_iff.1 heval
  obtain ⟨hheader, hbody⟩ := Prod.mk.inj heq
  have hmem := (loopAt?_eq_some ho).1
  obtain ⟨hdom, htree, hiff⟩ := sideEntered.loops_dominated_iff 0 o hmem
  have h₂ : 2 ∈ o.body := by simp [hbody]
  have h₃ : 3 ∈ o.body := by simp [hbody]
  have hr : sideEntered.links.Reachable 0 2 :=
    ⟨[0, 1, 2], .cons (by decide) (.cons (by decide) (.single 2))⟩
  refine ⟨o, hmem, hheader, hbody, hheader ▸ hdom 2 h₂ hr, ?_, fun hinto => ?_⟩
  · rw [Bool.eq_false_iff, ← hheader]
    exact fun h => sideEntered_not_reachable ((htree 3 h₃).1 h)
  · exact sideEntered_not_reachable (hiff.2 hinto 3 h₃).1

/-! ### Loops within loops -/

/-- Loop `o` lies within loop `o'`: the body of `o'` holds that of `o`, and the header of `o'`
    dominates that of `o`, on paths and in the tree, and is not part of `o`. -/
structure Loop.Within (o o' : Loop) (l : Links) (entry : Nat) : Prop where
  body_subset : o.body ⊆ o'.body
  dominates : l.Dominates entry o'.header o.header
  above : (l.dominators entry).dominates o'.header o.header = true
  header_not_mem : o'.header ∉ o.body

namespace Digraph

variable {ν ε : Type} {g : Digraph ν ε} {entry n : Nat}

/-- A loop with its header in another one lies within it. -/
theorem within_of_header_mem {o o' : Loop} (ho : o ∈ g.links.loops (g.links.dominators entry))
    (ho' : o' ∈ g.links.loops (g.links.dominators entry)) (hne : o.header ≠ o'.header)
    (hmem : o.header ∈ o'.body) : o.Within o' g.links entry := by
  obtain ⟨hsub, hdom, hnot⟩ := (natural_of_mem_loops ho).within_of_header_mem
    (natural_of_mem_loops ho') hmem hne (reachable_header ho)
  exact ⟨hsub, hdom, (dominates_header_iff ho' hmem).2 (reachable_header ho), hnot⟩

/-- **Nested loops.** Two loops with different headers that share a node which the entry reaches lie
    one within the other. -/
theorem loops_nest (g : Digraph ν ε) (entry : Nat) :
    ∀ o ∈ g.links.loops (g.links.dominators entry),
      ∀ o' ∈ g.links.loops (g.links.dominators entry), o.header ≠ o'.header →
        (∃ n, n ∈ o.body ∧ n ∈ o'.body ∧ g.links.Reachable entry n) →
          o.Within o' g.links entry ∨ o'.Within o g.links entry := by
  rintro o ho o' ho' hne ⟨n, hn, hn', hr⟩
  rcases (natural_of_mem_loops ho).header_mem_or (natural_of_mem_loops ho') hn hn' hr with h | h
  · exact .inl (within_of_header_mem ho ho' hne h)
  · exact .inr (within_of_header_mem ho' ho hne.symm h)

end Digraph

/-- A loop of nodes 1 to 4 around one of nodes 2 and 3, and an edge into the inner loop from node 5,
    which the entry does not reach. -/
def nested : Digraph Unit Unit where
  nodes := List.replicate 6 ()
  edges := [⟨0, 1, ()⟩, ⟨1, 2, ()⟩, ⟨2, 3, ()⟩, ⟨3, 2, ()⟩, ⟨3, 4, ()⟩, ⟨4, 1, ()⟩, ⟨5, 3, ()⟩]
  closed := by decide

/-- One loop within the other. -/
theorem nested_loops_nest :
    ∃ o ∈ nested.links.loops (nested.links.dominators 0),
      ∃ o' ∈ nested.links.loops (nested.links.dominators 0),
        o.header = 2 ∧ o.body = [2, 3, 5] ∧ o'.header = 1 ∧ o'.body = [1, 2, 3, 4, 5] ∧
          nested.links.Reachable 0 3 ∧ o.Within o' nested.links 0 := by
  have hinner : (loopAt? (nested.links.loops (nested.links.dominators 0)) 2).map
      (fun o => (o.header, o.body)) = some (2, [2, 3, 5]) := by decide +kernel
  have houter : (loopAt? (nested.links.loops (nested.links.dominators 0)) 1).map
      (fun o => (o.header, o.body)) = some (1, [1, 2, 3, 4, 5]) := by decide +kernel
  obtain ⟨o, ho, heq⟩ := Option.map_eq_some_iff.1 hinner
  obtain ⟨o', ho', heq'⟩ := Option.map_eq_some_iff.1 houter
  obtain ⟨hheader, hbody⟩ := Prod.mk.inj heq
  obtain ⟨hheader', hbody'⟩ := Prod.mk.inj heq'
  have hmem := (loopAt?_eq_some ho).1
  have hmem' := (loopAt?_eq_some ho').1
  have hr : nested.links.Reachable 0 3 :=
    ⟨[0, 1, 2, 3], .cons (by decide) (.cons (by decide) (.cons (by decide) (.single 3)))⟩
  have hnest := nested.loops_nest 0 o hmem o' hmem' (by simp [hheader, hheader'])
    ⟨3, by simp [hbody], by simp [hbody'], hr⟩
  -- the outer loop has a node that the inner one has not
  refine ⟨o, hmem, o', hmem', hheader, hbody, hheader', hbody', hr, hnest.resolve_right fun h => ?_⟩
  have h₄ : 4 ∈ o.body := h.body_subset (by simp [hbody'])
  simp [hbody] at h₄

end Restructure
