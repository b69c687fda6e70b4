import Restructure.Proofs.Graph.Dominators

namespace Restructure

/-!
# Post-dominators — the nodes on every path to an exit

* `Digraph.ReachesExit`, `Digraph.PostDominates` — some path leads from a node to an exit; all such
  paths pass through another node.
* `Digraph.reversed_path_iff` — the way out comes to a node along the paths to an exit, backwards.
* `Digraph.immediate_postDominator_iff` — the first of the nodes on all paths to an exit.
* `Digraph.postDominators_spec` — what the computed post-dominators say, for every graph.
* `DominatorTree.Exact.exists_avoiding`, `Digraph.exists_avoiding_postDominator` — nothing lies
  between a node and its immediate post-dominator.
-/

namespace Digraph

variable {ν ε : Type} (g : Digraph ν ε) {a b x : Nat} {ns : List Nat}

/-! ### Paths to exits -/

/-- Some path leads from the node to a node that no edge leaves. -/
def ReachesExit (b : Nat) : Prop := ∃ e ∈ g.exits, g.links.Reachable b e

/-- Every path from `b` to a node that no edge leaves passes through `a`. -/
def PostDominates (a b : Nat) : Prop := ∀ e ∈ g.exits, ∀ ns, g.links.Path b e ns → a ∈ ns

/-- A path of the reversed graph that does not begin at the way out is a path read backwards. -/
theorem path_of_reversed (h : g.links.reversed.Path a b ns) (ha : a ≠ g.size) :
    g.links.Path b a ns.reverse := by
  induction h with
  | single n => exact .single n
  | @cons n m b ns hm tail ih =>
    have hm : m ∈ g.predecessors n := by
      have heq : g.links.reversed.succ n = g.predecessors n := if_neg ha
      rwa [heq] at hm
    have hlt : m < g.size := g.predecessors_lt hm
    rw [List.reverse_cons]
    exact (ih (Nat.ne_of_lt hlt)).snoc (g.mem_predecessors_iff.1 hm)

/-- A path read backwards is a path of the reversed graph. -/
theorem reversed_of_path (h : g.links.Path a b ns) (ha : a < g.size) :
    g.links.reversed.Path b a ns.reverse := by
  induction h with
  | single n => exact .single n
  | @cons n m b ns hm tail ih =>
    have hlt : m < g.size := g.successors_lt hm
    have hback : n ∈ g.links.reversed.succ m := by
      have heq : g.links.reversed.succ m = g.predecessors m := if_neg (Nat.ne_of_lt hlt)
      rw [heq]
      exact g.mem_predecessors_iff.2 hm
    rw [List.reverse_cons]
    exact (ih hlt).snoc hback

/-- The exits are the nodes that the additional node leads to. -/
theorem mem_exits : x ∈ g.exits ↔ x ∈ g.links.reversed.succ g.size := by
  have heq : g.links.reversed.succ g.size = g.exits := if_pos rfl
  rw [heq]

/-- The way out leads to a node along the paths from there to an exit. -/
theorem reversed_path_iff (hb : b < g.size) :
    g.links.reversed.Path g.size b ns ↔
      ∃ e ∈ g.exits, ∃ ms, g.links.Path b e ms ∧ ns = g.size :: ms.reverse := by
  constructor
  · intro h
    cases h with
    | single => exact absurd hb (Nat.lt_irrefl _)
    | @cons _ e _ ms he tail =>
      have he : e ∈ g.exits := g.mem_exits.2 he
      have hlt : e < g.size := List.mem_range.1 (List.mem_filter.1 he).1
      exact ⟨e, he, ms.reverse, g.path_of_reversed tail (Nat.ne_of_lt hlt), by simp⟩
  · rintro ⟨e, he, ms, hp, rfl⟩
    exact .cons (g.mem_exits.1 he) (g.reversed_of_path hp hb)

/-- A node is reached against the edges if it reaches an exit. -/
theorem reversed_reachable_iff (hb : b < g.size) :
    g.links.reversed.Reachable g.size b ↔ g.ReachesExit b := by
  constructor
  · rintro ⟨ns, h⟩
    obtain ⟨e, he, ms, hp, -⟩ := (g.reversed_path_iff hb).1 h
    exact ⟨e, he, ms, hp⟩
  · rintro ⟨e, he, ms, hp⟩
    exact ⟨_, (g.reversed_path_iff hb).2 ⟨e, he, ms, hp, rfl⟩⟩

/-- Dominance against the edges is post-dominance. -/
theorem reversed_dominates_iff (ha : a ≠ g.size) (hb : b < g.size) :
    g.links.reversed.Dominates g.size a b ↔ g.PostDominates a b := by
  constructor
  · intro h e he ms hp
    have hmem := h _ ((g.reversed_path_iff hb).2 ⟨e, he, ms, hp, rfl⟩)
    simpa [ha] using hmem
  · intro h ns hp
    obtain ⟨e, he, ms, hq, rfl⟩ := (g.reversed_path_iff hb).1 hp
    exact List.mem_cons_of_mem _ (List.mem_reverse.2 (h e he ms hq))

/-- What lies on all paths from a node to an exit is a node, if there is such a path. -/
theorem PostDominates.lt {g : Digraph ν ε} (h : g.PostDominates a b) (hb : b < g.size)
    (hr : g.ReachesExit b) : a < g.size := by
  obtain ⟨e, he, ms, hp⟩ := hr
  exact (hp.reachable_left (h e he ms hp)).lt g.links_lawful hb

/-- Two nodes that post-dominate each other are one. -/
theorem PostDominates.antisymm {g : Digraph ν ε} (h : g.PostDominates a b)
    (h' : g.PostDominates b a) (ha : a < g.size) (hb : b < g.size) (hr : g.ReachesExit b) :
    a = b :=
  Links.Dominates.antisymm ((g.reversed_dominates_iff (Nat.ne_of_lt ha) hb).2 h)
    ((g.reversed_dominates_iff (Nat.ne_of_lt hb) ha).2 h') ((g.reversed_reachable_iff hb).2 hr)

/-! ### The computed post-dominators -/

/-- The tree of post-dominators tells dominance against the edges. -/
theorem postDominators_exact : g.links.postDominators.tree.Exact g.links.reversed g.size :=
  Links.dominators_exact g.reversed_lawful (Nat.lt_succ_self g.size)

/-- Whether a node reaches an exit is read off the tree. -/
theorem reachesExit_iff (hb : b < g.size) :
    g.links.postDominators.reachesExit b = true ↔ g.ReachesExit b := by
  have hne : b ≠ g.links.postDominators.tree.entry := Nat.ne_of_lt hb
  rw [PostDominatorTree.reachesExit, bne_iff_ne.2 hne, Bool.true_and,
    g.postDominators_exact.isReachable_iff, g.reversed_reachable_iff hb]

/-- An immediate post-dominator is the tree's immediate dominator unless that is the way out. -/
theorem immediate_eq_some_iff :
    g.links.postDominators.immediate? b = some a ↔
      g.links.postDominators.tree.immediate? b = some a ∧ a ≠ g.size := by
  have hentry : g.links.postDominators.tree.entry = g.size := rfl
  rw [PostDominatorTree.immediate?, Option.filter_eq_some_iff, hentry, bne_iff_ne]

/-- The immediate post-dominator is a node on every path to an exit, and all other such nodes
    post-dominate it. -/
theorem postDominates_of_immediate (hb : b < g.size)
    (h : g.links.postDominators.immediate? b = some a) :
    g.ReachesExit b ∧ a ≠ b ∧ g.PostDominates a b ∧
      ∀ q, q ≠ b → g.PostDominates q b → g.PostDominates q a := by
  obtain ⟨himm, ha⟩ := g.immediate_eq_some_iff.1 h
  obtain ⟨hab, hdom, hnext⟩ := g.postDominators_exact.immediate_some b a himm
  have hr : g.ReachesExit b := by
    rw [← g.reversed_reachable_iff hb]
    by_contra hnot
    rw [(g.postDominators_exact.immediate_none b).2 (.inr hnot)] at himm
    cases himm
  have hpost := (g.reversed_dominates_iff ha hb).1 hdom
  refine ⟨hr, hab, hpost, fun q hqb hq => ?_⟩
  have hqs := Nat.ne_of_lt (hq.lt hb hr)
  rw [← g.reversed_dominates_iff hqs (hpost.lt hb hr)]
  exact hnext q hqb ((g.reversed_dominates_iff hqs hb).2 hq)

/-- There is an immediate post-dominator if some other node lies on every path to an exit. -/
theorem exists_immediate_postDominator (hb : b < g.size) (hr : g.ReachesExit b) (hab : a ≠ b)
    (ha : g.PostDominates a b) : ∃ d, g.links.postDominators.immediate? b = some d := by
  have has := Nat.ne_of_lt (ha.lt hb hr)
  cases himm : g.links.postDominators.tree.immediate? b with
  | none =>
    rcases (g.postDominators_exact.immediate_none b).1 himm with rfl | hnot
    · exact absurd hb (Nat.lt_irrefl _)
    · exact absurd ((g.reversed_reachable_iff hb).2 hr) hnot
  | some d =>
    obtain ⟨_, _, hnext⟩ := g.postDominators_exact.immediate_some b d himm
    have had := hnext a hab ((g.reversed_dominates_iff has hb).2 ha)
    refine ⟨d, g.immediate_eq_some_iff.2 ⟨himm, ?_⟩⟩
    -- on the path from the way out to itself lies nothing else
    rintro rfl
    exact has (List.mem_singleton.1 (had _ (.single _)))

/-- The immediate post-dominator is the nearest one. -/
theorem immediate_postDominator_iff (hb : b < g.size) :
    g.links.postDominators.immediate? b = some a ↔
      g.ReachesExit b ∧ a ≠ b ∧ g.PostDominates a b ∧
        ∀ q, q ≠ b → g.PostDominates q b → g.PostDominates q a := by
  refine ⟨g.postDominates_of_immediate hb, fun ⟨hr, hab, ha, hnext⟩ => ?_⟩
  obtain ⟨d, hd⟩ := g.exists_immediate_postDominator hb hr hab ha
  obtain ⟨_, hdb, hdom, hdnext⟩ := g.postDominates_of_immediate hb hd
  have hrd : g.ReachesExit d := by
    obtain ⟨e, he, ns, hp⟩ := hr
    exact ⟨e, he, hp.reachable_right (hdom e he ns hp)⟩
  have heq : a = d := (hdnext a hab ha).antisymm (hnext d hdb hdom) (ha.lt hb hr)
    (hdom.lt hb hr) hrd
  rw [heq]
  exact hd

/-- A node has no immediate post-dominator if it reaches no exit, or if only the additional node is
    on all of its paths. -/
theorem immediate_postDominator_eq_none_iff (hb : b < g.size) :
    g.links.postDominators.immediate? b = none ↔
      ¬g.ReachesExit b ∨ ∀ q, q ≠ b → ¬g.PostDominates q b := by
  constructor
  · intro hnone
    by_contra hsome
    obtain ⟨hr, hq⟩ := not_or.1 hsome
    push Not at hr hq
    obtain ⟨q, hqb, hq⟩ := hq
    obtain ⟨d, hd⟩ := g.exists_immediate_postDominator hb hr hqb hq
    rw [hd] at hnone
    cases hnone
  · intro h
    cases himm : g.links.postDominators.immediate? b with
    | none => rfl
    | some p =>
      obtain ⟨hr, hpb, hp, _⟩ := g.postDominates_of_immediate hb himm
      rcases h with h | h
      · exact absurd hr h
      · exact absurd hp (h p hpb)

/-- What the computed post-dominators of a graph say: which nodes lead to an exit, which nodes lie
    on every path from there to an exit, and which of these comes first. A node that leads to no
    exit is post-dominated by itself alone, and the way out is never an answer. -/
theorem postDominators_spec (ha : a < g.size) (hb : b < g.size) :
    (g.links.postDominators.reachesExit b = true ↔ g.ReachesExit b) ∧
      (g.ReachesExit b →
        (g.links.postDominators.postDominates a b = true ↔ g.PostDominates a b)) ∧
      (¬g.ReachesExit b → (g.links.postDominators.postDominates a b = true ↔ a = b)) ∧
      (∀ p, g.links.postDominators.immediate? b = some p ↔
        g.ReachesExit b ∧ p ≠ b ∧ g.PostDominates p b ∧
          ∀ q, q ≠ b → g.PostDominates q b → g.PostDominates q p) ∧
      (g.links.postDominators.immediate? b = none ↔
        ¬g.ReachesExit b ∨ ∀ q, q ≠ b → ¬g.PostDominates q b) ∧
      ∀ p, g.links.postDominators.immediate? b = some p → p < g.size := by
  have hexact := g.postDominators_exact
  refine ⟨g.reachesExit_iff hb, fun hr => ?_, fun hr => ?_,
    fun p => g.immediate_postDominator_iff hb, g.immediate_postDominator_eq_none_iff hb,
    fun p hp => ?_⟩
  · rw [← g.reversed_dominates_iff (Nat.ne_of_lt ha) hb]
    exact hexact.dominates_iff a b ((g.reversed_reachable_iff hb).2 hr)
  · exact hexact.dominates_unreached a b fun hback => hr ((g.reversed_reachable_iff hb).1 hback)
  · obtain ⟨hr, _, hpost, _⟩ := g.postDominates_of_immediate hb hp
    exact hpost.lt hb hr

/-- Two exits, one of them behind a double edge, and a loop from which no exit is reached. -/
def forked : Digraph Unit Unit where
  nodes := List.replicate 6 ()
  edges := [⟨0, 1, ()⟩, ⟨0, 2, ()⟩, ⟨1, 3, ()⟩, ⟨2, 3, ()⟩, ⟨3, 4, ()⟩, ⟨3, 4, ()⟩, ⟨2, 5, ()⟩,
    ⟨5, 5, ()⟩]
  closed := by decide

/-- A node that also leads into the loop has a post-dominator, and the loop reaches no exit. -/
theorem forked_postDominators :
    3 < forked.size ∧ 2 < forked.size ∧ forked.ReachesExit 2 ∧ forked.PostDominates 3 2 ∧
      forked.links.postDominators.immediate? 2 = some 3 ∧
      forked.links.postDominators.reachesExit 5 = false := by
  have h3 : 3 < forked.size := by decide
  have h2 : 2 < forked.size := by decide
  obtain ⟨hexit, hpost, -, -, -, -⟩ := forked.postDominators_spec h3 h2
  have hr : forked.ReachesExit 2 := hexit.1 (by decide +kernel)
  exact ⟨h3, h2, hr, (hpost hr).1 (by decide +kernel), by decide +kernel, by decide +kernel⟩

end Digraph

/-! ### Nothing in between -/

/-- From an immediate dominator some path to the node avoids any given other node. -/
theorem DominatorTree.Exact.exists_avoiding {t : DominatorTree} {l : Links} {entry a b x : Nat}
    (ht : t.Exact l entry) (h : t.immediate? b = some a) (hxa : x ≠ a) (hxb : x ≠ b) :
    ∃ ns, l.Path a b ns ∧ x ∉ ns := by
  by_contra hall
  have hall : ∀ ns, l.Path a b ns → x ∈ ns := fun ns hp => by
    by_contra hx
    exact hall ⟨ns, hp, hx⟩
  obtain ⟨_, hab, himm⟩ := ht.immediate_some b a h
  have hb : l.Reachable entry b := by
    by_contra hb
    have hnone := (ht.immediate_none b).2 (.inr hb)
    rw [h] at hnone
    cases hnone
  -- the other node would be a dominator of both
  have hxb' : l.Dominates entry x b := fun ns hp => by
    obtain ⟨ps, qs, rfl, _, hq⟩ := hp.split (hab ns hp)
    exact List.mem_append_right _ (hall _ hq)
  have hxa' : l.Dominates entry x a := himm x hxb hxb'
  -- but then `b` is reached past `a`
  obtain ⟨ks, hfirst, hks⟩ := hxa'.exists_avoiding hxa (hab.reachable hb)
  obtain ⟨ns, hp⟩ := hb
  obtain ⟨ms, hq, hms, _⟩ := hp.depart (hab ns hp)
  have hx : x ∈ ms := (List.mem_cons.1 (hall _ hq)).resolve_left hxa
  obtain ⟨ps, qs, hsplit, _, hback⟩ := hq.split (List.mem_cons_of_mem a hx)
  have hqs : a ∉ qs := fun hmem => by
    cases ps with
    | nil =>
      obtain ⟨heq, _⟩ := List.cons.inj hsplit
      exact hxa heq.symm
    | cons p ps =>
      obtain ⟨_, rfl⟩ := List.cons.inj hsplit
      exact hms (List.mem_append_right _ (List.mem_cons_of_mem x hmem))
  rcases List.mem_append.1 (hab _ (hfirst.trans hback)) with hmem | hmem
  · exact hks hmem
  · exact hqs hmem

namespace Digraph

variable {ν ε : Type} (g : Digraph ν ε) {a b x : Nat}

/-- To its immediate post-dominator some path from the node avoids any given other node. -/
theorem exists_avoiding_postDominator (h : g.links.postDominators.immediate? b = some a)
    (hxa : x ≠ a) (hxb : x ≠ b) : ∃ ns, g.links.Path b a ns ∧ x ∉ ns := by
  obtain ⟨himm, ha⟩ := Option.filter_eq_some_iff.1 h
  obtain ⟨ns, hp, hx⟩ := g.postDominators_exact.exists_avoiding himm hxa hxb
  have ha : a ≠ g.size := by
    have hentry : g.links.postDominators.tree.entry = g.size := rfl
    rw [hentry] at ha
    simpa using ha
  exact ⟨ns.reverse, g.path_of_reversed hp ha, by simpa using hx⟩

end Digraph

end Restructure
