import Restructure.Graph.PostDominators

namespace Restructure

/-!
# Paths — what it means that one node lies between two others

* `Links.Path` — the nodes that a walk along edges passes, both ends included.
* `Links.Reachable`, `Links.Dominates` — some path leads to a node; all paths to a node pass
  through another one.
* `Links.Lawful` — successors are nodes, and predecessors are successors read backwards. Every
  digraph and its reversal are lawful.
-/

namespace Links

/-- The nodes on a path, in order. -/
inductive Path (l : Links) : Nat → Nat → List Nat → Prop
  | single (n : Nat) : Path l n n [n]
  | cons {n m b : Nat} {ns : List Nat} (h : m ∈ l.succ n) (tail : Path l m b ns) :
      Path l n b (n :: ns)

/-- Some path leads from `a` to `b`. -/
def Reachable (l : Links) (a b : Nat) : Prop := ∃ ns, l.Path a b ns

/-- Every path from `entry` to `b` passes through `a`. -/
def Dominates (l : Links) (entry a b : Nat) : Prop := ∀ ns, l.Path entry b ns → a ∈ ns

/-- The lists of successors and predecessors describe one set of edges between nodes. -/
structure Lawful (l : Links) : Prop where
  succ_lt : ∀ {n m}, m ∈ l.succ n → m < l.size
  mem_pred : ∀ {n m}, m < l.size → (n ∈ l.pred m ↔ m ∈ l.succ n)

variable {l : Links} {a b c n m : Nat} {ns ms : List Nat}

/-! ### Paths -/

/-- A path begins at its source. -/
theorem Path.source_mem (h : l.Path a b ns) : a ∈ ns := by
  cases h <;> simp

/-- A path ends at its target. -/
theorem Path.target_mem (h : l.Path a b ns) : b ∈ ns := by
  induction h with
  | single n => simp
  | cons _ _ ih => exact List.mem_cons_of_mem _ ih

/-- A path begins with its source. -/
theorem Path.eq_cons (h : l.Path a b ns) : ∃ ms, ns = a :: ms := by
  cases h with
  | single => exact ⟨[], rfl⟩
  | cons _ _ => exact ⟨_, rfl⟩

/-- A path goes on by one link. -/
theorem Path.snoc (h : l.Path a b ns) (hc : c ∈ l.succ b) : l.Path a c (ns ++ [c]) := by
  induction h with
  | single n => exact .cons hc (.single c)
  | cons hm _ ih => exact .cons hm (ih hc)

/-- Paths that meet at a node are joined there. -/
theorem Path.trans (h : l.Path a b ns) (h' : l.Path b c ms) : l.Path a c (ns ++ ms.tail) := by
  induction h with
  | single n =>
    obtain ⟨ks, rfl⟩ := h'.eq_cons
    exact h'
  | cons hm _ ih => exact .cons hm (ih h')

/-- A path is cut at a node on it. -/
theorem Path.split (h : l.Path a b ns) (hc : c ∈ ns) :
    ∃ ps qs, ns = ps ++ c :: qs ∧ l.Path a c (ps ++ [c]) ∧ l.Path c b (c :: qs) := by
  induction h with
  | single n =>
    obtain rfl := List.mem_singleton.1 hc
    exact ⟨[], [], rfl, .single _, .single _⟩
  | @cons n m b ns hm tail ih =>
    rcases List.mem_cons.1 hc with rfl | hc
    · exact ⟨[], ns, rfl, .single _, .cons hm tail⟩
    · obtain ⟨ps, qs, rfl, hp, hq⟩ := ih hc
      exact ⟨n :: ps, qs, rfl, .cons hm hp, hq⟩

/-- The last step of a path. -/
theorem Path.last_step (h : l.Path a b ns) :
    (a = b ∧ ns = [a]) ∨ ∃ p ms, l.Path a p ms ∧ b ∈ l.succ p ∧ ns = ms ++ [b] := by
  induction h with
  | single n => exact .inl ⟨rfl, rfl⟩
  | @cons n m b ns hm tail ih =>
    right
    rcases ih with ⟨rfl, rfl⟩ | ⟨p, ms, hp, hb, rfl⟩
    · exact ⟨n, [n], .single n, hm, rfl⟩
    · exact ⟨p, n :: ms, .cons hm hp, hb, rfl⟩

/-- A path is cut where it first comes to its target. -/
theorem Path.arrive (h : l.Path a b ns) : ∃ ps, l.Path a b (ps ++ [b]) ∧ b ∉ ps ∧ ps ⊆ ns := by
  induction h with
  | single n => exact ⟨[], .single n, by simp, by simp⟩
  | @cons n m b ns hm tail ih =>
    by_cases hn : n = b
    · obtain rfl := hn
      exact ⟨[], .single n, by simp, by simp⟩
    · obtain ⟨ps, hp, hb, hsub⟩ := ih
      refine ⟨n :: ps, .cons hm hp, ?_, List.cons_subset_cons n hsub⟩
      rw [List.mem_cons]
      exact fun h => h.elim (fun h => hn h.symm) hb

/-- A path is cut where it leaves a node for the last time. -/
theorem Path.depart (h : l.Path a b ns) (hc : c ∈ ns) :
    ∃ ms, l.Path c b (c :: ms) ∧ c ∉ ms ∧ ms ⊆ ns := by
  induction h with
  | single n =>
    obtain rfl := List.mem_singleton.1 hc
    exact ⟨[], .single _, by simp, by simp⟩
  | @cons n m b ns hm tail ih =>
    by_cases hn : c ∈ ns
    · obtain ⟨ms, hp, hms, hsub⟩ := ih hn
      exact ⟨ms, hp, hms, fun x hx => List.mem_cons_of_mem _ (hsub hx)⟩
    · obtain rfl := (List.mem_cons.1 hc).resolve_right hn
      exact ⟨ns, .cons hm tail, hn, fun x hx => List.mem_cons_of_mem _ hx⟩

/-! ### Reachable nodes -/

/-- Every node reaches itself. -/
theorem Reachable.refl (l : Links) (n : Nat) : l.Reachable n n := ⟨[n], .single n⟩

/-- Nodes are reached through others. -/
theorem Reachable.trans (h : l.Reachable a b) (h' : l.Reachable b c) : l.Reachable a c := by
  obtain ⟨ns, hp⟩ := h
  obtain ⟨ms, hq⟩ := h'
  exact ⟨_, hp.trans hq⟩

/-- One link more. -/
theorem Reachable.step (h : l.Reachable a b) (hc : c ∈ l.succ b) : l.Reachable a c := by
  obtain ⟨ns, hp⟩ := h
  exact ⟨_, hp.snoc hc⟩

/-- A node reaches its successors. -/
theorem Reachable.of_succ (h : b ∈ l.succ a) : l.Reachable a b := (Reachable.refl l a).step h

/-- Every node on a path is reachable from its source. -/
theorem Path.reachable_left (h : l.Path a b ns) (hc : c ∈ ns) : l.Reachable a c := by
  obtain ⟨ps, _, _, hp, _⟩ := h.split hc
  exact ⟨_, hp⟩

/-- The target of a path is reachable from every node on it. -/
theorem Path.reachable_right (h : l.Path a b ns) (hc : c ∈ ns) : l.Reachable c b := by
  obtain ⟨_, qs, _, _, hq⟩ := h.split hc
  exact ⟨_, hq⟩

/-- Reachable nodes are nodes of the graph. -/
theorem Reachable.lt (hl : l.Lawful) (ha : a < l.size) (h : l.Reachable a b) : b < l.size := by
  obtain ⟨ns, hp⟩ := h
  rcases hp.last_step with ⟨rfl, _⟩ | ⟨p, _, _, hb, _⟩
  · exact ha
  · exact hl.succ_lt hb

/-! ### Dominance -/

/-- Every node dominates itself. -/
theorem Dominates.refl (l : Links) (entry b : Nat) : l.Dominates entry b b :=
  fun _ h => h.target_mem

/-- A strict dominator of a node dominates its predecessors. -/
theorem Dominates.of_succ {entry : Nat} (h : l.Dominates entry a m) (ha : a ≠ m)
    (hm : m ∈ l.succ n) : l.Dominates entry a n := by
  intro ns hp
  rcases List.mem_append.1 (h _ (hp.snoc hm)) with h | h
  · exact h
  · exact absurd (List.mem_singleton.1 h) ha

/-- A node that dominates a reachable node is itself reachable. -/
theorem Dominates.reachable {entry : Nat} (h : l.Dominates entry a b)
    (hb : l.Reachable entry b) : l.Reachable entry a := by
  obtain ⟨ns, hp⟩ := hb
  exact hp.reachable_left (h ns hp)

/-- A strict dominator is reached without the node that it dominates. -/
theorem Dominates.exists_avoiding {entry : Nat} (h : l.Dominates entry a b) (hab : a ≠ b)
    (hb : l.Reachable entry b) : ∃ ns, l.Path entry a ns ∧ b ∉ ns := by
  obtain ⟨ns, hp⟩ := hb
  obtain ⟨ps, hp, hbps, _⟩ := hp.arrive
  have ha : a ∈ ps := by
    rcases List.mem_append.1 (h _ hp) with ha | ha
    · exact ha
    · exact absurd (List.mem_singleton.1 ha) hab
  obtain ⟨as, bs, hsplit, hpa, _⟩ := hp.split (List.mem_append_left _ ha)
  rcases List.eq_nil_or_concat bs with rfl | ⟨cs, x, rfl⟩
  · exact absurd (List.append_singleton_inj.1 hsplit).2.symm hab
  · have hps : ps = as ++ a :: cs := by
      rw [List.concat_eq_append, ← List.cons_append, ← List.append_assoc] at hsplit
      exact (List.append_singleton_inj.1 hsplit).1
    refine ⟨as ++ [a], hpa, fun hmem => hbps ?_⟩
    rw [hps, List.append_cons]
    exact List.mem_append_left cs hmem

/-- Two nodes that dominate each other are one. -/
theorem Dominates.antisymm {entry : Nat} (h : l.Dominates entry a b)
    (h' : l.Dominates entry b a) (hb : l.Reachable entry b) : a = b := by
  by_cases hab : a = b
  · exact hab
  · obtain ⟨ns, hp, hns⟩ := h.exists_avoiding hab hb
    exact absurd (h' ns hp) hns

end Links

/-! ### Lawful graphs -/

/-- The successors are the targets of the edges that leave a node. -/
theorem Digraph.mem_successors_iff {ν ε : Type} (g : Digraph ν ε) {n m : Nat} :
    m ∈ g.successors n ↔ ∃ e ∈ g.edges, e.source = n ∧ e.target = m := by
  simp [Digraph.successors, and_assoc]

/-- Predecessors are successors the other way round. -/
theorem Digraph.mem_predecessors_iff {ν ε : Type} (g : Digraph ν ε) {n m : Nat} :
    n ∈ g.predecessors m ↔ m ∈ g.successors n := by
  rw [g.mem_successors_iff]
  simp [Digraph.predecessors, and_comm, and_assoc]

/-- The links of a graph lead to its nodes, both ways. -/
theorem Digraph.links_lawful {ν ε : Type} (g : Digraph ν ε) : g.links.Lawful where
  succ_lt h := g.successors_lt h
  mem_pred _ := g.mem_predecessors_iff

/-- So do the reversed links with their exit. -/
theorem Digraph.reversed_lawful {ν ε : Type} (g : Digraph ν ε) : g.links.reversed.Lawful where
  succ_lt {n m} h := by
    simp only [Links.reversed] at h ⊢
    split at h
    · exact Nat.lt_succ_of_lt (List.mem_range.1 (List.mem_filter.1 h).1)
    · exact Nat.lt_succ_of_lt (g.predecessors_lt h)
  mem_pred {n m} hm := by
    -- the additional node is no node of the graph itself
    have hsize : ∀ x, x ∉ g.successors g.size := fun x hx => by
      obtain ⟨e, he, hs, _⟩ := g.mem_successors_iff.1 hx
      have := (g.closed e he).1
      simp only [Digraph.size] at hs
      omega
    have hpred : ∀ x, g.size ∉ g.predecessors x := fun x hx => by
      have := g.predecessors_lt hx
      omega
    simp only [Links.reversed, Digraph.links] at hm ⊢
    by_cases h : m = g.size
    · by_cases hn : n = g.size
      · simp [h, hn]
      · simp [h, hn, hpred]
    · have hlt : m < g.size := by omega
      by_cases he : (g.successors m).isEmpty
      · by_cases hn : n = g.size
        · simp [h, he, hn, hlt]
        · have : g.successors m = [] := by simpa using he
          simp [h, hn, g.mem_predecessors_iff, this]
      · by_cases hn : n = g.size
        · have : g.size ∉ g.successors m := fun hx => Nat.lt_irrefl _ (g.successors_lt hx)
          simp [h, he, hn, this]
        · simp [h, he, hn, g.mem_predecessors_iff]

end Restructure
