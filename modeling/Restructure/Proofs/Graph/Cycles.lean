import Mathlib.Data.Finset.Max
import Restructure.Proofs.Graph.Descent

namespace Restructure.Links

/-!
# Cycles — headers and retreating edges

A cycle has a header if one of its nodes dominates all of them.  Whether all cycles have one shows
on single edges: on those that do not go forward in some order of the nodes.

* `Cycle`, `Headed` — a closed walk along edges, and a node of it that dominates the walk.
* `headed_of_rank` — if each edge that does not go up in a rank leads to a dominator, then every
  cycle has a header, whatever the rank is.
* `dominates_of_headed` — if every cycle without repetitions has a header, then an edge to a node
  that a depth-first search finishes later leads to a dominator.
-/

/-- The nodes of a walk along at least one edge that ends where it began. -/
def Cycle (l : Links) (ns : List Nat) : Prop := ∃ a b, l.Path a b ns ∧ a ∈ l.succ b

/-- One of the nodes dominates all of them. -/
def Headed (l : Links) (entry : Nat) (ns : List Nat) : Prop :=
  ∃ h ∈ ns, ∀ n ∈ ns, l.Dominates entry h n

variable {l : Links} {entry a b n m : Nat} {ns ps qs : List Nat}

/-! ### Walks -/

/-- A path without repetitions leads along some nodes of any path. -/
theorem Path.exists_nodup (h : l.Path a b ns) : ∃ ms, l.Path a b ms ∧ ms.Nodup ∧ ms ⊆ ns := by
  induction h with
  | single n => exact ⟨[n], .single n, by simp, by simp⟩
  | @cons n m b ns hm _ ih =>
    obtain ⟨ms, hp, hnd, hsub⟩ := ih
    by_cases hn : n ∈ ms
    · -- the walk comes back to its source, so it is cut there
      obtain ⟨ps, qs, rfl, _, hq⟩ := hp.split hn
      exact ⟨n :: qs, hq, (List.nodup_append.1 hnd).2.1, fun x hx =>
        List.mem_cons_of_mem _ (hsub (List.mem_append_right _ hx))⟩
    · exact ⟨n :: ms, .cons hm hp, List.nodup_cons.2 ⟨hn, hnd⟩, List.cons_subset_cons n hsub⟩

/-- A cycle leads from each of its nodes to each other one. -/
theorem Cycle.exists_path (h : l.Cycle ns) (hn : n ∈ ns) (hm : m ∈ ns) :
    ∃ ms, l.Path n m ms ∧ ms ⊆ ns := by
  obtain ⟨a, b, hp, ha⟩ := h
  obtain ⟨ps, qs, hns, _, hfrom⟩ := hp.split hn
  obtain ⟨ps', qs', hns', hto, _⟩ := hp.split hm
  have hfromns : n :: qs ⊆ ns := by
    rw [hns]
    exact List.subset_append_right _ _
  have htons : ps' ++ [m] ⊆ ns := by
    rw [hns', show ps' ++ m :: qs' = ps' ++ [m] ++ qs' by simp]
    exact List.subset_append_left _ _
  -- on from `n` to the end of the walk, along the closing edge, and from the beginning to `m`
  refine ⟨_, (hfrom.snoc ha).trans hto, fun x hx => ?_⟩
  rcases List.mem_append.1 hx with hx | hx
  · rcases List.mem_append.1 hx with hx | hx
    · exact hfromns hx
    · rw [List.mem_singleton.1 hx]
      exact hp.source_mem
  · exact htons (List.mem_of_mem_tail hx)

/-! ### From edges to cycles -/

/-- **Edges decide.** If every edge that does not go up in rank leads to a dominator, then the node
    of least rank on a cycle is its header. -/
theorem headed_of_rank (rank : Nat → Nat)
    (hedge : ∀ n m, l.Reachable entry n → m ∈ l.succ n → rank m ≤ rank n → l.Dominates entry m n)
    (hc : l.Cycle ns) (hr : ∀ n ∈ ns, l.Reachable entry n) : l.Headed entry ns := by
  obtain ⟨a, b, hab, _⟩ := id hc
  obtain ⟨h, hmem, hleast⟩ :=
    ns.toFinset.exists_min_image rank ⟨a, List.mem_toFinset.2 hab.source_mem⟩
  have hh : h ∈ ns := List.mem_toFinset.1 hmem
  refine ⟨h, hh, fun n hn qs hq => ?_⟩
  by_contra hnot
  -- from `n` the cycle goes on to the header; the edge by which it first comes there is dominated
  obtain ⟨ms, hp, hms⟩ := hc.exists_path hn hh
  obtain ⟨ps, hp, hps, hsub⟩ := hp.arrive
  rcases hp.last_step with ⟨rfl, _⟩ | ⟨p, ks, hpk, hlast, heq⟩
  · exact hnot hq.target_mem
  · obtain rfl : ps = ks := (List.append_inj_left' heq rfl)
    have hp' : p ∈ ns := hms (hsub hpk.target_mem)
    have hdom : l.Dominates entry h p :=
      hedge p h (hr p hp') hlast (hleast p (List.mem_toFinset.2 hp'))
    -- but the path to it avoids the header
    rcases List.mem_append.1 (hdom _ (hq.trans hpk)) with hmem | hmem
    · exact hnot hmem
    · exact hps (List.mem_of_mem_tail hmem)

/-! ### From cycles to edges -/

/-- **Retreating edges.** If every cycle without repetitions has a header, then an edge from a
    reachable node to one that is finished later leads to a dominator. -/
theorem dominates_of_headed
    (hcycles : ∀ ns, l.Cycle ns → ns.Nodup → (∀ n ∈ ns, l.Reachable entry n) → l.Headed entry ns)
    (hs : search l.size l.succ [entry] = ps ++ m :: qs) (hn : n ∈ ps) (hm : m ∈ l.succ n) :
    l.Dominates entry m n := by
  obtain ⟨ks, hp, hks⟩ := search_returns hs hn hm
  obtain ⟨ns, hp, hnd, hsub⟩ := hp.exists_nodup
  obtain ⟨ms, hlead, hms⟩ := search_leads hs
  have hr : ∀ x ∈ ns, l.Reachable entry x := fun x hx => by
    have hmr : l.Reachable entry m := ⟨ms, hlead⟩
    exact hmr.trans (hp.reachable_left hx)
  obtain ⟨h, hh, hdom⟩ := hcycles ns ⟨m, n, hp, hm⟩ hnd hr
  have hhm : h = m := by
    -- the header lies on the cycle, so it is finished no later than `m`, and on the path to `m`
    have hnodup : (ps ++ m :: qs).Nodup := hs ▸ (search_searched l.size l.succ [entry]).nodup
    have hbefore := hks h (hsub hh)
    have hbehind := hms h (hdom m hp.source_mem ms hlead)
    rcases hbefore with heq | hbefore
    · exact heq
    · rcases hbehind with heq | hbehind
      · exact heq
      · exact absurd rfl ((List.nodup_append.1 hnodup).2.2 h hbefore h (by simp [hbehind]))
  exact hhm ▸ hdom n hp.target_mem

end Restructure.Links
