import Restructure.Proofs.Region.Coverage
import Restructure.Region.Loop

namespace Restructure.Context

/-!
# Begun loops — no loop is entered behind its header

Where control comes to a block, every loop that holds the block has been begun: its header is
written, or is the block itself. This needs that no unreachable block leads into a loop.

* `Begun` — every loop that holds the block has been begun.
* `Begun.of_successor`, `Begun.of_postDominator`, `Begun.of_exitTarget`, `Begun.of_latch` — the ways
  in which control comes to a block.
* `LoopsBegun` — the written blocks are such blocks.
-/

variable {c : Context} {W W' : List Nat} {n m : Nat}

/-- Every loop that holds the block begins with it or has been begun. -/
def Begun (c : Context) (W : List Nat) (n : Nat) : Prop :=
  ∀ h l, c.graph.loopAt? h = some l → n ∈ l.body → n ≠ h → h ∈ W

/-- Every loop that holds a written block has been begun. -/
def LoopsBegun (c : Context) (W : List Nat) : Prop := ∀ n ∈ W, c.Begun W n

/-- With more blocks written the block is still begun. -/
theorem Begun.mono (hn : c.Begun W n) (hsub : W ⊆ W') : c.Begun W' n :=
  fun h l hl hmem hne => hsub (hn h l hl hmem hne)

/-- More blocks are written, where all loops that hold them have been begun. -/
theorem LoopsBegun.append (hW : c.LoopsBegun W) {ns : List Nat}
    (hns : ∀ k ∈ ns, c.Begun (ns ++ W) k) : c.LoopsBegun (ns ++ W) := by
  intro k hk
  rcases List.mem_append.1 hk with hk | hk
  · exact hns k hk
  · exact (hW k hk).mono (List.subset_append_right ns W)

/-- Every loop that holds the block is begun as soon as the block is written, too. -/
theorem Begun.header_mem (hn : c.Begun W n) (hmem : n ∈ W) {h : Nat} {l : Loop}
    (hl : c.graph.loopAt? h = some l) (hnl : n ∈ l.body) : h ∈ W := by
  by_cases hne : n = h
  · exact hne ▸ hmem
  · exact hn h l hl hnl hne

/-! ### Ways to a block -/

/-- A written block leads to the block. -/
theorem Begun.of_successor (hn : c.Begun W n) (hmem : n ∈ W) (hm : m ∈ c.graph.successors n) :
    c.Begun W m := by
  intro h l hl hml hne
  exact hn.header_mem hmem hl ((c.graph.loopAt_natural hl).closed m hml hne n hm)

/-- The block is on all paths from a written block to an exit, and the nearest one. -/
theorem Begun.of_postDominator (hn : c.Begun W n) (hmem : n ∈ W)
    (hm : c.graph.postDominator? n = some m) : c.Begun W m := by
  intro h l hl hml hne
  by_cases hnl : n ∈ l.body
  · exact hn.header_mem hmem hl hnl
  · have hhn : h ≠ n := by
      rintro rfl
      exact hnl (c.graph.loopAt_natural hl).header_mem
    -- a path that avoids the header would enter the loop elsewhere
    obtain ⟨ns, hp, hns⟩ := c.graph.exists_avoiding_postDominator hm (Ne.symm hne) hhn
    exact absurd ((c.graph.loopAt_natural hl).header_mem_of_path hp hnl hml) hns

/-- A loop whose header lies in another loop, but is not its header, lies in it. -/
theorem body_subset {h h' : Nat} {l l' : Loop} (hl : c.graph.loopAt? h = some l)
    (hl' : c.graph.loopAt? h' = some l')
    (hr : c.graph.graph.links.Reachable FlowGraph.entry h) (hmem : h' ∈ l.body) (hne : h' ≠ h) :
    l'.body ⊆ l.body := by
  refine (c.graph.loopAt_natural hl').subset (c.graph.loopAt_natural hl) hmem hne fun hdom => ?_
  exact hne (hdom.antisymm ((c.graph.loopAt_natural hl).dominated h' hmem) hr)

variable {h k z : Nat} {l : Loop}

/-- A loop begun at a written header is left for the block. -/
theorem Begun.of_exitTarget (hh : c.Begun W h) (hmem : h ∈ W) (hl : c.graph.loopAt? h = some l)
    (hr : c.graph.graph.links.Reachable FlowGraph.entry k) (hk : k ∈ l.body)
    (hm : m ∈ c.graph.successors k) (hout : m ∉ l.body) : c.Begun W m := by
  intro h' l' hl' hml' hne
  have hnat := c.graph.loopAt_natural hl
  have hnat' := c.graph.loopAt_natural hl'
  have hkl' : k ∈ l'.body := hnat'.closed m hml' hne k hm
  have hrh := (hnat.dominated k hk).reachable hr
  rcases hnat.header_mem_or hnat' hk hkl' hr with hin | hin
  · exact hh.header_mem hmem hl' hin
  · -- the other loop would lie in the one that is left
    by_cases heq : h' = h
    · exact heq ▸ hmem
    · exact absurd (body_subset hl hl' hrh hin heq hml') hout

/-- The block goes back to a written header and otherwise leaves the loop. -/
theorem Begun.of_latch (hh : c.Begun W h) (hmem : h ∈ W) (hl : c.graph.loopAt? h = some l)
    (hr : c.graph.graph.links.Reachable FlowGraph.entry z) (hz : z ∈ l.body)
    (hexit : ∀ k ∈ c.graph.successors z, k = h ∨ k ∉ l.body) : c.Begun W z := by
  intro h' l' hl' hzl' hne
  have hnat := c.graph.loopAt_natural hl
  have hnat' := c.graph.loopAt_natural hl'
  have hrh := (hnat.dominated z hz).reachable hr
  rcases hnat.header_mem_or hnat' hz hzl' hr with hin | hin
  · exact hh.header_mem hmem hl' hin
  · by_cases heq : h' = h
    · exact heq ▸ hmem
    · -- within the other loop control can only go back to this header
      obtain ⟨k, hk, hkl'⟩ := (hnat'.exists_successor hzl').resolve_left hne
      rcases hexit k hk with rfl | hout
      · exact hh.header_mem hmem hl' hkl'
      · exact absurd (body_subset hl hl' hrh hin heq hkl') hout

/-! ### Exits -/

/-- The targets of the exits of a loop lie outside, and its blocks lead to them. -/
theorem exists_of_exitTarget (hl : c.graph.loopAt? h = some l) (hm : m ∈ l.exitTargets) :
    ∃ k ∈ l.body, m ∈ c.graph.successors k ∧ m ∉ l.body := by
  have hm : m ∈ (l.exits.map (·.2)).foldl (fun ns n => Loop.insertAscending n ns) [] := by
    rw [List.foldl_map]
    exact hm
  rcases Loop.mem_foldl_insertAscending.1 hm with hm | hm
  · obtain ⟨e, he, rfl⟩ := List.mem_map.1 hm
    exact ⟨e.1, c.graph.exit_of_loopAt hl he⟩
  · exact absurd hm List.not_mem_nil

/-- The block behind an endless loop is the target of an exit. -/
theorem mem_of_loopFollow {exits : List Nat} (h : c.loopFollow? exits = some m) : m ∈ exits := by
  unfold loopFollow? at h
  split at h
  · cases h
    exact List.mem_singleton_self _
  · split at h
    · rename_i n hn
      cases h
      have : m ∈ exits.filter fun n => !c.isPrivateTail n := by simp [hn]
      exact (List.mem_filter.1 this).1
    · have := List.mem_of_find?_eq_some h
      exact (List.mem_filter.1 this).1

/-- The only latch of a loop that tests there belongs to the loop. -/
theorem mem_body_of_latch (hl : c.graph.loopAt? h = some l) (hz : z ∈ l.latches) :
    z ∈ l.body ∧ c.graph.graph.links.Reachable FlowGraph.entry z :=
  ⟨(c.graph.exact_of_loopAt hl).latch_mem_body hz, (c.graph.backEdge_of_latch hl hz).1⟩

end Restructure.Context
