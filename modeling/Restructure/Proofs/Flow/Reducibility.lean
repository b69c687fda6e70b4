import Restructure.Proofs.Flow.Graph
import Restructure.Proofs.Graph.Cycles

namespace Restructure

/-!
# Reducible flow graphs — every cycle has a header

The check looks at the edges that do not go forward in one reverse postorder.  Which edges these are
depends on the order in which the search visits successors; whether one of them leads to a block
that does not dominate its source does not.

* `FlowGraph.irreducibleEdgesIn` — the edges found with a given order of the blocks.
* `FlowGraph.irreducibleEdgesIn_isEmpty_iff` — none is found with an order of a depth-first search
  exactly if every cycle of reachable blocks has a header.
* `FlowGraph.isReducible_iff_headed` — what the check decides, and that it does not depend on the
  search.
-/

/-- A node in front of another one in the reversed list stands behind it in the list. -/
theorem exists_cut_of_idxOf_reverse_le {order : List Nat} {n m : Nat} (hnd : order.Nodup)
    (hn : n ∈ order) (hm : m ∈ order) (hne : n ≠ m)
    (hle : order.reverse.idxOf m ≤ order.reverse.idxOf n) :
    ∃ ps qs, order = ps ++ m :: qs ∧ n ∈ ps := by
  obtain ⟨ps, qs, rfl⟩ := List.append_of_mem hm
  refine ⟨ps, qs, rfl, ?_⟩
  by_contra hnot
  have hnq : n ∈ qs := by simpa [hnot, hne] using hn
  have hmq : m ∉ qs := (List.nodup_cons.1 (List.nodup_append.1 hnd).2.1).1
  have hrev : (ps ++ m :: qs).reverse = qs.reverse ++ m :: ps.reverse := by simp
  have hlt : qs.reverse.idxOf n < qs.length := by
    simpa using List.idxOf_lt_length_of_mem (List.mem_reverse.2 hnq)
  rw [hrev, List.idxOf_append_of_mem (List.mem_reverse.2 hnq),
    List.idxOf_append_of_notMem (by simpa using hmq)] at hle
  simp only [List.length_reverse] at hle
  omega

namespace FlowGraph

variable (g : FlowGraph)

/-- The edges that do not go forward in an order of the blocks and do not lead to a dominator. -/
def irreducibleEdgesIn (order : List Nat) : List (Nat × Nat) :=
  order.flatMap fun n =>
    ((g.successors n).filter fun m =>
      order.idxOf m ≤ order.idxOf n && !g.dominates m n).map fun m => (n, m)

/-- The check takes the order in which a search finishes that visits the successors as they are. -/
theorem isReducible_eq :
    g.isReducible =
      (g.irreducibleEdgesIn (search g.size g.successors [entry]).reverse).isEmpty := rfl

/-- No edge is irreducible if every edge that does not lead forward leads to a dominator. -/
theorem irreducibleEdgesIn_eq_nil_iff {order : List Nat} :
    g.irreducibleEdgesIn order = [] ↔ ∀ n ∈ order, ∀ m ∈ g.successors n,
      order.idxOf m ≤ order.idxOf n → g.dominates m n = true := by
  simp only [irreducibleEdgesIn, List.flatMap_eq_nil_iff, List.map_eq_nil_iff,
    List.filter_eq_nil_iff, Bool.and_eq_true, decide_eq_true_eq, Bool.not_eq_true', not_and,
    Bool.not_eq_false]

/-! ### Searches with the successors in any order -/

/-- The links of the graph with the successors of each block in another order. -/
def linksBy (next : Nat → List Nat) : Links := { g.graph.links with succ := next }

section

variable {g} {next : Nat → List Nat} (hnext : ∀ n m, m ∈ next n ↔ m ∈ g.successors n)

include hnext

/-- In another order of the successors the links are still lawful. -/
theorem linksBy_lawful : (g.linksBy next).Lawful where
  succ_lt {n m} h := g.lt_of_successor ((hnext n m).1 h)
  mem_pred {n m} _ := g.graph.mem_predecessors_iff.trans (hnext n m).symm

/-- The order of the successors makes no difference to the paths. -/
theorem linksBy_path_iff {a b : Nat} {ns : List Nat} :
    (g.linksBy next).Path a b ns ↔ g.graph.links.Path a b ns := by
  constructor
  · intro h
    induction h with
    | single n => exact .single n
    | cons hm _ ih => exact .cons ((hnext _ _).1 hm) ih
  · intro h
    induction h with
    | single n => exact .single n
    | cons hm _ ih => exact .cons ((hnext _ _).2 hm) ih

/-- The order of the successors does not change what is reached. -/
theorem linksBy_reachable_iff {a b : Nat} :
    (g.linksBy next).Reachable a b ↔ g.graph.links.Reachable a b := by
  simp only [Links.Reachable, linksBy_path_iff hnext]

/-- The order of the successors does not change dominance. -/
theorem linksBy_dominates_iff {a b c : Nat} :
    (g.linksBy next).Dominates a b c ↔ g.graph.links.Dominates a b c := by
  simp only [Links.Dominates, linksBy_path_iff hnext]

/-- The order of the successors does not change the cycles. -/
theorem linksBy_cycle_iff {ns : List Nat} :
    (g.linksBy next).Cycle ns ↔ g.graph.links.Cycle ns := by
  simp only [Links.Cycle, linksBy_path_iff hnext]
  exact exists₂_congr fun a b => and_congr_right fun _ => hnext b a

/-- The order of the successors does not change which cycles have a header. -/
theorem linksBy_headed_iff {a : Nat} {ns : List Nat} :
    (g.linksBy next).Headed a ns ↔ g.graph.links.Headed a ns := by
  simp only [Links.Headed, linksBy_dominates_iff hnext]

end

/-! ### What the check decides -/

/-- Every edge that does not go forward in the order leads to a dominator, so every cycle has a
    header. -/
theorem headed_of_irreducibleEdgesIn {order ns : List Nat}
    (horder : ∀ n, n ∈ order ↔ g.graph.links.Reachable entry n)
    (h : g.irreducibleEdgesIn order = []) (hc : g.graph.links.Cycle ns)
    (hr : ∀ n ∈ ns, g.graph.links.Reachable entry n) : g.graph.links.Headed entry ns := by
  -- the block of a cycle that comes first in the order is its header
  refine Links.headed_of_rank order.idxOf (fun n m hn hm hle => ?_) hc hr
  exact (g.tree_exact.dominates_iff m n hn).1
    (g.irreducibleEdgesIn_eq_nil_iff.1 h n ((horder n).2 hn) m hm hle)

/-- In the reverse of an order in which a depth-first search finishes the blocks, an edge that does
    not go forward leads to a dominator, if every cycle without repetitions has a header. -/
theorem irreducibleEdgesIn_of_headed {next : Nat → List Nat}
    (hnext : ∀ n m, m ∈ next n ↔ m ∈ g.successors n)
    (hcycles : ∀ ns, g.graph.links.Cycle ns → ns.Nodup →
      (∀ n ∈ ns, g.graph.links.Reachable entry n) → g.graph.links.Headed entry ns) :
    g.irreducibleEdgesIn (search g.size next [entry]).reverse = [] := by
  have hlisted := Links.postorder_numbered (linksBy_lawful hnext) g.nonempty
  have hmem : ∀ n, n ∈ search g.size next [entry] ↔ g.graph.links.Reachable entry n := fun n =>
    (hlisted.mem_iff n).trans (linksBy_reachable_iff hnext)
  refine g.irreducibleEdgesIn_eq_nil_iff.2 fun n hn m hm hle => ?_
  have hnr : g.graph.links.Reachable entry n := (hmem n).1 (List.mem_reverse.1 hn)
  refine (g.tree_exact.dominates_iff m n hnr).2 ?_
  by_cases hne : n = m
  · rw [hne]
    exact .refl _ _ _
  · -- the edge goes back in the order of finishing
    obtain ⟨ps, qs, hs, hps⟩ := exists_cut_of_idxOf_reverse_le hlisted.nodup
      (List.mem_reverse.1 hn) ((hmem m).2 (hnr.step hm)) hne hle
    have hdom : (g.linksBy next).Dominates entry m n := by
      refine Links.dominates_of_headed (fun ns hc hnd hr => ?_) hs hps ((hnext n m).2 hm)
      rw [linksBy_headed_iff hnext]
      exact hcycles ns ((linksBy_cycle_iff hnext).1 hc) hnd fun x hx =>
        (linksBy_reachable_iff hnext).1 (hr x hx)
    exact (linksBy_dominates_iff hnext).1 hdom

/-- With the order of any depth-first search, no edge is found exactly if every cycle of reachable
    blocks has a header. -/
theorem irreducibleEdgesIn_isEmpty_iff (next : Nat → List Nat)
    (hnext : ∀ n m, m ∈ next n ↔ m ∈ g.successors n) :
    (g.irreducibleEdgesIn (search g.size next [entry]).reverse).isEmpty = true ↔
      ∀ ns, g.graph.links.Cycle ns → (∀ n ∈ ns, g.graph.links.Reachable entry n) →
        g.graph.links.Headed entry ns := by
  rw [List.isEmpty_iff]
  refine ⟨fun h ns hc hr => ?_, fun h => ?_⟩
  · have hlisted := Links.postorder_numbered (linksBy_lawful hnext) g.nonempty
    refine g.headed_of_irreducibleEdgesIn (fun n => ?_) h hc hr
    rw [List.mem_reverse]
    exact (hlisted.mem_iff n).trans (linksBy_reachable_iff hnext)
  · exact g.irreducibleEdgesIn_of_headed hnext fun ns hc _ hr => h ns hc hr

/-- **Reducibility.** A flow graph is called reducible exactly if every cycle of reachable blocks
    contains a block that dominates it; for that it is enough to look at the cycles that pass no
    block twice.  A search that visits the successors in another order leads to the same answer. -/
theorem isReducible_iff_headed (g : FlowGraph) :
    (g.isReducible = true ↔
        ∀ ns, g.graph.links.Cycle ns → (∀ n ∈ ns, g.graph.links.Reachable entry n) →
          ∃ h ∈ ns, ∀ n ∈ ns, g.graph.links.Dominates entry h n) ∧
      ((∀ ns, g.graph.links.Cycle ns → ns.Nodup →
          (∀ n ∈ ns, g.graph.links.Reachable entry n) →
          ∃ h ∈ ns, ∀ n ∈ ns, g.graph.links.Dominates entry h n) → g.isReducible = true) ∧
      ∀ next : Nat → List Nat, (∀ n, (next n).Perm (g.successors n)) →
        (g.irreducibleEdgesIn (search g.size next [entry]).reverse).isEmpty = g.isReducible := by
  have hown := g.irreducibleEdgesIn_isEmpty_iff g.successors fun _ _ => Iff.rfl
  rw [g.isReducible_eq]
  refine ⟨hown, fun h => ?_, fun next hperm => ?_⟩
  · rw [List.isEmpty_iff]
    exact g.irreducibleEdgesIn_of_headed (fun _ _ => Iff.rfl) h
  · have hnext := g.irreducibleEdgesIn_isEmpty_iff next fun n _ => (hperm n).mem_iff
    exact Bool.eq_iff_iff.2 (hnext.trans hown.symm)

/-! ### A cycle with two entries -/

/-- Blocks 1 and 2 form a cycle, and control comes to either of them first. -/
def twoEntries : FlowGraph :=
  let blocks : List Block :=
    [⟨[.load 0 "I"], .branch (.zero .eq) 2 1⟩, ⟨[], .goto 2⟩,
      ⟨[.load 0 "I"], .branch (.zero .ne) 1 3⟩, ⟨[], .ret⟩]
  .ofDigraph ⟨blocks, flowEdges blocks, by decide⟩ (by decide) rfl

/-- A search that visits the successors from the last one to the first finds another edge of the
    cycle, but it finds one as well, and the cycle has no header. -/
theorem twoEntries_unheaded :
    let backwards := search twoEntries.size (fun n => (twoEntries.successors n).reverse) [entry]
    twoEntries.irreducibleEdges = [(1, 2)] ∧
      twoEntries.irreducibleEdgesIn backwards.reverse = [(2, 1)] ∧
      (twoEntries.irreducibleEdgesIn backwards.reverse).isEmpty = twoEntries.isReducible ∧
      ∃ ns, twoEntries.graph.links.Cycle ns ∧ ns.Nodup ∧
        (∀ n ∈ ns, twoEntries.graph.links.Reachable entry n) ∧
        ¬∃ h ∈ ns, ∀ n ∈ ns, twoEntries.graph.links.Dominates entry h n := by
  have hfound : twoEntries.irreducibleEdges = [(1, 2)] := by decide +kernel
  obtain ⟨_, hsimple, hnext⟩ := isReducible_iff_headed twoEntries
  refine ⟨hfound, by decide +kernel, hnext _ fun n => List.reverse_perm _, ?_⟩
  by_contra hall
  have htrue : twoEntries.isReducible = true := hsimple fun ns hc hnd hr => by
    by_contra hnot
    exact hall ⟨ns, hc, hnd, hr, hnot⟩
  rw [isReducible, hfound] at htrue
  cases htrue

end FlowGraph

end Restructure
