import Restructure.Graph.Loops
import Restructure.Proofs.Graph.Dominators

namespace Restructure

/-!
# Natural loops — how control enters them and how they lie inside one another

* `NaturalLoop` — the header dominates the body, and no edge enters the body but at the header.
* `NaturalLoop.header_mem_of_path` — a path into a loop passes through the header.
* `NaturalLoop.header_mem_or` — two loops that meet lie one in the other.
* `NaturalLoop.subset` — a loop whose header lies in another loop lies in it as a whole.
* `NaturalLoop.within_of_header_mem` — and the header of the other loop lies above and outside.
* `NaturalLoop.not_dominates_of_exit` — where a loop goes back to its header or is left, no other
  loop begins.
-/

/-- The nodes of a natural loop: they are dominated by the header, they are entered at the header
    alone, and all of them lead to an edge back to the header. -/
structure NaturalLoop (l : Links) (entry header : Nat) (body : List Nat) : Prop where
  header_mem : header ∈ body
  dominated : ∀ n ∈ body, l.Dominates entry header n
  closed : ∀ n ∈ body, n ≠ header → ∀ m, n ∈ l.succ m → m ∈ body
  least : ∀ P : Nat → Prop, P header → (∀ m, header ∈ l.succ m → P m) →
    (∀ n ∈ body, n ≠ header → P n → ∀ m, n ∈ l.succ m → P m) → ∀ n ∈ body, P n

/-- Only nodes have successors. -/
theorem Digraph.source_lt {ν ε : Type} (g : Digraph ν ε) {n m : Nat} (h : m ∈ g.successors n) :
    n < g.size := by
  rw [← g.mem_predecessors_iff] at h
  exact g.predecessors_lt h

namespace NaturalLoop

variable {l : Links} {entry header header' n m : Nat} {body body' ns : List Nat}

/-- A path into the loop passes through the header. -/
theorem header_mem_of_path (h : NaturalLoop l entry header body) (hp : l.Path n m ns)
    (hn : n ∉ body) (hm : m ∈ body) : header ∈ ns := by
  induction hp with
  | single n => exact absurd hm hn
  | @cons n k m ns hk tail ih =>
    by_cases hkb : k ∈ body
    · have hkh : k = header := by
        by_contra hne
        exact hn (h.closed k hkb hne n hk)
      exact List.mem_cons_of_mem _ (hkh ▸ tail.source_mem)
    · exact List.mem_cons_of_mem _ (ih hkb hm)

/-- A loop that begins in another one lies in it, unless it begins with both. -/
theorem subset (h : NaturalLoop l entry header body) (h' : NaturalLoop l entry header' body')
    (hmem : header ∈ body') (hne : header ≠ header') (hdom : ¬l.Dominates entry header header') :
    body ⊆ body' := by
  intro n hn
  refine h.least (· ∈ body') hmem (fun m hm => h'.closed header hmem hne m hm) ?_ n hn
  intro k hk _ hk' m hm
  refine h'.closed k hk' (fun heq => hdom ?_) m hm
  exact heq ▸ h.dominated k hk

/-- A path to a node of the loop lies in the loop if it does not pass through the header again. -/
theorem mem_of_path (h : NaturalLoop l entry header body) (hp : l.Path n m ns) (hm : m ∈ body)
    (hns : header ∉ ns.tail) : ∀ x ∈ ns, x ∈ body := by
  induction hp with
  | single n =>
    intro x hx
    rw [List.mem_singleton.1 hx]
    exact hm
  | @cons n k m ns hk tail ih =>
    have hsub := ih hm fun hmem => hns (List.mem_of_mem_tail hmem)
    have hkh : k ≠ header := fun heq => hns (heq ▸ tail.source_mem)
    intro x hx
    rcases List.mem_cons.1 hx with rfl | hx
    · exact h.closed k (hsub k tail.source_mem) hkh _ hk
    · exact hsub x hx

/-- A reachable node of the loop is reached from the header within the loop. -/
theorem exists_path_within (h : NaturalLoop l entry header body) (hn : n ∈ body)
    (hr : l.Reachable entry n) : ∃ ns, l.Path header n ns ∧ ∀ x ∈ ns, x ∈ body := by
  obtain ⟨ns, hp⟩ := hr
  obtain ⟨ms, hq, hms, _⟩ := hp.depart (h.dominated n hn ns hp)
  exact ⟨header :: ms, hq, h.mem_of_path hq hn hms⟩

/-- Of two loops with a reachable node in common, one has its header in the other one. -/
theorem header_mem_or (h : NaturalLoop l entry header body)
    (h' : NaturalLoop l entry header' body') (hn : n ∈ body) (hn' : n ∈ body')
    (hr : l.Reachable entry n) : header ∈ body' ∨ header' ∈ body := by
  by_cases hmem : header ∈ body'
  · exact .inl hmem
  · obtain ⟨ns, hp, hns⟩ := h.exists_path_within hn hr
    exact .inr (hns header' (h'.header_mem_of_path hp hmem hn'))

/-- A loop whose header lies in another loop with another header lies within it: the header of the
    outer one dominates its header, and is not part of it. -/
theorem within_of_header_mem (h : NaturalLoop l entry header body)
    (h' : NaturalLoop l entry header' body') (hmem : header ∈ body') (hne : header ≠ header')
    (hr : l.Reachable entry header) :
    body ⊆ body' ∧ l.Dominates entry header' header ∧ header' ∉ body := by
  have hdom : l.Dominates entry header' header := h'.dominated header hmem
  have hnot : ¬l.Dominates entry header header' := fun hback =>
    hne (hback.antisymm hdom (hdom.reachable hr))
  exact ⟨h.subset h' hmem hne hnot, hdom, fun hback => hnot (h.dominated header' hback)⟩

/-- Every node of the loop leads to another one, or it is the header. -/
theorem exists_successor (h : NaturalLoop l entry header body) (hn : n ∈ body) :
    n = header ∨ ∃ k ∈ l.succ n, k ∈ body :=
  h.least (fun n => n = header ∨ ∃ k ∈ l.succ n, k ∈ body) (.inl rfl)
    (fun _ hm => .inr ⟨header, hm, h.header_mem⟩) (fun k hk _ _ _ hm => .inr ⟨k, hm, hk⟩) n hn

/-- A node from which control only goes back to the header or leaves the loop dominates nothing
    that leads to it: no other loop begins there. -/
theorem not_dominates_of_exit (h : NaturalLoop l entry header body) (hn : n ∈ body)
    (hne : n ≠ header) (hexit : ∀ k ∈ l.succ n, k = header ∨ k ∉ body)
    (hr : l.Reachable entry m) (hm : n ∈ l.succ m) : ¬l.Dominates entry n m := by
  intro hdom
  have hmb : m ∈ body := h.closed n hn hne m hm
  obtain ⟨ns, hp⟩ := hr
  obtain ⟨ms, hq, hms, _⟩ := hp.depart (hdom ns hp)
  cases hq with
  | single =>
    -- the node would lead to itself
    rcases hexit n hm with heq | hout
    · exact hne heq
    · exact hout hmb
  | @cons _ k _ _ hk tail =>
    -- control leaves for the header, or comes back through it
    have hheader : header ∈ ms := by
      rcases hexit k hk with rfl | hout
      · exact tail.source_mem
      · exact h.header_mem_of_path tail hout hmb
    obtain ⟨ps, qs, rfl, _, hback⟩ := tail.split hheader
    obtain ⟨ks, hfirst, hks⟩ := (h.dominated n hn).exists_avoiding (Ne.symm hne)
      (hdom.reachable ⟨ns, hp⟩)
    have hmem := hdom _ (hfirst.trans hback)
    rcases List.mem_append.1 hmem with hmem | hmem
    · exact hks hmem
    · exact hms (List.mem_append_right _ (List.mem_cons_of_mem _ hmem))

end NaturalLoop

end Restructure
