import Mathlib.Data.List.Chain
import Restructure.Proofs.Graph.Search

namespace Restructure

/-!
# Depth-first trees — edges to nodes that are finished later lead back to open nodes

While a search runs, every open node was entered from the one that was opened before it, so the
open nodes spell a path.  A node is finished when all its neighbours have been seen; a neighbour
that is finished later is open at that moment, and the path leads from it down to the node.

* `Led`, `Expanded`, `Returns` — what a search keeps about the nodes to be entered, the open nodes
  and the finished ones, and `Descending` — all of it together.
* `search_returns` — in the order of finishing, an edge to a later node closes a cycle of nodes
  that are finished no later than that one.
* `search_leads` — a path leads to every listed node through nodes that are finished later.
-/

/-- The node that is entered or finished. -/
def Visit.node : Visit → Nat
  | enter n => n
  | finish n => n

/-! ### What a search keeps -/

section

variable (l : Links)

/-- Every node to be entered or finished is a neighbour of the innermost node that is open below
    it. -/
def Led : List Visit → Prop
  | [] => True
  | v :: todo => (∀ p ∈ (pending todo).head?, v.node ∈ l.succ p) ∧ Led todo

/-- When an open node comes to be finished, all its neighbours are known: they were known before,
    or have been entered meanwhile. -/
def Expanded : (known : List Nat) → List Visit → Prop
  | _, [] => True
  | known, .enter n :: todo => Expanded (n :: known) todo
  | known, .finish n :: todo => (∀ m ∈ l.succ n, m < l.size → m ∈ known) ∧ Expanded known todo

/-- Where an edge from a finished node leads on in the order, a path leads back from there, and it
    does not go further. -/
def Returns (finished order : List Nat) : Prop :=
  ∀ ps m qs, order = ps ++ m :: qs → ∀ n ∈ ps, n ∈ finished → m ∈ l.succ n →
    ∃ ns, l.Path m n ns ∧ ∀ x ∈ ns, x = m ∨ x ∈ ps

/-- What holds between two visits of a search about the edges between its nodes. -/
structure Descending (starts : List Nat) (todo : List Visit) (seen finished : List Nat) :
    Prop where
  searching : Searching l.size l.succ starts todo seen finished
  led : Led l todo
  expanded : Expanded l seen todo
  settled : ∀ n ∈ finished, ∀ m ∈ l.succ n, m < l.size → m ∈ seen
  returns : Returns l finished (finished.reverse ++ pending todo)

end

variable {l : Links} {starts ns ps qs seen finished : List Nat} {todo : List Visit} {n m : Nat}

/-- Nodes to be entered next are led to by the node that waits for them. -/
theorem led_map_enter (hns : ∀ n ∈ ns, ∀ p ∈ (pending todo).head?, n ∈ l.succ p) (h : Led l todo) :
    Led l (ns.map .enter ++ todo) := by
  induction ns with
  | nil => exact h
  | cons n ns ih =>
    refine ⟨?_, ih fun k hk => hns k (List.mem_cons_of_mem _ hk)⟩
    -- nodes to be entered open nothing, so the innermost open node is that of `todo`
    show ∀ p ∈ (pending (ns.map .enter ++ todo)).head?, n ∈ l.succ p
    rw [pending_append, pending_map_enter, List.nil_append]
    exact hns n List.mem_cons_self

/-- The open nodes spell a path, the innermost one last. -/
theorem Led.chain (h : Led l todo) : (pending todo).IsChain fun a b => a ∈ l.succ b := by
  induction todo with
  | nil => exact .nil
  | cons v todo ih =>
    cases v with
    | enter n => exact ih h.2
    | finish n => exact List.isChain_cons.2 ⟨h.1, ih h.2⟩

/-- From an open node a path leads to every node that was opened later. -/
theorem path_of_chain (h : (n :: ps ++ m :: qs).IsChain fun a b => a ∈ l.succ b) :
    ∃ ns, l.Path m n ns ∧ ∀ x ∈ ns, x = m ∨ x ∈ n :: ps := by
  induction ps generalizing n with
  | nil =>
    have hn : n ∈ l.succ m := (List.isChain_cons_cons.1 h).1
    exact ⟨[m, n], .cons hn (.single n), by simp⟩
  | cons k ps ih =>
    obtain ⟨hn, htail⟩ := List.isChain_cons_cons.1 h
    obtain ⟨ns, hp, hns⟩ := ih htail
    refine ⟨ns ++ [n], hp.snoc hn, fun x hx => ?_⟩
    rcases List.mem_append.1 hx with hx | hx
    · exact (hns x hx).imp_right (List.mem_cons_of_mem _)
    · exact .inr (by simp [List.mem_singleton.1 hx])

/-- Nodes to be entered count as known. -/
theorem expanded_map_enter :
    Expanded l seen (ns.map .enter ++ todo) ↔ Expanded l (ns.reverse ++ seen) todo := by
  induction ns generalizing seen with
  | nil => rfl
  | cons n ns ih =>
    show Expanded l (n :: seen) (ns.map .enter ++ todo) ↔ _
    rw [ih]
    simp

/-- With more nodes known the others are still expanded. -/
theorem Expanded.mono {known known' : List Nat} (h : Expanded l known todo)
    (hsub : ∀ m < l.size, m ∈ known → m ∈ known') : Expanded l known' todo := by
  induction todo generalizing known known' with
  | nil => trivial
  | cons v todo ih =>
    cases v with
    | enter n =>
      refine ih h fun m hm hmem => ?_
      rcases List.mem_cons.1 hmem with rfl | hmem
      · exact List.mem_cons_self
      · exact List.mem_cons_of_mem _ (hsub m hm hmem)
    | finish n => exact ⟨fun m hm hlt => hsub m hlt (h.1 m hm hlt), ih h.2 hsub⟩

/-! ### The visits -/

namespace Descending

/-- Before the first visit. -/
theorem init (l : Links) (starts : List Nat) : Descending l starts (starts.map .enter) [] [] where
  searching := .init l.size l.succ starts
  led := by
    rw [← List.append_nil (starts.map Visit.enter)]
    exact led_map_enter (by simp [pending]) trivial
  expanded := by
    rw [← List.append_nil (starts.map Visit.enter), expanded_map_enter]
    trivial
  settled := by simp
  returns := by
    intro ps m qs h
    simp at h

/-- The innermost open node is finished. -/
theorem finish (h : Descending l starts (.finish n :: todo) seen finished) :
    Descending l starts todo seen (n :: finished) where
  searching := h.searching.finish
  led := h.led.2
  expanded := h.expanded.2
  settled := by
    intro k hk
    rcases List.mem_cons.1 hk with rfl | hk
    · exact h.expanded.1
    · exact h.settled k hk
  returns := by
    intro ps m qs he k hk hkf hm
    have he : finished.reverse ++ n :: pending todo = ps ++ m :: qs := by simpa using he
    rcases List.mem_cons.1 hkf with rfl | hkf
    · -- the neighbour stands behind the node, so it is open
      have hnew : k ∉ finished.reverse := fun hmem => by
        have hnd := h.searching.nodup
        exact (List.nodup_append.1 hnd).2.2 k hmem k (by simp [pending]) rfl
      rcases cut_cases he with ⟨zs, hzs, _⟩ | ⟨hps, _, _⟩ | ⟨zs, hps, htodo⟩
      · exact absurd (by rw [hzs]; exact List.mem_append_left _ hk) hnew
      · exact absurd (hps ▸ hk) hnew
      · obtain ⟨ns, hp, hns⟩ :=
          path_of_chain (n := k) (by simpa [pending, htodo] using h.led.chain)
        refine ⟨ns, hp, fun x hx => (hns x hx).imp_right fun hmem => ?_⟩
        rw [hps]
        exact List.mem_append_right _ hmem
    · exact h.returns ps m qs he k hk hkf hm

/-- A node that has been entered before, or is no node, is passed over. -/
theorem skip (h : Descending l starts (.enter n :: todo) seen finished)
    (hn : ¬(n < l.size ∧ n ∉ seen)) : Descending l starts todo seen finished where
  searching := h.searching.skip hn
  led := h.led.2
  expanded := by
    have hold : Expanded l (n :: seen) todo := h.expanded
    refine hold.mono fun m hm hmem => ?_
    rcases List.mem_cons.1 hmem with rfl | hmem
    · exact not_not.1 fun hs => hn ⟨hm, hs⟩
    · exact hmem
  settled := h.settled
  returns := h.returns

/-- A node is opened, and its neighbours are entered before it is finished. -/
theorem enter (h : Descending l starts (.enter n :: todo) seen finished)
    (hn : n < l.size ∧ n ∉ seen) :
    Descending l starts
      (((l.succ n).filter (fun m => !(n :: seen).contains m)).map .enter ++ .finish n :: todo)
      (n :: seen) finished where
  searching := h.searching.enter hn
  led := by
    refine led_map_enter (fun k hk p hp => ?_) ⟨h.led.1, h.led.2⟩
    obtain rfl : n = p := by simpa [pending] using hp
    exact (List.mem_filter.1 hk).1
  expanded := by
    have hold : Expanded l (n :: seen) todo := h.expanded
    rw [expanded_map_enter]
    refine ⟨fun m hm _ => ?_, hold.mono fun m _ hmem => List.mem_append_right _ hmem⟩
    by_cases hs : m ∈ n :: seen
    · exact List.mem_append_right _ hs
    · exact List.mem_append_left _ (by simpa [hm] using hs)
  settled k hk m hm hlt := List.mem_cons_of_mem _ (h.settled k hk m hm hlt)
  returns := by
    intro ps m qs he k hk hkf hm
    have he : finished.reverse ++ n :: pending todo = ps ++ m :: qs := by simpa [pending] using he
    have hold := h.returns
    simp only [pending] at hold
    -- what is finished has been seen, and the new node has not
    have hnew : ∀ x ∈ finished, x ≠ n := fun x hx heq =>
      hn.2 (heq ▸ (h.searching.seen_iff x).2 (.inl hx))
    rcases cut_cases he with ⟨zs, hzs, _⟩ | ⟨_, rfl, _⟩ | ⟨zs, hps, htodo⟩
    · exact hold ps m (zs ++ pending todo) (by simp [hzs]) k hk hkf hm
    · exact absurd (h.settled k hkf n hm hn.1) hn.2
    · have hk' : k ∈ finished.reverse ++ zs := by
        have := hnew k hkf
        simpa [hps, this] using hk
      obtain ⟨ns, hp, hns⟩ := hold (finished.reverse ++ zs) m qs (by simp [htodo]) k hk' hkf hm
      refine ⟨ns, hp, fun x hx => (hns x hx).imp_right fun hmem => ?_⟩
      rw [hps]
      rcases List.mem_append.1 hmem with hmem | hmem
      · exact List.mem_append_left _ hmem
      · exact List.mem_append_right _ (List.mem_cons_of_mem _ hmem)

end Descending

/-- Every visit keeps the invariant. -/
theorem descending_kept (l : Links) (starts : List Nat) :
    VisitsKeep l.size l.succ (Descending l starts) where
  finish := .finish
  skip := .skip
  enter := .enter

/-! ### The order of finishing -/

/-- **Retreating edges.** Where an edge leads to a node that is finished later, a path leads from
    that node back to the source of the edge, and all its nodes are finished no later. -/
theorem search_returns (h : search l.size l.succ starts = ps ++ m :: qs) (hn : n ∈ ps)
    (hm : m ∈ l.succ n) : ∃ ns, l.Path m n ns ∧ ∀ x ∈ ns, x = m ∨ x ∈ ps := by
  obtain ⟨seen, finished, hend, heq⟩ := (descending_kept l starts).search (.init l starts)
  have hlist : finished.reverse ++ pending [] = ps ++ m :: qs := by
    rw [pending, List.append_nil, ← heq, h]
  have hmem : n ∈ finished.reverse ++ pending [] := by
    rw [hlist]
    exact List.mem_append_left _ hn
  exact hend.returns ps m qs hlist n hn (by simpa [pending] using hmem) hm

/-- A path leads from the start to every listed node through nodes that are finished later. -/
theorem search_leads {entry : Nat} (h : search l.size l.succ [entry] = ps ++ m :: qs) :
    ∃ ns, l.Path entry m ns ∧ ∀ x ∈ ns, x = m ∨ x ∈ qs := by
  -- induction on the number of nodes that are finished later
  generalize hk : qs.length = k
  induction k using Nat.strongRecOn generalizing ps m qs with
  | ind k ih =>
    rcases (search_searched l.size l.succ [entry]).parented ps m qs h with hs | ⟨v, hv, hm⟩
    · obtain rfl := List.mem_singleton.1 hs
      exact ⟨[m], .single m, by simp⟩
    · obtain ⟨as, bs, rfl⟩ := List.append_of_mem hv
      have hlt : bs.length < k := by
        rw [← hk, List.length_append, List.length_cons]
        omega
      have hlater : search l.size l.succ [entry] = (ps ++ m :: as) ++ v :: bs := by simp [h]
      obtain ⟨ns, hp, hns⟩ := ih bs.length hlt hlater rfl
      refine ⟨ns ++ [m], hp.snoc hm, fun x hx => ?_⟩
      rcases List.mem_append.1 hx with hx | hx
      · refine .inr (List.mem_append_right _ ?_)
        rcases hns x hx with rfl | hx
        · exact List.mem_cons_self
        · exact List.mem_cons_of_mem _ hx
      · exact .inl (List.mem_singleton.1 hx)

end Restructure
