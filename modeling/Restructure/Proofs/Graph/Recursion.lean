import Restructure.Proofs.Graph.Descent

namespace Restructure

/-!
# Recursive search — a search carries out the recursion that visits neighbours in turn

* `Explores` — depth-first search as a recursion: a new node is marked, its neighbours are
  explored one after the other, and then it is finished.
* `Resumes` — the visits that are left to do in a search, read as calls of that recursion; a node
  may be waiting several times, and is passed over when its turn comes too late.
* `explores_search` — a search is what the recursion finishes, in that order.
* `Links.postorder_recursive` — the main statement about `Links.postorder`.
-/

/-! ### The recursion -/

/-- Exploring the nodes of a list in turn, where those in `seen` have been visited before, visits
    up to `seen'` and finishes the nodes of `finished` in that order. -/
inductive Explores (next : Nat → List Nat) :
    (seen nodes seen' finished : List Nat) → Prop
  | done {seen : List Nat} : Explores next seen [] seen []
  | skip {n : Nat} {seen ns seen' fs : List Nat} (h : n ∈ seen)
      (rest : Explores next seen ns seen' fs) : Explores next seen (n :: ns) seen' fs
  | visit {n : Nat} {seen ns seen' seen'' fs gs : List Nat} (h : n ∉ seen)
      (below : Explores next (n :: seen) (next n) seen' fs)
      (rest : Explores next seen' ns seen'' gs) :
      Explores next seen (n :: ns) seen'' (fs ++ n :: gs)

namespace Explores

variable {next : Nat → List Nat} {seen seen₁ seen₂ ns fs gs : List Nat} {n : Nat}

/-- The recursion has one outcome. -/
theorem unique (h : Explores next seen ns seen₁ fs) (h' : Explores next seen ns seen₂ gs) :
    seen₁ = seen₂ ∧ fs = gs := by
  induction h generalizing seen₂ gs with
  | done =>
    cases h'
    exact ⟨rfl, rfl⟩
  | skip hn _ ih =>
    cases h' with
    | skip _ rest => exact ih rest
    | visit hn' => exact absurd hn hn'
  | visit hn _ _ ihBelow ihRest =>
    cases h' with
    | skip hn' => exact absurd hn' hn
    | visit _ below rest =>
      obtain ⟨rfl, rfl⟩ := ihBelow below
      obtain ⟨rfl, rfl⟩ := ihRest rest
      exact ⟨rfl, rfl⟩

/-- What has been visited stays so. -/
theorem seen_subset (h : Explores next seen ns seen₁ fs) : seen ⊆ seen₁ := by
  induction h with
  | done => exact fun _ hx => hx
  | skip _ _ ih => exact ih
  | visit _ _ _ ihBelow ihRest =>
    exact fun _ hx => ihRest (ihBelow (List.mem_cons_of_mem _ hx))

/-- One node, and then the others. -/
theorem cons (h : Explores next seen [n] seen₁ fs) (h' : Explores next seen₁ ns seen₂ gs) :
    Explores next seen (n :: ns) seen₂ (fs ++ gs) := by
  cases h with
  | skip hn rest =>
    cases rest
    exact .skip hn h'
  | visit hn below rest =>
    cases rest
    rw [List.append_assoc]
    exact .visit hn below h'

/-- Nodes that were visited before may be left out of the list from the beginning. -/
theorem of_filter {known : List Nat} (hknown : known ⊆ seen)
    (h : Explores next seen (ns.filter fun m => !known.contains m) seen₁ fs) :
    Explores next seen ns seen₁ fs := by
  induction ns generalizing seen fs with
  | nil => exact h
  | cons n ns ih =>
    by_cases hn : n ∈ known
    · -- what was visited at the beginning is still visited when the node's turn comes
      rw [List.filter_cons_of_neg (by simpa using hn)] at h
      exact .skip (hknown hn) (ih hknown h)
    · rw [List.filter_cons_of_pos (by simpa using hn)] at h
      cases h with
      | skip hs rest => exact .skip hs (ih hknown rest)
      | visit hs below rest =>
        have hsub : known ⊆ _ := fun _ hx => below.seen_subset (List.mem_cons_of_mem _ (hknown hx))
        exact .visit hs below (ih hsub rest)

end Explores

/-! ### What is left to do -/

/-- Carrying on with the visits that are left to do finishes the nodes of a list in that order: a
    node to be entered is explored, one to be finished has been explored. -/
inductive Resumes (next : Nat → List Nat) : List Visit → (seen finished : List Nat) → Prop
  | done {seen : List Nat} : Resumes next [] seen []
  | finish {n : Nat} {todo : List Visit} {seen fs : List Nat} (rest : Resumes next todo seen fs) :
      Resumes next (.finish n :: todo) seen (n :: fs)
  | enter {n : Nat} {todo : List Visit} {seen seen' fs gs : List Nat}
      (first : Explores next seen [n] seen' fs) (rest : Resumes next todo seen' gs) :
      Resumes next (.enter n :: todo) seen (fs ++ gs)

/-- Nodes that are all to be entered are explored in turn. -/
theorem Resumes.split {next : Nat → List Nat} {todo : List Visit} {seen ns gs : List Nat}
    (h : Resumes next (ns.map .enter ++ todo) seen gs) :
    ∃ seen' fs hs, Explores next seen ns seen' fs ∧ Resumes next todo seen' hs ∧ gs = fs ++ hs := by
  induction ns generalizing seen gs with
  | nil => exact ⟨seen, [], gs, .done, h, rfl⟩
  | cons n ns ih =>
    cases h with
    | enter first rest =>
      obtain ⟨seen', fs, hs, hns, htodo, rfl⟩ := ih rest
      exact ⟨seen', _, hs, first.cons hns, htodo, (List.append_assoc _ _ _).symm⟩

/-- Between two visits of a search: what is finished, and then what is left to do, is what the
    recursion finishes from the start; and only nodes of the graph are to be entered. -/
structure Recursing (size : Nat) (next : Nat → List Nat) (starts : List Nat) (todo : List Visit)
    (seen finished : List Nat) : Prop where
  explores : ∀ gs, Resumes next todo seen gs →
    ∃ seen', Explores next [] starts seen' (finished.reverse ++ gs)
  enter_lt : ∀ n, .enter n ∈ todo → n < size

namespace Recursing

variable {size : Nat} {next : Nat → List Nat} {starts : List Nat} {todo : List Visit}
  {seen finished : List Nat} {n : Nat}

/-- Before the first visit. -/
theorem init (hstarts : ∀ n ∈ starts, n < size) :
    Recursing size next starts (starts.map .enter) [] [] where
  explores gs h := by
    rw [← List.append_nil (starts.map Visit.enter)] at h
    obtain ⟨seen', fs, hs, hns, hdone, rfl⟩ := h.split
    cases hdone
    exact ⟨seen', by simpa using hns⟩
  enter_lt n hn := hstarts n (by simpa using hn)

/-- The node at the head has been finished. -/
theorem finish (h : Recursing size next starts (.finish n :: todo) seen finished) :
    Recursing size next starts todo seen (n :: finished) where
  explores gs hgs := by
    obtain ⟨seen', hall⟩ := h.explores _ (.finish hgs)
    exact ⟨seen', by simpa using hall⟩
  enter_lt m hm := h.enter_lt m (List.mem_cons_of_mem _ hm)

/-- The node at the head has been entered before. -/
theorem skip (h : Recursing size next starts (.enter n :: todo) seen finished)
    (hn : ¬(n < size ∧ n ∉ seen)) : Recursing size next starts todo seen finished where
  explores gs hgs := by
    have hseen : n ∈ seen := not_not.1 fun hs => hn ⟨h.enter_lt n List.mem_cons_self, hs⟩
    exact h.explores gs (.enter (.skip hseen .done) hgs)
  enter_lt m hm := h.enter_lt m (List.mem_cons_of_mem _ hm)

/-- The node at the head is entered. -/
theorem enter (hnext : ∀ n m, m ∈ next n → m < size)
    (h : Recursing size next starts (.enter n :: todo) seen finished)
    (hn : n < size ∧ n ∉ seen) :
    Recursing size next starts
      (((next n).filter (fun m => !(n :: seen).contains m)).map .enter ++ .finish n :: todo)
      (n :: seen) finished where
  explores gs hgs := by
    obtain ⟨seen', fs, hs, hbelow, hfinish, rfl⟩ := hgs.split
    cases hfinish with
    | finish rest =>
      -- the neighbours left out now would be passed over when their turn comes
      have hvisit : Explores next seen [n] seen' (fs ++ [n]) :=
        .visit hn.2 (hbelow.of_filter (List.Subset.refl _)) .done
      simpa using h.explores _ (.enter hvisit rest)
  enter_lt m hm := by
    rcases List.mem_append.1 hm with hm | hm
    · obtain ⟨hmem, _⟩ : m ∈ next n ∧ _ := by simpa using hm
      exact hnext n m hmem
    · have hm : Visit.enter m ∈ todo := by simpa using hm
      exact h.enter_lt m (List.mem_cons_of_mem _ hm)

end Recursing

/-- A search that starts and stays within the nodes is what the recursion finishes. -/
theorem explores_search {size : Nat} {next : Nat → List Nat} {starts : List Nat}
    (hnext : ∀ n m, m ∈ next n → m < size) (hstarts : ∀ n ∈ starts, n < size) :
    ∃ seen, Explores next [] starts seen (search size next starts) := by
  have hkept : VisitsKeep size next (Recursing size next starts) := ⟨.finish, .skip, .enter hnext⟩
  obtain ⟨_, finished, hend, heq⟩ := hkept.search (.init hstarts)
  rw [heq]
  simpa using hend.explores [] .done

/-! ### Postorder -/

namespace Links

variable {l : Links} {start u v : Nat}

/-- An edge that does not lead forward in reverse postorder closes a cycle. -/
theorem reachable_of_reversePostorder (hnodup : (l.postorder start).Nodup)
    (hu : u ∈ l.postorder start) (hv : v ∈ l.postorder start) (hsucc : v ∈ l.succ u)
    (h : (l.reversePostorder start).idxOf v ≤ (l.reversePostorder start).idxOf u) :
    l.Reachable v u := by
  obtain ⟨ps, qs, heq⟩ := List.append_of_mem hv
  rw [heq, List.mem_append, List.mem_cons] at hu
  rcases hu with hu | rfl | hu
  · obtain ⟨ns, hp, _⟩ := search_returns heq hu hsucc
    exact ⟨ns, hp⟩
  · exact Reachable.refl l u
  · -- `u` is finished later, so it stands before `v` in reverse postorder
    have hvq : v ∉ qs.reverse := by
      rw [heq] at hnodup
      simpa using (List.nodup_cons.1 (List.nodup_append.1 hnodup).2.1).1
    have hrev : l.reversePostorder start = qs.reverse ++ v :: ps.reverse := by
      simp [reversePostorder, heq]
    have hlt : qs.reverse.idxOf u < qs.reverse.length :=
      List.idxOf_lt_length_iff.2 (List.mem_reverse.2 hu)
    rw [hrev, List.idxOf_append_of_notMem hvq,
      List.idxOf_append_of_mem (List.mem_reverse.2 hu)] at h
    omega

/-- **Recursive postorder.** From a node of the graph, the recursive search comes to an end with
    the postorder and with nothing else. It lists every reachable node once, and an edge from one
    of them that does not lead forward in reverse postorder has a path back. -/
theorem postorder_recursive (l : Links) (hl : ∀ n m, m ∈ l.succ n → m < l.size) (start : Nat) :
    (l.size ≤ start → l.postorder start = []) ∧
      (start < l.size →
        (∀ ns, (∃ seen, Explores l.succ [] [start] seen ns) ↔ ns = l.postorder start) ∧
          (l.postorder start).Nodup ∧
          (∀ n, n ∈ l.postorder start ↔ l.Reachable start n) ∧
          ∀ u v, l.Reachable start u → v ∈ l.succ u →
            (l.reversePostorder start).idxOf v ≤ (l.reversePostorder start).idxOf u →
              l.Reachable v u) := by
  obtain ⟨hnodup, hmem, _⟩ := search_searched l.size l.succ [start]
  refine ⟨fun hs => List.eq_nil_iff_forall_not_mem.2 fun n hn => ?_, fun hs => ?_⟩
  · obtain ⟨s, hstart, hlt⟩ := ((hmem n).1 hn).exists_start
    obtain rfl := List.mem_singleton.1 hstart
    omega
  · have hreach : ∀ n, n ∈ l.postorder start ↔ l.Reachable start n := fun n =>
      (hmem n).trans (found_iff_reachable hl hs n)
    have hstarts : ∀ n ∈ [start], n < l.size := by simpa using hs
    obtain ⟨seen, hsearch⟩ := explores_search hl hstarts
    refine ⟨fun ns => ⟨?_, ?_⟩, hnodup, hreach, fun u v hu hsucc hle => ?_⟩
    · rintro ⟨seen', hns⟩
      exact (hns.unique hsearch).2
    · rintro rfl
      exact ⟨seen, hsearch⟩
    · exact reachable_of_reversePostorder hnodup ((hreach u).2 hu)
        ((hreach v).2 (hu.step hsucc)) hsucc hle

end Links

/-- Node 2 waits twice below node 0, is visited from node 1, and leads back to both. -/
def waiting : Digraph Unit Unit where
  nodes := List.replicate 5 ()
  edges := [⟨0, 1, ()⟩, ⟨0, 2, ()⟩, ⟨0, 2, ()⟩, ⟨0, 3, ()⟩, ⟨1, 2, ()⟩, ⟨1, 3, ()⟩, ⟨2, 0, ()⟩,
    ⟨2, 1, ()⟩, ⟨4, 0, ()⟩]
  closed := by decide

/-- Every node that the entry reaches is listed once, behind those that it was left for. -/
theorem waiting_postorder :
    waiting.links.postorder 5 = [] ∧ waiting.links.postorder 0 = [2, 3, 1, 0] ∧
      (∀ ns, (∃ seen, Explores waiting.links.succ [] [0] seen ns) ↔ ns = [2, 3, 1, 0]) ∧
      ¬waiting.links.Reachable 0 4 ∧ waiting.links.Reachable 1 2 := by
  obtain ⟨hmissing, hnode⟩ :=
    waiting.links.postorder_recursive (fun _ _ => waiting.successors_lt) 5
  obtain ⟨_, hstart⟩ :=
    waiting.links.postorder_recursive (fun _ _ => waiting.successors_lt) 0
  have hlist : waiting.links.postorder 0 = [2, 3, 1, 0] := by decide +kernel
  obtain ⟨hexplores, _, hreach, hback⟩ := hstart (by decide)
  have hrev : waiting.links.reversePostorder 0 = [0, 1, 3, 2] := by
    rw [Links.reversePostorder, hlist]
    rfl
  simp only [hlist, hrev] at hexplores hreach hback
  refine ⟨hmissing (by decide), hlist, hexplores, fun h => ?_, ?_⟩
  · exact absurd ((hreach 4).2 h) (by decide)
  · exact hback 2 1 ((hreach 2).1 (by decide)) (by decide) (by decide)

end Restructure
