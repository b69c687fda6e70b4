import Mathlib.Data.List.Nodup
import Mathlib.Tactic.Tauto
import Restructure.Proofs.Graph.Path

namespace Restructure

/-!
# Depth-first search — what is found, and in which order it is finished

* `Found` — the nodes that the starts lead to without leaving the graph.
* `VisitsKeep.search` — what every visit of a search keeps holds at its end.
* `search_searched` — a search lists exactly these, each once, and finishes every node before a
  node that led to it.
* `Links.postorder_numbered` — numbers in postorder: every reachable node but the first has a
  predecessor with a larger number.
-/

/-- A node below `size` that is a start, or to which a found one leads. -/
inductive Found (size : Nat) (next : Nat → List Nat) (starts : List Nat) : Nat → Prop
  | start {n : Nat} (h : n ∈ starts) (hn : n < size) : Found size next starts n
  | step {n m : Nat} (h : Found size next starts n) (hm : m ∈ next n) (hlt : m < size) :
      Found size next starts m

/-- Nothing is found unless one of the starts is a node. -/
theorem Found.exists_start {size : Nat} {next : Nat → List Nat} {starts : List Nat} {n : Nat}
    (h : Found size next starts n) : ∃ s ∈ starts, s < size := by
  induction h with
  | start hs hlt => exact ⟨_, hs, hlt⟩
  | step _ _ _ ih => exact ih

/-- Every node in the list is a start, or a later one leads to it. -/
def Parented (next : Nat → List Nat) (starts ns : List Nat) : Prop :=
  ∀ ps n qs, ns = ps ++ n :: qs → n ∈ starts ∨ ∃ v ∈ qs, n ∈ next v

/-- Two ways of cutting a list at one of its members: the second one cuts before the first, at the
    same place, or behind it. -/
theorem cut_cases {α : Type} {xs ys ps qs : List α} {a b : α} (h : xs ++ a :: ys = ps ++ b :: qs) :
    (∃ zs, xs = ps ++ b :: zs ∧ qs = zs ++ a :: ys) ∨ (xs = ps ∧ a = b ∧ ys = qs) ∨
      ∃ zs, ps = xs ++ a :: zs ∧ ys = zs ++ b :: qs := by
  rcases List.append_eq_append_iff.1 h with ⟨zs, hps, hys⟩ | ⟨zs, hxs, hqs⟩
  · cases zs with
    | nil => exact .inr (.inl (by simp_all))
    | cons z zs =>
      obtain ⟨rfl, htail⟩ : a = z ∧ ys = zs ++ b :: qs := by simpa using hys
      exact .inr (.inr ⟨zs, hps, htail⟩)
  · cases zs with
    | nil => exact .inr (.inl (by simp_all))
    | cons z zs =>
      obtain ⟨rfl, htail⟩ : b = z ∧ qs = zs ++ a :: ys := by simpa using hqs
      exact .inl ⟨zs, hxs, htail⟩

/-- One more node, which is a start or to which a later one leads. -/
theorem Parented.insert {next : Nat → List Nat} {starts ps qs : List Nat} {n : Nat}
    (h : Parented next starts (ps ++ qs)) (hn : n ∈ starts ∨ ∃ v ∈ qs, n ∈ next v) :
    Parented next starts (ps ++ n :: qs) := by
  intro rs m ts he
  rcases cut_cases he with ⟨zs, rfl, rfl⟩ | ⟨rfl, rfl, rfl⟩ | ⟨zs, rfl, rfl⟩
  · rcases h rs m (zs ++ qs) (by simp) with hs | ⟨v, hv, hm⟩
    · exact .inl hs
    · rcases List.mem_append.1 hv with hv | hv
      · exact .inr ⟨v, List.mem_append_left _ hv, hm⟩
      · exact .inr ⟨v, List.mem_append_right _ (List.mem_cons_of_mem _ hv), hm⟩
  · exact hn
  · exact h (ps ++ zs) m ts (by simp)

/-- What a finished search has listed. -/
structure Searched (size : Nat) (next : Nat → List Nat) (starts ns : List Nat) : Prop where
  nodup : ns.Nodup
  mem_iff : ∀ n, n ∈ ns ↔ Found size next starts n
  parented : Parented next starts ns

/-! ### The state of a search -/

/-- The nodes that have been entered and not finished, the first to be finished first. -/
def pending : List Visit → List Nat
  | [] => []
  | .enter _ :: todo => pending todo
  | .finish n :: todo => n :: pending todo

/-- The pending nodes of two lists of visits. -/
@[simp] theorem pending_append (xs ys : List Visit) :
    pending (xs ++ ys) = pending xs ++ pending ys := by
  induction xs with
  | nil => rfl
  | cons v xs ih => cases v <;> simp [pending, ih]

/-- Nodes that are still to be entered are not pending. -/
@[simp] theorem pending_map_enter (ns : List Nat) : pending (ns.map .enter) = [] := by
  induction ns with
  | nil => rfl
  | cons n ns ih => simpa [pending] using ih

/-- What holds between two visits of a search. -/
structure Searching (size : Nat) (next : Nat → List Nat) (starts : List Nat)
    (todo : List Visit) (seen finished : List Nat) : Prop where
  nodup : (finished.reverse ++ pending todo).Nodup
  seen_iff : ∀ n, n ∈ seen ↔ n ∈ finished ∨ n ∈ pending todo
  sound : ∀ n ∈ seen, Found size next starts n
  sound_enter : ∀ n, .enter n ∈ todo → n < size → Found size next starts n
  starts_covered : ∀ n ∈ starts, n < size → n ∈ seen ∨ .enter n ∈ todo
  next_covered : ∀ n ∈ seen, ∀ m ∈ next n, m < size → m ∈ seen ∨ .enter m ∈ todo
  parented : Parented next starts (finished.reverse ++ pending todo)
  entered : ∀ ps n qs, todo = ps ++ .enter n :: qs → n ∈ starts ∨ ∃ v ∈ pending qs, n ∈ next v

namespace Searching

variable {size : Nat} {next : Nat → List Nat} {starts : List Nat} {todo : List Visit}
  {seen finished : List Nat} {n : Nat}

/-- Before the first visit. -/
theorem init (size : Nat) (next : Nat → List Nat) (starts : List Nat) :
    Searching size next starts (starts.map .enter) [] [] where
  nodup := by simp
  seen_iff := by simp
  sound := by simp
  sound_enter n hn hlt := by
    obtain ⟨m, hm, he⟩ := List.mem_map.1 hn
    obtain rfl : m = n := by simpa using he
    exact .start hm hlt
  starts_covered n hn _ := .inr (List.mem_map_of_mem hn)
  next_covered := by simp
  parented := by
    intro ps n qs h
    simp at h
  entered := by
    intro ps n qs h
    left
    have : Visit.enter n ∈ starts.map .enter := by simp [h]
    simpa using this

/-- The node at the head has been finished. -/
theorem finish (h : Searching size next starts (.finish n :: todo) seen finished) :
    Searching size next starts todo seen (n :: finished) where
  nodup := by simpa [pending] using h.nodup
  seen_iff m := by
    rw [h.seen_iff]
    simp only [pending, List.mem_cons]
    tauto
  sound := h.sound
  sound_enter m hm := h.sound_enter m (List.mem_cons_of_mem _ hm)
  starts_covered m hm hlt := by simpa using h.starts_covered m hm hlt
  next_covered m hm k hk hlt := by simpa using h.next_covered m hm k hk hlt
  parented := by simpa [pending] using h.parented
  entered ps m qs he := h.entered (.finish n :: ps) m qs (by simp [he])

/-- What is still to be entered behind a node that need not be entered. -/
theorem covered_of_skip {m : Nat} (hn : ¬(n < size ∧ n ∉ seen)) (hm : m < size)
    (h : m ∈ seen ∨ .enter m ∈ .enter n :: todo) : m ∈ seen ∨ .enter m ∈ todo := by
  rcases h with hs | hs
  · exact .inl hs
  · rcases List.mem_cons.1 hs with he | hs
    · obtain rfl : m = n := by simpa using he
      exact .inl (not_not.1 fun hmem => hn ⟨hm, hmem⟩)
    · exact .inr hs

/-- The node at the head has been entered before, or is no node. -/
theorem skip (h : Searching size next starts (.enter n :: todo) seen finished)
    (hn : ¬(n < size ∧ n ∉ seen)) : Searching size next starts todo seen finished where
  nodup := h.nodup
  seen_iff := h.seen_iff
  sound := h.sound
  sound_enter m hm := h.sound_enter m (List.mem_cons_of_mem _ hm)
  starts_covered m hm hlt := covered_of_skip hn hlt (h.starts_covered m hm hlt)
  next_covered m hm k hk hlt := covered_of_skip hn hlt (h.next_covered m hm k hk hlt)
  parented := h.parented
  entered ps m qs he := h.entered (.enter n :: ps) m qs (by simp [he])

/-- What is still to be entered when a node is entered and more visits are put in front. -/
theorem covered_of_enter {m : Nat} (visits : List Visit)
    (h : m ∈ seen ∨ .enter m ∈ .enter n :: todo) :
    m ∈ n :: seen ∨ .enter m ∈ visits ++ .finish n :: todo := by
  rcases h with hs | hs
  · exact .inl (List.mem_cons_of_mem _ hs)
  · rcases List.mem_cons.1 hs with he | hs
    · obtain rfl : m = n := by simpa using he
      exact .inl List.mem_cons_self
    · exact .inr (List.mem_append_right _ (List.mem_cons_of_mem _ hs))

/-- The node at the head is entered now. -/
theorem enter (h : Searching size next starts (.enter n :: todo) seen finished)
    (hn : n < size ∧ n ∉ seen) :
    Searching size next starts
      (((next n).filter (fun m => !(n :: seen).contains m)).map .enter ++ .finish n :: todo)
      (n :: seen) finished where
  nodup := by
    have hfresh : n ∉ finished ∧ n ∉ pending todo := by
      have := mt (h.seen_iff n).2 hn.2
      simpa [pending] using this
    have hold := h.nodup
    simp only [pending, pending_append, pending_map_enter, List.nil_append] at hold ⊢
    rw [List.nodup_append] at hold ⊢
    refine ⟨hold.1, List.nodup_cons.2 ⟨hfresh.2, hold.2.1⟩, fun a ha b hb => ?_⟩
    rcases List.mem_cons.1 hb with rfl | hb
    · rintro rfl
      exact hfresh.1 (List.mem_reverse.1 ha)
    · exact hold.2.2 a ha b hb
  seen_iff m := by
    simp only [pending, pending_append, pending_map_enter, List.nil_append, List.mem_cons,
      h.seen_iff m]
    tauto
  sound m hm := by
    rcases List.mem_cons.1 hm with rfl | hm
    · exact h.sound_enter m List.mem_cons_self hn.1
    · exact h.sound m hm
  sound_enter m hm hlt := by
    rcases List.mem_append.1 hm with hm | hm
    · obtain ⟨k, hk, he⟩ := List.mem_map.1 hm
      obtain rfl : k = m := by simpa using he
      exact .step (h.sound_enter n List.mem_cons_self hn.1) (List.mem_filter.1 hk).1 hlt
    · have hm : Visit.enter m ∈ todo := by simpa using hm
      exact h.sound_enter m (List.mem_cons_of_mem _ hm) hlt
  starts_covered m hm hlt := covered_of_enter _ (h.starts_covered m hm hlt)
  next_covered m hm k hk hlt := by
    rcases List.mem_cons.1 hm with rfl | hm
    · by_cases hs : k ∈ m :: seen
      · exact .inl hs
      · refine .inr (List.mem_append_left _ (List.mem_map_of_mem (List.mem_filter.2 ⟨hk, ?_⟩)))
        simpa using hs
    · exact covered_of_enter _ (h.next_covered m hm k hk hlt)
  parented := by
    -- the entered node stands just before the nodes that were pending, one of which led to it
    have hlead : n ∈ starts ∨ ∃ v ∈ pending todo, n ∈ next v := h.entered [] n todo rfl
    have hold : Parented next starts (finished.reverse ++ pending todo) := h.parented
    simpa only [pending, pending_append, pending_map_enter, List.nil_append]
      using hold.insert hlead
  entered ps m qs he := by
    rcases cut_cases he.symm with ⟨zs, _, hqs⟩ | ⟨_, hvisit, _⟩ | ⟨zs, hps, hqs⟩
    · exact h.entered (.enter n :: zs) m qs (by simp [hqs])
    · simp at hvisit
    · have hmem :
          Visit.enter m ∈ ((next n).filter fun k => !(n :: seen).contains k).map .enter := by
        rw [hps]
        exact List.mem_append_right _ List.mem_cons_self
      obtain ⟨k, hk, he⟩ := List.mem_map.1 hmem
      obtain rfl : k = m := by simpa using he
      exact .inr ⟨n, by simp [hqs, pending], (List.mem_filter.1 hk).1⟩

/-- After the last visit. -/
theorem done (h : Searching size next starts [] seen finished) :
    Searched size next starts finished.reverse where
  nodup := by simpa [pending] using h.nodup
  mem_iff n := by
    have hseen : ∀ m, m ∈ seen ↔ m ∈ finished.reverse := fun m => by simp [h.seen_iff, pending]
    rw [← hseen]
    refine ⟨h.sound n, fun hf => ?_⟩
    induction hf with
    | start hs hlt => simpa using h.starts_covered _ hs hlt
    | step _ hm hlt ih => simpa using h.next_covered _ ih _ hm hlt
  parented := by simpa [pending] using h.parented

end Searching

/-! ### Runs -/

/-- The number of nodes below `size` that have not been seen. -/
def unseen (size : Nat) (seen : List Nat) : Nat :=
  ((List.range size).filter fun n => !seen.contains n).length

/-- One node less is unseen when one is entered. -/
theorem unseen_cons_lt {size n : Nat} {seen : List Nat} (hn : n < size) (hs : n ∉ seen) :
    unseen size (n :: seen) < unseen size seen := by
  have hsplit : (List.range size).filter (fun m => !(n :: seen).contains m)
      = ((List.range size).filter fun m => !seen.contains m).filter (· != n) := by
    rw [List.filter_filter]
    refine List.filter_congr fun m _ => ?_
    rw [List.contains_cons, Bool.not_or]
    rfl
  rw [unseen, unseen, hsplit]
  -- `n` itself is no longer among them
  refine List.length_filter_lt_length_iff_exists.2 ⟨n, ?_, by simp⟩
  simpa using ⟨hn, hs⟩

/-- No more nodes are unseen than there are. -/
theorem unseen_le (size : Nat) (seen : List Nat) : unseen size seen ≤ size := by
  have := List.length_filter_le (fun n => !seen.contains n) (List.range size)
  rwa [List.length_range] at this

/-- A property of the states of a search that every visit keeps. -/
structure VisitsKeep (size : Nat) (next : Nat → List Nat)
    (I : List Visit → List Nat → List Nat → Prop) : Prop where
  finish : ∀ {n todo seen finished}, I (.finish n :: todo) seen finished →
    I todo seen (n :: finished)
  skip : ∀ {n todo seen finished}, I (.enter n :: todo) seen finished →
    ¬(n < size ∧ n ∉ seen) → I todo seen finished
  enter : ∀ {n todo seen finished}, I (.enter n :: todo) seen finished → n < size ∧ n ∉ seen →
    I (((next n).filter (fun m => !(n :: seen).contains m)).map .enter ++ .finish n :: todo)
      (n :: seen) finished

namespace VisitsKeep

variable {size : Nat} {next : Nat → List Nat} {I : List Visit → List Nat → List Nat → Prop}
  {todo : List Visit} {seen finished : List Nat}

/-- A step of a search ends with the property, if the search behind it does. -/
theorem searchStep (h : VisitsKeep size next I)
    {onward : List Visit → List Nat → List Nat → List Nat}
    (honward : ∀ {todo' seen' finished'}, I todo' seen' finished' →
      unseen size seen' < unseen size seen →
      ∃ seen'' finished'',
        I [] seen'' finished'' ∧ onward todo' seen' finished' = finished''.reverse)
    (hI : I todo seen finished) :
    ∃ seen' finished', I [] seen' finished' ∧
      searchStep size next onward todo seen finished = finished'.reverse := by
  fun_induction Restructure.searchStep size next onward todo seen finished with
  | case1 => exact ⟨_, _, hI, rfl⟩
  | case2 _ _ _ _ ih => exact ih honward (h.finish hI)
  | case3 _ _ _ _ hn => exact honward (h.enter hI hn) (unseen_cons_lt hn.1 hn.2)
  | case4 _ _ _ _ hn ih => exact ih honward (h.skip hI hn)

/-- A search with room for the unseen nodes goes on until nothing is left to do. -/
theorem searchFrom (h : VisitsKeep size next I) {room : Nat} (hI : I todo seen finished)
    (hroom : unseen size seen ≤ room) :
    ∃ seen' finished', I [] seen' finished' ∧
      searchFrom size next room todo seen finished = finished'.reverse := by
  induction room generalizing todo seen finished with
  | zero =>
    refine h.searchStep (fun _ hlt => ?_) hI
    omega
  | succ room ih => exact h.searchStep (fun h' hlt => ih h' (by omega)) hI

/-- What holds before the first visit and is kept by every visit holds after the last one. -/
theorem search (h : VisitsKeep size next I) {starts : List Nat}
    (hI : I (starts.map .enter) [] []) :
    ∃ seen finished, I [] seen finished ∧ search size next starts = finished.reverse :=
  h.searchFrom hI (unseen_le size [])

end VisitsKeep

/-- Every visit keeps the invariant. -/
theorem searching_kept (size : Nat) (next : Nat → List Nat) (starts : List Nat) :
    VisitsKeep size next (Searching size next starts) where
  finish := .finish
  skip := .skip
  enter := .enter

/-- At the end of the search all that is reached has been finished. -/
theorem search_searched (size : Nat) (next : Nat → List Nat) (starts : List Nat) :
    Searched size next starts (search size next starts) := by
  obtain ⟨_, _, hend, heq⟩ := (searching_kept size next starts).search (.init size next starts)
  rw [heq]
  exact hend.done

/-! ### Numbers in postorder -/

/-- The reachable nodes, numbered by their places in a list: every node but the entry has a
    predecessor with a larger number. -/
structure Numbered (l : Links) (entry : Nat) (order : List Nat) : Prop where
  nodup : order.Nodup
  mem_iff : ∀ n, n ∈ order ↔ l.Reachable entry n
  forward : ∀ n ∈ order, n ≠ entry →
    ∃ v ∈ order, n ∈ l.succ v ∧ order.idxOf n < order.idxOf v

namespace Links

variable {l : Links} {entry : Nat}

/-- A path from a found node leads to found ones. -/
theorem Path.found {starts : List Nat} (hl : ∀ n m, m ∈ l.succ n → m < l.size) {a n : Nat}
    {ns : List Nat} (hp : l.Path a n ns) (ha : Found l.size l.succ starts a) :
    Found l.size l.succ starts n := by
  induction hp with
  | single => exact ha
  | cons hm _ ih => exact ih (.step ha hm (hl _ _ hm))

/-- A search along the edges finds the reachable nodes. -/
theorem found_iff_reachable (hl : ∀ n m, m ∈ l.succ n → m < l.size) (he : entry < l.size)
    (n : Nat) : Found l.size l.succ [entry] n ↔ l.Reachable entry n := by
  refine ⟨fun h => ?_, fun ⟨ns, hp⟩ => ?_⟩
  · induction h with
    | start hs _ =>
      obtain rfl := List.mem_singleton.1 hs
      exact Reachable.refl l _
    | step _ hm _ ih => exact ih.step hm
  · exact hp.found hl (.start (by simp) he)

/-- The postorder numbers the nodes that the entry reaches. -/
theorem postorder_numbered (hl : l.Lawful) (he : entry < l.size) :
    Numbered l entry (l.postorder entry) := by
  obtain ⟨hnodup, hmem, hpar⟩ := search_searched l.size l.succ [entry]
  have hreach := found_iff_reachable (fun _ _ => hl.succ_lt) he
  refine ⟨hnodup, fun n => (hmem n).trans (hreach n), fun n hn hne => ?_⟩
  obtain ⟨ps, qs, heq⟩ := List.append_of_mem hn
  have heq' : search l.size l.succ [entry] = ps ++ n :: qs := heq
  rcases hpar ps n qs heq' with hs | ⟨v, hv, hvn⟩
  · exact absurd (List.mem_singleton.1 hs) hne
  · refine ⟨v, by simp [heq, hv], hvn, ?_⟩
    rw [heq'] at hnodup
    obtain ⟨_, hnq, hdis⟩ := List.nodup_append.1 hnodup
    have hnp : n ∉ ps := fun h => hdis n h n (by simp) rfl
    have hvp : v ∉ ps := fun h => hdis v h v (by simp [hv]) rfl
    have hvn' : n ≠ v := by
      rintro rfl
      exact (List.nodup_cons.1 hnq).1 hv
    rw [heq, List.idxOf_append_of_notMem hnp, List.idxOf_append_of_notMem hvp,
      List.idxOf_cons_self, List.idxOf_cons_ne _ hvn']
    omega

end Links

end Restructure
