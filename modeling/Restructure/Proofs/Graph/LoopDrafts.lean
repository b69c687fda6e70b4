import Mathlib.Data.List.Sort
import Restructure.Graph.Loops
import Restructure.Proofs.Graph.Search

namespace Restructure

/-!
# Loop drafts — what the edges of a graph add up to

The loops of a graph are collected edge by edge: an edge back to a header adds its source to the
latches, and the nodes that lead to it to the body. Here is what this comes to in the end, whichever
edges have been gone through and in whichever order they came.

* `Growing` — the body of a loop while nodes are taken into it.
* `Growing.growFrom` — when nothing is left to take in, it has the nodes that lead to a latch.
* `LoopDraft.Drawn` — a draft that accounts for some edges, and `Drafted` for all drafts of a graph.
* `Drafted.foldl` — going through more edges accounts for these as well.
* `sortByKey_perm`, `pairwise_sortByKey` — sorting; `Links.finishLoops_perm` — the drafts may be
  sorted from any order.
* `loopAt?_eq_some_iff` — bisection finds the loop with a given header, if there is one.
-/

/-! ### Sorting -/

section

variable {α : Type} {key : α → Nat} {as bs : List α} {ns : List Nat}

/-- Sorting by a key is sorting by insertion. -/
theorem sortByKey_eq_insertionSort (key : α → Nat) (as : List α) :
    sortByKey key as = as.insertionSort fun a b => key a ≤ key b := by
  have hinsert : ∀ (a : α) (bs : List α),
      insertByKey key a bs = bs.orderedInsert (fun a b => key a ≤ key b) a := by
    intro a bs
    induction bs with
    | nil => rfl
    | cons b bs ih => rw [insertByKey, List.orderedInsert_cons, ih]
  induction as with
  | nil => rfl
  | cons a as ih =>
    rw [List.insertionSort_cons, ← ih, ← hinsert]
    rfl

/-- Nothing is lost or added. -/
theorem sortByKey_perm (key : α → Nat) (as : List α) : (sortByKey key as).Perm as := by
  rw [sortByKey_eq_insertionSort]
  exact List.perm_insertionSort _ as

/-- The keys ascend. -/
theorem pairwise_sortByKey (key : α → Nat) (as : List α) :
    (sortByKey key as).Pairwise fun a b => key a ≤ key b := by
  have : Std.Total fun a b : α => key a ≤ key b := ⟨fun a b => Nat.le_total (key a) (key b)⟩
  have : IsTrans α fun a b => key a ≤ key b := ⟨fun _ _ _ => Nat.le_trans⟩
  rw [sortByKey_eq_insertionSort]
  exact List.pairwise_insertionSort _ as

/-- With different keys the order is a strict one. -/
theorem pairwise_map_sortByKey (h : (as.map key).Nodup) :
    ((sortByKey key as).map key).Pairwise (· < ·) := by
  have hle : ((sortByKey key as).map key).Pairwise (· ≤ ·) :=
    List.pairwise_map.2 (pairwise_sortByKey key as)
  have hnodup : ((sortByKey key as).map key).Nodup :=
    ((sortByKey_perm key as).map key).nodup_iff.2 h
  exact hle.imp₂ (fun _ _ => Nat.lt_of_le_of_ne) hnodup

/-- Elements with different keys can be sorted in one way only. -/
theorem sortByKey_eq_of_perm (h : as.Perm bs) (hkeys : (as.map key).Nodup) :
    sortByKey key as = sortByKey key bs := by
  refine List.Perm.eq_of_pairwise (fun a b ha hb hab hba => ?_) (pairwise_sortByKey key as)
    (pairwise_sortByKey key bs)
    ((sortByKey_perm key as).trans (h.trans (sortByKey_perm key bs).symm))
  exact List.inj_on_of_nodup_map hkeys ((sortByKey_perm key as).mem_iff.1 ha)
    (h.mem_iff.2 ((sortByKey_perm key bs).mem_iff.1 hb)) (Nat.le_antisymm hab hba)

/-- Numbers without repetitions are sorted into a strictly ascending list. -/
theorem pairwise_sortByKey_id (h : ns.Nodup) : (sortByKey id ns).Pairwise (· < ·) := by
  have hkeys : (ns.map id).Nodup := by rwa [List.map_id]
  simpa only [List.map_id] using pairwise_map_sortByKey hkeys

end

/-! ### Growing a body -/

/-- The node is the header, or leads to a latch without passing the header. -/
def Links.LeadsBack (l : Links) (header : Nat) (latches : List Nat) (n : Nat) : Prop :=
  n = header ∨ ∃ z ∈ latches, ∃ ns, l.Path n z ns ∧ header ∉ ns

namespace Links.LeadsBack

variable {l : Links} {header n m z : Nat} {latches latches' : List Nat}

/-- A latch leads to itself. -/
theorem latch (h : z ∈ latches) : l.LeadsBack header latches z := by
  by_cases hz : z = header
  · exact .inl hz
  · exact .inr ⟨z, h, [z], .single z, by simpa using Ne.symm hz⟩

/-- What leads to a node that leads back leads back as well. -/
theorem of_succ (h : l.LeadsBack header latches n) (hn : n ≠ header) (hm : n ∈ l.succ m) :
    l.LeadsBack header latches m := by
  obtain ⟨z, hz, ns, hp, hns⟩ := h.resolve_left hn
  by_cases hmh : m = header
  · exact .inl hmh
  · exact .inr ⟨z, hz, m :: ns, .cons hm hp, by simp [Ne.symm hmh, hns]⟩

/-- More latches can be reached from more nodes. -/
theorem mono (h : l.LeadsBack header latches n) (hsub : latches ⊆ latches') :
    l.LeadsBack header latches' n := by
  rcases h with rfl | ⟨z, hz, ns, hp, hns⟩
  · exact .inl rfl
  · exact .inr ⟨z, hsub hz, ns, hp, hns⟩

end Links.LeadsBack

/-- The body of a loop while the nodes of `work` still have to be looked at: it holds nothing but
    the header and nodes that lead back to it, and what leads to a node of the body is in the body
    or still to be looked at, unless that node is the header. -/
structure Growing (l : Links) (header : Nat) (latches work body : List Nat) : Prop where
  nodup : body.Nodup
  header_mem : header ∈ body
  sound : ∀ n ∈ body, l.LeadsBack header latches n
  sound_work : ∀ n ∈ work, l.LeadsBack header latches n
  latch_covered : ∀ z ∈ latches, z ∈ body ∨ z ∈ work
  pred_covered : ∀ n ∈ body, n ≠ header → ∀ m ∈ l.pred n, m ∈ body ∨ m ∈ work
  work_lt : ∀ n ∈ work, n < l.size

namespace Growing

variable {l : Links} {header n : Nat} {latches latches' work body : List Nat}

/-- A loop without latches has no other node than its header. -/
theorem ofHeader (l : Links) (header : Nat) : Growing l header [] [] [header] where
  nodup := List.nodup_singleton header
  header_mem := List.mem_singleton_self header
  sound n hn := .inl (List.mem_singleton.1 hn)
  sound_work := by simp
  latch_covered := by simp
  pred_covered n hn hne := absurd (List.mem_singleton.1 hn) hne
  work_lt := by simp

/-- More latches, each of them to be looked at. -/
theorem more (h : Growing l header latches [] body) (hsub : latches ⊆ latches')
    (hwork : ∀ n ∈ work, n ∈ latches' ∧ n < l.size)
    (hlatches : ∀ z ∈ latches', z ∈ latches ∨ z ∈ work) :
    Growing l header latches' work body where
  nodup := h.nodup
  header_mem := h.header_mem
  sound n hn := (h.sound n hn).mono hsub
  sound_work n hn := .latch (hwork n hn).1
  latch_covered z hz := by
    rcases hlatches z hz with hz | hz
    · exact .inl ((h.latch_covered z hz).resolve_right List.not_mem_nil)
    · exact .inr hz
  pred_covered n hn hne m hm :=
    .inl ((h.pred_covered n hn hne m hm).resolve_right List.not_mem_nil)
  work_lt n hn := (hwork n hn).2

/-- The next node is in the body already. -/
theorem skip (h : Growing l header latches (n :: work) body) (hn : ¬(n ≠ header ∧ n ∉ body)) :
    Growing l header latches work body := by
  have hmem : n ∈ body := by
    by_contra hnot
    exact hn ⟨fun heq => hnot (heq ▸ h.header_mem), hnot⟩
  have hcovered : ∀ m, m ∈ body ∨ m ∈ n :: work → m ∈ body ∨ m ∈ work := by
    rintro m (hm | hm)
    · exact .inl hm
    · rcases List.mem_cons.1 hm with rfl | hm
      · exact .inl hmem
      · exact .inr hm
  exact {
    nodup := h.nodup
    header_mem := h.header_mem
    sound := h.sound
    sound_work := fun m hm => h.sound_work m (List.mem_cons_of_mem _ hm)
    latch_covered := fun z hz => hcovered z (h.latch_covered z hz)
    pred_covered := fun k hk hne m hm => hcovered m (h.pred_covered k hk hne m hm)
    work_lt := fun m hm => h.work_lt m (List.mem_cons_of_mem _ hm) }

/-- The next node is taken into the body, and what leads to it is to be looked at. -/
theorem take (hl : l.Lawful) (hpred : ∀ n, ∀ m ∈ l.pred n, m < l.size)
    (h : Growing l header latches (n :: work) body) (hne : n ≠ header) (hn : n ∉ body) :
    Growing l header latches ((l.pred n).reverse ++ work) (n :: body) := by
  have hlead : l.LeadsBack header latches n := h.sound_work n List.mem_cons_self
  have hcovered : ∀ m, m ∈ body ∨ m ∈ n :: work →
      m ∈ n :: body ∨ m ∈ (l.pred n).reverse ++ work := by
    rintro m (hm | hm)
    · exact .inl (List.mem_cons_of_mem n hm)
    · rcases List.mem_cons.1 hm with rfl | hm
      · exact .inl List.mem_cons_self
      · exact .inr (List.mem_append_right _ hm)
  exact {
    nodup := List.nodup_cons.2 ⟨hn, h.nodup⟩
    header_mem := List.mem_cons_of_mem n h.header_mem
    sound := List.forall_mem_cons.2 ⟨hlead, h.sound⟩
    sound_work := fun m hm => by
      rcases List.mem_append.1 hm with hm | hm
      · have hedge := (hl.mem_pred (h.work_lt n List.mem_cons_self)).1 (List.mem_reverse.1 hm)
        exact hlead.of_succ hne hedge
      · exact h.sound_work m (List.mem_cons_of_mem n hm)
    latch_covered := fun z hz => hcovered z (h.latch_covered z hz)
    pred_covered := fun k hk hkh m hm => by
      rcases List.mem_cons.1 hk with rfl | hk
      · exact .inr (List.mem_append_left _ (List.mem_reverse.2 hm))
      · exact hcovered m (h.pred_covered k hk hkh m hm)
    work_lt := fun m hm => by
      rcases List.mem_append.1 hm with hm | hm
      · exact hpred n m (List.mem_reverse.1 hm)
      · exact h.work_lt m (List.mem_cons_of_mem n hm) }

/-- One step of growing comes to a body with nothing left to look at, if the steps behind it do. -/
theorem growStep (hl : l.Lawful) (hpred : ∀ n, ∀ m ∈ l.pred n, m < l.size)
    {onward : List Nat → List Nat → List Nat}
    (honward : ∀ {work' body'}, Growing l header latches work' body' →
      unseen l.size body' < unseen l.size body →
      Growing l header latches [] (onward work' body'))
    (h : Growing l header latches work body) :
    Growing l header latches [] (LoopDraft.growStep header l.pred onward work body) := by
  induction work with
  | nil => exact h
  | cons n work ih =>
    unfold LoopDraft.growStep
    split
    · rename_i hn
      have hlt : n < l.size := h.work_lt n List.mem_cons_self
      exact honward (h.take hl hpred hn.1 hn.2) (unseen_cons_lt hlt hn.2)
    · rename_i hn
      exact ih (h.skip hn)

/-- With room for all nodes that are not in the body, growing goes on until nothing is left to look
    at. -/
theorem growFrom (hl : l.Lawful) (hpred : ∀ n, ∀ m ∈ l.pred n, m < l.size) {room : Nat}
    (h : Growing l header latches work body) (hroom : unseen l.size body ≤ room) :
    Growing l header latches [] (LoopDraft.growFrom header l.pred room work body) := by
  induction room generalizing work body with
  | zero =>
    refine h.growStep hl hpred fun _ hlt => ?_
    omega
  | succ room ih => exact h.growStep hl hpred fun h' hlt => ih h' (by omega)

/-- When nothing is left to look at, the body has the header and the nodes that lead back. -/
theorem mem_iff (hl : l.Lawful)
    (h : Growing l header latches [] body) : n ∈ body ↔ l.LeadsBack header latches n := by
  refine ⟨h.sound n, ?_⟩
  rintro (rfl | ⟨z, hz, ns, hp, hns⟩)
  · exact h.header_mem
  · induction hp with
    | single n => exact (h.latch_covered n hz).resolve_right List.not_mem_nil
    | @cons n m z ns hm tail ih =>
      have htail : header ∉ ns := fun hmem => hns (List.mem_cons_of_mem n hmem)
      have hne : m ≠ header := fun heq => htail (heq ▸ tail.source_mem)
      have hedge : n ∈ l.pred m := (hl.mem_pred (hl.succ_lt hm)).2 hm
      exact (h.pred_covered m (ih hz htail) hne n hedge).resolve_right List.not_mem_nil

end Growing

/-! ### Drafts and the edges they account for -/

/-- The draft accounts for those of the edges that lead to its header: their sources are its
    latches, each once, and its body has what leads back to them. -/
structure LoopDraft.Drawn (d : LoopDraft) (l : Links) (edges : List (Nat × Nat)) : Prop where
  mem_latches : ∀ n, n ∈ d.latches ↔ (n, d.header) ∈ edges
  latches_nodup : d.latches.Nodup
  grown : Growing l d.header d.latches [] d.body

namespace LoopDraft

variable {l : Links} {d : LoopDraft} {edges : List (Nat × Nat)} {header n : Nat}

/-- A new draft has its header. -/
@[simp] theorem header_ofHeader : (ofHeader header).header = header := rfl

/-- Taking in a latch keeps the header. -/
@[simp] theorem header_takeIn : (d.takeIn l n).header = d.header := rfl

/-- A latch is listed as soon as an edge from it has been taken in. -/
theorem mem_latches_takeIn {z : Nat} :
    z ∈ (d.takeIn l n).latches ↔ z ∈ d.latches ∨ z = n := by
  unfold takeIn
  by_cases hn : n ∈ d.latches
  · simp only [List.contains_iff_mem, hn, if_true]
    exact ⟨.inl, fun h => h.elim id fun heq => heq ▸ hn⟩
  · simp [hn]

/-- A new draft accounts for edges to other nodes. -/
theorem Drawn.ofHeader (h : ∀ n, (n, header) ∉ edges) : (ofHeader header).Drawn l edges where
  mem_latches n := iff_of_false List.not_mem_nil (h n)
  latches_nodup := List.nodup_nil
  grown := .ofHeader l header

/-- An edge to another node does not matter. -/
theorem Drawn.snoc_of_ne (h : d.Drawn l edges) (hne : d.header ≠ header) :
    d.Drawn l (edges ++ [(n, header)]) where
  mem_latches k := by simp [h.mem_latches k, hne]
  latches_nodup := h.latches_nodup
  grown := h.grown

/-- An edge to the header is accounted for when it has been taken in. -/
theorem Drawn.takeIn (hl : l.Lawful) (hpred : ∀ n, ∀ m ∈ l.pred n, m < l.size)
    (h : d.Drawn l edges) (hn : n < l.size) :
    (d.takeIn l n).Drawn l (edges ++ [(n, d.header)]) where
  mem_latches z := by
    rw [mem_latches_takeIn, h.mem_latches]
    simp
  latches_nodup := by
    unfold LoopDraft.takeIn
    by_cases hmem : n ∈ d.latches
    · simpa only [List.contains_iff_mem, hmem, if_true] using h.latches_nodup
    · simpa [List.contains_iff_mem, hmem, List.nodup_append] using
        ⟨h.latches_nodup, fun z hz heq => hmem (heq ▸ hz)⟩
  grown := by
    have hmore : Growing l d.header (d.takeIn l n).latches [n] d.body := by
      refine h.grown.more (fun z hz => mem_latches_takeIn.2 (.inl hz)) (fun z hz => ?_)
        fun z hz => ?_
      · obtain rfl := List.mem_singleton.1 hz
        exact ⟨mem_latches_takeIn.2 (.inr rfl), hn⟩
      · exact (mem_latches_takeIn.1 hz).imp_right fun heq => List.mem_singleton.2 heq
    exact hmore.growFrom hl hpred (unseen_le l.size d.body)

/-! ### The draft with a given header -/

variable {f : LoopDraft → LoopDraft} {ds : List LoopDraft} {h : Nat}

/-- Changing a draft puts no other header into the list than the draft's. -/
theorem mem_headers_update (hf : ∀ d, (f d).header = d.header) :
    h ∈ (update f header ds).map LoopDraft.header ↔ h ∈ ds.map LoopDraft.header ∨ h = header := by
  induction ds with
  | nil => simp [update, hf]
  | cons d ds ih =>
    unfold update
    split
    · rename_i hd
      simp only [List.map_cons, List.mem_cons, hf]
      constructor
      · exact .inl
      · rintro (hmem | rfl)
        · exact hmem
        · exact .inl hd.symm
    · simp only [List.map_cons, List.mem_cons, ih, or_assoc]

/-- The headers stay different. -/
theorem nodup_headers_update (hf : ∀ d, (f d).header = d.header)
    (hds : (ds.map LoopDraft.header).Nodup) :
    ((update f header ds).map LoopDraft.header).Nodup := by
  induction ds with
  | nil => simp [update]
  | cons d ds ih =>
    obtain ⟨hd, hds⟩ := List.nodup_cons.1 hds
    unfold update
    split
    · simpa [hf] using ⟨by simpa using hd, hds⟩
    · rename_i hne
      refine List.nodup_cons.2 ⟨fun hmem => ?_, ih hds⟩
      rcases (mem_headers_update hf).1 hmem with hmem | heq
      · exact hd hmem
      · exact hne heq

/-- In the changed list stand the other drafts and the changed one, which is a new one if there was
    none with its header. -/
theorem forall_mem_update {P : LoopDraft → Prop} (hds : (ds.map LoopDraft.header).Nodup)
    (hnew : header ∉ ds.map LoopDraft.header → P (f (ofHeader header)))
    (hchanged : ∀ d ∈ ds, d.header = header → P (f d))
    (hother : ∀ d ∈ ds, d.header ≠ header → P d) : ∀ d ∈ update f header ds, P d := by
  induction ds with
  | nil => simpa [update] using hnew
  | cons d ds ih =>
    obtain ⟨hd, hds⟩ := List.nodup_cons.1 hds
    obtain ⟨hchange, hchanged⟩ := List.forall_mem_cons.1 hchanged
    obtain ⟨hkeep, hother⟩ := List.forall_mem_cons.1 hother
    unfold update
    split
    · rename_i heq
      -- no draft behind has the same header
      refine List.forall_mem_cons.2 ⟨hchange heq, fun d' hd' => hother d' hd' fun heq' => hd ?_⟩
      exact heq.trans heq'.symm ▸ List.mem_map_of_mem hd'
    · rename_i hne
      refine List.forall_mem_cons.2 ⟨hkeep hne, ih hds (fun hmem => hnew ?_) hchanged hother⟩
      simpa [List.mem_cons, Ne.symm hne] using hmem

end LoopDraft

/-! ### Going through the edges -/

/-- The drafts account for the edges: there is one for each node that one of the edges leads to. -/
structure Drafted (l : Links) (edges : List (Nat × Nat)) (ds : List LoopDraft) : Prop where
  headers_nodup : (ds.map (·.header)).Nodup
  mem_headers : ∀ h, h ∈ ds.map (·.header) ↔ ∃ n, (n, h) ∈ edges
  drawn : ∀ d ∈ ds, d.Drawn l edges

namespace Drafted

variable {l : Links} {edges edges' : List (Nat × Nat)} {ds : List LoopDraft} {n h : Nat}

/-- Without back edges there are no drafts. -/
theorem nil (l : Links) : Drafted l [] [] where
  headers_nodup := List.nodup_nil
  mem_headers := by simp
  drawn := by simp

/-- One more edge is taken in. -/
theorem snoc (hl : l.Lawful) (hpred : ∀ n, ∀ m ∈ l.pred n, m < l.size)
    (hd : Drafted l edges ds) (hn : n < l.size) :
    Drafted l (edges ++ [(n, h)]) (LoopDraft.update (.takeIn l n) h ds) where
  headers_nodup := LoopDraft.nodup_headers_update (fun _ => rfl) hd.headers_nodup
  mem_headers k := by
    have hf : ∀ d, (LoopDraft.takeIn l n d).header = d.header := fun _ => rfl
    rw [LoopDraft.mem_headers_update hf, hd.mem_headers k]
    simp [exists_or]
  drawn := by
    refine LoopDraft.forall_mem_update hd.headers_nodup (fun hnew => ?_) (fun d hmem heq => ?_)
      fun d hmem hne => (hd.drawn d hmem).snoc_of_ne hne
    · have hnone : ∀ k, (k, h) ∉ edges := fun k hk => hnew ((hd.mem_headers h).2 ⟨k, hk⟩)
      exact (LoopDraft.Drawn.ofHeader hnone).takeIn hl hpred hn
    · exact heq ▸ (hd.drawn d hmem).takeIn hl hpred hn

/-- All edges of a list are taken in, one after the other. -/
theorem foldl (hl : l.Lawful) (hpred : ∀ n, ∀ m ∈ l.pred n, m < l.size)
    (hd : Drafted l edges ds) (hlt : ∀ e ∈ edges', e.1 < l.size) :
    Drafted l (edges ++ edges')
      (edges'.foldl (fun ds e => LoopDraft.update (.takeIn l e.1) e.2 ds) ds) := by
  induction edges' generalizing edges ds with
  | nil => simpa using hd
  | cons e edges' ih =>
    obtain ⟨he, hlt⟩ := List.forall_mem_cons.1 hlt
    have hnext := hd.snoc hl hpred he (h := e.2)
    simpa using ih hnext hlt

end Drafted

namespace Links

variable (l : Links) (t : DominatorTree) {n h : Nat}

/-- The edges that lead back, in the order in which they are gone through. -/
def backEdges : List (Nat × Nat) :=
  ((List.range l.size).filter t.isReachable).flatMap fun n =>
    ((l.succ n).filter (t.dominates · n)).map fun h => (n, h)

/-- A back edge leads from a reachable node to one of its dominators. -/
theorem mem_backEdges :
    (n, h) ∈ l.backEdges t ↔
      n < l.size ∧ t.isReachable n = true ∧ h ∈ l.succ n ∧ t.dominates h n = true := by
  simp [backEdges, and_assoc]

/-- The drafts of a graph come from its edges that lead back, taken in one by one. -/
theorem loopDrafts_eq_foldl :
    l.loopDrafts t
      = (l.backEdges t).foldl (fun ds e => LoopDraft.update (.takeIn l e.1) e.2 ds) [] := by
  unfold loopDrafts backEdges takeInEdges
  rw [List.foldl_flatMap, List.foldl_filter]
  simp only [List.foldl_map, List.foldl_filter]

/-- The drafts of a graph account for its edges that lead back. -/
theorem loopDrafts_drafted (hl : l.Lawful) (hpred : ∀ n, ∀ m ∈ l.pred n, m < l.size) :
    Drafted l (l.backEdges t) (l.loopDrafts t) := by
  rw [loopDrafts_eq_foldl]
  have hlt : ∀ e ∈ l.backEdges t, e.1 < l.size := fun e he => ((l.mem_backEdges t).1 he).1
  simpa using (Drafted.nil l).foldl hl hpred hlt

/-! ### Finished drafts -/

variable {l t} {ds ds' : List LoopDraft} {o : Loop}

/-- A loop in the list is that of a draft. -/
theorem mem_finishLoops : o ∈ l.finishLoops ds ↔ ∃ d ∈ ds, l.finishLoop d = o := by
  rw [finishLoops, (sortByKey_perm _ _).mem_iff, List.mem_map]

/-- The headers of the loops are those of the drafts. -/
theorem mem_map_header_finishLoops :
    h ∈ (l.finishLoops ds).map (·.header) ↔ h ∈ ds.map (·.header) := by
  simp only [List.mem_map, mem_finishLoops]
  constructor
  · rintro ⟨_, ⟨d, hd, rfl⟩, rfl⟩
    exact ⟨d, hd, rfl⟩
  · rintro ⟨d, hd, rfl⟩
    exact ⟨_, ⟨d, hd, rfl⟩, rfl⟩

/-- The loops stand by ascending headers. -/
theorem pairwise_header_finishLoops (hds : (ds.map (·.header)).Nodup) :
    ((l.finishLoops ds).map (·.header)).Pairwise (· < ·) := by
  refine pairwise_map_sortByKey ?_
  rwa [List.map_map]

/-- The order in which the drafts stand does not matter. -/
theorem finishLoops_perm (hds : (ds.map (·.header)).Nodup) (hperm : ds.Perm ds') :
    l.finishLoops ds = l.finishLoops ds' := by
  refine sortByKey_eq_of_perm (hperm.map l.finishLoop) ?_
  rwa [List.map_map]

end Links

/-! ### Looking loops up -/

section

variable {os : List Loop} {header low high : Nat} {h : high ≤ os.length} {o : Loop}

/-- What bisection finds is a loop between the bounds, and has the header that was asked for. -/
theorem bisectLoops_eq_some (hfound : bisectLoops os header low high h = some o) :
    o ∈ os ∧ o.header = header := by
  fun_induction bisectLoops os header low high h with
  | case1 low high h hlt middle hmiddle hless ih => exact ih hfound
  | case2 low high h hlt middle hmiddle hless hgreater ih => exact ih hfound
  | case3 low high h hlt middle hmiddle hless hgreater =>
    obtain rfl := Option.some.inj hfound
    refine ⟨List.getElem_mem hmiddle, ?_⟩
    omega
  | case4 => cases hfound

/-- Among loops with ascending headers, bisection comes upon every loop between the bounds. -/
theorem bisectLoops_complete (hos : (os.map (·.header)).Pairwise (· < ·)) {i : Nat}
    (hi : i < os.length) (hlow : low ≤ i) (hhigh : i < high) (hheader : os[i].header = header) :
    bisectLoops os header low high h = some os[i] := by
  have hlt : ∀ j k, (hj : j < os.length) → (hk : k < os.length) → j < k →
      os[j].header < os[k].header := fun j k hj hk hjk =>
    List.pairwise_iff_getElem.1 (List.pairwise_map.1 hos) j k hj hk hjk
  fun_induction bisectLoops os header low high h with
  | case1 low high h hlow' middle hmiddle hless ih =>
    refine ih hlow ?_
    by_contra hnot
    -- at the middle or behind it the headers are larger
    rcases Nat.lt_or_eq_of_le (Nat.le_of_not_lt hnot) with hi' | rfl
    · have := hlt middle i hmiddle hi hi'
      omega
    · omega
  | case2 low high h hlow' middle hmiddle hless hgreater ih =>
    refine ih ?_ hhigh
    by_contra hnot
    -- at the middle or before it they are smaller
    rcases Nat.lt_or_eq_of_le (show i ≤ middle by omega) with hi' | rfl
    · have := hlt i middle hi hmiddle hi'
      omega
    · omega
  | case3 low high h hlow' middle hmiddle hless hgreater =>
    rcases Nat.lt_trichotomy i middle with hi' | rfl | hi'
    · have := hlt i middle hi hmiddle hi'
      omega
    · rfl
    · have := hlt middle i hmiddle hi hi'
      omega
  | case4 low high h hnone => omega

/-- A loop that is found is one of the loops, and has the header that was asked for. -/
theorem loopAt?_eq_some (hfound : loopAt? os header = some o) : o ∈ os ∧ o.header = header :=
  bisectLoops_eq_some hfound

/-- Among loops with ascending headers, the one with a given header is found. -/
theorem loopAt?_eq_some_iff (hos : (os.map (·.header)).Pairwise (· < ·)) :
    loopAt? os header = some o ↔ o ∈ os ∧ o.header = header := by
  refine ⟨loopAt?_eq_some, fun ⟨hmem, hheader⟩ => ?_⟩
  obtain ⟨i, hi, rfl⟩ := List.getElem_of_mem hmem
  exact bisectLoops_complete hos hi (Nat.zero_le i) hi hheader

end

end Restructure
