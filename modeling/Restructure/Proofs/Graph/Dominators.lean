import Mathlib.Algebra.Order.BigOperators.Group.List
import Mathlib.Algebra.Order.Ring.Nat
import Mathlib.Data.List.Perm.Subperm
import Restructure.Proofs.Graph.Improving

namespace Restructure

/-!
# Dominator trees — the computed tree is the dominance relation

Every sweep that changes something moves a dominator up, so the sweeps end; when a sweep changes
nothing any more, only true dominators lie above a node.

* `Links.improve_improving`, `Links.foldl_improve_improving`, `Links.settle_improving` — what one
  step, one sweep and all sweeps keep.
* `Links.Settled` — a table that one more sweep leaves alone, and what lies above a node in it.
* `DominatorTree.Exact` — a tree that tells dominance, reachability and immediate dominators.
* `Links.dominators_exact` — the dominators of a lawful graph from each of its nodes.
* `Digraph.dominators_exact_and_stable` — every digraph, whatever the bounds.
-/

namespace Links

variable {l : Links} {entry : Nat} {order : List Nat} {idom : Array (Option Nat)} {room : Nat}

/-! ### How far dominators have moved -/

/-- The place of a dominator, counted from 1; a missing one has place 0. -/
def placeOf (order : List Nat) : Option Nat → Nat
  | none => 0
  | some d => order.idxOf d + 1

/-- The places of all dominators together. -/
def progress (l : Links) (order : List Nat) (t : DominatorTree) : Nat :=
  ((List.range l.size).map fun n => placeOf order (t.immediate? n)).sum

/-- No more nodes are numbered than there are. -/
theorem order_length_le (hl : l.Lawful) (he : entry < l.size) (hnum : Numbered l entry order) :
    order.length ≤ l.size := by
  have hsub : order ⊆ List.range l.size := fun n hn =>
    List.mem_range.2 (((hnum.mem_iff n).1 hn).lt hl he)
  simpa using (hnum.nodup.subperm hsub).length_le

/-- The passes can make so much progress and no more. -/
theorem progress_le {t : DominatorTree} (ht : t.Rising order) (hlen : order.length ≤ l.size) :
    l.progress order t ≤ l.size * l.size := by
  have hplace : ∀ n, placeOf order (t.immediate? n) ≤ l.size := fun n => by
    cases hd : t.immediate? n with
    | none => exact Nat.zero_le _
    | some d =>
      have := List.idxOf_lt_length_of_mem (ht.mem (ht.rises hd).2)
      simp only [placeOf]
      omega
  have := List.sum_le_card_nsmul ((List.range l.size).map fun n => placeOf order (t.immediate? n))
    l.size (by simpa using fun n _ => hplace n)
  simpa [progress] using this

/-! ### One improvement -/

/-- The next node of a sweep has a meeting point, or it is the entry. -/
theorem exists_improvement (hl : l.Lawful) {t : DominatorTree} (hnum : Numbered l t.entry order)
    {n : Nat} (hn : n ∈ order) (hne : n ≠ t.entry) (h : Improving l order t (order.idxOf n + 1))
    (hroom : 2 * order.idxOf t.entry ≤ room) :
    ∃ g, l.meetPredecessors (fun n => order.idxOf n) room t.idom n = some g ∧
      Improvement l order t n g := by
  obtain ⟨v, hvo, hvn, hlt⟩ := hnum.forward n hn hne
  have hvr := h.swept v hvo (by omega)
  have hsize : n < l.size := hl.succ_lt hvn
  have hvp := (hl.mem_pred hsize).2 hvn
  obtain ⟨g, hg, h₁, h₂, h₃⟩ :=
    DominatorTree.meetPredecessors_spec hnum h.rising hroom hvp hvr
  exact ⟨g, hg, hn, h.size_eq ▸ hsize, hne, h₁, h₂, h₃, v, hvo, hvn, hvp, hvr, hlt⟩

/-- Two bounds that are large enough give the same meeting point. -/
theorem meetPredecessors_room (hl : l.Lawful) {t : DominatorTree} (hnum : Numbered l t.entry order)
    {n room' : Nat} (hn : n ∈ order) (hne : n ≠ t.entry)
    (h : Improving l order t (order.idxOf n + 1)) (hroom : 2 * order.idxOf t.entry ≤ room)
    (hroom' : 2 * order.idxOf t.entry ≤ room') :
    l.meetPredecessors (fun n => order.idxOf n) room t.idom n
      = l.meetPredecessors (fun n => order.idxOf n) room' t.idom n := by
  obtain ⟨g, hg, hz⟩ := exists_improvement hl hnum hn hne h hroom
  obtain ⟨g', hg', hz'⟩ := exists_improvement hl hnum hn hne h hroom'
  rw [hg, hg']
  rcases (hz.nearest g' hz'.above).eq_or_lt h.rising with rfl | h₁
  · rfl
  · rcases (hz'.nearest g hz.above).eq_or_lt h.rising with rfl | h₂
    · rfl
    · omega

/-- A tree is its entry and its table. -/
theorem eq_of_idom {t t' : DominatorTree} (he : t'.entry = t.entry) (hi : t'.idom = t.idom) :
    t' = t := by
  cases t
  cases t'
  simp_all

/-- Writing the dominator that is there already changes nothing. -/
theorem idom_put_of_immediate {t : DominatorTree} {n g : Nat} (hlt : n < t.idom.size)
    (hg : t.immediate? n = some g) : (t.put n g).idom = t.idom := by
  simp only [DominatorTree.immediate?] at hg
  split at hg
  · cases hg
  · refine Array.ext_getElem? fun m => ?_
    by_cases hm : n = m
    · subst hm
      simpa [DominatorTree.put, hlt] using hg.symm
    · simp [DominatorTree.put, hm]

/-- Any other dominator is moved up. -/
theorem progress_lt_put {t : DominatorTree} {n g : Nat} (hz : Improvement l order t n g)
    (h : Improving l order t (order.idxOf n + 1)) (hg : t.immediate? n ≠ some g) :
    l.progress order t < l.progress order (t.put n g) := by
  have hput := DominatorTree.immediate?_put (g := g) hz.lt hz.ne_entry
  have hlt : placeOf order (t.immediate? n) < placeOf order (some g) := by
    cases hd : t.immediate? n with
    | none => exact Nat.succ_pos _
    | some d =>
      rcases (hz.above_old h hd).eq_or_lt h.rising with rfl | hlt
      · exact absurd hd hg
      · exact Nat.succ_lt_succ hlt
  -- no place goes down, and that of this node goes up
  refine List.sum_lt_sum _ _ (fun m _ => ?_) ⟨n, ?_, ?_⟩
  · rw [hput]
    split
    · rename_i hm
      rw [hm]
      exact Nat.le_of_lt hlt
    · exact Nat.le_refl _
  · exact List.mem_range.2 (h.size_eq ▸ hz.lt)
  · simpa [hput] using hlt

/-- What one improvement does: it keeps the invariant, does not depend on the bound, and moves a
    dominator up if it changes anything. -/
theorem improve_improving (hl : l.Lawful) {t : DominatorTree} (hnum : Numbered l t.entry order)
    {n : Nat} (hn : n ∈ order) (h : Improving l order t (order.idxOf n + 1))
    (hroom : 2 * order.idxOf t.entry ≤ room) :
    ∃ t' : DominatorTree, t'.entry = t.entry ∧
      t'.idom = l.improve t.entry (fun n => order.idxOf n) room t.idom n ∧
      Improving l order t' (order.idxOf n) ∧
      (t'.idom = t.idom ∨ l.progress order t < l.progress order t') ∧
      ∀ room', 2 * order.idxOf t.entry ≤ room' →
        l.improve t.entry (fun n => order.idxOf n) room' t.idom n = t'.idom := by
  by_cases hne : n = t.entry
  · refine ⟨t, rfl, by simp [improve, hne], ?_, .inl rfl, fun _ _ => by simp [improve, hne]⟩
    rw [hne] at h ⊢
    exact h.skip_entry rfl
  · obtain ⟨g, hg, hz⟩ := exists_improvement hl hnum hn hne h hroom
    refine ⟨t.put n g, rfl, by simp [improve, hne, hg, DominatorTree.put],
      hz.put_improving hl h, ?_, fun room' hroom' => ?_⟩
    · by_cases hsame : t.immediate? n = some g
      · exact .inl (idom_put_of_immediate hz.lt hsame)
      · exact .inr (progress_lt_put hz h hsame)
    · rw [improve, if_neg hne, meetPredecessors_room hl hnum hn hne h hroom' hroom, hg]
      rfl

/-! ### One sweep -/

/-- The rest of a sweep: it ends at the last node, and if it changes nothing then none of its
    improvements does. -/
theorem foldl_improve_improving (hl : l.Lawful) (hnum : Numbered l entry order)
    (hroom : 2 * order.idxOf entry ≤ room) (rest done : List Nat)
    (hrest : order.reverse = done ++ rest) {t : DominatorTree} (ht : t.entry = entry)
    (h : Improving l order t rest.length) :
    ∃ t' : DominatorTree, t'.entry = entry ∧
      t'.idom = rest.foldl (l.improve entry (fun n => order.idxOf n) room) t.idom ∧
      Improving l order t' 0 ∧
      ((t'.idom = t.idom ∧
          ∀ n ∈ rest, l.improve entry (fun n => order.idxOf n) room t.idom n = t.idom) ∨
        l.progress order t < l.progress order t') ∧
      ∀ room', 2 * order.idxOf entry ≤ room' →
        rest.foldl (l.improve entry (fun n => order.idxOf n) room') t.idom = t'.idom := by
  induction rest generalizing done t with
  | nil => exact ⟨t, ht, rfl, h, .inl ⟨rfl, by simp⟩, fun _ _ => rfl⟩
  | cons n rest ih =>
    subst ht
    -- a sweep goes from the entry down, so the number of a node counts those still to come
    have horder : order = rest.reverse ++ n :: done.reverse := by
      rw [← List.reverse_reverse order, hrest]
      simp
    have hidx : order.idxOf n = rest.length := by
      have hnot : n ∉ rest.reverse := fun hmem => by
        have hnd := hnum.nodup
        rw [horder] at hnd
        exact (List.nodup_append.1 hnd).2.2 n hmem n (by simp) rfl
      rw [horder, List.idxOf_append_of_notMem hnot]
      simp
    have hn : n ∈ order := by
      rw [horder]
      simp
    obtain ⟨t₁, he₁, hi₁, h₁, hp₁, hr₁⟩ :=
      improve_improving hl hnum hn (by rw [hidx]; exact h) hroom
    rw [hidx] at h₁
    obtain ⟨t₂, he₂, hi₂, h₂, hp₂, hr₂⟩ := ih (done ++ [n]) (by simp [hrest]) he₁ h₁
    refine ⟨t₂, he₂, by rw [hi₂, hi₁, List.foldl_cons], h₂, ?_, fun room' hroom' => ?_⟩
    -- the places never go down, so nothing has moved only if no improvement moved anything
    · rcases hp₁ with hp₁ | hp₁
      · obtain rfl : t₁ = t := eq_of_idom he₁ hp₁
        rcases hp₂ with ⟨hp₂, hall⟩ | hp₂
        · refine .inl ⟨hp₂, fun m hm => ?_⟩
          rcases List.mem_cons.1 hm with rfl | hm
          · exact hi₁.symm
          · exact hall m hm
        · exact .inr hp₂
      · right
        rcases hp₂ with ⟨hp₂, _⟩ | hp₂
        · obtain rfl : t₂ = t₁ := eq_of_idom (he₂.trans he₁.symm) hp₂
          exact hp₁
        · omega
    · rw [List.foldl_cons, hr₁ room' hroom', hr₂ room' hroom']

/-! ### All sweeps -/

/-- A table that one more sweep leaves alone. -/
structure Settled (l : Links) (order : List Nat) (room : Nat) (t : DominatorTree) : Prop where
  improving : Improving l order t 0
  stable : ∀ n ∈ order, l.improve t.entry (fun n => order.idxOf n) room t.idom n = t.idom

/-- Sweeping ends in a settled table, whatever the bounds, if they are large enough. -/
theorem settle_improving (hl : l.Lawful) (he : entry < l.size) (hnum : Numbered l entry order)
    (hroom : 2 * order.idxOf entry ≤ room) (fuel : Nat) {t : DominatorTree} (ht : t.entry = entry)
    (h : Improving l order t order.length)
    (hfuel : l.size * l.size < l.progress order t + fuel) :
    ∃ t' : DominatorTree, t'.entry = entry ∧
      t'.idom = l.settle entry (fun n => order.idxOf n) room order.reverse fuel t.idom ∧
      Settled l order room t' ∧
      ∀ room' fuel', 2 * order.idxOf entry ≤ room' →
        l.size * l.size < l.progress order t + fuel' →
        l.settle entry (fun n => order.idxOf n) room' order.reverse fuel' t.idom = t'.idom := by
  have hlen := order_length_le hl he hnum
  induction fuel generalizing t with
  | zero =>
    have := progress_le h.rising hlen
    omega
  | succ fuel ih =>
    obtain ⟨t₁, he₁, hi₁, h₁, hp₁, hr₁⟩ := foldl_improve_improving hl hnum hroom
      order.reverse [] rfl ht (by simpa using h)
    rw [settle]
    -- a sweep that moved nothing is the last one, and after any other there is less room to move
    by_cases hsame : t₁.idom = t.idom
    · have heq : t₁ = t := eq_of_idom (he₁.trans ht.symm) hsame
      rw [heq] at h₁ hp₁
      refine ⟨t, ht, ?_, ⟨?_, ?_⟩, fun room' fuel' hroom' hfuel' => ?_⟩
      · rw [sweep, ← hi₁, if_pos hsame]
      · exact h₁
      · rcases hp₁ with ⟨_, hall⟩ | hp₁
        · intro n hn
          rw [ht]
          exact hall n (by simpa using hn)
        · exact absurd hp₁ (Nat.lt_irrefl _)
      · cases fuel' with
        | zero => rfl
        | succ fuel' => rw [settle, sweep, hr₁ room' hroom', if_pos hsame]
    · have hp₁ : l.progress order t < l.progress order t₁ := by
        rcases hp₁ with ⟨hp₁, _⟩ | hp₁
        · exact absurd hp₁ hsame
        · exact hp₁
      obtain ⟨t₂, he₂, hi₂, h₂, hr₂⟩ := ih he₁ (h₁.restart _) (by omega)
      refine ⟨t₂, he₂, ?_, h₂, fun room' fuel' hroom' hfuel' => ?_⟩
      · rw [sweep, ← hi₁, if_neg hsame, hi₂]
      · cases fuel' with
        | zero =>
          have := progress_le h₁.rising hlen
          omega
        | succ fuel' =>
          rw [settle, sweep, hr₁ room' hroom', if_neg hsame]
          exact hr₂ room' fuel' hroom' (by omega)

/-! ### What a settled table says -/

namespace Settled

variable {t : DominatorTree} {a n : Nat}

/-- The table has the nodes that the entry reaches. -/
theorem isReachable_iff (h : Settled l order room t) (hnum : Numbered l t.entry order) :
    t.isReachable n = true ↔ l.Reachable t.entry n := by
  rw [← hnum.mem_iff n]
  exact ⟨h.improving.rising.mem, fun hn => h.improving.swept n hn (Nat.zero_le _)⟩

/-- The dominator of a node in the table lies above all its predecessors there. -/
theorem exists_immediate (h : Settled l order room t) (hl : l.Lawful)
    (hnum : Numbered l t.entry order) (hroom : 2 * order.idxOf t.entry ≤ room) (hn : n ∈ order)
    (hne : n ≠ t.entry) :
    ∃ d, t.immediate? n = some d ∧ ∀ p ∈ l.pred n, t.isReachable p = true → t.Above d p := by
  obtain ⟨g, hg, hz⟩ := exists_improvement hl hnum hn hne (h.improving.restart _) hroom
  refine ⟨g, ?_, hz.above⟩
  -- writing the meeting point changed nothing, so it was there before
  have hstable := h.stable n hn
  rw [improve, if_neg hne, hg] at hstable
  have hlt : n < t.idom.size := hz.lt
  have hget : t.idom[n]? = some (some g) := by
    rw [← hstable]
    simp [hlt]
  simp [DominatorTree.immediate?, hne, hget]

/-- Only dominators lie above a node. -/
theorem dominates_of_above (h : Settled l order room t) (hl : l.Lawful)
    (hnum : Numbered l t.entry order) (hroom : 2 * order.idxOf t.entry ≤ room)
    (ha : t.Above a n) : l.Dominates t.entry a n := by
  intro ns hp
  -- induction on the length of the path, from its end
  generalize hk : ns.length = k
  induction k using Nat.strongRecOn generalizing n ns with
  | ind k ih =>
    cases ha with
    | self => exact hp.target_mem
    | up hd ha =>
      rcases hp.last_step with ⟨rfl, _⟩ | ⟨p, ms, hq, hpn, rfl⟩
      · simp [DominatorTree.immediate?] at hd
      · have hne : n ≠ t.entry := by
          rintro rfl
          simp [DominatorTree.immediate?] at hd
        have hn := h.improving.rising.mem (DominatorTree.isReachable_of_immediate hd)
        obtain ⟨d', hd', habove⟩ := h.exists_immediate hl hnum hroom hn hne
        obtain rfl := Option.some.inj (hd.symm.trans hd')
        have hpr := (h.isReachable_iff hnum).2 ⟨ms, hq⟩
        have hpp := (hl.mem_pred (hl.succ_lt hpn)).2 hpn
        refine List.mem_append_left _ (ih ms.length ?_ (ha.trans (habove p hpp hpr)) ms hq rfl)
        rw [← hk]
        simp

/-- Exactly the dominators of a node lie above it. -/
theorem above_iff (h : Settled l order room t) (hl : l.Lawful) (hnum : Numbered l t.entry order)
    (hroom : 2 * order.idxOf t.entry ≤ room) (hn : l.Reachable t.entry n) :
    t.Above a n ↔ l.Dominates t.entry a n :=
  ⟨h.dominates_of_above hl hnum hroom,
    h.improving.dominated n a ((h.isReachable_iff hnum).2 hn)⟩

end Settled

/-- Sweeping can begin: the entry alone is in the table. -/
theorem initialTable_improving (he : entry < l.size)
    (hnum : Numbered l entry order) :
    Improving l order ⟨entry, l.initialTable entry⟩ order.length := by
  have hreach : ∀ n, (DominatorTree.mk entry (l.initialTable entry)).isReachable n = true ↔
      n = entry := fun n => by
    simp only [DominatorTree.isReachable, initialTable]
    by_cases hn : n = entry
    · simp [hn, he]
    · by_cases hlt : n < l.size
      · simp [hn, Ne.symm hn, hlt]
      · simp [hn, hlt]
  -- so no node has a dominator yet
  have hnone : ∀ n, (DominatorTree.mk entry (l.initialTable entry)).immediate? n = none :=
    fun n => by
      cases hd : (DominatorTree.mk entry (l.initialTable entry)).immediate? n with
      | none => rfl
      | some d =>
        obtain rfl := (hreach n).1 (DominatorTree.isReachable_of_immediate hd)
        simp [DominatorTree.immediate?] at hd
  refine ⟨by simp [DominatorTree.size, initialTable], ⟨(hreach entry).2 rfl, ?_, ?_⟩, ?_, ?_, ?_,
    ?_, ?_⟩
  · intro n hn
    rw [(hreach n).1 hn]
    exact hnum.entry_mem
  · intro n d hd
    simp [hnone] at hd
  · intro n hn hlt
    exact absurd (List.idxOf_lt_length_of_mem hn) (Nat.not_lt.2 hlt)
  · intro n d hd
    simp [hnone] at hd
  · intro n a hn ha
    obtain rfl := (hreach n).1 hn
    obtain rfl : a = n := by simpa using ha [n] (.single n)
    exact .self a
  · intro n d c hd
    simp [hnone] at hd
  · intro n d v hd
    simp [hnone] at hd

end Links

/-! ### Exact trees -/

/-- The tree tells which nodes of a graph the entry reaches, which nodes lie on every path to a
    node, and which of them is nearest to it. -/
structure DominatorTree.Exact (t : DominatorTree) (l : Links) (entry : Nat) : Prop where
  isReachable_iff : ∀ b, t.isReachable b = true ↔ l.Reachable entry b
  dominates_iff : ∀ a b, l.Reachable entry b → (t.dominates a b = true ↔ l.Dominates entry a b)
  dominates_unreached : ∀ a b, ¬l.Reachable entry b → (t.dominates a b = true ↔ a = b)
  immediate_none : ∀ b, t.immediate? b = none ↔ b = entry ∨ ¬l.Reachable entry b
  immediate_some : ∀ b d, t.immediate? b = some d →
    d ≠ b ∧ l.Dominates entry d b ∧
      ∀ a, a ≠ b → l.Dominates entry a b → l.Dominates entry a d
  nodup : ∀ b, (t.dominators b).Nodup
  last : ∀ b, l.Reachable entry b → (t.dominators b).getLast? = some entry

namespace Links

variable {l : Links} {entry : Nat} {order : List Nat} {room : Nat}

/-- A table that no pass changes tells dominance. -/
theorem Settled.exact {t : DominatorTree} (h : Settled l order room t) (hl : l.Lawful)
    (he : t.entry < l.size) (hnum : Numbered l t.entry order)
    (hroom : 2 * order.idxOf t.entry ≤ room) : t.Exact l t.entry := by
  have hreach : ∀ n, t.isReachable n = true ↔ l.Reachable t.entry n := fun n =>
    h.isReachable_iff hnum
  -- what the entry does not reach is not in the table, and has no walk up
  have hout : ∀ n, ¬l.Reachable t.entry n → t.isReachable n = false := fun n hn => by
    rw [← hreach n] at hn
    exact Bool.eq_false_iff.2 hn
  have hclimb := fun {n} (hn : l.Reachable t.entry n) =>
    DominatorTree.climb_spec h.improving.rising t.size ((hreach n).2 hn) (by
      have := order_length_le hl he hnum
      rw [h.improving.size_eq]
      omega)
  refine ⟨hreach, fun a b hb => ?_, fun a b hb => ?_, fun b => ⟨fun hnone => ?_, fun hor => ?_⟩,
    fun b d hd => ?_, fun b => ?_, fun b hb => (hclimb hb).2.2⟩
  · rw [DominatorTree.dominates, List.contains_iff_mem, DominatorTree.dominators,
      (hclimb hb).1 a, h.above_iff hl hnum hroom hb]
  · rw [DominatorTree.dominates, DominatorTree.dominators,
      DominatorTree.climb_of_unreached _ (hout b hb)]
    simp
  · by_cases hb : t.isReachable b = true
    · rcases DominatorTree.eq_entry_or_immediate hb with hb | ⟨d, hd⟩
      · exact .inl hb
      · simp [hd] at hnone
    · exact .inr fun hr => hb ((hreach b).2 hr)
  · cases hd : t.immediate? b with
    | none => rfl
    | some d =>
      rcases hor with rfl | hb
      · simp [DominatorTree.immediate?] at hd
      · exact absurd ((hreach b).1 (DominatorTree.isReachable_of_immediate hd)) hb
  · have hbr := DominatorTree.isReachable_of_immediate hd
    have hb := (hreach b).1 hbr
    have hdr := (hreach d).1 (h.improving.rising.rises hd).2
    have hdb : t.Above d b := .up hd (.self d)
    refine ⟨fun heq => ?_, (h.above_iff hl hnum hroom hb).1 hdb, fun a hab ha => ?_⟩
    · have := (h.improving.rising.rises hd).1
      rw [heq] at this
      exact Nat.lt_irrefl _ this
    -- the walk from `b` to any other dominator begins with `d`
    · rw [← h.above_iff hl hnum hroom hdr]
      cases (h.above_iff hl hnum hroom hb).2 ha with
      | self => exact absurd rfl hab
      | up hd' ha =>
        obtain rfl : d = _ := Option.some.inj (hd.symm.trans hd')
        exact ha
  · by_cases hb : l.Reachable t.entry b
    · exact (hclimb hb).2.1
    · rw [DominatorTree.dominators, DominatorTree.climb_of_unreached _ (hout b hb)]
      simp

/-- Large enough bounds lead to one exact tree. -/
theorem dominatorsWithin_exact (hl : l.Lawful) (he : entry < l.size) :
    (l.dominators entry).Exact l entry ∧
      ∀ room fuel, 2 * l.size ≤ room → l.size * l.size + 1 ≤ fuel →
        l.dominatorsWithin entry room fuel = l.dominators entry := by
  have hnum := postorder_numbered hl he
  have hidx : ∀ room, 2 * l.size ≤ room → 2 * (l.postorder entry).idxOf entry ≤ room :=
    fun room hroom => by
      have h₁ := List.idxOf_lt_length_of_mem hnum.entry_mem
      have h₂ := order_length_le hl he hnum
      omega
  obtain ⟨t, ht, hi, hs, hsame⟩ := settle_improving hl he hnum
    (hidx (2 * l.size) (Nat.le_refl _)) (l.size * l.size + 1) rfl
    (initialTable_improving he hnum) (by omega)
  subst ht
  have heq : l.dominators t.entry = t := by
    rw [dominators, dominatorsWithin, ← hi]
  refine ⟨heq ▸ hs.exact hl he hnum (hidx _ (Nat.le_refl _)), fun room fuel hroom hfuel => ?_⟩
  rw [heq, dominatorsWithin, hsame room fuel (hidx room hroom) (by omega)]

/-- The dominator tree of a lawful graph is its dominance relation. -/
theorem dominators_exact (hl : l.Lawful) (he : entry < l.size) :
    (l.dominators entry).Exact l entry :=
  (dominatorsWithin_exact hl he).1

end Links

/-! ### Every digraph -/

/-- From every node of every digraph the computed tree is exact, and the bounds on the walks and on
    the sweeps cut nothing off. -/
theorem Digraph.dominators_exact_and_stable {ν ε : Type} (g : Digraph ν ε) {entry : Nat}
    (he : entry < g.size) :
    (g.links.dominators entry).Exact g.links entry ∧
      ∀ room fuel, 2 * g.size ≤ room → g.size * g.size + 1 ≤ fuel →
        g.links.dominatorsWithin entry room fuel = g.links.dominators entry :=
  Links.dominatorsWithin_exact g.links_lawful he

/-- A loop entered at two places, with a double edge into it, a self loop in it and a node that the
    entry does not reach. -/
def knot : Digraph Unit Unit where
  nodes := List.replicate 6 ()
  edges := [⟨0, 1, ()⟩, ⟨1, 2, ()⟩, ⟨1, 2, ()⟩, ⟨1, 3, ()⟩, ⟨2, 3, ()⟩, ⟨3, 2, ()⟩, ⟨3, 3, ()⟩,
    ⟨3, 4, ()⟩, ⟨5, 4, ()⟩]
  closed := by decide

/-- The node in front of the loop dominates it, and no node within dominates what is behind. -/
theorem knot_dominators_exact :
    0 < knot.size ∧ (knot.links.dominators 0).Exact knot.links 0 ∧
      knot.links.dominatorsWithin 0 100 100 = knot.links.dominators 0 ∧
      (knot.links.dominators 0).immediate? 2 = some 1 ∧
      (knot.links.dominators 0).dominates 2 4 = false ∧
      (knot.links.dominators 0).isReachable 5 = false := by
  obtain ⟨hexact, hstable⟩ := knot.dominators_exact_and_stable (show 0 < knot.size by decide)
  exact ⟨by decide, hexact, hstable 100 100 (by decide) (by decide), by decide +kernel,
    by decide +kernel, by decide +kernel⟩

end Restructure
