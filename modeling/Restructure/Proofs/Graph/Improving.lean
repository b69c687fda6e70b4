import Restructure.Proofs.Graph.Ancestors

namespace Restructure

/-!
# Improving dominators — what one step of a sweep keeps

Nodes are improved in reverse postorder. At any moment every true dominator of a node in the tree
lies above it, and a node joins its parent by a path below the parent.

* `Improving` — what holds between two improvements within a sweep.
* `Improvement` — a node whose turn it is, with the meeting point of its predecessors.
* `Improvement.put_improving` — an improvement keeps what held before it.
* `Improvement.above_old` — a new dominator lies above the old one.
-/

/-! ### Tables between two improvements -/

/-- The tree within a sweep in which exactly the nodes with numbers from `i` on are done.

    `below` and `dominated` say that the tree errs only by nodes above others that do not dominate
    them; `nearest` and `aligned` keep later meeting points from lying further down. -/
structure Improving (l : Links) (order : List Nat) (t : DominatorTree) (i : Nat) : Prop where
  size_eq : t.size = l.size
  rising : t.Rising order
  swept : ∀ n ∈ order, i ≤ order.idxOf n → t.isReachable n = true
  below : ∀ n d, t.immediate? n = some d →
    ∃ ns, l.Path d n (d :: ns) ∧ ∀ x ∈ ns, order.idxOf x < order.idxOf d
  dominated : ∀ n a, t.isReachable n = true → l.Dominates t.entry a n → t.Above a n
  nearest : ∀ n d c, t.immediate? n = some d →
    (∀ p ∈ l.pred n, t.isReachable p = true → t.Above c p) → order.idxOf d ≤ order.idxOf c
  aligned : ∀ n d v, t.immediate? n = some d → n ∈ l.succ v → v ∈ order →
    order.idxOf n < order.idxOf v →
    t.isReachable v = true ∧
      (∀ a, t.Above a v → order.idxOf d ≤ order.idxOf a → t.Above a d) ∧
      (i ≤ order.idxOf n ∨ order.idxOf d < i → t.Above d v)

namespace Improving

variable {l : Links} {order : List Nat} {t : DominatorTree} {i : Nat} {a n z g : Nat}

/-- An ancestor reaches a node by a path below it. -/
theorem path_below (h : Improving l order t i) (ha : t.Above a n) :
    ∃ ns, l.Path a n (a :: ns) ∧ ∀ x ∈ ns, order.idxOf x < order.idxOf a := by
  induction ha with
  | self => exact ⟨[], .single _, by simp⟩
  | @up d n hd had ih =>
    obtain ⟨ns, hp, hns⟩ := ih
    obtain ⟨ms, hq, hms⟩ := h.below n d hd
    have hle : order.idxOf d ≤ order.idxOf a := by
      rcases had.eq_or_lt h.rising with rfl | h <;> omega
    refine ⟨ns ++ ms, hp.trans hq, fun x hx => ?_⟩
    rcases List.mem_append.1 hx with hx | hx
    · exact hns x hx
    · exact Nat.lt_of_lt_of_le (hms x hx) hle

/-- Once every node is done the invariant holds wherever a sweep stands. -/
theorem restart (h : Improving l order t 0) (i : Nat) : Improving l order t i where
  size_eq := h.size_eq
  rising := h.rising
  swept n hn _ := h.swept n hn (Nat.zero_le _)
  below := h.below
  dominated := h.dominated
  nearest := h.nearest
  aligned n d v hd hv hvo hlt := by
    obtain ⟨hr, ha, hthrough⟩ := h.aligned n d v hd hv hvo hlt
    exact ⟨hr, ha, fun _ => hthrough (.inl (Nat.zero_le _))⟩

/-- The entry needs no improvement. -/
theorem skip_entry (h : Improving l order t i) (hi : order.idxOf t.entry + 1 = i) :
    Improving l order t (order.idxOf t.entry) where
  size_eq := h.size_eq
  rising := h.rising
  swept n hn hle := by
    by_cases he : n = t.entry
    · rw [he]
      exact h.rising.root
    · refine h.swept n hn ?_
      have : order.idxOf n ≠ order.idxOf t.entry := fun heq => he ((List.idxOf_inj hn).1 heq)
      omega
  below := h.below
  dominated := h.dominated
  nearest := h.nearest
  aligned n d v hd hv hvo hlt := by
    obtain ⟨hr, ha, hthrough⟩ := h.aligned n d v hd hv hvo hlt
    refine ⟨hr, ha, fun hor => hthrough ?_⟩
    have hn := h.rising.mem (DominatorTree.isReachable_of_immediate hd)
    have hne : n ≠ t.entry := by
      rintro rfl
      simp [DominatorTree.immediate?] at hd
    have : order.idxOf n ≠ order.idxOf t.entry := fun heq => hne ((List.idxOf_inj hn).1 heq)
    omega

end Improving

/-- The node `z` is next in the sweep, and `g` is the nearest common ancestor of its
    predecessors. -/
structure Improvement (l : Links) (order : List Nat) (t : DominatorTree) (z g : Nat) : Prop where
  mem : z ∈ order
  lt : z < t.size
  ne_entry : z ≠ t.entry
  reached : t.isReachable g = true
  above : ∀ p ∈ l.pred z, t.isReachable p = true → t.Above g p
  nearest : ∀ x, (∀ p ∈ l.pred z, t.isReachable p = true → t.Above x p) → t.Above x g
  forward : ∃ v ∈ order, z ∈ l.succ v ∧ v ∈ l.pred z ∧ t.isReachable v = true ∧
    order.idxOf z < order.idxOf v

namespace Improvement

variable {l : Links} {order : List Nat} {t : DominatorTree} {i : Nat} {a b c d n p v z g : Nat}

/-- The new dominator has a larger number than the node. -/
theorem rises (hz : Improvement l order t z g) (ht : t.Rising order) :
    order.idxOf z < order.idxOf g := by
  obtain ⟨v, _, _, hvp, hvr, hlt⟩ := hz.forward
  rcases (hz.above v hvp hvr).eq_or_lt ht with rfl | h <;> omega

/-- The new dominator lies above the old one. -/
theorem above_old (hz : Improvement l order t z g)
    (h : Improving l order t (order.idxOf z + 1)) (hd : t.immediate? z = some d) :
    t.Above g d := by
  obtain ⟨v, hvo, hvz, hvp, hvr, hlt⟩ := hz.forward
  exact (h.aligned z d v hd hvz hvo hlt).2.1 g (hz.above v hvp hvr) (h.nearest z d g hd hz.above)

/-- Above the node itself are the node and what lies above the new dominator. -/
theorem above_put_self (hz : Improvement l order t z g) (ht : t.Rising order) :
    (t.put z g).Above a z ↔ a = z ∨ t.Above a g := by
  rw [DominatorTree.above_put_of_above ht hz.lt hz.ne_entry (hz.rises ht) (.self z)]
  refine ⟨?_, ?_⟩
  · rintro (⟨ha, hza⟩ | ha)
    · rcases ha.eq_or_lt ht with h₁ | h₁
      · exact .inl h₁
      · rcases hza.eq_or_lt ht with h₂ | h₂
        · exact .inl h₂.symm
        · omega
    · exact .inr ha
  · rintro (rfl | ha)
    · exact .inl ⟨.self _, .self _⟩
    · exact .inr ha

/-- Ancestors are only lost. -/
theorem above_of_put (hz : Improvement l order t z g)
    (h : Improving l order t (order.idxOf z + 1)) (hn : t.isReachable n = true)
    (ha : (t.put z g).Above a n) : t.Above a n := by
  by_cases hzn : t.Above z n
  · rcases (DominatorTree.above_put_of_above h.rising hz.lt hz.ne_entry (hz.rises h.rising)
      hzn).1 ha with ⟨ha, _⟩ | ha
    · exact ha
    · rcases DominatorTree.eq_entry_or_immediate (hzn.isReachable h.rising hn) with he | ⟨d, hd⟩
      · exact absurd he hz.ne_entry
      · exact (ha.trans (hz.above_old h hd)).trans ((DominatorTree.Above.up hd (.self d)).trans hzn)
  · exact (DominatorTree.above_put_of_not_above hz.lt hz.ne_entry hzn).1 ha

/-- A node above which the changed one lies no longer or never lay keeps its ancestors. -/
theorem above_put_of_lt (hz : Improvement l order t z g) (ht : t.Rising order)
    (hlt : order.idxOf z < order.idxOf n) : (t.put z g).Above a n ↔ t.Above a n := by
  refine DominatorTree.above_put_of_not_above hz.lt hz.ne_entry fun hzn => ?_
  rcases hzn.eq_or_lt ht with rfl | h <;> omega

/-- The changed tree rises. -/
theorem put_rising (hz : Improvement l order t z g) (ht : t.Rising order) :
    (t.put z g).Rising order where
  root := by
    rw [DominatorTree.isReachable_put hz.lt]
    exact Bool.or_eq_true_iff.2 (.inr ht.root)
  mem {n} hn := by
    rw [DominatorTree.isReachable_put hz.lt] at hn
    rcases Bool.or_eq_true_iff.1 hn with hn | hn
    · rw [beq_iff_eq.1 hn]
      exact hz.mem
    · exact ht.mem hn
  rises {n d} hd := by
    rw [DominatorTree.immediate?_put hz.lt hz.ne_entry] at hd
    rw [DominatorTree.isReachable_put hz.lt]
    split at hd
    · rename_i hn
      obtain rfl := Option.some.inj hd
      exact ⟨hn ▸ hz.rises ht, Bool.or_eq_true_iff.2 (.inr hz.reached)⟩
    · exact ⟨(ht.rises hd).1, Bool.or_eq_true_iff.2 (.inr (ht.rises hd).2)⟩

/-- The node is joined to its new dominator by a path below it. -/
theorem put_below (hz : Improvement l order t z g)
    (h : Improving l order t (order.idxOf z + 1)) :
    ∃ ns, l.Path g z (g :: ns) ∧ ∀ x ∈ ns, order.idxOf x < order.idxOf g := by
  obtain ⟨v, _, hvz, hvp, hvr, _⟩ := hz.forward
  obtain ⟨ns, hp, hns⟩ := h.path_below (hz.above v hvp hvr)
  refine ⟨ns ++ [z], hp.snoc hvz, fun x hx => ?_⟩
  rcases List.mem_append.1 hx with hx | hx
  · exact hns x hx
  · rw [List.mem_singleton.1 hx]
    exact hz.rises h.rising

/-- A true dominator of the node is the node or lies above the new dominator. -/
theorem eq_or_above_of_dominates (hl : l.Lawful) (hz : Improvement l order t z g)
    (h : Improving l order t i) (ha : l.Dominates t.entry a z) : a = z ∨ t.Above a g := by
  by_cases haz : a = z
  · exact .inl haz
  · have hlt : z < l.size := h.size_eq ▸ hz.lt
    exact .inr (hz.nearest a fun p hp hpr =>
      h.dominated p a hpr (ha.of_succ haz ((hl.mem_pred hlt).1 hp)))

/-- True dominators still lie above. -/
theorem put_dominated (hl : l.Lawful) (hz : Improvement l order t z g)
    (h : Improving l order t (order.idxOf z + 1)) (hn : t.isReachable n = true)
    (ha : l.Dominates t.entry a n) : (t.put z g).Above a n := by
  have hold := h.dominated n a hn ha
  by_cases hzn : t.Above z n
  · rw [DominatorTree.above_put_of_above h.rising hz.lt hz.ne_entry (hz.rises h.rising) hzn]
    rcases Nat.lt_or_ge (order.idxOf z) (order.idxOf a) with hlt | hle
    · right
      -- a path that avoids `a` leads to `z`, and one below `z` leads on to `n`
      by_contra hag
      have hnot : ¬l.Dominates t.entry a z := fun hd => by
        rcases hz.eq_or_above_of_dominates hl h hd with rfl | hd
        · omega
        · exact hag hd
      obtain ⟨ns, hp, hns⟩ : ∃ ns, l.Path t.entry z ns ∧ a ∉ ns := by
        simpa [Links.Dominates] using hnot
      obtain ⟨ms, hq, hms⟩ := h.path_below hzn
      rcases List.mem_append.1 (ha _ (hp.trans hq)) with h₁ | h₁
      · exact hns h₁
      · have := hms a h₁
        omega
    · exact .inl ⟨hold, hold.above_of_le h.rising hzn hle⟩
  · exact (DominatorTree.above_put_of_not_above hz.lt hz.ne_entry hzn).2 hold

/-- Walks from a predecessor still pass above the dominator, and through it if it or the node is
    done. -/
theorem put_aligned (hz : Improvement l order t z g)
    (h : Improving l order t (order.idxOf z + 1)) (hnz : n ≠ z) (hd : t.immediate? n = some d)
    (hvn : n ∈ l.succ v) (hvo : v ∈ order) (hlt : order.idxOf n < order.idxOf v) :
    (t.put z g).isReachable v = true ∧
      (∀ a, (t.put z g).Above a v → order.idxOf d ≤ order.idxOf a → (t.put z g).Above a d) ∧
      (order.idxOf z ≤ order.idxOf n ∨ order.idxOf d < order.idxOf z →
        (t.put z g).Above d v) := by
  have ht := h.rising
  have hg := hz.rises ht
  obtain ⟨hvr, halign, hthrough⟩ := h.aligned n d v hd hvn hvo hlt
  have hn := ht.mem (DominatorTree.isReachable_of_immediate hd)
  refine ⟨by rw [DominatorTree.isReachable_put hz.lt, hvr, Bool.or_true], ?_⟩
  by_cases hzd : t.Above z d
  · have hdz : order.idxOf d ≤ order.idxOf z := by
      rcases hzd.eq_or_lt ht with rfl | h <;> omega
    have hdv : t.Above d v := hthrough (.inr (by omega))
    have hdv' : (t.put z g).Above d v :=
      (DominatorTree.above_put_of_above ht hz.lt hz.ne_entry hg (hzd.trans hdv)).2 (.inl ⟨hdv, hzd⟩)
    exact ⟨fun a ha hle => hdv'.above_of_le (hz.put_rising ht) ha hle, fun _ => hdv'⟩
  · have hsame {a : Nat} : (t.put z g).Above a d ↔ t.Above a d :=
      DominatorTree.above_put_of_not_above hz.lt hz.ne_entry hzd
    refine ⟨fun a ha hle => hsame.2 (halign a (hz.above_of_put h hvr ha) hle), fun hor => ?_⟩
    have hnz' : order.idxOf n ≠ order.idxOf z := fun heq => hnz ((List.idxOf_inj hn).1 heq)
    have hdv : t.Above d v := hthrough (by omega)
    -- the changed node does not lie between `v` and `d`
    refine (DominatorTree.above_put_of_not_above hz.lt hz.ne_entry fun hzv => ?_).2 hdv
    have hvz : order.idxOf v ≤ order.idxOf z := by
      rcases hzv.eq_or_lt ht with rfl | h <;> omega
    exact hzd (hdv.above_of_le ht hzv (by omega))

/-- An improvement keeps everything. -/
theorem put_improving (hl : l.Lawful) (hz : Improvement l order t z g)
    (h : Improving l order t (order.idxOf z + 1)) :
    Improving l order (t.put z g) (order.idxOf z) where
  size_eq := by simpa [DominatorTree.put, DominatorTree.size] using h.size_eq
  rising := hz.put_rising h.rising
  swept n hn hle := by
    rw [DominatorTree.isReachable_put hz.lt]
    by_cases hnz : n = z
    · simp [hnz]
    · have : order.idxOf n ≠ order.idxOf z := fun heq => hnz ((List.idxOf_inj hn).1 heq)
      rw [h.swept n hn (by omega), Bool.or_true]
  below n d hd := by
    rw [DominatorTree.immediate?_put hz.lt hz.ne_entry] at hd
    split at hd
    · rename_i hnz
      obtain rfl := Option.some.inj hd
      exact hnz ▸ hz.put_below h
    · exact h.below n d hd
  dominated n a hn ha := by
    rw [DominatorTree.isReachable_put hz.lt] at hn
    by_cases hnz : n = z
    · subst hnz
      exact (hz.above_put_self h.rising).2 (hz.eq_or_above_of_dominates hl h ha)
    · exact hz.put_dominated hl h (by simpa [hnz] using hn) ha
  nearest n d c hd hc := by
    -- what lies above the predecessors now did so before, for nodes only move up
    have hold : ∀ p ∈ l.pred n, t.isReachable p = true → t.Above c p := fun p hp hpr =>
      hz.above_of_put h hpr
        (hc p hp (by rw [DominatorTree.isReachable_put hz.lt, hpr, Bool.or_true]))
    rw [DominatorTree.immediate?_put hz.lt hz.ne_entry] at hd
    split at hd
    · rename_i hnz
      obtain rfl := Option.some.inj hd
      subst hnz
      rcases (hz.nearest c hold).eq_or_lt h.rising with rfl | h <;> omega
    · exact h.nearest n d c hd hold
  aligned n d v hd hvn hvo hlt := by
    rw [DominatorTree.immediate?_put hz.lt hz.ne_entry] at hd
    split at hd
    · rename_i hnz
      obtain rfl := Option.some.inj hd
      subst hnz
      have hvr := h.swept v hvo (by omega)
      have hzl : n < l.size := h.size_eq ▸ hz.lt
      have hgv : (t.put n g).Above g v :=
        (hz.above_put_of_lt h.rising hlt).2 (hz.above v ((hl.mem_pred hzl).2 hvn) hvr)
      refine ⟨?_, fun a ha hle => hgv.above_of_le (hz.put_rising h.rising) ha hle, fun _ => hgv⟩
      rw [DominatorTree.isReachable_put hz.lt, hvr, Bool.or_true]
    · rename_i hnz
      exact hz.put_aligned h hnz hd hvn hvo hlt

end Improvement

end Restructure
