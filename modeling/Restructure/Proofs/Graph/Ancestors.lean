import Restructure.Proofs.Graph.Search

namespace Restructure

/-!
# Partial dominator trees — ancestors and where two walks meet

While dominators are computed the table is a tree over the nodes seen so far. Numbers rise along
it, so that walks up the tree end and the ancestors of a node are in a line.

* `DominatorTree.Above` — a node lies on the walk from another one up the tree.
* `Rising` — the entry is in the tree, and every step up leads to a larger number.
* `climb_spec` — a walk up the tree lists the ancestors and ends at the entry.
* `meet_spec`, `meetPredecessors_spec` — where walks meet is their nearest common ancestor.
* `DominatorTree.put` — the tree with one entry changed, and the ancestors in it.
-/

/-! ### Numbers -/

namespace Numbered

variable {l : Links} {entry : Nat} {order : List Nat} {a b : Nat}

/-- The entry is numbered. -/
theorem entry_mem (h : Numbered l entry order) : entry ∈ order :=
  (h.mem_iff entry).2 (Links.Reachable.refl l entry)

/-- The entry has the largest number. -/
theorem le_entry (h : Numbered l entry order) (ha : a ∈ order) :
    order.idxOf a ≤ order.idxOf entry := by
  -- induction on how many nodes are numbered above `a`
  generalize hk : order.length - order.idxOf a = k
  induction k using Nat.strongRecOn generalizing a with
  | ind k ih =>
    by_cases he : a = entry
    · exact Nat.le_of_eq (by rw [he])
    · obtain ⟨v, hv, _, hav⟩ := h.forward a ha he
      have hvlt := List.idxOf_lt_length_of_mem hv
      exact Nat.le_trans (Nat.le_of_lt hav) (ih _ (by omega) hv rfl)

end Numbered

namespace DominatorTree

/-! ### Ancestors -/

/-- `a` is `n` itself or lies above it. -/
inductive Above (t : DominatorTree) : Nat → Nat → Prop
  | self (n : Nat) : Above t n n
  | up {a d n : Nat} (h : t.immediate? n = some d) (ha : Above t a d) : Above t a n

/-- The table is a tree over some reachable nodes, along which the places in `order` rise. -/
structure Rising (t : DominatorTree) (order : List Nat) : Prop where
  root : t.isReachable t.entry = true
  mem : ∀ {n}, t.isReachable n = true → n ∈ order
  rises : ∀ {n d}, t.immediate? n = some d →
    order.idxOf n < order.idxOf d ∧ t.isReachable d = true

variable {t : DominatorTree} {order : List Nat} {a b c d n : Nat}

/-- What has a node above it has been reached. -/
theorem isReachable_of_immediate (h : t.immediate? n = some d) : t.isReachable n = true := by
  simp only [immediate?] at h
  split at h
  · simp at h
  · simp [isReachable, h]

/-- The node above is the one in the table. -/
theorem join_of_immediate (h : t.immediate? n = some d) : t.idom[n]?.join = some d := by
  simp only [immediate?] at h
  split at h
  · cases h
  · exact h

/-- A node of the tree is the entry or has a node above it. -/
theorem eq_entry_or_immediate (h : t.isReachable n = true) :
    n = t.entry ∨ ∃ d, t.immediate? n = some d := by
  by_cases hn : n = t.entry
  · exact .inl hn
  · obtain ⟨d, hd⟩ := Option.isSome_iff_exists.1 h
    exact .inr ⟨d, by simp [immediate?, hn, hd]⟩

/-- What is above a node is above all that is below it. -/
theorem Above.trans (h : t.Above a b) (h' : t.Above b c) : t.Above a c := by
  induction h' with
  | self => exact h
  | up hd _ ih => exact .up hd ih

/-- Whatever lies above a node of the tree is in the tree. -/
theorem Above.isReachable (ht : t.Rising order) (h : t.Above a n) (hn : t.isReachable n = true) :
    t.isReachable a = true := by
  induction h with
  | self => exact hn
  | up hd _ ih => exact ih (ht.rises hd).2

/-- Numbers rise on the way up. -/
theorem Above.eq_or_lt (ht : t.Rising order) (h : t.Above a n) :
    a = n ∨ order.idxOf n < order.idxOf a := by
  induction h with
  | self => exact .inl rfl
  | up hd _ ih =>
    right
    have := (ht.rises hd).1
    rcases ih with rfl | ih <;> omega

/-- Of two ancestors of a node the one with the larger number lies above the other one. -/
theorem Above.above_of_le (ht : t.Rising order) (ha : t.Above a n) (hb : t.Above b n)
    (h : order.idxOf a ≤ order.idxOf b) : t.Above b a := by
  induction ha with
  | self => exact hb
  | @up d n hd ha ih =>
    cases hb with
    | self =>
      have hnd := (ht.rises hd).1
      rcases ha.eq_or_lt ht with rfl | ha <;> omega
    | up hd' hb' =>
      obtain rfl : d = _ := Option.some.inj (hd.symm.trans hd')
      exact ih hb'

/-! ### Walking up -/

/-- A walk up with room for every larger number lists the ancestors of a node, each once, and ends
    at the entry. -/
theorem climb_spec (ht : t.Rising order) (fuel : Nat) (hn : t.isReachable n = true)
    (hfuel : order.length ≤ fuel + order.idxOf n) :
    (∀ a, a ∈ t.climb fuel n ↔ t.Above a n) ∧ (t.climb fuel n).Nodup ∧
      (t.climb fuel n).getLast? = some t.entry := by
  -- numbers rise on the way up, so the fuel lasts until the entry
  induction fuel generalizing n with
  | zero =>
    have := List.idxOf_lt_length_of_mem (ht.mem hn)
    omega
  | succ fuel ih =>
    rcases eq_entry_or_immediate hn with rfl | ⟨d, hd⟩
    · have hnone : t.immediate? t.entry = none := by simp [immediate?]
      simp only [climb, hnone, List.mem_singleton]
      refine ⟨fun a => ⟨fun ha => ?_, fun ha => ?_⟩, by simp, rfl⟩
      · rw [ha]
        exact .self _
      · cases ha with
        | self => rfl
        | up hd _ => simp [hnone] at hd
    · obtain ⟨hlt, hdr⟩ := ht.rises hd
      obtain ⟨hmem, hnodup, hlast⟩ := ih hdr (by omega)
      simp only [climb, hd]
      refine ⟨fun a => ⟨fun ha => ?_, fun ha => ?_⟩, List.nodup_cons.2 ⟨fun hnd => ?_, hnodup⟩, ?_⟩
      · rcases List.mem_cons.1 ha with rfl | ha
        · exact .self _
        · exact .up hd ((hmem a).1 ha)
      · cases ha with
        | self => exact List.mem_cons_self ..
        | up he ha =>
          obtain rfl : d = _ := Option.some.inj (hd.symm.trans he)
          exact List.mem_cons_of_mem _ ((hmem a).2 ha)
      · -- the node would lie above its own parent
        rcases ((hmem n).1 hnd).eq_or_lt ht with rfl | h <;> omega
      · have hne : t.climb fuel d ≠ [] := fun he => by simp [he] at hlast
        rw [List.getLast?_cons_of_ne_nil hne, hlast]

/-- Nothing lies above a node outside the tree. -/
theorem climb_of_unreached (fuel : Nat) (hn : t.isReachable n = false) : t.climb fuel n = [n] := by
  cases fuel with
  | zero => rfl
  | succ fuel =>
    cases hd : t.immediate? n with
    | none => simp only [climb, hd]
    | some d => simp [isReachable_of_immediate hd] at hn

/-! ### Meeting points -/

variable {l : Links}

/-- An ancestor that a node shares with one of a larger number lies above the next node. -/
theorem Above.next_of_lt (ht : t.Rising order) (hd : t.immediate? a = some d)
    (hlt : order.idxOf a < order.idxOf b) (ha : t.Above c a) (hb : t.Above c b) :
    t.Above c d := by
  cases ha with
  | self => rcases hb.eq_or_lt ht with rfl | h <;> omega
  | up he hc =>
    obtain rfl : d = _ := Option.some.inj (hd.symm.trans he)
    exact hc

/-- Two walks meet in the nearest common ancestor of their starts. -/
theorem meet_spec (hnum : Numbered l t.entry order) (ht : t.Rising order) (room : Nat)
    (ha : t.isReachable a = true) (hb : t.isReachable b = true)
    (hroom : 2 * order.idxOf t.entry ≤ room + order.idxOf a + order.idxOf b) :
    t.Above (meet t.idom (fun n => order.idxOf n) room a b) a ∧
      t.Above (meet t.idom (fun n => order.idxOf n) room a b) b ∧
      ∀ x, t.Above x a → t.Above x b →
        t.Above x (meet t.idom (fun n => order.idxOf n) room a b) := by
  have hle := fun {n} (hn : t.isReachable n = true) => hnum.le_entry (ht.mem hn)
  induction room generalizing a b with
  | zero =>
    have h₁ := hle ha
    have h₂ := hle hb
    have hab : a = b := (List.idxOf_inj (ht.mem ha)).1 (by omega)
    subst hab
    exact ⟨.self _, .self _, fun x hx _ => hx⟩
  | succ room ih =>
    rw [meet]
    split
    · rename_i hab
      subst hab
      exact ⟨.self _, .self _, fun x hx _ => hx⟩
    · rename_i hne
      -- the walk of the smaller number moves: its next node has every common ancestor above it
      split
      · rename_i hlt
        rcases eq_entry_or_immediate ha with rfl | ⟨d, hd⟩
        · have := hle hb
          omega
        · obtain ⟨hrise, hdr⟩ := ht.rises hd
          obtain ⟨h₁, h₂, h₃⟩ := ih hdr hb (by omega)
          simp only [join_of_immediate hd]
          exact ⟨.up hd h₁, h₂, fun x hxa hxb => h₃ x (hxa.next_of_lt ht hd hlt hxb) hxb⟩
      · rename_i hnlt
        have hlt : order.idxOf b < order.idxOf a := by
          have : order.idxOf a ≠ order.idxOf b := fun h =>
            hne ((List.idxOf_inj (ht.mem ha)).1 h)
          omega
        rcases eq_entry_or_immediate hb with rfl | ⟨d, hd⟩
        · have := hle ha
          omega
        · obtain ⟨hrise, hdr⟩ := ht.rises hd
          obtain ⟨h₁, h₂, h₃⟩ := ih ha hdr (by omega)
          simp only [join_of_immediate hd]
          exact ⟨h₁, .up hd h₂, fun x hxa hxb => h₃ x hxa (hxb.next_of_lt ht hd hlt hxa)⟩

/-- A node outside of the tree is passed over. -/
theorem meetNext_of_unreachable {room : Nat} {best : Option Nat} {p : Nat}
    (hp : t.isReachable p = false) :
    meetNext t.idom (fun n => order.idxOf n) room best p = best := by
  have hnone : t.idom[p]?.join.isNone = true := by
    rw [isReachable] at hp
    rw [← Option.not_isSome, hp]
    rfl
  rw [meetNext.eq_def, if_pos hnone]

/-- With a node of the tree the best so far becomes the nearest common ancestor of both. -/
theorem meetNext_spec (hnum : Numbered l t.entry order) (ht : t.Rising order) {room : Nat}
    (hroom : 2 * order.idxOf t.entry ≤ room) {best : Option Nat} {p : Nat}
    (hbest : ∀ b, best = some b → t.isReachable b = true) (hp : t.isReachable p = true) :
    ∃ m, meetNext t.idom (fun n => order.idxOf n) room best p = some m ∧
      t.Above m p ∧ (∀ b, best = some b → t.Above m b) ∧
      ∀ x, t.Above x p → (∀ b, best = some b → t.Above x b) → t.Above x m := by
  have hsome : t.idom[p]?.join.isNone = false := by
    rw [isReachable] at hp
    rw [← Option.not_isSome, hp]
    rfl
  rw [meetNext.eq_def, if_neg (by simp [hsome])]
  cases best with
  | none => exact ⟨p, rfl, .self _, by simp, fun x hx _ => hx⟩
  | some b =>
    obtain ⟨h₁, h₂, h₃⟩ := meet_spec hnum ht room hp (hbest b rfl) (by omega)
    exact ⟨_, rfl, h₁, by simpa using h₂, fun x hx hb => h₃ x hx (hb b rfl)⟩

/-- Folding nodes of the tree gives their nearest common ancestor. -/
theorem foldl_meetNext_spec (hnum : Numbered l t.entry order) (ht : t.Rising order) {room : Nat}
    (hroom : 2 * order.idxOf t.entry ≤ room) (ps : List Nat) (best : Option Nat)
    (hbest : ∀ b, best = some b → t.isReachable b = true) :
    (ps.foldl (meetNext t.idom (fun n => order.idxOf n) room) best = none ↔
        best = none ∧ ∀ p ∈ ps, t.isReachable p = false) ∧
      ∀ g, ps.foldl (meetNext t.idom (fun n => order.idxOf n) room) best = some g →
        t.isReachable g = true ∧ (∀ b, best = some b → t.Above g b) ∧
        (∀ p ∈ ps, t.isReachable p = true → t.Above g p) ∧
        ∀ x, (∀ b, best = some b → t.Above x b) →
          (∀ p ∈ ps, t.isReachable p = true → t.Above x p) → t.Above x g := by
  induction ps generalizing best with
  | nil =>
    refine ⟨by simp, fun g hg => ?_⟩
    have hg : best = some g := hg
    refine ⟨hbest g hg, fun b hb => ?_, by simp, fun x hx _ => hx g hg⟩
    obtain rfl : g = b := Option.some.inj (hg.symm.trans hb)
    exact .self _
  | cons p ps ih =>
    rw [List.foldl_cons]
    cases hp : t.isReachable p with
    | false =>
      rw [meetNext_of_unreachable hp]
      obtain ⟨hnone, hsome⟩ := ih best hbest
      refine ⟨by simp [hnone, hp], fun g hg => ?_⟩
      obtain ⟨h₁, h₂, h₃, h₄⟩ := hsome g hg
      refine ⟨h₁, h₂, fun q hq hqr => ?_, fun x hx hxp => h₄ x hx fun q hq =>
        hxp q (List.mem_cons_of_mem _ hq)⟩
      rcases List.mem_cons.1 hq with rfl | hq
      · simp [hp] at hqr
      · exact h₃ q hq hqr
    | true =>
      -- the new meeting point stands for the old one and for `p`
      obtain ⟨m, hm, hmp, hmb, hmx⟩ := meetNext_spec hnum ht hroom hbest hp
      rw [hm]
      obtain ⟨hnone, hsome⟩ := ih (some m) fun b hb => by
        obtain rfl := Option.some.inj hb
        exact hmp.isReachable ht hp
      refine ⟨by simp [hnone, hp], fun g hg => ?_⟩
      obtain ⟨h₁, h₂, h₃, h₄⟩ := hsome g hg
      have hgm := h₂ m rfl
      refine ⟨h₁, fun b hb => hgm.trans (hmb b hb), fun q hq hqr => ?_, fun x hx hxp => ?_⟩
      · rcases List.mem_cons.1 hq with rfl | hq
        · exact hgm.trans hmp
        · exact h₃ q hq hqr
      · refine h₄ x (fun b hb => ?_) fun q hq => hxp q (List.mem_cons_of_mem _ hq)
        obtain rfl := Option.some.inj hb
        exact hmx x (hxp p (by simp) hp) hx

/-- The meeting point of the predecessors in the tree is their nearest common ancestor. -/
theorem meetPredecessors_spec (hnum : Numbered l t.entry order) (ht : t.Rising order) {room : Nat}
    (hroom : 2 * order.idxOf t.entry ≤ room) {v : Nat} (hv : v ∈ l.pred n)
    (hvr : t.isReachable v = true) :
    ∃ g, l.meetPredecessors (fun n => order.idxOf n) room t.idom n = some g ∧
      t.isReachable g = true ∧ (∀ p ∈ l.pred n, t.isReachable p = true → t.Above g p) ∧
      ∀ x, (∀ p ∈ l.pred n, t.isReachable p = true → t.Above x p) → t.Above x g := by
  obtain ⟨hnone, hsome⟩ := foldl_meetNext_spec hnum ht hroom (l.pred n) none (by simp)
  cases hg : (l.pred n).foldl (meetNext t.idom (fun n => order.idxOf n) room) none with
  | none =>
    have := (hnone.1 hg).2 v hv
    simp [hvr] at this
  | some g =>
    obtain ⟨h₁, _, h₃, h₄⟩ := hsome g hg
    exact ⟨g, hg, h₁, h₃, fun x hx => h₄ x (by simp) hx⟩

/-! ### Changing one entry -/

/-- The tree in which `d` is above `n`. -/
def put (t : DominatorTree) (n d : Nat) : DominatorTree where
  entry := t.entry
  idom := t.idom.setIfInBounds n (some d)

variable {z g : Nat}

/-- One entry of the table is changed. -/
theorem immediate?_put (hz : z < t.size) (hne : z ≠ t.entry) (n : Nat) :
    (t.put z g).immediate? n = if n = z then some g else t.immediate? n := by
  simp only [immediate?, put, size] at hz ⊢
  by_cases hn : n = z
  · subst hn
    simp [hne, hz]
  · simp [hn, Ne.symm hn]

/-- What gets a node above it is reached. -/
theorem isReachable_put (hz : z < t.size) (n : Nat) :
    (t.put z g).isReachable n = (n == z || t.isReachable n) := by
  simp only [isReachable, put, size] at hz ⊢
  by_cases hn : n = z
  · subst hn
    simp [hz]
  · simp [hn, Ne.symm hn]

/-- A change below a node changes nothing above it. -/
theorem above_put_of_not_above (hz : z < t.size) (hne : z ≠ t.entry) (h : ¬t.Above z n) :
    (t.put z g).Above a n ↔ t.Above a n := by
  refine ⟨fun ha => ?_, fun ha => ?_⟩
  · induction ha with
    | self => exact .self _
    | @up d n hd _ ih =>
      have hnz : n ≠ z := fun he => h (by rw [he]; exact .self z)
      rw [immediate?_put hz hne, if_neg hnz] at hd
      exact .up hd (ih fun hzd => h (.up hd hzd))
  · induction ha with
    | self => exact .self _
    | @up d n hd _ ih =>
      have hnz : n ≠ z := fun he => h (by rw [he]; exact .self z)
      refine .up (d := d) ?_ (ih fun hzd => h (.up hd hzd))
      rw [immediate?_put hz hne, if_neg hnz, hd]

/-- Below a change the walk up is as before until the changed node, and then the new one. -/
theorem above_put_of_above (ht : t.Rising order) (hz : z < t.size) (hne : z ≠ t.entry)
    (hg : order.idxOf z < order.idxOf g) (h : t.Above z n) :
    (t.put z g).Above a n ↔ (t.Above a n ∧ t.Above z a) ∨ t.Above a g := by
  have hzg : ¬t.Above z g := fun hzg => by
    rcases hzg.eq_or_lt ht with rfl | h <;> omega
  have hup : (t.put z g).immediate? z = some g := by simp [immediate?_put hz hne]
  -- the walk from `n` passes `z` at its end, and only there does the change matter
  induction h with
  | self =>
    refine ⟨fun ha => ?_, ?_⟩
    · cases ha with
      | self => exact .inl ⟨.self _, .self _⟩
      | up hd ha =>
        obtain rfl : g = _ := Option.some.inj (hup.symm.trans hd)
        exact .inr ((above_put_of_not_above hz hne hzg).1 ha)
    · rintro (⟨ha, hna⟩ | ha)
      · have hza : a = z := by
          rcases ha.eq_or_lt ht with h₁ | h₁
          · exact h₁
          · rcases hna.eq_or_lt ht with h₂ | h₂
            · exact h₂.symm
            · omega
        rw [hza]
        exact .self _
      · exact .up hup ((above_put_of_not_above hz hne hzg).2 ha)
  | @up d n hd hzd ih =>
    have hnz : n ≠ z := by
      rintro rfl
      have := (ht.rises hd).1
      rcases hzd.eq_or_lt ht with rfl | h <;> omega
    have hd' : (t.put z g).immediate? n = some d := by simp [immediate?_put hz hne, hnz, hd]
    refine ⟨fun ha => ?_, ?_⟩
    · cases ha with
      | self => exact .inl ⟨.self _, .up hd hzd⟩
      | up he ha =>
        obtain rfl : d = _ := Option.some.inj (hd'.symm.trans he)
        rcases ih.1 ha with ⟨h₁, h₂⟩ | h
        · exact .inl ⟨.up hd h₁, h₂⟩
        · exact .inr h
    · rintro (⟨ha, hza⟩ | ha)
      · cases ha with
        | self => exact .self _
        | up he ha =>
          obtain rfl : d = _ := Option.some.inj (hd.symm.trans he)
          exact .up hd' (ih.2 (.inl ⟨ha, hza⟩))
      · exact .up hd' (ih.2 (.inr ha))

end DominatorTree

end Restructure
