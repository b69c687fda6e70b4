import Mathlib.Tactic.Tauto
import Restructure.Proofs.Region.Ensures
import Restructure.Proofs.Region.Marks

namespace Restructure

/-!
# Placed labels — what code that has been written does to the labels

Labels are placed where their blocks are written, and a block is written once. Only a `do` loop
enters its header twice, so only its label is placed in front of the loop and inside it again.

* `Marks.Placed` — the labels and jumps of a piece of code, between the progress before it and
  behind it.
* `Labelled` — a sequence of statements has become another one by such a piece of code.
-/

/-! ### Targets of jumps -/

/-- One number is put among the others. -/
theorem Loop.mem_insertAscending {n m : Nat} {ts : List Nat} :
    m ∈ Loop.insertAscending n ts ↔ m = n ∨ m ∈ ts := by
  induction ts with
  | nil => simp [Loop.insertAscending]
  | cons t ts ih =>
    rw [Loop.insertAscending]
    split
    · simp
    · split
      · rename_i heq
        simp [heq]
      · simp only [List.mem_cons, ih]
        tauto

/-- Several numbers are put among the others. -/
theorem Loop.mem_foldl_insertAscending {m : Nat} {ns ts : List Nat} :
    m ∈ ns.foldl (fun ts n => Loop.insertAscending n ts) ts ↔ m ∈ ns ∨ m ∈ ts := by
  induction ns generalizing ts with
  | nil => simp
  | cons n ns ih =>
    rw [List.foldl_cons, ih, Loop.mem_insertAscending, List.mem_cons]
    tauto

/-! ### Pieces of code -/

/-- The marks `k` of a piece of code within `frames` agree with the progress `p` before it and `p'`
    behind it. -/
structure Marks.Placed (frames : Frames) (k : Marks) (p p' : Progress) : Prop where
  written : ∀ n ∈ p.written, n ∈ p'.written
  targets : ∀ n ∈ p.targets, n ∈ p'.targets
  jumps : ∀ n, 0 < k.jumps n → n ∈ p'.targets
  placed : ∀ n, p'.placed.count n = p.placed.count n + k.labels n
  fresh : ∀ n, 0 < k.labels n → n ∉ p.written ∧ n ∈ p'.written
  once : ∀ n, 0 < k.labels n → k.labels n = 1 + k.repeats n
  again : ∀ n, k.labels n = 0 → k.repeats n = 0
  twice : ∀ n, k.repeats n ≤ 1
  headers : ∀ n, frames.isHeader n = true → k.repeats n = 0

namespace Marks.Placed

variable {frames : Frames} {k k' : Marks} {p p₁ p' : Progress}

/-- Nothing has been written. -/
theorem refl (frames : Frames) (p : Progress) : Placed frames 0 p p where
  written _ h := h
  targets _ h := h
  jumps _ h := absurd h (Nat.lt_irrefl 0)
  placed _ := rfl
  fresh _ h := absurd h (Nat.lt_irrefl 0)
  once _ h := absurd h (Nat.lt_irrefl 0)
  again _ _ := rfl
  twice _ := Nat.zero_le _
  headers _ _ := rfl

/-- A piece of code behind another one: their labels differ. -/
theorem trans (h : k.Placed frames p p₁) (h' : k'.Placed frames p₁ p') :
    (k + k').Placed frames p p' := by
  -- a label of the second piece belongs to a block that the first one has not written
  have hsplit : ∀ n, k.labels n = 0 ∨ k'.labels n = 0 := fun n => by
    by_contra hboth
    have h₁ := (h.fresh n (by omega)).2
    exact (h'.fresh n (by omega)).1 h₁
  refine ⟨fun n hn => h'.written n (h.written n hn), fun n hn => h'.targets n (h.targets n hn),
    fun n hn => ?_, fun n => ?_, fun n hn => ?_, fun n hn => ?_, fun n hn => ?_, fun n => ?_,
    fun n hn => ?_⟩
  · rw [jumps_add] at hn
    by_cases hk : 0 < k.jumps n
    · exact h'.targets n (h.jumps n hk)
    · exact h'.jumps n (by omega)
  · rw [h'.placed, h.placed, labels_add, Nat.add_assoc]
  · rw [labels_add] at hn
    by_cases hk : 0 < k.labels n
    · exact ⟨(h.fresh n hk).1, h'.written n (h.fresh n hk).2⟩
    · have hk' := h'.fresh n (by omega)
      exact ⟨fun hw => hk'.1 (h.written n hw), hk'.2⟩
  · rw [labels_add] at hn ⊢
    rw [repeats_add]
    rcases hsplit n with h₀ | h₀
    · have := h.again n h₀
      have := h'.once n (by omega)
      omega
    · have := h'.again n h₀
      have := h.once n (by omega)
      omega
  · rw [labels_add] at hn
    rw [repeats_add, h.again n (by omega), h'.again n (by omega)]
  · rw [repeats_add]
    rcases hsplit n with h₀ | h₀
    · have := h.again n h₀
      have := h'.twice n
      omega
    · have := h'.again n h₀
      have := h.twice n
      omega
  · rw [repeats_add, h.headers n hn, h'.headers n hn]

/-- Code within one more construct. -/
theorem outer {f : Frame} (h : k.Placed (f :: frames) p p') : k.Placed frames p p' :=
  { h with headers := fun n hn => h.headers n (by simp_all [Frames.isHeader]) }

/-- More blocks have been written behind the code. -/
theorem markAll (h : k.Placed frames p p') (ns : List Nat) :
    k.Placed frames p { p' with written := ns ++ p'.written } :=
  { h with
    written := fun n hn => List.mem_append_right _ (h.written n hn)
    fresh := fun n hn => ⟨(h.fresh n hn).1, List.mem_append_right _ (h.fresh n hn).2⟩ }

/-- A label of a block that is not yet written. -/
theorem label {n : Nat} (hn : n ∉ p.written) (ns : List Nat) (hns : n ∈ ns) :
    (Stmt.label n).mark.Placed frames p
      { p with written := ns ++ p.written, placed := n :: p.placed } := by
  have hpos : ∀ m, 0 < (Stmt.label n).mark.labels m → m = n := fun m hm => by
    simpa [Stmt.mark_label, List.count_pos_iff] using hm
  refine ⟨fun m hm => List.mem_append_right _ hm, fun m hm => hm, fun m hm => ?_, fun m => ?_,
    fun m hm => ?_, fun m hm => ?_, fun m _ => rfl, fun m => Nat.zero_le _, fun m _ => rfl⟩
  · simp [Stmt.mark_label] at hm
  · show (n :: p.placed).count m = p.placed.count m + [n].count m
    rw [← List.count_append, List.count_cons, List.count_append, List.count_singleton]
  · rw [hpos m hm]
    exact ⟨hn, List.mem_append_left _ hns⟩
  · rw [hpos m hm]
    simp [Stmt.mark_label]

/-- A jump whose target has been noted. -/
theorem jump {s : Stmt} {n : Nat} (hs : s.mark = (Stmt.goto n).mark) :
    s.mark.Placed frames p
      { p with targets := [n].foldl (fun ts n => Loop.insertAscending n ts) p.targets } := by
  rw [hs]
  refine ⟨fun m hm => hm, fun m hm => Loop.mem_insertAscending.2 (.inr hm),
    fun m hm => Loop.mem_insertAscending.2 (.inl ?_),
    fun m => rfl, fun m hm => absurd hm (Nat.lt_irrefl 0),
    fun m hm => absurd hm (Nat.lt_irrefl 0), fun m _ => rfl, fun m => Nat.zero_le _, fun m _ => rfl⟩
  simpa [Stmt.mark_goto, List.count_pos_iff] using hm

end Marks.Placed

/-! ### Sequences of statements -/

/-- Every label among the statements belongs to a block that has been written. -/
def Behind (ss : List Stmt) (p : Progress) : Prop :=
  ∀ n, 0 < (Stmt.marks ss).labels n → n ∈ p.written

/-- Nothing stands in front. -/
theorem Behind.nil (p : Progress) : Behind [] p := fun _ h => absurd h (Nat.lt_irrefl 0)

/-- A label at the beginning of `ss` is there in `ts`, too. -/
def KeepsOpening (ss ts : List Stmt) : Prop :=
  ∀ n, Stmt.opening? ss = some n → Stmt.opening? ts = some n

/-- One more statement at the end. -/
theorem KeepsOpening.concat {ss ts : List Stmt} (h : KeepsOpening ss ts) (s : Stmt) :
    KeepsOpening ss (ts ++ [s]) :=
  fun n hn => Stmt.opening_concat s (h n hn)

/-- Editing the end keeps what the code begins with. -/
theorem Edited.keepsOpening {ss ts : List Stmt} (h : Edited ss ts) : KeepsOpening ss ts :=
  fun _ hn => Stmt.opening_of_edited h hn

/-- The statements `ss` have become `ts` by a piece of code. -/
def Labelled (frames : Frames) (ss : List Stmt) (p : Progress) (ts : List Stmt) (p' : Progress) :
    Prop :=
  ∃ k : Marks, Stmt.marks ts = Stmt.marks ss + k ∧ k.Placed frames p p' ∧ KeepsOpening ss ts

namespace Labelled

variable {frames : Frames} {ss ts us : List Stmt} {p p₁ p' : Progress}

/-- Nothing is placed. -/
theorem refl (frames : Frames) (ss : List Stmt) (p : Progress) : Labelled frames ss p ss p :=
  ⟨0, by simp, .refl frames p, fun _ h => h⟩

/-- One piece of code behind another one. -/
theorem trans (h : Labelled frames ss p ts p₁) (h' : Labelled frames ts p₁ us p') :
    Labelled frames ss p us p' := by
  obtain ⟨k, hk, hp, ho⟩ := h
  obtain ⟨k', hk', hp', ho'⟩ := h'
  exact ⟨k + k', by rw [hk', hk, Marks.add_assoc], hp.trans hp', fun n hn => ho' n (ho n hn)⟩

/-- The label in front of the code stands in front of it still. -/
theorem behind (h : Labelled frames ss p ts p') (hss : Behind ss p) : Behind ts p' := by
  obtain ⟨k, hk, hp, _⟩ := h
  intro n hn
  rw [hk, Marks.labels_add] at hn
  by_cases hs : 0 < (Stmt.marks ss).labels n
  · exact hp.written n (hss n hs)
  · exact (hp.fresh n (by omega)).2

/-- Behind the code statements without labels are edited. -/
theorem edited (h : Labelled frames ss p ts p') (he : Edited ts us) :
    Labelled frames ss p us p' := by
  obtain ⟨k, hk, hp, ho⟩ := h
  exact ⟨k, by rw [Stmt.marks_of_edited he, hk], hp,
    fun n hn => Stmt.opening_of_edited he (ho n hn)⟩

/-- More blocks are written. -/
theorem markAll (h : Labelled frames ss p ts p') (ns : List Nat) :
    Labelled frames ss p ts { p' with written := ns ++ p'.written } := by
  obtain ⟨k, hk, hp, ho⟩ := h
  exact ⟨k, hk, hp.markAll ns, ho⟩

/-- A statement that is no `do` loop and has the marks `k`. -/
theorem concat {s : Stmt} (hs : ∀ c b, s ≠ .doWhile c b) (hp : s.mark.Placed frames p p') :
    Labelled frames ss p (ss ++ [s]) p' :=
  ⟨s.mark, Stmt.marks_concat_of_ne ss hs, hp, fun _ hn => Stmt.opening_concat s hn⟩

/-- The code begins with what it began with. -/
theorem keepsOpening (h : Labelled frames ss p ts p') : KeepsOpening ss ts := by
  obtain ⟨_, _, _, ho⟩ := h
  exact ho

/-- The code of a scope of its own. -/
theorem placed (h : Labelled frames [] p ts p') : (Stmt.marks ts).Placed frames p p' := by
  obtain ⟨k, hk, hp, _⟩ := h
  rw [hk, Stmt.marks_nil, Marks.zero_add]
  exact hp

end Labelled

end Restructure
