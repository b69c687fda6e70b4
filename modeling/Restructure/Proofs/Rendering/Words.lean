namespace Restructure.Text

/-!
# Words — what a text shows outside of its brackets

A rendered value is read from the outside: the operator that was written last is the one that binds
weakest among those outside of all brackets. So a text is cut at the spaces that no bracket
encloses, and each word in between has a rank, that of the operator it is.

* `Bracketed` — every bracket of the text is closed in it.
* `words` — the text cut at its outer spaces; `words_append_space` and `words_enclosed` compute it,
  and `words_injective` says that nothing is lost.
* `rank`, `lowest` — how tightly a word binds, and the loosest word of several.
* `split_last`, `split_first` — where operands are joined by their loosest word, they can be told
  apart again.
* `IsSymbol`, `joined` — a symbol, and texts with one symbol between them.
-/

variable {c : Char} {s t r : List Char} {d : Nat}

/-! ### Brackets -/

/-- Every bracket that is opened in the text is closed in it, and the other way round. -/
inductive Bracketed : List Char → Prop
  | nil : Bracketed []
  | cons {c : Char} {t : List Char} (hopen : c ≠ '(') (hclose : c ≠ ')') (h : Bracketed t) :
      Bracketed (c :: t)
  | group {s t : List Char} (hs : Bracketed s) (ht : Bracketed t) :
      Bracketed ('(' :: (s ++ ')' :: t))

/-- Two texts with closed brackets. -/
theorem Bracketed.append (hs : Bracketed s) (ht : Bracketed t) : Bracketed (s ++ t) := by
  induction hs with
  | nil => exact ht
  | cons hopen hclose _ ih => exact .cons hopen hclose ih
  | group hs _ _ ih =>
    rw [List.cons_append, List.append_assoc, List.cons_append]
    exact .group hs ih

/-- The text in brackets. -/
def enclosed (s : List Char) : List Char := '(' :: (s ++ [')'])

/-- A text with closed brackets, in brackets. -/
theorem Bracketed.enclosed (hs : Bracketed s) : Bracketed (enclosed s) := .group hs .nil

/-- The brackets around a text do not hide it. -/
theorem enclosed_injective : Function.Injective enclosed := fun s t h => by
  rw [Text.enclosed, Text.enclosed] at h
  exact List.append_cancel_right (List.cons.inj h).2

/-- A text without brackets. -/
theorem bracketed_of_forall (h : ∀ c ∈ t, c ≠ '(' ∧ c ≠ ')') : Bracketed t := by
  induction t with
  | nil => exact .nil
  | cons c t ih =>
    obtain ⟨hopen, hclose⟩ := h c (List.mem_cons_self ..)
    exact .cons hopen hclose (ih fun c hc => h c (List.mem_cons_of_mem _ hc))

/-! ### Words -/

/-- Puts a character in front of the first word. -/
def glue (c : Char) : List (List Char) → List (List Char)
  | [] => [[c]]
  | w :: ws => (c :: w) :: ws

/-- The number of open brackets behind a character. -/
def opened (d : Nat) (c : Char) : Nat :=
  if c = '(' then d + 1 else if c = ')' then d - 1 else d

/-- The words of a text around which `d` brackets are open. -/
def wordsWithin : (d : Nat) → List Char → List (List Char)
  | _, [] => [[]]
  | d, c :: t =>
    if c = ' ' ∧ d = 0 then [] :: wordsWithin d t else glue c (wordsWithin (opened d c) t)

/-- The words of a text: it is cut at the spaces that no bracket encloses. -/
def words (t : List Char) : List (List Char) := wordsWithin 0 t

/-- Only the first word gets the character. -/
theorem glue_append {ws : List (List Char)} (hws : ws ≠ []) (vs : List (List Char)) :
    glue c (ws ++ vs) = glue c ws ++ vs := by
  cases ws with
  | nil => exact absurd rfl hws
  | cons w ws => rfl

/-- Every text has a word, if only an empty one. -/
theorem wordsWithin_ne_nil (d : Nat) (t : List Char) : wordsWithin d t ≠ [] := by
  cases t with
  | nil => exact List.cons_ne_nil _ _
  | cons c t =>
    rw [wordsWithin]
    split
    · exact List.cons_ne_nil _ _
    · cases wordsWithin (opened d c) t <;> exact List.cons_ne_nil _ _

/-- Other characters open and close no brackets. -/
theorem opened_of_ne (hopen : c ≠ '(') (hclose : c ≠ ')') : opened d c = d := by
  rw [opened, if_neg hopen, if_neg hclose]

/-- A character that neither separates words nor opens brackets. -/
theorem words_cons (hspace : c ≠ ' ') (hopen : c ≠ '(') (hclose : c ≠ ')') :
    words (c :: t) = glue c (words t) := by
  rw [words, wordsWithin, if_neg fun h => hspace h.1, opened_of_ne hopen hclose, words]

/-- Within brackets nothing is cut. -/
theorem wordsWithin_append (h : Bracketed t) (d : Nat) (r : List Char) :
    wordsWithin (d + 1) (t ++ r) = t.foldr glue (wordsWithin (d + 1) r) := by
  induction h generalizing d r with
  | nil => rfl
  | @cons c t hopen hclose _ ih =>
    rw [List.cons_append, wordsWithin, if_neg fun h => Nat.succ_ne_zero d h.2,
      opened_of_ne hopen hclose, ih, List.foldr_cons]
  -- inside the group one bracket more is open; its end closes that bracket again
  | @group s t _ _ ihs iht =>
    have hclosing : wordsWithin (d + 2) (')' :: (t ++ r))
        = glue ')' (t.foldr glue (wordsWithin (d + 1) r)) := by
      rw [wordsWithin, if_neg fun h => Nat.succ_ne_zero _ h.2, ← iht]
      rfl
    rw [List.cons_append, List.append_assoc, List.cons_append, wordsWithin,
      if_neg fun h => Nat.succ_ne_zero d h.2, List.foldr_cons, List.foldr_append, List.foldr_cons,
      ← hclosing, ← ihs (d + 1)]
    rfl

/-- Brackets that enclose the beginning of a text. -/
theorem words_enclosed_append (hs : Bracketed s) (r : List Char) :
    words (enclosed s ++ r) = (enclosed s).foldr glue (words r) := by
  have hclosing : wordsWithin 1 (')' :: r) = glue ')' (words r) := rfl
  rw [enclosed, List.cons_append, List.append_assoc, List.foldr_cons, List.foldr_append,
    List.foldr_cons, List.foldr_nil, ← hclosing, ← wordsWithin_append hs 0]
  rfl

/-- A text in front of the first word. -/
theorem foldr_glue_cons (w v : List Char) (ws : List (List Char)) :
    w.foldr glue (v :: ws) = (w ++ v) :: ws := by
  induction w with
  | nil => rfl
  | cons c w ih => rw [List.foldr_cons, ih, glue, List.cons_append]

/-- A text in brackets is one word. -/
theorem words_enclosed (hs : Bracketed s) : words (enclosed s) = [enclosed s] := by
  have h := words_enclosed_append hs []
  rwa [List.append_nil, show words [] = [[]] from rfl, foldr_glue_cons, List.append_nil] at h

/-- A text without spaces and brackets is one word. -/
theorem words_of_forall (h : ∀ c ∈ t, c ≠ ' ' ∧ c ≠ '(' ∧ c ≠ ')') : words t = [t] := by
  induction t with
  | nil => rfl
  | cons c t ih =>
    obtain ⟨hspace, hopen, hclose⟩ := h c (List.mem_cons_self ..)
    rw [words_cons hspace hopen hclose, ih fun c hc => h c (List.mem_cons_of_mem _ hc), glue]

/-- Only the first word gets the text. -/
theorem foldr_glue_append (w : List Char) {ws : List (List Char)} (hws : ws ≠ [])
    (vs : List (List Char)) : w.foldr glue (ws ++ vs) = w.foldr glue ws ++ vs := by
  cases ws with
  | nil => exact absurd rfl hws
  | cons v ws => rw [List.cons_append, foldr_glue_cons, foldr_glue_cons, List.cons_append]

/-- A space behind a text whose brackets are closed separates its words from those that follow. -/
theorem words_append_space (h : Bracketed t) (r : List Char) :
    words (t ++ ' ' :: r) = words t ++ words r := by
  induction h with
  | nil => rfl
  | @cons c t hopen hclose _ ih =>
    rw [List.cons_append]
    by_cases hspace : c = ' '
    · subst hspace
      exact congrArg ([] :: ·) ih
    · rw [words_cons hspace hopen hclose, words_cons hspace hopen hclose, ih]
      exact glue_append (wordsWithin_ne_nil 0 t) _
  -- a group at the beginning is part of the first word as a whole
  | @group s t hs _ _ ih =>
    have hgroup : ∀ t, '(' :: (s ++ ')' :: t) = enclosed s ++ t := fun t => by simp [enclosed]
    rw [hgroup, List.append_assoc, words_enclosed_append hs, words_enclosed_append hs, ih]
    exact foldr_glue_append _ (wordsWithin_ne_nil 0 t) _

/-! ### Texts from words -/

/-- The text with the given words. -/
def unwords : List (List Char) → List Char
  | [] => []
  | [w] => w
  | w :: v :: ws => w ++ ' ' :: unwords (v :: ws)

/-- A character in front of the first word stands in front of the text. -/
theorem unwords_glue (ws : List (List Char)) : unwords (glue c ws) = c :: unwords ws := by
  match ws with
  | [] => rfl
  | [w] => rfl
  | w :: v :: ws => rfl

/-- The words make up the text again. -/
theorem unwords_wordsWithin (d : Nat) (t : List Char) : unwords (wordsWithin d t) = t := by
  induction t generalizing d with
  | nil => rfl
  | cons c t ih =>
    rw [wordsWithin]
    split
    -- a space that separates two words comes back between them
    · rename_i hspace
      obtain ⟨w, ws, hws⟩ := List.exists_cons_of_ne_nil (wordsWithin_ne_nil d t)
      rw [hws, unwords, ← hws, ih, hspace.1, List.nil_append]
    · rw [unwords_glue, ih]

/-- Nothing of a text is lost in its words. -/
theorem words_injective : Function.Injective words := fun s t h => by
  rw [← unwords_wordsWithin 0 s, ← unwords_wordsWithin 0 t]
  exact congrArg unwords h

/-! ### Ranks -/

/-- How tightly a word binds as an operator. What is no operator binds tightest. -/
def rank : List Char → Nat
  | ['?'] | [':'] => 0
  | ['|', '|'] => 1
  | ['&', '&'] => 2
  | ['|'] => 3
  | ['^'] => 4
  | ['&'] => 5
  | ['=', '='] | ['!', '='] | ['<'] | ['>', '='] | ['>'] | ['<', '='] => 7
  | ['<', '<'] | ['>', '>'] | ['>', '>', '>'] => 8
  | ['+'] | ['-'] => 9
  | ['*'] | ['/'] | ['%'] => 10
  | _ => 15

/-- The rank of the loosest word. -/
def lowest : List (List Char) → Nat
  | [] => 15
  | w :: ws => min (rank w) (lowest ws)

/-- No word binds tighter than one that is no operator. -/
theorem rank_le (w : List Char) : rank w ≤ 15 := by
  unfold rank
  split <;> decide

/-- The loosest word of two lists is the looser one of their loosest words. -/
theorem lowest_append (ws vs : List (List Char)) :
    lowest (ws ++ vs) = min (lowest ws) (lowest vs) := by
  induction ws with
  | nil =>
    have hle : lowest vs ≤ 15 := by
      cases vs with
      | nil => exact Nat.le_refl 15
      | cons v vs => exact Nat.le_trans (Nat.min_le_left _ _) (rank_le v)
    rw [List.nil_append, lowest, Nat.min_eq_right hle]
  | cons w ws ih => rw [List.cons_append, lowest, lowest, ih, Nat.min_assoc]

/-- No word binds looser than the loosest one. -/
theorem lowest_le_rank {w : List Char} {ws : List (List Char)} (h : w ∈ ws) :
    lowest ws ≤ rank w := by
  induction ws with
  | nil => cases h
  | cons v ws ih =>
    rw [lowest]
    rcases List.mem_cons.1 h with rfl | h
    · exact Nat.min_le_left _ _
    · exact Nat.le_trans (Nat.min_le_right _ _) (ih h)

/-! ### Telling operands apart -/

section Split

variable {ls rs ls' rs' : List (List Char)} {w w' : List Char}

/-- A list is split at two of its members: at the same place, or one of them lies in front of the
    other. -/
theorem append_cons_cases (h : ls ++ w :: rs = ls' ++ w' :: rs') :
    (ls = ls' ∧ w = w' ∧ rs = rs') ∨ (w ∈ ls' ∧ w' ∈ rs) ∨ (w' ∈ ls ∧ w ∈ rs') := by
  induction ls generalizing ls' with
  -- one of the two members is the first of the list
  | nil =>
    cases ls' with
    | nil => exact .inl ⟨rfl, List.cons.inj h⟩
    | cons v ls' =>
      obtain ⟨rfl, rfl⟩ := List.cons.inj h
      exact .inr (.inl ⟨List.mem_cons_self .., List.mem_append_right _ (List.mem_cons_self ..)⟩)
  | cons v ls ih =>
    cases ls' with
    | nil =>
      obtain ⟨rfl, rfl⟩ := List.cons.inj h
      exact .inr (.inr ⟨List.mem_cons_self .., List.mem_append_right _ (List.mem_cons_self ..)⟩)
    | cons v' ls' =>
      obtain ⟨rfl, htail⟩ := List.cons.inj h
      rcases ih htail with ⟨rfl, rfl, rfl⟩ | ⟨hw, hw'⟩ | ⟨hw', hw⟩
      · exact .inl ⟨rfl, rfl, rfl⟩
      · exact .inr (.inl ⟨List.mem_cons_of_mem _ hw, hw'⟩)
      · exact .inr (.inr ⟨List.mem_cons_of_mem _ hw', hw⟩)

/-- Two texts are joined at the last of their loosest words: the words are the same, and so are the
    texts. -/
theorem split_last (h : ls ++ w :: rs = ls' ++ w' :: rs') (hl : rank w ≤ lowest ls)
    (hr : rank w < lowest rs) (hl' : rank w' ≤ lowest ls') (hr' : rank w' < lowest rs') :
    ls = ls' ∧ w = w' ∧ rs = rs' := by
  rcases append_cons_cases h with h | ⟨hw, hw'⟩ | ⟨hw', hw⟩
  · exact h
  -- if the places differ, each of the two words is bound by the other side of the other one
  · have := lowest_le_rank hw
    have := lowest_le_rank hw'
    omega
  · have := lowest_le_rank hw
    have := lowest_le_rank hw'
    omega

/-- Two texts are joined at the first of their loosest words. -/
theorem split_first (h : ls ++ w :: rs = ls' ++ w :: rs') (hl : rank w < lowest ls)
    (hl' : rank w < lowest ls') : ls = ls' ∧ rs = rs' := by
  rcases append_cons_cases h with ⟨hls, _, hrs⟩ | ⟨hw, _⟩ | ⟨hw, _⟩
  · exact ⟨hls, hrs⟩
  · exact absurd (lowest_le_rank hw) (by omega)
  · exact absurd (lowest_le_rank hw) (by omega)

end Split

/-! ### Chains of operands -/

/-- The word of an operator holds neither spaces nor brackets. -/
def IsSymbol (w : List Char) : Prop := ∀ c ∈ w, c ≠ ' ' ∧ c ≠ '(' ∧ c ≠ ')'

/-- A symbol has no brackets. -/
theorem IsSymbol.bracketed {w : List Char} (hw : IsSymbol w) : Bracketed w :=
  bracketed_of_forall fun c hc => (hw c hc).2

/-- An operator between texts with closed brackets. -/
theorem bracketed_between {w : List Char} (hs : Bracketed s) (hw : IsSymbol w) (hr : Bracketed r) :
    Bracketed (s ++ ' ' :: (w ++ ' ' :: r)) :=
  hs.append (.cons (by decide) (by decide)
    (hw.bracketed.append (.cons (by decide) (by decide) hr)))

/-- An operator between its operands. -/
theorem words_between {w : List Char} (hs : Bracketed s) (hw : IsSymbol w) (r : List Char) :
    words (s ++ ' ' :: (w ++ ' ' :: r)) = words s ++ w :: words r := by
  rw [words_append_space hs, words_append_space hw.bracketed, words_of_forall hw]
  rfl

/-- The loosest word of an operator and its operands. -/
theorem lowest_between {w : List Char} (hs : Bracketed s) (hw : IsSymbol w) (r : List Char) :
    lowest (words (s ++ ' ' :: (w ++ ' ' :: r)))
      = min (lowest (words s)) (min (rank w) (lowest (words r))) := by
  rw [words_between hs hw, lowest_append, lowest]

/-- Texts with an operator between each two. -/
def joined (w : List Char) : List (List Char) → List Char
  | [] => []
  | [t] => t
  | t :: u :: ts => t ++ ' ' :: (w ++ ' ' :: joined w (u :: ts))

/-- The texts may be operands of the operator: none holds it or a looser one outside of brackets. -/
def Joinable (w : List Char) (ts : List (List Char)) : Prop :=
  ∀ t ∈ ts, Bracketed t ∧ rank w < lowest (words t)

section Joined

variable {w : List Char} {ts us : List (List Char)} (hw : IsSymbol w)
include hw

/-- The brackets of joined texts are closed. -/
theorem Joinable.bracketed (h : Joinable w ts) : Bracketed (joined w ts) := by
  induction ts with
  | nil => exact .nil
  | cons t ts ih =>
    obtain ⟨ht, hts⟩ := List.forall_mem_cons.1 h
    cases ts with
    | nil => exact ht.1
    | cons u ts => exact bracketed_between ht.1 hw (ih hts)

/-- The operator is the loosest word of a chain. -/
theorem Joinable.lowest_joined (h : Joinable w ts) (hlen : 2 ≤ ts.length) :
    lowest (words (joined w ts)) = rank w := by
  induction ts with
  | nil => exact absurd hlen (by decide)
  | cons t ts ih =>
    obtain ⟨ht, hts⟩ := List.forall_mem_cons.1 h
    match ts with
    | [] => exact absurd hlen (show ¬2 ≤ 1 by decide)
    | [u] =>
      have hu := (hts u (List.mem_cons_self ..)).2
      rw [joined, lowest_between ht.1 hw, joined]
      omega
    | u :: v :: ts =>
      have htail := ih hts (Nat.le_add_left 2 _)
      rw [joined, lowest_between ht.1 hw, htail]
      omega

/-- A chain is read in one way. -/
theorem Joinable.joined_injective (hts : Joinable w ts) (hus : Joinable w us) (hne : ts ≠ [])
    (hne' : us ≠ []) (h : joined w ts = joined w us) : ts = us := by
  induction ts generalizing us with
  | nil => exact absurd rfl hne
  | cons t ts ih =>
    obtain ⟨u, us, rfl⟩ := List.exists_cons_of_ne_nil hne'
    obtain ⟨ht, hts'⟩ := List.forall_mem_cons.1 hts
    obtain ⟨hu, hus'⟩ := List.forall_mem_cons.1 hus
    cases ts with
    | nil =>
      cases us with
      | nil => exact congrArg (fun t => [t]) h
      | cons u' us =>
        have hlow := hus.lowest_joined hw (Nat.le_add_left 2 _)
        rw [← h, joined] at hlow
        omega
    | cons t' ts =>
      cases us with
      | nil =>
        have hlow := hts.lowest_joined hw (Nat.le_add_left 2 _)
        rw [h, joined] at hlow
        omega
      | cons u' us =>
        rw [joined, joined] at h
        have hwords := congrArg words h
        rw [words_between ht.1 hw, words_between hu.1 hw] at hwords
        obtain ⟨hfirst, hrest⟩ := split_first hwords ht.2 hu.2
        rw [words_injective hfirst,
          ih hts' hus' (List.cons_ne_nil _ _) (List.cons_ne_nil _ _) (words_injective hrest)]

end Joined

end Restructure.Text
