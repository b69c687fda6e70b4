import Mathlib.Data.List.Chain
import Restructure.Proofs.UniqueReading

namespace Restructure

/-!
# Shown effects — what a text tells about increments

Increments other than `--x` leave two characters beside each other that nothing else in arithmetic
does: `++`, an equals sign, or a minus directly behind a name. But a minus sign has no blank behind
it, and its operand may begin with another one, so that `--x` is the text of the increment and of
the value of `x` negated twice. All texts without other increments are those of values without any:
the sign of a literal is read as a negation, and `--x` as two of them.

* `Expr.Arithmetic` — the values under study.
* `Expr.updates` — whether a value holds an increment other than `--x`;
  `Expr.Arithmetic.isChain_text` reads it off the text.
* `Expr.dips` — whether `--x` occurs in the text.
* `Expr.negated`, `Expr.decremented` — values of the same text without and with effects.
* `effects_shown_iff` — the result.
-/

open Text

/-! ### The fragment -/

/-- The value is built from locals with identifiers for names, `int` literals, operators, negations
    and increments. -/
inductive Expr.Arithmetic : Expr → Prop
  | int (n : Int) : Arithmetic (.int n)
  | var {v : Local} (hv : IsIdentifier v.name) : Arithmetic (.var v)
  | binary {op : BinaryOp} {l r : Expr} (hl : l.Arithmetic) (hr : r.Arithmetic) :
      Arithmetic (.binary op l r)
  | negate {e : Expr} (he : e.Arithmetic) : Arithmetic (.negate e)
  | increment {v : Local} (hv : IsIdentifier v.name) (n : Int) (before : Bool) :
      Arithmetic (.increment v n before)

namespace Expr

/-- The value holds an increment other than `--x`. -/
def updates : Expr → Bool
  | binary _ l r => l.updates || r.updates
  | negate e => e.updates
  | increment _ n before => !(n == -1 && before)
  | _ => false

/-- The value is a negated local. -/
def isNegatedLocal : Expr → Bool
  | negate (var _) => true
  | _ => false

/-- The value holds an increment `--x` or a local that is negated twice. -/
def dips : Expr → Bool
  | binary _ l r => l.dips || r.dips
  | negate e => e.isNegatedLocal || e.dips
  | increment _ n before => n == -1 && before
  | _ => false

variable {e f l r : Expr} {k : Nat}

/-- A value with an increment has effects. -/
theorem Arithmetic.hasEffects_of_updates (he : e.Arithmetic) (h : e.updates = true) :
    e.hasEffects = true := by
  induction he with
  | binary _ _ ihl ihr =>
    rw [updates, Bool.or_eq_true] at h
    rw [hasEffects, Bool.or_eq_true]
    exact h.imp ihl ihr
  | negate _ ih => exact ih h
  | increment => rfl
  | _ => cases h

/-- A value without increments has none. -/
theorem Arithmetic.hasEffects_eq_false (he : e.Arithmetic) (hup : e.updates = false)
    (hdip : e.dips = false) : e.hasEffects = false := by
  induction he with
  | binary _ _ ihl ihr =>
    rw [updates, Bool.or_eq_false_iff] at hup
    rw [dips, Bool.or_eq_false_iff] at hdip
    rw [hasEffects, ihl hup.1 hdip.1, ihr hup.2 hdip.2]
    rfl
  | negate _ ih =>
    rw [dips, Bool.or_eq_false_iff] at hdip
    exact ih hup hdip.2
  | increment _ n before =>
    rw [dips] at hdip
    rw [updates, hdip] at hup
    cases hup
  | _ => rfl

end Expr

/-! ### Neighbours -/

namespace Text

/-- Two neighbouring characters that belong to no update of a variable: not `++`, no equals sign,
    and no minus directly behind a name. -/
def Apart (a b : Char) : Prop :=
  ¬(a = '+' ∧ b = '+') ∧ b ≠ '=' ∧ ¬(isNameChar a = true ∧ b = '-')

/-- Whether characters are apart can be decided. -/
instance : DecidableRel Apart := fun a b =>
  inferInstanceAs (Decidable (¬(a = '+' ∧ b = '+') ∧ b ≠ '=' ∧ ¬(isNameChar a = true ∧ b = '-')))

variable {c x : Char} {s t : List Char}

/-- What separates texts is apart from everything. -/
theorem isChain_append_cons (hx : x = ' ' ∨ x = ')') :
    (s ++ x :: t).IsChain Apart ↔ s.IsChain Apart ∧ (x :: t).IsChain Apart := by
  have hapart : ∀ a, Apart a x := by
    rcases hx with rfl | rfl <;> simp [Apart]
  rw [List.isChain_append]
  refine and_congr_right fun _ => and_iff_left fun a _ y hy => ?_
  obtain rfl : x = y := by simpa using hy
  exact hapart a

/-- A blank, a bracket or a sign in front of a text that does not begin with an equals sign. -/
theorem isChain_cons_cons (hx : isNameChar x = false) (hplus : x ≠ '+') (hc : c ≠ '=') :
    (x :: c :: t).IsChain Apart ↔ (c :: t).IsChain Apart := by
  have hapart : Apart x c := ⟨fun h => hplus h.1, hc, fun h => by simp [hx] at h⟩
  rw [List.isChain_cons_cons, and_iff_right hapart]

/-- Within a name or a number all characters are apart. -/
theorem isChain_of_names (h : ∀ c ∈ t, isNameChar c = true) : t.IsChain Apart := by
  induction t with
  | nil => exact .nil
  | cons c t ih =>
    refine .cons (ih fun c hc => h c (List.mem_cons_of_mem _ hc)) fun y hy => ?_
    have hname := h y (List.mem_cons_of_mem _ (List.mem_of_mem_head? hy))
    exact ⟨fun h => ne_of_isNameChar hname rfl h.2, ne_of_isNameChar hname rfl,
      fun h => ne_of_isNameChar hname rfl h.2⟩

/-- An equals sign behind another character is never apart. -/
theorem not_isChain_of_mem (h : '=' ∈ t) : ¬(c :: t).IsChain Apart := by
  induction t generalizing c with
  | nil => cases h
  | cons x t ih =>
    intro hchain
    obtain ⟨hapart, htail⟩ := List.isChain_cons_cons.1 hchain
    rcases List.mem_cons.1 h with rfl | h
    · exact hapart.2.1 rfl
    · exact ih h htail

end Text

/-- Of all increments only `--x` has a text whose characters are apart. -/
theorem isChain_incrementText {name : String} (hname : IsIdentifier name) (n : Int)
    (before : Bool) : (incrementText name n before).toList.IsChain Apart ↔ n = -1 ∧ before := by
  obtain ⟨c, t, htext, -, hnames⟩ := hname
  have hchain := isChain_of_names hnames
  have hc := hnames c (List.mem_cons_self ..)
  by_cases hone : n = 1
  · subst hone
    cases before with
    | true =>
      have hup : ¬('+' :: '+' :: (c :: t)).IsChain Apart := fun h =>
        (List.isChain_cons_cons.1 h).1.1 ⟨rfl, rfl⟩
      simpa [incrementText, htext] using hup
    | false =>
      have hup : ¬((c :: t) ++ ['+', '+']).IsChain Apart := fun h =>
        (List.isChain_cons_cons.1 h.right_of_append).1.1 ⟨rfl, rfl⟩
      simpa [incrementText, htext] using hup
  · by_cases hminus : n = -1
    · subst hminus
      cases before with
      | true =>
        have hdown : ('-' :: '-' :: (c :: t)).IsChain Apart :=
          (isChain_cons_cons rfl (by decide) (by decide)).2
            ((isChain_cons_cons rfl (by decide) (ne_of_isNameChar hc rfl)).2 hchain)
        simpa [incrementText, htext] using hdown
      | false =>
        -- the name ends in front of the first minus
        have hdown : ¬((c :: t) ++ ['-', '-']).IsChain Apart := by
          intro h
          obtain ⟨-, -, hapart⟩ := List.isChain_append.1 h
          obtain ⟨x, hx⟩ := Option.isSome_iff_exists.1
            (List.getLast?_isSome.2 (List.cons_ne_nil c t))
          exact (hapart x hx '-' rfl).2.2 ⟨hnames x (List.mem_of_mem_getLast? hx), rfl⟩
        simpa [incrementText, htext] using hdown
    · have hwide : ¬(incrementText name n before).toList.IsChain Apart := by
        rw [incrementText, if_neg hone, if_neg hminus]
        cases before
        all_goals
          simp only [Bool.false_eq_true, if_true, if_false, String.toList_append]
          exact not_isChain_of_mem (by simp)
      simp [hwide, hminus]

/-- The characters of an operator are apart, and so is the blank in front of it. -/
theorem BinaryOp.isChain_symbol (op : BinaryOp) : (' ' :: op.symbol.toList).IsChain Apart := by
  cases op <;> decide

namespace Expr

variable {e f : Expr} {k : Nat}

/-- A negative literal has the text of a negation. -/
theorem text_negSucc (n : Nat) :
    (int (.negSucc n)).text 0 = '-' :: (int (n + 1 : Nat)).text 0 := by
  rw [int, text_int, int, text_int]
  show ("-" ++ Nat.repr (n + 1)).toList = _
  rw [String.toList_append]
  rfl

/-- An increment shows its local and the sign that it is changed with. -/
theorem text_increment (v : Local) (n : Int) (before : Bool) :
    (increment v n before).text 0 = (incrementText v.name n before).toList := text_zero

/-- No text begins with an equals sign. -/
theorem exists_text_of_zero (h : ∃ c t, e.text 0 = c :: t ∧ c ≠ '=') (k : Nat) :
    ∃ c t, e.text k = c :: t ∧ c ≠ '=' := by
  by_cases hk : e.strength < k
  · exact ⟨'(', _, text_of_lt hk, by decide⟩
  · rwa [text_of_le (Nat.not_lt.1 hk)]

/-- The digits of a number. -/
theorem names_ofNat (n : Nat) : ∀ c ∈ (int n).text 0, isNameChar c = true :=
  fun _ hc => isNameChar_of_isDigit (isDigit_of_mem_text hc)

/-- A number does not begin with an equals sign. -/
theorem exists_text_ofNat (n : Nat) : ∃ c t, (int n).text 0 = c :: t ∧ c ≠ '=' := by
  obtain ⟨c, t, ht⟩ := List.exists_cons_of_ne_nil
    (show (int n).text 0 ≠ [] from text_ofNat n ▸ Nat.toDigits_ne_nil)
  exact ⟨c, t, ht, ne_of_isNameChar (names_ofNat n c (ht ▸ List.mem_cons_self ..)) rfl⟩

/-- An increment does not begin with an equals sign. -/
theorem exists_text_increment {name : String} (hname : IsIdentifier name) (n : Int)
    (before : Bool) : ∃ c t, (incrementText name n before).toList = c :: t ∧ c ≠ '=' := by
  obtain ⟨c, t, htext, -, hnames⟩ := hname
  have hc : c ≠ '=' := ne_of_isNameChar (hnames c (List.mem_cons_self ..)) rfl
  rw [incrementText]
  split
  · cases before
    · exact ⟨c, t ++ ['+', '+'], by simp [htext], hc⟩
    · exact ⟨'+', '+' :: c :: t, by simp [htext], by decide⟩
  · split
    · cases before
      · exact ⟨c, t ++ ['-', '-'], by simp [htext], hc⟩
      · exact ⟨'-', '-' :: c :: t, by simp [htext], by decide⟩
    · cases before <;> exact ⟨'(', _, by simp; rfl, by decide⟩

/-- No value under study begins with an equals sign. -/
theorem Arithmetic.exists_text (he : e.Arithmetic) : ∃ c t, e.text 0 = c :: t ∧ c ≠ '=' := by
  induction he with
  | int n =>
    match n with
    | .ofNat n => exact exists_text_ofNat n
    | .negSucc n => exact ⟨'-', _, text_negSucc n, by decide⟩
  | var hv =>
    obtain ⟨c, t, htext, -, hnames⟩ := hv
    exact ⟨c, t, (text_var _).trans htext,
      ne_of_isNameChar (hnames c (List.mem_cons_self ..)) rfl⟩
  | @binary op l r _ _ ihl _ =>
    obtain ⟨c, t, ht, hc⟩ := exists_text_of_zero ihl op.strength
    have htext := text_binary op l r
    rw [ht] at htext
    exact ⟨c, _, htext, hc⟩
  | negate _ _ => exact ⟨'-', _, text_negate _, by decide⟩
  | increment hv n before =>
    rw [text_increment]
    exact exists_text_increment hv n before

/-- Brackets do not matter for what is apart. -/
theorem Arithmetic.isChain_text_of (he : e.Arithmetic) (k : Nat) :
    (e.text k).IsChain Apart ↔ (e.text 0).IsChain Apart := by
  obtain ⟨c, t, ht, hc⟩ := he.exists_text
  by_cases hk : e.strength < k
  · rw [text_of_lt hk, ht, enclosed, List.cons_append,
      isChain_cons_cons rfl (by decide) hc, ← List.cons_append, isChain_append_cons (.inr rfl),
      and_iff_left (List.isChain_singleton _)]
  · rw [text_of_le (Nat.not_lt.1 hk)]

/-- A blank in front of an operand. -/
theorem Arithmetic.isChain_space_text (he : e.Arithmetic) (k : Nat) :
    (' ' :: e.text k).IsChain Apart ↔ (e.text 0).IsChain Apart := by
  obtain ⟨c, t, ht, hc⟩ := exists_text_of_zero he.exists_text k
  rw [← he.isChain_text_of k, ht, isChain_cons_cons rfl (by decide) hc]

/-- The text shows whether a value holds an increment other than `--x`. -/
theorem Arithmetic.isChain_text (he : e.Arithmetic) :
    (e.text 0).IsChain Apart ↔ e.updates = false := by
  induction he with
  | int n =>
    refine iff_of_true ?_ rfl
    match n with
    | .ofNat n => exact isChain_of_names (names_ofNat n)
    | .negSucc n =>
      obtain ⟨c, t, ht, hc⟩ := exists_text_ofNat (n + 1)
      have hdigits := isChain_of_names (names_ofNat (n + 1))
      show ((Expr.int (.negSucc n)).text 0).IsChain Apart
      rw [text_negSucc]
      rw [ht] at hdigits ⊢
      exact (isChain_cons_cons rfl (by decide) hc).2 hdigits
  | @var v hv =>
    obtain ⟨c, t, htext, -, hnames⟩ := hv
    refine iff_of_true ?_ rfl
    rw [text_var, htext]
    exact isChain_of_names hnames
  | @binary op l r hl hr ihl ihr =>
    rw [text_binary, isChain_append_cons (.inl rfl), hl.isChain_text_of, ihl, ← List.cons_append,
      isChain_append_cons (.inl rfl), and_iff_right op.isChain_symbol, hr.isChain_space_text, ihr,
      updates, Bool.or_eq_false_iff]
  | @negate e he ih =>
    obtain ⟨c, t, ht, hc⟩ := exists_text_of_zero he.exists_text 12
    rw [text_negate, ht, isChain_cons_cons rfl (by decide) hc, ← ht, he.isChain_text_of, ih,
      updates]
  | @increment v hv n before =>
    rw [text_increment, isChain_incrementText hv, updates]
    simp

/-! ### Texts without other increments -/

/-- The value of the same text without increments and negative literals, if the value holds no
    increment other than `--x`. Only the names of its locals are kept. -/
def negated : Expr → Expr
  | const (.int n) => if n < 0 then negate (int (-n)) else int n
  | var v => var ⟨0, v.name, ""⟩
  | binary op l r => binary op l.negated r.negated
  | negate e => negate e.negated
  | increment v _ _ => negate (negate (var ⟨0, v.name, ""⟩))
  | e => e

/-- The value of the same text in which locals that are negated twice are decremented instead. -/
def decremented : Expr → Expr
  | negate (negate (var v)) => increment v (-1) true
  | negate e => negate e.decremented
  | binary op l r => binary op l.decremented r.decremented
  | e => e

/-- The locals of which only the names are kept. -/
def IsNamed (v : Local) : Prop := IsIdentifier v.name ∧ v.slot = 0 ∧ v.type = ""

/-- All operands in arithmetic are at positions of strength 12 or less. -/
theorem text_congr (hstrength : min e.strength 12 = min f.strength 12) (h : e.text 0 = f.text 0)
    (hk : k ≤ 12) : e.text k = f.text k := by
  by_cases hweak : e.strength < k
  · have hweak' : f.strength < k := by omega
    rw [text_of_lt hweak, text_of_lt hweak', h]
  · have hstrong : k ≤ f.strength := by omega
    rw [text_of_le (Nat.not_lt.1 hweak), text_of_le hstrong, h]

/-- A negative literal becomes a negation. -/
theorem negated_negSucc (n : Nat) : (int (.negSucc n)).negated = negate (int (n + 1 : Nat)) := by
  rw [int, negated, if_pos (Int.negSucc_lt_zero n)]
  rfl

/-- Without increments and negative literals the text is the same. -/
theorem Arithmetic.text_negated (he : e.Arithmetic) (hup : e.updates = false) (hk : k ≤ 12) :
    e.negated.text k = e.text k := by
  induction he generalizing k with
  | int n =>
    match n with
    | .ofNat n => rfl
    | .negSucc n =>
      rw [negated_negSucc]
      exact text_congr rfl ((text_negate _).trans (text_negSucc n).symm) hk
  | var hv => exact text_congr rfl ((text_var _).trans (text_var _).symm) hk
  | @binary op l r _ _ ihl ihr =>
    rw [updates, Bool.or_eq_false_iff] at hup
    have hten := op.strength_le_ten
    refine text_congr rfl ?_ hk
    rw [negated, text_binary, text_binary, ihl hup.1 (by omega), ihr hup.2 (by omega)]
  | @negate e _ ih =>
    refine text_congr rfl ?_ hk
    rw [negated, text_negate, text_negate, ih hup (Nat.le_refl 12)]
  | @increment v hv n before =>
    simp only [updates, Bool.not_eq_false', Bool.and_eq_true, beq_iff_eq] at hup
    obtain ⟨rfl, rfl⟩ := hup
    refine text_congr rfl ?_ hk
    have hsign : (Expr.negate (.var ⟨0, v.name, ""⟩)).text 12 = '-' :: v.name.toList := by
      rw [text_of_le (Nat.le_refl 12), text_negate, text_of_le (show 12 ≤ 15 by decide), text_var]
    rw [negated, text_negate, hsign, text_increment]
    simp [incrementText]

/-- With decrements in place of double negations the text is the same. -/
theorem text_decremented (e : Expr) (hk : k ≤ 12) : e.decremented.text k = e.text k := by
  induction e using decremented.induct generalizing k with
  | case1 v =>
    refine text_congr rfl ?_ hk
    have hsign : (negate (var v)).text 12 = '-' :: v.name.toList := by
      rw [text_of_le (Nat.le_refl 12), text_negate, text_of_le (show 12 ≤ 15 by decide), text_var]
    rw [decremented, text_negate, hsign, text_increment]
    simp [incrementText]
  | case2 e hvar ih =>
    refine text_congr ?_ ?_ hk
    · rw [decremented]; rfl
      exact hvar
    · rw [decremented, text_negate, text_negate, ih (Nat.le_refl 12)]
      exact hvar
  | case3 op l r ihl ihr =>
    have hten := op.strength_le_ten
    refine text_congr rfl ?_ hk
    rw [decremented, text_binary, text_binary, ihl (by omega), ihr (by omega)]
  | case4 e h₁ h₂ h₃ => rw [decremented] <;> assumption

/-- Without increments and negative literals the value is plain. -/
theorem Arithmetic.negated_plain (he : e.Arithmetic) : e.negated.Plain IsNamed := by
  induction he with
  | int n =>
    match n with
    | .ofNat n => exact Int.natCast_nonneg n
    | .negSucc n =>
      rw [negated_negSucc]
      exact Int.natCast_nonneg (n + 1)
  | var hv => exact ⟨hv, rfl, rfl⟩
  | binary _ _ ihl ihr => exact ⟨ihl, ihr⟩
  | negate _ ih => exact ih
  | increment hv => exact ⟨hv, rfl, rfl⟩

/-- Without increments and negative literals the value is still arithmetic. -/
theorem Arithmetic.negated (he : e.Arithmetic) : e.negated.Arithmetic := by
  induction he with
  | int n =>
    match n with
    | .ofNat n => exact .int _
    | .negSucc n =>
      rw [negated_negSucc]
      exact .negate (.int _)
  | var hv => exact .var hv
  | binary _ _ ihl ihr => exact .binary ihl ihr
  | negate _ ih => exact .negate ih
  | increment hv => exact .negate (.negate (.var hv))

/-- With decrements in place of double negations the value is still arithmetic. -/
theorem Arithmetic.decremented (he : e.Arithmetic) : e.decremented.Arithmetic := by
  induction he with
  | @negate e he ih =>
    cases he with
    | negate hv =>
      cases hv with
      | var hv => exact .increment hv _ _
      | _ => exact .negate ih
    | _ => exact .negate ih
  | int n => exact .int n
  | var hv => exact .var hv
  | binary _ _ ihl ihr => exact .binary ihl ihr
  | increment hv n before => exact .increment hv n before

/-- Values without other increments that have the same text are one value, up to the increments
    `--x` and the signs of literals. -/
theorem Arithmetic.negated_eq (he : e.Arithmetic) (hf : f.Arithmetic) (hup : e.updates = false)
    (hup' : f.updates = false) (h : e.text 0 = f.text 0) : e.negated = f.negated := by
  refine e.negated.eq_of_text (fun v hv => hv.1) ?_ f.negated he.negated_plain hf.negated_plain ?_
  · rintro ⟨slot, name, type⟩ ⟨slot', name', type'⟩ ⟨-, rfl, rfl⟩ ⟨-, rfl, rfl⟩ rfl
    rfl
  · rw [he.text_negated hup (Nat.zero_le _), hf.text_negated hup' (Nat.zero_le _), h]

/-- Without increments the value has no effects. -/
theorem Arithmetic.hasEffects_negated (he : e.Arithmetic) : e.negated.hasEffects = false := by
  induction he with
  | int n =>
    match n with
    | .ofNat n => rfl
    | .negSucc n => rw [negated_negSucc]; rfl
  | binary _ _ ihl ihr => rw [Expr.negated, hasEffects, ihl, ihr]; rfl
  | negate _ ih => exact ih
  | _ => rfl

/-- A decrement has become a double negation of its local, so the value dips as before. -/
theorem Arithmetic.dips_negated (he : e.Arithmetic) (hup : e.updates = false) :
    e.negated.dips = e.dips := by
  induction he with
  | int n =>
    match n with
    | .ofNat n => rfl
    | .negSucc n => rw [negated_negSucc]; rfl
  | var => rfl
  | binary _ _ ihl ihr =>
    rw [updates, Bool.or_eq_false_iff] at hup
    rw [Expr.negated, dips, dips, ihl hup.1, ihr hup.2]
  | @negate e he ih =>
    -- taking `--x` for two signs must not make a negated local out of something else, so this looks
    -- one sign deeper than the induction
    have hsign : e.negated.isNegatedLocal = e.isNegatedLocal := by
      cases he with
      | int n =>
        match n with
        | .ofNat n => rfl
        | .negSucc n => rw [negated_negSucc]; rfl
      | negate he =>
        cases he with
        | int n =>
          match n with
          | .ofNat n => rfl
          | .negSucc n =>
            show (Expr.negate (Expr.int (.negSucc n)).negated).isNegatedLocal = false
            rw [negated_negSucc]
            rfl
        | _ => rfl
      | _ => rfl
    rw [Expr.negated, dips, dips, hsign, ih hup]
  | increment _ n before =>
    simp only [updates, Bool.not_eq_false'] at hup
    rw [dips, hup]
    rfl

/-- With a decrement in it a value has effects. -/
theorem hasEffects_decremented (h : e.dips = true) : e.decremented.hasEffects = true := by
  induction e using decremented.induct with
  | case1 v => rfl
  | case2 e hvar ih =>
    have hsign : e.isNegatedLocal = false := by
      unfold isNegatedLocal
      split
      · exact absurd rfl (hvar _)
      · rfl
    rw [dips, hsign, Bool.false_or] at h
    rw [Expr.decremented]
    · exact ih h
    · exact hvar
  | case3 op l r ihl ihr =>
    rw [dips, Bool.or_eq_true] at h
    rw [Expr.decremented, hasEffects, Bool.or_eq_true]
    exact h.imp ihl ihr
  | case4 e h₁ h₂ h₃ =>
    cases e with
    | increment => rfl
    | negate e => exact absurd rfl (h₂ e)
    | binary op l r => exact absurd rfl (h₃ op l r)
    | _ => cases h

end Expr

/-! ### The result -/

/-- **Shown effects.** Take arithmetic on locals with identifiers for names. All values with the
    text of a given one agree with it on whether there are effects exactly if it holds an increment
    other than `--x`, or neither an increment `--x` nor a local that is negated twice. -/
theorem effects_shown_iff (e : Expr) (he : e.Arithmetic) :
    (∀ f : Expr, f.Arithmetic → f.render = e.render → f.hasEffects = e.hasEffects) ↔
      (e.updates = true ∨ e.dips = false) := by
  constructor
  · intro h
    by_contra hneither
    rw [not_or, Bool.not_eq_true, Bool.not_eq_false] at hneither
    obtain ⟨hup, hdip⟩ := hneither
    have hrender : ∀ {f : Expr}, f.text 0 = e.text 0 → f.render = e.render := fun ht => by
      rwa [Expr.text_zero, Expr.text_zero, String.toList_inj] at ht
    -- of the two values with this text, one with signs only and one with decrements, only the
    -- second has effects
    have hpure := h e.negated he.negated (hrender (he.text_negated hup (Nat.zero_le _)))
    have heffect := h e.decremented he.decremented
      (hrender (e.text_decremented (Nat.zero_le _)))
    rw [he.hasEffects_negated] at hpure
    rw [Expr.hasEffects_decremented hdip, ← hpure] at heffect
    cases heffect
  -- whether there is an update shows in the text, and without one the text tells the signs
  · intro h f hf hrender
    have htext : f.text 0 = e.text 0 := by rw [Expr.text_zero, Expr.text_zero, hrender]
    have hup : f.updates = e.updates := by
      rw [← Bool.not_inj_iff, Bool.eq_iff_iff, Bool.not_eq_true', Bool.not_eq_true',
        ← hf.isChain_text, ← he.isChain_text, htext]
    cases hupdates : e.updates with
    | true => rw [he.hasEffects_of_updates hupdates, hf.hasEffects_of_updates (hup.trans hupdates)]
    | false =>
      have hdip : e.dips = false := h.resolve_left (by simp [hupdates])
      have hupf := hup.trans hupdates
      have hdipf : f.dips = false := by
        rw [← hf.dips_negated hupf, hf.negated_eq he hupf hupdates htext,
          he.dips_negated hupdates, hdip]
      rw [he.hasEffects_eq_false hupdates hdip, hf.hasEffects_eq_false hupf hdipf]

/-- The local `i`. -/
def shownLocal : Local := ⟨0, "i", "I"⟩

/-- The name of the local is an identifier. -/
theorem shownLocal_named : Text.IsIdentifier shownLocal.name :=
  ⟨'i', [], rfl, rfl, List.forall_mem_singleton.2 rfl⟩

/-- The local is a value under study. -/
theorem shownLocal_arithmetic : (Expr.var shownLocal).Arithmetic := .var shownLocal_named

/-- A value with the text `-i` has no effects, while those with the text `--i` do not agree. -/
theorem negated_shown_twice_negated_not :
    (∀ f : Expr, f.Arithmetic → f.render = "-i" → f.hasEffects = false) ∧
      ¬∀ f : Expr, f.Arithmetic → f.render = "--i" → f.hasEffects = false := by
  have honce := effects_shown_iff (.negate (.var shownLocal)) (.negate shownLocal_arithmetic)
  have htwice := effects_shown_iff (.negate (.negate (.var shownLocal)))
    (.negate (.negate shownLocal_arithmetic))
  refine ⟨fun f hf h => honce.2 (.inr rfl) f hf (h.trans (by decide +kernel)), fun h => ?_⟩
  have hneither := htwice.1 fun f hf hrender => h f hf (hrender.trans (by decide +kernel))
  simp [Expr.updates, Expr.dips, Expr.isNegatedLocal] at hneither

/-- The local `i` negated twice and its decrement have the same text. -/
theorem twice_negated_reads_as_decrement :
    ¬∀ e f : Expr, e.Arithmetic → f.Arithmetic → e.render = f.render →
      e.hasEffects = f.hasEffects := by
  intro h
  have hsame := h (.negate (.negate (.var shownLocal))) (.increment shownLocal (-1) true)
    (.negate (.negate shownLocal_arithmetic)) (.increment shownLocal_named _ _)
    (by decide +kernel)
  exact absurd hsame (by decide)

end Restructure
