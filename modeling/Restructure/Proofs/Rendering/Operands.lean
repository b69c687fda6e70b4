import Restructure.Expr.Render
import Restructure.Proofs.Rendering.Words

namespace Restructure

/-!
# Operands — the words of rendered values and conditions

The words of a value outside of brackets show its operands with the operator between them, and no
word of an operand binds looser than the operator asks for.

* `Text.IsIdentifier` — names of locals.
* `Expr.Plain`, `Cond.Plain` — the values and the conditions under study.
* `Expr.text`, `Cond.text` — their texts as characters, a value with the brackets of its position.
* `Expr.Shown`, `Cond.Shown` — the invariant: brackets are closed, and the loosest word outside of
  them is the outermost operator.
* `Expr.shown`, `Cond.shown` — it holds of every value and condition under study.
-/

/-! ### Names -/

namespace Text

/-- A letter, a digit, an underscore or a dollar sign. Outside of ASCII every character counts as a
    letter. -/
def isNameChar (c : Char) : Bool := c.isAlphanum || c == '_' || c == '$' || 128 ≤ c.toNat

/-- The text is an identifier: it does not begin with a digit. -/
def IsIdentifier (name : String) : Prop :=
  ∃ c t, name.toList = c :: t ∧ c.isDigit = false ∧ ∀ x ∈ c :: t, isNameChar x = true

variable {c x : Char} {t : List Char}

/-- Digits occur in names. -/
theorem isNameChar_of_isDigit (h : c.isDigit = true) : isNameChar c = true := by
  simp [isNameChar, Char.isAlphanum, h]

/-- A character of a name is none that does not occur in names. -/
theorem ne_of_isNameChar (hc : isNameChar c = true) (hx : isNameChar x = false) : c ≠ x := by
  rintro rfl
  exact Bool.false_ne_true (hx.symm.trans hc)

/-- A name or a number is one word. -/
theorem wordlike_of_names (h : ∀ c ∈ t, isNameChar c = true) :
    ∀ c ∈ t, c ≠ ' ' ∧ c ≠ '(' ∧ c ≠ ')' := fun c hc =>
  ⟨ne_of_isNameChar (h c hc) rfl, ne_of_isNameChar (h c hc) rfl, ne_of_isNameChar (h c hc) rfl⟩

/-- A character that an operand may begin with. -/
def isOpening (c : Char) : Bool := isNameChar c || c == '(' || c == '-' || c == '!'

/-- An operand may begin with a name or a number. -/
theorem isOpening_of_isNameChar (h : isNameChar c = true) : isOpening c = true := by
  simp [isOpening, h]

/-- A character that operands begin with is none that they do not begin with. -/
theorem ne_of_isOpening (hc : isOpening c = true) (hx : isOpening x = false) : c ≠ x := by
  rintro rfl
  exact Bool.false_ne_true (hx.symm.trans hc)

/-- A name, a number or brackets are no operator. -/
theorem rank_of_opening (h : isOpening c = true) (hminus : c ≠ '-') (hnot : c ≠ '!') :
    rank (c :: t) = 15 := by
  unfold rank
  split
  all_goals first
    | rfl
    | (rename_i heq
       obtain ⟨rfl, -⟩ := List.cons.inj heq
       first | exact absurd rfl hminus | exact absurd rfl hnot | exact absurd h (by decide))

/-- A sign in front of an operand is no operator. -/
theorem rank_of_sign {s : Char} (hs : s = '-' ∨ s = '!') (h : isOpening c = true) :
    rank (s :: c :: t) = 15 := by
  -- only `!=` is an operator that begins with a sign and goes on
  have hequals : c ≠ '=' := ne_of_isOpening h rfl
  rcases hs with rfl | rfl
  all_goals
    unfold rank
    split
    all_goals first
      | rfl
      | (rename_i heq; simp [hequals] at heq)

end Text

/-! ### The fragment -/

/-- The descriptor of a primitive type. -/
def Descriptor.IsPrimitive (t : String) : Prop := ∃ c, isPrimitive c = true ∧ t.toList = [c]

mutual

/-- The value is built from the given locals, literals from 0 on, operators, negations, casts to
    primitive types and conditional values. -/
def Expr.Plain (vs : Local → Prop) : Expr → Prop
  | .const (.int n) => 0 ≤ n
  | .var v => vs v
  | .binary _ l r => l.Plain vs ∧ r.Plain vs
  | .negate e => e.Plain vs
  | .cast t e => Descriptor.IsPrimitive t ∧ e.Plain vs
  | .ternary c a b => c.Plain vs ∧ a.Plain vs ∧ b.Plain vs
  | _ => False

/-- The condition tests and compares such values, and its conjunctions and disjunctions are flat. -/
def Cond.Plain (vs : Local → Prop) : Cond → Prop
  | .test e _ => e.Plain vs
  | .compare l _ r => l.Plain vs ∧ r.Plain vs
  | .not _ => False
  | .and cs => 2 ≤ cs.length ∧ (∀ ds, .and ds ∉ cs) ∧ Cond.AllPlain vs cs
  | .or cs => 2 ≤ cs.length ∧ (∀ ds, .or ds ∉ cs) ∧ Cond.AllPlain vs cs

/-- So are all the conditions. -/
def Cond.AllPlain (vs : Local → Prop) : List Cond → Prop
  | [] => True
  | c :: cs => c.Plain vs ∧ Cond.AllPlain vs cs

end

/-! ### Texts of positions -/

/-- The value's text where it has to bind at least as tightly as `least`. -/
def Expr.text (e : Expr) (least : Nat) : List Char := (e.atLeast least e.render).toList

/-- The condition's text. -/
def Cond.text (c : Cond) : List Char := c.render.toList

/-- The condition's text as an operand of a conjunction. -/
def Cond.conjunct (c : Cond) : List Char :=
  if c.isDisjunction then Text.enclosed c.text else c.text

namespace Expr

open Text

variable {e l r a b : Expr} {k : Nat}

/-- A value that binds looser than its position asks for stands in brackets. -/
theorem text_of_lt (h : e.strength < k) : e.text k = enclosed (e.text 0) := by
  simp [text, atLeast, h, enclosed]

/-- A value that binds tight enough stands without brackets. -/
theorem text_of_le (h : k ≤ e.strength) : e.text k = e.text 0 := by
  simp [text, atLeast, Nat.not_lt.2 h]

/-- In the loosest position a value is rendered as it is. -/
theorem text_zero : e.text 0 = e.render.toList := by simp [text, atLeast]

/-- A local shows its name. -/
theorem text_var (v : Local) : (var v).text 0 = v.name.toList := text_zero

/-- An integer shows its decimal digits, behind a sign if it is negative. -/
theorem text_int (n : Int) : (const (.int n)).text 0 = (toString n).toList := text_zero

/-- The operand of a negation is asked to bind as tight as the negation itself. -/
theorem text_negate (e : Expr) : (negate e).text 0 = '-' :: e.text 12 := by
  rw [text_zero, render, String.toList_append]
  rfl

/-- A cast shows its type in brackets in front of the value. -/
theorem text_cast (t : String) (e : Expr) :
    (cast t e).text 0 = enclosed (Descriptor.sourceName t).toList ++ ' ' :: e.text 12 := by
  rw [text_zero, render]
  simp [text, enclosed]

/-- An operator stands between its operands, and the right one must bind tighter. -/
theorem text_binary (op : BinaryOp) (l r : Expr) :
    (binary op l r).text 0
      = l.text op.strength ++ ' ' :: (op.symbol.toList ++ ' ' :: r.text (op.strength + 1)) := by
  rw [text_zero, render]
  simp [text]

/-- A conditional value shows its condition and both values. -/
theorem text_ternary (c : Cond) (a b : Expr) :
    (ternary c a b).text 0
      = c.text ++ ' ' :: (['?'] ++ ' ' :: (a.text 2 ++ ' ' :: ([':'] ++ ' ' :: b.text 1))) := by
  rw [text_zero, render]
  simp [text, Cond.text]

end Expr

namespace Cond

open Text

/-- A test shows its value. -/
theorem text_test (e : Expr) : (test e false).text = e.text 2 := by
  rw [text, render.eq_def]
  rfl

/-- The opposite of a test shows its value behind an exclamation mark. -/
theorem text_test_inverse (e : Expr) : (test e true).text = '!' :: e.text 15 := by
  rw [text, render, String.toList_append]
  rfl

/-- A comparison shows its operator between both sides. -/
theorem text_compare (l : Expr) (o : Relation) (r : Expr) :
    (compare l o r).text = l.text 8 ++ ' ' :: (o.symbol.toList ++ ' ' :: r.text 8) := by
  rw [text, render]
  simp [Expr.text]

/-- A disjunction stands in brackets as a member of a conjunction, and nothing else does. -/
theorem conjunct_eq (c : Cond) :
    (if c.isDisjunction then "(" ++ c.render ++ ")" else c.render).toList = c.conjunct := by
  rw [conjunct]
  split <;> simp [text, enclosed]

/-- A conjunction shows its members joined by `&&`. -/
theorem text_and (cs : List Cond) :
    (and cs).text = joined ['&', '&'] (cs.map conjunct) := by
  have hchain : (" && ".intercalate (conjuncts cs)).toList
      = joined ['&', '&'] (cs.map conjunct) := by
    rw [String.toList_intercalate]
    -- the text of a chain is built member by member, as `joined` is
    induction cs with
    | nil => rfl
    | cons c cs ih =>
      cases cs with
      | nil => simp [conjuncts, conjunct_eq, joined]
      | cons d cs =>
        simp [conjuncts, conjunct_eq, joined] at ih ⊢
        exact ih
  rw [text, render, hchain]

/-- A disjunction shows its members joined by `||`. -/
theorem text_or (cs : List Cond) : (or cs).text = joined ['|', '|'] (cs.map text) := by
  have hchain : (" || ".intercalate (renderAll cs)).toList = joined ['|', '|'] (cs.map text) := by
    rw [String.toList_intercalate]
    induction cs with
    | nil => rfl
    | cons c cs ih =>
      cases cs with
      | nil => simp [renderAll, text, joined]
      | cons d cs =>
        simp [renderAll, text, joined] at ih ⊢
        exact ih
  rw [text, render, hchain]

end Cond

/-! ### What texts show -/

/-- The rank of the loosest word of the value's text. -/
def Expr.lowest : Expr → Nat
  | .ternary _ _ _ => 0
  | .binary op _ _ => op.strength
  | _ => 15

/-- The rank of the loosest word of the condition's text. -/
def Cond.lowest : Cond → Nat
  | .or _ => 1
  | .and _ => 2
  | .compare _ _ _ => 7
  | .test e false => if e.strength < 2 then 15 else e.lowest
  | _ => 15

/-- The text of the value is read from outside: its brackets are closed, it begins like an operand,
    and its loosest word is its outermost operator. -/
structure Expr.Shown (e : Expr) : Prop where
  bracketed : Text.Bracketed (e.text 0)
  opening : ∃ c t, e.text 0 = c :: t ∧ Text.isOpening c = true ∧ (2 ≤ e.strength → c ≠ '!')
  lowest : Text.lowest (Text.words (e.text 0)) = e.lowest

/-- The text of the condition is read from outside. -/
structure Cond.Shown (c : Cond) : Prop where
  bracketed : Text.Bracketed c.text
  opening : ∃ x t, c.text = x :: t ∧ Text.isOpening x = true
  lowest : Text.lowest (Text.words c.text) = c.lowest

namespace Text

variable {c : Char} {s t r : List Char}

/-- A text in brackets has no operator outside of brackets. -/
theorem lowest_words_enclosed (hs : Bracketed s) : lowest (words (enclosed s)) = 15 := by
  rw [words_enclosed hs, lowest, lowest, enclosed, rank_of_opening rfl (by decide) (by decide)]
  rfl

/-- The first word of a text begins with its first character. -/
theorem words_of_cons (h : c ≠ ' ') : ∃ w ws, words (c :: t) = (c :: w) :: ws := by
  rw [words, wordsWithin, if_neg fun h' => h h'.1]
  cases wordsWithin (opened 0 c) t with
  | nil => exact ⟨_, _, rfl⟩
  | cons w ws => exact ⟨_, _, rfl⟩

/-- A sign becomes part of the first word of an operand. -/
theorem lowest_words_sign {x : Char} (hx : x = '-' ∨ x = '!') (hc : isOpening c = true)
    (h : lowest (words (c :: t)) = 15) : lowest (words (x :: c :: t)) = 15 := by
  obtain ⟨w, ws, hws⟩ := words_of_cons (t := t) (ne_of_isOpening hc rfl : c ≠ ' ')
  have hsign : words (x :: c :: t) = glue x (words (c :: t)) := by
    rcases hx with rfl | rfl <;> exact words_cons (by decide) (by decide) (by decide)
  rw [hws, lowest] at h
  rw [hsign, hws, glue, lowest, rank_of_sign hx hc]
  have := rank_le (c :: w)
  omega

end Text

/-- Every operator is one word. -/
theorem BinaryOp.isSymbol (op : BinaryOp) : Text.IsSymbol op.symbol.toList := by
  cases op <;> simp [symbol, Text.IsSymbol]

/-- The word of an operator has the rank that the operator binds with. -/
theorem BinaryOp.rank_symbol (op : BinaryOp) : Text.rank op.symbol.toList = op.strength := by
  cases op <;> rfl

/-- Every operator binds tighter than a conditional value. -/
theorem BinaryOp.three_le_strength (op : BinaryOp) : 3 ≤ op.strength := by cases op <;> decide

/-- Every operator binds looser than a negation. -/
theorem BinaryOp.strength_le_ten (op : BinaryOp) : op.strength ≤ 10 := by cases op <;> decide

/-- Every relation is one word. -/
theorem Relation.isSymbol (o : Relation) : Text.IsSymbol o.symbol.toList := by
  cases o <;> simp [symbol, Text.IsSymbol]

/-- Relations rank between the operators for bits and for shifts. -/
theorem Relation.rank_symbol (o : Relation) : Text.rank o.symbol.toList = 7 := by cases o <;> rfl

namespace Expr

open Text

variable {e : Expr} {k : Nat} {vs : Local → Prop}

/-- A value that binds tightly enough has no looser word. -/
theorem le_lowest_of_le_strength (htwo : 2 ≤ k) (hk : k ≤ 15) (h : k ≤ e.strength) :
    k ≤ e.lowest := by
  cases e with
  | ternary c a b => exact absurd (Nat.le_trans htwo h) (show ¬2 ≤ 1 by decide)
  | binary op l r => exact h
  | _ => exact hk

namespace Shown

/-- The brackets of a shown value are closed in every position. -/
theorem bracketed_text (he : e.Shown) (k : Nat) : Bracketed (e.text k) := by
  by_cases h : e.strength < k
  · rw [text_of_lt h]
    exact he.bracketed.enclosed
  · rw [text_of_le (Nat.not_lt.1 h)]
    exact he.bracketed

/-- A shown value begins as an operand may begin. -/
theorem opening_text (he : e.Shown) (k : Nat) :
    ∃ c t, e.text k = c :: t ∧ isOpening c = true ∧ (2 ≤ k → c ≠ '!') := by
  by_cases h : e.strength < k
  · exact ⟨'(', _, text_of_lt h, rfl, fun _ => by decide⟩
  · rw [text_of_le (Nat.not_lt.1 h)]
    obtain ⟨c, t, ht, hc, hnot⟩ := he.opening
    exact ⟨c, t, ht, hc, fun htwo => hnot (Nat.le_trans htwo (Nat.not_lt.1 h))⟩

/-- No word outside of brackets binds looser than the position asks for. -/
theorem le_lowest_text (he : e.Shown) (htwo : 2 ≤ k) (hk : k ≤ 15) :
    k ≤ Text.lowest (words (e.text k)) := by
  -- in brackets no operator shows, and without them the value binds tightly enough
  by_cases h : e.strength < k
  · rw [text_of_lt h, lowest_words_enclosed he.bracketed]
    exact hk
  · rw [text_of_le (Nat.not_lt.1 h), he.lowest]
    exact le_lowest_of_le_strength htwo hk (Nat.not_lt.1 h)

/-- Operands of signs and casts hold no operator outside of brackets. -/
theorem lowest_text (he : e.Shown) (hk : 12 ≤ k) : Text.lowest (words (e.text k)) = 15 := by
  by_cases h : e.strength < k
  · rw [text_of_lt h, lowest_words_enclosed he.bracketed]
  · have h := Nat.le_trans hk (Nat.not_lt.1 h)
    rw [text_of_le (Nat.not_lt.1 ‹_›), he.lowest]
    cases e with
    | binary op l r => exact absurd (Nat.le_trans h op.strength_le_ten) (by decide)
    | ternary c a b => exact absurd h (show ¬12 ≤ 1 by decide)
    | _ => rfl

/-! ### The invariant, constructor by constructor -/

/-- A name or a number. -/
theorem of_names (htext : ∀ c ∈ e.text 0, isNameChar c = true) (hne : e.text 0 ≠ [])
    (hlowest : e.lowest = 15) : e.Shown := by
  obtain ⟨c, t, ht⟩ := List.exists_cons_of_ne_nil hne
  have hc : isNameChar c = true := htext c (ht ▸ List.mem_cons_self ..)
  refine ⟨bracketed_of_forall fun c hc => (wordlike_of_names htext c hc).2,
    ⟨c, t, ht, isOpening_of_isNameChar hc, fun _ => ne_of_isNameChar hc rfl⟩, ?_⟩
  -- a name is one word, and no operator
  rw [words_of_forall (wordlike_of_names htext), hlowest, ht, Text.lowest, Text.lowest,
    rank_of_opening (isOpening_of_isNameChar hc) (ne_of_isNameChar hc rfl)
      (ne_of_isNameChar hc rfl)]
  rfl

/-- The negation of a shown value is shown. -/
theorem negate (he : e.Shown) : (Expr.negate e).Shown := by
  obtain ⟨c, t, ht, hc, -⟩ := he.opening_text 12
  refine ⟨?_, ⟨'-', _, text_negate e, rfl, fun _ => by decide⟩, ?_⟩
  · rw [text_negate]
    exact .cons (by decide) (by decide) (he.bracketed_text 12)
  · have hlowest := he.lowest_text (Nat.le_refl 12)
    rw [text_negate]
    rw [ht] at hlowest ⊢
    -- the sign joins the first word of the operand, and the operand shows no operator
    exact lowest_words_sign (.inl rfl) hc hlowest

/-- The cast of a shown value is shown. -/
theorem cast {t : String} (ht : Bracketed (Descriptor.sourceName t).toList) (he : e.Shown) :
    (Expr.cast t e).Shown := by
  refine ⟨?_, ⟨'(', _, text_cast t e, rfl, fun _ => by decide⟩, ?_⟩
  · rw [text_cast]
    exact ht.enclosed.append (.cons (by decide) (by decide) (he.bracketed_text 12))
  · rw [text_cast, words_append_space ht.enclosed, lowest_append, lowest_words_enclosed ht,
      he.lowest_text (Nat.le_refl 12)]
    rfl

/-- An operator between shown values is shown. -/
theorem binary {op : BinaryOp} {l r : Expr} (hl : l.Shown) (hr : r.Shown) :
    (Expr.binary op l r).Shown := by
  have hthree := op.three_le_strength
  have hten := op.strength_le_ten
  have hleft := hl.bracketed_text op.strength
  refine ⟨?_, ?_, ?_⟩
  · rw [text_binary]
    exact bracketed_between hleft op.isSymbol (hr.bracketed_text _)
  · obtain ⟨c, t, ht, hc, hnot⟩ := hl.opening_text op.strength
    have htext := text_binary op l r
    rw [ht] at htext
    exact ⟨c, _, htext, hc, fun _ => hnot (by omega)⟩
  · have hlowLeft := hl.le_lowest_text (k := op.strength) (by omega) (by omega)
    have hlowRight := hr.le_lowest_text (k := op.strength + 1) (by omega) (by omega)
    rw [text_binary, lowest_between hleft op.isSymbol, op.rank_symbol, Expr.lowest]
    -- left the operator may come again, right it may not; so it is the loosest word itself
    omega

/-- A conditional value made of shown parts is shown. -/
theorem ternary {c : Cond} {a b : Expr} (hc : c.Shown) (ha : a.Shown) (hb : b.Shown) :
    (Expr.ternary c a b).Shown := by
  have hquestion : IsSymbol ['?'] := by simp [IsSymbol]
  have hcolon : IsSymbol [':'] := by simp [IsSymbol]
  refine ⟨?_, ?_, ?_⟩
  · rw [text_ternary]
    exact bracketed_between hc.bracketed hquestion
      (bracketed_between (ha.bracketed_text 2) hcolon (hb.bracketed_text 1))
  · obtain ⟨x, t, ht, hx⟩ := hc.opening
    have htext := text_ternary c a b
    rw [ht] at htext
    exact ⟨x, _, htext, hx, fun h => absurd h (show ¬2 ≤ 1 by decide)⟩
  · rw [text_ternary, lowest_between hc.bracketed hquestion, Expr.lowest]
    have : rank ['?'] = 0 := rfl
    omega

end Shown

end Expr

namespace Cond

open Text

variable {c : Cond} {cs : List Cond} {l r e : Expr} {w : List Char}

namespace Shown

/-- The test of a shown value is shown. -/
theorem test (he : e.Shown) : (Cond.test e false).Shown := by
  obtain ⟨x, t, ht, hx, -⟩ := he.opening_text 2
  refine ⟨?_, ⟨x, t, (text_test e).trans ht, hx⟩, ?_⟩
  · rw [text_test]
    exact he.bracketed_text 2
  · rw [text_test, Cond.lowest]
    split
    · rw [Expr.text_of_lt ‹_›, lowest_words_enclosed he.bracketed]
    · rw [Expr.text_of_le (Nat.not_lt.1 ‹_›), he.lowest]

/-- The opposite of the test of a shown value is shown. -/
theorem test_inverse (he : e.Shown) : (Cond.test e true).Shown := by
  obtain ⟨x, t, ht, hx, -⟩ := he.opening_text 15
  refine ⟨?_, ⟨'!', _, text_test_inverse e, rfl⟩, ?_⟩
  · rw [text_test_inverse]
    exact .cons (by decide) (by decide) (he.bracketed_text 15)
  · have hlowest := he.lowest_text (k := 15) (by decide)
    rw [text_test_inverse]
    rw [ht] at hlowest ⊢
    exact lowest_words_sign (.inr rfl) hx hlowest

/-- The comparison of shown values is shown. -/
theorem compare {o : Relation} (hl : l.Shown) (hr : r.Shown) : (Cond.compare l o r).Shown := by
  have hleft := hl.bracketed_text 8
  refine ⟨?_, ?_, ?_⟩
  · rw [text_compare]
    exact bracketed_between hleft o.isSymbol (hr.bracketed_text 8)
  · obtain ⟨x, t, ht, hx, -⟩ := hl.opening_text 8
    have htext := text_compare l o r
    rw [ht] at htext
    exact ⟨x, _, htext, hx⟩
  · have hlowLeft := hl.le_lowest_text (k := 8) (by decide) (by decide)
    have hlowRight := hr.le_lowest_text (k := 8) (by decide) (by decide)
    rw [text_compare, lowest_between hleft o.isSymbol, o.rank_symbol, Cond.lowest]
    omega

end Shown

/-- Outside of brackets a condition holds no operator looser than its own. -/
theorem three_le_lowest (hand : ∀ ds, c ≠ .and ds) (hor : ∀ ds, c ≠ .or ds) : 3 ≤ c.lowest := by
  cases c with
  | and ds => exact absurd rfl (hand ds)
  | or ds => exact absurd rfl (hor ds)
  -- a tested value stands in brackets if it is a conditional one
  | test e inverse =>
    cases inverse with
    | true => exact (by decide : 3 ≤ 15)
    | false =>
      rw [lowest]
      split
      · decide
      · cases e with
        | ternary c a b => exact absurd (show 1 < 2 by decide) ‹_›
        | binary op l r => exact op.three_le_strength
        | _ => exact (by decide : 3 ≤ 15)
  | _ => exact (by simp [lowest])

/-- Every condition binds tighter than a conditional value. -/
theorem lowest_pos (c : Cond) : 0 < c.lowest := by
  by_cases hand : ∃ ds, c = .and ds
  · obtain ⟨ds, rfl⟩ := hand
    exact (by decide : 0 < 2)
  · by_cases hor : ∃ ds, c = .or ds
    · obtain ⟨ds, rfl⟩ := hor
      exact Nat.one_pos
    · exact Nat.lt_of_lt_of_le (by decide) (three_le_lowest (not_exists.1 hand) (not_exists.1 hor))

/-- The members of a flat conjunction can be joined by `&&`: none of them shows another one outside
    of brackets. -/
theorem joinable_conjuncts (hcs : ∀ c ∈ cs, c.Shown) (hflat : ∀ ds, .and ds ∉ cs) :
    Joinable ['&', '&'] (cs.map conjunct) := by
  rintro t ht
  obtain ⟨c, hc, rfl⟩ := List.mem_map.1 ht
  have hshown := hcs c hc
  -- a disjunction is the only member that would show a looser word, and it stands in brackets
  by_cases hor : ∃ ds, c = .or ds
  · obtain ⟨ds, rfl⟩ := hor
    have hown : (or ds).conjunct = enclosed (or ds).text := if_pos rfl
    rw [hown, lowest_words_enclosed hshown.bracketed]
    exact ⟨hshown.bracketed.enclosed, by decide⟩
  · have hown : c.conjunct = c.text := by
      cases c with
      | or ds => exact absurd ⟨ds, rfl⟩ hor
      | _ => rfl
    have hthree := three_le_lowest (fun ds heq => hflat ds (heq ▸ hc)) (not_exists.1 hor)
    rw [hown, hshown.lowest]
    exact ⟨hshown.bracketed, Nat.lt_of_lt_of_le (by decide) hthree⟩

/-- The members of a flat disjunction can be joined by `||`. -/
theorem joinable_texts (hcs : ∀ c ∈ cs, c.Shown) (hflat : ∀ ds, .or ds ∉ cs) :
    Joinable ['|', '|'] (cs.map text) := by
  rintro t ht
  obtain ⟨c, hc, rfl⟩ := List.mem_map.1 ht
  have hshown := hcs c hc
  rw [hshown.lowest]
  refine ⟨hshown.bracketed, ?_⟩
  -- a conjunction binds tighter than `||`, so it needs no brackets
  by_cases hand : ∃ ds, c = .and ds
  · obtain ⟨ds, rfl⟩ := hand
    exact (by decide : 1 < 2)
  · have hthree := three_le_lowest (not_exists.1 hand) fun ds heq => hflat ds (heq ▸ hc)
    exact Nat.lt_of_lt_of_le (by decide) hthree

/-- A flat conjunction of shown conditions is shown. -/
theorem Shown.and (hcs : ∀ c ∈ cs, c.Shown) (hlen : 2 ≤ cs.length) (hflat : ∀ ds, .and ds ∉ cs) :
    (Cond.and cs).Shown := by
  have hsymbol : IsSymbol ['&', '&'] := by simp [IsSymbol]
  have hjoinable := joinable_conjuncts hcs hflat
  refine ⟨?_, ?_, ?_⟩
  · rw [text_and]
    exact hjoinable.bracketed hsymbol
  · match cs with
    | c :: d :: cs =>
      -- the chain begins as its first member does
      have hopen : ∃ x t, c.conjunct = x :: t ∧ isOpening x = true := by
        rw [conjunct]
        split
        · exact ⟨'(', _, rfl, rfl⟩
        · exact (hcs c (List.mem_cons_self ..)).opening
      obtain ⟨x, t, ht, hx⟩ := hopen
      have htext := text_and (c :: d :: cs)
      rw [List.map_cons, ht] at htext
      exact ⟨x, _, htext, hx⟩
  · rw [text_and, hjoinable.lowest_joined hsymbol (by simpa using hlen)]
    rfl

/-- A flat disjunction of shown conditions is shown. -/
theorem Shown.or (hcs : ∀ c ∈ cs, c.Shown) (hlen : 2 ≤ cs.length) (hflat : ∀ ds, .or ds ∉ cs) :
    (Cond.or cs).Shown := by
  have hsymbol : IsSymbol ['|', '|'] := by simp [IsSymbol]
  have hjoinable := joinable_texts hcs hflat
  refine ⟨?_, ?_, ?_⟩
  · rw [text_or]
    exact hjoinable.bracketed hsymbol
  · match cs with
    | c :: d :: cs =>
      obtain ⟨x, t, ht, hx⟩ := (hcs c (List.mem_cons_self ..)).opening
      have htext := text_or (c :: d :: cs)
      rw [List.map_cons, ht] at htext
      exact ⟨x, _, htext, hx⟩
  · rw [text_or, hjoinable.lowest_joined hsymbol (by simpa using hlen)]
    rfl

end Cond

/-! ### All values and conditions of the fragment -/

namespace Expr

open Text

/-- The text of a number. -/
theorem text_ofNat (n : Nat) : (const (.int n)).text 0 = Nat.toDigits 10 n := by
  rw [text_int]
  show (Nat.repr n).toList = _
  rw [Nat.repr_eq_ofList_toDigits, String.toList_ofList]

/-- A natural number is written with digits alone. -/
theorem isDigit_of_mem_text {n : Nat} {c : Char} (h : c ∈ (const (.int n)).text 0) :
    c.isDigit = true := by
  rw [text_ofNat] at h
  exact Nat.isDigit_of_mem_toDigits (by decide) (by decide) h

end Expr

/-- The source name of a primitive type is a name. -/
theorem Descriptor.IsPrimitive.names {t : String} (ht : IsPrimitive t) :
    ∀ c ∈ (sourceName t).toList, Text.isNameChar c = true := by
  obtain ⟨c, hc, ht⟩ := ht
  simp only [isPrimitive, Bool.or_eq_true, beq_iff_eq] at hc
  rw [sourceName, ht, String.toList_ofList]
  refine List.all_eq_true.1 ?_
  rcases hc with ((((((rfl | rfl) | rfl) | rfl) | rfl) | rfl) | rfl) | rfl <;> decide

/-- The names of primitive types have no brackets. -/
theorem Descriptor.IsPrimitive.bracketed {t : String} (ht : IsPrimitive t) :
    Text.Bracketed (sourceName t).toList :=
  Text.bracketed_of_forall fun c hc => (Text.wordlike_of_names ht.names c hc).2

variable {vs : Local → Prop}

mutual

/-- Every value under study is shown. By recursion on the value. -/
theorem Expr.shown (hvs : ∀ v, vs v → Text.IsIdentifier v.name) :
    (e : Expr) → e.Plain vs → e.Shown
  | .const (.int n), he => by
    obtain ⟨n, rfl⟩ := Int.eq_ofNat_of_zero_le (show 0 ≤ n from he)
    refine .of_names (fun c hc => Text.isNameChar_of_isDigit (Expr.isDigit_of_mem_text hc)) ?_ rfl
    rw [Expr.text_ofNat]
    exact Nat.toDigits_ne_nil
  | .var v, he => by
    obtain ⟨c, t, htext, -, hnames⟩ := hvs v he
    have hname : (Expr.var v).text 0 = c :: t := (Expr.text_var v).trans htext
    exact .of_names (fun c hc => hnames c (hname ▸ hc)) (hname ▸ List.cons_ne_nil _ _) rfl
  | .binary _ l r, he => .binary (l.shown hvs he.1) (r.shown hvs he.2)
  | .negate e, he => .negate (e.shown hvs he)
  | .cast _ e, he => .cast he.1.bracketed (e.shown hvs he.2)
  | .ternary c a b, he =>
    .ternary (c.shown hvs he.1) (a.shown hvs he.2.1) (b.shown hvs he.2.2)

/-- Every condition under study is shown. By recursion on the condition. -/
theorem Cond.shown (hvs : ∀ v, vs v → Text.IsIdentifier v.name) :
    (c : Cond) → c.Plain vs → c.Shown
  | .test e false, hc => .test (e.shown hvs hc)
  | .test e true, hc => .test_inverse (e.shown hvs hc)
  | .compare l _ r, hc => .compare (l.shown hvs hc.1) (r.shown hvs hc.2)
  | .and cs, hc => .and (Cond.allShown hvs cs hc.2.2) hc.1 hc.2.1
  | .or cs, hc => .or (Cond.allShown hvs cs hc.2.2) hc.1 hc.2.1

/-- All members of a list of conditions under study are shown. -/
theorem Cond.allShown (hvs : ∀ v, vs v → Text.IsIdentifier v.name) :
    (cs : List Cond) → Cond.AllPlain vs cs → ∀ c ∈ cs, c.Shown
  | [], _ => List.forall_mem_nil _
  | c :: cs, h => List.forall_mem_cons.2 ⟨c.shown hvs h.1, Cond.allShown hvs cs h.2⟩

end

end Restructure
