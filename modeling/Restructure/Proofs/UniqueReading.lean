import Restructure.Proofs.Rendering.Operands

namespace Restructure

/-!
# Unique reading — a text is that of one value

The text of a value or a condition shows its outermost operator: by the loosest word outside of
brackets, and where there is no operator, by the first character. Operands are told apart at that
word, and what brackets a position adds is seen from the operand's own text. So the tree is read off
its text from the outside to the inside.

* `Expr.form`, `Cond.form` — what stands outermost; `Expr.exprForm_text` and `Cond.condForm_text`
  read it off the text.
* `Expr.text_injective`, `Cond.conjunct_injective` — the brackets of a position.
* `Expr.binary_injective` and the like — the operands of one operator.
* `Expr.eq_of_text`, `Cond.eq_of_text` — the induction.
* `reading_unique` — the result.
-/

/-! ### Forms -/

/-- What stands outermost in a value or a condition. -/
inductive Form where
  | conditional | disjunction | conjunction | comparison | operator | sign | inverse | cast
  | number | name | value
  deriving DecidableEq

/-- What stands outermost in a value. -/
def Expr.form : Expr → Form
  | .ternary _ _ _ => .conditional
  | .binary _ _ _ => .operator
  | .negate _ => .sign
  | .cast _ _ => .cast
  | .const _ => .number
  | .var _ => .name
  | _ => .value

/-- What stands outermost in a condition. -/
def Cond.form : Cond → Form
  | .or _ => .disjunction
  | .and _ => .conjunction
  | .compare _ _ _ => .comparison
  | .test _ true => .inverse
  | _ => .value

namespace Text

/-- What the text of a value shows outermost. -/
def exprForm (t : List Char) : Form :=
  if lowest (words t) = 0 then .conditional
  else if lowest (words t) < 15 then .operator
  else if t.head? = some '-' then .sign
  else if t.head? = some '(' then .cast
  else if t.head?.any Char.isDigit then .number
  else .name

/-- What the text of a condition shows outermost. -/
def condForm (t : List Char) : Form :=
  if lowest (words t) = 1 then .disjunction
  else if lowest (words t) = 2 then .conjunction
  else if lowest (words t) = 7 then .comparison
  else if t.head? = some '!' then .inverse
  else .value

/-- Brackets begin a cast. -/
theorem exprForm_enclosed {s : List Char} (hs : Bracketed s) : exprForm (enclosed s) = .cast := by
  rw [exprForm, lowest_words_enclosed hs]
  rfl

end Text

open Text

variable {vs : Local → Prop} (hvs : ∀ v, vs v → IsIdentifier v.name)
include hvs

/-- The text of a value shows its form. -/
theorem Expr.exprForm_text {e : Expr} (he : e.Plain vs) : exprForm (e.text 0) = e.form := by
  have hlowest := (e.shown hvs he).lowest
  rw [exprForm, hlowest]
  cases e with
  | ternary c a b => rfl
  | binary op l r =>
    have hthree := op.three_le_strength
    have hten := op.strength_le_ten
    rw [lowest, if_neg (by omega), if_pos (by omega), form]
  | negate e => rw [text_negate]; rfl
  | cast t e => rw [text_cast]; rfl
  | const c =>
    cases c with
    | int n =>
      obtain ⟨n, rfl⟩ := Int.eq_ofNat_of_zero_le (show 0 ≤ n from he)
      obtain ⟨c, t, ht⟩ := List.exists_cons_of_ne_nil (Nat.toDigits_ne_nil (b := 10) (n := n))
      rw [← text_ofNat] at ht
      have hdigit : c.isDigit = true := isDigit_of_mem_text (ht ▸ List.mem_cons_self ..)
      have hminus : c ≠ '-' := ne_of_isNameChar (isNameChar_of_isDigit hdigit) rfl
      have hbracket : c ≠ '(' := ne_of_isNameChar (isNameChar_of_isDigit hdigit) rfl
      simp [ht, lowest, form, hminus, hbracket, hdigit]
    | _ => exact he.elim
  | var v =>
    obtain ⟨c, t, htext, hdigit, hnames⟩ := hvs v he
    have hname := hnames c (List.mem_cons_self ..)
    have hminus : c ≠ '-' := ne_of_isNameChar hname rfl
    have hbracket : c ≠ '(' := ne_of_isNameChar hname rfl
    simp [text_var, htext, lowest, form, hminus, hbracket, hdigit]
  | _ => exact he.elim

/-- The text of a condition shows its form. -/
theorem Cond.condForm_text {c : Cond} (hc : c.Plain vs) : condForm c.text = c.form := by
  have hlowest := (c.shown hvs hc).lowest
  rw [condForm, hlowest]
  cases c with
  | test e inverse =>
    cases inverse with
    | true => rw [text_test_inverse]; rfl
    | false =>
      have hfree : (Cond.test e false).lowest ∉ [1, 2, 7] := by
        rw [lowest]
        split
        · decide
        · cases e with
          | ternary c a b => exact absurd (show 1 < 2 by decide) ‹_›
          | binary op l r => cases op <;> simp [Expr.lowest, BinaryOp.strength]
          | _ => simp [Expr.lowest]
      obtain ⟨x, t, ht, -, hnot⟩ := (e.shown hvs hc).opening_text 2
      simp only [List.mem_cons, List.not_mem_nil, not_or] at hfree
      rw [if_neg hfree.1, if_neg hfree.2.1, if_neg hfree.2.2.1, text_test, ht, List.head?_cons,
        if_neg fun h => hnot (Nat.le_refl 2) (Option.some.inj h)]
      rfl
  | not c => exact hc.elim
  | _ => rfl

/-- Values with the same text have the same form. -/
theorem Expr.form_eq {e f : Expr} (he : e.Plain vs) (hf : f.Plain vs) (h : e.text 0 = f.text 0) :
    e.form = f.form := by
  rw [← e.exprForm_text hvs he, ← f.exprForm_text hvs hf, h]

/-- Conditions with the same text have the same form. -/
theorem Cond.form_eq {c d : Cond} (hc : c.Plain vs) (hd : d.Plain vs) (h : c.text = d.text) :
    c.form = d.form := by
  rw [← c.condForm_text hvs hc, ← d.condForm_text hvs hd, h]

/-! ### Brackets of positions -/

/-- No value's text is another text in brackets. -/
theorem Expr.text_ne_enclosed {e : Expr} (he : e.Plain vs) {s : List Char} (hs : Bracketed s) :
    e.text 0 ≠ enclosed s := by
  intro h
  have hform := e.exprForm_text hvs he
  rw [h, exprForm_enclosed hs] at hform
  cases e with
  | cast t e =>
    -- the brackets of a cast are its first word, and another word follows
    have hwords := congrArg words h
    rw [text_cast, words_append_space he.1.bracketed.enclosed, words_enclosed he.1.bracketed,
      words_enclosed hs, List.singleton_append] at hwords
    exact wordsWithin_ne_nil 0 _ (List.cons.inj hwords).2
  | _ => exact absurd hform (by simp [form])

/-- Whether a position adds brackets is seen from the text. -/
theorem Expr.text_injective {e f : Expr} (he : e.Plain vs) (hf : f.Plain vs) {k : Nat}
    (h : e.text k = f.text k) : e.text 0 = f.text 0 := by
  by_cases hek : e.strength < k <;> by_cases hfk : f.strength < k
  · rw [text_of_lt hek, text_of_lt hfk] at h
    exact enclosed_injective h
  · rw [text_of_lt hek, text_of_le (Nat.not_lt.1 hfk)] at h
    exact absurd h.symm (f.text_ne_enclosed hvs hf (e.shown hvs he).bracketed)
  · rw [text_of_le (Nat.not_lt.1 hek), text_of_lt hfk] at h
    exact absurd h (e.text_ne_enclosed hvs he (f.shown hvs hf).bracketed)
  · rwa [text_of_le (Nat.not_lt.1 hek), text_of_le (Nat.not_lt.1 hfk)] at h

/-- A condition that is no disjunction has no disjunction's text in brackets. -/
theorem Cond.text_ne_enclosed {c : Cond} {ds : List Cond} (hc : c.Plain vs)
    (hds : (Cond.or ds).Plain vs) (hor : ∀ cs, c ≠ .or cs) :
    c.text ≠ enclosed (Cond.or ds).text := by
  intro h
  have hown := (Cond.or ds).shown hvs hds
  have hlowest := (c.shown hvs hc).lowest
  rw [h, lowest_words_enclosed hown.bracketed] at hlowest
  cases c with
  | test e inverse =>
    cases inverse with
    | true => rw [text_test_inverse] at h; exact absurd (List.cons.inj h).1 (by decide)
    | false =>
      rw [text_test] at h
      by_cases hweak : e.strength < 2
      · rw [Expr.text_of_lt hweak] at h
        have hwords := (e.shown hvs hc).lowest
        rw [enclosed_injective h, hown.lowest] at hwords
        cases e with
        | binary op l r =>
          have hone : 1 = op.strength := hwords
          exact absurd op.three_le_strength (by omega)
        | _ => exact absurd hwords (by simp [Expr.lowest, lowest])
      · rw [Expr.text_of_le (Nat.not_lt.1 hweak)] at h
        exact e.text_ne_enclosed hvs hc hown.bracketed h
  | not c => exact hc.elim
  | or cs => exact hor cs rfl
  | _ => exact absurd hlowest (by simp [lowest])

/-- The operands of a conjunction are seen from their texts. -/
theorem Cond.conjunct_injective {c d : Cond} (hc : c.Plain vs) (hd : d.Plain vs)
    (h : c.conjunct = d.conjunct) : c.text = d.text := by
  have hothers : ∀ {c : Cond}, (∀ cs, c ≠ .or cs) → c.conjunct = c.text := by
    intro c hor
    cases c with
    | or cs => exact absurd rfl (hor cs)
    | _ => rfl
  have hors : ∀ cs, (Cond.or cs).conjunct = enclosed (Cond.or cs).text := fun cs => if_pos rfl
  by_cases hcor : ∃ cs, c = .or cs <;> by_cases hdor : ∃ ds, d = .or ds
  · obtain ⟨cs, rfl⟩ := hcor
    obtain ⟨ds, rfl⟩ := hdor
    rw [hors, hors] at h
    exact enclosed_injective h
  · obtain ⟨cs, rfl⟩ := hcor
    rw [hors, hothers (not_exists.1 hdor)] at h
    exact absurd h.symm (d.text_ne_enclosed hvs hd hc (not_exists.1 hdor))
  · obtain ⟨ds, rfl⟩ := hdor
    rw [hors, hothers (not_exists.1 hcor)] at h
    exact absurd h (c.text_ne_enclosed hvs hc hd (not_exists.1 hcor))
  · rwa [hothers (not_exists.1 hcor), hothers (not_exists.1 hdor)] at h

/-! ### Operands -/

omit hvs in
/-- Source names of primitive types are distinct. -/
theorem Descriptor.IsPrimitive.sourceName_injective {t u : String} (ht : IsPrimitive t)
    (hu : IsPrimitive u) (h : sourceName t = sourceName u) : t = u := by
  obtain ⟨c, hc, ht⟩ := ht
  obtain ⟨d, hd, hu⟩ := hu
  rw [sourceName, sourceName, ht, hu] at h
  rw [← String.toList_inj, ht, hu]
  simp only [isPrimitive, Bool.or_eq_true, beq_iff_eq] at hc hd
  rcases hc with ((((((rfl | rfl) | rfl) | rfl) | rfl) | rfl) | rfl) | rfl <;>
    rcases hd with ((((((rfl | rfl) | rfl) | rfl) | rfl) | rfl) | rfl) | rfl <;>
      first | rfl | exact absurd h (by decide)

omit hvs in
/-- Operators are told apart by their symbols. -/
theorem BinaryOp.symbol_injective {op op' : BinaryOp} (h : op.symbol = op'.symbol) : op = op' := by
  cases op <;> cases op' <;> first | rfl | exact absurd h (by decide)

omit hvs in
/-- Relations are told apart by their symbols. -/
theorem Relation.symbol_injective {o o' : Relation} (h : o.symbol = o'.symbol) : o = o' := by
  cases o <;> cases o' <;> first | rfl | exact absurd h (by decide)

/-- The operands of an operator are seen from the text. -/
theorem Expr.binary_injective {op op' : BinaryOp} {l r l' r' : Expr}
    (he : (binary op l r).Plain vs) (hf : (binary op' l' r').Plain vs)
    (h : (binary op l r).text 0 = (binary op' l' r').text 0) :
    l.text 0 = l'.text 0 ∧ op = op' ∧ r.text 0 = r'.text 0 := by
  have hop := op.three_le_strength
  have hop' := op'.three_le_strength
  have hten := op.strength_le_ten
  have hten' := op'.strength_le_ten
  have hl := l.shown hvs he.1
  have hl' := l'.shown hvs hf.1
  have hr := r.shown hvs he.2
  have hr' := r'.shown hvs hf.2
  have hwords := congrArg words h
  rw [text_binary, text_binary, words_between (hl.bracketed_text _) op.isSymbol,
    words_between (hl'.bracketed_text _) op'.isSymbol] at hwords
  obtain ⟨hleft, hsymbol, hright⟩ := split_last hwords
    (by rw [op.rank_symbol]; exact hl.le_lowest_text (by omega) (by omega))
    (by rw [op.rank_symbol]; exact hr.le_lowest_text (by omega) (by omega))
    (by rw [op'.rank_symbol]; exact hl'.le_lowest_text (by omega) (by omega))
    (by rw [op'.rank_symbol]; exact hr'.le_lowest_text (by omega) (by omega))
  obtain rfl := BinaryOp.symbol_injective (String.toList_inj.1 hsymbol)
  exact ⟨text_injective hvs he.1 hf.1 (words_injective hleft), rfl,
    text_injective hvs he.2 hf.2 (words_injective hright)⟩

/-- The operands of a comparison are seen from the text. -/
theorem Cond.compare_injective {o o' : Relation} {l r l' r' : Expr}
    (hc : (compare l o r).Plain vs) (hd : (compare l' o' r').Plain vs)
    (h : (compare l o r).text = (compare l' o' r').text) :
    l.text 0 = l'.text 0 ∧ o = o' ∧ r.text 0 = r'.text 0 := by
  have hl := l.shown hvs hc.1
  have hl' := l'.shown hvs hd.1
  have hlow : ∀ {e : Expr}, e.Shown → 8 ≤ Text.lowest (words (e.text 8)) :=
    fun he => he.le_lowest_text (k := 8) (by decide) (by decide)
  have hwords := congrArg words h
  rw [text_compare, text_compare, words_between (hl.bracketed_text _) o.isSymbol,
    words_between (hl'.bracketed_text _) o'.isSymbol] at hwords
  obtain ⟨hleft, hsymbol, hright⟩ := split_last hwords
    (by rw [o.rank_symbol]; exact Nat.le_of_lt (hlow hl))
    (by rw [o.rank_symbol]; exact hlow (r.shown hvs hc.2))
    (by rw [o'.rank_symbol]; exact Nat.le_of_lt (hlow hl'))
    (by rw [o'.rank_symbol]; exact hlow (r'.shown hvs hd.2))
  obtain rfl := Relation.symbol_injective (String.toList_inj.1 hsymbol)
  exact ⟨Expr.text_injective hvs hc.1 hd.1 (words_injective hleft), rfl,
    Expr.text_injective hvs hc.2 hd.2 (words_injective hright)⟩

/-- The type and the operand of a cast are seen from the text. -/
theorem Expr.cast_injective {t u : String} {e f : Expr} (he : (cast t e).Plain vs)
    (hf : (cast u f).Plain vs) (h : (cast t e).text 0 = (cast u f).text 0) :
    t = u ∧ e.text 0 = f.text 0 := by
  have hwords := congrArg words h
  rw [text_cast, text_cast, words_append_space he.1.bracketed.enclosed,
    words_append_space hf.1.bracketed.enclosed, words_enclosed he.1.bracketed,
    words_enclosed hf.1.bracketed] at hwords
  obtain ⟨htype, hvalue⟩ := List.cons.inj hwords
  exact ⟨he.1.sourceName_injective hf.1 (String.toList_inj.1 (enclosed_injective htype)),
    text_injective hvs he.2 hf.2 (words_injective hvalue)⟩

/-- The test and the alternatives of a conditional value are seen from the text. -/
theorem Expr.ternary_injective {c d : Cond} {a b a' b' : Expr} (he : (ternary c a b).Plain vs)
    (hf : (ternary d a' b').Plain vs)
    (h : (ternary c a b).text 0 = (ternary d a' b').text 0) :
    c.text = d.text ∧ a.text 0 = a'.text 0 ∧ b.text 0 = b'.text 0 := by
  have hquestion : IsSymbol ['?'] := by simp [IsSymbol]
  have hcolon : IsSymbol [':'] := by simp [IsSymbol]
  have hc := c.shown hvs he.1
  have hd := d.shown hvs hf.1
  have ha := a.shown hvs he.2.1
  have ha' := a'.shown hvs hf.2.1
  have htest : ∀ {c : Cond}, c.Shown → 0 < Text.lowest (words c.text) := by
    intro c hc
    rw [hc.lowest]
    exact Cond.lowest_pos c
  have harm : ∀ {a : Expr}, a.Shown → 0 < Text.lowest (words (a.text 2)) := fun ha =>
    Nat.lt_of_lt_of_le (by decide) (ha.le_lowest_text (Nat.le_refl 2) (by decide))
  have hwords := congrArg words h
  rw [text_ternary, text_ternary, words_between hc.bracketed hquestion,
    words_between hd.bracketed hquestion] at hwords
  obtain ⟨hcond, harms⟩ := split_first hwords (htest hc) (htest hd)
  rw [words_between (ha.bracketed_text 2) hcolon, words_between (ha'.bracketed_text 2) hcolon]
    at harms
  obtain ⟨htrue, hfalse⟩ := split_first harms (harm ha) (harm ha')
  exact ⟨words_injective hcond, text_injective hvs he.2.1 hf.2.1 (words_injective htrue),
    text_injective hvs he.2.2 hf.2.2 (words_injective hfalse)⟩

/-- The operands of a disjunction are seen from the text. -/
theorem Cond.disjuncts_injective {cs ds : List Cond} (hc : (or cs).Plain vs)
    (hd : (or ds).Plain vs) (h : (or cs).text = (or ds).text) : cs.map text = ds.map text := by
  have hsymbol : IsSymbol ['|', '|'] := by simp [IsSymbol]
  have hne : ∀ {cs}, (or cs).Plain vs → cs.map text ≠ [] := fun hc heq =>
    absurd hc.1 (by simp [List.map_eq_nil_iff.1 heq])
  rw [text_or, text_or] at h
  exact (joinable_texts (Cond.allShown hvs cs hc.2.2) hc.2.1).joined_injective hsymbol
    (joinable_texts (Cond.allShown hvs ds hd.2.2) hd.2.1) (hne hc) (hne hd) h

/-- The members of a conjunction are told apart with and without brackets. -/
theorem Cond.texts_of_conjuncts {cs ds : List Cond} (hcs : AllPlain vs cs)
    (hds : AllPlain vs ds) (h : cs.map conjunct = ds.map conjunct) : cs.map text = ds.map text := by
  induction cs generalizing ds with
  | nil => rw [List.map_eq_nil_iff.1 h.symm]
  | cons c cs ih =>
    cases ds with
    | nil => cases h
    | cons d ds =>
      obtain ⟨hfirst, hrest⟩ := List.cons.inj h
      rw [List.map_cons, List.map_cons, conjunct_injective hvs hcs.1 hds.1 hfirst,
        ih hcs.2 hds.2 hrest]

/-- The operands of a conjunction are seen from the text. -/
theorem Cond.conjuncts_injective {cs ds : List Cond} (hc : (and cs).Plain vs)
    (hd : (and ds).Plain vs) (h : (and cs).text = (and ds).text) : cs.map text = ds.map text := by
  have hsymbol : IsSymbol ['&', '&'] := by simp [IsSymbol]
  have hne : ∀ {cs}, (and cs).Plain vs → cs.map conjunct ≠ [] := fun hc heq =>
    absurd hc.1 (by simp [List.map_eq_nil_iff.1 heq])
  rw [text_and, text_and] at h
  have hconjuncts := (joinable_conjuncts (Cond.allShown hvs cs hc.2.2) hc.2.1).joined_injective
    hsymbol (joinable_conjuncts (Cond.allShown hvs ds hd.2.2) hd.2.1) (hne hc) (hne hd) h
  exact texts_of_conjuncts hvs hc.2.2 hd.2.2 hconjuncts

/-! ### The induction -/

omit hvs

mutual

/-- Values with the same text are the same. -/
theorem Expr.eq_of_text (hvs : ∀ v, vs v → IsIdentifier v.name)
    (hdistinct : ∀ v w, vs v → vs w → v.name = w.name → v = w) :
    (e f : Expr) → e.Plain vs → f.Plain vs → e.text 0 = f.text 0 → e = f
  | .const (.int n), f, he, hf, h => by
    -- the text of either tells the constructor, and then the parts are read one after the other
    have hform := Expr.form_eq hvs he hf h
    cases f with
    | const c =>
      cases c with
      | int m =>
        obtain ⟨n, rfl⟩ := Int.eq_ofNat_of_zero_le (show 0 ≤ n from he)
        obtain ⟨m, rfl⟩ := Int.eq_ofNat_of_zero_le (show 0 ≤ m from hf)
        rw [Expr.text_ofNat, Expr.text_ofNat] at h
        rw [← Nat.ofDigitChars_toDigits (b := 10) (n := n) (by decide) (by decide), h,
          Nat.ofDigitChars_toDigits (by decide) (by decide)]
      | _ => exact hf.elim
    | _ => exact absurd hform (by simp [Expr.form])
  | .var v, f, he, hf, h => by
    have hform := Expr.form_eq hvs he hf h
    cases f with
    | var w =>
      rw [Expr.text_var, Expr.text_var] at h
      rw [hdistinct v w he hf (String.toList_inj.1 h)]
    | _ => exact absurd hform (by simp [Expr.form])
  | .binary op l r, f, he, hf, h => by
    have hform := Expr.form_eq hvs he hf h
    cases f with
    | binary op' l' r' =>
      obtain ⟨hl, rfl, hr⟩ := Expr.binary_injective hvs he hf h
      rw [l.eq_of_text hvs hdistinct l' he.1 hf.1 hl, r.eq_of_text hvs hdistinct r' he.2 hf.2 hr]
    | _ => exact absurd hform (by simp [Expr.form])
  | .negate e, f, he, hf, h => by
    have hform := Expr.form_eq hvs he hf h
    cases f with
    | negate f =>
      rw [Expr.text_negate, Expr.text_negate] at h
      rw [e.eq_of_text hvs hdistinct f he hf (Expr.text_injective hvs he hf (List.cons.inj h).2)]
    | _ => exact absurd hform (by simp [Expr.form])
  | .cast t e, f, he, hf, h => by
    have hform := Expr.form_eq hvs he hf h
    cases f with
    | cast u f =>
      obtain ⟨rfl, hvalue⟩ := Expr.cast_injective hvs he hf h
      rw [e.eq_of_text hvs hdistinct f he.2 hf.2 hvalue]
    | _ => exact absurd hform (by simp [Expr.form])
  | .ternary c a b, f, he, hf, h => by
    have hform := Expr.form_eq hvs he hf h
    cases f with
    | ternary d a' b' =>
      obtain ⟨hc, ha, hb⟩ := Expr.ternary_injective hvs he hf h
      rw [c.eq_of_text hvs hdistinct d he.1 hf.1 hc,
        a.eq_of_text hvs hdistinct a' he.2.1 hf.2.1 ha,
        b.eq_of_text hvs hdistinct b' he.2.2 hf.2.2 hb]
    | _ => exact absurd hform (by simp [Expr.form])

/-- Conditions with the same text are the same. -/
theorem Cond.eq_of_text (hvs : ∀ v, vs v → IsIdentifier v.name)
    (hdistinct : ∀ v w, vs v → vs w → v.name = w.name → v = w) :
    (c d : Cond) → c.Plain vs → d.Plain vs → c.text = d.text → c = d
  | .test e inverse, d, hc, hd, h => by
    have hform := Cond.form_eq hvs hc hd h
    cases d with
    | test f inverse' =>
      -- the form tells a test from an inverse test
      cases inverse <;> cases inverse'
      · rw [Cond.text_test, Cond.text_test] at h
        rw [e.eq_of_text hvs hdistinct f hc hd (Expr.text_injective hvs hc hd h)]
      · cases hform
      · cases hform
      · rw [Cond.text_test_inverse, Cond.text_test_inverse] at h
        rw [e.eq_of_text hvs hdistinct f hc hd
          (Expr.text_injective hvs hc hd (List.cons.inj h).2)]
    | not d => exact hd.elim
    | _ => cases inverse <;> exact absurd hform (by simp [Cond.form])
  | .compare l o r, d, hc, hd, h => by
    have hform := Cond.form_eq hvs hc hd h
    cases d with
    | compare l' o' r' =>
      obtain ⟨hl, rfl, hr⟩ := Cond.compare_injective hvs hc hd h
      rw [l.eq_of_text hvs hdistinct l' hc.1 hd.1 hl, r.eq_of_text hvs hdistinct r' hc.2 hd.2 hr]
    | test f inverse => cases inverse <;> exact absurd hform (by simp [Cond.form])
    | _ => exact absurd hform (by simp [Cond.form])
  | .and cs, d, hc, hd, h => by
    have hform := Cond.form_eq hvs hc hd h
    cases d with
    | and ds =>
      rw [Cond.eq_of_texts hvs hdistinct cs ds hc.2.2 hd.2.2 (Cond.conjuncts_injective hvs hc hd h)]
    | test f inverse => cases inverse <;> exact absurd hform (by simp [Cond.form])
    | _ => exact absurd hform (by simp [Cond.form])
  | .or cs, d, hc, hd, h => by
    have hform := Cond.form_eq hvs hc hd h
    cases d with
    | or ds =>
      rw [Cond.eq_of_texts hvs hdistinct cs ds hc.2.2 hd.2.2 (Cond.disjuncts_injective hvs hc hd h)]
    | test f inverse => cases inverse <;> exact absurd hform (by simp [Cond.form])
    | _ => exact absurd hform (by simp [Cond.form])

/-- Lists of conditions with the same texts are the same. -/
theorem Cond.eq_of_texts (hvs : ∀ v, vs v → IsIdentifier v.name)
    (hdistinct : ∀ v w, vs v → vs w → v.name = w.name → v = w) :
    (cs ds : List Cond) → Cond.AllPlain vs cs → Cond.AllPlain vs ds →
      cs.map Cond.text = ds.map Cond.text → cs = ds
  | [], ds, _, _, h => (List.map_eq_nil_iff.1 h.symm).symm
  | c :: cs, ds, hcs, hds, h => by
    cases ds with
    | nil => cases h
    | cons d ds =>
      obtain ⟨hfirst, hrest⟩ := List.cons.inj h
      rw [c.eq_of_text hvs hdistinct d hcs.1 hds.1 hfirst,
        Cond.eq_of_texts hvs hdistinct cs ds hcs.2 hds.2 hrest]

end

/-! ### The result -/

/-- **Unique reading.** Take locals whose names are identifiers, distinct ones for distinct locals.
    Values built from them, literals from 0 on, the operators, negations, casts to primitive types
    and conditional values have the same text only if they are the same, and so have conditions
    that test and compare such values and join tests in normal form. -/
theorem reading_unique (vs : Local → Prop) (hnames : ∀ v, vs v → IsIdentifier v.name)
    (hdistinct : ∀ v w, vs v → vs w → v.name = w.name → v = w) :
    (∀ e f : Expr, e.Plain vs → f.Plain vs → e.render = f.render → e = f) ∧
      ∀ c d : Cond, c.Plain vs → d.Plain vs → c.render = d.render → c = d := by
  refine ⟨fun e f he hf h => e.eq_of_text hnames hdistinct f he hf ?_,
    fun c d hc hd h => c.eq_of_text hnames hdistinct d hc hd (congrArg String.toList h)⟩
  rw [Expr.text_zero, Expr.text_zero, h]

/-- The local `a`. -/
def readA : Local := ⟨0, "a", "I"⟩

/-- The local `b`. -/
def readB : Local := ⟨1, "b", "I"⟩

/-- The value `(a + b) * -(a - 1)`. -/
def productTree : Expr :=
  .binary .mul (.binary .add (.var readA) (.var readB))
    (.negate (.binary .sub (.var readA) (.int 1)))

/-- The condition `(a < b || !a) && b == 0`. -/
def joinedTree : Cond :=
  .and [.or [.compare (.var readA) .lt (.var readB), .test (.var readA) true],
    .compare (.var readB) .eq (.int 0)]

/-- Nothing else over the locals `a` and `b` has the text of these two trees. -/
theorem product_and_joined_read_once :
    (∀ f : Expr, f.Plain (· ∈ [readA, readB]) → f.render = "(a + b) * -(a - 1)" →
        f = productTree) ∧
      ∀ d : Cond, d.Plain (· ∈ [readA, readB]) → d.render = "(a < b || !a) && b == 0" →
        d = joinedTree := by
  have hnames : ∀ v ∈ [readA, readB], IsIdentifier v.name := by
    simp only [List.mem_cons, List.not_mem_nil, or_false, forall_eq_or_imp, forall_eq]
    exact ⟨⟨'a', [], rfl, rfl, List.forall_mem_singleton.2 rfl⟩,
      ⟨'b', [], rfl, rfl, List.forall_mem_singleton.2 rfl⟩⟩
  have hdistinct : ∀ v ∈ [readA, readB], ∀ w ∈ [readA, readB], v.name = w.name → v = w := by
    decide
  have hread := reading_unique (· ∈ [readA, readB]) hnames fun v w hv hw => hdistinct v hv w hw
  have hproduct : productTree.Plain (· ∈ [readA, readB]) := by
    simp [productTree, Expr.int, Expr.Plain]
  have hjoined : joinedTree.Plain (· ∈ [readA, readB]) := by
    simp [joinedTree, Expr.int, Cond.Plain, Cond.AllPlain, Expr.Plain]
  exact ⟨fun f hf h => hread.1 f productTree hf hproduct (h.trans (by decide +kernel)),
    fun d hd h => hread.2 d joinedTree hd hjoined (h.trans (by decide +kernel))⟩

end Restructure
