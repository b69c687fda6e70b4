import Mathlib.Tactic.Tauto
import Restructure.Descriptor

namespace Restructure

/-!
# Reading descriptors — exactly the texts of the grammar are read, in one way

* `Descriptor.IsField` — the grammar of field descriptors.  No field descriptor begins another one,
  so that `splitField` takes the one with which a text begins (`splitField_eq_ok_iff`), and
  `splitFields` the only sequence that a text consists of.
* `MethodType.written`, `MethodType.WellFormed` — the text of a method descriptor, and the parts
  that it may be written from.
* `Descriptor.read_exactly` — the main statement.
-/

/-! ### Cutting a text -/

/-- A text is cut at the first place of a character: the part before it does not have it. -/
theorem cut_iff {x y : Char} {cs ps qs : List Char} :
    cs.takeWhile (· ≠ x) = ps ∧ cs.dropWhile (· ≠ x) = y :: qs ↔
      x ∉ ps ∧ y = x ∧ cs = ps ++ x :: qs := by
  induction cs generalizing ps with
  | nil => simp
  | cons c cs ih =>
    by_cases hc : c = x
    · subst hc
      cases ps with
      | nil => simp [eq_comm]
      | cons p ps => simp +contextual
    · cases ps with
      | nil => simp [hc]
      | cons p ps =>
        rw [List.takeWhile_cons_of_pos (by simpa using hc),
          List.dropWhile_cons_of_pos (by simpa using hc), List.cons.injEq, and_assoc, ih]
        have hp : c = p → x ≠ p := fun h => h ▸ Ne.symm hc
        simp only [List.mem_cons, not_or, List.cons_append, List.cons.injEq]
        tauto

namespace Descriptor

/-! ### The grammar -/

/-- The characters of a field descriptor: a primitive letter, or a named class, and any number of
    brackets before it. -/
inductive FieldChars : List Char → Prop
  | primitive {c : Char} (h : c ∈ "BCDFIJSZ".toList) : FieldChars [c]
  | object {name : List Char} (hne : name ≠ []) (h : ';' ∉ name) :
      FieldChars ('L' :: name ++ [';'])
  | array {element : List Char} (h : FieldChars element) : FieldChars ('[' :: element)

/-- The text is a field descriptor. -/
def IsField (d : String) : Prop := FieldChars d.toList

/-- The primitive types have one letter each. -/
theorem isPrimitive_iff {c : Char} : isPrimitive c = true ↔ c ∈ "BCDFIJSZ".toList := by
  simp [isPrimitive, or_assoc]

/-! ### Field descriptors -/

/-- What is split off is a field descriptor with which the text begins. -/
theorem fieldChars_of_splitField {cs d tail : List Char} (h : splitField cs = .ok (d, tail)) :
    FieldChars d ∧ cs = d ++ tail := by
  fun_induction splitField cs generalizing d tail with
  | case1 => cases h
  | case2 rest d' tail' _ ih =>
    obtain ⟨rfl, rfl⟩ : '[' :: d' = d ∧ tail' = tail := by simpa using h
    obtain ⟨hd, rfl⟩ := ih ‹_›
    exact ⟨.array hd, rfl⟩
  | case3 => cases h
  | case4 rest c name semicolon tail' htail hname =>
    obtain ⟨rfl, rfl⟩ : 'L' :: c :: name ++ [semicolon] = d ∧ tail' = tail := by simpa using h
    obtain ⟨hnot, rfl, rfl⟩ := cut_iff.1 ⟨hname, htail⟩
    exact ⟨.object (List.cons_ne_nil _ _) hnot, by simp⟩
  | case5 => cases h
  | case6 c rest _ _ hc =>
    obtain ⟨rfl, rfl⟩ : [c] = d ∧ rest = tail := by simpa using h
    exact ⟨.primitive (isPrimitive_iff.1 hc), rfl⟩
  | case7 => cases h

/-- A field descriptor at the beginning of a text is split off, whatever follows. -/
theorem FieldChars.splitField {d : List Char} (h : FieldChars d) (tail : List Char) :
    splitField (d ++ tail) = .ok (d, tail) := by
  induction h with
  | @primitive c hc =>
    have hbracket : c ≠ '[' := by
      rintro rfl
      simp at hc
    have hclass : c ≠ 'L' := by
      rintro rfl
      simp at hc
    simp [Descriptor.splitField, isPrimitive_iff.2 hc]
  | @object name hne hnot =>
    -- the name ends at its first semicolon, whatever follows
    obtain ⟨c, rest, rfl⟩ := List.exists_cons_of_ne_nil hne
    obtain ⟨hname, htail⟩ := cut_iff.2 ⟨hnot, rfl, (rfl : _ = c :: rest ++ ';' :: tail)⟩
    have hcs : 'L' :: (c :: rest) ++ [';'] ++ tail = 'L' :: (c :: rest ++ ';' :: tail) := by simp
    rw [hcs, Descriptor.splitField, hname, htail]
  | array _ ih =>
    rw [List.cons_append, Descriptor.splitField, ih]

/-- A field type is split off exactly if the text begins with one. -/
theorem splitField_eq_ok_iff {cs d tail : List Char} :
    splitField cs = .ok (d, tail) ↔ FieldChars d ∧ cs = d ++ tail :=
  ⟨fieldChars_of_splitField, fun ⟨hd, hcs⟩ => hcs ▸ hd.splitField tail⟩

/-- A text is valid exactly if it is one field type. -/
theorem validateChars_eq_ok_iff {cs : List Char} :
    validateChars cs = .ok () ↔ FieldChars cs := by
  rw [validateChars]
  refine ⟨fun h => ?_, fun h => ?_⟩
  · split at h
    · cases h
    · next d hsplit =>
      obtain ⟨hd, rfl⟩ := splitField_eq_ok_iff.1 hsplit
      rwa [List.append_nil]
    · cases h
  · have hsplit := h.splitField []
    rw [List.append_nil] at hsplit
    rw [hsplit]

/-! ### Sequences of field descriptors -/

/-- Field types are split off one by one. -/
theorem splitFields_of_splitField {cs d tail : List Char} {ds : List String}
    (h : splitField cs = .ok (d, tail)) (htail : splitFields tail = .ok ds) :
    splitFields cs = .ok (String.ofList d :: ds) := by
  cases cs with
  | nil => cases h
  | cons c rest =>
    rw [splitFields]
    split
    · next he => rw [h] at he; cases he
    · next he =>
      obtain ⟨rfl, rfl⟩ := Prod.mk.inj (Except.ok.inj (h.symm.trans he))
      rw [htail]

/-- A text is split into field descriptors that it consists of. -/
theorem splitFields_eq_ok_iff {cs : List Char} {ds : List String} :
    splitFields cs = .ok ds ↔ cs = ds.flatMap String.toList ∧ ∀ d ∈ ds, IsField d := by
  constructor
  · intro h
    fun_induction splitFields cs generalizing ds with
    | case1 =>
      obtain rfl := Except.ok.inj h
      simp
    | case2 => cases h
    | case3 c rest d tail hsplit ds' _ ih =>
      obtain rfl := Except.ok.inj h
      obtain ⟨hd, heq⟩ := splitField_eq_ok_iff.1 hsplit
      obtain ⟨htail, hds⟩ := ih ‹_›
      refine ⟨by simp [heq, htail], List.forall_mem_cons.2 ⟨?_, hds⟩⟩
      rwa [IsField, String.toList_ofList]
    | case4 => cases h
  · rintro ⟨rfl, hds⟩
    induction ds with
    | nil => rw [List.flatMap_nil, splitFields]
    | cons d ds ih =>
      obtain ⟨hd, hds⟩ := List.forall_mem_cons.1 hds
      have hsplit := hd.splitField (ds.flatMap String.toList)
      rw [List.flatMap_cons, splitFields_of_splitField hsplit (ih hds), String.ofList_toList]

end Descriptor

/-! ### Method descriptors -/

namespace MethodType

/-- The text of a method descriptor. -/
def written (m : MethodType) : String := "(" ++ String.join m.params ++ ")" ++ m.result

/-- The parameters are field descriptors without a closing parenthesis, and the result is a field
    descriptor or `V`. -/
structure WellFormed (m : MethodType) : Prop where
  params : ∀ d ∈ m.params, Descriptor.IsField d
  unclosed : ')' ∉ (String.join m.params).toList
  result : m.result = "V" ∨ Descriptor.IsField m.result

/-- How a method type is written, character by character. -/
theorem eq_written_iff {d : String} {m : MethodType} : d = m.written ↔
    d.toList = '(' :: (m.params.flatMap String.toList ++ ')' :: m.result.toList) := by
  rw [← String.toList_inj]
  simp [written, String.toList_join]

/-- The letter of no result. -/
theorem toList_void : Descriptor.void.toList = ['V'] := rfl

/-- The parts in which a method descriptor is read. -/
theorem parse_eq_ok_iff {descriptor : String} {m : MethodType} :
    parse descriptor = .ok m ↔
      ∃ fields, ')' ∉ fields ∧ descriptor.toList = '(' :: (fields ++ ')' :: m.result.toList) ∧
        Descriptor.splitFields fields = .ok m.params ∧
          (m.result = "V" ∨ Descriptor.IsField m.result) := by
  constructor
  · intro h
    simp only [parse] at h
    split at h
    · next inner htext =>
      split at h
      · cases h
      · next hdrop =>
        -- the parameters end at the first closing parenthesis
        obtain ⟨hnot, rfl, hinner⟩ := cut_iff.1 ⟨rfl, hdrop⟩
        refine ⟨_, hnot, ?_⟩
        split at h
        · cases h
        · next hfields =>
          split at h
          · next hvoid =>
            obtain rfl := Except.ok.inj h
            rw [hvoid, ← toList_void] at hinner
            exact ⟨htext.trans (congrArg _ hinner), hfields, .inl rfl⟩
          · split at h
            · cases h
            · next hvalid =>
              obtain rfl := Except.ok.inj h
              have hresult := Descriptor.validateChars_eq_ok_iff.1 hvalid
              rw [Descriptor.IsField, String.toList_ofList]
              exact ⟨htext.trans (congrArg _ hinner), hfields, .inr hresult⟩
    · cases h
  · rintro ⟨fields, hnot, htext, hfields, hresult⟩
    obtain ⟨htake, hdrop⟩ := cut_iff.2 ⟨hnot, rfl, (rfl : _ = fields ++ ')' :: m.result.toList)⟩
    simp only [parse, htext, htake, hdrop, hfields]
    by_cases hvoid : m.result.toList = ['V']
    · rw [if_pos hvoid, ← String.toList_inj.1 (hvoid.trans toList_void.symm)]
    · have hfield : Descriptor.FieldChars m.result.toList :=
        hresult.resolve_left fun h => hvoid (h ▸ toList_void)
      rw [if_neg hvoid, Descriptor.validateChars_eq_ok_iff.2 hfield, String.ofList_toList]

/-- A text is read as a method type exactly if it is the way the type is written. -/
theorem parse_eq_ok_iff_written {descriptor : String} {m : MethodType} :
    parse descriptor = .ok m ↔ descriptor = m.written ∧ m.WellFormed := by
  rw [parse_eq_ok_iff, eq_written_iff]
  refine ⟨fun ⟨fields, hnot, htext, hfields, hresult⟩ => ?_, fun ⟨htext, hm⟩ => ?_⟩
  · obtain ⟨rfl, hparams⟩ := Descriptor.splitFields_eq_ok_iff.1 hfields
    exact ⟨htext, hparams, by rwa [String.toList_join], hresult⟩
  · refine ⟨_, ?_, htext, Descriptor.splitFields_eq_ok_iff.2 ⟨rfl, hm.params⟩, hm.result⟩
    rw [← String.toList_join]
    exact hm.unclosed

end MethodType

/-- **Reading descriptors.** A text is accepted as a type exactly if it is a field descriptor, and
    read as a method's parameters and result exactly if it is written from them and they are well
    formed.  So what is written is read back, and it is written in one way only. -/
theorem Descriptor.read_exactly :
    (∀ d, validate d = .ok () ↔ IsField d) ∧
      (∀ d m, MethodType.parse d = .ok m ↔ d = m.written ∧ m.WellFormed) ∧
      (∀ m : MethodType, MethodType.parse m.written = .ok m ↔ m.WellFormed) ∧
      ∀ m m' : MethodType, m.WellFormed → m'.WellFormed → m.written = m'.written → m = m' := by
  have hback : ∀ m : MethodType, MethodType.parse m.written = .ok m ↔ m.WellFormed := fun m => by
    rw [MethodType.parse_eq_ok_iff_written, and_iff_right rfl]
  refine ⟨fun d => validateChars_eq_ok_iff, fun d m => MethodType.parse_eq_ok_iff_written, hback,
    fun m m' hm hm' heq => ?_⟩
  have hread := (hback m).2 hm
  rw [heq, (hback m').2 hm'] at hread
  exact (Except.ok.inj hread).symm

/-- A class whose name has a bracket and a result whose name has a closing parenthesis. -/
def bracketed : MethodType := ⟨["[[L[;", "I"], "Lb);"⟩

/-- Class names with brackets and semicolons around them are read back. -/
theorem bracketed_read :
    bracketed.WellFormed ∧ MethodType.parse "([[L[;I)Lb);" = .ok bracketed ∧
      ∀ m : MethodType, m.WellFormed → m.written = "([[L[;I)Lb);" → m = bracketed := by
  obtain ⟨hvalid, hparse, _, hunique⟩ := Descriptor.read_exactly
  have hwritten : bracketed.written = "([[L[;I)Lb);" := by decide +kernel
  have hm : bracketed.WellFormed := by
    refine ⟨?_, by decide +kernel, .inr ((hvalid "Lb);").1 rfl)⟩
    have hfirst := (hvalid "[[L[;").1 rfl
    have hsecond := (hvalid "I").1 rfl
    exact List.forall_mem_cons.2 ⟨hfirst, List.forall_mem_cons.2 ⟨hsecond, by simp⟩⟩
  rw [← hwritten]
  exact ⟨hm, (hparse _ _).2 ⟨rfl, hm⟩, fun m h heq => hunique m bracketed h hm heq⟩

end Restructure
