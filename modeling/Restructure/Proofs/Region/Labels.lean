import Restructure.Proofs.Region.Derivations
import Restructure.Proofs.Region.Placed
import Restructure.Proofs.Simulation.Growth

namespace Restructure

/-!
# Labels of structured code — every part of the walk places labels as it should

* `Context.Opened` — where a block begins, with its label or without.
* `Context.Opened.doWhile` — the label of a `do` loop that is repeated in it.
* `Piece.Labels` — what a piece of the walk does to the labels.
* `Context.Derives.labelled` — and so does all that the walk writes.
-/

/-! ### Steps that write -/

/-- The frame of a loop belongs to its header. -/
theorem Frame.isLoopAt_header (n next : Nat) (body : List Nat) (follow : Option Nat) :
    (Frame.loop n next body follow).isLoopAt n = true := beq_self_eq_true n

/-- Control goes on behind the statements that instructions write. -/
theorem Simulation.run_straight {config : Config} {m m' : Simulation} {insns : List Insn}
    (h : Simulation.run config m insns = .ok m') :
    Rewritten Node.Terminal m.scope.stmts m'.scope.stmts :=
  (run_grown foreign_terminal (fun e _ n hn ⟨s, heq, _⟩ => e.stmt_not_mem s (heq ▸ hn))
    (fun _ _ _ _ _ _ ⟨_, heq, _⟩ => by cases heq) h).stmts

namespace Context

variable {c : Context} {labels : List Nat} {frames : Frames} {p p₁ : Progress} {n : Nat}
  {ss ts : List Stmt}

/-- A counting loop takes in only statements that stand for themselves. -/
theorem promoteFor_mark {enabled : Bool} {scope scope' body : Scope} {cond : Cond} {s : Stmt}
    (h : promoteFor enabled scope cond body = .ok (s, scope')) :
    Edited scope.stmts scope'.stmts ∧ s.mark = Stmt.marks body.stmts ∧ ∀ c b, s ≠ .doWhile c b := by
  -- the two assignments of a counting loop carry no labels, so its marks are those of the body
  cases promoteFor_inv h with
  | @counting slot init update b hinit hupdate _ _ hstmts hbody _ =>
    have hinit := Stmt.isAtomic_of_assignedLocal hinit
    have hupdate := Stmt.isAtomic_of_assignedLocal hupdate
    refine ⟨?_, ?_, by simp⟩
    · rw [hstmts]
      exact (Edited.refl _).drop hinit
    · have hedit : Edited (b.stmts ++ [update]) b.stmts := (Edited.refl _).drop hupdate
      rw [Stmt.mark_forLoop cond b hinit hupdate, hbody, Stmt.marks_of_edited hedit]
  | plain hbody hscope =>
    refine ⟨hscope ▸ .refl _, ?_, by simp⟩
    rw [Stmt.mark_whileLoop, hbody]

/-- Where a block begins: its label stands at the end of the code if it has one. -/
inductive Opened (labels : List Nat) (n : Nat) (ss : List Stmt) (p : Progress) :
    List Stmt → Progress → Prop
  | labelled (h : labels.contains n = true) :
      Opened labels n ss p (ss ++ [.label n]) { p with placed := n :: p.placed }
  | plain (h : labels.contains n = false) : Opened labels n ss p ss p

/-- A label is placed in front of the block, or not. -/
theorem opened_of_labelling {m m₁ : Simulation} (h : Labelling labels n m p m₁ p₁) :
    Opened labels n m.scope.stmts p m₁.scope.stmts p₁ := by
  cases h with
  | placed hlabel _ happend =>
    rw [Scope.stmts_of_append happend]
    exact .labelled hlabel
  | none hlabel => exact .plain hlabel

/-- Once the block counts as written its label is placed. -/
theorem Opened.marked (frames : Frames) (h : Opened labels n ss p ts p₁) (hn : n ∉ p.written)
    {ns : List Nat} (hns : n ∈ ns) :
    Labelled frames ss p ts { p₁ with written := ns ++ p₁.written } := by
  cases h with
  | labelled _ => exact .concat (by simp) (.label hn ns hns)
  | plain _ => exact (Labelled.refl frames ss p).markAll ns

/-- In front of everything else the label opens the code. -/
theorem Opened.opening (h : Opened labels n ss p ts p₁) (hn : labels.contains n = true)
    (hss : ss = []) : Stmt.opening? ts = some n := by
  cases h with
  | labelled _ =>
    rw [hss]
    rfl
  | plain hno =>
    rw [hn] at hno
    cases hno

/-- A `do` loop whose header has a label in front of it: the label is repeated if the body begins
    with it, and does not come up in the body otherwise. -/
theorem placed_relabelled {f : Frame} {frames : Frames} {p₂ : Progress} {b : List Stmt}
    {ns : List Nat} (hn : n ∉ p.written) (hns : n ∈ ns) (hf : f.isLoopAt n = true)
    (hframes : frames.isHeader n = false)
    (hb : (Stmt.marks b).Placed (f :: frames) { p with placed := n :: p.placed } p₂)
    (ho : p₂.placed.count n = (n :: p.placed).count n ∨ Stmt.opening? b = some n) :
    ((Stmt.label n).mark
        + (.ofRelabels (if Stmt.opening? b = some n then [n] else []) + Stmt.marks b)).Placed
      frames p { p₂ with written := ns ++ p₂.written } := by
  -- in the body the header is no label to repeat, since its loop is a frame around it
  have hself := hb.headers n (by simp [Frames.isHeader, hf])
  have hplaced := hb.placed n
  -- in the body the label comes up once if it opens it, and else not at all
  have hbody : (Stmt.marks b).labels n = if Stmt.opening? b = some n then 1 else 0 := by
    split
    · rename_i hopen
      have := hb.once n (Stmt.labels_pos_of_opening hopen)
      omega
    · rename_i hopen
      have : p₂.placed.count n = (n :: p.placed).count n := ho.resolve_right hopen
      simp only at hplaced
      omega
  generalize hk : (Stmt.label n).mark
    + (.ofRelabels (if Stmt.opening? b = some n then [n] else []) + Stmt.marks b) = k
  have hlabels : ∀ m, k.labels m = (Stmt.marks b).labels m + if m = n then 1 else 0 := fun m => by
    rw [← hk]
    by_cases hm : m = n
    · simp [Stmt.mark_label, Marks.ofRelabels, hm, Nat.add_comm]
    · simp [Stmt.mark_label, Marks.ofRelabels, hm, Ne.symm hm]
  have hrepeats : ∀ m, k.repeats m =
      if m = n then (if Stmt.opening? b = some n then 1 else 0) else (Stmt.marks b).repeats m :=
    fun m => by
      rw [← hk]
      by_cases hm : m = n
      · subst hm
        by_cases ho : Stmt.opening? b = some m <;>
          simp [Stmt.mark_label, Marks.ofRelabels, ho, hself]
      · by_cases ho : Stmt.opening? b = some n <;>
          simp [Stmt.mark_label, Marks.ofRelabels, ho, hm, Ne.symm hm]
  -- only the counts of `n` differ from those of the body: one label more, and perhaps one
  -- repetition
  refine ⟨fun m hm => List.mem_append_right _ (hb.written m hm), hb.targets, fun m hm => ?_,
    fun m => ?_, fun m hm => ?_, fun m hm => ?_, fun m hm => ?_, fun m => ?_, fun m hm => ?_⟩
  · exact hb.jumps m (by simpa [← hk, Stmt.mark_label, Marks.ofRelabels] using hm)
  · have := hb.placed m
    simp only [List.count_cons, beq_iff_eq, @eq_comm _ n m] at this
    rw [hlabels]
    show p₂.placed.count m = _
    omega
  · by_cases hmn : m = n
    · rw [hmn]
      exact ⟨hn, List.mem_append_left _ hns⟩
    · have := hb.fresh m (by simpa [hlabels, hmn] using hm)
      exact ⟨this.1, List.mem_append_right _ this.2⟩
  · rw [hlabels, hrepeats]
    by_cases hmn : m = n
    · rw [if_pos hmn, if_pos hmn, hmn, hbody, Nat.add_comm]
    · rw [if_neg hmn, if_neg hmn]
      exact hb.once m (by simpa [hlabels, hmn] using hm)
  · have hmn : m ≠ n := fun hmn => by simp [hlabels, hmn] at hm
    rw [hrepeats, if_neg hmn]
    exact hb.again m (by simpa [hlabels, hmn] using hm)
  · rw [hrepeats]
    split
    · split <;> omega
    · exact hb.twice m
  · have hmn : m ≠ n := fun hmn => by simp [hmn, hframes] at hm
    rw [hrepeats, if_neg hmn]
    exact hb.headers m (by simp_all [Frames.isHeader])

/-- A `do` loop in its place. -/
theorem Opened.doWhile {f : Frame} {p₂ : Progress} {b : Scope} {cond : Cond} {ns : List Nat}
    (hopen : Opened labels n ss p ts p₁) (hss : Behind ss p) (hn : n ∉ p.written) (hns : n ∈ ns)
    (hf : f.isLoopAt n = true) (hframes : frames.isHeader n = false)
    (hb : Labelled (f :: frames) [] p₁ b.stmts p₂)
    (ho : labels.contains n = true →
      p₂.placed.count n = p₁.placed.count n ∨ Stmt.opening? b.stmts = some n) :
    Labelled frames ss p (ts ++ [.doWhile cond b]) { p₂ with written := ns ++ p₂.written } := by
  have hplaced := hb.placed
  cases hopen with
  | labelled hlabel =>
    refine ⟨_, ?_, placed_relabelled hn hns hf hframes hplaced (ho hlabel), fun m hm =>
      Stmt.opening_concat _ (Stmt.opening_concat _ hm)⟩
    have hpair : (Stmt.relabel? (ss ++ [Stmt.label n]).getLast? (.doWhile cond b)).toList
        = if Stmt.opening? b.stmts = some n then [n] else [] := by
      rw [List.getLast?_concat]
      simp only [Stmt.relabel?]
      split <;> simp
    rw [Stmt.marks_concat, hpair, Stmt.marks_concat_of_ne ss (by simp), Stmt.mark_doWhile,
      Marks.add_assoc]
  | plain _ =>
    -- a label that ends the code before the loop belongs to a block written before it
    have hpair : Stmt.relabel? ss.getLast? (.doWhile cond b) = none := by
      cases hrelabel : Stmt.relabel? ss.getLast? (.doWhile cond b) with
      | none => rfl
      | some m =>
        obtain ⟨hlast, hopening⟩ := Stmt.opening_of_relabel hrelabel
        have h₁ := hss m (Stmt.labels_pos_of_getLast hlast)
        exact absurd h₁ (hplaced.fresh m (Stmt.labels_pos_of_opening hopening)).1
    refine ⟨Stmt.marks b.stmts, ?_, (hplaced.markAll ns).outer, fun m hm =>
      Stmt.opening_concat _ hm⟩
    rw [Stmt.marks_concat, hpair, Stmt.mark_doWhile]
    simp

end Context

/-! ### The walk -/

/-- Where a piece of code begins with the label of its first block, nothing stands in front of
    it. -/
def OpensAt (labels : List Nat) (n : Nat) (p : Progress) (ss : List Stmt) (p' : Progress) : Prop :=
  labels.contains n = true → p'.placed.count n = p.placed.count n ∨ Stmt.opening? ss = some n

/-- What a piece does to the labels, between the progress before it and behind it. -/
def Piece.Labels (labels : List Nat) (p p' : Progress) : Piece → Prop
  | .region frames n _ m m' => Behind m.scope.stmts p →
    Labelled frames m.scope.stmts p m'.scope.stmts p' ∧
      (m.scope.stmts = [] → OpensAt labels n p m'.scope.stmts p')
  | .onward frames _ (_, m) m' => Behind m.scope.stmts p →
    Labelled frames m.scope.stmts p m'.scope.stmts p'
  | .entered frames n _ m (_, m') => ∀ ss p₀, Context.Opened labels n ss p₀ m.scope.stmts p →
    Behind ss p₀ → n ∉ p₀.written →
      Labelled frames ss p₀ m'.scope.stmts p' ∧ KeepsOpening m.scope.stmts m'.scope.stmts
  -- a block counts as written when its code begins
  | .block frames n _ m (_, m') =>
    Labelled frames m.scope.stmts { p with written := [n] ++ p.written } m'.scope.stmts p'
  | .exit frames _ _ _ m (_, m') | .branch frames _ _ _ _ m (_, m')
  | .plain frames _ _ _ m (_, m') => Labelled frames m.scope.stmts p m'.scope.stmts p'
  | .inner frames n _ s s' | .before frames n _ s s' => s.stmts = [] →
    Labelled frames [] p s'.stmts p' ∧ OpensAt labels n p s'.stmts p'
  | .arm frames _ _ _ b | .switchArm frames _ _ _ _ _ b => Labelled frames [] p b.stmts p'
  | .arms frames _ _ _ code => (Stmt.armMarks code).Placed frames p p'

/-- One more statement, which is no `do` loop. -/
theorem Labelled.one {frames : Frames} {p p' : Progress} {ss ts : List Stmt} {s : Stmt}
    (h : ts = ss ++ [s]) (hs : ∀ c b, s ≠ .doWhile c b) (hp : s.mark.Placed frames p p') :
    Labelled frames ss p ts p' := h ▸ .concat hs hp

/-- One more statement that stands for itself. -/
theorem Labelled.atomic {frames : Frames} {p : Progress} {ss ts : List Stmt} {s : Stmt}
    (h : ts = ss ++ [s]) (hs : s.isAtomic = true) : Labelled frames ss p ts p :=
  h ▸ (Labelled.refl frames ss p).edited ((Edited.refl ss).add hs)

/-- A scope becomes part of a statement. -/
theorem Labelled.locked {frames : Frames} {p p' : Progress} {ss : List Stmt} {s b : Scope}
    (h : Labelled frames ss p s.stmts p') (hlock : s.lock = .ok b) :
    Labelled frames ss p b.stmts p' := Scope.stmts_of_lock hlock ▸ h

namespace Context

variable {c : Context} {labels : List Nat}

/-- A loop that tests in front of its body. -/
theorem Opened.whileLoop {frames : Frames} {f : Frame} {n : Nat} {chain : List Nat}
    {enabled : Bool} {cond : Cond} {stmt : Stmt} {scope before scope' body : Scope} {ss : List Stmt}
    {p₀ p p' : Progress} (hopen : Opened labels n ss p₀ scope.stmts p) (hn : n ∉ p₀.written)
    (hchain : n ∈ chain)
    (hbody : Labelled (f :: frames) [] { p with written := chain ++ p.written } body.stmts p')
    (hpromote : promoteFor enabled scope cond body = .ok (stmt, before))
    (happend : before.append stmt = .ok scope') :
    Labelled frames ss p₀ scope'.stmts p' ∧ KeepsOpening scope.stmts scope'.stmts := by
  obtain ⟨hedit, hmark, hne⟩ := promoteFor_mark hpromote
  rw [Scope.stmts_of_append happend]
  refine ⟨((hopen.marked frames hn hchain).edited hedit).trans (.concat hne ?_),
    hedit.keepsOpening.concat stmt⟩
  rw [hmark]
  exact hbody.placed.outer

/-- Every piece places labels as it should. By induction on how it comes about: a block that is
    entered has not been written before, so its label is new. -/
theorem Derives.labelled {piece : Piece} {p p' : Progress} (h : c.Derives labels piece p p') :
    piece.Labels labels p p' := by
  induction h with
  | stop _ => exact fun _ => ⟨.refl .., fun _ _ => .inl rfl⟩
  | nextRound _ happend | leave _ happend =>
    exact fun _ => ⟨.atomic (Scope.stmts_of_append happend) rfl, fun _ _ => .inl rfl⟩
  | goto _ _ _ happend =>
    exact fun _ => ⟨.one (Scope.stmts_of_append happend) (by simp) (.jump rfl), fun _ _ => .inl rfl⟩
  -- the label is new, since control only enters blocks that are not written yet
  | enter hjump hlabel _ _ ihcode ihrest =>
    intro hbehind
    have hopen := opened_of_labelling hlabel
    obtain ⟨hcode, hkept⟩ := ihcode _ _ hopen hbehind (not_mem_written_of_enter hjump)
    have hrest := ihrest (hcode.behind hbehind)
    refine ⟨hcode.trans hrest, fun hnil hlabel => .inr ?_⟩
    exact hrest.keepsOpening _ (hkept _ (hopen.opening hlabel hnil))
  | done => exact fun _ => .refl ..
  | next _ ih => exact fun hbehind => (ih hbehind).1
  | here _ _ ih =>
    intro ss p₀ hopen hbehind hn
    exact ⟨(hopen.marked _ hn (List.mem_singleton_self _)).trans ih, ih.keepsOpening⟩
  -- of the loops only a `do` loop may repeat the label in front of it
  | whileLoop hl _ _ _ htest _ hpromote happend ih =>
    intro ss p₀ hopen hbehind hn
    obtain rfl := c.graph.header_of_loopAt hl
    exact hopen.whileLoop hn (header_mem_chain htest) (ih rfl).1 hpromote happend
  | doLoop _ hl hframes _ _ _ _ _ _ hrun _ hlock happend ih =>
    intro ss p₀ hopen hbehind hn
    obtain rfl := c.graph.header_of_loopAt hl
    obtain ⟨hbody, hopens⟩ := ih rfl
    -- the latch adds nothing to the labels of the body, nor to its beginning
    have hedit := Simulation.run_edited hrun
    rw [← Scope.stmts_of_lock hlock] at hedit
    rw [Scope.stmts_of_append happend]
    refine ⟨hopen.doWhile hbehind hn (List.mem_cons_self ..) (Frame.isLoopAt_header ..) hframes
      (hbody.edited hedit) fun hlabel => ?_, KeepsOpening.concat (fun _ h => h) _⟩
    exact (hopens hlabel).imp_right fun h => Stmt.opening_of_edited hedit h
  | endless hl _ _ _ _ _ _ _ hdrop hlock happend ihblock ihrest =>
    intro ss p₀ hopen hbehind hn
    obtain rfl := c.graph.header_of_loopAt hl
    have hbody := ihblock.trans (ihrest (ihblock.behind (.nil _)))
    have hdropped := hbody.edited ((dropContinue_trimmed hdrop).edited rfl)
    have hplaced := (hdropped.locked hlock).placed
    rw [Scope.stmts_of_append happend]
    refine ⟨(hopen.marked _ hn (List.mem_singleton_self _)).trans (.concat (by simp) ?_),
      KeepsOpening.concat (fun _ h => h) _⟩
    rw [Stmt.mark_whileLoop]
    exact hplaced.outer
  -- instructions write neither labels nor jumps
  | block _ hrun _ ih => exact ((Labelled.refl ..).edited (Simulation.run_edited hrun)).trans ih
  | exitGoto => exact .refl ..
  | exitRet happend | exitValue _ happend | exitThrow _ happend =>
    exact .atomic (Scope.stmts_of_append happend) rfl
  | exitBranch _ _ _ ih => exact ((Labelled.refl ..).markAll _).trans ih
  | exitSwitch _ _ _ happend ih =>
    refine .one (Scope.stmts_of_append happend) (by simp) ?_
    rw [Stmt.mark_switch]
    exact ih.outer
  -- blocks that collapse into a value count as written, and have no labels
  | collapsedValue _ _ => exact (Labelled.refl ..).markAll _
  | collapsedStmt _ hform happend =>
    exact ((Labelled.refl ..).markAll _).trans
      (.atomic (Scope.stmts_of_append happend) (ternary_inv hform).isAtomic)
  | plain _ _ _ ih => exact ih
  | oneArm _ _ _ happend ih =>
    refine .one (Scope.stmts_of_append happend) (by simp) ?_
    rw [Stmt.mark_ifElse_none]
    exact ih.placed
  | twoArms _ _ _ _ _ _ happend iharm ihelse =>
    refine .one (Scope.stmts_of_append happend) (by simp) ?_
    rw [Stmt.mark_ifElse_some]
    exact iharm.placed.trans ihelse.placed
  | jump _ _ _ happend =>
    exact .one (Scope.stmts_of_append happend) (by simp) (.jump (Stmt.mark_gotoIf _ _))
  | @inner _ _ _ s _ p _ _ _ ih =>
    intro hs
    have hb : Behind s.stmts p := hs ▸ .nil p
    obtain ⟨hl, ho⟩ := ih hb
    exact ⟨hs ▸ hl, ho hs⟩
  | arm _ hlock ih => exact (ih rfl).1.locked hlock
  | latchOnly _ => exact fun hs => ⟨hs ▸ .refl .., fun _ => .inl rfl⟩
  | before _ _ ih => exact ih
  | armEmpty _ hlock => exact (Labelled.refl _ [] _).locked hlock
  | armCode _ _ hclose hlock ih =>
    exact ((ih rfl).1.edited ((closeArm_trimmed hclose).edited rfl)).locked hlock
  | armsNil => exact .refl ..
  | armsCons _ _ iharm ihrest => exact iharm.placed.trans ihrest

end Context

end Restructure
