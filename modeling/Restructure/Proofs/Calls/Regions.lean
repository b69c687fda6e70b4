import Restructure.Proofs.Calls.Exits
import Restructure.Proofs.Region.Derivations

namespace Restructure

/-!
# Regions — the code of traced blocks follows the graph

Unless it holds a jump to a label, the code that is written for a graph of traced blocks makes the
calls of the graph, wherever control comes from.

* `Jumpless` — what is known of a part of the walk that leaves no jump behind.
* `BeginsOnward`, `ForksOnward` — a piece of code behind a block, and behind its test.
* `OneArm.forks`, `BeginsOnward.goOn`, `Context.begins_of_latch` — what follows for the code of one
  construct.
* `Piece.Follows`, `Context.Derives.follows` — and so for all that the walk writes.
-/

/-! ### Parts of the walk -/

/-- More blocks are written, and unless there is a jump to a label `R` holds. -/
structure Jumpless (p p' : Progress) (R : Prop) : Prop where
  written : p.written ⊆ p'.written
  holds : p'.targets = [] → p.targets = [] ∧ R

/-- The same with statements added to a scope. -/
def Adds (Q : List Stmt → Prop) (ss : List Stmt) (p : Progress) (ts : List Stmt) (p' : Progress) :
    Prop :=
  Jumpless p p' (∃ us, ts = ss ++ us ∧ Q us)

section Parts

variable {p p₁ p' : Progress} {R R' S : Prop} {Q Q' : List Stmt → Prop} {ss ts us : List Stmt}

/-- Nothing has been written. -/
theorem Jumpless.refl (h : R) : Jumpless p p R := ⟨List.Subset.refl _, fun hp => ⟨hp, h⟩⟩

/-- One part behind the other. -/
theorem Jumpless.andThen (h : Jumpless p p₁ R) (h' : Jumpless p₁ p' R') (hS : R → R' → S) :
    Jumpless p p' S where
  written := List.Subset.trans h.written h'.written
  holds hp := by
    obtain ⟨hp₁, hR'⟩ := h'.holds hp
    obtain ⟨hp, hR⟩ := h.holds hp₁
    exact ⟨hp, hS hR hR'⟩

/-- What follows from it. -/
theorem Jumpless.imp (h : Jumpless p p' R) (hS : R → S) : Jumpless p p' S :=
  ⟨h.written, fun hp => (h.holds hp).imp_right hS⟩

/-- A jump to a label. -/
theorem jumpless_of_target {n : Nat} :
    Jumpless p { p with targets := Loop.insertAscending n p.targets } R where
  written := List.Subset.refl _
  holds hp := absurd hp (List.ne_nil_of_mem (Loop.mem_insertAscending.2 (.inl rfl)))

/-- More blocks are marked first. -/
theorem Jumpless.marked (ns : List Nat)
    (h : Jumpless { p with written := ns ++ p.written } p' R) : Jumpless p p' R :=
  ⟨fun _ hk => h.written (List.mem_append_right _ hk), h.holds⟩

end Parts


/-! ### Behind a block -/

/-- A piece of code with the block that control goes on to: it follows the graph from block `n`. -/
def BeginsOnward (c : Context) (answers : Answers) (frames : Frames) (n : Nat) (stop : Option Nat)
    (ss : List Stmt) (p : Progress) (r : Onward) (p' : Progress) : Prop :=
  r.2.stack = [] ∧
    Adds (fun us => Begins c answers frames n stop p.written us r.1 p'.written) ss p
      r.2.scope.stmts p'

/-- A piece of code behind the test of block `n`, with the block that control goes on to. -/
def ForksOnward (c : Context) (answers : Answers) (frames : Frames) (n : Nat) (stop : Option Nat)
    (g : MethodRef) (target : Int → Nat) (ss : List Stmt) (p : Progress) (r : Onward)
    (p' : Progress) : Prop :=
  r.2.stack = [] ∧
    Adds (fun us => Forks c answers frames n stop p.written g target us r.1 p'.written) ss p
      r.2.scope.stmts p'

/-- A block with a test: what comes behind the test is added behind the call. -/
theorem ForksOnward.begins {c : Context} {answers : Answers} {frames : Frames} {n : Nat}
    {stop : Option Nat} {f g : MethodRef} {target : Int → Nat} {b : Block} {ss ts : List Stmt}
    {x : Onward} {p p' : Progress} (hc : c.graph.Traced) (hb : c.graph.block? n = some b)
    (h : ForksOnward c answers frames n stop g target ts { p with written := n :: p.written } x p')
    (hrun : b.run answers (c.graph.behaviour answers) = Run.call f (Run.ask answers g fun v =>
      c.graph.behaviour answers (target v)))
    (hts : ts = ss ++ [.eval (.staticCall f [])]) :
    BeginsOnward c answers frames n stop ss p x p' := by
  obtain ⟨hst, hcode⟩ := h
  refine ⟨hst, (Jumpless.marked [n] hcode).imp ?_⟩
  rintro ⟨us, hus, hforks⟩
  refine ⟨.eval (.staticCall f []) :: us, ?_,
    Begins.fork hc hb hrun hforks (List.mem_cons_self ..) (List.subset_cons_self ..)⟩
  rw [hus, hts, List.append_assoc, List.singleton_append]

/-- A piece of code with the region behind it follows the graph up to the end of the region. -/
theorem BeginsOnward.goOn {c : Context} {answers : Answers} {frames : Frames} {n t : Nat}
    {stop : Option Nat} {ss : List Stmt} {m m' : Simulation} {p₀ p p' : Progress}
    (h : BeginsOnward c answers frames n stop ss p₀ (some t, m) p)
    (hrest : Adds (fun us => Carries c answers frames t stop p.written us p'.written)
      m.scope.stmts p m'.scope.stmts p') :
    Adds (fun us => Begins c answers frames n stop p₀.written us stop p'.written) ss p₀
      m'.scope.stmts p' := by
  refine h.2.andThen hrest ?_
  rintro ⟨us, hus, hbegins⟩ ⟨vs, hvs, hcarries⟩
  have hus : m.scope.stmts = ss ++ us := hus
  refine ⟨us ++ vs, ?_, hbegins.goOn hcarries h.2.written hrest.written⟩
  rw [hvs, hus, List.append_assoc]

/-- A label in front of the code changes nothing. -/
theorem Jumpless.labelled {c : Context} {answers : Answers} {frames : Frames} {n : Nat}
    {stop : Option Nat} {labels : List Nat} {m m₁ m' : Simulation} {p p₁ p' : Progress}
    (hlabel : Labelling labels n m p m₁ p₁)
    (h : Adds (fun us => Begins c answers frames n stop p₁.written us stop p'.written)
      m₁.scope.stmts p₁ m'.scope.stmts p') :
    Adds (fun us => Begins c answers frames n stop p.written us stop p'.written) m.scope.stmts p
      m'.scope.stmts p' := by
  cases hlabel with
  | none _ => exact h
  | placed _ _ happend =>
    refine ⟨h.written, fun hp => (h.holds hp).imp_right ?_⟩
    rintro ⟨us, hus, hbegins⟩
    have hus : m'.scope.stmts = _ ++ us := hus
    refine ⟨.label n :: us, ?_, Begins.label hbegins⟩
    rw [hus, Scope.stmts_of_append happend, List.append_assoc, List.singleton_append]

/-! ### Constructs -/

section Constructs

variable {c : Context} {answers : Answers} {frames : Frames} {stop : Option Nat} {n : Nat}
  {p p₁ p' : Progress} {m : Simulation} {s : Scope} {g : MethodRef} {r : Relation}
  {taken fallthrough : Nat}

/-- The test of a branch that has just been asked. -/
def asked (g : MethodRef) (r : Relation) (taken fallthrough : Nat) : BranchTest :=
  ⟨zeroTest (.staticCall g []) r, taken, fallthrough⟩

/-- A conditional with one arm asks the test and goes into the arm, or past it. -/
theorem OneArm.forks {start other : Nat} {armStop : Option Nat} {isTaken : Bool} {b : Scope}
    (hside : OneArm c ⟨frames, p.written, stop⟩ n (asked g r taken fallthrough) isTaken start other
      armStop)
    (hbody : Jumpless p p' (Carries c answers frames start armStop p.written b.stmts p'.written))
    (happend : m.scope.append (.ifElse (askedTest g r isTaken) b none) = .ok s)
    (htaken : taken ∈ c.graph.successors n) (hfall : fallthrough ∈ c.graph.successors n)
    (hst : m.stack = []) :
    ForksOnward c answers frames n stop g (fun v => if r.holds v 0 then taken else fallthrough)
      m.scope.stmts p (some other, { m with scope := s }) p' := by
  refine ⟨hst, hbody.imp fun hcarries => ⟨_, Scope.stmts_of_append happend, ?_⟩⟩
  cases hside with
  | guard hguard _ =>
    obtain ⟨hchosen, size, hsize⟩ := Context.guardedArm_inv hguard
    have htargets := hchosen.both (P := (· ∈ c.graph.successors n)) htaken hfall
    exact Forks.guard hchosen htargets.1 htargets.2 hsize hcarries hbody.written
  | meet hchosen hmeet _ =>
    have htargets := hchosen.both (P := (· ∈ c.graph.successors n)) htaken hfall
    exact Forks.conditional hchosen htargets.1 htargets.2 (Context.postDominator_of_meeting hmeet)
      hcarries rfl hbody.written (List.Subset.refl _)

/-- A conditional with two arms asks the test and goes into one of them. -/
theorem forks_of_twoArms {merge : Nat} {b e : Scope}
    (hmeet : c.meeting? ⟨frames, p.written, stop⟩ n = some merge)
    (hbody : Jumpless p p₁
      (Carries c answers frames fallthrough (some merge) p.written b.stmts p₁.written))
    (helse : Jumpless p₁ p'
      (Carries c answers frames taken (some merge) p₁.written e.stmts p'.written))
    (happend : m.scope.append (.ifElse (askedTest g r false) b (some e)) = .ok s)
    (htaken : taken ∈ c.graph.successors n) (hfall : fallthrough ∈ c.graph.successors n)
    (hst : m.stack = []) :
    ForksOnward c answers frames n stop g (fun v => if r.holds v 0 then taken else fallthrough)
      m.scope.stmts p (some merge, { m with scope := s }) p' := by
  refine ⟨hst, hbody.andThen helse fun hcarries hcarries' =>
    ⟨_, Scope.stmts_of_append happend, ?_⟩⟩
  have hmerge := Context.postDominator_of_meeting hmeet
  exact Forks.conditional .fallthrough hfall htaken hmerge hcarries hcarries' hbody.written
    helse.written

/-- A `do` loop follows the graph from its header on: its latch asks the test of the loop. -/
theorem Context.begins_of_latch {l : Loop} {latch outside : Nat} {test : Branch} {onTaken : Bool}
    {b : Block} {cond : Cond} {before body : Scope} {m₁ : Simulation} (hc : c.graph.Traced)
    (hl : c.graph.loopAt? n = some l) (hheader : frames.isHeader n = false) (hst : m.stack = [])
    (htest : c.latchTest? l = some (latch, test, outside, onTaken))
    (hbefore : Jumpless p p' ((latch = n ∧ before.stmts = []) ∨ (latch ≠ n ∧
      Carries c answers (.loop n latch l.body (some outside) :: frames) n (some latch) p.written
        before.stmts p'.written)))
    (hb : c.graph.block? latch = some b)
    (hrun : Simulation.run c.config (.start before) b.insns = .ok m₁)
    (hcond : branchCondition test m₁.stack = .ok (cond, [])) (hlock : m₁.scope.lock = .ok body)
    (happend : m.scope.append (.doWhile (if onTaken then cond else cond.negate) body) = .ok s)
    (hfresh : n ∉ p.written) (hinner : frames.isOuterTarget n = false) :
    BeginsOnward c answers frames n stop m.scope.stmts p (some outside, { m with scope := s })
      { p' with written := [n, latch] ++ p'.written } := by
  obtain ⟨hlatches, hcut, b', taken, fallthrough, hb', hexit, hchosen⟩ := latchTest_inv htest
  cases hb.symm.trans hb'
  have hout := Loop.not_mem_body hcut
  have htraced := hc.block hb
  -- the latch ends with a test, so it asks one
  cases htraced with
  | goto _ | switch _ _ _ => cases hexit
  | @leave _ exit _ hleave =>
    obtain rfl : exit = .branch test taken fallthrough := hexit
    cases hleave
  | @branch f g r taken' fallthrough' hf hg =>
    cases hexit
    obtain ⟨hstmts, hstack⟩ := Simulation.run_marker_test hf hg hrun
    have hpop : branchCondition (.zero r) m₁.stack = .ok (zeroTest (.staticCall g []) r, []) := by
      rw [hstack]
      rfl
    cases hpop.symm.trans hcond
    refine ⟨hst, fun _ hk => List.mem_append_right _ (hbefore.written hk), fun hp => ?_⟩
    obtain ⟨htargets, hcode⟩ := hbefore.holds hp
    obtain rfl := c.graph.header_of_loopAt hl
    refine ⟨htargets, _, Scope.stmts_of_append happend, ?_⟩
    exact Begins.doWhile hc hf hg hl hlatches hb hchosen hout hfresh hinner hheader hcode
      ((Scope.stmts_of_lock hlock).trans hstmts) hbefore.written (List.subset_append_right _ _)
      (by simp)

end Constructs

/-! ### The walk -/

/-- Where the terminator of a traced block leads with the answer to its test. -/
inductive Decides : Terminator → (Int → Nat) → Prop
  | branch {r : Relation} {taken fallthrough : Nat} :
      Decides (.branch (.zero r) taken fallthrough) fun v =>
        if r.holds v 0 then taken else fallthrough
  | switch {cases : List (Int × Nat)} {default : Nat} (hkeys : (cases.map (·.1)).Nodup) :
      Decides (.switch cases default) (switchTarget cases default)

/-- A piece of the walk over traced blocks follows the graph: a region from its first block on, and
    what is behind a test from where the answer leads. -/
def Piece.Follows (c : Context) (answers : Answers) (p p' : Progress) : Piece → Prop
  | .region frames n stop m m' => m.stack = [] → m'.stack = [] ∧
    Adds (fun us => Carries c answers frames n stop p.written us p'.written) m.scope.stmts p
      m'.scope.stmts p'
  | .onward frames stop r m' => ∀ n ss p₀, BeginsOnward c answers frames n stop ss p₀ r p →
    m'.stack = [] ∧ Adds (fun us => Begins c answers frames n stop p₀.written us stop p'.written)
      ss p₀ m'.scope.stmts p'
  | .entered frames n stop m r => n ∉ p.written → frames.isOuterTarget n = false → m.stack = [] →
    BeginsOnward c answers frames n stop m.scope.stmts p r p'
  | .block frames n stop m r => m.stack = [] →
    BeginsOnward c answers frames n stop m.scope.stmts p r p'
  | .exit frames n stop t m r => ∀ g target, Decides t target →
    m.stack = [.value (.staticCall g [])] → (∀ k ∈ t.successors, k ∈ c.graph.successors n) →
      ForksOnward c answers frames n stop g target m.scope.stmts p r p'
  | .branch frames n stop t _ m r | .plain frames n stop t m r =>
    ∀ g rel taken fallthrough, t = asked g rel taken fallthrough → m.stack = [] →
      taken ∈ c.graph.successors n → fallthrough ∈ c.graph.successors n →
        ForksOnward c answers frames n stop g
          (fun v => if rel.holds v 0 then taken else fallthrough) m.scope.stmts p r p'
  | .inner frames n stop s s' => s.stmts = [] →
    Jumpless p p' (Carries c answers frames n stop p.written s'.stmts p'.written)
  | .arm frames n stop _ b =>
    Jumpless p p' (Carries c answers frames n stop p.written b.stmts p'.written)
  | .before frames header latch s s' => s.stmts = [] →
    Jumpless p p' ((latch = header ∧ s'.stmts = []) ∨ (latch ≠ header ∧
      Carries c answers frames header (some latch) p.written s'.stmts p'.written))
  | .switchArm frames follow next _ n breaks b => Jumpless p p'
    ((follow = some n ∧ b.stmts = [] ∧ breaks = true) ∨
      ∃ bs, Carries c answers frames n next p.written bs p'.written ∧
        Closes next follow bs b.stmts breaks)
  | .arms frames follow _ es code => frames.follow? = follow →
    Jumpless p p' (CarriesArms c answers frames follow p.written es code p'.written)

namespace Context

variable {c : Context} {labels : List Nat} {p p' : Progress}

/-- Every piece of the walk over traced blocks follows the graph. By induction on how it comes
    about: there are neither conditional values nor loops that test first. -/
theorem Derives.follows (hc : c.graph.Traced) (answers : Answers) {piece : Piece}
    (h : c.Derives labels piece p p') : piece.Follows c answers p p' := by
  induction h with
  | stop hjump =>
    refine fun hst => ⟨hst, .refl ⟨[], (List.append_nil _).symm, ?_⟩⟩
    exact carries_of_jump (by simp [hjump]) fun Z i k hz hr hk =>
      hk.onward _ ((c.jump_inv _ _).1 hjump) hz hr
  | nextRound hjump happend =>
    refine fun hst => ⟨hst, .refl ⟨_, Scope.stmts_of_append happend, ?_⟩⟩
    exact carries_of_jump (by simp [hjump]) fun Z i k hz hr hk =>
      hk.nextRound _ ((c.jump_inv _ _).2.1 hjump)
  | leave hjump happend =>
    refine fun hst => ⟨hst, .refl ⟨_, Scope.stmts_of_append happend, ?_⟩⟩
    exact carries_of_jump (by simp [hjump]) fun Z i k hz hr hk =>
      hk.leave _ ((c.jump_inv _ _).2.2 hjump) hz hr
  | goto _ _ _ _ => exact fun hst => ⟨hst, jumpless_of_target⟩
  | enter hjump hlabel _ _ ihcode ihrest =>
    intro hst
    obtain ⟨_, _, _, hinner, _, hfresh⟩ := jump_eq_enter.1 hjump
    -- a label in front is not among the written blocks
    have hbegins := ihcode (by cases hlabel <;> exact hfresh) hinner (by cases hlabel <;> exact hst)
    obtain ⟨hst', hcode⟩ := ihrest _ _ _ hbegins
    refine ⟨hst', (Jumpless.labelled hlabel hcode).imp ?_⟩
    rintro ⟨us, hus, hbegins⟩
    exact ⟨us, hus, hbegins.carries hjump⟩
  | done =>
    rintro n ss p₀ ⟨hst, hcode⟩
    refine ⟨hst, hcode.imp ?_⟩
    rintro ⟨us, hus, hbegins⟩
    exact ⟨us, hus, hbegins.ends⟩
  | next _ ih =>
    intro n ss p₀ hbegins
    obtain ⟨hst, hrest⟩ := ih hbegins.1
    exact ⟨hst, hbegins.goOn hrest⟩
  | here _ _ ih => exact fun _ _ hst => ih hst
  | whileLoop _ _ _ _ htest _ _ _ _ => exact nomatch (loopTest_traced hc _ _).symm.trans htest
  | doLoop _ hl hframes hempty _ _ htest _ hb hrun hcond hlock happend ih =>
    intro hfresh hinner hst
    obtain rfl := c.graph.header_of_loopAt hl
    exact begins_of_latch hc hl hframes hempty htest (ih rfl) hb hrun hcond hlock happend hfresh
      hinner
  | @endless frames n stop l dropped body s r m m₁ p p₁ p' hl hframes hempty _ _ _ _ _ hdrop hlock
      happend ihblock ihrest =>
    intro _ _ hst
    obtain rfl := c.graph.header_of_loopAt hl
    obtain ⟨-, hbody⟩ := ihrest _ _ _ (ihblock rfl)
    refine ⟨hst, hbody.imp ?_⟩
    rintro ⟨us, hus, hbegins⟩
    refine ⟨_, Scope.stmts_of_append happend, Begins.endless hl hframes (fun k hk => ?_) hbegins ?_⟩
    · obtain ⟨_, _, _, hout⟩ := exists_of_exitTarget hl (mem_of_loopFollow hk)
      exact hout
    · have hus : m₁.scope.stmts = us := hus
      rw [← hus, Scope.stmts_of_lock hlock]
      exact dropContinue_trimmed hdrop
  | @block frames n stop b m m₁ r p p' hb hrun hexit ih =>
    intro hst
    have hsucc : ∀ k ∈ b.exit.successors, k ∈ c.graph.successors n := fun k hk =>
      (FlowGraph.mem_successors_of_block hb).2 hk
    have hmem : n ∈ n :: p.written := List.mem_cons_self ..
    have hsub : p.written ⊆ n :: p.written := List.subset_cons_self ..
    have htraced := hc.block hb
    cases htraced with
    | goto hf =>
      obtain ⟨hstmts, hstack⟩ := Simulation.run_marker hf hrun
      cases hexit with
      | exitGoto =>
        refine ⟨hstack.trans hst, hsub, fun hp => ⟨hp, _, hstmts, ?_⟩⟩
        exact Begins.goto hc hf hb hmem hsub
    | leave hf hleave =>
      obtain ⟨hstmts, hstack⟩ := Simulation.run_marker hf hrun
      rw [hst] at hstack
      cases hexit with
      | exitGoto | exitBranch _ _ _ => cases hleave
      | exitSwitch _ _ _ _ => simp [Terminator.successors] at hleave
      | exitValue hpop _ | exitThrow hpop _ =>
        -- there is no value to leave with
        rw [hstack] at hpop
        cases hpop
      | exitRet happend =>
        refine ⟨hstack, hsub, fun hp => ⟨hp, _, ?_, Begins.leave hc hf hb rfl⟩⟩
        show _ = m.scope.stmts ++ _
        rw [Scope.stmts_of_append happend, hstmts, List.append_assoc]
        rfl
    | @branch f g rel taken fallthrough hf hg =>
      obtain ⟨hstmts, hstack⟩ := Simulation.run_marker_test hf hg hrun
      refine (ih g _ .branch (hst ▸ hstack) hsucc).begins hc hb ?_ hstmts
      refine (Block.run_branch hf hg rel taken fallthrough).trans ?_
      simp only [apply_ite (c.graph.behaviour answers)]
    | @switch f g cases default hf hg hkeys =>
      obtain ⟨hstmts, hstack⟩ := Simulation.run_marker_test hf hg hrun
      exact (ih g _ (.switch hkeys) (hst ▸ hstack) hsucc).begins hc hb
        (Block.run_switch hf hg cases default) hstmts
  | exitGoto | exitRet _ | exitValue _ _ | exitThrow _ _ =>
    intro g target hdecides
    cases hdecides
  | @exitBranch frames n taken fallthrough stop test cond st t chain m r p p' hcond hfold _ ih =>
    intro g target hdecides hst hsucc
    cases hdecides with
    | @branch rel _ _ =>
      have hpop : branchCondition (.zero rel) m.stack
          = .ok (zeroTest (.staticCall g []) rel, []) := by
        rw [hst]
        rfl
      cases hpop.symm.trans hcond
      cases (fold_traced hc _ _ _).symm.trans hfold
      obtain ⟨hst', hcode⟩ := ih g rel taken fallthrough rfl rfl
        (hsucc taken (Terminator.mem_successors_branch.2 (.inl rfl)))
        (hsucc fallthrough (Terminator.mem_successors_branch.2 (.inr rfl)))
      refine ⟨hst', (Jumpless.marked [n] hcode).imp ?_⟩
      rintro ⟨us, hus, hforks⟩
      exact ⟨us, hus, hforks.mono (List.subset_append_right _ _)⟩
  | @exitSwitch frames n default stop own cases key arms m s p p' hpop hown _ happend ih =>
    intro g target hdecides hst hsucc
    cases hdecides with
    | switch hkeys =>
      have htop : m.stack.pop = .ok (.staticCall g [], []) := by
        rw [hst]
        rfl
      cases htop.symm.trans hpop
      refine ⟨rfl, (ih rfl).imp fun harms => ⟨_, Scope.stmts_of_append happend, ?_⟩⟩
      refine Forks.switch hkeys (fun k hk => hsucc k ?_) rfl (fun k hk => ?_) harms (ih rfl).written
      · exact Terminator.mem_successors_switch.2 hk
      · rw [hown] at hk
        exact (Option.filter_eq_some_iff.1 hk).1
  | collapsedValue _ hform | collapsedStmt _ hform _ => exact absurd hform (ternary_traced hc)
  | plain _ _ _ ih => exact ih
  | oneArm _ hside _ happend ih =>
    rintro g rel taken fallthrough rfl hst htaken hfall
    exact hside.forks ih happend htaken hfall hst
  | twoArms hmeet _ _ _ _ _ happend iharm ihelse =>
    rintro g rel taken fallthrough rfl hst htaken hfall
    exact forks_of_twoArms hmeet iharm ihelse happend htaken hfall hst
  | jump _ _ _ _ => exact fun _ _ _ _ _ hst _ _ => ⟨hst, jumpless_of_target⟩
  | @inner frames n stop s m p p' _ _ ih =>
    intro hs
    refine (ih rfl).2.imp ?_
    rintro ⟨us, hus, hcarries⟩
    have hus : m.scope.stmts = s.stmts ++ us := hus
    rw [hus, hs]
    exact hcarries
  | arm _ hlock ih =>
    show Jumpless _ _ (Carries _ _ _ _ _ _ _ _)
    rw [Scope.stmts_of_lock hlock]
    exact ih rfl
  | latchOnly hlatch => exact fun hs => .refl (.inl ⟨hlatch, hs⟩)
  | before hlatch _ ih => exact fun hs => (ih hs).imp fun hcarries => .inr ⟨hlatch, hcarries⟩
  | armEmpty hfollow hlock => exact .refl (.inl ⟨hfollow, Scope.stmts_of_lock hlock, rfl⟩)
  | armCode _ _ hclose hlock ih =>
    refine (ih rfl).imp fun hcarries => .inr ⟨_, hcarries, ?_⟩
    rw [Scope.stmts_of_lock hlock]
    exact closes_of_closeArm hclose
  | armsNil => exact fun _ => .refl carriesArms_nil
  | armsCons _ _ iharm ihrest =>
    intro hfollow
    have hrest := ihrest hfollow
    exact iharm.andThen hrest fun harm harms =>
      CarriesArms.cons hfollow harm harms iharm.written hrest.written

end Context

end Restructure
