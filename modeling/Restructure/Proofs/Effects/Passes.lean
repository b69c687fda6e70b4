import Restructure.Proofs.Effects.Order

namespace Restructure

/-!
# Passes — runs of blocks and what stands for them

The tests that are folded into a condition and the arms of a branch are blocks that control passes
one after the other. Where each of them keeps the order of its effects, the condition, the value or
the statement that stands for them makes the effects of the run.

* `branchCondition_perform`, `BranchTest.Joins.perform` — the condition of a branch, and that of a
  longer test.
* `Context.Passes` — the run of blocks, with its effects.
* `Context.passes_fold` — the run of a chain of tests.
* `Context.passes_of_built`, `Context.passes_of_shaped` — the runs of arms.
-/

/-! ### Tests behind their operands -/

section Settle

variable {σ : Type} (I : Interpretation σ)

/-- Asks the test of a branch, its operands having been evaluated. A branch has no other conditions
    than comparisons and tests of a truth value. -/
def Cond.settle : Cond → Course σ Bool
  | .test e inverse => do
    let holds ← Course.ask (I.truth e)
    return holds != inverse
  | .compare l r e => Course.ask (I.relation l r e)
  | .not _ | .and _ | .or _ => pure true

/-- Settling a condition makes no effects. -/
theorem Cond.effects_settle (c : Cond) (s : σ) : (c.settle I s).effects = [] := by
  cases c <;> simp [Cond.settle]

/-- Evaluating a value and then settling its test performs the test. -/
theorem zeroTest_perform (value : Expr) (r : Relation) :
    (do
      value.perform I
      (zeroTest value r).settle I) = (zeroTest value r).perform I := by
  have hcompare : (do
      value.perform I
      (Cond.compare value r (.int 0)).settle I)
        = (Cond.compare value r (.int 0)).perform I := by
    simp only [Cond.settle, Cond.perform, Expr.int, Expr.perform, pure_bind]
  unfold zeroTest
  split
  · simp only [Cond.settle, Cond.perform, Expr.perform, bind_assoc]
  · split
    · rw [Cond.settle, Cond.perform]
    · split
      · rw [Cond.settle, Cond.perform]
      · exact hcompare

/-- The condition of a branch evaluates the operands that it took from the stack. -/
theorem branchCondition_perform {test : Branch} {st st' : Operands} {cond : Cond}
    (h : branchCondition test st = .ok (cond, st')) :
    (do
      st.perform I
      cond.settle I) = (do
      st'.perform I
      cond.perform I) := by
  cases test with
  | zero r =>
    obtain ⟨⟨e, st₁⟩, he, h⟩ := Except.bind_eq_ok.1 h
    cases h
    rw [Simulation.pop_ok he, Operands.perform, bind_assoc, Operand.perform, zeroTest_perform]
  | values r =>
    obtain ⟨⟨right, st₁⟩, hright, h⟩ := Except.bind_eq_ok.1 h
    obtain ⟨⟨left, st₂⟩, hleft, h⟩ := Except.bind_eq_ok.1 h
    cases h
    rw [Simulation.pop_ok hright, Simulation.pop_ok hleft]
    simp only [Operands.perform, Operand.perform, bind_assoc, Cond.settle, Cond.perform]
  | isNull | isNotNull =>
    obtain ⟨⟨e, st₁⟩, he, h⟩ := Except.bind_eq_ok.1 h
    cases h
    rw [Simulation.pop_ok he]
    simp only [Operands.perform, Operand.perform, bind_assoc, Cond.settle, Cond.perform,
      Expr.perform, pure_bind]

end Settle

/-! ### Tests -/

section Tests

variable {σ : Type} {I : Interpretation σ} {c : Context} {scope : Scope} {n : Nat} {b : Bool}
  {t head next longer : BranchTest}

/-- Evaluates the condition; the block that control goes to. -/
def BranchTest.perform (I : Interpretation σ) (t : BranchTest) : Course σ Nat := do
  let holds ← t.cond.perform I
  return t.target holds

/-- Performing a test leads where it arrives. -/
theorem BranchTest.perform_eq_arrival (t : BranchTest) (s : σ × List Effect) :
    (t.perform I).logged s = ((t.arrival I.logged s).block, (t.arrival I.logged s).state) := by
  rw [perform, Course.logged_bind, Cond.perform_eq_eval]
  simp [Course.logged, arrival]

/-- A longer test does what the first one does, and then what the next one does if the first one
    leads there. -/
theorem BranchTest.Joins.perform (h : Joins head next b longer) :
    longer.perform I = (do
      let holds ← head.cond.perform I
      if holds = b then next.perform I else return head.target holds) := by
  refine Course.eq_of_logged fun s => ?_
  rw [perform_eq_arrival, h.arrival, Course.logged_bind, Cond.perform_eq_eval]
  simp only
  split
  · rw [perform_eq_arrival]
    rfl
  · simp [Course.logged, BranchTest.arrival]

/-- A conditional expression evaluates its condition and then the value that this chooses. -/
theorem BranchTest.choose_perform (t : BranchTest) (atFallthrough atTaken : Expr) :
    (t.choose atFallthrough atTaken).perform I = (do
      let holds ← t.cond.perform I
      if holds then atTaken.perform I else atFallthrough.perform I) := by
  rw [choose, Expr.perform, Cond.perform_negate, bind_assoc]
  refine bind_congr fun holds => ?_
  cases holds <;> rfl

/-- What a pure test has found. -/
theorem Context.pureTest_inv (h : c.pureTest n scope = some t) :
    ∃ b m test, c.graph.block? n = some b ∧ b.exit = .branch test t.taken t.fallthrough ∧
      c.scratch? n scope = some m ∧ m.scope.stmts = [] ∧
      branchCondition test m.stack = .ok (t.cond, []) := by
  obtain ⟨b, hb, h⟩ := Option.bind_eq_some_iff.1 h
  split at h
  · rename_i test taken fallthrough hexit
    obtain ⟨m, hm, h⟩ := Option.bind_eq_some_iff.1 h
    split at h
    · rename_i hpure
      obtain ⟨hempty, hlength⟩ := Bool.and_eq_true_iff.1 hpure
      obtain ⟨⟨cond, st⟩, hcond, h⟩ := Option.bind_eq_some_iff.1 h
      cases h
      have hcond := Except.eq_ok_of_toOption hcond
      have hst : st = [] := by
        obtain ⟨es, hes, hstack⟩ := stack_of_branchCondition hcond
        have hpops : m.stack.length = test.pops := by simpa using hlength
        rw [hstack, List.length_append, List.length_map] at hpops
        exact List.length_eq_zero_iff.1 (by omega)
      exact ⟨b, m, test, hb, hexit, hm, List.isEmpty_iff.1 hempty, hst ▸ hcond⟩
    · cases h
  · cases h

/-- A pure test makes the effects of its block, and then asks. -/
theorem Context.pureTest_perform (h : c.pureTest n scope = some t) (horder : c.InOrder scope n)
    {b : Block} (hb : c.graph.block? n = some b) (I : Interpretation σ) :
    t.cond.perform I = (do
      Course.emit (Insn.allEffects b.insns)
      t.cond.settle I) := by
  obtain ⟨b', m, test, hb', _, hm, hstmts, hcond⟩ := pureTest_inv h
  obtain rfl : b = b' := Option.some.inj (hb.symm.trans hb')
  have hcourse := horder.course hb hm I
  rw [hstmts, Stmt.performAll, pure_bind] at hcourse
  rw [← hcourse, branchCondition_perform I hcond, Operands.perform, pure_bind]

end Tests

/-! ### Runs of blocks -/

/-- From block `n` on, blocks among the given ones run one after the other and make the given
    effects, until control is in front of another block or has left the method with a value. A test
    has the outcome that its condition has behind the instructions of the block. -/
inductive Context.Passes {σ : Type} (c : Context) (scope : Scope) (I : Interpretation σ)
    (blocks : List Nat) : Nat → σ → List Effect → Option Nat → σ → Prop
  | arrive {n : Nat} {s : σ} : Passes c scope I blocks n s [] (some n) s
  | goto {n t : Nat} {s s' : σ} {es : List Effect} {k : Option Nat} {b : Block} (hn : n ∈ blocks)
      (hb : c.graph.block? n = some b) (hexit : b.exit = .goto t)
      (rest : Passes c scope I blocks t s es k s') :
      Passes c scope I blocks n s (Insn.allEffects b.insns ++ es) k s'
  | branch {n : Nat} {s s' : σ} {es : List Effect} {k : Option Nat} {b : Block} {t : BranchTest}
      (hn : n ∈ blocks) (hb : c.graph.block? n = some b) (ht : c.pureTest n scope = some t)
      (rest : Passes c scope I blocks (t.target (t.cond.settle I s).result)
        (t.cond.settle I s).state es k s') :
      Passes c scope I blocks n s (Insn.allEffects b.insns ++ es) k s'
  | ret {n : Nat} {s : σ} {b : Block} (hn : n ∈ blocks) (hb : c.graph.block? n = some b)
      (hexit : b.exit = .retValue) :
      Passes c scope I blocks n s (Insn.allEffects b.insns) none s

namespace Context

variable {σ : Type} {I : Interpretation σ} {c : Context} {scope : Scope} {p : Position}
  {eligible : Nat → Bool} {head test : BranchTest} {chain blocks blocks' : List Nat} {n m : Nat}
  {s s' s'' : σ} {es fs : List Effect} {k : Option Nat}

/-- Control passes through one row of blocks behind another one. -/
theorem Passes.trans (h : c.Passes scope I blocks n s es (some m) s')
    (h' : c.Passes scope I blocks m s' fs k s'') :
    c.Passes scope I blocks n s (es ++ fs) k s'' := by
  generalize hm : some m = k' at h
  induction h with
  | arrive =>
    cases hm
    exact h'
  | goto hn hb hexit _ ih =>
    rw [List.append_assoc]
    exact .goto hn hb hexit (ih h' hm)
  | branch hn hb ht _ ih =>
    rw [List.append_assoc]
    exact .branch hn hb ht (ih h' hm)
  | ret => cases hm

/-- There is one run to a block that is not among those passed, and one that leaves the method. -/
theorem Passes.unique (hk : ∀ m, k = some m → m ∉ blocks) (h : c.Passes scope I blocks n s es k s')
    (h' : c.Passes scope I blocks n s fs k s'') : es = fs ∧ s' = s'' := by
  -- both runs are at the same block, so they read the same terminator; a run that has arrived goes
  -- no further, as its end is not among the blocks
  induction h generalizing fs with
  | arrive =>
    cases h' with
    | arrive => exact ⟨rfl, rfl⟩
    | goto hn | branch hn => exact absurd hn (hk _ rfl)
  | goto hn hb hexit _ ih =>
    cases h' with
    | arrive => exact absurd hn (hk _ rfl)
    | goto _ hb' hexit' rest =>
      cases hb.symm.trans hb'
      cases hexit.symm.trans hexit'
      obtain ⟨rfl, rfl⟩ := ih hk rest
      exact ⟨rfl, rfl⟩
    | branch _ hb' ht =>
      obtain ⟨_, _, _, hb'', hexit', _⟩ := pureTest_inv ht
      cases hb.symm.trans hb''
      cases hexit.symm.trans hexit'
    | ret _ hb' hexit' =>
      cases hb.symm.trans hb'
      cases hexit.symm.trans hexit'
  | branch hn hb ht _ ih =>
    obtain ⟨_, _, _, hb₁, hexit₁, _⟩ := pureTest_inv ht
    cases hb.symm.trans hb₁
    cases h' with
    | arrive => exact absurd hn (hk _ rfl)
    | branch _ hb' ht' rest =>
      cases hb.symm.trans hb'
      cases ht.symm.trans ht'
      obtain ⟨rfl, rfl⟩ := ih hk rest
      exact ⟨rfl, rfl⟩
    | goto _ hb' hexit' | ret _ hb' hexit' =>
      cases hb.symm.trans hb'
      cases hexit₁.symm.trans hexit'
  | ret hn hb hexit =>
    cases h' with
    | ret _ hb' _ =>
      cases hb.symm.trans hb'
      exact ⟨rfl, rfl⟩
    | goto _ hb' hexit' =>
      cases hb.symm.trans hb'
      cases hexit.symm.trans hexit'
    | branch _ _ ht =>
      obtain ⟨_, _, _, hb', hexit', _⟩ := pureTest_inv ht
      cases hb.symm.trans hb'
      cases hexit.symm.trans hexit'

/-- Behind the first block of a folded chain, the other blocks do what the rest of its condition
    does. -/
theorem passes_fold (hfold : head.fold c scope eligible n = (test, chain))
    (horder : ∀ k ∈ chain, k ≠ n → k ∈ blocks ∧ c.InOrder scope k) (I : Interpretation σ) (s : σ) :
    ∃ es, (test.perform I s).effects = (head.perform I s).effects ++ es ∧
      c.Passes scope I blocks (head.perform I s).result (head.perform I s).state es
        (some (test.perform I s).result) (test.perform I s).state := by
  refine (BranchTest.fold_induction (motive := fun test chain => n ∈ chain ∧
    ((∀ k ∈ chain, k ≠ n → k ∈ blocks ∧ c.InOrder scope k) → ∃ es,
      (test.perform I s).effects = (head.perform I s).effects ++ es ∧
      c.Passes scope I blocks (head.perform I s).result (head.perform I s).state es
        (some (test.perform I s).result) (test.perform I s).state)) hfold ?_ ?_).2 horder
  · exact ⟨List.mem_singleton_self n, fun _ => ⟨[], (List.append_nil _).symm, .arrive⟩⟩
  · intro first longer chain k ⟨hn, ih⟩ hext
    obtain ⟨next, b, hk, hnext, hb, hj⟩ := BranchTest.extension_inv hext
    have hkn : k ≠ n := fun heq => Chained.not_mem_of_joinable hk (heq ▸ hn)
    refine ⟨List.mem_append_left _ hn, fun horder => ?_⟩
    obtain ⟨es, hes, hpasses⟩ := ih fun j hj hne => horder j (List.mem_append_left _ hj) hne
    obtain ⟨hmem, hlast⟩ := horder k (List.mem_append_right _ (List.mem_singleton_self k)) hkn
    have hfirst : first.perform I s = ⟨first.target (first.cond.perform I s).result,
        (first.cond.perform I s).effects, (first.cond.perform I s).state⟩ := by
      simp [BranchTest.perform]
    rw [hj.perform, Course.bind_apply]
    split
    -- control comes to the block that joins
    · rename_i hholds
      obtain ⟨block, _, _, hblock, _, _, _, _⟩ := pureTest_inv hnext
      have hstep := pureTest_perform hnext hlast hblock I
      rw [hfirst, hholds, hb] at hpasses
      have hnextcourse : next.perform I (first.cond.perform I s).state
          = ⟨next.target (next.cond.settle I (first.cond.perform I s).state).result,
            Insn.allEffects block.insns,
            (next.cond.settle I (first.cond.perform I s).state).state⟩ := by
        simp [BranchTest.perform, hstep, Cond.effects_settle]
      rw [hnextcourse]
      refine ⟨es ++ Insn.allEffects block.insns, ?_, ?_⟩
      · simp only [← List.append_assoc, ← hes, hfirst]
      · refine hpasses.trans ?_
        rw [← List.append_nil (Insn.allEffects block.insns)]
        exact .branch hmem hblock hnext .arrive
    · simp only [Course.pure_apply, List.append_nil]
      rw [hfirst] at hpasses hes
      exact ⟨es, hes, hpasses⟩

/-- Behind the first block of a folded chain, the other blocks and the arm that is chosen do what
    the rest of the condition and what stands for the arm do. -/
theorem passes_chosen (hfold : head.fold c scope eligible n = (test, chain))
    (horder : ∀ k ∈ chain, k ≠ n → k ∈ blocks ∧ c.InOrder scope k)
    {atTaken atFallthrough : Course σ Unit}
    (htaken : ∀ s, c.Passes scope I blocks test.taken s (atTaken s).effects k (atTaken s).state)
    (hfall : ∀ s, c.Passes scope I blocks test.fallthrough s (atFallthrough s).effects k
      (atFallthrough s).state)
    {x : Course σ Unit} (hx : x = (do
      let holds ← test.cond.perform I
      if holds then atTaken else atFallthrough)) (s : σ) :
    ∃ es, (x s).effects = (head.perform I s).effects ++ es ∧
      c.Passes scope I blocks (head.perform I s).result (head.perform I s).state es k
        (x s).state := by
  obtain ⟨es, hes, hchain⟩ := passes_fold hfold horder I s
  have htest : test.perform I s = ⟨test.target (test.cond.perform I s).result,
      (test.cond.perform I s).effects, (test.cond.perform I s).state⟩ := by
    simp [BranchTest.perform]
  rw [htest] at hes hchain
  rw [hx, Course.bind_apply]
  cases hholds : (test.cond.perform I s).result
  · rw [hholds] at hchain
    refine ⟨es ++ (atFallthrough (test.cond.perform I s).state).effects, ?_,
      hchain.trans (hfall _)⟩
    rw [hes, List.append_assoc]
    rfl
  · rw [hholds] at hchain
    refine ⟨es ++ (atTaken (test.cond.perform I s).state).effects, ?_, hchain.trans (htaken _)⟩
    rw [hes, List.append_assoc]
    rfl

/-- An arm that only computes a value does what evaluating the value does. -/
theorem passes_of_built {arm : ValueArm} (h : arm.Built c p scope n)
    (horder : ∀ k ∈ arm.blocks, c.InOrder scope k) (hsub : arm.blocks ⊆ blocks)
    (I : Interpretation σ) (s : σ) :
    c.Passes scope I blocks n s (arm.value.perform I s).effects (some arm.merge)
      (arm.value.perform I s).state := by
  induction h generalizing s with
  | @leaf n merge b m e he hb hexit hm hempty hstack =>
    have hcourse := (horder n (List.mem_singleton_self n)).course hb hm I
    have hstmts : m.scope.stmts = [] := List.isEmpty_iff.1 hempty
    rw [hstmts, hstack, Stmt.performAll] at hcourse
    simp only [Operands.perform, Operand.perform, pure_bind] at hcourse
    rw [hcourse, Course.emit_apply, ← List.append_nil (Insn.allEffects b.insns)]
    exact .goto (hsub (List.mem_singleton_self n)) hb hexit .arrive
  | @fork n head test inner taken fall he hhead hfold htaken hfall hmerge iht ihf =>
    simp only [List.append_subset, List.forall_mem_append] at hsub horder
    obtain ⟨⟨hsubTaken, hsubFall⟩, hsubInner⟩ := hsub
    obtain ⟨⟨horderTaken, horderFall⟩, horderInner⟩ := horder
    have hn : n ∈ inner :=
      (BranchTest.fold_chained hfold fun m => mem_successors_of_pureTest hhead).first_mem
    obtain ⟨es, hes, hpasses⟩ := passes_chosen hfold
      (fun k hk _ => ⟨hsubInner hk, horderInner k hk⟩)
      (iht horderTaken hsubTaken) (fun s => hmerge ▸ ihf horderFall hsubFall s)
      (test.choose_perform fall.value taken.value) s
    -- the first test is the block itself
    obtain ⟨b, _, _, hb, _, _, _, _⟩ := pureTest_inv hhead
    have hfirst := pureTest_perform hhead (horderInner n hn) hb I
    have hperform : head.perform I s = ⟨head.target (head.cond.settle I s).result,
        Insn.allEffects b.insns, (head.cond.settle I s).state⟩ := by
      simp [BranchTest.perform, hfirst, Cond.effects_settle]
    rw [hperform] at hes hpasses
    rw [hes]
    exact .branch (hsubInner hn) hb hhead hpasses

/-! ### Arms that are one statement -/

/-- A block simulated on its own leaves no statement with a condition in it. -/
theorem scratch_asks_nothing {b : Block} {m : Simulation} (hb : c.graph.block? n = some b)
    (hm : c.scratch? n scope = some m) {stmt : Stmt} (hstmt : stmt ∈ m.scope.stmts) :
    stmt.Avoids Node.Asks := by
  have hgrown := Simulation.run_grown foreign_asks Operands.avoids_nil
    (fun _ _ _ _ _ _ ⟨_, h⟩ => by cases h) (scratch_run hb hm)
  exact hgrown.stmts.avoids (fun _ h => absurd h List.not_mem_nil) stmt hstmt

end Context

/-- The statement that an arm is. -/
def ArmShape.stmt : ArmShape → Stmt
  | .assign target value _ => .assign target value
  | .ret value => .ret (some value)

/-- The block behind an arm. -/
def ArmShape.merge? : ArmShape → Option Nat
  | .assign _ _ merge => some merge
  | .ret _ => none

namespace Context

variable {σ : Type} {c : Context} {scope : Scope} {n : Nat} {blocks : List Nat}

/-- An arm that is one statement does what executing the statement does. -/
theorem passes_of_shaped {shape : ArmShape} (h : c.Shaped scope n shape)
    (horder : c.InOrder scope n) (hn : n ∈ blocks) (I : Interpretation σ) (s : σ) :
    c.Passes scope I blocks n s (shape.stmt.perform I s).effects shape.merge?
      (shape.stmt.perform I s).state := by
  cases h with
  | @assign b m target value merge hb hexit hm hstmts hstack =>
    have hcourse := horder.course hb hm I
    rw [hstmts, hstack, Operands.perform, Stmt.performAll, Stmt.performAll] at hcourse
    simp only [bind_pure_unit] at hcourse
    simp only [ArmShape.stmt, ArmShape.merge?]
    rw [hcourse, Course.emit_apply, ← List.append_nil (Insn.allEffects b.insns)]
    exact .goto hn hb hexit .arrive
  | @ret b m value hb hexit hm hstmts hstack =>
    have hcourse := horder.course hb hm I
    rw [hstmts, hstack, Stmt.performAll] at hcourse
    simp only [Operands.perform, Operand.perform, pure_bind] at hcourse
    simp only [ArmShape.stmt, ArmShape.merge?, Stmt.perform]
    rw [hcourse]
    exact .ret hn hb hexit

end Context

end Restructure
