import Restructure.Proofs.Effects.Passes

namespace Restructure

/-!
# Collapsed branches — the order of their effects

A branch that collapses is evaluated as one value or one statement. Its blocks are run one after the
other: the block with the branch, the tests that were folded into its condition, and the blocks of
the arm that is chosen.

* `Collapse` — a branch that collapses, with everything that led to it.
* `Collapse.branch_eq` — the walk writes it as recovered.
* `Collapse.Ran`, `Collapse.recovered` — the run of its blocks, and what stands for them.
* `Collapse.effects_iff` — the effects are in order exactly if those of the destination may come
  before those of the condition.
-/

/-! ### Collapsed branches -/

/-- The destinations are the same, so the values that are evaluated to find them make the same
    effects. -/
theorem Place.perform_of_same {σ : Type} (I : Interpretation σ) {a b : Place}
    (ha : ∀ n ∈ Expr.allNodes a.operands, ¬Node.Asks n) (h : a.same b = true) :
    Expr.performAll I a.operands = Expr.performAll I b.operands := by
  rw [Expr.allAvoid_iff] at ha
  cases a <;> cases b <;> try cases h
  case var.var | static.static => rfl
  case field.field f r g s =>
    have hr := Expr.perform_of_same I r s (ha r (by simp [operands])) (Bool.and_eq_true_iff.1 h).2
    simp only [operands, Expr.performAll, hr]
  case element.element a i b j =>
    have hab := Expr.perform_of_same I a b (ha a (by simp [operands])) (Bool.and_eq_true_iff.1 h).1
    have hij := Expr.perform_of_same I i j (ha i (by simp [operands])) (Bool.and_eq_true_iff.1 h).2
    simp only [operands, Expr.performAll, hab, hij]

/-- A branch becomes a statement only if nothing waits below its condition. -/
theorem Context.stack_of_ternary {c : Context} {p : Position} {m : Simulation} {test : BranchTest}
    {chain blocks : List Nat} {stmt : Stmt} {merge : Option Nat}
    (h : c.ternary? p m test chain = .ok (some (.stmt blocks stmt merge))) : m.stack = [] := by
  unfold ternary? at h
  split at h
  · cases h
  · split at h
    · rename_i v hv
      cases h
      obtain ⟨taken, _, hv⟩ := Option.bind_eq_some_iff.1 hv
      obtain ⟨fall, _, hv⟩ := Option.bind_eq_some_iff.1 hv
      split at hv <;> cases hv
    · split at h
      · rename_i hall
        exact List.isEmpty_iff.1 (Bool.and_eq_true_iff.1 hall).1
      · cases h

/-! ### The block behind a branch -/

namespace Context

variable {c : Context} {p : Position} {scope : Scope} {n : Nat} {chain : List Nat}
  {test : BranchTest} {form : Collapsed}

/-- The block ends in a branch. -/
def Branches (c : Context) (n : Nat) : Prop :=
  ∃ b test taken fallthrough, c.graph.block? n = some b ∧ b.exit = .branch test taken fallthrough

/-- A block whose test is pure ends with a branch. -/
theorem branches_of_pureTest (h : c.pureTest n scope = some test) : c.Branches n := by
  obtain ⟨b, _, test', hb, hexit, _⟩ := pureTest_inv h
  exact ⟨b, test', _, _, hb, hexit⟩

/-- Only branches lead to the blocks of an arm, if the chain in front of it consists of such. -/
theorem branches_of_valueArm {fuel : Nat} {arm : ValueArm} (hchain : ∀ j ∈ chain, c.Branches j)
    (h : c.valueArmWithin? p scope fuel n chain = some arm) :
    ∀ k ∈ arm.blocks, ∀ j ∈ c.graph.predecessors k, c.Branches j := by
  induction fuel generalizing n chain arm with
  | zero => cases h
  | succ fuel ih =>
    rw [valueArmWithin?] at h
    split at h
    · rename_i henter
      have hentry : ∀ j ∈ c.graph.predecessors n, c.Branches j := fun j hj =>
        hchain j (by simpa using List.all_eq_true.1 (Bool.and_eq_true_iff.1 henter).2 j hj)
      obtain ⟨b, hb, h⟩ := Option.bind_eq_some_iff.1 h
      split at h
      · obtain ⟨m, hm, h⟩ := Option.bind_eq_some_iff.1 h
        split at h
        · cases h
          intro k hk
          rw [List.mem_singleton.1 hk]
          exact hentry
        · cases h
      · obtain ⟨head, hhead, h⟩ := Option.bind_eq_some_iff.1 h
        split at h
        rename_i test inner hfold
        obtain ⟨taken, htaken, h⟩ := Option.bind_eq_some_iff.1 h
        obtain ⟨fall, hfall, h⟩ := Option.bind_eq_some_iff.1 h
        split at h
        · cases h
          have hfolded := BranchTest.fold_chained hfold fun m => mem_successors_of_pureTest hhead
          -- every block of a folded chain has been read as a pure test
          have hinner : ∀ j ∈ inner, c.Branches j := by
            intro j hj
            by_cases hjn : j = n
            · exact hjn ▸ branches_of_pureTest hhead
            · obtain ⟨t, ht⟩ := Option.isSome_iff_exists.1 (hfolded.joined j hj hjn).2
              exact branches_of_pureTest ht
          intro k hk j hj
          simp only [List.mem_append] at hk
          rcases hk with (hk | hk) | hk
          · exact ih hinner htaken k hk j hj
          · exact ih hinner hfall k hk j hj
          · by_cases hkn : k = n
            · exact hentry j (hkn ▸ hj)
            · exact hinner j (hfolded.closed k hk hkn j hj)
        · cases h
      · cases h
    · cases h

/-- A statement takes the place of both arms. -/
theorem blocks_of_stmtTernary (h : c.stmtTernary? scope test = .ok (some form)) :
    form.blocks = [test.fallthrough, test.taken] := by
  obtain ⟨fall?, _, h⟩ := Except.bind_eq_ok.1 h
  cases fall? with
  | none => cases h
  | some fall =>
    obtain ⟨taken?, _, h⟩ := Except.bind_eq_ok.1 h
    split at h
    · split at h
      · cases h
        rfl
      · cases h
    · cases h
      rfl
    · cases h

/-- Only branches lead to the blocks of a collapsed branch. -/
theorem branches_of_ternary {m : Simulation} (hchain : ∀ j ∈ chain, c.Branches j)
    (h : c.ternary? p m test chain = .ok (some form)) :
    ∀ k ∈ form.blocks, ∀ j ∈ c.graph.predecessors k, c.Branches j := by
  unfold ternary? at h
  split at h
  · cases h
  · split at h
    · rename_i v hv
      cases h
      obtain ⟨taken, htaken, hv⟩ := Option.bind_eq_some_iff.1 hv
      obtain ⟨fall, hfall, hv⟩ := Option.bind_eq_some_iff.1 hv
      split at hv
      · cases hv
        intro k hk
        rcases List.mem_append.1 hk with hk | hk
        · exact branches_of_valueArm hchain htaken k hk
        · exact branches_of_valueArm hchain hfall k hk
      · cases hv
    · split at h
      · rename_i hall
        have htargets : ∀ k, k = test.fallthrough ∨ k = test.taken →
            ∀ j ∈ c.graph.predecessors k, c.Branches j := by
          intro k hk j hj
          have henter := List.all_eq_true.1 (Bool.and_eq_true_iff.1 hall).2 k (by simpa using hk)
          have honly := (Bool.and_eq_true_iff.1 henter).2
          exact hchain j (by simpa using List.all_eq_true.1 honly j hj)
        intro k hk
        rw [blocks_of_stmtTernary h] at hk
        exact htargets k (List.mem_pair.1 hk)
      · cases h

/-- The last block of an arm goes on to the block behind the arm. -/
theorem exists_goto_of_built {arm : ValueArm} (h : arm.Built c p scope n) :
    ∃ k b, c.graph.block? k = some b ∧ b.exit = .goto arm.merge := by
  induction h with
  | leaf _ hb hexit _ _ _ => exact ⟨_, _, hb, hexit⟩
  | fork _ _ _ _ _ _ iht _ => exact iht

/-- The block behind a collapsed branch is not among its blocks, nor does it belong to the chain
    behind the first block, for a block that is no branch leads to it. -/
theorem exists_goto_of_collapses {m : Nat} (h : c.CollapsesTo p scope test form)
    (hm : form.merge? = some m) : ∃ k b, c.graph.block? k = some b ∧ b.exit = .goto m := by
  cases h with
  | value htaken _ _ =>
    cases hm
    exact exists_goto_of_built htaken
  | assign _ _ hfall _ =>
    cases hm
    cases hfall with
    | assign hb hexit _ _ _ => exact ⟨_, _, hb, hexit⟩
  | ret => cases hm

end Context

/-- The values that a collapsed branch evaluates to find its destination. -/
def Collapsed.destination : Collapsed → List Expr
  | .stmt _ (.assign target _) _ => target.operands
  | _ => []

/-- A branch that collapses: the block that it ends, simulated behind `before` where the blocks
    `written` are written already, the folded test, and the form that it collapses into. -/
structure Collapse where
  context : Context
  frames : Frames
  stop : Option Nat
  written : List Nat
  number : Nat
  block : Block
  before : Simulation
  after : Simulation
  branch : Branch
  taken : Nat
  fallthrough : Nat
  cond : Cond
  waiting : Operands
  test : BranchTest
  chain : List Nat
  form : Collapsed
  enabled : context.config.ternaries = true
  block_eq : context.graph.block? number = some block
  exit_eq : block.exit = .branch branch taken fallthrough
  run_eq : Simulation.run context.config before block.insns = .ok after
  cond_eq : branchCondition branch after.stack = .ok (cond, waiting)
  fold_eq : BranchTest.fold context after.scope
    (fun k => context.entersPlain ⟨frames, written, stop⟩ k && frames.inLoop k)
    ⟨cond, taken, fallthrough⟩ number = (test, chain)
  form_eq : context.ternary? ⟨frames, chain ++ written, stop⟩ { after with stack := waiting } test
    chain = .ok (some form)

/-- The destination of two arms makes the same effects in both of them, and asks nothing. -/
theorem Context.exists_destination {c : Context} {scope : Scope} {n : Nat} {target target' : Place}
    {value : Expr} {merge : Nat} (hsame : target.same target' = true)
    (h : c.Shaped scope n (.assign target value merge)) :
    ∃ es, Expr.AllMake target.operands es ∧ Expr.AllMake target'.operands es := by
  cases h with
  | assign hb hexit hm hstmts hstack =>
    have havoids := scratch_asks_nothing hb hm (hstmts ▸ List.mem_singleton_self _)
    have hoperands := (List.forall_mem_append.1 (havoids.parts rfl)).1
    obtain ⟨es, hes⟩ := Expr.exists_allMake target.operands hoperands
    exact ⟨es, hes, fun I => (Place.perform_of_same I hoperands hsame).symm.trans (hes I)⟩

/-- Effects that both arms begin with may come before the test. The tests stay the same, and so do
    the effects exactly if those of the test may be exchanged with them. -/
theorem Course.emit_before {σ : Type} {es : List Effect} {test : Course σ Bool}
    {onTrue onFalse before after : Course σ Unit}
    (hbefore : before = (do
      emit es
      let holds ← test
      if holds then onTrue else onFalse))
    (hafter : after = (do
      let holds ← test
      if holds then (do
        emit es
        onTrue)
      else (do
        emit es
        onFalse))) (s : σ) :
    (before s).state = (after s).state ∧ ((before s).effects = (after s).effects ↔
      es ++ (test s).effects = (test s).effects ++ es) := by
  rw [hbefore, hafter]
  -- the arms begin with the same effects, so they may be taken out of the choice
  cases hholds : (test s).result
  · simp [hholds, ← List.append_assoc]
  · simp [hholds, ← List.append_assoc]

/-- The first of two passes succeeds. -/
theorem Pass.bind_of_ok {α β : Type} {f : α → Pass β} {y : Pass α} {p q : Progress} {a : α}
    (h : y p = .ok (a, q)) : (y >>= f) p = f a q := by
  show (y p >>= fun r => f r.1 r.2) = _
  rw [h]
  rfl

namespace Collapse

variable {σ : Type} (x : Collapse) (I : Interpretation σ)

/-- The blocks behind the one with the branch: those that were folded into its test, and those of
    the arms. -/
def others : List Nat := x.chain.filter (· ≠ x.number) ++ x.form.blocks

/-- The block with the branch is simulated in order, and so are the others. -/
structure InOrder : Prop where
  branch : Simulation.InOrder x.before x.block.insns x.after
  others : ∀ k ∈ x.others, x.context.InOrder x.after.scope k

/-- The test of the block alone. -/
def head : BranchTest := ⟨x.cond, x.taken, x.fallthrough⟩

/-- The code behind the collapsed branch. -/
def result : Simulation :=
  match x.form with
  | .value _ e _ => { x.after with stack := x.waiting.push e }
  | .stmt _ s _ => ⟨{ x.after.scope with stmts := x.after.scope.stmts ++ [s] }, x.waiting⟩

/-- The collapsed branch is what the walk writes; it goes on with the block behind it. -/
theorem branch_eq (walk : Walk) {progress : Progress} (hwritten : progress.written = x.written)
    (hopen : x.after.scope.locked = false) :
    x.context.branch walk x.frames x.number x.branch x.taken x.fallthrough x.stop x.after progress
      = .ok ((x.form.merge?, x.result),
        { progress with written := x.form.blocks ++ (x.chain ++ x.written) }) := by
  have hcond : Pass.of (branchCondition x.branch x.after.stack) progress
      = .ok ((x.cond, x.waiting), progress) := by
    rw [x.cond_eq]
    rfl
  have hposition : Pass.position x.frames x.stop progress
      = .ok (⟨x.frames, x.written, x.stop⟩, progress) := by
    rw [← hwritten]
    rfl
  have hmark : Pass.markAll x.chain progress
      = .ok ((), { progress with written := x.chain ++ x.written }) := by
    rw [← hwritten]
    rfl
  have hform : Pass.tryIf true
      (Pass.of (x.context.ternary? ⟨x.frames, x.chain ++ x.written, x.stop⟩
        { x.after with stack := x.waiting } x.test x.chain))
      { progress with written := x.chain ++ x.written }
      = .ok (some x.form, { progress with written := x.chain ++ x.written }) := by
    rw [x.form_eq]
    rfl
  have hcollapsed : (Context.collapsed { x.after with stack := x.waiting } x.form)
      { progress with written := x.chain ++ x.written }
      = .ok ((x.form.merge?, x.result),
        { progress with written := x.form.blocks ++ (x.chain ++ x.written) }) := by
    rw [result]
    cases x.form with
    | value blocks e merge => rfl
    | stmt blocks stmt merge =>
      have happend : Scope.append x.after.scope stmt
          = .ok { x.after.scope with stmts := x.after.scope.stmts ++ [stmt] } := by
        rw [Scope.append, Scope.ifOpen, hopen]
        rfl
      -- one equation for each step of the walk, in the order in which it takes them
      simp only [Context.collapsed, Pass.append, Simulation.append, happend]
      rfl
  refine (Pass.bind_of_ok hcond).trans ?_
  refine (Pass.bind_of_ok hposition).trans ?_
  simp only [x.fold_eq]
  refine (Pass.bind_of_ok hmark).trans ?_
  refine (Pass.bind_of_ok (a := ⟨x.frames, x.chain ++ x.written, x.stop⟩) rfl).trans ?_
  rw [x.enabled]
  exact (Pass.bind_of_ok hform).trans hcollapsed

/-- Executes the statements that the block and the collapsed branch have added, and evaluates what
    waits behind them. -/
def recovered : Course σ Unit := do
  Stmt.performAll I (x.before.added x.result)
  x.result.stack.perform I

/-- Evaluates what waited before the block, runs the block, and settles its test. -/
def branched : Course σ Nat := do
  x.before.stack.perform I
  Course.emit (Insn.allEffects x.block.insns)
  let holds ← x.cond.settle I
  return x.head.target holds

/-- The run of the blocks: the block with the branch, the blocks that were folded into its test, and
    those of the arm that is chosen, until control is in front of the block behind the branch or
    leaves the method. -/
def Ran (s : σ) (es : List Effect) (s' : σ) : Prop :=
  ∃ fs, es = (x.branched I s).effects ++ fs ∧
    x.context.Passes x.after.scope I x.others (x.branched I s).result (x.branched I s).state fs
      x.form.merge? s'

/-- The statements that the block has added, and the values that wait below its condition. -/
def opening : Course σ Unit := do
  Stmt.performAll I (x.before.added x.after)
  x.waiting.perform I

/-- Evaluates the value or executes the statement that the branch has collapsed into. -/
def closing : Course σ Unit :=
  match x.form with
  | .value _ e _ => e.perform I
  | .stmt _ s _ => s.perform I

/-- The effects of the destination may come before those of the condition. -/
def Commutes (s : σ) : Prop :=
  (Expr.performAll I x.form.destination s).effects ++ (x.test.cond.perform I s).effects
    = (x.test.cond.perform I s).effects ++ (Expr.performAll I x.form.destination s).effects

variable {x I}

/-- Blocks are in order if all steps of their simulation keep it. -/
theorem inOrder_of_ordered
    (hblock : Simulation.ordered x.context.config none x.before x.block.insns = true)
    (hothers : ∀ k ∈ x.others, ∀ b, x.context.graph.block? k = some b →
      Simulation.ordered x.context.config none (.start (x.after.scope.child .block)) b.insns
        = true) : x.InOrder where
  branch := Simulation.inOrder_of_ordered x.run_eq hblock
  others k hk := Context.inOrder_of_ordered (hothers k hk)

/-! ### One run -/

/-- Control comes to the block behind the branch from a block that is no branch. Only branches lead
    to the other blocks. -/
theorem not_mem_others {m : Nat} (hm : x.form.merge? = some m) : m ∉ x.others := by
  obtain ⟨k, b, hb, hexit⟩ :=
    Context.exists_goto_of_collapses (Context.ternary_inv x.form_eq) hm
  have hleads : k ∈ x.context.graph.predecessors m :=
    Chained.mem_predecessors_iff.2 ((FlowGraph.mem_successors_of_block hb).2
      (by simp [hexit, Terminator.successors]))
  -- a block that goes on to one block is no branch
  have hbranch : ¬x.context.Branches k := by
    rintro ⟨b', _, _, _, hb', hexit'⟩
    cases hb.symm.trans hb'
    cases hexit.symm.trans hexit'
  have hfolded := BranchTest.fold_chained x.fold_eq fun m => by
    rw [FlowGraph.mem_successors_of_block x.block_eq, x.exit_eq, Terminator.mem_successors_branch]
  have hchain : ∀ j ∈ x.chain, x.context.Branches j := by
    intro j hj
    by_cases hjn : j = x.number
    · exact ⟨x.block, _, _, _, hjn ▸ x.block_eq, x.exit_eq⟩
    · obtain ⟨t, ht⟩ := Option.isSome_iff_exists.1 (hfolded.joined j hj hjn).2
      exact Context.branches_of_pureTest ht
  intro hmem
  rcases List.mem_append.1 hmem with hmem | hmem
  · obtain ⟨hmem, hne⟩ := List.mem_filter.1 hmem
    exact hbranch (hchain k (hfolded.closed m hmem (of_decide_eq_true hne) k hleads))
  · exact hbranch (Context.branches_of_ternary hchain x.form_eq m hmem k hleads)

/-- There is no other run. -/
theorem Ran.unique {s s₁ s₂ : σ} {es fs : List Effect} (h : x.Ran I s es s₁)
    (h' : x.Ran I s fs s₂) : es = fs ∧ s₁ = s₂ := by
  obtain ⟨es', rfl, h⟩ := h
  obtain ⟨fs', rfl, h'⟩ := h'
  obtain ⟨rfl, rfl⟩ := h.unique (fun m hm => not_mem_others hm) h'
  exact ⟨rfl, rfl⟩

/-! ### The block with the branch -/

/-- The block with the branch does what its statements and values do. -/
theorem branched_eq (h : x.InOrder) : x.branched I = (do
    x.opening I
    x.head.perform I) := by
  have hblock := h.branch.course I
  have hcond := branchCondition_perform I x.cond_eq
  calc x.branched I
      = (do
          (do
            x.before.stack.perform I
            Course.emit (Insn.allEffects x.block.insns))
          let holds ← x.cond.settle I
          return x.head.target holds) := by simp only [branched, bind_assoc]
    _ = (do
          Stmt.performAll I (x.before.added x.after)
          let holds ← (do
            x.after.stack.perform I
            x.cond.settle I)
          return x.head.target holds) := by simp only [← hblock, bind_assoc]
    _ = (do
          x.opening I
          x.head.perform I) := by
        rw [hcond]
        simp only [opening, BranchTest.perform, head, bind_assoc]

/-- The collapsed branch is evaluated behind what the block leaves. -/
theorem recovered_eq (h : x.InOrder) : x.recovered I = (do
    x.opening I
    x.closing I) := by
  obtain ⟨ss, hss⟩ := h.branch.kept
  have hopened : x.before.added x.after = ss := Simulation.added_of_append hss.symm
  cases hform : x.form with
  | value blocks e merge =>
    have hresult : x.result = { x.after with stack := x.waiting.push e } := by rw [result, hform]
    have hadded : x.before.added x.result = ss := by
      rw [hresult]
      exact Simulation.added_of_append hss.symm
    rw [recovered, hadded, hresult, opening, closing, hopened, hform]
    simp only [Operands.push, Operands.perform, Operand.perform, bind_assoc]
  -- a branch becomes a statement only where nothing waits, so no value is evaluated behind it
  | stmt blocks stmt merge =>
    have hwaiting : x.waiting = [] := Context.stack_of_ternary (hform ▸ x.form_eq)
    have hresult : x.result
        = ⟨{ x.after.scope with stmts := x.after.scope.stmts ++ [stmt] }, x.waiting⟩ := by
      rw [result, hform]
    have hadded : x.before.added x.result = ss ++ [stmt] := by
      refine Simulation.added_of_append ?_
      rw [hresult, ← hss, List.append_assoc]
    rw [recovered, hadded, hresult, opening, closing, hopened, hform, hwaiting]
    simp only [Stmt.performAll_append, Stmt.performAll, Operands.perform, bind_pure_unit,
      bind_assoc]

/-! ### The arms -/

/-- The run of the blocks does what the opening does, and then what the condition and what stands
    for the arms do. -/
theorem ran_of_chosen (h : x.InOrder) {atTaken atFallthrough y : Course σ Unit}
    (htaken : ∀ s, x.context.Passes x.after.scope I x.others x.test.taken s
      (atTaken s).effects x.form.merge? (atTaken s).state)
    (hfall : ∀ s, x.context.Passes x.after.scope I x.others x.test.fallthrough s
      (atFallthrough s).effects x.form.merge? (atFallthrough s).state)
    (hy : y = (do
      let holds ← x.test.cond.perform I
      if holds then atTaken else atFallthrough)) (s : σ) :
    x.Ran I s ((x.opening I s).effects ++ (y (x.opening I s).state).effects)
      (y (x.opening I s).state).state := by
  -- the first block of the chain has been simulated with the branch, and the others stand alone
  have horder : ∀ k ∈ x.chain, k ≠ x.number →
      k ∈ x.others ∧ x.context.InOrder x.after.scope k := by
    intro k hk hne
    have hother : k ∈ x.others :=
      List.mem_append_left _ (List.mem_filter.2 ⟨hk, decide_eq_true hne⟩)
    exact ⟨hother, h.others k hother⟩
  obtain ⟨es, hes, hpasses⟩ :=
    Context.passes_chosen x.fold_eq horder htaken hfall hy (x.opening I s).state
  refine ⟨es, ?_, ?_⟩
  · rw [branched_eq h, hes, Course.bind_apply, List.append_assoc]
    rfl
  · rw [branched_eq h]
    exact hpasses

/-- The order does not matter if the destination or the condition makes no effects. Only an
    assignment has a destination. -/
theorem commutes_of_quiet (h : Expr.anyHasEffects x.form.destination = false ∨
    x.test.cond.hasEffects = false) (s : σ) : x.Commutes I s := by
  rcases h with h | h
  · rw [Commutes, Expr.effects_all_eq_nil I _ h, List.nil_append, List.append_nil]
  · rw [Commutes, Cond.effects_eq_nil I _ h, List.nil_append, List.append_nil]

/-- What the condition and the arms of the blocks do. The collapsed branch makes the same tests, and
    it makes the same effects exactly if those of the destination may come first. -/
theorem exists_ran (h : x.InOrder) : ∃ y : Course σ Unit,
    (∀ s, x.Ran I s ((x.opening I s).effects ++ (y (x.opening I s).state).effects)
      (y (x.opening I s).state).state) ∧
    ∀ s, (x.closing I s).state = (y s).state ∧
      ((x.closing I s).effects = (y s).effects ↔ x.Commutes I s) := by
  have hcollapses := Context.ternary_inv x.form_eq
  have hblocks : ∀ k ∈ x.form.blocks, k ∈ x.others := fun k hk => List.mem_append_right _ hk
  have harms : ∀ k ∈ x.form.blocks, x.context.InOrder x.after.scope k := fun k hk =>
    h.others k (hblocks k hk)
  have hchosen := @ran_of_chosen σ x I h
  generalize hform : x.form = form at hcollapses
  rw [hform] at hblocks harms hchosen
  -- a value and a returning branch have no destination
  have hnone : form.destination = [] → ∀ s, (x.closing I s).state = (x.closing I s).state ∧
      ((x.closing I s).effects = (x.closing I s).effects ↔ x.Commutes I s) := fun hnil s =>
    ⟨rfl, iff_of_true rfl (commutes_of_quiet (.inl (by rw [hform, hnil]; rfl)) s)⟩
  cases hcollapses with
  -- a value evaluates its test and one of the two arms, as the blocks do
  | @value taken fall htaken hfall hmerge =>
    obtain ⟨hordert, horderf⟩ := List.forall_mem_append.1 harms
    obtain ⟨hsubt, hsubf⟩ := List.forall_mem_append.1 hblocks
    refine ⟨x.closing I, hchosen (Context.passes_of_built htaken hordert hsubt I)
      (fun s => hmerge ▸ Context.passes_of_built hfall horderf hsubf I s) ?_, hnone rfl⟩
    rw [closing, hform]
    exact x.test.choose_perform fall.value taken.value
  | @ret value value' henter hfall htaken =>
    obtain ⟨horderf, hordert⟩ := List.forall_mem_cons.1 harms
    obtain ⟨hmemf, hmemt⟩ := List.forall_mem_cons.1 hblocks
    rw [List.forall_mem_singleton] at hordert hmemt
    refine ⟨x.closing I, hchosen (Context.passes_of_shaped htaken hordert hmemt I)
      (Context.passes_of_shaped hfall horderf hmemf I) ?_, hnone rfl⟩
    rw [closing, hform]
    exact x.test.choose_perform value value'
  -- an assignment evaluates its destination before its test, the blocks behind it
  | @assign target target' value value' merge henter hsame hfall htaken =>
    obtain ⟨horderf, hordert⟩ := List.forall_mem_cons.1 harms
    obtain ⟨hmemf, hmemt⟩ := List.forall_mem_cons.1 hblocks
    rw [List.forall_mem_singleton] at hordert hmemt
    refine ⟨_, hchosen (Context.passes_of_shaped htaken hordert hmemt I)
      (Context.passes_of_shaped hfall horderf hmemf I) rfl, fun s => ?_⟩
    obtain ⟨ds, hds, hds'⟩ := Context.exists_destination hsame hfall
    have hdestination : x.form.destination = target.operands := by rw [hform]; rfl
    have hclosing : x.closing I = (do
        Course.emit ds
        let holds ← x.test.cond.perform I
        if holds then value'.perform I else value.perform I) := by
      rw [closing, hform]
      simp only [Stmt.perform, hds I, BranchTest.choose_perform]
    rw [Commutes, hdestination, hds I]
    refine Course.emit_before hclosing ?_ s
    simp only [ArmShape.stmt, Stmt.perform, hds I, hds' I]

/-- The blocks of a collapsed branch are run in one way: control comes to the block behind the
    branch, or it leaves the method. The recovered value or statement makes the same tests, and it
    makes the same effects in the same order exactly if those of the destination may come before
    those of the condition.

    The hypothesis concerns single blocks: the branch and the arms are simulated each on its own,
    and this has to keep the order of the effects of their instructions (`Collapse.InOrder`), which
    `Simulation.inOrder_of_ordered` decides step by step. What the collapse itself does to the order
    needs no further hypothesis. -/
theorem effects_iff (h : x.InOrder) (s : σ) :
    ∃ es s', (∀ fs t, x.Ran I s fs t ↔ fs = es ∧ t = s') ∧ (x.recovered I s).state = s' ∧
      ((x.recovered I s).effects = es ↔ x.Commutes I (x.opening I s).state) := by
  obtain ⟨y, hran, hclosing⟩ := exists_ran (I := I) h
  obtain ⟨hstate, heffects⟩ := hclosing (x.opening I s).state
  refine ⟨_, _, fun fs t => ⟨fun hrun => hrun.unique (hran s), ?_⟩, ?_, ?_⟩
  · rintro ⟨rfl, rfl⟩
    exact hran s
  · rw [recovered_eq h]
    exact hstate
  · rw [recovered_eq h, Course.bind_apply, List.append_right_inj]
    exact heffects

/-! ### Two arms -/

/-- A chain does not go on if there is no test at either target. -/
theorem fold_of_no_test {c : Context} {scope : Scope} {eligible : Nat → Bool} {head : BranchTest}
    {n : Nat} (htaken : c.pureTest head.taken scope = none)
    (hfall : c.pureTest head.fallthrough scope = none) :
    head.fold c scope eligible n = (head, [n]) := by
  have hext : head.extension? c scope eligible [n] = none := by
    simp [BranchTest.extension?, htaken, hfall]
  rw [BranchTest.fold]
  cases c.config.maxChain - 1 with
  | zero => rfl
  | succ room => rw [BranchTest.foldWithin, hext]

/-- A branch on `T.cond()`, and two arms that meet behind it. -/
def twoArms (taken fallthrough : List Insn) : List Block :=
  [⟨[.invoke .static ⟨"T", "cond", "()Z"⟩], .branch (.zero .eq) 2 1⟩, ⟨fallthrough, .goto 3⟩,
    ⟨taken, .goto 3⟩, ⟨[], .ret⟩]

/-- The graph of these blocks. -/
def twoArmsContext (taken fallthrough : List Insn) : Context where
  config := {}
  graph := .ofDigraph ⟨twoArms taken fallthrough, flowEdges (twoArms taken fallthrough),
    of_decide_eq_true rfl⟩ (Nat.zero_lt_succ _) rfl

/-- `T.cond()`. -/
def asked : Expr := .staticCall ⟨"T", "cond", "()Z"⟩ []

/-- The call that is asked stays on the stack. -/
theorem run_asked : Simulation.run {} (.start (.new .method))
    [.invoke .static ⟨"T", "cond", "()Z"⟩] = .ok ⟨.new .method, [.value asked]⟩ := by
  have hparse : (MethodRef.mk "T" "cond" "()Z").parse = .ok ⟨[], "Z"⟩ := by decide +kernel
  simp only [Simulation.run, Simulation.runAfter, Simulation.checkOperands, Insn.effect, hparse,
    Simulation.step, Simulation.invoke]
  rfl

/-- What the branch collapses into. -/
def twoArmsForm? (taken fallthrough : List Insn) : Option Collapsed :=
  ((twoArmsContext taken fallthrough).ternary? ⟨[], [0, 0], none⟩ (.start (.new .method))
    ⟨.test asked true, 2, 1⟩ [0]).toOption.join

/-- The branch at the beginning of a method. -/
def ofTwoArms (taken fallthrough : List Insn)
    (h : (twoArmsForm? taken fallthrough).isSome = true) : Collapse where
  context := twoArmsContext taken fallthrough
  frames := []
  stop := none
  written := [0]
  number := 0
  block := ⟨[.invoke .static ⟨"T", "cond", "()Z"⟩], .branch (.zero .eq) 2 1⟩
  before := .start (.new .method)
  after := ⟨.new .method, [.value asked]⟩
  branch := .zero .eq
  taken := 2
  fallthrough := 1
  cond := .test asked true
  waiting := []
  test := ⟨.test asked true, 2, 1⟩
  chain := [0]
  form := (twoArmsForm? taken fallthrough).get h
  enabled := rfl
  block_eq := rfl
  exit_eq := rfl
  run_eq := run_asked
  cond_eq := rfl
  fold_eq := fold_of_no_test rfl rfl
  form_eq := Except.eq_ok_of_toOption (Option.join_eq_some_iff.1 (Option.some_get h).symm)

/-- Two arms that pass the check keep their effects in order. -/
theorem ofTwoArms_inOrder {taken fallthrough : List Insn}
    (h : (twoArmsForm? taken fallthrough).isSome = true)
    (hblocks : (ofTwoArms taken fallthrough h).others ⊆ [1, 2])
    (htaken : Simulation.ordered {} none (.start ((Scope.new .method).child .block)) taken = true)
    (hfall : Simulation.ordered {} none (.start ((Scope.new .method).child .block)) fallthrough
      = true) : (ofTwoArms taken fallthrough h).InOrder := by
  have hblock : Simulation.ordered {} none (.start (.new .method))
      [.invoke .static ⟨"T", "cond", "()Z"⟩] = true := by decide +kernel
  refine inOrder_of_ordered hblock fun k hk b hb => ?_
  rcases List.mem_pair.1 (hblocks hk) with rfl | rfl
  · cases hb
    exact hfall
  · cases hb
    exact htaken

/-- `T.f = T.cond() ? T.one() : T.two();` -/
def picked : Collapse :=
  ofTwoArms [.invoke .static ⟨"T", "two", "()I"⟩, .putStatic ⟨"T", "f", "I"⟩]
    [.invoke .static ⟨"T", "one", "()I"⟩, .putStatic ⟨"T", "f", "I"⟩] (by decide +kernel)

/-- Both arms pass the check. -/
theorem picked_inOrder : picked.InOrder :=
  ofTwoArms_inOrder _ (by decide +kernel) (by decide +kernel) (by decide +kernel)

/-- Its order is kept, for the destination makes no effects. -/
theorem picked_effects : picked.InOrder ∧ ∀ {σ : Type} (I : Interpretation σ) (s : σ),
    ∃ es s', (∀ fs t, picked.Ran I s fs t ↔ fs = es ∧ t = s') ∧
      (picked.recovered I s).state = s' ∧ (picked.recovered I s).effects = es := by
  have hquiet : Expr.anyHasEffects picked.form.destination = false := by decide +kernel
  refine ⟨picked_inOrder, fun I s => ?_⟩
  obtain ⟨es, s', hran, hstate, heffects⟩ := effects_iff picked_inOrder (I := I) s
  exact ⟨es, s', hran, hstate, heffects.2 (commutes_of_quiet (.inl hquiet) _)⟩

/-- `T.get().f = n;` -/
def fetchedArm (n : Int) : List Insn :=
  [.invoke .static ⟨"T", "get", "()LT;"⟩, .const (.int n), .putField ⟨"T", "f", "I"⟩]

/-- `T.get().f = T.cond() ? 1 : 2;` -/
def fetched : Collapse := ofTwoArms (fetchedArm 2) (fetchedArm 1) (by decide +kernel)

/-- Both arms pass the check. -/
theorem fetched_inOrder : fetched.InOrder :=
  ofTwoArms_inOrder _ (by decide +kernel) (by decide +kernel) (by decide +kernel)

/-- Tests of truth values hold, and of two opposite relations one does. -/
def affirming : Interpretation Unit where
  truth _ s := (true, s)
  relation _ r _ s := (r == r.stem, s)
  opposite _ r _ s := by cases r <;> rfl

/-- Running the blocks calls `T.cond` first. -/
theorem fetched_ran :
    fetched.Ran affirming () [.call "LT;" "cond" "()Z", .call "LT;" "get" "()LT;"] () := by
  have hblock : fetched.context.graph.block? 1 = some ⟨fetchedArm 1, .goto 3⟩ := rfl
  have hnext : fetched.form.merge? = some 3 := by decide +kernel
  have harm : fetched.context.Passes fetched.after.scope affirming fetched.others 1 ()
      (Insn.allEffects (fetchedArm 1) ++ []) (some 3) () :=
    .goto (by decide +kernel) hblock rfl .arrive
  exact ⟨_, rfl, hnext ▸ harm⟩

/-- Not every collapsed branch keeps the order: `T.get().f = T.cond() ? 1 : 2` calls `T.get` before
    `T.cond`. -/
theorem fetched_reorders : ¬ ∀ x : Collapse, x.InOrder →
    ∀ {σ : Type} (I : Interpretation σ) (s : σ) (es : List Effect) (s' : σ), x.Ran I s es s' →
      (x.recovered I s).effects = es := by
  intro h
  have heffects := h fetched fetched_inOrder affirming () _ _ fetched_ran
  have hrecovered : (fetched.recovered affirming ()).effects
      = [.call "LT;" "get" "()LT;", .call "LT;" "cond" "()Z"] := by decide +kernel
  rw [hrecovered] at heffects
  revert heffects
  decide

end Collapse

end Restructure
