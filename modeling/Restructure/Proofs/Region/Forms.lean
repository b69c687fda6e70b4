import Restructure.Proofs.Conditions.Chains
import Restructure.Proofs.Simulation.Edits
import Restructure.Region.Walk

namespace Restructure

/-!
# Forms — what it takes for a branch, a loop or a switch to have its form

The walk decides by searching for a form. These lemmas say once what a successful search has
found, so that nothing else looks into the searches.

* `Chosen` — one of the targets of a test, and the other one.
* `ValueArm.Built` — how the arm of a conditional value is made up of blocks.
* `Context.ternary_inv` — a branch that collapses.
* `Context.guardedArm_inv`, `Context.loopTest_inv`, `Context.latchTest_inv` — guards and tests.
* `Context.jump_inv` — what the jumps of the constructs around lead to.
* `mem_groupCases_iff`, `exists_key_iff`, `exists_default_iff` — where the arms of a switch begin,
  their keys and the default.
* `Promoted`, `promoteFor_inv` — a loop with a counter.
* `Trimmed` — a jump at the end of some code is taken away.
-/

/-! ### Targets -/

/-- One of the targets of a test and the other one: whether the first is taken when the test
    holds. -/
inductive Chosen (taken fallthrough : Nat) : (isTaken : Bool) → (start other : Nat) → Prop
  | taken : Chosen taken fallthrough true taken fallthrough
  | fallthrough : Chosen taken fallthrough false fallthrough taken

/-- Both targets have what one and the other have. -/
theorem Chosen.both {taken fallthrough start other : Nat} {isTaken : Bool}
    (h : Chosen taken fallthrough isTaken start other) {P : Nat → Prop} (htaken : P taken)
    (hfall : P fallthrough) : P start ∧ P other := by
  cases h with
  | taken => exact ⟨htaken, hfall⟩
  | fallthrough => exact ⟨hfall, htaken⟩

/-- One target and the other are both targets. -/
theorem Chosen.eq_or_eq_iff {taken fallthrough start other : Nat} {isTaken : Bool}
    (h : Chosen taken fallthrough isTaken start other) {m : Nat} :
    m = start ∨ m = other ↔ m = taken ∨ m = fallthrough := by
  cases h with
  | taken => exact Iff.rfl
  | fallthrough => exact or_comm

/-- The condition of a branch takes its operands from the stack. -/
theorem stack_of_branchCondition {test : Branch} {st st' : Operands} {cond : Cond}
    (h : branchCondition test st = .ok (cond, st')) :
    ∃ es : List Expr, es.length = test.pops ∧ st = es.map .value ++ st' := by
  cases test with
  | zero r | isNull | isNotNull =>
    obtain ⟨⟨e, st₁⟩, he, h⟩ := Except.bind_eq_ok.1 h
    cases h
    exact ⟨[e], rfl, Simulation.pop_ok he⟩
  | values r =>
    obtain ⟨⟨right, st₁⟩, hright, h⟩ := Except.bind_eq_ok.1 h
    obtain ⟨⟨left, st₂⟩, hleft, h⟩ := Except.bind_eq_ok.1 h
    cases h
    refine ⟨[right, left], rfl, ?_⟩
    rw [Simulation.pop_ok hright, Simulation.pop_ok hleft]
    rfl

/-! ### Conditional values -/

/-- How the arm of a conditional value that starts at block `n` is made up: it is a block that only
    computes a value, or a chain of tests with two such arms behind it. -/
inductive ValueArm.Built (c : Context) (p : Position) (scope : Scope) : Nat → ValueArm → Prop
  | leaf {n merge : Nat} {b : Block} {m : Simulation} {e : Expr} (he : c.entersPlain p n = true)
      (hb : c.graph.block? n = some b) (hexit : b.exit = .goto merge)
      (hm : c.scratch? n scope = some m) (hempty : m.scope.isEmpty = true)
      (hstack : m.stack = [.value e]) : Built c p scope n ⟨e, merge, [n]⟩
  | fork {n : Nat} {head test : BranchTest} {inner : List Nat} {taken fall : ValueArm}
      (he : c.entersPlain p n = true) (hhead : c.pureTest n scope = some head)
      (hfold : head.fold c scope (c.entersPlain p) n = (test, inner))
      (htaken : Built c p scope test.taken taken) (hfall : Built c p scope test.fallthrough fall)
      (hmerge : taken.merge = fall.merge) :
      Built c p scope n ⟨test.choose fall.value taken.value, taken.merge,
        taken.blocks ++ fall.blocks ++ inner⟩

/-- The blocks that a collapsed branch consists of. -/
def Collapsed.blocks : Collapsed → List Nat
  | value blocks _ _ => blocks
  | stmt blocks _ _ => blocks

/-- The block behind a collapsed branch. -/
def Collapsed.merge? : Collapsed → Option Nat
  | value _ _ merge => some merge
  | stmt _ _ merge => merge

namespace Context

variable {c : Context} {p : Position} {scope : Scope} {n : Nat} {chain : List Nat}
  {test : BranchTest}

/-- The arm of a conditional value is built of blocks. By induction on the fuel. -/
theorem built_of_valueArmWithin {fuel : Nat} {arm : ValueArm}
    (h : c.valueArmWithin? p scope fuel n chain = some arm) : arm.Built c p scope n := by
  induction fuel generalizing n chain arm with
  | zero => cases h
  | succ fuel ih =>
    rw [valueArmWithin?] at h
    split at h
    · rename_i henter
      have he : c.entersPlain p n = true := (Bool.and_eq_true_iff.1 henter).1
      obtain ⟨b, hb, h⟩ := Option.bind_eq_some_iff.1 h
      split at h
      · rename_i merge hexit
        obtain ⟨m, hm, h⟩ := Option.bind_eq_some_iff.1 h
        split at h
        · rename_i hempty hstack
          cases h
          exact .leaf he hb hexit hm hempty hstack
        · cases h
      · obtain ⟨head, hhead, h⟩ := Option.bind_eq_some_iff.1 h
        split at h
        rename_i test inner hfold
        obtain ⟨taken, htaken, h⟩ := Option.bind_eq_some_iff.1 h
        obtain ⟨fall, hfall, h⟩ := Option.bind_eq_some_iff.1 h
        split at h
        · rename_i hmerge
          cases h
          exact .fork he hhead hfold (ih htaken) (ih hfall) hmerge
        · cases h
      · cases h
    · cases h

/-- The blocks of an arm lead to each other and to the block behind the arm. -/
theorem mem_blocks_of_built {arm : ValueArm} (h : arm.Built c p scope n) :
    n ∈ arm.blocks ∧
      ∀ k ∈ arm.blocks, ∀ m ∈ c.graph.successors k, m ∈ arm.blocks ∨ m = arm.merge := by
  induction h with
  | leaf he hb hexit _ _ _ =>
    refine ⟨List.mem_singleton_self _, fun k hk m hm => .inr ?_⟩
    obtain rfl := List.mem_singleton.1 hk
    rw [FlowGraph.mem_successors_of_block hb, hexit] at hm
    exact List.mem_singleton.1 hm
  | @fork n head test inner taken fall he hhead hfold htaken hfall hmerge iht ihf =>
    have hchain := BranchTest.fold_chained hfold fun m => mem_successors_of_pureTest hhead
    refine ⟨List.mem_append_right _ hchain.first_mem, fun k hk m hm => ?_⟩
    simp only [List.mem_append] at hk ⊢
    rcases hk with (hk | hk) | hk
    · exact (iht.2 k hk m hm).imp_left fun h => .inl (.inl h)
    · exact (ihf.2 k hk m hm).imp (fun h => .inl (.inr h)) fun h => h.trans hmerge.symm
    · rcases hchain.leads k hk m hm with ⟨hin, _⟩ | rfl | rfl
      · exact .inl (.inr hin)
      · exact .inl (.inl (.inl iht.1))
      · exact .inl (.inl (.inr ihf.1))

/-- What goes on from block to block holds of the blocks of an arm, and of the block behind it, if
    it holds of the first one. -/
theorem spread_of_built {arm : ValueArm} (h : arm.Built c p scope n) {P : Nat → Prop} (hP : P n)
    (hstep : ∀ k ∈ arm.blocks, P k → ∀ m ∈ c.graph.successors k, P m) :
    (∀ k ∈ arm.blocks, P k) ∧ P arm.merge := by
  induction h with
  | @leaf n merge b m e he hb hexit _ _ _ =>
    have hmerge : merge ∈ c.graph.successors n :=
      (FlowGraph.mem_successors_of_block hb).2 (by simp [hexit, Terminator.successors])
    refine ⟨fun k hk => ?_, hstep n (List.mem_singleton_self n) hP merge hmerge⟩
    rw [List.mem_singleton.1 hk]
    exact hP
  | @fork n head test inner taken fall he hhead hfold htaken hfall hmerge iht ihf =>
    have hchain := BranchTest.fold_chained hfold fun m => mem_successors_of_pureTest hhead
    simp only [List.mem_append] at hstep
    have hinner := hchain.spread P hP fun k hk => hstep k (.inr hk)
    have htarget : ∀ m, m = test.taken ∨ m = test.fallthrough → P m := fun m hm => by
      obtain ⟨k, hk, hleads⟩ := hchain.left m hm
      exact hstep k (.inr hk) (hinner k hk) m hleads
    obtain ⟨ht, hmergeP⟩ := iht (htarget _ (.inl rfl)) fun k hk => hstep k (.inl (.inl hk))
    obtain ⟨hf, _⟩ := ihf (htarget _ (.inr rfl)) fun k hk => hstep k (.inl (.inr hk))
    refine ⟨fun k hk => ?_, hmergeP⟩
    simp only [List.mem_append] at hk
    rcases hk with (hk | hk) | hk
    · exact ht k hk
    · exact hf k hk
    · exact hinner k hk

/-- A block of a conditional statement: it assigns once and goes on, or it returns a value. -/
inductive Shaped (c : Context) (scope : Scope) (n : Nat) : ArmShape → Prop
  | assign {b : Block} {m : Simulation} {target : Place} {value : Expr} {merge : Nat}
      (hb : c.graph.block? n = some b) (hexit : b.exit = .goto merge)
      (hm : c.scratch? n scope = some m) (hstmts : m.scope.stmts = [.assign target value])
      (hstack : m.stack = []) : Shaped c scope n (.assign target value merge)
  | ret {b : Block} {m : Simulation} {value : Expr} (hb : c.graph.block? n = some b)
      (hexit : b.exit = .retValue) (hm : c.scratch? n scope = some m) (hstmts : m.scope.stmts = [])
      (hstack : m.stack = [.value value]) : Shaped c scope n (.ret value)

/-- The shape of an arm is that of its block, simulated alone. -/
theorem shaped_of_armShape {shape : ArmShape} (h : c.armShape? scope n = .ok (some shape)) :
    c.Shaped scope n shape := by
  unfold armShape? at h
  split at h
  · rename_i b m hb hm
    split at h
    · rename_i merge target value hexit hstmts hstack
      cases h
      exact .assign hb hexit hm hstmts hstack
    · rename_i o hexit hstmts hstack
      obtain ⟨⟨e, st⟩, hpop, h⟩ := Except.map_eq_ok.1 h
      cases h
      cases o with
      | value e' =>
        cases hpop
        exact .ret hb hexit hm hstmts hstack
      | uninitialized t => cases hpop
    · cases h
  · cases h

/-- What a branch collapses into: a value, or a statement that stands for itself. -/
inductive CollapsesTo (c : Context) (p : Position) (scope : Scope) (test : BranchTest) :
    Collapsed → Prop
  | value {taken fall : ValueArm} (htaken : taken.Built c p scope test.taken)
      (hfall : fall.Built c p scope test.fallthrough) (hmerge : taken.merge = fall.merge) :
      CollapsesTo c p scope test (.value (taken.blocks ++ fall.blocks)
        (test.choose fall.value taken.value) taken.merge)
  | assign {target target' : Place} {value value' : Expr} {merge : Nat}
      (henter : ∀ n, n = test.taken ∨ n = test.fallthrough → c.entersPlain p n = true)
      (hsame : target.same target' = true)
      (hfall : c.Shaped scope test.fallthrough (.assign target value merge))
      (htaken : c.Shaped scope test.taken (.assign target' value' merge)) :
      CollapsesTo c p scope test (.stmt [test.fallthrough, test.taken]
        (.assign target (test.choose value value')) (some merge))
  | ret {value value' : Expr}
      (henter : ∀ n, n = test.taken ∨ n = test.fallthrough → c.entersPlain p n = true)
      (hfall : c.Shaped scope test.fallthrough (.ret value))
      (htaken : c.Shaped scope test.taken (.ret value')) :
      CollapsesTo c p scope test (.stmt [test.fallthrough, test.taken]
        (.ret (some (test.choose value value'))) none)

/-- A branch that collapses into a value. -/
theorem collapsesTo_of_valueTernary {form : Collapsed}
    (h : c.valueTernary? p scope test chain = some form) : c.CollapsesTo p scope test form := by
  obtain ⟨taken, htaken, h⟩ := Option.bind_eq_some_iff.1 h
  obtain ⟨fall, hfall, h⟩ := Option.bind_eq_some_iff.1 h
  split at h
  · rename_i hmerge
    cases h
    exact .value (built_of_valueArmWithin htaken) (built_of_valueArmWithin hfall) hmerge.1
  · cases h

/-- A branch that collapses into a statement. -/
theorem collapsesTo_of_stmtTernary {form : Collapsed}
    (henter : ∀ n, n = test.taken ∨ n = test.fallthrough → c.entersPlain p n = true)
    (h : c.stmtTernary? scope test = .ok (some form)) : c.CollapsesTo p scope test form := by
  obtain ⟨fall?, hfall, h⟩ := Except.bind_eq_ok.1 h
  cases fall? with
  | none => cases h
  | some fall =>
    obtain ⟨taken?, htaken, h⟩ := Except.bind_eq_ok.1 h
    have hfall := shaped_of_armShape hfall
    split at h
    · rename_i target value merge target' value' merge'
      split at h
      · rename_i hsame
        cases h
        exact .assign henter hsame.1 hfall (hsame.2 ▸ shaped_of_armShape htaken)
      · cases h
    · cases h
      exact .ret henter hfall (shaped_of_armShape htaken)
    · cases h

/-- What a branch collapses into, if it does. -/
theorem ternary_inv {m : Simulation} {form : Collapsed}
    (h : c.ternary? p m test chain = .ok (some form)) : c.CollapsesTo p m.scope test form := by
  unfold ternary? at h
  split at h
  · cases h
  · split at h
    · rename_i v hv
      cases h
      exact collapsesTo_of_valueTernary hv
    · split at h
      · rename_i hall
        refine collapsesTo_of_stmtTernary (fun n hn => ?_) h
        have hall := List.all_eq_true.1 (Bool.and_eq_true_iff.1 hall).2 n (by
          rcases hn with rfl | rfl <;> simp)
        exact (Bool.and_eq_true_iff.1 hall).1
      · cases h

/-- The statement that a branch collapses into has no scopes. -/
theorem CollapsesTo.isAtomic {blocks : List Nat} {s : Stmt} {merge : Option Nat}
    (h : c.CollapsesTo p scope test (.stmt blocks s merge)) : s.isAtomic = true := by
  cases h with
  | assign => rfl
  | ret => rfl

/-- An arm that is a block alone goes on with the block behind the branch, if there is one. -/
theorem Shaped.merge {shape : ArmShape} {merge : Option Nat} {m : Nat} (h : c.Shaped scope n shape)
    (hmerge : ∀ target value k, shape = .assign target value k → merge = some k)
    (hm : m ∈ c.graph.successors n) : merge = some m := by
  obtain ⟨b', hb', hm⟩ := (c.graph.mem_successors_iff).1 hm
  cases h with
  | assign hb hexit _ _ _ =>
    cases hb.symm.trans hb'
    rw [hexit] at hm
    rw [List.mem_singleton.1 hm]
    exact hmerge _ _ _ rfl
  | ret hb hexit _ _ _ =>
    cases hb.symm.trans hb'
    rw [hexit] at hm
    cases hm

/-- A collapsed branch holds both targets, and its blocks lead to each other and to the block behind
    it. -/
theorem CollapsesTo.blocks {form : Collapsed} (h : c.CollapsesTo p scope test form) :
    (∀ n, n = test.taken ∨ n = test.fallthrough → n ∈ form.blocks) ∧
      ∀ k ∈ form.blocks, ∀ m ∈ c.graph.successors k, m ∈ form.blocks ∨ form.merge? = some m := by
  cases h with
  | @value taken fall htaken hfall hmerge =>
    obtain ⟨htn, htl⟩ := mem_blocks_of_built htaken
    obtain ⟨hfn, hfl⟩ := mem_blocks_of_built hfall
    refine ⟨?_, fun k hk m hm => ?_⟩
    · rintro n (rfl | rfl)
      · exact List.mem_append_left _ htn
      · exact List.mem_append_right _ hfn
    · rcases List.mem_append.1 hk with hk | hk
      · exact (htl k hk m hm).imp (List.mem_append_left _) fun heq => congrArg some heq.symm
      · exact (hfl k hk m hm).imp (List.mem_append_right _)
          fun heq => congrArg some (hmerge.trans heq.symm)
  | assign henter _ hfall htaken =>
    refine ⟨?_, fun k hk m hm => .inr ?_⟩
    · rintro n (rfl | rfl) <;> simp [Collapsed.blocks]
    · rcases List.mem_pair.1 hk with rfl | rfl
      · exact hfall.merge (by simp [Collapsed.merge?]) hm
      · exact htaken.merge (by simp [Collapsed.merge?]) hm
  | ret henter hfall htaken =>
    refine ⟨?_, fun k hk m hm => .inr ?_⟩
    · rintro n (rfl | rfl) <;> simp [Collapsed.blocks]
    · rcases List.mem_pair.1 hk with rfl | rfl
      · exact hfall.merge (by simp) hm
      · exact htaken.merge (by simp) hm

/-- What goes on from block to block holds of the blocks of a collapsed branch, and of the block
    behind it, if it holds of both targets. -/
theorem CollapsesTo.spread {form : Collapsed} (h : c.CollapsesTo p scope test form) {P : Nat → Prop}
    (htargets : ∀ n, n = test.taken ∨ n = test.fallthrough → P n)
    (hstep : ∀ k ∈ form.blocks, P k → ∀ m ∈ c.graph.successors k, P m) :
    (∀ k ∈ form.blocks, P k) ∧ ∀ m, form.merge? = some m → P m := by
  have hpair : ∀ k ∈ [test.fallthrough, test.taken], P k := fun k hk =>
    htargets k (List.mem_pair.1 hk).symm
  cases h with
  | @value taken fall htaken hfall hmerge =>
    obtain ⟨ht, hmergeP⟩ := spread_of_built htaken (htargets _ (.inl rfl))
      fun k hk => hstep k (List.mem_append_left _ hk)
    obtain ⟨hf, _⟩ := spread_of_built hfall (htargets _ (.inr rfl))
      fun k hk => hstep k (List.mem_append_right _ hk)
    refine ⟨fun k hk => (List.mem_append.1 hk).elim (ht k) (hf k), fun m hm => ?_⟩
    exact Option.some.inj hm ▸ hmergeP
  | @assign target target' value value' merge henter _ hfall htaken =>
    refine ⟨hpair, fun m hm => ?_⟩
    obtain rfl : merge = m := Option.some.inj hm
    cases hfall with
    | @assign b _ _ _ _ hb hexit _ _ _ =>
      have hmerge : merge ∈ c.graph.successors test.fallthrough :=
        (FlowGraph.mem_successors_of_block hb).2 (by simp [hexit, Terminator.successors])
      exact hstep _ (List.mem_cons_self ..) (htargets _ (.inr rfl)) merge hmerge
  | ret henter hfall htaken => exact ⟨hpair, fun m hm => by cases hm⟩

/-! ### Guards -/

/-- A guard holds one of the two targets, which is closed, and control goes on with the other
    one. -/
theorem guardedArm_inv {g : Guard} (h : c.guardedArm? p test = some g) :
    Chosen test.taken test.fallthrough g.isTaken g.start g.other ∧
      ∃ size, c.closedArmSize? p.guarded g.start g.other = some size := by
  unfold guardedArm? at h
  simp only at h
  split at h
  · rename_i k k' hk hk'
    cases h
    split
    · exact ⟨.fallthrough, k, hk⟩
    · exact ⟨.taken, k', hk'⟩
  · rename_i k hk _
    cases h
    exact ⟨.fallthrough, k, hk⟩
  · rename_i k _ hk
    cases h
    exact ⟨.taken, k, hk⟩
  · cases h

/-! ### Tests of loops -/

/-- The blocks that a loop's test may take in behind the header. -/
def testable (c : Context) (l : Loop) (written : List Nat) (n : Nat) : Bool :=
  n != l.header && l.contains n && !written.contains n && !c.graph.isLoopHeader n

/-- The test of a loop header: a chain within the loop that leads into it and out of it. -/
theorem loopTest_inv {l : Loop} {written : List Nat} {t : LoopTest}
    (h : c.loopTest? l written scope = some t) :
    ∃ test head, c.pureTest l.header scope = some head ∧
      head.fold c scope (c.testable l written) l.header = (test, t.chain) ∧
      l.contains t.inside = true ∧ l.contains t.outside = false ∧
      (t.cond = test.cond ∨ t.cond = test.cond.negate) ∧
      ∀ m, (m = test.taken ∨ m = test.fallthrough) ↔ (m = t.inside ∨ m = t.outside) := by
  obtain ⟨head, hhead, h⟩ := Option.bind_eq_some_iff.1 h
  simp only at h
  split at h
  · rename_i htaken hfall
    cases h
    exact ⟨_, head, hhead, rfl, htaken, hfall, .inl rfl, fun m => Iff.rfl⟩
  · rename_i htaken hfall
    cases h
    exact ⟨_, head, hhead, rfl, hfall, htaken, .inr rfl, fun m => or_comm⟩
  · cases h

/-- The header of a loop that tests first is the first block of the test. -/
theorem header_mem_chain {l : Loop} {written : List Nat} {scope : Scope} {t : LoopTest}
    (h : c.loopTest? l written scope = some t) : l.header ∈ t.chain := by
  obtain ⟨test, head, hhead, hfold, -⟩ := loopTest_inv h
  exact (BranchTest.fold_chained hfold fun m => mem_successors_of_pureTest hhead).first_mem

/-- The only latch of a loop branches between the header and the outside. -/
theorem latchTest_inv {l : Loop} {latch outside : Nat} {test : Branch} {onTaken : Bool}
    (h : c.latchTest? l = some (latch, test, outside, onTaken)) :
    l.latches = [latch] ∧ l.contains outside = false ∧
      ∃ b taken fallthrough, c.graph.block? latch = some b ∧
        b.exit = .branch test taken fallthrough ∧
          Chosen taken fallthrough onTaken l.header outside := by
  obtain ⟨latch', hlatch, h⟩ := Option.bind_eq_some_iff.1 h
  obtain ⟨b, hb, h⟩ := Option.bind_eq_some_iff.1 h
  have hlatches : l.latches = [latch'] := by
    unfold Loop.singleLatch at hlatch
    split at hlatch
    · rename_i heq
      cases hlatch
      exact heq
    · cases hlatch
  split at h
  · rename_i test' taken fallthrough hexit
    split at h
    · rename_i hcond
      cases h
      exact ⟨hlatches, by simpa using hcond.2, b, _, _, hb, hexit, hcond.1 ▸ .taken⟩
    · split at h
      · rename_i hcond
        cases h
        exact ⟨hlatches, by simpa using hcond.2, b, _, _, hb, hexit, hcond.1 ▸ .fallthrough⟩
      · cases h
  · cases h

/-- The latch leads to the header and to the outside. -/
theorem mem_successors_of_chosen {b : Block} {latch taken fallthrough header outside : Nat}
    {test : Branch} {onTaken : Bool} (hb : c.graph.block? latch = some b)
    (hexit : b.exit = .branch test taken fallthrough)
    (h : Chosen taken fallthrough onTaken header outside) (m : Nat) :
    m ∈ c.graph.successors latch ↔ m = header ∨ m = outside := by
  rw [FlowGraph.mem_successors_of_block hb, hexit, Terminator.mem_successors_branch, h.eq_or_eq_iff]

/-! ### Jumps -/

/-- What the jumps of the constructs around lead to. -/
theorem jump_inv (c : Context) (pos : Position) (n : Nat) :
    (c.jump pos n = .stop → pos.stop = some n) ∧
    (c.jump pos n = .nextRound → pos.frames.nextRound? = some n) ∧
      (c.jump pos n = .leave → pos.frames.follow? = some n) := by
  unfold jump
  repeat' split
  all_goals simp_all

/-- A block that is written here has not been written before. -/
theorem not_mem_written_of_enter {pos : Position} {n : Nat} (h : c.jump pos n = .enter) :
    n ∉ pos.written := by
  intro hmem
  unfold jump at h
  simp only [List.contains_iff_mem.2 hmem, if_true] at h
  repeat' split at h
  all_goals cases h

end Context

/-! ### Switches -/

namespace ArmEntry

/-- One more key leaves the start of an arm. -/
theorem start_addKey (k : Int) (e : ArmEntry) : (addKey k e).start = e.start := rfl

/-- Becoming the default leaves the start of an arm. -/
theorem start_makeDefault (e : ArmEntry) : e.makeDefault.start = e.start := rfl

/-- An update adds an arm for its start, if there is none. -/
theorem mem_update_iff {f : ArmEntry → ArmEntry} (hf : ∀ e, (f e).start = e.start) {start n : Nat}
    {es : List ArmEntry} :
    n ∈ (update f start es).map (·.start) ↔ n = start ∨ n ∈ es.map (·.start) := by
  induction es with
  | nil => simp [update, hf]
  | cons e es ih =>
    rw [update]
    split
    · simp [hf]
    · split
      · rename_i heq
        simp [hf, heq]
      · simp only [List.map_cons, List.mem_cons, ih]
        tauto

/-- An entry with a property is there before, or it is the one that is changed. -/
theorem exists_update_iff {f : ArmEntry → ArmEntry} {start : Nat} {P : ArmEntry → Prop} {A : Prop}
    (hf : ∀ e : ArmEntry, e.start = start → (P (f e) ↔ A ∨ P e)) (hnew : ¬P ⟨start, [], false⟩)
    (es : List ArmEntry) : (∃ e ∈ update f start es, P e) ↔ A ∨ ∃ e ∈ es, P e := by
  have hfresh : P (f ⟨start, [], false⟩) ↔ A := by
    rw [hf _ rfl]
    simp [hnew]
  induction es with
  | nil => simp [update, hfresh]
  | cons e es ih =>
    rw [update]
    split
    · simp [hfresh]
    · split
      · rename_i heq
        simp [hf e heq.symm, or_assoc]
      · simp only [List.exists_mem_cons_iff, ih]
        tauto

end ArmEntry

/-- The arms of the cases begin at their targets. -/
theorem mem_foldl_addKey_iff {cases : List (Int × Nat)} {n : Nat} {es : List ArmEntry} :
    n ∈ (cases.foldl (fun es k => ArmEntry.update (ArmEntry.addKey k.1) k.2 es) es).map (·.start) ↔
      n ∈ cases.map (·.2) ∨ n ∈ es.map (·.start) := by
  induction cases generalizing es with
  | nil => simp
  | cons k cases ih =>
    rw [List.foldl_cons, ih, ArmEntry.mem_update_iff (ArmEntry.start_addKey k.1), List.map_cons,
      List.mem_cons]
    tauto

/-- The arms of a switch begin at its targets; the default has an arm unless it is the block
    behind the switch. -/
theorem mem_groupCases_iff {cases : List (Int × Nat)} {default n : Nat} {follow : Option Nat} :
    n ∈ (groupCases cases default follow).map (·.start) ↔
      n ∈ cases.map (·.2) ∨ (n = default ∧ follow ≠ some default) := by
  have hsorted : ∀ es : List ArmEntry, (es.map ArmEntry.sorted).map (·.start) = es.map (·.start) :=
    fun es => by rw [List.map_map]; rfl
  unfold groupCases
  simp only
  rw [hsorted]
  split
  · rename_i hfollow
    rw [mem_foldl_addKey_iff]
    simp [hfollow]
  · rename_i hfollow
    rw [ArmEntry.mem_update_iff ArmEntry.start_makeDefault, mem_foldl_addKey_iff]
    simp only [List.map_nil, List.not_mem_nil, or_false]
    tauto

section Groups

variable {cases : List (Int × Nat)} {default : Nat} {follow : Option Nat} {v : Int} {t : Nat}

/-- What is put into the entries, key by key and for the default, is what can be found in them. -/
theorem exists_groupCases_iff {P : ArmEntry → Prop} {A : Int × Nat → Prop} {B : Prop}
    (hnew : ∀ start, ¬P ⟨start, [], false⟩)
    (hkey : ∀ (k : Int × Nat) (e : ArmEntry), e.start = k.2 → (P (e.addKey k.1) ↔ A k ∨ P e))
    (hdefault : ∀ e : ArmEntry, e.start = default → (P e.makeDefault ↔ B ∨ P e))
    (hsorted : ∀ e : ArmEntry, P e.sorted ↔ P e) :
    (∃ e ∈ groupCases cases default follow, P e) ↔
      (∃ k ∈ cases, A k) ∨ (B ∧ follow ≠ some default) := by
  -- the keys are put in one after the other, into whatever entries there are
  have hkeyed : ∀ es : List ArmEntry,
      (∃ e ∈ cases.foldl (fun es k => ArmEntry.update (ArmEntry.addKey k.1) k.2 es) es, P e) ↔
        (∃ k ∈ cases, A k) ∨ ∃ e ∈ es, P e := by
    induction cases with
    | nil => simp
    | cons k cases ih =>
      intro es
      rw [List.foldl_cons, ih, ArmEntry.exists_update_iff (hkey k) (hnew k.2) es,
        List.exists_mem_cons_iff, or_assoc]
      exact or_left_comm
  have hgroup : ∀ es : List ArmEntry,
      (∃ e ∈ es.map ArmEntry.sorted, P e) ↔ ∃ e ∈ es, P e := fun es => by
    simp only [List.mem_map, exists_exists_and_eq_and, hsorted]
  unfold groupCases
  simp only
  rw [hgroup]
  split
  · rename_i hfollow
    rw [hkeyed]
    simp [hfollow]
  · rename_i hfollow
    rw [ArmEntry.exists_update_iff hdefault (hnew default), hkeyed]
    simp only [List.not_mem_nil, false_and, exists_false, or_false, ne_eq, hfollow,
      not_false_eq_true, and_true]
    exact or_comm

/-- The arm with a key begins at the target of that key. -/
theorem exists_key_iff :
    (∃ e ∈ groupCases cases default follow, e.start = t ∧ v ∈ e.keys) ↔ (v, t) ∈ cases := by
  rw [exists_groupCases_iff (A := fun k => k = (v, t)) (B := False)]
  · simp
  · simp
  · intro k e he
    simp only [ArmEntry.addKey, List.mem_append, List.mem_singleton, Prod.ext_iff, ← he]
    tauto
  · simp [ArmEntry.makeDefault]
  · intro e
    have hmem : v ∈ e.keys.mergeSort (· ≤ ·) ↔ v ∈ e.keys := (List.mergeSort_perm e.keys _).mem_iff
    simp [ArmEntry.sorted, hmem]

/-- The default has an arm unless it is the block behind the switch. -/
theorem exists_default_iff :
    (∃ e ∈ groupCases cases default follow, e.start = t ∧ e.isDefault = true) ↔
      t = default ∧ follow ≠ some default := by
  rw [exists_groupCases_iff (A := fun _ => False) (B := t = default)]
  · simp
  · simp
  · simp [ArmEntry.addKey]
  · intro e he
    simp only [ArmEntry.makeDefault, he, and_true]
    rw [eq_comm]
    tauto
  · simp [ArmEntry.sorted]

end Groups

/-! ### Counting loops -/

/-- What becomes of a scope and the body of a loop: a counting loop takes in the assignment at the
    end of either, to the same local, which its condition reads. -/
inductive Promoted (scope body : Scope) (cond : Cond) (scope' : Scope) : Stmt → Prop
  | counting {slot : Nat} {init update : Stmt} {b : Scope}
      (hinit : init.assignedLocal? = some slot) (hupdate : update.assignedLocal? = some slot)
      (hreads : cond.reads slot = true) (hcontinue : body.hasOwnContinue = false)
      (hstmts : scope.stmts = scope'.stmts ++ [init]) (hbody : body.stmts = b.stmts ++ [update])
      (hlocals : scope'.locals = scope.locals) :
      Promoted scope body cond scope' (.forLoop (some init) cond (some update) b)
  | plain {b : Scope} (hbody : b.stmts = body.stmts) (hscope : scope' = scope) :
      Promoted scope body cond scope' (.whileLoop cond b)

/-- A counter is set in front of the loop and changed at the end of its body, the condition reads
    it, and no `continue` passes over the change. -/
theorem counter_inv {scope body : Scope} {cond : Cond} {slot : Nat}
    (h : counter? scope cond body = some slot) :
    (∃ init, scope.last? = some init ∧ init.assignedLocal? = some slot) ∧
      (∃ update, body.last? = some update ∧ update.assignedLocal? = some slot) ∧
      cond.reads slot = true ∧ body.hasOwnContinue = false := by
  obtain ⟨slot', hinit, h⟩ := Option.bind_eq_some_iff.1 h
  split at h
  · rename_i hall
    obtain rfl : slot' = slot := Option.some.inj h
    refine ⟨?_, Option.bind_eq_some_iff.1 hall.1, hall.2.1, by simpa using hall.2.2⟩
    unfold Scope.initialized? at hinit
    split at hinit
    · rename_i hlast
      exact ⟨_, hlast, hinit⟩
    · cases hinit
  · cases h

/-- Open scopes are promoted, or left as they are. -/
theorem promoteFor_unlocked (enabled : Bool) {scope body : Scope} (cond : Cond)
    (hs : scope.locked = false) (hb : body.locked = false) :
    ∃ s scope', promoteFor enabled scope cond body = .ok (s, scope') ∧
      scope'.locked = false ∧ scope'.kind = scope.kind := by
  unfold promoteFor
  split
  · rename_i slot hslot
    have hcounter : counter? scope cond body = some slot := by
      split at hslot
      · exact hslot
      · cases hslot
    obtain ⟨⟨init, hinit, _⟩, ⟨update, hupdate, _⟩, _⟩ := counter_inv hcounter
    have hopen : ({ body with stmts := body.stmts.dropLast } : Scope).locked = false := hb
    rw [Scope.pop_unlocked hb hupdate, Scope.pop_unlocked hs hinit]
    simp only [bind, Except.bind, Scope.lock_unlocked hopen]
    exact ⟨_, _, rfl, hs, rfl⟩
  · rw [Scope.lock_unlocked hb]
    exact ⟨_, _, rfl, hs, rfl⟩

/-- A loop is one with a counter, or it is a plain one. -/
theorem promoteFor_inv {enabled : Bool} {scope scope' body : Scope} {cond : Cond} {s : Stmt}
    (h : promoteFor enabled scope cond body = .ok (s, scope')) :
    Promoted scope body cond scope' s := by
  unfold promoteFor at h
  split at h
  · rename_i slot hslot
    have hcounter : counter? scope cond body = some slot := by
      split at hslot
      · exact hslot
      · cases hslot
    obtain ⟨⟨init, hlast, hinit⟩, ⟨update, hlast', hupdate⟩, hreads, hcontinue⟩ :=
      counter_inv hcounter
    obtain ⟨⟨update', body₁⟩, hbody, h⟩ := Except.bind_eq_ok.1 h
    obtain ⟨⟨init', scope₁⟩, hscope, h⟩ := Except.bind_eq_ok.1 h
    obtain ⟨body₂, hlock, h⟩ := Except.bind_eq_ok.1 h
    cases h
    -- what is taken away is what has been looked at
    obtain rfl : init' = init := Option.some.inj ((Scope.pop_inv hscope).1.symm.trans hlast)
    obtain rfl : update' = update := Option.some.inj ((Scope.pop_inv hbody).1.symm.trans hlast')
    refine .counting hinit hupdate hreads hcontinue (Scope.stmts_of_pop hscope) ?_
      (Scope.locals_of_pop hscope)
    rw [Scope.stmts_of_lock hlock]
    exact Scope.stmts_of_pop hbody
  · obtain ⟨body₁, hlock, h⟩ := Except.bind_eq_ok.1 h
    cases h
    exact .plain (Scope.stmts_of_lock hlock) rfl

/-! ### Jumps that are taken away -/

/-- The statement at the end has been taken away, or nothing has. -/
inductive Trimmed (s : Stmt) : (ss ts : List Stmt) → Prop
  | last {ts : List Stmt} : Trimmed s (ts ++ [s]) ts
  | same {ss : List Stmt} : Trimmed s ss ss

/-- Trimming edits the end. -/
theorem Trimmed.edited {s : Stmt} {ss ts : List Stmt} (h : Trimmed s ss ts)
    (hs : s.isAtomic = true) : Edited ss ts := by
  cases h with
  | last => exact (Edited.refl _).drop hs
  | same => exact .refl _

/-- Trimming adds nothing. -/
theorem Trimmed.subset {s : Stmt} {ss ts : List Stmt} (h : Trimmed s ss ts) : ts ⊆ ss := by
  cases h with
  | last => exact List.subset_append_left _ [s]
  | same => exact List.Subset.refl ss

/-- Taking the last statement away trims. -/
theorem trimmed_of_pop {s s' : Scope} {x y : Stmt} (hlast : s.last? = some y)
    (h : s.pop = .ok (x, s')) : Trimmed y s.stmts s'.stmts := by
  obtain rfl : x = y := Option.some.inj ((Scope.pop_inv h).1.symm.trans hlast)
  rw [Scope.stmts_of_pop h]
  exact .last

/-- An arm loses the jump behind its switch, and breaks. One that breaks without such a jump would
    run into what is behind the switch. -/
theorem closeArm_inv {next follow : Option Nat} {s : Scope} {r : Bool × Scope}
    (h : closeArm next follow s = .ok r) :
    (s.stmts = r.2.stmts ++ [.breakOut] ∧ r.1 = true) ∨
      (r.2 = s ∧ (r.1 = true → next = follow)) := by
  unfold closeArm at h
  split at h
  · rename_i hlast
    obtain ⟨⟨x, s'⟩, hpop, rfl⟩ := Except.map_eq_ok.1 h
    have hx : x = .breakOut := Option.some.inj ((Scope.pop_inv hpop).1.symm.trans hlast)
    exact .inl ⟨hx ▸ Scope.stmts_of_pop hpop, rfl⟩
  · cases h
    refine .inr ⟨rfl, fun hbreaks => ?_⟩
    simp only [Bool.and_eq_true, beq_iff_eq] at hbreaks
    exact hbreaks.1.2

/-- At the end of an arm a break is taken away, if anything is. -/
theorem closeArm_trimmed {next follow : Option Nat} {s : Scope} {r : Bool × Scope}
    (h : closeArm next follow s = .ok r) : Trimmed .breakOut s.stmts r.2.stmts := by
  rcases closeArm_inv h with ⟨hstmts, _⟩ | ⟨heq, _⟩
  · rw [hstmts]
    exact .last
  · rw [heq]
    exact .same

namespace Context

/-- A loop loses the jump to its next round at the end. -/
theorem dropContinue_trimmed {s s' : Scope} (h : dropContinue s = .ok s') :
    Trimmed .continueLoop s.stmts s'.stmts := by
  unfold dropContinue at h
  split at h
  · rename_i hlast
    obtain ⟨⟨x, s₁⟩, hpop, rfl⟩ := Except.map_eq_ok.1 h
    exact trimmed_of_pop hlast hpop
  · cases h
    exact .same

/-- The code of a method loses a plain return at the end. -/
theorem dropReturn_trimmed {s s' : Scope} (h : dropReturn s = .ok s') :
    Trimmed (.ret none) s.stmts s'.stmts := by
  unfold dropReturn at h
  split at h
  · rename_i hlast
    obtain ⟨⟨x, s₁⟩, hpop, rfl⟩ := Except.map_eq_ok.1 h
    exact trimmed_of_pop hlast hpop
  · cases h
    exact .same

end Context

end Restructure
