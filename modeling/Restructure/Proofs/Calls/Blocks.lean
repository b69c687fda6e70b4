import Restructure.Proofs.Calls.Follows
import Restructure.Proofs.Region.Forms

namespace Restructure

/-!
# Traced blocks — blocks whose calls tell where control goes

Every block first calls a method without a result, and one that has a choice asks a test for it. So
the calls tell the blocks apart that control comes to, and there is nothing to fold: no block only
tests, and none only computes a value.

* `Block.Traced` — the forms of such a block.
* `FlowGraph.behaviour` — the run of a graph from a block on; `FlowGraph.behaviour_eq` unfolds it.
* `Block.Traced.simulated` — the statement and the value that such a block becomes.
* `zeroTest_run` — the condition made of a test asks the test.
* `Context.fold_traced`, `Context.ternary_traced`, `Context.loopTest_traced` — nothing is folded.
-/

/-! ### Forms -/

namespace MethodRef

/-- The method only marks a place: it takes nothing and returns nothing. -/
def Marks (f : MethodRef) : Prop :=
  ∃ t, f.parse = .ok t ∧ t.params = [] ∧ t.returnsVoid = true

/-- The method answers a question without parameters. -/
def Asks (f : MethodRef) : Prop :=
  ∃ t, f.parse = .ok t ∧ t.params = [] ∧ t.returnsVoid = false

/-- No method does both. -/
theorem Asks.ne {f g : MethodRef} (hf : f.Asks) (hg : g.Marks) : f ≠ g := by
  rintro rfl
  obtain ⟨t, ht, _, htv⟩ := hf
  obtain ⟨u, hu, _, huv⟩ := hg
  rw [ht] at hu
  cases hu
  rw [htv] at huv
  cases huv

end MethodRef

/-- The target of a switch. -/
def switchTarget (cases : List (Int × Nat)) (default : Nat) (key : Int) : Nat :=
  match cases.find? (·.1 == key) with
  | some k => k.2
  | none => default

/-- A block that calls a method without a result, and that asks a test if it has a choice. The keys
    of a switch are distinct. -/
inductive Block.Traced : Block → Prop
  | goto {f : MethodRef} {t : Nat} (hf : f.Marks) : Traced ⟨[.invoke .static f], .goto t⟩
  | leave {f : MethodRef} {exit : Terminator} (hf : f.Marks) (hexit : exit.successors = []) :
      Traced ⟨[.invoke .static f], exit⟩
  | branch {f g : MethodRef} {r : Relation} {taken fallthrough : Nat} (hf : f.Marks) (hg : g.Asks) :
      Traced ⟨[.invoke .static f, .invoke .static g], .branch (.zero r) taken fallthrough⟩
  | switch {f g : MethodRef} {cases : List (Int × Nat)} {default : Nat} (hf : f.Marks) (hg : g.Asks)
      (hkeys : (cases.map (·.1)).Nodup) :
      Traced ⟨[.invoke .static f, .invoke .static g], .switch cases default⟩

/-! ### Runs -/

variable {answers : Answers}

/-- The run of a block if `next` tells the runs from the other blocks on. -/
def Block.run (answers : Answers) (next : Nat → Run) (b : Block) : Run :=
  Insn.runAll answers (fun st => b.exit.run next st) b.insns []

/-- A call that marks a block is made, and the run goes on. -/
theorem Insn.runAll_marker {f : MethodRef} (hf : f.Marks) {next : List Int → Run}
    (is : List Insn) (st : List Int) :
    Insn.runAll answers next (.invoke .static f :: is) st
      = Run.call f (Insn.runAll answers next is st) := by
  obtain ⟨t, ht, hparams, hvoid⟩ := hf
  rw [Insn.runAll]
  simp [ht, hparams, hvoid]

/-- A call that asks a test leaves its answer. -/
theorem Insn.runAll_test {g : MethodRef} (hg : g.Asks) {next : List Int → Run} (is : List Insn)
    (st : List Int) :
    Insn.runAll answers next (.invoke .static g :: is) st
      = Run.ask answers g fun v => Insn.runAll answers next is (v :: st) := by
  obtain ⟨t, ht, hparams, hvoid⟩ := hg
  rw [Insn.runAll]
  simp [ht, hparams, hvoid]

namespace Block

variable {next next' : Nat → Run} {f g : MethodRef}

/-- A block with a plain jump is marked, and the run goes on at its target. -/
theorem run_goto (hf : f.Marks) (t : Nat) :
    run answers next ⟨[.invoke .static f], .goto t⟩ = Run.call f (next t) := by
  rw [run, Insn.runAll_marker hf, Insn.runAll, Terminator.run]

/-- A block that control leaves is marked, and the run ends. -/
theorem run_leave (hf : f.Marks) {exit : Terminator} (hexit : exit.successors = []) :
    run answers next ⟨[.invoke .static f], exit⟩ = Run.call f Run.halt := by
  rw [run, Insn.runAll_marker hf, Insn.runAll]
  cases exit with
  | goto t | branch test taken fallthrough => cases hexit
  | switch cases default => simp [Terminator.successors] at hexit
  | ret | retValue | throw => rfl

/-- A block with a test is marked, and goes on where the answer leads. -/
theorem run_branch (hf : f.Marks) (hg : g.Asks) (r : Relation) (taken fallthrough : Nat) :
    run answers next ⟨[.invoke .static f, .invoke .static g], .branch (.zero r) taken fallthrough⟩
      = Run.call f (Run.ask answers g fun v =>
          if r.holds v 0 then next taken else next fallthrough) := by
  rw [run, Insn.runAll_marker hf, Insn.runAll_test hg]
  simp only [Insn.runAll, Terminator.run]

/-- A block with a switch is marked, and goes on where the answer leads. -/
theorem run_switch (hf : f.Marks) (hg : g.Asks) (cases : List (Int × Nat)) (default : Nat) :
    run answers next ⟨[.invoke .static f, .invoke .static g], .switch cases default⟩
      = Run.call f (Run.ask answers g fun v => next (switchTarget cases default v)) := by
  rw [run, Insn.runAll_marker hf, Insn.runAll_test hg]
  simp only [Insn.runAll, Terminator.run]
  rfl

/-- What is seen of a traced block depends only on what is seen behind its first call. -/
theorem Traced.run_congr {b : Block} (hb : b.Traced) {count : Nat}
    (h : ∀ t, ∀ i < count, ∀ k, next t i k = next' t i k) (k : Nat) :
    run answers next b count k = run answers next' b count k := by
  cases count with
  | zero =>
    cases hb with
    | goto hf => rw [run_goto hf, run_goto hf]; rfl
    | leave hf hexit => rw [run_leave hf hexit, run_leave hf hexit]
    | branch hf hg => rw [run_branch hf hg, run_branch hf hg]; rfl
    | switch hf hg _ => rw [run_switch hf hg, run_switch hf hg]; rfl
  | succ count =>
    -- behind the test of a branch one more call has been made
    have hask : ∀ (g : MethodRef) (target : Int → Nat),
        Run.ask answers g (fun v => next (target v)) count k
          = Run.ask answers g (fun v => next' (target v)) count k := by
      intro g target
      cases count with
      | zero => rfl
      | succ count => exact congrArg (List.cons _) (h _ count (by omega) (k + 1))
    cases hb with
    | @goto f t hf =>
      rw [run_goto hf, run_goto hf]
      exact congrArg (List.cons _) (h t count (Nat.lt_succ_self count) k)
    | leave hf hexit => rw [run_leave hf hexit, run_leave hf hexit]
    | @branch f g r taken fallthrough hf hg =>
      rw [run_branch hf hg, run_branch hf hg]
      have heq := hask g fun v => if r.holds v 0 then taken else fallthrough
      simp only [apply_ite next, apply_ite next'] at heq
      exact congrArg (List.cons _) heq
    | switch hf hg _ =>
      rw [run_switch hf hg, run_switch hf hg]
      exact congrArg (List.cons _) (hask _ _)

/-- A run of traced blocks does not come to more blocks than calls. -/
theorem runFrom_eq_behaviour {blocks : List Block} (hblocks : ∀ b ∈ blocks, b.Traced)
    {count room : Nat} (hroom : count < room) (n k : Nat) :
    runFrom answers blocks room n count k = behaviour answers blocks n count k := by
  induction count using Nat.strongRecOn generalizing room n k with
  | ind count ih =>
    cases room with
    | zero => exact absurd hroom (Nat.not_lt_zero count)
    | succ room =>
      show runFrom answers blocks (room + 1) n count k
        = runFrom answers blocks (count + 1) n count k
      rw [runFrom, runFrom]
      cases hb : blocks[n]? with
      | none => rfl
      | some b =>
        refine (hblocks b (List.mem_of_getElem? hb)).run_congr (fun t i hi k => ?_) k
        rw [ih i hi (by omega), ih i hi hi]

end Block

namespace FlowGraph

/-- All blocks of the graph are traced. -/
def Traced (g : FlowGraph) : Prop := ∀ b ∈ g.graph.nodes, b.Traced

/-- The run from a block of a graph on. -/
def behaviour (g : FlowGraph) (answers : Answers) (n : Nat) : Run :=
  Block.behaviour answers g.graph.nodes n

/-- The blocks of a traced graph are traced. -/
theorem Traced.block {g : FlowGraph} (hg : g.Traced) {n : Nat} {b : Block}
    (hb : g.block? n = some b) : b.Traced := hg b (List.mem_of_getElem? hb)

/-- The run from a block on is the run of the block and of what it leads to. -/
theorem behaviour_eq {g : FlowGraph} (hg : g.Traced) {n : Nat} {b : Block}
    (hb : g.block? n = some b) : g.behaviour answers n = b.run answers (g.behaviour answers) := by
  funext count k
  have hb' : g.graph.nodes[n]? = some b := hb
  show Block.runFrom answers g.graph.nodes (count + 1) n count k = _
  rw [Block.runFrom, hb']
  refine (hg.block hb).run_congr (fun t i hi k => ?_) k
  exact Block.runFrom_eq_behaviour hg hi t k

end FlowGraph

/-! ### Simulated blocks -/

namespace Simulation

variable {config : Config} {m m' : Simulation} {f g : MethodRef}

/-- The call that marks a block becomes a statement. -/
theorem step_marker (hf : f.Marks) (prev next : Option Insn) :
    step config m prev (.invoke .static f) next
      = (m.append (.eval (.staticCall f []))).map alone := by
  obtain ⟨t, ht, hparams, hvoid⟩ := hf
  simp [step, invoke, ht, hparams, hvoid, Error.ofDescriptor, Except.mapError, Operands.popMany,
    Dispatch.hasReceiver, emitCall, bind, Except.bind]

/-- The call that asks a test stays on the stack. -/
theorem step_test (hg : g.Asks) (prev next : Option Insn) :
    step config m prev (.invoke .static g) next
      = .ok (alone (m.pushOn m.stack (.staticCall g []))) := by
  obtain ⟨t, ht, hparams, hvoid⟩ := hg
  simp [step, invoke, ht, hparams, hvoid, Error.ofDescriptor, Except.mapError, Operands.popMany,
    Dispatch.hasReceiver, emitCall, bind, Except.bind, Except.map, pushOn]

/-- A block without a test adds one statement. -/
theorem run_marker (hf : f.Marks) (h : run config m [.invoke .static f] = .ok m') :
    m'.scope.stmts = m.scope.stmts ++ [.eval (.staticCall f [])] ∧ m'.stack = m.stack := by
  obtain ⟨_, _, h⟩ := Except.bind_eq_ok.1 h
  obtain ⟨out, hout, h⟩ := Except.bind_eq_ok.1 h
  cases h
  rw [step_marker hf] at hout
  obtain ⟨m₁, hm₁, rfl⟩ := Except.map_eq_ok.1 hout
  obtain ⟨scope, hscope, rfl⟩ := Except.map_eq_ok.1 hm₁
  exact ⟨Scope.stmts_of_append hscope, rfl⟩

/-- A block with a test adds one statement, and leaves the test on the stack. -/
theorem run_marker_test (hf : f.Marks) (hg : g.Asks)
    (h : run config m [.invoke .static f, .invoke .static g] = .ok m') :
    m'.scope.stmts = m.scope.stmts ++ [.eval (.staticCall f [])] ∧
      m'.stack = .value (.staticCall g []) :: m.stack := by
  obtain ⟨_, _, h⟩ := Except.bind_eq_ok.1 h
  obtain ⟨out, hout, h⟩ := Except.bind_eq_ok.1 h
  rw [step_marker hf] at hout
  obtain ⟨m₁, hm₁, rfl⟩ := Except.map_eq_ok.1 hout
  obtain ⟨scope, hscope, rfl⟩ := Except.map_eq_ok.1 hm₁
  obtain ⟨_, _, h⟩ := Except.bind_eq_ok.1 h
  obtain ⟨out, hout, h⟩ := Except.bind_eq_ok.1 h
  cases h
  rw [step_test hg] at hout
  cases hout
  exact ⟨Scope.stmts_of_append hscope, rfl⟩

end Simulation

/-- A traced block adds one call. -/
theorem Block.Traced.simulated {config : Config} {m m' : Simulation} {b : Block} (hb : b.Traced)
    (h : Simulation.run config m b.insns = .ok m') :
    ∃ f, m'.scope.stmts = m.scope.stmts ++ [.eval (.staticCall f [])] := by
  cases hb with
  | @goto f t hf => exact ⟨f, (Simulation.run_marker hf h).1⟩
  | @leave f exit hf _ => exact ⟨f, (Simulation.run_marker hf h).1⟩
  | @branch f g r taken fallthrough hf hg => exact ⟨f, (Simulation.run_marker_test hf hg h).1⟩
  | @switch f g cases default hf hg _ => exact ⟨f, (Simulation.run_marker_test hf hg h).1⟩

/-! ### Conditions -/

section Conditions

variable {g : MethodRef} {r : Relation} {holds fails : Run}

/-- A test of a truth value asks the same as a comparison with zero. -/
theorem zeroTest_run : (zeroTest (.staticCall g []) r).run answers holds fails
    = Run.ask answers g fun v => if r.holds v 0 then holds else fails := by
  unfold zeroTest
  simp only
  split
  · rename_i h
    obtain rfl := h.2
    rw [Cond.run, Expr.ask]
    simp [truth, Relation.holds]
  · split
    · rename_i h
      obtain rfl := h.2
      rw [Cond.run, Expr.ask]
      simp [truth, Relation.holds]
    · rw [Cond.run]
      rfl

/-- The opposite of a relation holds exactly if the relation does not. -/
theorem Relation.holds_negate (r : Relation) (a b : Int) : r.negate.holds a b = !r.holds a b := by
  cases r <;> simp [negate, holds, bne, ← decide_not]

/-- The opposite condition asks the same test. -/
theorem negate_zeroTest_run : (zeroTest (.staticCall g []) r).negate.run answers holds fails
    = (zeroTest (.staticCall g []) r).run answers fails holds := by
  unfold zeroTest
  simp only
  split
  · rw [Cond.negate, Cond.run, Cond.run, Expr.ask, Expr.ask]
    simp [truth]
  · split
    · rw [Cond.negate, Cond.run, Cond.run, Expr.ask, Expr.ask]
      simp [truth]
    · rw [Cond.negate, Cond.run, Cond.run]
      refine congrArg (Expr.ask answers (.staticCall g [])) (funext fun v => ?_)
      show (if r.negate.holds v 0 then holds else fails) = if r.holds v 0 then fails else holds
      rw [Relation.holds_negate]
      cases r.holds v 0 <;> rfl

end Conditions

/-! ### Nothing is folded -/

namespace Context

variable {c : Context} {scope : Scope} {n : Nat}

/-- A block in a scope of its own leaves a call behind. -/
theorem scratch_traced (hc : c.graph.Traced) {m : Simulation} (h : c.scratch? n scope = some m) :
    ∃ f, m.scope.stmts = [.eval (.staticCall f [])] := by
  unfold scratch? at h
  split at h
  · rename_i b hb
    cases hrun : Simulation.run c.config (.start (scope.child .block)) b.insns with
    | error e =>
      rw [hrun] at h
      cases h
    | ok m' =>
      rw [hrun] at h
      cases h
      exact (hc.block hb).simulated hrun
  · cases h

/-- No traced block is empty when it is simulated alone. -/
theorem scratch_not_isEmpty (hc : c.graph.Traced) {m : Simulation}
    (h : c.scratch? n scope = some m) : m.scope.isEmpty = false := by
  obtain ⟨f, hf⟩ := scratch_traced hc h
  rw [Scope.isEmpty, hf]
  rfl

/-- No block only tests. -/
theorem pureTest_traced (hc : c.graph.Traced) (n : Nat) (scope : Scope) :
    c.pureTest n scope = none := by
  cases h : c.pureTest n scope with
  | none => rfl
  | some test =>
    obtain ⟨b, _, h⟩ := Option.bind_eq_some_iff.1 h
    split at h
    · obtain ⟨m, hm, h⟩ := Option.bind_eq_some_iff.1 h
      rw [scratch_not_isEmpty hc hm, Bool.false_and] at h
      cases h
    · cases h

/-- A chain ends where it begins. -/
theorem fold_traced (hc : c.graph.Traced) (eligible : Nat → Bool) (head : BranchTest) (n : Nat) :
    head.fold c scope eligible n = (head, [n]) := by
  have hnone : head.extension? c scope eligible [n] = none := by
    simp [BranchTest.extension?, pureTest_traced hc]
  unfold BranchTest.fold
  cases c.config.maxChain - 1 with
  | zero => rfl
  | succ room => rw [BranchTest.foldWithin, hnone]

/-- No loop of a traced graph tests first, as its header makes a call. -/
theorem loopTest_traced (hc : c.graph.Traced) (l : Loop) (written : List Nat) :
    c.loopTest? l written scope = none := by
  unfold loopTest?
  rw [pureTest_traced hc]
  rfl

/-- No branch is a conditional value. -/
theorem ternary_traced (hc : c.graph.Traced) {p : Position} {m : Simulation} {test : BranchTest}
    {chain : List Nat} {form : Collapsed} : c.ternary? p m test chain ≠ .ok (some form) := by
  have hshape : ∀ {n : Nat} {shape : ArmShape}, ¬c.Shaped m.scope n shape := by
    intro n shape h
    cases h with
    | assign _ _ hm hstmts _ | ret _ _ hm hstmts _ =>
      obtain ⟨f, hf⟩ := scratch_traced hc hm
      rw [hf] at hstmts
      cases hstmts
  intro h
  cases ternary_inv h with
  | value htaken _ _ =>
    cases htaken with
    | leaf _ _ _ hm hempty _ =>
      rw [scratch_not_isEmpty hc hm] at hempty
      cases hempty
    | fork _ hhead _ _ _ _ =>
      rw [pureTest_traced hc] at hhead
      cases hhead
  | assign _ _ hfall _ => exact hshape hfall
  | ret _ hfall _ => exact hshape hfall

end Context

end Restructure
