import Restructure.Proofs.Region.Finishes
import Restructure.Proofs.Region.Kept
import Restructure.Proofs.SingleCalls

namespace Restructure

/-!
# Kept calls — what becomes of the calls of a method

Every static call of a block that can be reached is named in the recovered code, or it waits on the
stack where the outermost region ends. There nobody asks whether values are left, as is done at the
end of every arm, loop body and flat block; so values can be left behind a return or a throw, and
these values are lost, together with their calls.

* `Context.Flattens.keeps`, `Context.Derives.left` — flat code and the code of a graph.
* `Context.Derives.drains` — values are left only where control leaves the method.
* `Method.recover_calls_kept` — the calls of every method.
* `Method.dropped_call_missed` — a call that is lost.
-/

/-! ### Flat code -/

namespace Context

variable {c : Context} {f : MethodRef} {b n : Nat} {scope scope' body : Scope}

/-- The jumps at the end of a block and the stack behind them name what the stack before them
    named. -/
theorem flatExit_keeps {exit : Terminator} {st st' : Operands} {jumps : List Stmt}
    (h : flatExit n exit st = .ok (jumps, st')) (hjumps : ∀ s ∈ jumps, s.Avoids (Node.Calls f))
    (hst' : st'.Avoids (Node.Calls f)) : st.Avoids (Node.Calls f) := by
  cases exit with
  | goto t | ret =>
    cases h
    exact hst'
  | retValue | throw =>
    obtain ⟨⟨e, st₁⟩, hpop, h⟩ := Except.bind_eq_ok.1 h
    cases h
    have hs := hjumps _ (List.mem_singleton_self _)
    rw [Simulation.pop_ok hpop]
    exact hst'.push (hs.parts (by rw [Stmt.nodes]))
  | branch test taken fallthrough =>
    obtain ⟨⟨cond, st₁⟩, hcond, h⟩ := Except.bind_eq_ok.1 h
    cases h
    have hs := hjumps _ (List.mem_cons_self ..)
    exact branchCondition_keeps hcond (hs.parts (by rw [Stmt.nodes])) hst'
  | switch cases default =>
    obtain ⟨⟨key, st₁⟩, hpop, h⟩ := Except.bind_eq_ok.1 h
    simp only at h
    split at h
    · cases h
    · -- only a key without effects is tested again and again
      rename_i hpure
      cases h
      rw [Simulation.pop_ok hpop]
      exact hst'.push (Expr.uncalled_of_pure (by simpa using hpure))

/-- Flat code is written together with the calls of its blocks. -/
theorem Flattens.keeps (hb : c.CallsAt f b) {ns targets : List Nat}
    (h : c.Flattens ns scope scope' targets) (hs : scope'.Avoids (Node.Calls f)) :
    scope.Avoids (Node.Calls f) ∧ b ∉ ns := by
  induction h with
  | nil => exact ⟨hs, List.not_mem_nil⟩
  | cons hk hlabel hrun hexit hjumps _ ih =>
    obtain ⟨hrest, hns⟩ := ih hs
    -- nothing is left on the stack, so the statements and the jumps hold all that was computed
    obtain ⟨hm, hjumped⟩ := hrest.of_appendAll (stmts_of_appendAll hjumps)
    have hstack := flatExit_keeps hexit hjumped Operands.avoids_nil
    obtain ⟨hbefore, hne⟩ := (block_keeps hb hk hrun Operands.allComplete_nil).2 ⟨hstack, hm⟩
    exact ⟨(hbefore.scope.of_appendAll (Scope.stmts_of_append hlabel)).1,
      List.not_mem_cons_of_ne_of_not_mem hne.symm hns⟩

/-- Flat code names the calls of all blocks that can be reached. -/
theorem flatten_keeps (hb : c.CallsAt f b) (hreach : c.graph.isReachable b = true)
    (h : c.flatten scope = .ok scope') : ¬scope'.Avoids (Node.Calls f) := by
  obtain ⟨targets, hblocks⟩ := flattens_of_flatten h
  exact fun hs => (hblocks.keeps hb hs).2 (mem_reachableBlocks.2 hreach)

/-! ### Structured code -/

open Pass

/-- What was left out is written behind the structured code, if anything was. -/
theorem Completes.keeps (hb : c.CallsAt f b) (hreach : c.graph.isReachable b = true)
    {p p' : Progress} (h : c.Completes scope p body p') (hsettled : Settled c p → b ∈ p.written)
    (hs : body.Avoids (Node.Calls f)) : scope.Avoids (Node.Calls f) ∧ b ∈ p.written := by
  have hmissing : b ∉ c.unwritten p → b ∈ p.written := by
    intro hnot
    by_contra hfresh
    exact hnot (mem_unwritten.2 ⟨hreach, hfresh⟩)
  cases h with
  | dropped hrest hdrop =>
    refine ⟨hs.of_trimmed (Stmt.uncalled rfl) (dropReturn_trimmed hdrop), ?_⟩
    -- no block is missing, or none can be because there are to be no jumps to labels
    rcases hrest with hnone | hoff
    · exact hmissing (hnone ▸ List.not_mem_nil)
    · exact hsettled (.inl hoff)
  | flat _ _ hcode =>
    obtain ⟨hscope, hnot⟩ := hcode.keeps hb hs
    exact ⟨hscope, hmissing hnot⟩

/-- The code of a graph and the values that are left behind its outermost region name the calls of
    all blocks that can be reached. -/
theorem Derives.left (hb : c.CallsAt f b) (hreach : c.graph.isReachable b = true)
    {labels : List Nat} {m : Simulation} {p p' : Progress}
    (hregion : c.Derives labels (.region [] FlowGraph.entry none (.start scope) m) {} p)
    (htail : c.Completes m.scope p body p') (hbody : body.Avoids (Node.Calls f)) :
    ¬m.stack.Avoids (Node.Calls f) := by
  intro hstack
  obtain ⟨hscope, hmem⟩ := htail.keeps hb hreach (fun hs => hregion.written hs hreach) hbody
  obtain ⟨-, hcode, -⟩ := hregion.keeps hb Operands.allComplete_nil
  exact List.not_mem_nil (hcode.fresh ⟨hstack, hscope⟩ hmem)

end Context

/-! ### Values that are left -/

/-- The statement leaves the method. -/
def Stmt.leavesMethod : Stmt → Bool
  | .ret _ | .throw _ => true
  | _ => false

/-- Values are left only behind a statement that leaves the method. -/
def Simulation.Drained (m : Simulation) : Prop :=
  m.stack = [] ∨ ∃ s, m.scope.last? = some s ∧ s.leavesMethod = true

/-- Where no construct is around and the region has no end, the code of a region is drained, and so
    is a part of it behind which control does not go on. -/
def Piece.Drains : Piece → Prop
  | .region frames _ stop _ m' => frames = [] → stop = none → m'.Drained
  | .onward frames stop r m' => frames = [] → stop = none → (r.1 = none → r.2.Drained) → m'.Drained
  | .entered _ _ _ _ r | .block _ _ _ _ r | .exit _ _ _ _ _ r | .branch _ _ _ _ _ _ r
  | .plain _ _ _ _ _ r => r.1 = none → r.2.Drained
  | _ => True

namespace Context

variable {c : Context} {labels : List Nat} {p p' : Progress}

/-- Behind a statement that leaves the method. -/
theorem drained_of_append {s s' : Scope} {st : Operands} {t : Stmt} (happend : s.append t = .ok s')
    (ht : t.leavesMethod = true) : Simulation.Drained ⟨s', st⟩ :=
  .inr ⟨t, by rw [Scope.last?, Scope.stmts_of_append happend, List.getLast?_concat], ht⟩

/-- A branch that is the end of the code returns. -/
theorem CollapsesTo.drained {pos : Position} {scope s : Scope} {test : BranchTest}
    {blocks : List Nat} {stmt : Stmt} {merge : Option Nat} {st : Operands}
    (h : c.CollapsesTo pos scope test (.stmt blocks stmt merge))
    (happend : scope.append stmt = .ok s) (hnone : merge = none) : Simulation.Drained ⟨s, st⟩ := by
  cases h with
  | assign _ _ _ _ => cases hnone
  | ret _ _ _ => exact drained_of_append happend rfl

/-- Values are left only where control leaves the method: a loop and a switch are written over an
    empty stack, and behind any other construct control goes on. -/
theorem Derives.drains {piece : Piece} (h : c.Derives labels piece p p') : piece.Drains := by
  induction h with
  | @stop frames n stop m p hjump =>
    rintro - rfl
    exact nomatch (c.jump_inv _ n).1 hjump
  | @nextRound frames n stop m s p hjump _ =>
    rintro rfl -
    exact nomatch (c.jump_inv _ n).2.1 hjump
  | @leave frames n stop m s p hjump _ =>
    rintro rfl -
    exact nomatch (c.jump_inv _ n).2.2 hjump
  | goto _ _ hempty _ => exact fun _ _ => .inl hempty
  | enter _ _ _ _ ihcode ihrest => exact fun hframes hstop => ihrest hframes hstop ihcode
  | done => exact fun _ _ h => h rfl
  | next _ ih => exact fun hframes hstop _ => ih hframes hstop
  | here _ _ ih | block _ _ _ ih | exitBranch _ _ _ ih | plain _ _ _ ih => exact ih
  | endless _ _ hempty _ _ _ _ _ _ _ _ _ _ => exact fun _ => .inl hempty
  | exitRet happend | exitValue _ happend | exitThrow _ happend =>
    exact fun _ => drained_of_append happend rfl
  | exitSwitch _ _ _ _ _ => exact fun _ => .inl rfl
  | collapsedStmt _ hform happend => exact (ternary_inv hform).drained happend
  | whileLoop _ _ _ _ _ _ _ _ _ | doLoop _ _ _ _ _ _ _ _ _ _ _ _ _ _ | exitGoto
  | collapsedValue _ _ | oneArm _ _ _ _ _ | twoArms _ _ _ _ _ _ _ _ _ | jump _ _ _ _ =>
    exact fun hnone => nomatch hnone
  | _ => exact trivial

end Context

/-! ### Methods -/

namespace Method

variable {config : Config} {m : Method} {r : RecoveredBody} {f : MethodRef}

/-- A block to which control can come from the entry calls the static method. -/
def Invokes (m : Method) (f : MethodRef) : Prop :=
  ∃ g n b, FlowGraph.ofBlocks m.blocks = .ok g ∧ g.graph.links.Reachable FlowGraph.entry n ∧
    m.blocks[n]? = some b ∧ .invoke .static f ∈ b.insns

/-- What there is where the code of a method ends: the statements of the outermost region, or those
    of the flat code, and the values that are left on the stack. -/
inductive Ends (config : Config) (m : Method) (r : RecoveredBody) : Simulation → Prop
  | structured {g : FlowGraph} {locals : Locals} {labels : List Nat} {s : Simulation}
      {p p' : Progress} {body : Scope} (hgraph : FlowGraph.ofBlocks m.blocks = .ok g)
      (hregion : (Context.region ⟨config, g⟩ labels (Context.depth ⟨config, g⟩) [] FlowGraph.entry
        none (.start (.withLocals .method locals))).run {} = .ok (s, p))
      (htail : (Context.tail ⟨config, g⟩ s.scope).run p = .ok (body, p'))
      (hlock : body.lock = .ok r.body) : Ends config m r s
  | flat {g : FlowGraph} {locals : Locals} {s : Scope}
      (hgraph : FlowGraph.ofBlocks m.blocks = .ok g)
      (hflat : Context.flatten ⟨config, g⟩ (.withLocals .method locals) = .ok s)
      (hlock : s.lock = .ok r.body) : Ends config m r (.start s)

/-- The code of a method ends somewhere. -/
theorem exists_ends (hcode : m.isBodyless = false) (h : m.recover config = .ok r) :
    ∃ s, m.Ends config r s := by
  obtain ⟨body, _, horigin, hlock, _⟩ := recover_inv h
  cases horigin with
  | bodyless hbodyless _ => exact nomatch hcode.symm.trans hbodyless
  | flat hgraph hflat => exact ⟨_, .flat hgraph hflat hlock⟩
  | structured hgraph hstructured =>
    obtain ⟨labels, hpass, _⟩ := Context.exists_pass_of_passes hstructured
    obtain ⟨p', hrun, _, _⟩ := Context.pass_inv hpass
    obtain ⟨s, p, hregion, htail⟩ := Pass.run_bind_iff.1 hrun
    exact ⟨s, .structured hgraph hregion htail hlock⟩

/-- There values are left only where control leaves the method. -/
theorem Ends.drained {s : Simulation} (h : m.Ends config r s) : s.Drained := by
  cases h with
  | structured _ hregion _ _ =>
    exact (Context.region_derives _ _ _ _ _ _ _ _ _ _ hregion).drains rfl rfl
  | flat _ _ _ => exact .inl rfl

/-- A method that is invoked and that the code does not name waits in a value that is left. -/
theorem Ends.keeps {s : Simulation} (h : m.Ends config r s) (hf : m.Invokes f)
    (hbody : r.body.Avoids (Node.Calls f)) : ¬s.stack.Avoids (Node.Calls f) := by
  obtain ⟨g, n, b, hg, hreach, hb, hmem⟩ := hf
  have hreach : g.isReachable n = true := g.isReachable_iff.2 hreach
  have hcalls : Context.CallsAt ⟨config, g⟩ f n :=
    ⟨b, by rw [FlowGraph.block?, FlowGraph.nodes_of_ofBlocks hg, hb], hmem⟩
  cases h with
  | structured hgraph hregion htail hlock =>
    obtain rfl := Except.ok.inj (hg.symm.trans hgraph)
    exact (Context.region_derives _ _ _ _ _ _ _ _ _ _ hregion).left hcalls hreach
      (Context.tail_completes _ _ htail) (hbody.of_eq (Scope.stmts_of_lock hlock))
  | flat hgraph hflat hlock =>
    obtain rfl := Except.ok.inj (hg.symm.trans hgraph)
    exact absurd (hbody.of_eq (Scope.stmts_of_lock hlock))
      (Context.flatten_keeps hcalls hreach hflat)

/-- Every static call of a block that can be reached is named in the code, or it waits in a value
    that is left where control leaves the method. -/
theorem recover_calls_kept (hcode : m.isBodyless = false) (h : m.recover config = .ok r) :
    ∃ s, m.Ends config r s ∧ s.Drained ∧ ∀ f, m.Invokes f →
      (∃ x ∈ r.body.nodes, x.calls f = true) ∨
        ∃ x ∈ s.stack.flatMap Operand.nodes, x.calls f = true := by
  obtain ⟨s, hs⟩ := exists_ends hcode h
  refine ⟨s, hs, hs.drained, fun f hf => or_iff_not_imp_left.2 fun hnone => ?_⟩
  have hbody : r.body.Avoids (Node.Calls f) :=
    Scope.Avoids.iff_nodes.2 fun x hx hcalls => hnone ⟨x, hx, hcalls⟩
  by_contra hleft
  refine hs.keeps hf hbody fun e he x hx hcalls => hleft ⟨x, ?_, hcalls⟩
  exact List.mem_flatMap.2 ⟨.value e, he, hx⟩

/-- A method that returns while the result of a call still waits on the stack. -/
def dropped : Method := ofBlocks [⟨[.invoke .static ⟨"T", "g", "()I"⟩], .ret⟩]

/-- The method invokes the call. -/
theorem dropped_invokes : dropped.Invokes ⟨"T", "g", "()I"⟩ := by
  have hgraph : (FlowGraph.ofBlocks dropped.blocks).toOption.map (fun _ => ()) = some () := by
    decide +kernel
  obtain ⟨g, hg, _⟩ := exists_of_map_toOption hgraph
  exact ⟨g, 0, _, hg, .refl _ _, rfl, List.mem_singleton_self _⟩

/-- The recovered code does not hold the call. -/
theorem dropped_recovered : ∃ r, dropped.recover {} = .ok r ∧
    ∀ x ∈ r.body.nodes, x.calls ⟨"T", "g", "()I"⟩ ≠ true := by
  have heval : (dropped.recover {}).toOption.map
      (fun r => r.body.nodes.countP (Node.calls ⟨"T", "g", "()I"⟩)) = some 0 := by decide +kernel
  obtain ⟨r, hr, hcount⟩ := exists_of_map_toOption heval
  exact ⟨r, hr, List.countP_eq_zero.1 hcount⟩

/-- The call is left on the stack behind the return. -/
theorem dropped_call_left :
    dropped.isBodyless = false ∧ ∃ r, dropped.recover {} = .ok r ∧
      ∃ s, dropped.Ends {} r s ∧ s.Drained ∧
        ∃ x ∈ s.stack.flatMap Operand.nodes, x.calls ⟨"T", "g", "()I"⟩ = true := by
  obtain ⟨r, hr, hnone⟩ := dropped_recovered
  obtain ⟨s, hends, hdrained, hkept⟩ := recover_calls_kept (m := dropped) rfl hr
  refine ⟨rfl, r, hr, s, hends, hdrained, (hkept _ dropped_invokes).resolve_left ?_⟩
  rintro ⟨x, hx, hcalls⟩
  exact hnone x hx hcalls

/-- Calls can be lost, even if all calls are static and no method is called twice. -/
theorem dropped_call_missed :
    ¬∀ (config : Config) (m : Method) (r : RecoveredBody), m.isBodyless = false →
      (∀ dispatch f, .invoke dispatch f ∈ m.insns → dispatch = .static) →
        (m.insns.filterMap Insn.callee?).Nodup → m.recover config = .ok r →
          ∀ f, m.Invokes f → ∃ x ∈ r.body.nodes, x.calls f = true := by
  intro hall
  obtain ⟨r, hr, hnone⟩ := dropped_recovered
  have hstatic : ∀ dispatch f, .invoke dispatch f ∈ dropped.insns → dispatch = .static := by
    intro dispatch f hmem
    cases List.mem_singleton.1 hmem
    rfl
  obtain ⟨x, hx, hcalls⟩ := hall {} dropped r rfl hstatic (by decide) hr _ dropped_invokes
  exact hnone x hx hcalls

end Method

end Restructure
