import Restructure.Proofs.Outcomes

namespace Restructure

/-!
# Recovery — what has flat code is recovered

If every block can be written flat, each starts with an empty stack and ends with the operands of
its terminator. Then structured code fails only for want of a structured form, and for this failure
there is the flat code.

* `Context.balanced_of_flatten` — the blocks of a graph that has flat code.
* `Method.recoverGraph_of_flatten` — the code of a graph with such blocks.
* `Method.recover_of_flatten` — the code of a method.
-/

namespace Context

variable {c : Context} {n : Nat} {scope scope' : Scope} {st st' : Operands} {config : Config}

open Pass

/-! ### Flat code -/

/-- A condition takes its operands from the stack, and nothing else. -/
theorem layout_of_branchCondition {test : Branch} {cond : Cond}
    (h : branchCondition test st = .ok (cond, st')) :
    st.layout = List.replicate test.pops .value ++ st'.layout := by
  obtain ⟨es, hes, rfl⟩ := stack_of_branchCondition h
  have hvalues : (es.map Operand.value).map Operand.slot = List.replicate es.length .value := by
    rw [List.map_map, ← List.map_const']
    rfl
  rw [Operands.layout, List.map_append, hvalues, hes]
  rfl

/-- The jumps of a block take the operands of its terminator. -/
theorem layout_of_flatExit {exit : Terminator} {jumps : List Stmt}
    (h : flatExit n exit st = .ok (jumps, st')) :
    st.layout = List.replicate exit.pops .value ++ st'.layout := by
  cases exit with
  | goto t | ret =>
    cases h
    rfl
  | retValue | throw =>
    obtain ⟨⟨e, st₁⟩, he, h⟩ := Except.bind_eq_ok.1 h
    cases h
    rw [Simulation.pop_ok he]
    rfl
  | branch test taken fallthrough =>
    obtain ⟨⟨cond, st₁⟩, hcond, h⟩ := Except.bind_eq_ok.1 h
    cases h
    exact layout_of_branchCondition hcond
  | switch cases default =>
    obtain ⟨⟨key, st₁⟩, hkey, h⟩ := Except.bind_eq_ok.1 h
    simp only at h
    split at h
    · cases h
    · cases h
      rw [Simulation.pop_ok hkey]
      rfl

/-- A block that has been written flat is balanced. -/
theorem balanced_of_flatBlock {b : Block} {targets : List Nat} (hb : c.graph.block? n = some b)
    (hmoves : ∀ i ∈ b.insns, Simulation.movesSlots i = false)
    (h : c.flatBlock n scope = .ok (scope', targets)) : b.Balanced := by
  unfold flatBlock at h
  rw [hb] at h
  obtain ⟨scope₁, hlabel, h⟩ := Except.bind_eq_ok.1 h
  obtain ⟨m, hrun, h⟩ := Except.bind_eq_ok.1 h
  obtain ⟨⟨jumps, st⟩, hexit, h⟩ := Except.bind_eq_ok.1 h
  obtain ⟨scope₂, _, h⟩ := Except.bind_eq_ok.1 h
  simp only at h
  split at h
  · cases h
  · rename_i hempty
    obtain rfl : st = [] := by simpa using hempty
    have hlayout := Simulation.run_layout (.start (Scope.unlocked_of_append hlabel)) hmoves hrun
    rw [layout_of_flatExit hexit] at hlayout
    exact hlayout.trans (congrArg some (List.append_nil _))

/-- Blocks that are written flat are balanced. -/
theorem balanced_of_flatBlocks {ns targets : List Nat}
    (hmoves : ∀ n b, c.graph.block? n = some b → ∀ i ∈ b.insns, Simulation.movesSlots i = false)
    (h : c.flatBlocks scope ns = .ok (scope', targets)) :
    ∀ n ∈ ns, ∀ b, c.graph.block? n = some b → b.Balanced := by
  induction ns generalizing scope targets with
  | nil => simp
  | cons k ns ih =>
    obtain ⟨⟨scope₁, ts⟩, hk, h⟩ := Except.bind_eq_ok.1 h
    obtain ⟨⟨scope₂, us⟩, hns, h⟩ := Except.bind_eq_ok.1 h
    cases h
    intro n hn b hb
    rcases List.mem_cons.1 hn with rfl | hn
    · exact balanced_of_flatBlock hb (hmoves n b hb) hk
    · exact ih hns n hn b hb

/-- The blocks of a graph that has flat code are balanced, if all of them are reachable. -/
theorem balanced_of_flatten (hreach : ∀ n < c.graph.size, c.graph.isReachable n = true)
    (hmoves : ∀ n b, c.graph.block? n = some b → ∀ i ∈ b.insns, Simulation.movesSlots i = false)
    (h : c.flatten scope = .ok scope') : c.graph.Balanced := by
  intro n b hb
  obtain ⟨⟨s, targets⟩, hblocks, _⟩ := Except.map_eq_ok.1 h
  have hn : n < c.graph.size := (List.getElem?_eq_some_iff.1 hb).1
  exact balanced_of_flatBlocks hmoves hblocks n (mem_reachableBlocks.2 (hreach n hn)) b hb

end Context

namespace Method

variable {config : Config} {m : Method}

/-- The flat code is there if the structured code is not. -/
theorem recoverGraph_of_flatten {c : Context} {start flat : Scope} (hg : c.graph.Balanced)
    (hon : c.config.fallback = true) (hstart : start.locked = false)
    (hflat : c.flatten start = .ok flat) :
    ∃ body fallback, recoverGraph c start = .ok (body, fallback) ∧ body.locked = false := by
  have hopened : start.Opened start.kind := ⟨hstart, rfl⟩
  have hgives := Context.structured_gives (c := c) (fun ht : c.graph.Balanced => ht) hopened
  unfold recoverGraph
  cases hr : c.structured start with
  | ok r => exact ⟨r.body, r.hasJumps, rfl, (hgives.of_ok hr).unlocked⟩
  | error e =>
    have hkind := (hgives.of_error hr).2 hg
    have hopen := (Context.flatten_gives (fun ht : c.graph.Balanced => ht) hopened).of_ok hflat
    refine ⟨flat, true, ?_, hopen.unlocked⟩
    simp only
    rw [if_pos ⟨hkind, hon⟩, hflat]
    rfl

/-- With the fallback on, a method is recovered if it has flat code, all of its blocks are reachable,
    and no instruction in them moves more operands or fewer depending on their types. -/
theorem recover_of_flatten {g : FlowGraph} {locals : Locals} {flat : Scope}
    (hon : config.fallback = true) (hvalid : m.validate = .ok ())
    (hgraph : FlowGraph.ofBlocks m.blocks = .ok g)
    (hreach : ∀ n < g.size, g.isReachable n = true)
    (hmoves : ∀ b ∈ m.blocks, ∀ i ∈ b.insns, Simulation.movesSlots i = false)
    (hlocals : m.parameterLocals = .ok locals)
    (hflat : Context.flatten ⟨config, g⟩ (.withLocals .method locals) = .ok flat) :
    ∃ r, m.recover config = .ok r := by
  have hbalanced : g.Balanced :=
    Context.balanced_of_flatten (c := ⟨config, g⟩) hreach (fun n b hb => by
      refine hmoves b ?_
      rw [← FlowGraph.nodes_of_ofBlocks hgraph]
      exact List.mem_of_getElem? hb) hflat
  obtain ⟨body, fallback, hbody, hopen⟩ :=
    recoverGraph_of_flatten (c := ⟨config, g⟩) hbalanced hon rfl hflat
  unfold recover
  rw [hvalid, hlocals]
  show ∃ r, (if m.isBodyless then _ else _) = Except.ok r
  split
  · exact ⟨_, rfl⟩
  · rw [hgraph]
    show ∃ r, (recoverGraph ⟨config, g⟩ (.withLocals .method locals) >>= _) = Except.ok r
    rw [hbody]
    show ∃ r, (body.lock >>= _) = Except.ok r
    rw [Scope.lock_unlocked hopen]
    exact ⟨_, rfl⟩

/-- Behind the first increment the second one seems to come before the read of the local, and what
    is read cannot be copied then. -/
def reread : Method :=
  { ofBlocks
      [⟨[.increment 0 1], .goto 1⟩,
        ⟨[.load 0 "I", .increment 0 1, .load 0 "I", .dup, .binary .add "I", .binary .add "I"],
          .retValue⟩] with
    descriptor := "(I)I" }

/-- The method is recovered all the same, with flat code. -/
theorem reread_recovers : ∃ r, reread.recover {} = .ok r ∧ r.fallback = true := by
  have heval : (do
      reread.validate
      let locals ← reread.parameterLocals
      let g ← FlowGraph.ofBlocks reread.blocks
      let _ ← Context.flatten ⟨{}, g⟩ (.withLocals .method locals)
      let r ← reread.recover {}
      return (decide (∀ n < g.size, g.isReachable n = true), r.fallback)).toOption
        = some (true, true) := by decide +kernel
  obtain ⟨⟨⟩, hvalid, h⟩ := Except.bind_eq_ok.1 (Except.eq_ok_of_toOption heval)
  obtain ⟨locals, hlocals, h⟩ := Except.bind_eq_ok.1 h
  obtain ⟨g, hgraph, h⟩ := Except.bind_eq_ok.1 h
  obtain ⟨flat, hflat, h⟩ := Except.bind_eq_ok.1 h
  obtain ⟨r, hr, h⟩ := Except.bind_eq_ok.1 h
  obtain ⟨hreach, hfallback⟩ := Prod.mk.inj (Except.ok.inj h)
  obtain ⟨r', hr'⟩ := recover_of_flatten rfl hvalid hgraph (of_decide_eq_true hreach)
    (by decide) hlocals hflat
  obtain rfl : r = r' := Except.ok.inj (hr.symm.trans hr')
  exact ⟨r, hr', hfallback⟩

end Method

end Restructure
