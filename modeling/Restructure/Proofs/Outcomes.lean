import Restructure.Proofs.Labels
import Restructure.Proofs.Region.Depth

namespace Restructure

/-!
# Outcomes — how passes over a graph and flat code may fail

Over an open scope every pass gives an open scope, or it fails for one of the reasons that
`Context.Fails` lists, and so does flat code. A pass with a deeper walk would do the same.

* `Context.flatten_gives` — flat code.
* `Context.code_settles` — the code of the whole graph, with any depth that is large enough.
* `Method.recover_gives` — the body of a valid method.
* `Method.kind_ne_of_recover` — what no method fails with.
-/

variable {E : Error → Prop} {k : ScopeKind}

namespace Context

variable {c : Context} {tidy : Prop} {scope : Scope} {m : Simulation} {n : Nat}

/-! ### Flat code -/

/-- Statements are added one by one. -/
theorem appendAll_gives (hs : scope.Opened k) (ss : List Stmt) :
    Gives E (appendAll scope ss) (Scope.Opened k) := by
  induction ss generalizing scope with
  | nil => exact gives_ok hs
  | cons s ss ih =>
    apply gives_bind
    exact (Scope.append_gives hs s).imp fun _ hs' => ih hs'

/-- The jumps of a block take the operands of its terminator. -/
theorem flatExit_gives {exit : Terminator}
    (hm : m.Ready tidy k (List.replicate exit.pops .value)) :
    Gives (c.Fails tidy) (flatExit n exit m.stack) fun _ => True := by
  cases exit with
  | goto t | ret => exact gives_ok trivial
  | retValue | throw => exact gives_bind (hm.pop.imp fun _ _ => gives_ok trivial)
  | branch test taken fallthrough =>
    exact gives_bind (hm.branchCondition.imp fun _ _ => gives_ok trivial)
  | switch cases default =>
    apply gives_bind
    refine hm.pop.imp ?_
    rintro ⟨key, st⟩ -
    by_cases heffects : key.hasEffects = true
    · simp only [heffects, if_true]
      exact gives_error (.form rfl nofun)
    · simp only [heffects]
      exact gives_ok trivial

/-- A block is written flat wherever the scope is open. -/
theorem flatBlock_gives (hg : tidy → c.graph.Balanced) (hn : n < c.graph.size)
    (hs : scope.Opened k) :
    Gives (c.Fails tidy) (c.flatBlock n scope) fun r => r.1.Opened k := by
  have hb : c.graph.block? n = some c.graph.graph.nodes[n] := List.getElem?_eq_getElem hn
  unfold flatBlock
  rw [hb]
  apply gives_bind
  refine (Scope.append_gives hs (.label n)).imp fun s₁ hs₁ => ?_
  apply gives_bind
  refine (Simulation.Ready.run hg hb (.start hs₁)).imp fun m hm => ?_
  apply gives_bind
  refine (flatExit_gives hm).imp ?_
  rintro ⟨jumps, st⟩ -
  apply gives_bind
  refine (appendAll_gives hm.opened jumps).imp fun s₂ hs₂ => ?_
  simp only
  -- what is left on the stack behind a block has no flat form
  split
  · exact gives_error (.form rfl nofun)
  · exact gives_ok hs₂

/-- Blocks are written one after the other. -/
theorem flatBlocks_gives (hg : tidy → c.graph.Balanced) {ns : List Nat}
    (hns : ∀ n ∈ ns, n < c.graph.size) (hs : scope.Opened k) :
    Gives (c.Fails tidy) (c.flatBlocks scope ns) fun r => r.1.Opened k := by
  induction ns generalizing scope with
  | nil => exact gives_ok hs
  | cons n ns ih =>
    apply gives_bind
    refine (flatBlock_gives hg (hns n (List.mem_cons_self ..)) hs).imp ?_
    rintro ⟨s₁, ts⟩ hs₁
    apply gives_bind
    refine (ih (fun j hj => hns j (List.mem_cons_of_mem _ hj)) hs₁).imp ?_
    rintro ⟨s₂, us⟩ hs₂
    exact gives_ok hs₂

/-- A reachable block is a block. -/
theorem lt_of_mem_reachableBlocks (hn : n ∈ c.reachableBlocks) : n < c.graph.size :=
  List.mem_range.1 (List.mem_filter.1 hn).1

/-- Flat code is there for every graph, or its blocks have failed. -/
theorem flatten_gives (hg : tidy → c.graph.Balanced) (hs : scope.Opened k) :
    Gives (c.Fails tidy) (c.flatten scope) (Scope.Opened k) :=
  gives_map (flatBlocks_gives hg (fun _ => lt_of_mem_reachableBlocks) hs)

/-! ### Structured code -/

open Pass

/-- Labels are placed whatever there is. -/
theorem placeAll_settles (ns : List Nat) (p : Progress) :
    Settles E (ns.forM place) (ns.forM place) p fun _ _ => True := by
  induction ns generalizing p with
  | nil => exact settles_pure trivial
  | cons n ns ih =>
    apply settles_bind
    apply settles_modify
    exact ih _

/-- What is left out of structured code is written behind it. -/
theorem tail_settles (hg : tidy → c.graph.Balanced) (hs : scope.Opened k) {p : Progress} :
    Settles (c.Fails tidy) (c.tail scope) (c.tail scope) p fun s _ => s.Opened k := by
  apply settles_bind
  apply settles_get
  simp only
  split
  · exact settles_of (dropReturn_gives hs)
  · apply settles_bind
    apply settles_modify
    apply settles_bind
    refine (placeAll_settles _ _).imp fun _ _ _ => ?_
    apply settles_bind
    refine settles_of ((flatBlocks_gives hg
      (fun n hn => lt_of_mem_reachableBlocks (List.mem_filter.1 hn).1) hs).imp ?_)
    rintro ⟨s, targets⟩ hs'
    apply settles_bind
    apply settles_modify
    exact settles_pure hs'

/-- However deep the walk may go, if it may go as deep as it does, its code is the same. -/
theorem code_settles (hg : tidy → c.graph.Balanced) (labels : List Nat) (hs : scope.Opened k)
    {fuel : Nat} (hfuel : c.depth ≤ fuel) :
    Settles (c.Fails tidy) (c.code labels scope) (do
      let m ← c.region labels fuel [] FlowGraph.entry none (.start scope)
      c.tail m.scope) {} fun s _ => s.Opened k := by
  apply settles_bind
  -- fewer entries remain than the depth allows, so the depth plays no part
  refine (region_settles hg labels hfuel [] FlowGraph.entry none (.start scope) {} k
    c.graph.nonempty (.start hs) (remaining_lt_depth [] _)).imp ?_
  rintro m p ⟨hm, -⟩
  exact tail_settles hg hm.opened

/-- A pass over a graph gives an open scope. -/
theorem pass_gives (hg : tidy → c.graph.Balanced) (hs : scope.Opened k) (labels : List Nat) :
    Gives (c.Fails tidy) (c.pass labels scope) fun r => r.body.Opened k := by
  unfold pass
  split
  · exact gives_error (.form rfl nofun)
  · apply gives_bind
    exact (code_settles hg labels hs (Nat.le_refl _)).2.imp fun _ hs' => gives_ok hs'

/-- And so do repeated passes. -/
theorem passes_gives (hg : tidy → c.graph.Balanced) (hs : scope.Opened k) (fuel : Nat)
    (labels : List Nat) :
    Gives (c.Fails tidy) (c.passes scope fuel labels) fun r => r.body.Opened k := by
  induction fuel generalizing labels with
  | zero => exact gives_error (.form rfl nofun)
  | succ fuel ih =>
    apply gives_bind
    refine (pass_gives hg hs labels).imp fun r hr => ?_
    split
    · exact gives_ok hr
    · split
      · exact gives_error (.form rfl nofun)
      · exact ih _

/-- Structured code is in an open scope. -/
theorem structured_gives (hg : tidy → c.graph.Balanced) (hs : scope.Opened k) :
    Gives (c.Fails tidy) (c.structured scope) fun r => r.body.Opened k := passes_gives hg hs _ _

end Context

/-! ### Methods -/

namespace Method

variable {config : Config} {m : Method}

/-- Validation looks at the descriptor and at the targets of all jumps. -/
theorem validate_eq_ok_iff :
    m.validate = .ok () ↔ (∃ t, MethodType.parse m.descriptor = .ok t) ∧
      ∀ b ∈ m.blocks, ∀ t ∈ b.exit.successors, t < m.blocks.length := by
  -- the search for a dangling jump runs over all edges, numbered by their blocks
  have hjumps : m.danglingJump? = none ↔
      ∀ b ∈ m.blocks, ∀ t ∈ b.exit.successors, t < m.blocks.length := by
    unfold danglingJump?
    rw [List.find?_eq_none]
    constructor
    · intro h b hb t ht
      obtain ⟨n, hn⟩ := List.mem_iff_getElem?.1 hb
      have hedge := h (n, t) (List.mem_flatMap.2 ⟨(b, n), List.mem_zipIdx_iff_getElem?.2 hn,
        List.mem_map.2 ⟨t, ht, rfl⟩⟩)
      simpa using hedge
    · rintro h ⟨n, t⟩ he
      obtain ⟨⟨b, k⟩, hb, he⟩ := List.mem_flatMap.1 he
      obtain ⟨t, ht, he⟩ := List.mem_map.1 he
      cases he
      have hlt := h b (List.mem_of_getElem? (List.mem_zipIdx_iff_getElem?.1 hb)) t ht
      simpa using hlt
  rw [← hjumps]
  unfold validate type
  cases hparse : MethodType.parse m.descriptor with
  | error f =>
    constructor
    · intro h
      cases h
    · rintro ⟨⟨t, ht⟩, -⟩
      cases ht
  | ok t =>
    simp only [Error.ofDescriptor, Except.mapError]
    cases m.danglingJump? with
    | none => simp
    | some e => simp

/-- What validation finds is input that cannot be read. -/
theorem kind_of_validate {e : Error} (h : m.validate = .error e) : e.kind = .unrecognized := by
  unfold validate type at h
  cases hparse : MethodType.parse m.descriptor with
  | error f =>
    rw [hparse] at h
    cases h
    rfl
  | ok t =>
    rw [hparse] at h
    simp only [Error.ofDescriptor, Except.mapError] at h
    split at h
    · cases h
      rfl
    · cases h

/-- A method that is not valid fails with what is wrong. -/
theorem recover_of_invalid {e : Error} (h : m.validate = .error e) :
    m.recover config = .error e := by
  unfold recover
  rw [h]
  rfl

/-- Some block holds an invocation whose effect on the stack cannot be told. -/
def Unread (m : Method) : Prop :=
  ∃ b ∈ m.blocks, ∃ i ∈ b.insns, ∃ e, i.effect = .error e

/-- A block that cannot be read belongs to the method. -/
theorem unread_of_graph {g : FlowGraph} (hg : FlowGraph.ofBlocks m.blocks = .ok g)
    (h : Context.Unread ⟨config, g⟩) : m.Unread := by
  obtain ⟨n, b, hb, hi⟩ := h
  refine ⟨b, ?_, hi⟩
  rw [← FlowGraph.nodes_of_ofBlocks hg]
  exact List.mem_of_getElem? hb

/-- The body of a graph is open, or there is a failure that is left. -/
theorem recoverGraph_gives {c : Context} {tidy : Prop} (hg : tidy → c.graph.Balanced)
    {start : Scope} (hs : start.Opened k) :
    Gives (c.Fails tidy) (recoverGraph c start) fun r => r.1.Opened k := by
  have hstructured := Context.structured_gives (c := c) hg hs
  unfold recoverGraph
  cases hr : c.structured start with
  | ok r => exact gives_ok (hstructured.of_ok hr)
  | error e =>
    simp only
    split
    · exact gives_map (Context.flatten_gives hg hs)
    · exact gives_error (hstructured.of_error hr)

/-- A valid method has a locked body, or there is an allowed failure. -/
theorem recover_gives (hvalid : m.validate = .ok ()) :
    Gives (Error.Allowed m.Unread) (m.recover config) fun r =>
      r.body.locked = true ∧ r.body.kind = .method := by
  obtain ⟨⟨t, ht⟩, htargets⟩ := validate_eq_ok_iff.1 hvalid
  have hlocals : ∃ locals, m.parameterLocals = .ok locals := by
    unfold parameterLocals type
    rw [ht]
    exact ⟨_, rfl⟩
  obtain ⟨locals, hlocals⟩ := hlocals
  have hstart : (Scope.withLocals .method locals).Opened .method := ⟨rfl, rfl⟩
  unfold recover
  rw [hvalid, hlocals]
  apply gives_bind
  apply gives_ok
  apply gives_bind
  apply gives_ok
  simp only
  split
  · apply gives_bind
    exact (Scope.lock_gives hstart).imp fun _ hs => gives_ok hs
  · -- the graph finds what validation has found already
    rename_i hcode
    have hne : m.blocks ≠ [] := by
      intro hnil
      apply hcode
      simp [isBodyless, hnil]
    obtain ⟨g, hg⟩ := FlowGraph.exists_of_targets hne htargets
    rw [hg]
    apply gives_bind
    apply gives_ok
    apply gives_bind
    have hgraph := recoverGraph_gives (c := ⟨config, g⟩) False.elim hstart
    cases hr : recoverGraph ⟨config, g⟩ (.withLocals .method locals) with
    | error e => exact gives_error ((hgraph.of_error hr).1.mono (unread_of_graph hg))
    | ok r =>
      apply gives_ok
      apply gives_bind
      exact (Scope.lock_gives (hgraph.of_ok hr)).imp fun _ hs => gives_ok hs

/-- Whatever the blocks hold, no scope is misused and no block is missing. -/
theorem kind_ne_of_recover {e : Error} (h : m.recover config = .error e) :
    e.kind ≠ .scopeMisuse ∧ e.kind ≠ .graph := by
  cases hvalid : m.validate with
  | error e' =>
    obtain rfl : e' = e := Except.error.inj ((recover_of_invalid hvalid).symm.trans h)
    rw [kind_of_validate hvalid]
    decide
  | ok _ => exact ((recover_gives hvalid).of_error h).kind_ne

end Method

end Restructure
