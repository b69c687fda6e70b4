import Restructure.Proofs.Region.Forms
import Restructure.Proofs.Simulation.Layouts

namespace Restructure

/-!
# Balanced blocks — what is left for a block to fail with

Over an open scope a block fails because it is damaged or has no structured form, or because it
holds an invocation that cannot be read. If every block that starts with an empty stack ends with
the operands of its terminator alone, only the want of a structured form is left.

* `FlowGraph.Balanced` — what may be assumed of the blocks.
* `Context.Fails` — the failures that are left, with this assumption and without it.
* `Simulation.Ready` — the scope is open, and with the assumption the stack has a certain layout.
* `Simulation.Ready.run`, `Simulation.Ready.branchCondition`, `Context.ternary_gives` — what blocks,
  branches and conditional values fail with.
-/

/-! ### Blocks -/

/-- A block that starts with an empty stack ends with the operands of its terminator alone. -/
def Block.Balanced (b : Block) : Prop :=
  Insn.layoutAll b.insns [] = some (List.replicate b.exit.pops .value)

/-- Every block is balanced. -/
def FlowGraph.Balanced (g : FlowGraph) : Prop := ∀ n b, g.block? n = some b → b.Balanced

/-- The scope is open and of the given kind, and where all is `tidy`, the stack has the layout. -/
structure Simulation.Ready (tidy : Prop) (k : ScopeKind) (ks : Layout) (m : Simulation) : Prop where
  opened : m.Opened k
  layout : tidy → m.stack.layout = ks

namespace Context

/-- Some block holds an invocation whose effect on the stack cannot be told. -/
def Unread (c : Context) : Prop :=
  ∃ n b, c.graph.block? n = some b ∧ ∃ i ∈ b.insns, ∃ e, i.effect = .error e

/-- A failure that is allowed, and where all is `tidy`, one for want of a structured form. -/
def Fails (c : Context) (tidy : Prop) (e : Error) : Prop :=
  e.Allowed c.Unread ∧ (tidy → e.kind = .unstructurable)

variable {c : Context} {tidy : Prop} {ks : Layout} {n : Nat}

/-- The want of a structured form is left in any case. -/
theorem Fails.form {e : Error} (hkind : e.kind = .unstructurable) (hdeep : e ≠ .nestedTooDeep) :
    c.Fails tidy e := ⟨.form hkind hdeep, fun _ => hkind⟩

/-- The immediate post-dominator of a block is a block. -/
theorem postDominator_lt (hn : n < c.graph.size) {j : Nat}
    (hj : c.graph.postDominator? n = some j) : j < c.graph.size :=
  (c.graph.reachable_of_postDominator hj).lt c.graph.links_lawful hn

/-- A value is taken from a stack. -/
theorem pop_gives {st : Operands} (h : tidy → st.layout = .value :: ks) :
    Gives (c.Fails tidy) st.pop fun r => tidy → r.2.layout = ks := by
  have htidy : tidy → Yields st.pop fun r => r.2.layout = ks := fun ht =>
    Operands.pop_yields (h ht) fun _ _ hst => hst
  have hpop : Gives (Error.Allowed c.Unread) st.pop fun _ => True :=
    Operands.pop_gives fun _ _ => trivial
  exact (hpop.and_if htidy).imp fun _ h => h.2

end Context

namespace Simulation.Ready

variable {c : Context} {tidy : Prop} {k : ScopeKind} {ks : Layout} {m : Simulation} {n : Nat}
  {scope : Scope}

/-- A scope of its own is begun. -/
theorem start (hs : scope.Opened k) : Ready tidy k [] (.start scope) := ⟨hs, fun _ => rfl⟩

/-- Without values on the stack the scope of a simulation is all there is. -/
theorem withScope (hm : m.Ready tidy k ks) (hs : scope.Opened k) :
    Ready tidy k ks { m with scope := scope } := ⟨hs, hm.layout⟩

/-- A statement is added. -/
theorem append {E : Error → Prop} (hm : m.Ready tidy k ks) (s : Stmt) :
    Gives E (m.append s) (Ready tidy k ks) :=
  gives_map ((Scope.append_gives hm.opened s).imp fun _ hs => ⟨hs, hm.layout⟩)

/-- A value is taken from the stack. -/
theorem pop (hm : m.Ready tidy k (.value :: ks)) :
    Gives (c.Fails tidy) m.stack.pop fun r => Ready tidy k ks { m with stack := r.2 } :=
  (Context.pop_gives hm.layout).imp fun _ h => ⟨hm.opened, h⟩

/-- The operands of a branch are taken from the stack. -/
theorem branchCondition {test : Branch}
    (hm : m.Ready tidy k (List.replicate test.pops .value)) :
    Gives (c.Fails tidy) (branchCondition test m.stack) fun r =>
      Ready tidy k [] { m with stack := r.2 } := by
  cases test with
  | zero r | isNull | isNotNull => exact gives_bind (hm.pop.imp fun _ h => gives_ok h)
  | values r =>
    refine gives_bind (hm.pop.imp ?_)
    rintro ⟨right, st₁⟩ hm₁
    exact gives_bind (hm₁.pop.imp fun _ h => gives_ok h)

/-- A block leaves the operands of its terminator. -/
theorem run (hg : tidy → c.graph.Balanced) {b : Block} (hb : c.graph.block? n = some b)
    (hm : m.Ready tidy k []) :
    Gives (c.Fails tidy) (Simulation.run c.config m b.insns)
      (Ready tidy k (List.replicate b.exit.pops .value)) := by
  have hopened : Gives (Error.Allowed c.Unread) (Simulation.run c.config m b.insns) (Opened k) :=
    run_gives hm.opened fun i hi e he => ⟨n, b, hb, i, hi, e, he⟩
  have htidy : tidy → Yields (Simulation.run c.config m b.insns) fun m' =>
      m'.Holds (List.replicate b.exit.pops .value) := fun ht =>
    run_yields ⟨hm.opened.unlocked, hm.layout ht⟩ (hg ht n b hb)
  exact (hopened.and_if htidy).imp fun m' h => ⟨h.1, fun ht => (h.2 ht).layout⟩

end Simulation.Ready

namespace Context

variable {c : Context} {tidy : Prop} {m : Simulation} {n : Nat} {scope : Scope}

/-! ### Conditional values -/

/-- A balanced block over a scope of its own leaves the operands of its terminator. -/
theorem scratch_holds (hg : c.graph.Balanced) {b : Block} (hb : c.graph.block? n = some b)
    (hm : c.scratch? n scope = some m) : m.Holds (List.replicate b.exit.pops .value) := by
  unfold scratch? at hm
  rw [hb] at hm
  exact (Simulation.run_yields (.start rfl) (hg n b hb)).of_ok (Except.eq_ok_of_toOption hm)

/-- A balanced block that goes on leaves no value, so no arm of a branch is one. -/
theorem not_built (hg : c.graph.Balanced) {pos : Position} {arm : ValueArm}
    (h : arm.Built c pos scope n) : False := by
  induction h with
  | leaf _ hb hexit hm _ hstack =>
    have hlayout := (scratch_holds hg hb hm).layout
    rw [hexit, hstack] at hlayout
    cases hlayout
  | fork _ _ _ _ _ _ ih _ => exact ih

/-- A block that is an arm by itself assigns or returns a value. -/
theorem armShape_gives (hg : tidy → c.graph.Balanced) (scope : Scope) (n : Nat) :
    Gives (c.Fails tidy) (c.armShape? scope n) fun _ => True := by
  unfold armShape?
  split
  · rename_i b m hb hm
    split
    · exact gives_ok trivial
    · rename_i o hexit _ hstack
      have hlayout : tidy → Operands.layout [o] = [.value] := fun ht => by
        have hlayout := (scratch_holds (hg ht) hb hm).layout
        rwa [hexit, hstack] at hlayout
      exact gives_map ((pop_gives hlayout).imp fun _ _ => trivial)
    · exact gives_ok trivial
  · exact gives_ok trivial

/-- Two such arms are an assignment or a return together. -/
theorem stmtTernary_gives (hg : tidy → c.graph.Balanced) (scope : Scope) (test : BranchTest) :
    Gives (c.Fails tidy) (c.stmtTernary? scope test) fun _ => True := by
  refine gives_bind ((armShape_gives hg _ _).imp fun fall _ => ?_)
  split
  · exact gives_ok trivial
  · refine gives_bind ((armShape_gives hg _ _).imp fun taken _ => ?_)
    split
    · split <;> exact gives_ok trivial
    · exact gives_ok trivial
    · exact gives_ok trivial

/-- What a branch becomes if it collapses: control goes on at a block, and where all is `tidy`, no
    value is left. -/
structure Collapsing (c : Context) (tidy : Prop) (form : Collapsed) : Prop where
  merge : ∀ j, form.merge? = some j → j < c.graph.size
  stmt : tidy → ∃ blocks s merge, form = .stmt blocks s merge

/-- A conditional value fails for want of a structured form, if at all. -/
theorem ternary_gives (hg : tidy → c.graph.Balanced) {pos : Position} {test : BranchTest}
    {chain : List Nat} (htaken : test.taken < c.graph.size)
    (hfall : test.fallthrough < c.graph.size) :
    Gives (c.Fails tidy) (c.ternary? pos m test chain) fun choice =>
      ∀ form, choice = some form → c.Collapsing tidy form := by
  have htry : Gives (c.Fails tidy) (c.ternary? pos m test chain) fun _ => True := by
    unfold ternary?
    split
    · exact gives_ok trivial
    · split
      · exact gives_ok trivial
      · split
        · exact stmtTernary_gives hg _ _
        · exact gives_ok trivial
  refine htry.and_of_ok fun choice hchoice form hform => ?_
  subst hform
  have hcollapses := ternary_inv hchoice
  obtain ⟨_, hmerge⟩ := hcollapses.spread (P := (· < c.graph.size))
    (fun j hj => by rcases hj with rfl | rfl <;> assumption)
    fun _ _ _ j hj => c.graph.lt_of_successor hj
  refine ⟨hmerge, fun ht => ?_⟩
  cases hcollapses with
  | value htaken => exact (not_built (hg ht) htaken).elim
  | assign => exact ⟨_, _, _, rfl⟩
  | ret => exact ⟨_, _, _, rfl⟩

end Context

end Restructure
