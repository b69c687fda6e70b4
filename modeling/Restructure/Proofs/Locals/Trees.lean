import Restructure.Proofs.Simulation.Bindings

namespace Restructure

/-!
# Trees — code all of whose scopes fit their tables

* `Node.Scoped` — the locals of a node have the names of their slots, and the scopes that it owns
  fit their tables.
* `Stmt.Scoped`, `Scope.Scoped` — this holds of all nodes of a tree.
* `Stmt.scoped_of_flat` — statements without scopes.
* `Stmt.scoped_ifElse` and its companions — control statements.
* `Scope.Scoped.append`, `Simulation.run_scoped` — what is added to a scope.
-/

open Use

variable {params t : Locals}

/-! ### Nodes -/

/-- The locals of the node have the names of their slots. The scopes that it owns fit their tables,
    and so do the parts of a loop that belong to its body. -/
structure Node.Scoped (params : Locals) (n : Node) : Prop where
  names : ∀ v ∈ n.locals, params.Names v
  scopes : ∀ b ∈ n.scopes, b.Fits params
  rounds : ∀ s, n = .stmt s → ∀ b ∈ s.scopes, AllFit params b.locals s.roundUses

/-- All nodes of the statement are scoped. -/
def Stmt.Scoped (params : Locals) (s : Stmt) : Prop := ∀ n ∈ s.nodes, n.Scoped params

/-- The scope fits its table, and all its statements are scoped. -/
structure Scope.Scoped (params : Locals) (s : Scope) : Prop where
  fits : s.Fits params
  stmts : ∀ x ∈ s.stmts, x.Scoped params

/-- So it is in the scope, and the values on the stack fit its table. -/
structure Simulation.Scoped (params : Locals) (m : Simulation) : Prop where
  scope : m.scope.Scoped params
  stack : m.stack.Fit params m.scope.locals

/-- Nodes that own no scopes are scoped if their locals have the names of their slots. -/
theorem Node.scoped_of_uses {ns : List Node} {us : List Use}
    (hscopes : ∀ s, Node.stmt s ∈ ns → s.scopes = [])
    (hlocals : ns.flatMap Node.locals = us.map (·.v)) (hus : AllFit params t us) :
    ∀ n ∈ ns, n.Scoped params := by
  intro n hn
  have hnames : ∀ v ∈ n.locals, params.Names v := by
    intro v hv
    have hmem : v ∈ us.map (·.v) := hlocals ▸ List.mem_flatMap.2 ⟨n, hn, hv⟩
    obtain ⟨u, hu, rfl⟩ := List.mem_map.1 hmem
    exact (hus u hu).names
  have hnone : ∀ s, n = .stmt s → ∀ b, b ∉ s.scopes := by
    rintro s rfl b hb
    rw [hscopes s hn] at hb
    cases hb
  refine ⟨hnames, fun b hb => ?_, fun s hs b hb => absurd hb (hnone s hs b)⟩
  cases n with
  | expr | cond => cases hb
  | stmt s => exact absurd hb (hnone s rfl b)

/-- The nodes of a value whose locals fit are scoped. -/
theorem Expr.scoped_nodes {e : Expr} {b : Bool} (h : AllFit params t (e.uses b)) :
    ∀ n ∈ e.nodes, n.Scoped params :=
  Node.scoped_of_uses (fun s hs => absurd hs (e.stmt_not_mem s)) (e.locals_nodes b) h

/-- The nodes of a condition whose locals fit are scoped. -/
theorem Cond.scoped_nodes {c : Cond} {b : Bool} (h : AllFit params t (c.uses b)) :
    ∀ n ∈ c.nodes, n.Scoped params :=
  Node.scoped_of_uses (fun s hs => absurd hs (c.stmt_not_mem s)) (c.locals_nodes b) h

/-! ### Statements -/

namespace Stmt

variable {s : Stmt} {c : Cond} {e : Expr} {b : Scope}

/-- A destination that is a local belongs to its statement, and all else in it is a node. -/
theorem locals_target (target : Place) (b : Bool) (value : Expr) :
    (Node.stmt (.assign target value)).locals
      ++ (Expr.allNodes target.operands).flatMap Node.locals = (target.uses b).map (·.v) := by
  cases target with
  | var | static => rfl
  | field f r => simp [Node.locals, Place.operands, Place.uses, Expr.allNodes, r.locals_nodes b]
  | element a i =>
    simp [Node.locals, Place.operands, Place.uses, Expr.allNodes, a.locals_nodes b,
      i.locals_nodes b]

/-- The locals of the nodes of a statement without scopes are those that occur in it. -/
theorem locals_nodes (hs : s.scopes = []) : s.nodes.flatMap Node.locals = s.uses.map (·.v) := by
  cases s with
  | assign target e =>
    have htarget := locals_target target e.isTernary e
    simp only [nodes, uses, List.flatMap_cons, List.flatMap_append, List.map_append,
      ← List.append_assoc, e.locals_nodes false, htarget]
  | compound target op e =>
    have htarget := locals_target target false e
    have hsame : (Node.stmt (.compound target op e)).locals
        = (Node.stmt (.assign target e)).locals := by cases target <;> rfl
    simp only [nodes, uses, List.flatMap_cons, List.flatMap_append, List.map_append,
      ← List.append_assoc, e.locals_nodes false, hsame, htarget]
  | eval e | throw e => exact e.locals_nodes false
  | ret e =>
    cases e with
    | none => rfl
    | some e => exact e.locals_nodes false
  | gotoIf c => exact c.locals_nodes false
  | switch e arms =>
    obtain rfl : arms = [] := List.map_eq_nil_iff.1 hs
    simp [nodes, uses, SwitchArm.allNodes, Node.locals, e.locals_nodes false]
  | ifElse _ _ e => cases e <;> cases hs
  | whileLoop | doWhile | forLoop => cases hs
  | increment | breakOut | continueLoop | label | goto => rfl

/-- A statement without scopes holds no other statements. -/
theorem eq_of_mem_nodes (hs : s.scopes = []) {s' : Stmt} (h : .stmt s' ∈ s.nodes) : s' = s := by
  have hrest : ∀ {ns : List Node}, s.nodes = .stmt s :: ns → (∀ x, Node.stmt x ∉ ns) → s' = s := by
    intro ns hnodes hns
    rw [hnodes] at h
    rcases List.mem_cons.1 h with h | h
    · exact Node.stmt.inj h
    · exact absurd h (hns s')
  cases s with
  | assign target e | compound target _ e =>
    refine hrest rfl fun x hx => (List.mem_append.1 hx).elim ?_ (e.stmt_not_mem x)
    exact Expr.stmt_not_mem_all x _
  | eval e | throw e => exact hrest rfl e.stmt_not_mem
  | ret e =>
    cases e with
    | none => exact hrest rfl fun _ => List.not_mem_nil
    | some e => exact hrest rfl e.stmt_not_mem
  | gotoIf c => exact hrest rfl c.stmt_not_mem
  | switch e arms =>
    obtain rfl : arms = [] := List.map_eq_nil_iff.1 hs
    refine hrest rfl fun x hx => (List.mem_append.1 hx).elim (e.stmt_not_mem x) ?_
    exact List.not_mem_nil
  | ifElse _ _ e => cases e <;> cases hs
  | whileLoop | doWhile | forLoop => cases hs
  | increment | breakOut | continueLoop | label | goto =>
    exact hrest rfl fun _ => List.not_mem_nil

/-- A statement without scopes whose locals have the names of their slots. -/
theorem scoped_of_flat (hs : s.scopes = []) (h : AllFit params t s.uses) : s.Scoped params :=
  Node.scoped_of_uses (fun _ hmem => eq_of_mem_nodes hs hmem ▸ hs) (locals_nodes hs) h

/-- Atomic statements have no scopes. -/
theorem scopes_of_atomic (hs : s.isAtomic = true) : s.scopes = [] := by
  cases s <;> first | rfl | cases hs

/-- A control statement of scoped parts. -/
theorem scoped_of_parts {ns : List Node} (hnodes : s.nodes = .stmt s :: ns)
    (hlocals : (Node.stmt s).locals = [])
    (hscopes : ∀ b ∈ s.scopes, b.Fits params ∧ AllFit params b.locals s.roundUses)
    (hns : ∀ n ∈ ns, n.Scoped params) : s.Scoped params := by
  intro n hn
  rw [hnodes] at hn
  rcases List.mem_cons.1 hn with rfl | hn
  · refine ⟨fun v hv => ?_, fun b hb => (hscopes b hb).1, fun s' heq b hb => ?_⟩
    · rw [hlocals] at hv
      cases hv
    · cases heq
      exact (hscopes b hb).2
  · exact hns n hn

/-- The nodes of scoped statements are scoped. -/
theorem forall_mem_allNodes {ss : List Stmt} (h : ∀ x ∈ ss, x.Scoped params) :
    ∀ n ∈ allNodes ss, n.Scoped params := by
  induction ss with
  | nil => exact List.forall_mem_nil _
  | cons s ss ih =>
    obtain ⟨hs, hss⟩ := List.forall_mem_cons.1 h
    exact List.forall_mem_append.2 ⟨hs, ih hss⟩

end Stmt

/-- All nodes in a scoped scope are scoped. -/
theorem Scope.Scoped.nodes {s : Scope} (h : s.Scoped params) : ∀ n ∈ s.nodes, n.Scoped params := by
  rw [s.nodes_eq]
  exact Stmt.forall_mem_allNodes h.stmts

namespace Stmt

variable {s : Stmt} {c : Cond} {e : Expr} {b : Scope}

/-- A conditional of scoped parts. -/
theorem scoped_ifElse {orElse : Option Scope} (hc : AllFit params t (c.uses false))
    (hb : b.Scoped params) (he : ∀ e, orElse = some e → e.Scoped params) :
    (Stmt.ifElse c b orElse).Scoped params := by
  have hfirst := List.forall_mem_append.2 ⟨Cond.scoped_nodes hc, hb.nodes⟩
  cases orElse with
  | none =>
    exact scoped_of_parts rfl rfl (List.forall_mem_singleton.2 ⟨hb.fits, allFit_nil⟩) hfirst
  | some e =>
    have he := he e rfl
    refine scoped_of_parts rfl rfl ?_ (List.forall_mem_append.2 ⟨hfirst, he.nodes⟩)
    intro b' hb'
    rcases List.mem_pair.1 hb' with rfl | rfl
    · exact ⟨hb.fits, allFit_nil⟩
    · exact ⟨he.fits, allFit_nil⟩

/-- A loop of scoped parts. -/
theorem scoped_whileLoop (hc : AllFit params t (c.uses true)) (hb : b.Scoped params) :
    (Stmt.whileLoop c b).Scoped params :=
  scoped_of_parts rfl rfl (List.forall_mem_singleton.2 ⟨hb.fits, allFit_nil⟩)
    (List.forall_mem_append.2 ⟨Cond.scoped_nodes hc, hb.nodes⟩)

/-- The test of a `do` loop fits the table of its body. -/
theorem scoped_doWhile (hc : AllFit params b.locals (c.uses false)) (hb : b.Scoped params) :
    (Stmt.doWhile c b).Scoped params :=
  scoped_of_parts rfl rfl (List.forall_mem_singleton.2 ⟨hb.fits, hc⟩)
    (List.forall_mem_append.2 ⟨hb.nodes, Cond.scoped_nodes hc⟩)

/-- The last step of a counting loop fits the table of its body. -/
theorem scoped_forLoop {init update : Stmt} (hc : AllFit params t (c.uses true))
    (hinit : init.Scoped params) (hupdate : update.Scoped params)
    (huses : AllFit params b.locals update.uses) (hb : b.Scoped params) :
    (Stmt.forLoop (some init) c (some update) b).Scoped params := by
  refine scoped_of_parts rfl rfl (List.forall_mem_singleton.2 ⟨hb.fits, huses⟩) ?_
  have hbefore := List.forall_mem_append.2 ⟨hinit, Cond.scoped_nodes hc⟩
  exact List.forall_mem_append.2 ⟨List.forall_mem_append.2 ⟨hbefore, hupdate⟩, hb.nodes⟩

/-- A switch of scoped parts. -/
theorem scoped_switch {arms : List SwitchArm} (he : AllFit params t (e.uses false))
    (harms : ∀ a ∈ arms, a.body.Scoped params) : (Stmt.switch e arms).Scoped params := by
  have hnodes : ∀ n ∈ SwitchArm.allNodes arms, n.Scoped params := by
    clear he
    induction arms with
    | nil => exact List.forall_mem_nil _
    | cons a arms ih =>
      obtain ⟨_, _, body, _⟩ := a
      obtain ⟨ha, harms⟩ := List.forall_mem_cons.1 harms
      exact List.forall_mem_append.2 ⟨ha.nodes, ih harms⟩
  refine scoped_of_parts rfl rfl ?_ (List.forall_mem_append.2 ⟨Expr.scoped_nodes he, hnodes⟩)
  intro b hb
  obtain ⟨a, ha, rfl⟩ := List.mem_map.1 hb
  exact ⟨(harms a ha).fits, allFit_nil⟩

end Stmt

/-! ### Scopes -/

namespace Scope.Scoped

variable {s s' : Scope} {x : Stmt}

/-- A scope in which nothing has been written. -/
theorem withLocals {locals : Locals} (h : locals.Extends params) (k : ScopeKind) :
    (Scope.withLocals k locals).Scoped params :=
  ⟨⟨h, List.forall_mem_nil _⟩, List.forall_mem_nil _⟩

/-- A scope inside begins without statements. -/
theorem child (h : s.Scoped params) (k : ScopeKind) : (s.child k).Scoped params :=
  withLocals h.fits.table k

/-- Some statements are taken away. -/
theorem of_subset (h : s.Scoped params) (hstmts : s'.stmts ⊆ s.stmts)
    (hlocals : s'.locals = s.locals) : s'.Scoped params where
  fits := ⟨hlocals ▸ h.fits.table, fun x hx => hlocals ▸ h.fits.stmts x (hstmts hx)⟩
  stmts x hx := h.stmts x (hstmts hx)

/-- A locked scope holds the same statements. -/
theorem lock (h : s.Scoped params) (hlock : s.lock = .ok s') :
    s'.Scoped params ∧ s'.locals = s.locals := by
  obtain ⟨s₁, hs₁, rfl⟩ := Except.map_eq_ok.1 hlock
  obtain rfl := ifOpen_inv hs₁
  exact ⟨h.of_subset (List.Subset.refl _) rfl, rfl⟩

/-- The last statement is taken away. -/
theorem pop (h : s.Scoped params) (hpop : s.pop = .ok (x, s')) : s'.Scoped params := by
  obtain ⟨-, rfl⟩ := pop_inv hpop
  exact h.of_subset (List.dropLast_subset _) rfl

/-- A statement whose locals fit is added. -/
theorem append (h : s.Scoped params) (hx : x.Scoped params)
    (huses : AllFit params s.locals x.uses) (happend : s.append x = .ok s') :
    s'.Scoped params := by
  obtain rfl := append_inv happend
  refine ⟨⟨h.fits.table, ?_⟩, ?_⟩
  · exact List.forall_mem_append.2 ⟨h.fits.stmts, List.forall_mem_singleton.2 huses⟩
  · exact List.forall_mem_append.2 ⟨h.stmts, List.forall_mem_singleton.2 hx⟩

end Scope.Scoped

/-! ### Simulations -/

namespace Simulation

variable {config : Config} {m m' : Simulation} {st : Operands}

namespace Scoped

/-- A scoped simulation fits the table of its scope. -/
theorem fits (h : m.Scoped params) : m.Fits params := ⟨h.scope.fits, h.stack⟩

/-- A piece of code in a scope of its own, over an empty stack. -/
theorem start {s : Scope} (h : s.Scoped params) : (Simulation.start s).Scoped params :=
  ⟨h, Operands.fit_nil⟩

/-- The stack is exchanged. -/
theorem withStack (h : m.Scoped params) (hst : st.Fit params m.scope.locals) :
    Simulation.Scoped params { m with stack := st } := ⟨h.scope, hst⟩

/-- One more statement, which is scoped where it stands. -/
theorem of_append {s s' : Scope} {x : Stmt} (happend : s.append x = .ok s')
    (h : Simulation.Scoped params ⟨s, st⟩) (hx : x.Scoped params)
    (huses : AllFit params s.locals x.uses) : Simulation.Scoped params ⟨s', st⟩ := by
  refine ⟨h.scope.append hx huses happend, ?_⟩
  show st.Fit params s'.locals
  rw [Scope.locals_of_append happend]
  exact h.stack

/-- One more statement that owns no scopes. -/
theorem of_append_flat {s s' : Scope} {x : Stmt} (happend : s.append x = .ok s')
    (h : Simulation.Scoped params ⟨s, st⟩) (hx : x.scopes = [])
    (huses : AllFit params s.locals x.uses) : Simulation.Scoped params ⟨s', st⟩ :=
  of_append happend h (Stmt.scoped_of_flat hx huses) huses

end Scoped

/-- Instructions write scoped statements only. -/
theorem run_scoped {insns : List Insn} (h : m.Scoped params)
    (hrun : run config m insns = .ok m') : m'.Scoped params := by
  have hfits := run_fits h.fits hrun
  -- whatever instructions take back, all that they add is atomic and owns no scopes
  have hstmts : ∀ {ss : List Stmt}, Edited m.scope.stmts ss →
      ∀ x ∈ ss, x ∈ m.scope.stmts ∨ x.isAtomic = true := by
    intro ss hedited
    induction hedited with
    | refl => exact fun x hx => .inl hx
    | add _ hs ih =>
      exact List.forall_mem_append.2 ⟨ih, List.forall_mem_singleton.2 (.inr hs)⟩
    | drop _ _ ih => exact fun x hx => ih x (List.mem_append_left _ hx)
  refine ⟨⟨hfits.scope, fun x hx => ?_⟩, hfits.stack⟩
  rcases hstmts (run_edited hrun) x hx with hmem | hatomic
  · exact h.scope.stmts x hmem
  · exact Stmt.scoped_of_flat (Stmt.scopes_of_atomic hatomic) (hfits.scope.stmts x hx)

end Simulation

end Restructure
