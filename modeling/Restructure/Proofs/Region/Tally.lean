import Restructure.Proofs.Conditions.Avoidance
import Restructure.Proofs.Region.Forms
import Restructure.Proofs.Region.Marks
import Restructure.Proofs.Simulation.Growth

namespace Restructure

/-!
# Tallies — how often a tree names a method

A void method that one instruction calls is named by one statement of the code, and by nothing else:
no value on the stack, no condition and no destination holds a call of it.

* `Node.calls`, `Node.invokes` — the calls of a method and the statements that invoke it.
* `Tracks` — a way of counting these nodes; `Stmt.tally` counts them in statements.
* `Simulation.run_tally` — instructions add one for every call.
-/

/-! ### Nodes that name a method -/

/-- The node is a call of the method. -/
def Node.calls (f : MethodRef) : Node → Bool
  | .expr e => e.callee? == some f
  | _ => false

/-- The node is a statement that invokes the static method and does nothing else. -/
def Node.invokes (f : MethodRef) : Node → Bool
  | .stmt (.eval (.staticCall g _)) => g == f
  | _ => false

/-- The node names the method. -/
def Node.Names (f : MethodRef) (n : Node) : Prop := n.calls f = true ∨ n.invokes f = true

namespace Node

variable {f : MethodRef}

/-- A value names the method if it is a call of it. -/
theorem names_expr_iff {e : Expr} : Names f (.expr e) ↔ e.callee? = some f := by
  simp [Names, calls, invokes]

/-- A condition names no method. -/
theorem not_names_cond (c : Cond) : ¬Names f (.cond c) := by simp [Names, calls, invokes]

/-- The same for atomic conditions. -/
theorem not_names_atomic (c : Cond) (_ : c.isAtomic = true) : ¬Names f (.cond c) := not_names_cond c

/-- Only a value as a statement names a method. -/
theorem not_names_stmt {s : Stmt} (h : ∀ e, s ≠ .eval e) : ¬Names f (.stmt s) := by
  rintro (hn | hn)
  · cases hn
  · cases s with
    | eval e => exact h e rfl
    | _ => cases hn

/-- Instructions name a method only by calling it. -/
theorem names_foreign : Foreign (Names f) where
  expr e he hn := by
    rw [names_expr_iff, he] at hn
    cases hn
  stmt s _ _ he := by
    rintro (hn | hn)
    · cases hn
    · cases s with
      | eval e =>
        cases e with
        | staticCall g args =>
          have hg : g = f := beq_iff_eq.1 hn
          exact he _ rfl (.expr (.staticCall g args)) (List.mem_cons_self ..)
            (names_expr_iff.2 (congrArg some hg))
        | _ => cases hn
      | _ => cases hn

/-- An instruction that invokes another method brings no node that names this one. -/
theorem spares_of_callee {i : Insn} (h : i.callee? ≠ some f) : i.Spares (Names f) := by
  intro g hg e he hn
  rw [names_expr_iff, he] at hn
  exact h (hg.trans hn)

end Node

/-- A statement that evaluates no value itself names the method only in its parts. -/
theorem Stmt.avoids_names {f : MethodRef} {s : Stmt} {ns : List Node} (hs : ∀ e, s ≠ .eval e)
    (hnodes : s.nodes = .stmt s :: ns) (hns : ∀ n ∈ ns, ¬n.Names f) : s.Avoids (Node.Names f) :=
  Stmt.avoids_of_nodes hnodes (Node.not_names_stmt hs) hns

/-! ### Counting -/

/-- A way of counting nodes that name the method: a statement that invokes it counts once. -/
structure Tracks (f : MethodRef) (P : Node → Bool) : Prop where
  sound : ∀ n, P n = true → n.Names f
  once : ∀ args, (∀ n ∈ Expr.allNodes args, ¬n.Names f) →
    (Stmt.eval (.staticCall f args)).nodes.countP P = 1

/-- The number of nodes of the statement that are counted. -/
def Stmt.count (P : Node → Bool) (s : Stmt) : Nat := s.nodes.countP P

/-- The number of nodes of the statements that are counted. -/
def Stmt.tally (P : Node → Bool) (ss : List Stmt) : Nat := (Stmt.allNodes ss).countP P

variable {f : MethodRef} {P : Node → Bool}

/-- Counting the calls of a method. -/
theorem tracks_calls (f : MethodRef) : Tracks f (Node.calls f) where
  sound n hn := .inl hn
  once args h := by
    have hargs : (Expr.allNodes args).countP (Node.calls f) = 0 :=
      List.countP_eq_zero.2 fun n hn hcalls => h n hn (.inl hcalls)
    simp [Stmt.nodes, Expr.nodes, hargs, Node.calls, Expr.callee?]

/-- Counting the statements that invoke a method. -/
theorem tracks_invokes (f : MethodRef) : Tracks f (Node.invokes f) where
  sound n hn := .inr hn
  once args h := by
    have hargs : (Expr.allNodes args).countP (Node.invokes f) = 0 :=
      List.countP_eq_zero.2 fun n hn hinvokes => h n hn (.inr hinvokes)
    simp [Stmt.nodes, Expr.nodes, hargs, Node.invokes]

/-- Only statements invoke a method and do nothing else. -/
theorem countP_invokes {ns : List Node} (h : ∀ s, Node.stmt s ∉ ns) :
    ns.countP (Node.invokes f) = 0 := by
  refine List.countP_eq_zero.2 fun n hn hinvokes => ?_
  cases n with
  | stmt s => exact h s hn
  | _ => cases hinvokes

namespace Stmt

/-- Nothing is counted in no statements. -/
@[simp] theorem tally_nil : tally P [] = 0 := rfl

/-- The counts of two pieces of code are added. -/
theorem tally_append (ss ts : List Stmt) : tally P (ss ++ ts) = tally P ss + tally P ts := by
  rw [tally, allNodes_append, List.countP_append]
  rfl

/-- One more statement adds its own count. -/
theorem tally_concat (ss : List Stmt) (s : Stmt) :
    tally P (ss ++ [s]) = tally P ss + s.count P := by
  have hs : tally P [s] = s.count P := by rw [tally, allNodes, allNodes, List.append_nil, count]
  rw [tally_append, hs]

/-- An assignment invokes nothing, whatever it evaluates. -/
theorem tally_assign (target : Place) (value : Expr) :
    tally (Node.invokes f) [.assign target value] = 0 := by
  have hparts : (Expr.allNodes target.operands ++ value.nodes).countP (Node.invokes f) = 0 := by
    refine countP_invokes fun s hs => ?_
    rcases List.mem_append.1 hs with hs | hs
    · exact Expr.stmt_not_mem_all s _ hs
    · exact value.stmt_not_mem s hs
  rw [tally, allNodes, allNodes, List.append_nil, nodes, List.countP_cons, hparts]
  rfl

end Stmt

namespace Tracks

variable (hP : Tracks f P)
include hP

/-- Where the method is not named nothing is counted. -/
theorem countP_eq_zero {ns : List Node} (h : ∀ n ∈ ns, ¬n.Names f) : ns.countP P = 0 :=
  List.countP_eq_zero.2 fun n hn hcount => h n hn (hP.sound n hcount)

/-- A statement without nodes that name the method. -/
theorem count_of_avoids {s : Stmt} (h : s.Avoids (Node.Names f)) : s.count P = 0 :=
  hP.countP_eq_zero h

/-- A statement that evaluates no value itself. -/
theorem countP_stmt {s : Stmt} (hs : ∀ e, s ≠ .eval e) (ns : List Node) :
    (Node.stmt s :: ns).countP P = ns.countP P := by
  have hnot : ¬P (.stmt s) = true := fun h => Node.not_names_stmt hs (hP.sound _ h)
  rw [List.countP_cons, if_neg hnot, Nat.add_zero]

/-- A conditional without `else` counts as its arm. -/
theorem count_ifElse_none {c : Cond} {b : Scope} (hc : c.Avoids (Node.Names f)) :
    (Stmt.ifElse c b none).count P = Stmt.tally P b.stmts := by
  rw [Stmt.count, Stmt.nodes, hP.countP_stmt (by simp), List.countP_append, hP.countP_eq_zero hc,
    Nat.zero_add, Scope.nodes_eq, Stmt.tally]

/-- A conditional counts as its arms. -/
theorem count_ifElse_some {c : Cond} {b e : Scope} (hc : c.Avoids (Node.Names f)) :
    (Stmt.ifElse c b (some e)).count P = Stmt.tally P b.stmts + Stmt.tally P e.stmts := by
  rw [Stmt.count, Stmt.nodes, hP.countP_stmt (by simp), List.countP_append, List.countP_append,
    hP.countP_eq_zero hc, Nat.zero_add, Scope.nodes_eq, Scope.nodes_eq, Stmt.tally, Stmt.tally]

/-- A loop that tests first counts as its body. -/
theorem count_whileLoop {c : Cond} {b : Scope} (hc : c.Avoids (Node.Names f)) :
    (Stmt.whileLoop c b).count P = Stmt.tally P b.stmts := by
  rw [Stmt.count, Stmt.nodes, hP.countP_stmt (by simp), List.countP_append, hP.countP_eq_zero hc,
    Nat.zero_add, Scope.nodes_eq, Stmt.tally]

/-- A loop that tests last counts as its body. -/
theorem count_doWhile {c : Cond} {b : Scope} (hc : c.Avoids (Node.Names f)) :
    (Stmt.doWhile c b).count P = Stmt.tally P b.stmts := by
  rw [Stmt.count, Stmt.nodes, hP.countP_stmt (by simp), List.countP_append, hP.countP_eq_zero hc,
    Nat.add_zero, Scope.nodes_eq, Stmt.tally]

/-- A loop with a counter counts as its statements and its body. -/
theorem count_forLoop {c : Cond} {init update : Stmt} {b : Scope}
    (hc : c.Avoids (Node.Names f)) :
    (Stmt.forLoop (some init) c (some update) b).count P
      = init.count P + (update.count P + Stmt.tally P b.stmts) := by
  rw [Stmt.count, Stmt.nodes, hP.countP_stmt (by simp)]
  simp only [List.countP_append, hP.countP_eq_zero hc, Nat.add_zero, Scope.nodes_eq]
  rw [Stmt.count, Stmt.count, Stmt.tally, Nat.add_assoc]

/-- A switch counts as its arms. -/
theorem count_switch {key : Expr} {arms : List SwitchArm} (hkey : key.Avoids (Node.Names f)) :
    (Stmt.switch key arms).count P = Stmt.tally P (arms.flatMap (·.body.stmts)) := by
  rw [Stmt.count, Stmt.nodes, hP.countP_stmt (by simp), List.countP_append,
    hP.countP_eq_zero hkey, Nat.zero_add]
  clear hkey
  induction arms with
  | nil => rfl
  | cons a arms ih =>
    obtain ⟨ks, d, b, x⟩ := a
    rw [SwitchArm.allNodes, List.countP_append, ih, List.flatMap_cons, Stmt.tally_append,
      Scope.nodes_eq]
    rfl

/-- Statements that come and go without naming the method. -/
theorem tally_of_rewritten {ss ts : List Stmt} (h : Rewritten (Node.Names f) ss ts) :
    Stmt.tally P ts = Stmt.tally P ss := by
  induction h with
  | refl => rfl
  | add _ _ hs ih => rw [Stmt.tally_concat, hP.count_of_avoids hs, Nat.add_zero, ih]
  | @drop ts v n _ ih =>
    have hincrement : (Stmt.increment v n).Avoids (Node.Names f) :=
      Stmt.avoids_names (by simp) rfl fun _ h => by cases h
    rw [Stmt.tally_concat, hP.count_of_avoids hincrement, Nat.add_zero] at ih
    exact ih

end Tracks

/-! ### Instructions -/

/-- Every instruction that invokes the method is a static call without a result. -/
structure VoidCalls (f : MethodRef) (insns : List Insn) : Prop where
  void : ∀ t, f.parse = .ok t → t.returnsVoid = true
  static : ∀ i ∈ insns, i.callee? = some f → i = .invoke .static f

namespace Simulation

variable {config : Config} {m m' : Simulation}

/-- A step adds one for a call of the method, as a statement. -/
theorem step_tally (hP : Tracks f P) {prev next : Option Insn} {insn : Insn} {out : Outcome}
    (hvoid : VoidCalls f [insn]) (hm : m.stack.Avoids (Node.Names f))
    (h : step config m prev insn next = .ok out) :
    out.state.stack.Avoids (Node.Names f) ∧
      (out.tookNext = true → ∀ i ∈ insn :: next.toList, i.callee? = none) ∧
      Stmt.tally P out.state.scope.stmts
        = Stmt.tally P m.scope.stmts + if insn.callee? = some f then 1 else 0 := by
  by_cases hcallee : insn.callee? = some f
  · obtain rfl := hvoid.static insn (List.mem_singleton_self _) hcallee
    obtain ⟨m₁, hm₁, rfl⟩ := Except.map_eq_ok.1 h
    obtain ⟨t, ht, hm₁⟩ := Except.bind_eq_ok.1 hm₁
    obtain ⟨⟨args, st⟩, hargs, hm₁⟩ := Except.bind_eq_ok.1 hm₁
    obtain ⟨hargs, hst⟩ := Operands.popMany_avoids hargs hm
    have hsig : f.parse = .ok t := by
      cases hparse : f.parse with
      | error e =>
        rw [hparse] at ht
        cases ht
      | ok u =>
        rw [hparse] at ht
        cases ht
        rfl
    -- the call becomes a statement
    have hcall :
        Simulation.append { m with stack := st } (.eval (.staticCall f args)) = .ok m₁ := by
      have hret := hvoid.void t hsig
      simpa [emitCall, Dispatch.hasReceiver, hret] using hm₁
    obtain ⟨scope, hscope, rfl⟩ := Except.map_eq_ok.1 hcall
    refine ⟨hst, fun htook => absurd htook Bool.false_ne_true, ?_⟩
    show Stmt.tally P scope.stmts = _
    rw [Scope.stmts_of_append hscope, Stmt.tally_concat, if_pos hcallee, Stmt.count,
      hP.once args (Expr.allAvoid_iff.2 hargs)]
  · have hgrown := step_grown Node.names_foreign (.start hm) (Node.spares_of_callee hcallee) h
    refine ⟨hgrown.state.stack, hgrown.took, ?_⟩
    rw [hP.tally_of_rewritten hgrown.state.stmts, if_neg hcallee, Nat.add_zero]

/-- A run adds one for every call of the method. By induction on the instructions. -/
theorem runAfter_tally (hP : Tracks f P) {prev : Option Insn} {insns : List Insn}
    (hvoid : VoidCalls f insns) (hm : m.stack.Avoids (Node.Names f))
    (h : runAfter config prev m insns = .ok m') :
    m'.stack.Avoids (Node.Names f) ∧ Stmt.tally P m'.scope.stmts
      = Stmt.tally P m.scope.stmts + insns.countP (·.callee? == some f) := by
  have hsub : ∀ {is js : List Insn}, VoidCalls f js → is ⊆ js → VoidCalls f is := fun hv hsub =>
    ⟨hv.void, fun i hi => hv.static i (hsub hi)⟩
  fun_induction runAfter config prev m insns with
  | case1 =>
    cases h
    exact ⟨hm, rfl⟩
  | case2 prev m insn =>
    obtain ⟨_, _, h⟩ := Except.bind_eq_ok.1 h
    obtain ⟨out, hout, h⟩ := Except.bind_eq_ok.1 h
    cases h
    obtain ⟨hst, _, htally⟩ := step_tally hP hvoid hm hout
    refine ⟨hst, htally.trans ?_⟩
    simp [List.countP_cons]
  | case3 prev m insn next rest ih ih' =>
    obtain ⟨_, _, h⟩ := Except.bind_eq_ok.1 h
    obtain ⟨out, hout, h⟩ := Except.bind_eq_ok.1 h
    obtain ⟨hst, htook, htally⟩ := step_tally hP (hsub hvoid (by simp)) hm hout
    split at h
    · rename_i htaken
      -- neither of the two instructions is a call
      have hboth := htook htaken
      have hinsn : insn.callee? = none := hboth insn (by simp)
      have hnext : next.callee? = none := hboth next (by simp)
      obtain ⟨hst', htally'⟩ := ih out (hsub hvoid fun i hi => by simp [hi]) hst h
      refine ⟨hst', ?_⟩
      rw [htally', htally]
      simp [hinsn, hnext]
    · obtain ⟨hst', htally'⟩ := ih' out (hsub hvoid fun i hi => by simp_all) hst h
      refine ⟨hst', ?_⟩
      rw [htally', htally, List.countP_cons (a := insn)]
      simp only [beq_iff_eq]
      omega

/-- Every instruction that calls the method adds a statement that invokes it. -/
theorem run_tally (hP : Tracks f P) {insns : List Insn} (hvoid : VoidCalls f insns)
    (hm : m.stack.Avoids (Node.Names f)) (h : run config m insns = .ok m') :
    m'.stack.Avoids (Node.Names f) ∧ Stmt.tally P m'.scope.stmts
      = Stmt.tally P m.scope.stmts + insns.countP (·.callee? == some f) :=
  runAfter_tally hP hvoid hm h

end Simulation

end Restructure
