import Restructure.Proofs.Simulation.Stages

namespace Restructure

/-!
# Acts — what a part of a run does to statements and operands

A part of a run of straight-line code adds a statement, takes one back, or leaves the statements as
they are. In each case the operands that wait behind it are known as computations.

* `Eval.Looks` — computations that only look at the machine.
* `Simulation.Stage.Acts` — the ways in which a part of a run acts.
* `Simulation.acts_of_alone`, `Simulation.acts_of_withNext`, `Simulation.acts_of_lent` — single
  instructions, and those that take in the next one.
-/

/-! ### Computations that only look -/

namespace Eval

variable {α β : Type}

/-- The computation always yields a result, changes nothing, and its argument can be read off its
    result. -/
def Looks (f : α → Eval β) : Prop :=
  ∃ result : Machine → α → β,
    (∀ σ, Function.Injective (result σ)) ∧ ∀ a σ, f a σ = (some (result σ a), σ)

/-- A result that is already there only looks. -/
theorem looks_pure : Looks (fun a : α => (pure a : Eval α)) :=
  ⟨fun _ => id, fun _ => Function.injective_id, fun _ _ => rfl⟩

/-- Reading a local only looks. -/
theorem looks_getLocal (slot : Nat) :
    Looks (fun vs : List Value => do
      let v ← getLocal slot
      return v :: vs) :=
  ⟨fun σ vs => σ.locals slot :: vs, fun _ => List.cons_injective, fun _ _ => rfl⟩

/-- Reading a static field only looks. -/
theorem looks_getStatic (f : FieldRef) :
    Looks (fun vs : List Value => do
      let v ← getStatic f
      return v :: vs) :=
  ⟨fun σ vs => σ.statics f :: vs, fun _ => List.cons_injective, fun _ _ => rfl⟩

/-- What a look follows can be told from its result. -/
theorem Looks.bind_eq_iff {f : α → Eval β} (hf : Looks f) {x y : Eval α} {σ : Machine} :
    (x >>= f) σ = (y >>= f) σ ↔ x σ = y σ := by
  constructor
  · intro h
    obtain ⟨result, hinjective, hresult⟩ := hf
    rcases hx : x σ with ⟨_ | a, σ₁⟩ <;> rcases hy : y σ with ⟨_ | b, σ₂⟩
    · rw [bind_of_none hx, bind_of_none hy] at h
      cases h
      rfl
    · rw [bind_of_none hx, bind_of_some hy, hresult] at h
      cases h
    · rw [bind_of_some hx, bind_of_none hy, hresult] at h
      cases h
    · rw [bind_of_some hx, bind_of_some hy, hresult, hresult] at h
      obtain ⟨hab, rfl⟩ := Prod.mk.inj h
      rw [hinjective σ₁ (Option.some.inj hab)]
  · intro h
    exact bind_congr_left h f

/-! ### Reads and writes -/

/-- A local that has just been set is read as it was set. -/
theorem setLocal_getLocal (slot : Nat) (v : Value) (f : Value → Eval α) :
    (do
      setLocal slot v
      let w ← getLocal slot
      f w) = (do
      setLocal slot v
      f v) := by
  funext σ
  show f (Function.update σ.locals slot v slot) _ = f v _
  rw [Function.update_self]

/-- A static field that has just been set is read as it was set. -/
theorem setStatic_getStatic (r : FieldRef) (v : Value) (f : Value → Eval α) :
    (do
      setStatic r v
      let w ← getStatic r
      f w) = (do
      setStatic r v
      f v) := by
  funext σ
  show f (Function.update σ.statics r v r) _ = f v _
  rw [Function.update_self]

/-- A read behind an increment yields the new value. -/
theorem increment_getLocal (slot : Nat) (n : Int) (f : Value → Eval α) :
    (do
      let _ ← increment slot n
      let v ← getLocal slot
      f v) = (do
      let change ← increment slot n
      f change.2) := by
  simp only [increment, bind_assoc, pure_bind, setLocal_getLocal]

/-- A read before an increment yields the old value. -/
theorem getLocal_increment (slot : Nat) (n : Int) (f : Value → Eval α) :
    (do
      let v ← getLocal slot
      let _ ← increment slot n
      f v) = (do
      let change ← increment slot n
      f change.1) := rfl

end Eval

/-- The destination is a variable: nothing is evaluated to find it. -/
def Place.isVariable : Place → Bool
  | .var _ | .static _ => true
  | .field _ _ | .element _ _ => false

/-- A variable reads as what was written to it. -/
theorem Place.write_read {env : Behaviour} {α : Type} (target : Place) (v : Value)
    (f : Value → Eval α) :
    (do
      target.write v
      let w ← target.read.eval env
      f w) = (do
      target.write v
      f v) := by
  cases target with
  | var w => exact Eval.setLocal_getLocal w.slot v f
  | static r => exact Eval.setStatic_getStatic r v f
  | field _ _ | element _ _ => rfl

/-- Reading a variable is a look. -/
theorem Place.looks_read (env : Behaviour) {target : Place} (h : target.isVariable = true) :
    Eval.Looks (fun vs : List Value => do
      let v ← target.read.eval env
      return v :: vs) := by
  cases target with
  | var v => exact Eval.looks_getLocal v.slot
  | static f => exact Eval.looks_getStatic f
  | field _ _ | element _ _ => cases h

namespace Simulation

variable {config : Config} {env : Behaviour} {m m' : Simulation}

/-! ### The meaning of the operations -/

/-- Looking up a slot yields a local of this slot, and writes nothing. -/
theorem resolve_spec {slot : Nat} {type : String} {v : Local}
    (h : m.resolve slot type = .ok (v, m')) :
    v.slot = slot ∧ m'.scope.stmts = m.scope.stmts ∧ m'.stack = m.stack := by
  refine ⟨?_, stmts_of_resolve h, ?_⟩
  · unfold resolve at h
    split at h
    · rename_i w hw
      cases h
      simpa using List.find?_some hw
    · obtain ⟨scope, _, h⟩ := Except.map_eq_ok.1 h
      cases h
      rfl
  · unfold resolve at h
    split at h
    · cases h
      rfl
    · obtain ⟨scope, _, h⟩ := Except.map_eq_ok.1 h
      cases h
      rfl

/-- A statement is added at the end. -/
theorem append_spec {stmt : Stmt} (h : m.append stmt = .ok m') :
    m'.scope.stmts = m.scope.stmts ++ [stmt] ∧ m'.stack = m.stack := by
  obtain ⟨scope, hscope, rfl⟩ := Except.map_eq_ok.1 h
  exact ⟨Scope.stmts_of_append hscope, rfl⟩

/-- A value that is the same as a read of a variable is this read. -/
theorem eq_read_of_same {e : Expr} {target : Place} (htarget : target.isVariable = true)
    (h : e.same target.read = true) : e = target.read := by
  cases target with
  | var v => cases e <;> simp_all [Place.read, Expr.same]
  | static f => cases e <;> simp_all [Place.read, Expr.same]
  | field _ _ | element _ _ => cases htarget

variable (env) in
/-- An assignment evaluates its value and writes it, in the compound form too. -/
theorem assign_spec {target : Place} {value : Expr} (h : assign config m target value = .ok m')
    (htarget : target.isVariable = true) :
    ∃ stmt, m'.scope.stmts = m.scope.stmts ++ [stmt] ∧ m'.stack = m.stack ∧
      stmt.exec env = (do
        let v ← value.eval env
        target.write v) := by
  unfold assign at h
  split at h
  · rename_i op left right
    split at h
    · rename_i hcompound
      rw [Bool.and_eq_true] at hcompound
      have happend := append_spec h
      refine ⟨_, happend.1, happend.2, ?_⟩
      simp only [Stmt.exec, Expr.eval, bind_assoc]
      rw [eq_read_of_same htarget hcompound.2]
    · have happend := append_spec h
      exact ⟨_, happend.1, happend.2, rfl⟩
  · have happend := append_spec h
    exact ⟨_, happend.1, happend.2, rfl⟩

/-- The store behind a copy writes a local or a static field. -/
theorem storeTarget_spec {next : Option Insn} {target : Place}
    (h : m.storeTarget? next = .ok (some (target, m'))) :
    m'.scope.stmts = m.scope.stmts ∧ m'.stack = m.stack ∧
      ((∃ slot t v, next = some (.store slot t) ∧ target = .var v ∧ v.slot = slot) ∨
        ∃ f, next = some (.putStatic f) ∧ target = .static f) := by
  unfold storeTarget? at h
  split at h
  · rename_i slot t
    obtain ⟨r, hr, h⟩ := Except.map_eq_ok.1 h
    cases h
    obtain ⟨hslot, hstmts, hstack⟩ := resolve_spec hr
    exact ⟨hstmts, hstack, .inl ⟨slot, t, r.1, rfl, rfl, hslot⟩⟩
  · cases h
    exact ⟨rfl, rfl, .inr ⟨_, rfl, rfl⟩⟩
  · cases h

/-- A read pushes the local, or takes an increment of it back and pushes that. -/
theorem load_spec {prev : Option Insn} {slot : Nat} {type : String}
    (h : load config m prev slot type = .ok m') :
    ((m.justIncremented? prev slot = none ∨ config.increments = false) ∧ ∃ v : Local,
      v.slot = slot ∧ m'.scope.stmts = m.scope.stmts ∧ m'.stack = .value (.var v) :: m.stack) ∨
    (config.increments = true ∧ ∃ v n, m.justIncremented? prev slot = some (v, n) ∧
      v.slot = slot ∧ m.scope.stmts = m'.scope.stmts ++ [.increment v n] ∧
      m'.stack = .value (.increment v n true) :: m.stack) := by
  obtain ⟨⟨v, m₁⟩, hv, h⟩ := Except.bind_eq_ok.1 h
  obtain ⟨hslot, hstmts, hstack⟩ := resolve_spec hv
  -- looking the slot up writes no statement, so the last one is the same
  have hjust : m₁.justIncremented? prev slot = m.justIncremented? prev slot := by
    unfold justIncremented? Scope.last?
    rw [hstmts]
  simp only [hjust] at h
  split at h
  · rename_i w n hw
    split at h
    · rename_i hincrements
      obtain ⟨⟨s, scope⟩, hpop, h⟩ := Except.bind_eq_ok.1 h
      cases h
      have hlast := Scope.stmts_of_pop hpop
      rw [hstmts] at hlast
      obtain ⟨hw', hincrement⟩ := last_of_justIncremented hw
      obtain rfl : s = .increment w n := by
        rw [Scope.last?, hlast, List.getLast?_concat] at hincrement
        exact Option.some.inj hincrement
      refine .inr ⟨hincrements, w, n, hw, hw', hlast, ?_⟩
      show Operands.push m₁.stack _ = _
      rw [hstack]
      rfl
    · rename_i hincrements
      cases h
      refine .inl ⟨.inr (by simpa using hincrements), v, hslot, hstmts, ?_⟩
      show Operands.push m₁.stack _ = _
      rw [hstack]
      rfl
  · rename_i hnone
    cases h
    refine .inl ⟨.inl hnone, v, hslot, hstmts, ?_⟩
    show Operands.push m₁.stack _ = _
    rw [hstack]
    rfl

/-- An increment becomes part of the read before it, or is a statement. -/
theorem increment_spec {prev : Option Insn} {slot : Nat} {n : Int}
    (h : increment config m prev slot n = .ok m') :
    (config.increments = true ∧ ∃ st, m.justRead? prev slot = some st ∧ ∃ v w : Local,
      v.slot = slot ∧ w.slot = slot ∧ m.stack = .value (.var w) :: st ∧
      m'.scope.stmts = m.scope.stmts ∧ m'.stack = .value (.increment v n false) :: st) ∨
    ((m.justRead? prev slot = none ∨ config.increments = false) ∧ ∃ v : Local, v.slot = slot ∧
      m'.scope.stmts = m.scope.stmts ++ [.increment v n] ∧ m'.stack = m.stack) := by
  obtain ⟨⟨v, m₁⟩, hv, h⟩ := Except.bind_eq_ok.1 h
  obtain ⟨hslot, hstmts, hstack⟩ := resolve_spec hv
  have hjust : m₁.justRead? prev slot = m.justRead? prev slot := by
    unfold justRead?
    rw [hstack]
  simp only [hjust] at h
  split at h
  · rename_i st hst
    split at h
    · rename_i hincrements
      cases h
      obtain ⟨w, hw, htop⟩ := stack_of_justRead hst
      exact .inl ⟨hincrements, st, hst, v, w, hslot, hw, htop, hstmts, rfl⟩
    · rename_i hincrements
      have happend := append_spec h
      refine .inr ⟨.inr (by simpa using hincrements), v, hslot, ?_, happend.2.trans hstack⟩
      rw [happend.1, hstmts]
  · rename_i hnone
    have happend := append_spec h
    refine .inr ⟨.inl hnone, v, hslot, ?_, happend.2.trans hstack⟩
    rw [happend.1, hstmts]

variable (env) in
/-- Taking arguments from the stack takes as many as asked for, and evaluating them behind what
    stays below is evaluating the stack. -/
theorem popMany_spec {count : Nat} {st st' : Operands} {es : List Expr}
    (h : Operands.popMany count st = .ok (es, st')) :
    es.length = count ∧ st.eval env = (do
      let vs ← st'.eval env
      let as ← Expr.evalAll env es
      return as.reverse ++ vs) := by
  induction count generalizing st es st' with
  | zero =>
    cases h
    refine ⟨rfl, ?_⟩
    simp only [Expr.evalAll, pure_bind, List.reverse_nil, List.nil_append, bind_pure]
  | succ count ih =>
    obtain ⟨⟨e, st₁⟩, he, h⟩ := Except.bind_eq_ok.1 h
    obtain ⟨⟨es', st₂⟩, hes, h⟩ := Except.bind_eq_ok.1 h
    cases h
    -- the last argument is on top; those below it are evaluated first
    obtain ⟨hlength, heval⟩ := ih hes
    refine ⟨by simp [hlength], ?_⟩
    rw [pop_ok he]
    simp only [Operands.eval, Operand.eval, heval, Expr.evalAll_append, Expr.evalAll, bind_assoc,
      pure_bind, List.reverse_append, List.reverse_cons, List.reverse_nil, List.nil_append,
      List.cons_append]

/-! ### What a part of a run does -/

/-- The operands that wait below what a part of a run leaves on the stack. An instruction that
    takes in the next one leaves one value. -/
def Stage.waiting (g : Stage) : Operands :=
  match g.taken with
  | [_] => g.after.stack
  | _ => g.after.stack.tail

/-- The ways in which a part of a run acts on statements and operands. -/
inductive Stage.Acts (env : Behaviour) (g : Stage) : Prop
  /-- No statement comes or goes, and the operands do what the instructions do. -/
  | replaces (hstmts : g.after.scope.stmts = g.before.scope.stmts) (hswap : g.taken ≠ [.swap])
      (hpop : g.taken ≠ [.pop])
      (heval : g.after.stack.eval env = g.before.stack.eval env >>= Insn.execAll env g.taken)
  /-- A statement is added for the instructions, with at most a look behind it. -/
  | adds (stmt : Stmt) (look : List Value → Eval (List Value)) (hlook : Eval.Looks look)
      (hstmts : g.after.scope.stmts = g.before.scope.stmts ++ [stmt]) (hswap : g.taken ≠ [.swap])
      (hafter : g.after.stack.eval env = g.waiting.eval env >>= look)
      (heval : g.before.stack.eval env >>= Insn.execAll env g.taken = (do
        let vs ← g.waiting.eval env
        stmt.exec env
        look vs))
  /-- A statement is taken back and executed behind the operands. -/
  | takesBack (stmt : Stmt) (look : List Value → Eval (List Value)) (hlook : Eval.Looks look)
      (hstmts : g.before.scope.stmts = g.after.scope.stmts ++ [stmt]) (hswap : g.taken ≠ [.swap])
      (hafter : g.after.stack.eval env = (do
        let vs ← g.before.stack.eval env
        stmt.exec env
        look vs))
      (heval : g.before.stack.eval env >>= Insn.execAll env g.taken
        = g.before.stack.eval env >>= look)
  /-- Two operands are exchanged. -/
  | swaps (o p : Operand) (st : Operands) (hstmts : g.after.scope.stmts = g.before.scope.stmts)
      (htaken : g.taken = [.swap]) (hbefore : g.before.stack = o :: p :: st)
      (hafter : g.after.stack = p :: o :: st)
  /-- An operand is dropped. -/
  | drops (o : Operand) (st : Operands) (hstmts : g.after.scope.stmts = g.before.scope.stmts)
      (htaken : g.taken = [.pop]) (hbefore : g.before.stack = o :: st) (hafter : g.after.stack = st)

/-- There are as many results as values. -/
theorem Expr.length_of_evalAll {es : List Expr} {vs : List Value} {σ σ' : Machine}
    (h : Expr.evalAll env es σ = (some vs, σ')) : vs.length = es.length := by
  induction es generalizing vs σ with
  | nil =>
    cases h
    rfl
  | cons e es ih =>
    rw [Expr.evalAll, Eval.bind_apply] at h
    rcases he : e.eval env σ with ⟨_ | v, σ₁⟩
    · rw [he] at h
      cases h
    · rw [he] at h
      simp only [Eval.bind_apply] at h
      rcases hes : Expr.evalAll env es σ₁ with ⟨_ | ws, σ₂⟩
      · rw [hes] at h
        cases h
      · rw [hes] at h
        cases h
        rw [List.length_cons, ih hes, List.length_cons]

/-- Computations may be replaced by others that agree on what comes before them. -/
theorem Eval.bind_congr_of_result {α β : Type} {x : Eval α} {f g : α → Eval β}
    (h : ∀ σ a σ', x σ = (some a, σ') → f a σ' = g a σ') : x >>= f = x >>= g := by
  funext σ
  rcases hx : x σ with ⟨_ | a, σ'⟩
  · rw [Eval.bind_of_none hx, Eval.bind_of_none hx]
  · rw [Eval.bind_of_some hx, Eval.bind_of_some hx]
    exact h σ a σ' hx

variable (env) in
/-- A static call on evaluated operands is the evaluation of the call. -/
theorem eval_invoke {method : MethodRef} {t : MethodType} {st : Operands} {es : List Expr}
    (ht : method.parse = .ok t) (h : Operands.popMany t.params.length m.stack = .ok (es, st)) :
    m.stack.eval env >>= Insn.exec env (.invoke .static method) = (do
      let vs ← st.eval env
      let v ← (Expr.staticCall method es).eval env
      return if t.returnsVoid then vs else v :: vs) := by
  obtain ⟨hlength, heval⟩ := popMany_spec env h
  rw [heval]
  simp only [bind_assoc, Expr.eval, pure_bind]
  congr 1
  funext vs
  refine Eval.bind_congr_of_result fun σ as σ' has => ?_
  -- as many results as parameters are on top, so the call takes these and nothing else
  have has : as.reverse.length = t.params.length := by
    rw [List.length_reverse, Expr.length_of_evalAll has, hlength]
  have hle : as.reverse.length ≤ (as.reverse ++ vs).length := by
    rw [List.length_append]
    omega
  simp only [Insn.exec, ht, if_pos hle, ← has, List.take_left, List.drop_left, List.reverse_reverse]

/-- The computation of a stack with a value on top. -/
theorem eval_push (e : Expr) (st : Operands) :
    Operands.eval env (.value e :: st) = (do
      let vs ← st.eval env
      let v ← e.eval env
      return v :: vs) := rfl

/-- An operand without effects leaves the machine as it is. -/
theorem readOnly_of_pure {o : Operand} (h : ∀ e, o = .value e → e.hasEffects = false) :
    (o.eval env).ReadOnly := by
  cases o with
  | value e => exact Expr.eval_readOnly e (h e rfl)
  | uninitialized _ => exact fun _ => rfl

/-! ### Single instructions -/

section Alone

variable {prev next : Option Insn} {out : Outcome}

/-- A read adds its variable to the operands, and an increment directly before it is taken back. -/
theorem acts_of_load {slot : Nat} {t : String}
    (h : step config m prev (.load slot t) next = .ok out) :
    Stage.Acts env ⟨m, [.load slot t], out.state⟩ := by
  obtain ⟨m₁, hm₁, rfl⟩ := Except.map_eq_ok.1 h
  rcases load_spec hm₁ with ⟨_, v, rfl, hstmts, hstack⟩ | ⟨_, v, n, _, rfl, hstmts, hstack⟩
  · refine .replaces hstmts (by simp) (by simp) ?_
    show m₁.stack.eval env = m.stack.eval env >>= _
    rw [hstack, Insn.execAll_singleton]
    rfl
  -- the increment moves from the end of the code behind the operands that wait
  · refine .takesBack _ _ (Eval.looks_getLocal v.slot) hstmts (by simp) ?_ ?_
    · show m₁.stack.eval env = (m.stack.eval env >>= _)
      rw [hstack, eval_push]
      simp only [Expr.eval, Stmt.exec, bind_assoc, pure_bind, Eval.increment_getLocal, if_true]
    · rw [Insn.execAll_singleton]
      rfl

/-- An increment becomes part of the read before it, or a statement of its own. -/
theorem acts_of_increment {slot : Nat} {n : Int}
    (h : step config m prev (.increment slot n) next = .ok out) :
    Stage.Acts env ⟨m, [.increment slot n], out.state⟩ := by
  obtain ⟨m₁, hm₁, rfl⟩ := Except.map_eq_ok.1 h
  rcases increment_spec hm₁ with
    ⟨_, st, _, v, w, rfl, hw, hbefore, hstmts, hstack⟩ | ⟨_, v, rfl, hstmts, hstack⟩
  -- the read and its increment become one value
  · refine .replaces hstmts (by simp) (by simp) ?_
    show m₁.stack.eval env = m.stack.eval env >>= _
    rw [hstack, hbefore, Insn.execAll_singleton, eval_push, eval_push]
    simp only [Expr.eval, Insn.exec, bind_assoc, pure_bind, hw, Eval.getLocal_increment,
      Bool.false_eq_true, if_false]
  · refine .adds _ _ Eval.looks_pure hstmts (by simp) (bind_pure _).symm ?_
    show m.stack.eval env >>= _ = (m₁.stack.eval env >>= _)
    rw [hstack, Insn.execAll_singleton]
    rfl

/-- An operator evaluates both operands, and then computes. -/
theorem acts_of_binary {op : BinaryOp} {t : String}
    (h : step config m prev (.binary op t) next = .ok out) :
    Stage.Acts env ⟨m, [.binary op t], out.state⟩ := by
  obtain ⟨m₁, hm₁, rfl⟩ := Except.map_eq_ok.1 h
  obtain ⟨⟨right, st₁⟩, hright, h⟩ := Except.bind_eq_ok.1 hm₁
  obtain ⟨⟨left, st₂⟩, hleft, h⟩ := Except.bind_eq_ok.1 h
  cases h
  refine .replaces rfl (by simp) (by simp) ?_
  show Operands.eval env (.value (.binary op left right) :: st₂) = m.stack.eval env >>= _
  rw [pop_ok hright, pop_ok hleft, Insn.execAll_singleton, eval_push, eval_push, eval_push]
  simp only [Expr.eval, Insn.exec, bind_assoc, pure_bind]

/-- A store adds an assignment behind the operands below its value. -/
theorem acts_of_store {slot : Nat} {t : String}
    (h : step config m prev (.store slot t) next = .ok out) :
    Stage.Acts env ⟨m, [.store slot t], out.state⟩ := by
  obtain ⟨⟨value, st⟩, hvalue, h⟩ := Except.bind_eq_ok.1 h
  obtain ⟨⟨v, m₁⟩, hv, h⟩ := Except.bind_eq_ok.1 h
  obtain ⟨m₂, hm₂, rfl⟩ := Except.map_eq_ok.1 h
  obtain ⟨rfl, hstmts₁, hstack₁⟩ := resolve_spec hv
  obtain ⟨stmt, hstmts, hstack, hexec⟩ := assign_spec env hm₂ rfl
  refine .adds stmt _ Eval.looks_pure ?_ (by simp) (bind_pure _).symm ?_
  · show m₂.scope.stmts = m.scope.stmts ++ [stmt]
    rw [hstmts, hstmts₁]
  · show m.stack.eval env >>= _ = (m₂.stack.eval env >>= _)
    rw [hstack, hstack₁, pop_ok hvalue, Insn.execAll_singleton, eval_push, hexec]
    simp only [Insn.exec, Place.write, bind_assoc, pure_bind]

/-- A store into a static field evaluates its value. -/
theorem acts_of_putStatic {f : FieldRef} (h : step config m prev (.putStatic f) next = .ok out) :
    Stage.Acts env ⟨m, [.putStatic f], out.state⟩ := by
  obtain ⟨⟨value, st⟩, hvalue, h⟩ := Except.bind_eq_ok.1 h
  obtain ⟨m₁, hm₁, rfl⟩ := Except.map_eq_ok.1 h
  obtain ⟨stmt, hstmts, hstack, hexec⟩ := assign_spec env hm₁ rfl
  refine .adds stmt _ Eval.looks_pure hstmts (by simp) (bind_pure _).symm ?_
  show m.stack.eval env >>= _ = (m₁.stack.eval env >>= _)
  rw [hstack, pop_ok hvalue, Insn.execAll_singleton, eval_push, hexec]
  simp only [Insn.exec, Place.write, bind_assoc, pure_bind]

/-- A call is a statement if it has no result, and else an operand. -/
theorem acts_of_invoke {method : MethodRef}
    (h : step config m prev (.invoke .static method) next = .ok out) :
    Stage.Acts env ⟨m, [.invoke .static method], out.state⟩ := by
  obtain ⟨m₁, hm₁, rfl⟩ := Except.map_eq_ok.1 h
  obtain ⟨t, ht, h⟩ := Except.bind_eq_ok.1 hm₁
  obtain ⟨⟨args, st⟩, hargs, h⟩ := Except.bind_eq_ok.1 h
  have heval := eval_invoke env (parse_of_ofDescriptor ht) hargs
  simp only [Dispatch.hasReceiver, Bool.false_eq_true, if_false, emitCall] at h
  split at h
  · rename_i hvoid
    obtain ⟨hstmts, hstack⟩ := append_spec h
    refine .adds _ _ Eval.looks_pure hstmts (by simp) (bind_pure _).symm ?_
    show m.stack.eval env >>= _ = (m₁.stack.eval env >>= _)
    rw [hstack, Insn.execAll_singleton, heval]
    simp only [if_pos hvoid, Stmt.exec, bind_assoc, pure_bind]
  · rename_i hvoid
    cases h
    refine .replaces rfl (by simp) (by simp) ?_
    show Operands.eval env (.value _ :: st) = m.stack.eval env >>= _
    rw [Insn.execAll_singleton, heval, eval_push]
    simp only [if_neg hvoid]

/-- A copy that is simulated alone copies an operand without effects. -/
theorem acts_of_dup (h : step config m prev .dup next = .ok out) (hnext : out.tookNext = false) :
    Stage.Acts env ⟨m, [.dup], out.state⟩ := by
  rcases dup_cases h with ⟨_, hscope, o, st, hbefore, hafter, hpure⟩ | ⟨htook, _⟩
  · refine .replaces (by rw [hscope]) (by simp) (by simp) ?_
    show out.state.stack.eval env = m.stack.eval env >>= _
    rw [hafter, hbefore, Insn.execAll_singleton]
    simp only [Operands.eval, Insn.exec, bind_assoc, pure_bind, (readOnly_of_pure hpure).twice]
  · rw [hnext] at htook
    cases htook

/-- An operand with effects becomes a statement, and any other is dropped. -/
theorem acts_of_pop (h : step config m prev .pop next = .ok out) :
    Stage.Acts env ⟨m, [.pop], out.state⟩ := by
  obtain ⟨m₁, hm₁, rfl⟩ := Except.map_eq_ok.1 h
  obtain ⟨⟨o, st⟩, ho, h⟩ := Except.bind_eq_ok.1 hm₁
  have hbefore := popEntry_ok ho
  cases o with
  | value e =>
    simp only [discard] at h
    split at h
    · obtain ⟨hstmts, hstack⟩ := append_spec h
      refine .adds _ _ Eval.looks_pure hstmts (by simp) (bind_pure _).symm ?_
      show m.stack.eval env >>= _ = (m₁.stack.eval env >>= _)
      rw [hstack, hbefore, Insn.execAll_singleton, eval_push]
      simp only [Insn.exec, Stmt.exec, bind_assoc, pure_bind]
    · cases h
      exact .drops _ st rfl rfl hbefore rfl
  | uninitialized t =>
    cases h
    exact .drops _ st rfl rfl hbefore rfl

/-- The two entries on top change places. -/
theorem acts_of_swap (h : step config m prev .swap next = .ok out) :
    Stage.Acts env ⟨m, [.swap], out.state⟩ := by
  obtain ⟨m₁, hm₁, rfl⟩ := Except.map_eq_ok.1 h
  obtain ⟨⟨o, st₁⟩, ho, h⟩ := Except.bind_eq_ok.1 hm₁
  obtain ⟨⟨p, st₂⟩, hp, h⟩ := Except.bind_eq_ok.1 h
  cases h
  refine .swaps o p st₂ rfl rfl ?_ rfl
  show m.stack = _
  rw [popEntry_ok ho, popEntry_ok hp]

/-- An instruction that is simulated alone acts in one of the ways. -/
theorem acts_of_alone {insn : Insn} (hi : insn.isStraight = true)
    (h : step config m prev insn next = .ok out) (hnext : out.tookNext = false) :
    Stage.Acts env ⟨m, [insn], out.state⟩ := by
  cases insn with
  | const c =>
    cases h
    refine .replaces rfl (by simp) (by simp) ?_
    rw [Insn.execAll_singleton]
    rfl
  | getStatic f =>
    cases h
    refine .replaces rfl (by simp) (by simp) ?_
    rw [Insn.execAll_singleton]
    rfl
  | load slot t => exact acts_of_load h
  | increment slot n => exact acts_of_increment h
  | binary op t => exact acts_of_binary h
  | store slot t => exact acts_of_store h
  | putStatic f => exact acts_of_putStatic h
  | invoke dispatch method =>
    obtain rfl : dispatch = .static := by simpa [Insn.isStraight] using hi
    exact acts_of_invoke h
  | dup => exact acts_of_dup h hnext
  | pop => exact acts_of_pop h
  | swap => exact acts_of_swap h
  | _ => cases hi

end Alone

/-- A copy that takes in the store behind it adds the assignment and reads the variable. -/
theorem acts_of_withNext {prev : Option Insn} {insn next : Insn} {out : Outcome}
    (hi : insn.isStraight = true) (h : step config m prev insn (some next) = .ok out)
    (hnext : out.tookNext = true) : Stage.Acts env ⟨m, [insn, next], out.state⟩ := by
  obtain rfl := eq_dup_of_tookNext hi h hnext
  rcases dup_cases h with ⟨hfalse, _⟩ |
    ⟨_, e, st, target, m₁, m₂, hbefore, htarget, hassign, hafter⟩
  · rw [hfalse] at hnext
    cases hnext
  · obtain ⟨hstmts₁, hstack₁, hplace⟩ := storeTarget_spec htarget
    have hvariable : target.isVariable = true := by
      rcases hplace with ⟨_, _, v, _, rfl, _⟩ | ⟨f, _, rfl⟩
      · rfl
      · rfl
    obtain ⟨stmt, hstmts, hstack, hexec⟩ := assign_spec env hassign hvariable
    -- the store by itself would write the copy
    have hnextExec : ∀ v vs, Insn.exec env next (v :: vs) = (do
        target.write v
        return vs) := by
      intro v vs
      rcases hplace with ⟨slot, t, w, hstore, rfl, rfl⟩ | ⟨f, hput, rfl⟩
      · cases hstore
        rfl
      · cases hput
        rfl
    have hwaiting : m₂.stack = st := hstack.trans hstack₁
    refine .adds stmt _ (Place.looks_read env hvariable) ?_ (by simp) ?_ ?_
    · show out.state.scope.stmts = m.scope.stmts ++ [stmt]
      rw [hafter, show (m₂.pushOn m₂.stack target.read).scope = m₂.scope from rfl, hstmts, hstmts₁]
    · show out.state.stack.eval env = Operands.eval env out.state.stack.tail >>= _
      rw [hafter]
      exact eval_push target.read m₂.stack
    · show m.stack.eval env >>= _ = (Operands.eval env out.state.stack.tail >>= _)
      rw [hafter, hbefore, eval_push,
        show (m₂.pushOn m₂.stack target.read).stack.tail = m₂.stack from rfl, hwaiting]
      have hdup : ∀ v vs, Insn.exec env .dup (v :: vs) = pure (v :: v :: vs) := fun _ _ => rfl
      simp only [Insn.execAll, hdup, hnextExec, hexec, bind_assoc, pure_bind, bind_pure,
        Place.write_read]

/-- An increment whose statement the read behind it takes back. -/
theorem acts_of_lent {prev next' : Option Insn} {insn next : Insn} {out out' : Outcome}
    (h : step config m prev insn (some next) = .ok out)
    (hlent : isLent config m prev insn next = true)
    (h' : step config out.state (some insn) next next' = .ok out') :
    Stage.Acts env ⟨m, [insn, next], out'.state⟩ := by
  unfold isLent at hlent
  split at hlent
  · rename_i slot n slot' t
    simp only [Bool.and_eq_true, beq_iff_eq, Option.isNone_iff_eq_none] at hlent
    obtain ⟨⟨hincrements, rfl⟩, hread⟩ := hlent
    obtain ⟨m₁, hm₁, rfl⟩ := Except.map_eq_ok.1 h
    obtain ⟨m₂, hm₂, rfl⟩ := Except.map_eq_ok.1 h'
    -- the increment is a statement, for no read stands before it
    rcases increment_spec hm₁ with ⟨_, st, hst, _⟩ | ⟨_, v, rfl, hstmts, hstack⟩
    · rw [hread] at hst
      cases hst
    -- and the read finds this statement at the end
    have hjust : m₁.justIncremented? (some (.increment v.slot n)) v.slot = some (v, n) := by
      unfold justIncremented? Scope.last?
      simp only [hstmts, List.getLast?_concat, and_self, if_true]
    rcases load_spec hm₂ with ⟨hnot, _⟩ | ⟨_, w, k, hw, _, hstmts₂, hstack₂⟩
    · rcases hnot with hnone | hoff
      · have hcontra : some (v, n) = none := hjust.symm.trans hnone
        cases hcontra
      · rw [hincrements] at hoff
        cases hoff
    have hvn : some (v, n) = some (w, k) := hjust.symm.trans hw
    cases hvn
    have hsame : m₂.scope.stmts = m.scope.stmts := by
      have hboth : m.scope.stmts ++ [.increment v n] = m₂.scope.stmts ++ [.increment v n] :=
        hstmts.symm.trans hstmts₂
      exact (List.append_cancel_right hboth).symm
    refine .replaces hsame (by simp) (by simp) ?_
    show m₂.stack.eval env = m.stack.eval env >>= _
    rw [hstack₂, show m₁.alone.state.stack = m.stack from hstack, eval_push]
    simp only [Insn.execAll, Insn.exec, Expr.eval, bind_assoc, pure_bind, if_true, bind_pure,
      Eval.increment_getLocal]
  · cases hlent

/-- Every part of a run of straight-line code acts in one of the ways. -/
theorem Stage.Arises.acts {g : Stage} (h : g.Arises config)
    (hs : ∀ i ∈ g.taken, i.isStraight = true) : g.Acts env := by
  cases h with
  | alone h hnext => exact acts_of_alone (hs _ (by simp)) h hnext
  | withNext h hnext => exact acts_of_withNext (hs _ (by simp)) h hnext
  | lent h hlent h' => exact acts_of_lent h hlent h'

end Simulation

end Restructure
