import Restructure.Proofs.Effects.Courses
import Restructure.Proofs.Region.Forms
import Restructure.Proofs.Simulation.Acts

namespace Restructure

/-!
# Order — blocks whose effects stay in order

Instructions put their effects into values that wait on the stack, or into statements. A statement
is executed before the values that wait when it is added, so it must not be added while there are
any; a value that is taken, copied or exchanged may change the order, too.

* `Simulation.InOrder` — the statements and values that instructions leave make their effects.
* `Simulation.Puts` — one instruction puts its effects behind those of the values that wait.
* `Simulation.keepsOrder`, `Simulation.ordered` — checks of a step and of a run.
* `Simulation.puts_of_step`, `Simulation.inOrder_of_ordered` — what they say.
* `Context.InOrder` — a block simulated on its own.
-/

/-! ### Lists of values and statements -/

section Lists

variable {σ : Type} (I : Interpretation σ)

/-- Values are evaluated one list after the other. -/
theorem Expr.performAll_append (es fs : List Expr) : Expr.performAll I (es ++ fs) = (do
    Expr.performAll I es
    Expr.performAll I fs) := by
  induction es with
  | nil => simp only [List.nil_append, Expr.performAll, pure_bind]
  | cons e es ih => simp only [List.cons_append, Expr.performAll, ih, bind_assoc]

/-- Statements are executed one list after the other. -/
theorem Stmt.performAll_append (ss ts : List Stmt) : Stmt.performAll I (ss ++ ts) = (do
    Stmt.performAll I ss
    Stmt.performAll I ts) := by
  induction ss with
  | nil => rfl
  | cons s ss ih => simp only [List.cons_append, Stmt.performAll, ih, bind_assoc]

/-- The effects of two runs of instructions stand in a row. -/
theorem Insn.allEffects_append (is js : List Insn) :
    Insn.allEffects (is ++ js) = Insn.allEffects is ++ Insn.allEffects js :=
  List.flatMap_append

/-- Taking arguments from the stack leaves their evaluation for the end. -/
theorem Operands.perform_of_popMany {count : Nat} {st st' : Operands} {es : List Expr}
    (h : st.popMany count = .ok (es, st')) : st.perform I = (do
      st'.perform I
      Expr.performAll I es) := by
  induction count generalizing st es st' with
  | zero =>
    cases h
    simp only [Expr.performAll, bind_pure_unit]
  | succ count ih =>
    obtain ⟨⟨e, st₁⟩, he, h⟩ := Except.bind_eq_ok.1 h
    obtain ⟨⟨es', st₂⟩, hes, h⟩ := Except.bind_eq_ok.1 h
    cases h
    rw [Simulation.pop_ok he]
    simp only [Operands.perform, Operand.perform, ih hes, Expr.performAll_append, Expr.performAll,
      bind_pure_unit, bind_assoc]

/-- Reading a variable does nothing. -/
theorem Place.perform_read {target : Place} (h : target.isVariable = true) :
    target.read.perform I = pure () := by
  cases target with
  | var _ | static _ => simp only [read, Expr.perform]
  | field _ _ | element _ _ => cases h

end Lists

namespace Simulation

variable {config : Config} {m m' m'' : Simulation} {is js : List Insn} {insn : Insn}
  {st : Operands} {prev next : Option Insn} {out : Outcome}

/-! ### Order -/

/-- The statements that instructions have added. -/
def added (m m' : Simulation) : List Stmt := m'.scope.stmts.drop m.scope.stmts.length

/-- The statements that instructions have added and the values that wait behind them make the
    effects of the instructions, behind those of the values that waited before. -/
structure InOrder (m : Simulation) (insns : List Insn) (m' : Simulation) : Prop where
  /-- No statement from before has been taken back. -/
  kept : m.scope.stmts <+: m'.scope.stmts
  course : ∀ {σ : Type} (I : Interpretation σ),
    (do
      Stmt.performAll I (m.added m')
      m'.stack.perform I) = (do
      m.stack.perform I
      Course.emit (Insn.allEffects insns))

/-- What is behind the statements from before has been added. -/
theorem added_of_append {ss : List Stmt} (h : m'.scope.stmts = m.scope.stmts ++ ss) :
    m.added m' = ss := by
  rw [added, h, List.drop_left]

/-- Nothing is done, in order. -/
theorem InOrder.nil : m.InOrder [] m where
  kept := List.prefix_refl _
  course I := by
    rw [added_of_append (List.append_nil _).symm]
    simp only [Stmt.performAll, Insn.allEffects, List.flatMap_nil, Course.emit_nil, pure_bind,
      bind_pure_unit]

/-- Order is kept by one part of a run after the other. -/
theorem InOrder.append (h : m.InOrder is m') (h' : m'.InOrder js m'') :
    m.InOrder (is ++ js) m'' := by
  obtain ⟨ss, hss⟩ := h.kept
  obtain ⟨ts, hts⟩ := h'.kept
  have hall : m''.scope.stmts = m.scope.stmts ++ (ss ++ ts) := by
    rw [← hts, ← hss, List.append_assoc]
  refine ⟨⟨ss ++ ts, hall.symm⟩, fun I => ?_⟩
  have hfirst := h.course I
  have hsecond := h'.course I
  rw [added_of_append hss.symm] at hfirst
  rw [added_of_append hts.symm] at hsecond
  calc (do
        Stmt.performAll I (m.added m'')
        m''.stack.perform I)
      = (do
          Stmt.performAll I ss
          Stmt.performAll I ts
          m''.stack.perform I) := by
        rw [added_of_append hall, Stmt.performAll_append, bind_assoc]
    _ = (do
          (do
            Stmt.performAll I ss
            m'.stack.perform I)
          Course.emit (Insn.allEffects js)) := by rw [hsecond, bind_assoc]
    _ = (do
          m.stack.perform I
          Course.emit (Insn.allEffects (is ++ js))) := by
        rw [hfirst, bind_assoc, Course.emit_append, Insn.allEffects_append]

/-! ### Steps -/

/-- The statement evaluates the values that its destination needs once. -/
def evaluatesOnce : Stmt → Bool
  | .compound target _ _ => target.isVariable
  | _ => true

/-- An instruction puts its effects behind those of the values that wait: into a value, or into a
    statement that ought to come behind them. -/
inductive Puts (m : Simulation) (insn : Insn) (m' : Simulation) : Prop
  | value (hstmts : m'.scope.stmts = m.scope.stmts)
      (hstack : ∀ {σ : Type} (I : Interpretation σ), m'.stack.perform I = (do
        m.stack.perform I
        Course.emit insn.effects))
  | stmt (s : Stmt) (hstmts : m'.scope.stmts = m.scope.stmts ++ [s])
      (hstack : evaluatesOnce s = true → ∀ {σ : Type} (I : Interpretation σ), (do
        m'.stack.perform I
        s.perform I) = (do
        m.stack.perform I
        Course.emit insn.effects))

/-- A value keeps the order, and so does a statement behind which nothing waits. -/
theorem Puts.inOrder (h : m.Puts insn m')
    (hadds : m.scope.size < m'.scope.size →
      m'.stack = [] ∧ ∀ s, m'.scope.last? = some s → evaluatesOnce s = true) :
    m.InOrder [insn] m' := by
  have heffects : Insn.allEffects [insn] = insn.effects := List.flatMap_singleton ..
  cases h with
  | value hstmts hstack =>
    refine ⟨hstmts ▸ List.prefix_refl _, fun I => ?_⟩
    rw [added_of_append (hstmts.trans (List.append_nil _).symm), heffects, ← hstack I]
    rfl
  | stmt s hstmts hstack =>
    refine ⟨⟨[s], hstmts.symm⟩, fun I => ?_⟩
    -- nothing waits behind the statement, so it comes last in the code as well
    obtain ⟨hempty, honce⟩ := hadds (by simp [Scope.size, hstmts])
    have hcourse := hstack (honce s (by simp [Scope.last?, hstmts])) I
    rw [added_of_append hstmts, heffects, ← hcourse, hempty]
    simp only [Stmt.performAll, Operands.perform, bind_pure_unit, pure_bind]

/-! ### Values -/

/-- A value that an instruction puts on the stack makes the effects of the instruction behind those
    of its operands. -/
theorem puts_of_pushOn {e : Expr} (he : ∀ {σ : Type} (I : Interpretation σ), (do
      m.stack.perform I
      Course.emit insn.effects) = (do
      st.perform I
      e.perform I)) : m.Puts insn (m.pushOn st e) :=
  .value rfl fun I => (he I).symm

/-- An operator on the top value. -/
theorem puts_of_unary {f : Expr → Expr} (h : m.unary f = .ok m') (heffects : insn.effects = [])
    (hf : ∀ (e : Expr) {σ : Type} (I : Interpretation σ), (f e).perform I = e.perform I) :
    m.Puts insn m' := by
  obtain ⟨⟨e, st⟩, he, h⟩ := Except.bind_eq_ok.1 h
  cases h
  refine puts_of_pushOn fun I => ?_
  rw [pop_ok he, heffects, Course.emit_nil, bind_pure_unit, Operands.perform, Operand.perform, hf]

/-- An operator on the two top values. -/
theorem puts_of_binary {f : Expr → Expr → Expr} (h : m.binary f = .ok m')
    (heffects : insn.effects = [])
    (hf : ∀ (l r : Expr) {σ : Type} (I : Interpretation σ), (f l r).perform I = (do
      l.perform I
      r.perform I)) : m.Puts insn m' := by
  obtain ⟨⟨right, st₁⟩, hright, h⟩ := Except.bind_eq_ok.1 h
  obtain ⟨⟨left, st₂⟩, hleft, h⟩ := Except.bind_eq_ok.1 h
  cases h
  refine puts_of_pushOn fun I => ?_
  rw [pop_ok hright, pop_ok hleft, heffects, Course.emit_nil, bind_pure_unit]
  simp only [Operands.perform, Operand.perform, hf, bind_assoc]

/-- A value that makes no effects. -/
theorem puts_of_quiet {e : Expr} (heffects : insn.effects = [])
    (he : ∀ {σ : Type} (I : Interpretation σ), e.perform I = pure ()) :
    m.Puts insn (m.pushOn m.stack e) :=
  puts_of_pushOn fun I => by rw [heffects, Course.emit_nil, he]

/-! ### Statements -/

/-- An assignment behind the values of its destination and the assigned one. -/
theorem puts_of_assign {target : Place} {value : Expr} (h : assign config m target value = .ok m')
    {m₀ : Simulation} (hstmts : m.scope.stmts = m₀.scope.stmts) (heffects : insn.effects = [])
    (hstack : ∀ {σ : Type} (I : Interpretation σ), m₀.stack.perform I = (do
      m.stack.perform I
      Expr.performAll I target.operands
      value.perform I)) : m₀.Puts insn m' := by
  -- in the plain form the destination and the value are evaluated as they were on the stack
  have hassign : ∀ {m''}, m.append (.assign target value) = .ok m'' → m₀.Puts insn m'' := by
    intro m'' h
    obtain ⟨happend, hsame⟩ := append_spec h
    refine .stmt _ (happend.trans (by rw [hstmts])) fun _ σ I => ?_
    rw [hsame, hstack I, heffects, Course.emit_nil, bind_pure_unit, Stmt.perform]
  unfold assign at h
  split at h
  · rename_i op left right
    split at h
    · rename_i hcompound
      obtain ⟨happend, hsame⟩ := append_spec h
      refine .stmt _ (happend.trans (by rw [hstmts])) fun honce σ I => ?_
      -- the destination is a variable, so reading it does nothing
      have hleft := eq_read_of_same honce (Bool.and_eq_true_iff.1 hcompound).2
      rw [hsame, hstack I, heffects, Course.emit_nil, bind_pure_unit, Stmt.perform, Expr.perform,
        hleft, Place.perform_read I honce, pure_bind]
    · exact hassign h
  · exact hassign h

/-- A store evaluates its value last. -/
theorem puts_of_store {slot : Nat} {t : String}
    (h : step config m prev (.store slot t) next = .ok out) :
    out.tookNext = false ∧ m.Puts (.store slot t) out.state := by
  obtain ⟨⟨value, st⟩, hvalue, h⟩ := Except.bind_eq_ok.1 h
  obtain ⟨⟨v, m₁⟩, hv, h⟩ := Except.bind_eq_ok.1 h
  obtain ⟨m₂, hm₂, rfl⟩ := Except.map_eq_ok.1 h
  obtain ⟨_, hstmts, hstack⟩ := resolve_spec hv
  refine ⟨rfl, puts_of_assign hm₂ hstmts rfl fun I => ?_⟩
  rw [pop_ok hvalue, hstack]
  simp only [Operands.perform, Operand.perform, Place.operands, Expr.performAll, pure_bind]

/-- A store into a static field evaluates its value last. -/
theorem puts_of_putStatic {f : FieldRef} (h : step config m prev (.putStatic f) next = .ok out) :
    out.tookNext = false ∧ m.Puts (.putStatic f) out.state := by
  obtain ⟨⟨value, st⟩, hvalue, h⟩ := Except.bind_eq_ok.1 h
  obtain ⟨m₁, hm₁, rfl⟩ := Except.map_eq_ok.1 h
  refine ⟨rfl, puts_of_assign hm₁ rfl rfl fun I => ?_⟩
  rw [pop_ok hvalue]
  simp only [Operands.perform, Operand.perform, Place.operands, Expr.performAll, pure_bind]

/-- A store into a field evaluates the object, and then the value. -/
theorem puts_of_putField {f : FieldRef} (h : step config m prev (.putField f) next = .ok out) :
    out.tookNext = false ∧ m.Puts (.putField f) out.state := by
  obtain ⟨⟨value, st⟩, hvalue, h⟩ := Except.bind_eq_ok.1 h
  obtain ⟨⟨receiver, st'⟩, hreceiver, h⟩ := Except.bind_eq_ok.1 h
  obtain ⟨m₁, hm₁, rfl⟩ := Except.map_eq_ok.1 h
  refine ⟨rfl, puts_of_assign hm₁ rfl rfl fun I => ?_⟩
  rw [pop_ok hvalue, pop_ok hreceiver]
  simp only [Operands.perform, Operand.perform, Place.operands, Expr.performAll, pure_bind,
    bind_assoc]

/-- A store into an array that is not being constructed. -/
theorem puts_of_arrayStore {t : String} (h : step config m prev (.arrayStore t) next = .ok out)
    (hsize : m.scope.size < out.state.scope.size) :
    out.tookNext = false ∧ m.Puts (.arrayStore t) out.state := by
  obtain ⟨m₁, hm₁, rfl⟩ := Except.map_eq_ok.1 h
  obtain ⟨⟨value, st⟩, hvalue, h⟩ := Except.bind_eq_ok.1 hm₁
  obtain ⟨⟨index, st'⟩, hindex, h⟩ := Except.bind_eq_ok.1 h
  obtain ⟨⟨array, st''⟩, harray, h⟩ := Except.bind_eq_ok.1 h
  have hassign : ∀ {m'}, assign config { m with stack := st'' } (.element array index) value
      = .ok m' → m.Puts (.arrayStore t) m' := by
    intro m' hm'
    refine puts_of_assign hm' rfl rfl fun I => ?_
    rw [pop_ok hvalue, pop_ok hindex, pop_ok harray]
    simp only [Operands.perform, Operand.perform, Place.operands, Expr.performAll, pure_bind,
      bind_assoc]
  refine ⟨rfl, ?_⟩
  simp only at h
  split at h
  · split at h
    · split at h
      · cases h
        -- a store that fills an array below would add no statement
        exact absurd hsize (Nat.lt_irrefl _)
      · split at h
        · cases h
        · exact hassign h
    · exact hassign h
  · exact hassign h

/-! ### Locals -/

/-- A load makes no effects, where it takes back no increment. -/
theorem puts_of_load {slot : Nat} {t : String}
    (h : step config m prev (.load slot t) next = .ok out)
    (hsize : m.scope.size ≤ out.state.scope.size) :
    out.tookNext = false ∧ m.Puts (.load slot t) out.state := by
  obtain ⟨m₁, hm₁, rfl⟩ := Except.map_eq_ok.1 h
  refine ⟨rfl, ?_⟩
  rcases load_spec hm₁ with ⟨_, v, _, hstmts, hstack⟩ | ⟨_, v, n, _, _, hstmts, _⟩
  · refine .value hstmts fun I => ?_
    show m₁.stack.perform I = _
    rw [hstack]
    simp only [Operands.perform, Operand.perform, Expr.perform, Insn.effects, Course.emit_nil]
  -- an increment that is taken back would leave fewer statements
  · simp [alone, Scope.size, hstmts] at hsize

/-- An increment joins the local that has just been read, or it is a statement. -/
theorem puts_of_increment {slot : Nat} {n : Int}
    (h : step config m prev (.increment slot n) next = .ok out) :
    out.tookNext = false ∧ m.Puts (.increment slot n) out.state := by
  obtain ⟨m₁, hm₁, rfl⟩ := Except.map_eq_ok.1 h
  refine ⟨rfl, ?_⟩
  rcases increment_spec hm₁ with
    ⟨_, st, _, v, w, hv, _, hread, hstmts, hstack⟩ | ⟨_, v, hv, hstmts, hstack⟩
  · refine .value hstmts fun I => ?_
    show m₁.stack.perform I = _
    rw [hstack, hread]
    simp only [Operands.perform, Operand.perform, Expr.perform, Insn.effects, hv, bind_pure_unit]
  · refine .stmt _ hstmts fun _ σ I => ?_
    show (do
      m₁.stack.perform I
      _) = _
    rw [hstack, Stmt.perform, hv, Insn.effects]

/-! ### Invocations -/

/-- A call with a result is a value, one without a statement. -/
theorem puts_of_emitCall {call : Expr} {isVoid : Bool} (h : m.emitCall st call isVoid = .ok m')
    (hcall : ∀ {σ : Type} (I : Interpretation σ), (do
      m.stack.perform I
      Course.emit insn.effects) = (do
      st.perform I
      call.perform I)) : m.Puts insn m' := by
  unfold emitCall at h
  simp only at h
  split at h
  · obtain ⟨happend, hsame⟩ := append_spec h
    refine .stmt _ happend fun _ σ I => ?_
    rw [hsame, hcall I, Stmt.perform]
  · cases h
    exact puts_of_pushOn hcall

/-- The top of the stack is an object of the class whose constructor is invoked. -/
def isConstructed (f : MethodRef) (m : Simulation) : Bool :=
  match m.stack with
  | .value (.new type _ _) :: _ => type == Descriptor.classRef f.owner
  | _ => false

/-- A call is made behind the evaluation of its receiver and its arguments. -/
theorem puts_of_invoke {dispatch : Dispatch} {f : MethodRef}
    (h : step config m prev (.invoke dispatch f) next = .ok out)
    (hconstructed : f.name = "<init>" → isConstructed f out.state = true ∧
      out.state.scope.size = m.scope.size) :
    out.tookNext = false ∧ m.Puts (.invoke dispatch f) out.state := by
  obtain ⟨m₁, hm₁, rfl⟩ := Except.map_eq_ok.1 h
  obtain ⟨t, _, h⟩ := Except.bind_eq_ok.1 hm₁
  obtain ⟨⟨args, st⟩, hargs, h⟩ := Except.bind_eq_ok.1 h
  refine ⟨rfl, ?_⟩
  simp only at h
  split at h
  · obtain ⟨⟨receiver, below⟩, hreceiver, h⟩ := Except.bind_eq_ok.1 h
    have hst := popEntry_ok hreceiver
    cases receiver with
    | value receiver =>
      refine puts_of_emitCall h fun I => ?_
      rw [Operands.perform_of_popMany I hargs, hst]
      simp only [Operands.perform, Operand.perform, Expr.perform, Insn.effects, bind_assoc]
    | uninitialized type =>
      simp only at h
      split at h
      · rename_i hinit
        obtain ⟨hconstructed, hsize⟩ := hconstructed hinit.2
        unfold construct at h
        split at h
        · rename_i t' below'
          split at h
          · cases h
            -- the object on top is of the class whose constructor is called
            have htype : type = Descriptor.classRef f.owner := by
              simpa [isConstructed, alone, pushOn, Operands.push] using hconstructed
            refine puts_of_pushOn fun I => ?_
            rw [Operands.perform_of_popMany I hargs, hst]
            simp only [Operands.perform, Operand.perform, Expr.perform, Insn.effects,
              MethodRef.effect, hinit.2, htype, bind_pure_unit, bind_assoc]
          · have happend := (append_spec h).1
            simp [alone, Scope.size, happend] at hsize
        · have happend := (append_spec h).1
          simp [alone, Scope.size, happend] at hsize
      · cases h
  · refine puts_of_emitCall h fun I => ?_
    rw [Operands.perform_of_popMany I hargs]
    simp only [Expr.perform, Insn.effects, bind_assoc]

/-! ### Copies -/

end Simulation

/-- Evaluating the entry does nothing. -/
def Operand.isQuiet : Operand → Bool
  | .value (.const _) | .value (.var _) | .value (.static _) | .uninitialized _ => true
  | _ => false

/-- A quiet entry makes no effects. -/
theorem Operand.perform_of_isQuiet {σ : Type} (I : Interpretation σ) {o : Operand}
    (h : o.isQuiet = true) : o.perform I = pure () := by
  unfold isQuiet at h
  split at h
  · rw [perform, Expr.perform]
  · rw [perform, Expr.perform]
  · rw [perform, Expr.perform]
  · rw [perform]
  · cases h

/-- A quiet value has no effects. -/
theorem Operand.hasEffects_of_isQuiet {e : Expr} (h : (Operand.value e).isQuiet = true) :
    e.hasEffects = false := by
  unfold isQuiet at h
  split at h
  all_goals simp_all [Expr.hasEffects]

namespace Simulation

/-- The top of the stack does nothing when it is evaluated. -/
def topIsQuiet (m : Simulation) : Bool := m.stack.head?.any Operand.isQuiet

/-- A copy of a quiet entry makes no effects. -/
theorem puts_of_dup (h : step config m prev .dup next = .ok out) (hquiet : m.topIsQuiet = true) :
    out.tookNext = false ∧ m.Puts .dup out.state := by
  obtain ⟨⟨o, st⟩, hpop, h⟩ := Except.bind_eq_ok.1 h
  have hm := popEntry_ok hpop
  have ho : o.isQuiet = true := by simpa [topIsQuiet, hm] using hquiet
  -- evaluating a quiet entry twice does as little as evaluating it once
  have hcopied : ∀ {m' : Simulation}, m'.scope = m.scope → m'.stack = o :: o :: st →
      m.Puts .dup m' := by
    intro m' hscope hstack
    refine .value (by rw [hscope]) fun I => ?_
    rw [hstack, hm]
    simp only [Operands.perform, Operand.perform_of_isQuiet I ho, Insn.effects, Course.emit_nil]
  cases o with
  | uninitialized t =>
    cases h
    exact ⟨rfl, hcopied rfl rfl⟩
  | value e =>
    simp only [Operand.hasEffects_of_isQuiet ho] at h
    cases h
    exact ⟨rfl, hcopied rfl rfl⟩

/-- An entry that is dropped is quiet, or it is evaluated in a statement. -/
theorem puts_of_pop (h : step config m prev .pop next = .ok out)
    (hkeeps : m.topIsQuiet = true ∨ m.scope.size < out.state.scope.size) :
    out.tookNext = false ∧ m.Puts .pop out.state := by
  obtain ⟨m₁, hm₁, rfl⟩ := Except.map_eq_ok.1 h
  obtain ⟨⟨o, st⟩, hpop, h⟩ := Except.bind_eq_ok.1 hm₁
  have hm := popEntry_ok hpop
  refine ⟨rfl, ?_⟩
  have hdropped : m₁ = { m with stack := st } → m.Puts .pop m₁ := by
    rintro rfl
    rcases hkeeps with hquiet | hsize
    · have ho : o.isQuiet = true := by simpa [topIsQuiet, hm] using hquiet
      refine .value rfl fun I => ?_
      rw [hm]
      simp only [Operands.perform, Operand.perform_of_isQuiet I ho, Insn.effects,
        Course.emit_nil, bind_pure_unit]
    · exact absurd hsize (Nat.lt_irrefl _)
  cases o with
  | uninitialized t => exact hdropped (Except.ok.inj h).symm
  | value e =>
    simp only [discard] at h
    split at h
    -- the entry is the last that is evaluated of all that wait, and a statement comes behind them
    -- too
    · obtain ⟨happend, hsame⟩ := append_spec h
      refine .stmt _ happend fun _ σ I => ?_
      show (do
        m₁.stack.perform I
        _) = _
      rw [hsame, hm]
      simp only [Stmt.perform, Operands.perform, Operand.perform, Insn.effects, Course.emit_nil,
        bind_pure_unit]
    · exact hdropped (Except.ok.inj h).symm

/-- A quiet entry changes places with the one below it. -/
theorem puts_of_swap (h : step config m prev .swap next = .ok out) (hquiet : m.topIsQuiet = true) :
    out.tookNext = false ∧ m.Puts .swap out.state := by
  obtain ⟨m₁, hm₁, rfl⟩ := Except.map_eq_ok.1 h
  obtain ⟨⟨o, st⟩, ho, h⟩ := Except.bind_eq_ok.1 hm₁
  obtain ⟨⟨p, st'⟩, hp, h⟩ := Except.bind_eq_ok.1 h
  cases h
  have hm : m.stack = o :: p :: st' := by
    rw [popEntry_ok ho]
    simpa using popEntry_ok hp
  have ho : o.isQuiet = true := by simpa [topIsQuiet, hm] using hquiet
  refine ⟨rfl, .value rfl fun I => ?_⟩
  rw [hm]
  simp only [alone, Operands.perform, Operand.perform_of_isQuiet I ho, Insn.effects,
    Course.emit_nil, bind_pure_unit]

/-! ### Runs -/

/-- The step keeps the order: it only puts a value on the stack, or it adds a statement behind
    which nothing waits. -/
def keepsOrder (m : Simulation) (insn : Insn) (m' : Simulation) : Bool :=
  (m'.scope.size ≤ m.scope.size ||
    m'.stack.isEmpty && m'.scope.last?.all evaluatesOnce) &&
  match insn with
  | .load _ _ => m.scope.size ≤ m'.scope.size
  | .arrayStore _ => m.scope.size < m'.scope.size
  | .invoke _ f => f.name ≠ "<init>" || isConstructed f m' && m'.scope.size == m.scope.size
  | .dup | .swap => m.topIsQuiet
  | .pop => m.topIsQuiet || m.scope.size < m'.scope.size
  | .dupX1 | .dupX2 | .dup2 | .pop2 => false
  | _ => true

/-- A step that passes the check keeps the order. -/
theorem puts_of_step (h : step config m prev insn next = .ok out)
    (hkeeps : m.keepsOrder insn out.state = true) :
    out.tookNext = false ∧ m.Puts insn out.state := by
  have hinsn := (Bool.and_eq_true_iff.1 hkeeps).2
  cases insn with
  | const _ | getStatic _ =>
    cases h
    exact ⟨rfl, puts_of_quiet rfl fun I => by rw [Expr.perform]⟩
  | new _ =>
    cases h
    refine ⟨rfl, .value rfl fun I => ?_⟩
    simp only [alone, Operands.perform, Operand.perform, Insn.effects, Course.emit_nil]
  | load _ _ => exact puts_of_load h (of_decide_eq_true hinsn)
  | store _ _ => exact puts_of_store h
  | increment _ _ => exact puts_of_increment h
  | putField _ => exact puts_of_putField h
  | putStatic _ => exact puts_of_putStatic h
  | arrayStore _ => exact puts_of_arrayStore h (of_decide_eq_true hinsn)
  | invoke _ f =>
    refine puts_of_invoke h fun hname => ?_
    simpa [hname] using hinsn
  | binary _ _ | compare _ | arrayLoad _ =>
    obtain ⟨m₁, hm₁, rfl⟩ := Except.map_eq_ok.1 h
    exact ⟨rfl, puts_of_binary hm₁ rfl fun _ _ _ I => by rw [Expr.perform]⟩
  | negate _ | convert _ | checkCast _ | instanceOf _ | getField _ | arrayLength | newArray _ =>
    obtain ⟨m₁, hm₁, rfl⟩ := Except.map_eq_ok.1 h
    exact ⟨rfl, puts_of_unary hm₁ rfl fun _ _ I => by rw [Expr.perform]⟩
  | dup => exact puts_of_dup h hinsn
  | swap => exact puts_of_swap h hinsn
  | pop =>
    refine puts_of_pop h ?_
    simpa using hinsn
  | dupX1 | dupX2 | dup2 | pop2 => cases hinsn

/-- All instructions are simulated one by one, and all steps keep the order. -/
def ordered (config : Config) (prev : Option Insn) (m : Simulation) : List Insn → Bool
  | [] => true
  | insn :: rest =>
    match step config m prev insn rest.head? with
    | .ok out => m.keepsOrder insn out.state && ordered config (some insn) out.state rest
    | .error _ => false

/-- The same as a run of one instruction. -/
theorem inOrder_of_step (h : step config m prev insn next = .ok out)
    (hkeeps : m.keepsOrder insn out.state = true) :
    out.tookNext = false ∧ m.InOrder [insn] out.state := by
  obtain ⟨htook, hputs⟩ := puts_of_step h hkeeps
  refine ⟨htook, hputs.inOrder fun hsize => ?_⟩
  have hadds := (Bool.and_eq_true_iff.1 hkeeps).1
  rw [Bool.or_eq_true, decide_eq_true_eq] at hadds
  obtain ⟨hempty, honce⟩ := Bool.and_eq_true_iff.1 (hadds.resolve_left (by omega))
  exact ⟨List.isEmpty_iff.1 hempty, fun s hs => by simpa [hs] using honce⟩

/-- A run keeps the order if all of its steps pass the check. By induction on the run. -/
theorem inOrder_of_runAfter (h : runAfter config prev m is = .ok m')
    (hordered : ordered config prev m is = true) : m.InOrder is m' := by
  induction is generalizing prev m with
  | nil =>
    cases h
    exact .nil
  | cons insn rest ih =>
    rw [ordered] at hordered
    split at hordered
    · rename_i out hout
      obtain ⟨hkeeps, hrest⟩ := Bool.and_eq_true_iff.1 hordered
      -- a step that keeps the order stands alone, so the rest is a run of its own
      obtain ⟨htook, hstep⟩ := inOrder_of_step hout hkeeps
      obtain ⟨_, h⟩ := (runAfter_of_step rest hout).1 h
      rw [htook] at h
      exact hstep.append (ih h hrest)
    · cases hordered

/-- Simulated instructions stay in order if every step keeps it. -/
theorem inOrder_of_ordered (h : run config m is = .ok m')
    (hordered : ordered config none m is = true) : m.InOrder is m' :=
  inOrder_of_runAfter h hordered

end Simulation

/-! ### Blocks -/

namespace Context

variable {c : Context} {scope : Scope} {n : Nat} {b : Block} {m : Simulation}

/-- Simulating the block in a scope of its own keeps the order of its effects. -/
def InOrder (c : Context) (scope : Scope) (n : Nat) : Prop :=
  ∀ b m, c.graph.block? n = some b → c.scratch? n scope = some m →
    Simulation.InOrder (.start (scope.child .block)) b.insns m

/-- The simulation of a block alone is a run from an empty stack. -/
theorem scratch_run (hb : c.graph.block? n = some b) (hm : c.scratch? n scope = some m) :
    Simulation.run c.config (.start (scope.child .block)) b.insns = .ok m := by
  unfold scratch? at hm
  rw [hb] at hm
  exact Except.eq_ok_of_toOption hm

/-- What a block leaves when simulated alone makes the effects of its instructions. -/
theorem InOrder.course (h : c.InOrder scope n) (hb : c.graph.block? n = some b)
    (hm : c.scratch? n scope = some m) {σ : Type} (I : Interpretation σ) :
    (do
      Stmt.performAll I m.scope.stmts
      m.stack.perform I) = Course.emit (Insn.allEffects b.insns) := (h b m hb hm).course I

/-- A block keeps its effects in order if its run passes the check. -/
theorem inOrder_of_ordered (hordered : ∀ b, c.graph.block? n = some b →
    Simulation.ordered c.config none (.start (scope.child .block)) b.insns = true) :
    c.InOrder scope n :=
  fun b _ hb hm => Simulation.inOrder_of_ordered (scratch_run hb hm) (hordered b hb)

end Context

end Restructure
