import Restructure.Proofs.Simulation.Acts

namespace Restructure

/-!
# Moves — what one simulated instruction does to the stack and the statements

An instruction takes entries from the top of the stack and puts others in their place, and it adds
statements at the end of the scope or takes the last one back. The moves say this once for all
instructions; what runs count and what they leave alone is read off them.

* `Edit` — what becomes of the statements.
* `Simulation.Move` — what an instruction takes from the stack and puts there, and its edit.
* `Simulation.Turn`, `Simulation.turns` — the steps of a run, and what they simulate.
* `Simulation.moves_of_step` — every step makes a move on the top of the stack.
* `Simulation.turned_of_runAfter` — a run consists of its turns.
-/

/-! ### What steps are made of -/

/-- The operation of an instruction that replaces the top value. -/
def Insn.unary? : Insn → Option (Expr → Expr)
  | .negate _ => some .negate
  | .convert t => some (.cast t)
  | .checkCast c => some (.cast (Descriptor.classRef c))
  | .instanceOf c => some (.instanceOf (Descriptor.classRef c))
  | .getField f => some (.field f)
  | .arrayLength => some .length
  | .newArray t => some (.newArray t)
  | _ => none

/-- The operation of an instruction that replaces the two top values, the lower one being the left
    operand. -/
def Insn.binary? : Insn → Option (Expr → Expr → Expr)
  | .binary op _ => some (.binary op)
  | .compare k => some (.compare k)
  | .arrayLoad _ => some .element
  | _ => none

/-- The call of a method on a receiver, if it has one. -/
def MethodRef.on (f : MethodRef) (args : List Expr) : Option Expr → Expr
  | none => .staticCall f args
  | some receiver => .call f receiver args

/-- Finished values as entries of a stack, the last one on top. -/
def Operands.ofArgs (args : List Expr) : Operands := args.reverse.map .value

/-- The statement that a dropped entry leaves behind. -/
def Operand.remains : Operand → List Stmt
  | .value e => if e.hasEffects then [.eval e] else []
  | .uninitialized _ => []

/-- Copying the entry changes nothing. -/
def Operand.IsPure (o : Operand) : Prop := ∀ e, o = .value e → e.hasEffects = false

/-- What becomes of the statements of a scope. -/
inductive Edit where
  /-- Statements are added at the end. -/
  | add (ss : List Stmt)
  /-- The last statement is taken away. -/
  | takeBack (s : Stmt)

/-- The edit leads from the first statements to the others. -/
def Edit.Leads (ss ts : List Stmt) : Edit → Prop
  | .add us => ts = ss ++ us
  | .takeBack s => ss = ts ++ [s]

namespace Simulation

variable {config : Config} {m m' : Simulation} {prev next : Option Insn} {insn : Insn}
  {out : Outcome}

/-- The operator and the two operands of a value that an assignment writes in the compound form. -/
def compoundParts? (config : Config) (target : Place) :
    Expr → Option (BinaryOp × Expr × Expr)
  | .binary op left right =>
    if config.compoundAssignments && left.same target.read then some (op, left, right) else none
  | _ => none

/-- The statement that an assignment becomes. -/
def assignment (config : Config) (target : Place) (value : Expr) : Stmt :=
  match compoundParts? config target value with
  | some (op, _, right) => .compound target op right
  | none => .assign target value

/-- A store into a place adds one statement. -/
theorem assign_eq (m : Simulation) (target : Place) (value : Expr) :
    assign config m target value = m.append (assignment config target value) := by
  cases value with
  | binary op left right =>
    simp only [assign, assignment, compoundParts?]
    split <;> rfl
  | _ => rfl

/-! ### Moves -/

/-- The instruction stores into a variable that it names. -/
inductive StoresTo : Insn → Place → Prop
  | store {slot : Nat} {t : String} {v : Local} (hv : v.slot = slot) :
      StoresTo (.store slot t) (.var v)
  | putStatic {f : FieldRef} : StoresTo (.putStatic f) (.static f)

/-- What an instruction takes from the stack and what it puts there, both with the top first, its
    edit of the statements, and whether it takes in the instruction behind it. -/
inductive Move (config : Config) (prev next : Option Insn) :
    Insn → Operands → Operands → Edit → Bool → Prop
  | const (c : Constant) : Move config prev next (.const c) [] [.value (.const c)] (.add []) false
  | getStatic (f : FieldRef) :
      Move config prev next (.getStatic f) [] [.value (.static f)] (.add []) false
  | new (c : String) :
      Move config prev next (.new c) [] [.uninitialized (Descriptor.classRef c)] (.add []) false
  | load {slot : Nat} {t : String} {v : Local} (hv : v.slot = slot) :
      Move config prev next (.load slot t) [] [.value (.var v)] (.add []) false
  /-- The read behind an increment takes its statement back. -/
  | loadIncremented {slot : Nat} {t : String} {v : Local} {n : Int} (hv : v.slot = slot) :
      Move config prev next (.load slot t) [] [.value (.increment v n true)]
        (.takeBack (.increment v n)) false
  | increment {slot : Nat} {n : Int} {v : Local} (hv : v.slot = slot) :
      Move config prev next (.increment slot n) [] [] (.add [.increment v n]) false
  /-- The increment behind a read takes the read in. -/
  | incrementLoaded {slot : Nat} {t : String} {n : Int} {v w : Local}
      (hprev : prev = some (.load slot t)) (hv : v.slot = slot) (hw : w.slot = slot) :
      Move config prev next (.increment slot n) [.value (.var w)] [.value (.increment v n false)]
        (.add []) false
  | unary {insn : Insn} {f : Expr → Expr} (e : Expr) (hf : insn.unary? = some f) :
      Move config prev next insn [.value e] [.value (f e)] (.add []) false
  | binary {insn : Insn} {f : Expr → Expr → Expr} (left right : Expr)
      (hf : insn.binary? = some f) :
      Move config prev next insn [.value right, .value left] [.value (f left right)] (.add []) false
  | store {insn : Insn} {target : Place} (value : Expr) (htarget : StoresTo insn target) :
      Move config prev next insn [.value value] [] (.add [assignment config target value]) false
  | putField (f : FieldRef) (receiver value : Expr) :
      Move config prev next (.putField f) [.value value, .value receiver] []
        (.add [assignment config (.field f receiver) value]) false
  | arrayStore (t : String) (array index value : Expr) :
      Move config prev next (.arrayStore t) [.value value, .value index, .value array] []
        (.add [assignment config (.element array index) value]) false
  /-- The store becomes part of an array below that is the same. -/
  | fill {array index value top filled : Expr} (t : String) (hsame : top.same array = true)
      (hfilled : Expr.stored? top index value = some filled) :
      Move config prev next (.arrayStore t)
        [.value value, .value index, .value array, .value top] [.value filled] (.add []) false
  | invoke {dispatch : Dispatch} {f : MethodRef} {sig : MethodType} {args : List Expr}
      {receiver : Option Expr} (hf : f.parse = .ok sig) (hargs : args.length = sig.params.length)
      (hreceiver : receiver.isSome = dispatch.hasReceiver) (hvoid : sig.returnsVoid = false) :
      Move config prev next (.invoke dispatch f)
        (Operands.ofArgs args ++ receiver.toList.map .value) [.value (f.on args receiver)]
        (.add []) false
  | invokeVoid {dispatch : Dispatch} {f : MethodRef} {sig : MethodType} {args : List Expr}
      {receiver : Option Expr} (hf : f.parse = .ok sig) (hargs : args.length = sig.params.length)
      (hreceiver : receiver.isSome = dispatch.hasReceiver) (hvoid : sig.returnsVoid = true) :
      Move config prev next (.invoke dispatch f)
        (Operands.ofArgs args ++ receiver.toList.map .value) []
        (.add [.eval (f.on args receiver)]) false
  /-- The constructor of an object without a copy. -/
  | construct {f : MethodRef} {sig : MethodType} {args : List Expr} (type : String)
      (hf : f.parse = .ok sig) (hargs : args.length = sig.params.length)
      (hname : f.name = "<init>") :
      Move config prev next (.invoke .special f) (Operands.ofArgs args ++ [.uninitialized type]) []
        (.add [.eval (.new type f.descriptor args)]) false
  /-- The constructor of an object that waits below as well. -/
  | constructCopy {f : MethodRef} {sig : MethodType} {args : List Expr} (type : String)
      (hf : f.parse = .ok sig) (hargs : args.length = sig.params.length)
      (hname : f.name = "<init>") :
      Move config prev next (.invoke .special f)
        (Operands.ofArgs args ++ [.uninitialized type, .uninitialized type])
        [.value (.new type f.descriptor args)] (.add []) false
  | dup {o : Operand} (ho : o.IsPure) : Move config prev next .dup [o] [o, o] (.add []) false
  /-- A value with effects that is copied and stored is stored and read. -/
  | dupStore {e : Expr} {target : Place} {insn : Insn} (he : e.hasEffects = true)
      (hnext : next = some insn) (htarget : StoresTo insn target) :
      Move config prev next .dup [.value e] [.value target.read]
        (.add [assignment config target e]) true
  | dupX1 {o p : Operand} (ho : o.IsPure) :
      Move config prev next .dupX1 [o, p] [o, p, o] (.add []) false
  /-- A store into a field whose value is used again. -/
  | dupX1Store {value receiver : Expr} {f : FieldRef} (hreceiver : receiver.hasEffects = false)
      (hnext : next = some (.putField f)) :
      Move config prev next .dupX1 [.value value, .value receiver] [.value (.field f receiver)]
        (.add [assignment config (.field f receiver) value]) true
  | dupX2Wide {o p : Operand} (ho : o.IsPure) (hp : p.isWide = true) :
      Move config prev next .dupX2 [o, p] [o, p, o] (.add []) false
  | dupX2 {o p q : Operand} (ho : o.IsPure) (hp : p.isWide = false) :
      Move config prev next .dupX2 [o, p, q] [o, p, q, o] (.add []) false
  | dup2Wide {o : Operand} (ho : o.IsPure) (hwide : o.isWide = true) :
      Move config prev next .dup2 [o] [o, o] (.add []) false
  | dup2 {o p : Operand} (ho : o.IsPure) (hp : p.IsPure) (hwide : o.isWide = false) :
      Move config prev next .dup2 [o, p] [o, p, o, p] (.add []) false
  | pop (o : Operand) : Move config prev next .pop [o] [] (.add o.remains) false
  | pop2Wide {o : Operand} (hwide : o.isWide = true) :
      Move config prev next .pop2 [o] [] (.add o.remains) false
  | pop2 {o p : Operand} (hwide : o.isWide = false) :
      Move config prev next .pop2 [o, p] [] (.add (o.remains ++ p.remains)) false
  | swap (o p : Operand) : Move config prev next .swap [o, p] [p, o] (.add []) false

/-- A step makes a move on the top of the stack and leaves the rest alone. -/
structure Makes (config : Config) (m : Simulation) (prev : Option Insn) (insn : Insn)
    (next : Option Insn) (out : Outcome) (taken put rest : Operands) (edit : Edit) : Prop where
  move : Move config prev next insn taken put edit out.tookNext
  before : m.stack = taken ++ rest
  after : out.state.stack = put ++ rest
  stmts : edit.Leads m.scope.stmts out.state.scope.stmts

/-- The step is a move on the top of the stack. -/
def Moves (config : Config) (m : Simulation) (prev : Option Insn) (insn : Insn)
    (next : Option Insn) (out : Outcome) : Prop :=
  ∃ taken put rest edit, Makes config m prev insn next out taken put rest edit

/-! ### The moves of single operations -/

/-- An entry that may be copied has no effects. -/
theorem isPure_of_duplicable {o : Operand} {u : Unit} (h : o.duplicable = .ok u) : o.IsPure := by
  rintro e rfl
  unfold Operand.duplicable at h
  simpa using h

/-- Several values are taken from the top, the last one first. -/
theorem popMany_eq {n : Nat} {st st' : Operands} {args : List Expr}
    (h : st.popMany n = .ok (args, st')) :
    args.length = n ∧ st = Operands.ofArgs args ++ st' := by
  -- the last argument is on top, so the list that is read comes out in the order of the call
  induction n generalizing st args with
  | zero =>
    cases h
    exact ⟨rfl, rfl⟩
  | succ n ih =>
    obtain ⟨⟨e, st₁⟩, he, h⟩ := Except.bind_eq_ok.1 h
    obtain ⟨⟨es, st₂⟩, hes, h⟩ := Except.bind_eq_ok.1 h
    cases h
    obtain ⟨hlength, hst₁⟩ := ih hes
    refine ⟨by simp [hlength], ?_⟩
    rw [pop_ok he, hst₁]
    simp [Operands.ofArgs]

/-- A dropped entry leaves a statement behind if it has effects. -/
theorem discard_spec {o : Operand} (h : m.discard o = .ok m') :
    m'.scope.stmts = m.scope.stmts ++ o.remains ∧ m'.stack = m.stack := by
  cases o with
  | uninitialized t =>
    cases h
    simp [Operand.remains]
  | value e =>
    simp only [discard] at h
    split at h
    · rename_i he
      simpa [Operand.remains, he] using append_spec h
    · rename_i he
      cases h
      simp [Operand.remains, he]

/-- The entry on top is dropped. -/
theorem pop_spec (h : m.pop = .ok m') :
    ∃ o st, m.stack = o :: st ∧ m'.stack = st ∧
      m'.scope.stmts = m.scope.stmts ++ o.remains := by
  obtain ⟨⟨o, st⟩, ho, h⟩ := Except.bind_eq_ok.1 h
  obtain ⟨hstmts, hstack⟩ := discard_spec h
  exact ⟨o, st, popEntry_ok ho, hstack, hstmts⟩

/-- A step that only replaces entries. -/
theorem moves_of_put {taken put rest : Operands}
    (hmove : Move config prev next insn taken put (.add []) false)
    (hbefore : m.stack = taken ++ rest) (hafter : m'.stack = put ++ rest)
    (hstmts : m'.scope.stmts = m.scope.stmts) : Moves config m prev insn next (alone m') :=
  ⟨taken, put, rest, .add [], hmove, hbefore, hafter, hstmts.trans (List.append_nil _).symm⟩

/-- A load pushes its local, or takes back the increment in front of it. -/
theorem moves_of_load {slot : Nat} {t : String} (h : load config m prev slot t = .ok m') :
    Moves config m prev (.load slot t) next (alone m') := by
  rcases load_spec h with ⟨_, v, hv, hstmts, hstack⟩ | ⟨_, v, n, _, hv, hstmts, hstack⟩
  · exact moves_of_put (.load hv) rfl hstack hstmts
  · exact ⟨[], _, _, _, .loadIncremented hv, rfl, hstack, hstmts⟩

/-- Only a local that has just been loaded counts as just read. -/
theorem load_of_justRead {slot : Nat} {st : Operands} (h : m.justRead? prev slot = some st) :
    ∃ t, prev = some (.load slot t) := by
  unfold justRead? at h
  split at h
  · split at h
    · rename_i t _ _ _ hslots
      exact ⟨t, by rw [hslots.1]⟩
    · cases h
  · cases h

/-- An increment changes the local on top, or it is a statement. -/
theorem moves_of_increment {slot : Nat} {n : Int} (h : increment config m prev slot n = .ok m') :
    Moves config m prev (.increment slot n) next (alone m') := by
  rcases increment_spec h with
    ⟨_, st, hjust, v, w, hv, hw, hread, hstmts, hstack⟩ | ⟨_, v, hv, hstmts, hstack⟩
  · obtain ⟨t, hprev⟩ := load_of_justRead hjust
    exact moves_of_put (.incrementLoaded hprev hv hw) hread hstack hstmts
  · exact ⟨[], [], _, _, .increment hv, rfl, hstack, hstmts⟩

/-- An operator of one operand replaces the top. -/
theorem moves_of_unary {f : Expr → Expr} (hf : insn.unary? = some f) (h : m.unary f = .ok m') :
    Moves config m prev insn next (alone m') := by
  obtain ⟨⟨e, st⟩, he, h⟩ := Except.bind_eq_ok.1 h
  cases h
  exact moves_of_put (.unary e hf) (pop_ok he) rfl rfl

/-- An operator of two operands replaces the two values on top. -/
theorem moves_of_binary {f : Expr → Expr → Expr} (hf : insn.binary? = some f)
    (h : m.binary f = .ok m') : Moves config m prev insn next (alone m') := by
  obtain ⟨⟨right, st₁⟩, hright, h⟩ := Except.bind_eq_ok.1 h
  obtain ⟨⟨left, st₂⟩, hleft, h⟩ := Except.bind_eq_ok.1 h
  cases h
  refine moves_of_put (.binary left right hf) ?_ rfl rfl
  rw [pop_ok hright, pop_ok hleft]
  rfl

/-- A store takes its operands and adds one statement. -/
theorem moves_of_store {target : Place} {st : Operands} {m₁ : Simulation} {value : Expr}
    (htarget : StoresTo insn target) (hbefore : m.stack = .value value :: st)
    (hstack : m₁.stack = st) (hstmts : m₁.scope.stmts = m.scope.stmts)
    (h : assign config m₁ target value = .ok m') : Moves config m prev insn next (alone m') := by
  rw [assign_eq] at h
  obtain ⟨happend, hsame⟩ := append_spec h
  exact ⟨[.value value], [], st, _, .store value htarget, hbefore, hsame.trans hstack,
    happend.trans (by rw [hstmts])⟩

/-- A store into a field takes the object and the value. -/
theorem moves_of_putField {f : FieldRef} (h : step config m prev (.putField f) next = .ok out) :
    Moves config m prev (.putField f) next out := by
  obtain ⟨⟨value, st₁⟩, hvalue, h⟩ := Except.bind_eq_ok.1 h
  obtain ⟨⟨receiver, st₂⟩, hreceiver, h⟩ := Except.bind_eq_ok.1 h
  obtain ⟨m₁, hm₁, rfl⟩ := Except.map_eq_ok.1 h
  rw [assign_eq] at hm₁
  obtain ⟨happend, hsame⟩ := append_spec hm₁
  refine ⟨_, [], st₂, _, .putField f receiver value, ?_, hsame, happend⟩
  rw [pop_ok hvalue, pop_ok hreceiver]
  rfl

/-- A store into an array adds one statement, or fills the initializer below. -/
theorem moves_of_arrayStore {t : String} (h : arrayStore config m = .ok m') :
    Moves config m prev (.arrayStore t) next (alone m') := by
  obtain ⟨⟨value, st₁⟩, hvalue, h⟩ := Except.bind_eq_ok.1 h
  obtain ⟨⟨index, st₂⟩, hindex, h⟩ := Except.bind_eq_ok.1 h
  obtain ⟨⟨array, st₃⟩, harray, h⟩ := Except.bind_eq_ok.1 h
  have hbefore : m.stack = .value value :: .value index :: .value array :: st₃ := by
    rw [pop_ok hvalue, pop_ok hindex, pop_ok harray]
  -- in all cases but one the store is a statement
  have hassign : ∀ {m'}, assign config { m with stack := st₃ } (.element array index) value
      = .ok m' → Moves config m prev (.arrayStore t) next (alone m') := by
    intro m' hm'
    rw [assign_eq] at hm'
    obtain ⟨happend, hsame⟩ := append_spec hm'
    exact ⟨_, [], st₃, _, .arrayStore t array index value, hbefore, hsame, happend⟩
  simp only at h
  split at h
  · rename_i top below
    split at h
    · rename_i hsame
      split at h
      · rename_i filled hfilled
        cases h
        exact moves_of_put (.fill t hsame hfilled) hbefore rfl rfl
      · split at h
        · cases h
        · exact hassign h
    · exact hassign h
  · exact hassign h

/-- A call with a result is put on the stack, one without becomes a statement. -/
theorem moves_of_emitCall {dispatch : Dispatch} {f : MethodRef} {sig : MethodType}
    {args : List Expr} (receiver : Option Expr) {rest : Operands} (hf : f.parse = .ok sig)
    (hargs : args.length = sig.params.length)
    (hreceiver : receiver.isSome = dispatch.hasReceiver)
    (hbefore : m.stack = (Operands.ofArgs args ++ receiver.toList.map .value) ++ rest)
    (h : m.emitCall rest (f.on args receiver) sig.returnsVoid = .ok m') :
    Moves config m prev (.invoke dispatch f) next (alone m') := by
  unfold emitCall at h
  simp only at h
  split at h
  · rename_i hvoid
    obtain ⟨happend, hsame⟩ := append_spec h
    exact ⟨_, [], rest, _, .invokeVoid hf hargs hreceiver hvoid, hbefore, hsame, happend⟩
  · rename_i hvoid
    cases h
    exact moves_of_put (.invoke hf hargs hreceiver (by simpa using hvoid)) hbefore rfl rfl

/-- A constructor call completes the object in all of its copies. -/
theorem moves_of_construct {f : MethodRef} {sig : MethodType} {args : List Expr} {type : String}
    {rest : Operands} (hf : f.parse = .ok sig) (hargs : args.length = sig.params.length)
    (hname : f.name = "<init>")
    (hbefore : m.stack = Operands.ofArgs args ++ .uninitialized type :: rest)
    (h : m.construct rest type (.new type f.descriptor args) = .ok m') :
    Moves config m prev (.invoke .special f) next (alone m') := by
  -- unless the same object waits below, its construction is a statement
  have hmade : ∀ {m'}, Simulation.append { m with stack := rest }
      (.eval (.new type f.descriptor args)) = .ok m' →
      Moves config m prev (.invoke .special f) next (alone m') := by
    intro m' hm'
    obtain ⟨happend, hsame⟩ := append_spec hm'
    exact ⟨_, [], rest, _, .construct type hf hargs hname, by simpa using hbefore, hsame, happend⟩
  unfold construct at h
  split at h
  · split at h
    · rename_i htype
      cases h
      subst htype
      exact moves_of_put (.constructCopy _ hf hargs hname) (by simpa using hbefore) rfl rfl
    · exact hmade h
  · exact hmade h

/-- A call takes its arguments, and pushes its result if it has one. -/
theorem moves_of_invoke {dispatch : Dispatch} {f : MethodRef} (h : m.invoke dispatch f = .ok m') :
    Moves config m prev (.invoke dispatch f) next (alone m') := by
  obtain ⟨sig, hsig, hcall⟩ := Except.bind_eq_ok.1 h
  obtain ⟨⟨args, st⟩, hargs, hcall⟩ := Except.bind_eq_ok.1 hcall
  have hf : f.parse = .ok sig := parse_of_ofDescriptor hsig
  obtain ⟨hlength, hstack⟩ := popMany_eq hargs
  simp only at hcall
  split at hcall
  · rename_i hreceiver
    obtain ⟨⟨o, rest⟩, ho, hmade⟩ := Except.bind_eq_ok.1 hcall
    rw [popEntry_ok ho] at hstack
    cases o with
    | value receiver =>
      exact moves_of_emitCall (some receiver) hf hlength hreceiver.symm
        (by simpa using hstack) hmade
    -- on an object that is not initialised only a constructor can be called
    | uninitialized type =>
      simp only at hmade
      split at hmade
      · rename_i hinit
        obtain ⟨rfl, hname⟩ := hinit
        exact moves_of_construct hf hlength hname hstack hmade
      · cases hmade
  · rename_i hreceiver
    exact moves_of_emitCall none hf hlength (by simpa using hreceiver)
      (by simpa using hstack) hcall

/-- The target is that of the store behind the copy, and looking for it writes nothing. -/
theorem storesTo_of_storeTarget {target : Place}
    (h : m.storeTarget? next = .ok (some (target, m'))) :
    (∃ insn, next = some insn ∧ StoresTo insn target) ∧ m'.scope.stmts = m.scope.stmts ∧
      m'.stack = m.stack := by
  obtain ⟨hstmts, hstack, ⟨slot, t, v, hnext, rfl, hv⟩ | ⟨f, hnext, rfl⟩⟩ := storeTarget_spec h
  · exact ⟨⟨_, hnext, .store hv⟩, hstmts, hstack⟩
  · exact ⟨⟨_, hnext, .putStatic⟩, hstmts, hstack⟩

/-- A copy on top, or the value of an assignment that is used again. -/
theorem moves_of_dup (h : dup config m next = .ok out) : Moves config m prev .dup next out := by
  obtain ⟨⟨o, st⟩, ho, h⟩ := Except.bind_eq_ok.1 h
  have hbefore := popEntry_ok ho
  cases o with
  | uninitialized t =>
    cases h
    exact moves_of_put (.dup fun e he => by cases he) hbefore rfl rfl
  | value e =>
    simp only at h
    split at h
    -- a value with effects is copied only for the store behind it, which is taken in
    · rename_i he
      obtain ⟨target?, htarget, h⟩ := Except.bind_eq_ok.1 h
      split at h
      · rename_i target m₁
        obtain ⟨m₂, hm₂, h⟩ := Except.bind_eq_ok.1 h
        cases h
        obtain ⟨⟨insn, hnext, hstores⟩, hstmts, hstack⟩ := storesTo_of_storeTarget htarget
        rw [assign_eq] at hm₂
        obtain ⟨happend, hsame⟩ := append_spec hm₂
        refine ⟨_, _, st, _, .dupStore he hnext hstores, hbefore, ?_,
          happend.trans (by rw [hstmts])⟩
        show Operands.push m₂.stack _ = _
        rw [hsame, hstack]
        rfl
      · cases h
    · rename_i he
      cases h
      refine moves_of_put (.dup fun e' he' => ?_) hbefore rfl rfl
      cases he'
      simpa using he

/-- A copy below the second entry, or the value of an assignment to a field of it. -/
theorem moves_of_dupX1 (h : dupX1 config m next = .ok out) :
    Moves config m prev .dupX1 next out := by
  obtain ⟨⟨o, st₁⟩, ho, h⟩ := Except.bind_eq_ok.1 h
  obtain ⟨⟨p, st₂⟩, hp, h⟩ := Except.bind_eq_ok.1 h
  have hbefore : m.stack = o :: p :: st₂ := by rw [popEntry_ok ho, popEntry_ok hp]
  simp only at h
  split at h
  -- the store into a field behind it is taken in, too
  · rename_i value receiver f _ _
    split at h
    · cases h
    · rename_i hreceiver
      obtain ⟨m₁, hm₁, h⟩ := Except.bind_eq_ok.1 h
      cases h
      rw [assign_eq] at hm₁
      obtain ⟨happend, hsame⟩ := append_spec hm₁
      refine ⟨_, _, st₂, _, .dupX1Store (by simpa using hreceiver) rfl, hbefore, ?_, happend⟩
      show Operands.push m₁.stack _ = _
      rw [hsame]
      rfl
  · obtain ⟨_, hpure, h⟩ := Except.bind_eq_ok.1 h
    cases h
    exact moves_of_put (.dupX1 (isPure_of_duplicable hpure)) hbefore rfl rfl

/-- A copy below the two entries under the top. -/
theorem moves_of_dupX2 (h : m.dupX2 = .ok m') : Moves config m prev .dupX2 next (alone m') := by
  obtain ⟨⟨o, st₁⟩, ho, h⟩ := Except.bind_eq_ok.1 h
  obtain ⟨_, hpure, h⟩ := Except.bind_eq_ok.1 h
  obtain ⟨⟨p, st₂⟩, hp, h⟩ := Except.bind_eq_ok.1 h
  have hst₁ := popEntry_ok hp
  have hpure := isPure_of_duplicable hpure
  simp only at h
  split at h
  · rename_i hwide
    cases h
    rw [hst₁] at hwide
    exact moves_of_put (.dupX2Wide hpure hwide) (by rw [popEntry_ok ho, hst₁]; rfl) rfl rfl
  · rename_i hwide
    obtain ⟨⟨q, st₃⟩, hq, h⟩ := Except.bind_eq_ok.1 h
    cases h
    rw [hst₁] at hwide
    exact moves_of_put (.dupX2 hpure (by simpa [Operands.topIsWide] using hwide))
      (by rw [popEntry_ok ho, hst₁, popEntry_ok hq]; rfl) rfl rfl

/-- A copy of the two entries on top. -/
theorem moves_of_dup2 (h : m.dup2 = .ok m') : Moves config m prev .dup2 next (alone m') := by
  obtain ⟨⟨o, st₁⟩, ho, h⟩ := Except.bind_eq_ok.1 h
  have hbefore := popEntry_ok ho
  simp only [hbefore] at h
  split at h
  · rename_i hwide
    obtain ⟨_, hpure, h⟩ := Except.bind_eq_ok.1 h
    cases h
    exact moves_of_put (.dup2Wide (isPure_of_duplicable hpure) hwide) hbefore rfl rfl
  · rename_i hwide
    obtain ⟨⟨p, st₂⟩, hp, h⟩ := Except.bind_eq_ok.1 h
    obtain ⟨_, ho', h⟩ := Except.bind_eq_ok.1 h
    obtain ⟨_, hp', h⟩ := Except.bind_eq_ok.1 h
    cases h
    exact moves_of_put (.dup2 (isPure_of_duplicable ho') (isPure_of_duplicable hp')
      (by simpa [Operands.topIsWide] using hwide)) (by rw [hbefore, popEntry_ok hp]; rfl) rfl rfl

/-- Two entries or one wide one are dropped. -/
theorem moves_of_pop2 (h : m.pop2 = .ok m') : Moves config m prev .pop2 next (alone m') := by
  obtain ⟨m₁, hm₁, h⟩ := Except.bind_eq_ok.1 h
  obtain ⟨o, st, hbefore, hst, hstmts⟩ := pop_spec hm₁
  simp only [hbefore] at h
  split at h
  · rename_i hwide
    cases h
    exact ⟨_, [], st, _, .pop2Wide hwide, hbefore, hst, hstmts⟩
  · rename_i hwide
    obtain ⟨p, st', hp, hst', hstmts'⟩ := pop_spec h
    refine ⟨_, [], st', _, .pop2 (o := o) (p := p) (by simpa [Operands.topIsWide] using hwide), ?_,
      hst', ?_⟩
    · rw [hbefore, ← hst, hp]
      rfl
    · rw [Edit.Leads, alone, hstmts', hstmts, List.append_assoc]

/-- The two entries on top change places. -/
theorem moves_of_swap (h : m.swap = .ok m') : Moves config m prev .swap next (alone m') := by
  obtain ⟨⟨o, st₁⟩, ho, h⟩ := Except.bind_eq_ok.1 h
  obtain ⟨⟨p, st₂⟩, hp, h⟩ := Except.bind_eq_ok.1 h
  cases h
  exact moves_of_put (.swap o p) (by rw [popEntry_ok ho, popEntry_ok hp]; rfl) rfl rfl

/-! ### Instructions -/

/-- Every step makes a move on the top of the stack. -/
theorem moves_of_step (h : step config m prev insn next = .ok out) :
    Moves config m prev insn next out := by
  cases insn with
  | const c =>
    cases h
    exact moves_of_put (.const c) rfl rfl rfl
  | getStatic f =>
    cases h
    exact moves_of_put (.getStatic f) rfl rfl rfl
  | new c =>
    cases h
    exact moves_of_put (.new c) rfl rfl rfl
  | store slot t =>
    obtain ⟨⟨value, st⟩, hvalue, h⟩ := Except.bind_eq_ok.1 h
    obtain ⟨⟨v, m₁⟩, hv, h⟩ := Except.bind_eq_ok.1 h
    obtain ⟨m₂, hm₂, rfl⟩ := Except.map_eq_ok.1 h
    obtain ⟨hslot, hstmts, hstack⟩ := resolve_spec hv
    exact moves_of_store (.store hslot) (pop_ok hvalue) hstack hstmts hm₂
  | putStatic f =>
    obtain ⟨⟨value, st⟩, hvalue, h⟩ := Except.bind_eq_ok.1 h
    obtain ⟨m₁, hm₁, rfl⟩ := Except.map_eq_ok.1 h
    have hrest : Simulation.stack { m with stack := st } = st := rfl
    exact moves_of_store .putStatic (pop_ok hvalue) hrest rfl hm₁
  -- a store into a field by itself, and the two copies that may take in the store behind them
  | putField f => exact moves_of_putField h
  | dup => exact moves_of_dup h
  | dupX1 => exact moves_of_dupX1 h
  | load _ _ =>
    obtain ⟨m₁, hm₁, rfl⟩ := Except.map_eq_ok.1 h
    exact moves_of_load hm₁
  | increment _ _ =>
    obtain ⟨m₁, hm₁, rfl⟩ := Except.map_eq_ok.1 h
    exact moves_of_increment hm₁
  | arrayStore _ =>
    obtain ⟨m₁, hm₁, rfl⟩ := Except.map_eq_ok.1 h
    exact moves_of_arrayStore hm₁
  | invoke _ _ =>
    obtain ⟨m₁, hm₁, rfl⟩ := Except.map_eq_ok.1 h
    exact moves_of_invoke hm₁
  -- operators differ only in the expression that they build
  | binary _ _ | compare _ | arrayLoad _ =>
    obtain ⟨m₁, hm₁, rfl⟩ := Except.map_eq_ok.1 h
    exact moves_of_binary rfl hm₁
  | negate _ | convert _ | checkCast _ | instanceOf _ | getField _ | arrayLength | newArray _ =>
    obtain ⟨m₁, hm₁, rfl⟩ := Except.map_eq_ok.1 h
    exact moves_of_unary rfl hm₁
  | dupX2 =>
    obtain ⟨m₁, hm₁, rfl⟩ := Except.map_eq_ok.1 h
    exact moves_of_dupX2 hm₁
  | dup2 =>
    obtain ⟨m₁, hm₁, rfl⟩ := Except.map_eq_ok.1 h
    exact moves_of_dup2 hm₁
  | pop =>
    obtain ⟨m₁, hm₁, rfl⟩ := Except.map_eq_ok.1 h
    obtain ⟨o, st, hbefore, hst, hstmts⟩ := pop_spec hm₁
    exact ⟨_, [], st, _, .pop o, hbefore, hst, hstmts⟩
  | pop2 =>
    obtain ⟨m₁, hm₁, rfl⟩ := Except.map_eq_ok.1 h
    exact moves_of_pop2 hm₁
  | swap =>
    obtain ⟨m₁, hm₁, rfl⟩ := Except.map_eq_ok.1 h
    exact moves_of_swap hm₁

/-! ### Runs -/

/-- One step of a run. -/
structure Turn where
  before : Simulation
  prev : Option Insn
  insn : Insn
  next : Option Insn
  out : Outcome

namespace Turn

/-- The state behind the step. -/
def after (g : Turn) : Simulation := g.out.state

/-- The instructions that the step simulates. -/
def insns (g : Turn) : List Insn :=
  g.insn :: if g.out.tookNext then g.next.toList else []

/-- The last instruction that the step simulates. -/
def last (g : Turn) : Insn := if g.out.tookNext then g.next.getD g.insn else g.insn

end Turn

/-- The steps of a run behind `prev`. -/
def turns (config : Config) (prev : Option Insn) (m : Simulation) : List Insn → List Turn
  | [] => []
  | [insn] =>
    match step config m prev insn none with
    | .ok out => [⟨m, prev, insn, none, out⟩]
    | .error _ => []
  | insn :: next :: rest =>
    match step config m prev insn (some next) with
    | .ok out =>
      ⟨m, prev, insn, some next, out⟩ ::
        if out.tookNext then turns config (some next) out.state rest
        else turns config (some insn) out.state (next :: rest)
    | .error _ => []

/-- Instructions are simulated turn by turn. -/
inductive Turned (config : Config) :
    Option Insn → Simulation → List Insn → List Turn → Simulation → Prop
  | nil (prev : Option Insn) (m : Simulation) : Turned config prev m [] [] m
  | cons (g : Turn) {insns is : List Insn} {gs : List Turn} {m' : Simulation}
      (hstep : step config g.before g.prev g.insn g.next = .ok g.out)
      (hinsns : insns = g.insns ++ is) (h : Turned config (some g.last) g.after is gs m') :
      Turned config g.prev g.before insns (g :: gs) m'

/-- A run consists of its turns. -/
theorem turned_of_runAfter {insns : List Insn} (h : runAfter config prev m insns = .ok m') :
    Turned config prev m insns (turns config prev m insns) m' := by
  fun_induction turns config prev m insns with
  -- the cases follow the recursion of `turns`: nothing left, one instruction left, or more
  | case1 =>
    cases h
    exact .nil _ _
  | case2 prev m insn out hout =>
    obtain ⟨_, h⟩ := (runAfter_of_step _ hout).1 h
    have hend : m' = out.state := by
      split at h <;> exact (Except.ok.inj h).symm
    subst hend
    exact .cons ⟨m, prev, insn, none, out⟩ hout (by simp [Turn.insns]) (.nil _ _)
  | case3 prev m insn _ hout => exact absurd h (runAfter_ne_of_step _ hout)
  | case4 prev m insn next rest out hout ih ih' =>
    obtain ⟨_, h⟩ := (runAfter_of_step (next :: rest) hout).1 h
    split at h
    -- the turn took in the instruction behind it, so the rest begins one further
    · rename_i htook
      rw [if_pos htook]
      have hinsns : insn :: next :: rest = Turn.insns ⟨m, prev, insn, some next, out⟩ ++ rest := by
        simp [Turn.insns, htook]
      have hlast : Turn.last ⟨m, prev, insn, some next, out⟩ = next := by simp [Turn.last, htook]
      exact .cons ⟨m, prev, insn, some next, out⟩ hout hinsns (by rw [hlast]; exact ih h)
    · rename_i htook
      rw [if_neg htook]
      have hinsns : insn :: next :: rest
          = Turn.insns ⟨m, prev, insn, some next, out⟩ ++ next :: rest := by
        simp [Turn.insns, htook]
      have hlast : Turn.last ⟨m, prev, insn, some next, out⟩ = insn := by simp [Turn.last, htook]
      exact .cons ⟨m, prev, insn, some next, out⟩ hout hinsns (by rw [hlast]; exact ih' h)
  | case5 prev m insn next rest _ hout =>
    exact absurd h (runAfter_ne_of_step (next :: rest) hout)

end Simulation

end Restructure
