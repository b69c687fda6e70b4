import Restructure.Proofs.Simulation.Edits

namespace Restructure

/-!
# Failures — what instructions over an open scope may fail with

Instructions change the scope only while it is open, and take back only what is there. So over an
open scope they fail because the code is damaged or has no structured form, or because an
invocation cannot be read.

* `Error.Allowed` — the failures that are left for code whose jumps lead to blocks.
* `Gives` — a computation gives a certain result, or one of certain failures.
* `Simulation.Opened` — the scope is open and of a given kind.
* `Simulation.run_gives` — instructions keep the scope open.
-/

/-! ### Failures -/

/-- A failure that concerns the code alone: it has no structured form, it is damaged, or it holds an
    invocation that cannot be read. Blocks are found, scopes are changed only while they are open,
    and regions are not nested too deeply. -/
inductive Error.Allowed (unread : Prop) : Error → Prop
  | form {e : Error} (hkind : e.kind = .unstructurable) (hdeep : e ≠ .nestedTooDeep) :
      Allowed unread e
  | damaged {e : Error} (hkind : e.kind = .malformed) : Allowed unread e
  | unread {e : Error} (hkind : e.kind = .unrecognized) (h : unread) : Allowed unread e

namespace Error.Allowed

variable {unread : Prop} {e : Error}

/-- Regions that nest too deeply are none of them. -/
theorem ne_nestedTooDeep (h : e.Allowed unread) : e ≠ .nestedTooDeep := by
  cases h with
  | form _ hdeep => exact hdeep
  | damaged hkind | unread hkind _ =>
    rintro rfl
    cases hkind

/-- No scope has been changed that must not be, and no block has been missing. -/
theorem kind_ne (h : e.Allowed unread) : e.kind ≠ .scopeMisuse ∧ e.kind ≠ .graph := by
  cases h with
  | form hkind _ | damaged hkind | unread hkind _ =>
    rw [hkind]
    decide

/-- A failure stays allowed where more may be unread. -/
theorem mono {unread' : Prop} (h : e.Allowed unread) (himp : unread → unread') :
    e.Allowed unread' := by
  cases h with
  | form hkind hdeep => exact .form hkind hdeep
  | damaged hkind => exact .damaged hkind
  | unread hkind h => exact .unread hkind (himp h)

/-- What cannot be read is an invocation. -/
theorem of_unrecognized (h : e.Allowed unread) (hkind : e.kind = .unrecognized) : unread := by
  cases h with
  | form h _ | damaged h =>
    rw [hkind] at h
    cases h
  | unread _ h => exact h

end Error.Allowed

/-! ### Results -/

section Gives

variable {α β : Type} {E : Error → Prop} {x : Except Error α} {Q : α → Prop}

/-- The result satisfies `Q`, or the failure is one of `E`. -/
def Gives (E : Error → Prop) (x : Except Error α) (Q : α → Prop) : Prop :=
  match x with
  | .ok a => Q a
  | .error e => E e

/-- A result that satisfies `Q`. -/
theorem gives_ok {a : α} (h : Q a) : Gives E (.ok a) Q := h

/-- A failure that is one of them. -/
theorem gives_error {e : Error} (h : E e) : Gives E (.error e) Q := h

/-- A computation in two parts. -/
theorem gives_bind {f : α → Except Error β} {R : β → Prop}
    (h : Gives E x fun a => Gives E (f a) R) : Gives E (x >>= f) R := by
  cases x with
  | error e => exact h
  | ok a => exact h

/-- A function of a result. -/
theorem gives_map {f : α → β} {R : β → Prop} (h : Gives E x fun a => R (f a)) :
    Gives E (x.map f) R := by
  cases x with
  | error e => exact h
  | ok a => exact h

/-- What follows from `Q` holds of the result, too. -/
theorem Gives.imp {R : α → Prop} (h : Gives E x Q) (hQ : ∀ a, Q a → R a) : Gives E x R := by
  cases x with
  | error e => exact h
  | ok a => exact hQ a h

/-- What holds of every result there may be. -/
theorem Gives.and_of_ok {R : α → Prop} (h : Gives E x Q) (hR : ∀ a, x = .ok a → R a) :
    Gives E x R := by
  cases x with
  | error e => exact h
  | ok a => exact hR a rfl

/-- What holds of the result there is. -/
theorem Gives.of_ok {a : α} (h : Gives E x Q) (hx : x = .ok a) : Q a := by
  subst hx
  exact h

/-- The failure there is, is one of them. -/
theorem Gives.of_error {e : Error} (h : Gives E x Q) (hx : x = .error e) : E e := by
  subst hx
  exact h

/-- What is known under a condition is known together with what is known in any case. -/
theorem Gives.and_if {B : Prop} {E' : Error → Prop} {R : α → Prop} (h : Gives E x Q)
    (h' : B → Gives E' x R) :
    Gives (fun e => E e ∧ (B → E' e)) x fun a => Q a ∧ (B → R a) := by
  cases x with
  | error e => exact ⟨h, h'⟩
  | ok a => exact ⟨h, h'⟩

end Gives

variable {E : Error → Prop} {unread : Prop}

/-! ### Open scopes -/

namespace Scope

/-- The scope is open and of the given kind. -/
structure Opened (k : ScopeKind) (s : Scope) : Prop where
  unlocked : s.locked = false
  kind : s.kind = k

variable {k : ScopeKind} {s : Scope}

/-- The scope inside a construct. -/
theorem opened_child (s : Scope) (k : ScopeKind) : (s.child k).Opened k := ⟨rfl, rfl⟩

/-- An open scope may be changed. -/
theorem ifOpen_opened (h : s.Opened k) (change : ScopeChange) : s.ifOpen change = .ok s := by
  unfold ifOpen
  rw [h.unlocked]
  rfl

/-- A statement can be added to an open scope. -/
theorem append_gives (h : s.Opened k) (stmt : Stmt) :
    Gives E (s.append stmt) (Opened k) := by
  unfold append
  rw [ifOpen_opened h]
  exact gives_ok ⟨h.unlocked, h.kind⟩

/-- A local can be bound in an open scope. -/
theorem declare_gives (h : s.Opened k) (v : Local) : Gives E (s.declare v) (Opened k) := by
  unfold declare
  rw [ifOpen_opened h]
  exact gives_ok ⟨h.unlocked, h.kind⟩

/-- The last statement of an open scope can be taken away. -/
theorem pop_gives (h : s.Opened k) {stmt : Stmt} (hlast : s.last? = some stmt) :
    Gives E s.pop fun r => r.2.Opened k := by
  rw [pop_unlocked h.unlocked hlast]
  exact gives_ok ⟨h.unlocked, h.kind⟩

/-- An open scope can be locked. -/
theorem lock_gives (h : s.Opened k) :
    Gives E s.lock fun s' => s'.locked = true ∧ s'.kind = k := by
  rw [lock_unlocked h.unlocked]
  exact gives_ok ⟨rfl, h.kind⟩

end Scope

/-! ### Operands -/

namespace Operands

variable {st : Operands}

/-- A stack without the value that is asked for is damaged code. -/
theorem pop_gives {Q : Expr × Operands → Prop} (h : ∀ e st', Q (e, st')) :
    Gives (Error.Allowed unread) st.pop Q := by
  unfold pop
  split
  · exact gives_error (.damaged rfl)
  · exact h _ _
  · exact gives_error (.damaged rfl)

/-- So is a stack without the entry that is asked for. -/
theorem popEntry_gives {Q : Operand × Operands → Prop} (h : ∀ o st', Q (o, st')) :
    Gives (Error.Allowed unread) st.popEntry Q := by
  cases st with
  | nil => exact gives_error (.damaged rfl)
  | cons o st => exact h o st

/-- And one without the values that are asked for. -/
theorem popMany_gives (n : Nat) (st : Operands) :
    Gives (Error.Allowed unread) (popMany n st) fun _ => True := by
  induction n generalizing st with
  | zero => exact gives_ok trivial
  | succ n ih =>
    apply gives_bind
    apply pop_gives
    intro e st₁
    exact gives_bind ((ih st₁).imp fun _ _ => gives_ok trivial)

end Operands

/-- An operand with effects is not copied. -/
theorem Operand.duplicable_gives (o : Operand) :
    Gives (Error.Allowed unread) o.duplicable fun _ => True := by
  cases o with
  | value e =>
    show Gives (Error.Allowed unread)
      (if e.hasEffects then .error (.duplicatedEffect e) else .ok ()) _
    by_cases heffects : e.hasEffects = true
    · rw [if_pos heffects]
      exact gives_error (.form rfl nofun)
    · rw [if_neg heffects]
      exact gives_ok trivial
  | uninitialized t => exact gives_ok trivial

namespace Simulation

/-- The scope that receives statements is open and of the given kind. -/
def Opened (k : ScopeKind) (m : Simulation) : Prop := m.scope.Opened k

variable {config : Config} {k : ScopeKind} {m : Simulation}

namespace Opened

/-! ### Operations -/

/-- A statement is added. -/
theorem append (hm : m.Opened k) (s : Stmt) :
    Gives (Error.Allowed unread) (m.append s) (Opened k) :=
  gives_map (Scope.append_gives hm s)

/-- A local that is looked up may be bound first. -/
theorem resolve (hm : m.Opened k) (slot : Nat) (type : String) :
    Gives (Error.Allowed unread) (m.resolve slot type) fun r => r.2.Opened k := by
  unfold Simulation.resolve
  split
  · exact gives_ok hm
  · exact gives_map (Scope.declare_gives hm _)

/-- An assignment is one statement, in the compound form or not. -/
theorem assign (hm : m.Opened k) (target : Place) (value : Expr) :
    Gives (Error.Allowed unread) (Simulation.assign config m target value) (Opened k) := by
  unfold Simulation.assign
  split
  · split
    · exact hm.append _
    · exact hm.append _
  · exact hm.append _

/-- A value that nothing uses becomes a statement if it has effects. -/
theorem discard (hm : m.Opened k) (o : Operand) :
    Gives (Error.Allowed unread) (m.discard o) (Opened k) := by
  cases o with
  | value e =>
    unfold Simulation.discard
    simp only
    split
    · exact hm.append _
    · exact gives_ok hm
  | uninitialized t => exact gives_ok hm

/-- The increment that a read takes back is there. -/
theorem load (hm : m.Opened k) (prev : Option Insn) (slot : Nat) (type : String) :
    Gives (Error.Allowed unread) (Simulation.load config m prev slot type) (Opened k) := by
  apply gives_bind
  refine (hm.resolve slot type).imp ?_
  rintro ⟨v, m₁⟩ hm₁
  simp only
  split
  · rename_i w n hw
    split
    · -- what has just been incremented is the last statement, so there is one to take back
      have hlast : m₁.scope.last? = some (.increment w n) := (last_of_justIncremented hw).2
      exact gives_bind ((Scope.pop_gives hm₁ hlast).imp fun _ hscope => gives_ok hscope)
    · exact gives_ok hm₁
  · exact gives_ok hm₁

/-- An increment becomes part of the read before it, or a statement. -/
theorem increment (hm : m.Opened k) (prev : Option Insn) (slot : Nat) (n : Int) :
    Gives (Error.Allowed unread) (Simulation.increment config m prev slot n) (Opened k) := by
  apply gives_bind
  refine (hm.resolve slot Descriptor.int).imp ?_
  rintro ⟨v, m₁⟩ hm₁
  simp only
  split
  · split
    · exact gives_ok hm₁
    · exact hm₁.append _
  · exact hm₁.append _

/-- A store goes into an initializer, or it is an assignment. -/
theorem arrayStore (hm : m.Opened k) :
    Gives (Error.Allowed unread) (Simulation.arrayStore config m) (Opened k) := by
  refine gives_bind (Operands.pop_gives fun value st₁ => ?_)
  refine gives_bind (Operands.pop_gives fun index st₂ => ?_)
  refine gives_bind (Operands.pop_gives fun array st => ?_)
  have hm' : Opened k { m with stack := st } := hm
  simp only
  split
  · rename_i top below
    split
    · split
      · exact gives_ok hm
      · split
        -- an array that waits below a store that does not fill it has no structured form
        · exact gives_error (.form rfl nofun)
        · exact hm'.assign _ _
    · exact hm'.assign _ _
  · exact hm'.assign _ _

/-- A call is a statement or a value. -/
theorem emitCall (hm : m.Opened k) (st : Operands) (call : Expr) (isVoid : Bool) :
    Gives (Error.Allowed unread) (m.emitCall st call isVoid) (Opened k) := by
  have hm' : Opened k { m with stack := st } := hm
  unfold Simulation.emitCall
  cases isVoid with
  | true => exact hm'.append _
  | false => exact gives_ok hm

/-- A constructor call finishes an entry, or it is a statement. -/
theorem construct (hm : m.Opened k) (st : Operands) (type : String) (made : Expr) :
    Gives (Error.Allowed unread) (m.construct st type made) (Opened k) := by
  have hm' : Opened k { m with stack := st } := hm
  unfold Simulation.construct
  split
  · split
    · exact gives_ok hm
    · exact hm'.append _
  · exact hm'.append _

/-- An invocation whose descriptor can be read. -/
theorem invoke (hm : m.Opened k) (dispatch : Dispatch) (f : MethodRef)
    (hunread : ∀ e, f.parse = .error e → unread) :
    Gives (Error.Allowed unread) (m.invoke dispatch f) (Opened k) := by
  unfold Simulation.invoke
  -- the one failure that says that something could not be read
  cases hparse : f.parse with
  | error e => exact gives_error (.unread rfl (hunread e hparse))
  | ok t =>
    refine gives_bind (gives_ok ?_)
    refine gives_bind ((Operands.popMany_gives t.params.length m.stack).imp ?_)
    rintro ⟨args, st⟩ -
    simp only
    split
    · refine gives_bind (Operands.popEntry_gives fun o st' => ?_)
      cases o with
      | value receiver => exact hm.emitCall _ _ _
      | uninitialized type =>
        simp only
        split
        · exact hm.construct _ _ _
        · exact gives_error (.damaged rfl)
    · exact hm.emitCall _ _ _

/-- One entry is discarded. -/
theorem pop (hm : m.Opened k) : Gives (Error.Allowed unread) m.pop (Opened k) := by
  refine gives_bind (Operands.popEntry_gives fun o st => ?_)
  have hm' : Opened k { m with stack := st } := hm
  exact hm'.discard o

/-- Two entries are discarded, or a wide one. -/
theorem pop2 (hm : m.Opened k) : Gives (Error.Allowed unread) m.pop2 (Opened k) := by
  refine gives_bind (hm.pop.imp fun m₁ hm₁ => ?_)
  split
  · exact gives_ok hm₁
  · exact hm₁.pop

/-- An operation on one value. -/
theorem unary (hm : m.Opened k) (f : Expr → Expr) :
    Gives (Error.Allowed unread) (m.unary f) (Opened k) :=
  gives_bind (Operands.pop_gives fun _ _ => gives_ok hm)

/-- An operation on two values. -/
theorem binary (hm : m.Opened k) (f : Expr → Expr → Expr) :
    Gives (Error.Allowed unread) (m.binary f) (Opened k) :=
  gives_bind (Operands.pop_gives fun _ _ => gives_bind (Operands.pop_gives fun _ _ => gives_ok hm))

/-- Two entries change places. -/
theorem swap (hm : m.Opened k) : Gives (Error.Allowed unread) m.swap (Opened k) :=
  gives_bind (Operands.popEntry_gives fun _ _ =>
    gives_bind (Operands.popEntry_gives fun _ _ => gives_ok hm))

/-! ### Copies -/

/-- A store behind a copy may bind its local first. -/
theorem storeTarget (hm : m.Opened k) (next : Option Insn) :
    Gives (Error.Allowed unread) (m.storeTarget? next) fun r =>
      ∀ target m', r = some (target, m') → m'.Opened k := by
  unfold Simulation.storeTarget?
  split
  · refine gives_map ((hm.resolve _ _).imp ?_)
    intro r hr target m' heq
    cases heq
    exact hr
  · intro target m' heq
    cases heq
    exact hm
  · intro target m' heq
    cases heq

/-- A copy of a value with effects is taken only if it is stored. -/
theorem dup (hm : m.Opened k) (next : Option Insn) :
    Gives (Error.Allowed unread) (Simulation.dup config m next) fun out => out.state.Opened k := by
  refine gives_bind (Operands.popEntry_gives fun o st => ?_)
  cases o with
  | uninitialized t => exact gives_ok hm
  | value e =>
    simp only
    split
    · have hm' : Opened k { m with stack := st } := hm
      refine gives_bind ((hm'.storeTarget next).imp fun r hr => ?_)
      -- without a store behind it, there is no place where the effects could stand once
      cases r with
      | none => exact gives_error (.form rfl nofun)
      | some r =>
        have hr : r.2.Opened k := hr r.1 r.2 rfl
        exact gives_bind ((hr.assign _ _).imp fun _ hm₂ => gives_ok hm₂)
    · exact gives_ok hm

/-- And so below one entry. -/
theorem dupX1 (hm : m.Opened k) (next : Option Insn) :
    Gives (Error.Allowed unread) (Simulation.dupX1 config m next) fun out =>
      out.state.Opened k := by
  refine gives_bind (Operands.popEntry_gives fun o st₁ => ?_)
  refine gives_bind (Operands.popEntry_gives fun o' st => ?_)
  simp only
  split
  · split
    · exact gives_error (.form rfl nofun)
    · have hm' : Opened k { m with stack := st } := hm
      exact gives_bind ((hm'.assign _ _).imp fun _ hm₂ => gives_ok hm₂)
  · exact gives_bind ((Operand.duplicable_gives _).imp fun _ _ => gives_ok hm)

/-- Below two entries there are no copies of effects. -/
theorem dupX2 (hm : m.Opened k) : Gives (Error.Allowed unread) m.dupX2 (Opened k) := by
  refine gives_bind (Operands.popEntry_gives fun o st => ?_)
  refine gives_bind ((Operand.duplicable_gives o).imp fun _ _ => ?_)
  refine gives_bind (Operands.popEntry_gives fun o' st' => ?_)
  simp only
  split
  · exact gives_ok hm
  · exact gives_bind (Operands.popEntry_gives fun _ _ => gives_ok hm)

/-- Nor are there of two entries. -/
theorem dup2 (hm : m.Opened k) : Gives (Error.Allowed unread) m.dup2 (Opened k) := by
  refine gives_bind (Operands.popEntry_gives fun o st => ?_)
  simp only
  split
  · exact gives_bind ((Operand.duplicable_gives o).imp fun _ _ => gives_ok hm)
  · refine gives_bind (Operands.popEntry_gives fun o' st' => ?_)
    refine gives_bind ((Operand.duplicable_gives o).imp fun _ _ => ?_)
    exact gives_bind ((Operand.duplicable_gives o').imp fun _ _ => gives_ok hm)

end Opened

/-! ### Instructions -/

/-- One instruction keeps the scope open. -/
theorem step_gives (hm : m.Opened k) {prev next : Option Insn} {i : Insn}
    (hunread : ∀ e, i.effect = .error e → unread) :
    Gives (Error.Allowed unread) (step config m prev i next) fun out => out.state.Opened k := by
  -- an operation that stands alone gives an outcome when it gives a state
  have halone : ∀ {x : Except Error Simulation}, Gives (Error.Allowed unread) x (Opened k) →
      Gives (Error.Allowed unread) (x.map alone) fun out =>
        out.state.Opened k := fun hx => gives_map hx
  cases i with
  | const _ | getStatic _ | new _ => exact gives_ok hm
  | load slot t => exact halone (hm.load _ _ _)
  | increment slot n => exact halone (hm.increment _ _ _)
  | store slot t =>
    refine gives_bind (Operands.pop_gives fun value st => ?_)
    have hm' : Opened k { m with stack := st } := hm
    exact gives_bind ((hm'.resolve slot t).imp fun r hr => halone (hr.assign _ _))
  | putStatic f =>
    refine gives_bind (Operands.pop_gives fun value st => ?_)
    have hm' : Opened k { m with stack := st } := hm
    exact halone (hm'.assign _ _)
  | putField f =>
    refine gives_bind (Operands.pop_gives fun value st₁ => ?_)
    refine gives_bind (Operands.pop_gives fun receiver st => ?_)
    have hm' : Opened k { m with stack := st } := hm
    exact halone (hm'.assign _ _)
  | arrayStore t => exact halone hm.arrayStore
  | binary _ _ | compare _ | arrayLoad _ => exact halone (hm.binary _)
  | negate _ | convert _ | checkCast _ | instanceOf _ | getField _ | arrayLength | newArray _ =>
    exact halone (hm.unary _)
  | invoke dispatch f =>
    refine halone (hm.invoke dispatch f fun e he => hunread (.descriptor e) ?_)
    rw [Insn.effect, he]
  | dup => exact hm.dup next
  | dupX1 => exact hm.dupX1 next
  | dupX2 => exact halone hm.dupX2
  | dup2 => exact halone hm.dup2
  | pop => exact halone hm.pop
  | pop2 => exact halone hm.pop2
  | swap => exact halone hm.swap

/-- An instruction is refused if it cannot be read, or if the stack is too low. -/
theorem checkOperands_gives (m : Simulation) {i : Insn}
    (hunread : ∀ e, i.effect = .error e → unread) :
    Gives (Error.Allowed unread) (m.checkOperands i) fun _ => True := by
  unfold checkOperands
  cases heffect : i.effect with
  | error e =>
    have hu := hunread e heffect
    cases e with
    | descriptor f => exact gives_error (.unread rfl hu)
    | tooManyArguments f => exact gives_error (.unread rfl hu)
  | ok effect =>
    refine gives_bind (gives_ok ?_)
    split
    · exact gives_error (.damaged rfl)
    · exact gives_ok trivial

/-- Instructions behind one that has just run. -/
theorem runAfter_gives {prev : Option Insn} {is : List Insn} (hm : m.Opened k)
    (hunread : ∀ i ∈ is, ∀ e, i.effect = .error e → unread) :
    Gives (Error.Allowed unread) (runAfter config prev m is) (Opened k) := by
  fun_induction runAfter config prev m is with
  | case1 => exact gives_ok hm
  | case2 prev m i =>
    have hi := hunread i (List.mem_singleton_self i)
    refine gives_bind ((checkOperands_gives m hi).imp fun _ _ => ?_)
    exact gives_bind ((step_gives hm hi).imp fun _ hout => gives_ok hout)
  | case3 prev m i next rest ih ih' =>
    have hi := hunread i (List.mem_cons_self ..)
    refine gives_bind ((checkOperands_gives m hi).imp fun _ _ => ?_)
    refine gives_bind ((step_gives hm hi).imp fun out hout => ?_)
    -- the next instruction has been taken in, or it comes next
    split
    · exact ih out hout fun j hj => hunread j (List.mem_cons_of_mem _ (List.mem_cons_of_mem _ hj))
    · exact ih' out hout fun j hj => hunread j (List.mem_cons_of_mem _ hj)

/-- Instructions keep an open scope open, whatever is on the stack. -/
theorem run_gives {is : List Insn} (hm : m.Opened k)
    (hunread : ∀ i ∈ is, ∀ e, i.effect = .error e → unread) :
    Gives (Error.Allowed unread) (run config m is) (Opened k) := runAfter_gives hm hunread

end Simulation

end Restructure
