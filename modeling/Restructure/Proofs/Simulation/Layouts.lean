import Restructure.Proofs.Simulation.Failures

namespace Restructure

/-!
# Layouts — which operands of a stack are finished

Whether an instruction finds its operands depends on which entries of the stack are finished values,
but not on the values and not on the scope. So a block that can be simulated somewhere can be
simulated over every open scope and every stack of the same layout, unless its code has no
structured form there.

* `Slot`, `Layout` — the entries of a stack without their values.
* `Insn.layout` — the layout behind an instruction.
* `Yields` — a computation gives a certain result, or there is no structured form.
* `Simulation.run_yields` — instructions that fit a layout run on every stack of that layout.
* `Simulation.run_layout` — instructions that have run fit the layout.
-/

/-! ### Layouts -/

/-- An entry of a stack without its value. -/
inductive Slot where
  | value
  | fresh (type : String)
  deriving DecidableEq

/-- A stack without its values, the top first. -/
abbrev Layout := List Slot

/-- What is left of an entry without its value. -/
def Operand.slot : Operand → Slot
  | value _ => .value
  | uninitialized t => .fresh t

/-- What is left of a stack without its values. -/
def Operands.layout (st : Operands) : Layout := st.map Operand.slot

namespace Layout

/-- Takes finished values from the top. -/
def popValues : (count : Nat) → Layout → Option Layout
  | 0, ks => some ks
  | n + 1, .value :: ks => popValues n ks
  | _ + 1, _ => none

/-- The layout behind the result of a call. -/
def called (isVoid : Bool) (ks : Layout) : Layout := if isVoid then ks else .value :: ks

/-- The layout behind a constructor: a copy of the object that waits below becomes a value. -/
def constructed (type : String) : Layout → Layout
  | .fresh t :: ks => if t = type then .value :: ks else .fresh t :: ks
  | ks => ks

/-- The layout behind a call whose arguments have been taken. -/
def received (dispatch : Dispatch) (m : MethodRef) (isVoid : Bool) (ks : Layout) :
    Option Layout :=
  if dispatch.hasReceiver then
    match ks with
    | [] => none
    | .value :: ks => some (called isVoid ks)
    | .fresh t :: ks =>
      if dispatch = .special ∧ m.name = "<init>" then some (constructed t ks) else none
  else some (called isVoid ks)

/-- The layout behind an invocation. -/
def invoked (dispatch : Dispatch) (m : MethodRef) (ks : Layout) : Option Layout :=
  match m.parse with
  | .error _ => none
  | .ok t =>
    if t.params.length + (if dispatch.hasReceiver then 1 else 0) ≤ Insn.maxPops then
      (popValues t.params.length ks).bind (received dispatch m t.returnsVoid)
    else none

end Layout

open Layout in
/-- The layout behind an instruction, if the instruction finds its operands. The instructions whose
    operands depend on the types of values are left out. -/
def Insn.layout (i : Insn) (ks : Layout) : Option Layout :=
  match i with
  | .const _ | .load _ _ | .getStatic _ => some (.value :: ks)
  | .new c => some (.fresh (Descriptor.classRef c) :: ks)
  | .increment _ _ => some ks
  | .store _ _ | .putStatic _ => popValues 1 ks
  | .putField _ => popValues 2 ks
  | .arrayStore _ => popValues 3 ks
  | .binary _ _ | .compare _ | .arrayLoad _ => (popValues 2 ks).map (.value :: ·)
  | .negate _ | .convert _ | .checkCast _ | .instanceOf _ | .getField _ | .arrayLength
  | .newArray _ => (popValues 1 ks).map (.value :: ·)
  | .invoke dispatch m => invoked dispatch m ks
  | .dup =>
    match ks with
    | k :: ks => some (k :: k :: ks)
    | _ => none
  | .dupX1 =>
    match ks with
    | k :: k' :: ks => some (k :: k' :: k :: ks)
    | _ => none
  | .swap =>
    match ks with
    | k :: k' :: ks => some (k' :: k :: ks)
    | _ => none
  | .pop => ks.tail?
  | .dupX2 | .dup2 | .pop2 => none

/-- The layout behind instructions. -/
def Insn.layoutAll (is : List Insn) (ks : Layout) : Option Layout :=
  is.foldlM (fun ks i => i.layout ks) ks

namespace Layout

/-- Values are taken one by one. -/
theorem popValues_succ {n : Nat} {ks ks' : Layout} :
    popValues (n + 1) ks = some ks' ↔ ∃ ls, ks = .value :: ls ∧ popValues n ls = some ks' := by
  cases ks with
  | nil => simp [popValues]
  | cons k ks => cases k <;> simp [popValues]

/-- One value is taken. -/
theorem popValues_one {ks ks' : Layout} :
    popValues 1 ks = some ks' ↔ ks = .value :: ks' := by simp [popValues_succ, popValues]

/-- Two values are taken. -/
theorem popValues_two {ks ks' : Layout} :
    popValues 2 ks = some ks' ↔ ks = .value :: .value :: ks' := by simp [popValues_succ, popValues]

/-- Three values are taken. -/
theorem popValues_three {ks ks' : Layout} :
    popValues 3 ks = some ks' ↔ ks = .value :: .value :: .value :: ks' := by
  simp [popValues_succ, popValues]

/-- As many entries are taken as are asked for. -/
theorem length_of_popValues {n : Nat} {ks ks' : Layout} (h : popValues n ks = some ks') :
    ks.length = n + ks'.length := by
  induction n generalizing ks with
  | zero =>
    cases h
    simp
  | succ n ih =>
    obtain ⟨ls, rfl, h⟩ := popValues_succ.1 h
    rw [List.length_cons, ih h]
    omega

/-- What an invocation needs to find. -/
theorem invoked_inv {dispatch : Dispatch} {m : MethodRef} {ks ks' : Layout}
    (h : invoked dispatch m ks = some ks') :
    ∃ t ls, m.parse = .ok t ∧
      t.params.length + (if dispatch.hasReceiver then 1 else 0) ≤ Insn.maxPops ∧
      popValues t.params.length ks = some ls ∧
      received dispatch m t.returnsVoid ls = some ks' := by
  unfold invoked at h
  split at h
  · cases h
  · rename_i t ht
    by_cases hmax : t.params.length + (if dispatch.hasReceiver then 1 else 0) ≤ Insn.maxPops
    · rw [if_pos hmax] at h
      obtain ⟨ls, hls, h⟩ := Option.bind_eq_some_iff.1 h
      exact ⟨t, ls, ht, hmax, hls, h⟩
    · rw [if_neg hmax] at h
      cases h

end Layout

/-- An instruction that fits the layout has a stack effect, and pops no more than there is. -/
theorem Insn.effect_of_layout {i : Insn} {ks ks' : Layout} (h : i.layout ks = some ks') :
    ∃ e, i.effect = .ok e ∧ e.pops ≤ ks.length := by
  have hvalues : ∀ {n : Nat} {ls : Layout}, Layout.popValues n ks = some ls → n ≤ ks.length :=
    fun h => by
      have := Layout.length_of_popValues h
      omega
  cases i with
  | const _ | load _ _ | getStatic _ | new _ | increment _ _ => exact ⟨_, rfl, Nat.zero_le _⟩
  | store _ _ | putStatic _ | putField _ | arrayStore _ => exact ⟨_, rfl, hvalues h⟩
  | binary _ _ | compare _ | arrayLoad _ | negate _ | convert _ | checkCast _ | instanceOf _
  | getField _ | arrayLength | newArray _ =>
    obtain ⟨ls, hls, _⟩ := Option.map_eq_some_iff.1 h
    exact ⟨_, rfl, hvalues hls⟩
  | invoke dispatch m =>
    obtain ⟨t, ls, ht, hmax, hls, hrec⟩ := Layout.invoked_inv h
    refine ⟨_, by rw [effect, ht]; exact if_pos hmax, ?_⟩
    have hlen := Layout.length_of_popValues hls
    show t.params.length + (if dispatch.hasReceiver then 1 else 0) ≤ ks.length
    split
    · rename_i hreceiver
      -- the receiver is below the arguments
      have hne : ls ≠ [] := by
        rintro rfl
        rw [Layout.received, if_pos hreceiver] at hrec
        cases hrec
      have := List.length_pos_of_ne_nil hne
      omega
    · omega
  | dup | pop =>
    cases ks with
    | nil => cases h
    | cons k ks => exact ⟨_, rfl, by simp⟩
  | dupX1 | swap =>
    -- with fewer than two entries there is no layout behind the instruction
    cases ks with
    | nil => cases h
    | cons k ks =>
      cases ks with
      | nil => cases h
      | cons k' ks => exact ⟨_, rfl, by simp⟩
  | dupX2 | dup2 | pop2 => cases h

/-! ### Computations that fail only for want of a form -/

/-- The result satisfies `Q`, or there is none because the code has no structured form. -/
def Yields {α : Type} (x : Except Error α) (Q : α → Prop) : Prop :=
  Gives (fun e => e.kind = .unstructurable) x Q

/-- A scope that has got a statement is open. -/
theorem Scope.unlocked_of_append {s s' : Scope} {stmt : Stmt} (h : s.append stmt = .ok s') :
    s'.locked = false := by
  obtain ⟨s₁, hs₁, rfl⟩ := Except.map_eq_ok.1 h
  unfold ifOpen at hs₁
  split at hs₁
  · cases hs₁
  · rename_i hopen
    cases hs₁
    simpa using hopen

/-! ### Operands -/

namespace Operands

variable {st : Operands} {k : Slot} {ks ks' : Layout}

/-- A value on top can be taken. -/
theorem pop_yields {Q : Expr × Operands → Prop} (h : st.layout = .value :: ks)
    (hQ : ∀ e st', st'.layout = ks → Q (e, st')) : Yields st.pop Q := by
  cases st with
  | nil => cases h
  | cons o st =>
    obtain ⟨ho, hst⟩ := List.cons.inj h
    cases o with
    | value e => exact hQ e st hst
    | uninitialized t => cases ho

/-- An entry on top can be taken. -/
theorem popEntry_yields {Q : Operand × Operands → Prop} (h : st.layout = k :: ks)
    (hQ : ∀ o st', o.slot = k → st'.layout = ks → Q (o, st')) : Yields st.popEntry Q := by
  cases st with
  | nil => cases h
  | cons o st =>
    obtain ⟨ho, hst⟩ := List.cons.inj h
    exact hQ o st ho hst

/-- As many values can be taken as the layout has on top. -/
theorem popMany_yields {n : Nat} (h : Layout.popValues n st.layout = some ks) :
    Yields (popMany n st) fun r => r.2.layout = ks := by
  induction n generalizing st with
  | zero =>
    cases h
    exact gives_ok rfl
  | succ n ih =>
    obtain ⟨ls, hls, h⟩ := Layout.popValues_succ.1 h
    refine gives_bind (pop_yields hls fun e st' hst => ?_)
    subst hst
    exact gives_bind ((ih h).imp fun r hr => hr)

/-- What is taken from the stack is taken from its layout. -/
theorem popValues_of_popMany {n : Nat} {es : List Expr} {st' : Operands}
    (h : popMany n st = .ok (es, st')) : Layout.popValues n st.layout = some st'.layout := by
  induction n generalizing st es with
  | zero =>
    cases h
    rfl
  | succ n ih =>
    obtain ⟨⟨e, st₁⟩, hpop, h⟩ := Except.bind_eq_ok.1 h
    obtain ⟨⟨es', st₂⟩, hmany, h⟩ := Except.bind_eq_ok.1 h
    cases h
    rw [Simulation.pop_ok hpop]
    exact ih hmany

end Operands

namespace Simulation

/-- The scope is open and the stack has the layout. -/
structure Holds (m : Simulation) (ks : Layout) : Prop where
  unlocked : m.scope.locked = false
  layout : m.stack.layout = ks

variable {config : Config} {m : Simulation} {ks ks' : Layout} {st : Operands}

namespace Holds

/-- At the start the stack is empty. -/
theorem start {scope : Scope} (h : scope.locked = false) : (Simulation.start scope).Holds [] :=
  ⟨h, rfl⟩

/-- The stack is exchanged. -/
theorem withStack (hm : m.Holds ks) (hst : st.layout = ks') : Holds { m with stack := st } ks' :=
  ⟨hm.unlocked, hst⟩

/-- A value is pushed on another stack. -/
theorem pushOn (hm : m.Holds ks) (hst : st.layout = ks') (e : Expr) :
    (m.pushOn st e).Holds (.value :: ks') := ⟨hm.unlocked, congrArg (Slot.value :: ·) hst⟩

/-- A statement is added. -/
theorem append (hm : m.Holds ks) (s : Stmt) : Yields (m.append s) fun m' => m'.Holds ks :=
  gives_map ((Scope.append_gives ⟨hm.unlocked, rfl⟩ s).imp fun _ hs => ⟨hs.unlocked, hm.layout⟩)

/-- A slot is looked up. -/
theorem resolve (hm : m.Holds ks) (slot : Nat) (type : String) :
    Yields (m.resolve slot type) fun r => r.2.Holds ks := by
  unfold Simulation.resolve
  split
  · exact gives_ok hm
  · exact gives_map ((Scope.declare_gives ⟨hm.unlocked, rfl⟩ _).imp fun _ hs =>
      ⟨hs.unlocked, hm.layout⟩)

/-- A value is stored. -/
theorem assign (hm : m.Holds ks) (target : Place) (value : Expr) :
    Yields (Simulation.assign config m target value) fun m' => m'.Holds ks := by
  unfold Simulation.assign
  split
  · split
    · exact hm.append _
    · exact hm.append _
  · exact hm.append _

/-! ### Operations -/

/-- A local is pushed. -/
theorem load (hm : m.Holds ks) (prev : Option Insn) (slot : Nat) (type : String) :
    Yields (Simulation.load config m prev slot type) fun m' => m'.Holds (.value :: ks) := by
  refine gives_bind ((hm.resolve slot type).imp fun ⟨v, m₁⟩ hm₁ => ?_)
  simp only
  split
  · rename_i w n hw
    split
    -- the statement that is taken back is there, since it has just been written
    · refine gives_bind ((Scope.pop_gives ⟨hm₁.unlocked, rfl⟩ (last_of_justIncremented hw).2).imp
        fun ⟨_, scope⟩ hscope => ?_)
      exact gives_ok ⟨hscope.unlocked, congrArg (Slot.value :: ·) hm₁.layout⟩
    · exact gives_ok (hm₁.pushOn hm₁.layout _)
  · exact gives_ok (hm₁.pushOn hm₁.layout _)

/-- A local is changed where it stands. -/
theorem increment (hm : m.Holds ks) (prev : Option Insn) (slot : Nat) (n : Int) :
    Yields (Simulation.increment config m prev slot n) fun m' => m'.Holds ks := by
  refine gives_bind ((hm.resolve slot Descriptor.int).imp fun ⟨v, m₁⟩ hm₁ => ?_)
  simp only
  split
  · rename_i st hst
    split
    · obtain ⟨w, _, hstack⟩ := stack_of_justRead hst
      refine gives_ok ⟨hm₁.unlocked, ?_⟩
      rw [← hm₁.layout, hstack]
      rfl
    · exact hm₁.append _
  · exact hm₁.append _

/-- A store into an array takes the array, the index and the value. -/
theorem arrayStore (hm : m.Holds (.value :: .value :: .value :: ks)) :
    Yields (Simulation.arrayStore config m) fun m' => m'.Holds ks := by
  refine gives_bind (Operands.pop_yields hm.layout fun value st₁ hst₁ => ?_)
  refine gives_bind (Operands.pop_yields hst₁ fun index st₂ hst₂ => ?_)
  refine gives_bind (Operands.pop_yields hst₂ fun array st hst => ?_)
  have hm' : Holds { m with stack := st } ks := hm.withStack hst
  simp only
  split
  · rename_i top below
    split
    · split
      -- the array that waits below is filled, and stays a value
      · exact gives_ok ⟨hm.unlocked, hst⟩
      · split
        · exact rfl
        · exact hm'.assign _ _
    · exact hm'.assign _ _
  · exact hm'.assign _ _

/-- A call leaves its result, if it has one. -/
theorem emitCall (hm : m.Holds ks) (hst : st.layout = ks') (e : Expr) (isVoid : Bool) :
    Yields (m.emitCall st e isVoid) fun m' => m'.Holds (Layout.called isVoid ks') := by
  unfold Simulation.emitCall Layout.called
  cases isVoid with
  | true => exact (hm.withStack hst).append _
  | false => exact gives_ok (hm.pushOn hst e)

/-- A constructor call completes the copies of its object on the stack. -/
theorem construct (hm : m.Holds ks) (hst : st.layout = ks') (type : String) (e : Expr) :
    Yields (m.construct st type e) fun m' => m'.Holds (Layout.constructed type ks') := by
  subst hst
  cases st with
  | nil => exact (hm.withStack rfl).append _
  | cons o st =>
    cases o with
    | value v => exact (hm.withStack rfl).append _
    | uninitialized t =>
      show Yields (if t = type then _ else _)
        fun m' : Simulation => m'.Holds (if t = type then _ else _)
      split
      · exact hm.pushOn rfl e
      · exact (hm.withStack rfl).append _

/-- A call takes its arguments, and its receiver if it has one. -/
theorem invoke (hm : m.Holds ks) {dispatch : Dispatch} {f : MethodRef}
    (h : Layout.invoked dispatch f ks = some ks') :
    Yields (m.invoke dispatch f) fun m' => m'.Holds ks' := by
  obtain ⟨t, ls, ht, -, hls, hrec⟩ := Layout.invoked_inv h
  rw [← hm.layout] at hls
  unfold Simulation.invoke
  rw [ht]
  refine gives_bind (gives_ok ?_)
  refine gives_bind ((Operands.popMany_yields hls).imp fun ⟨args, st⟩ hst => ?_)
  unfold Layout.received at hrec
  simp only
  split
  · rename_i hreceiver
    rw [if_pos hreceiver] at hrec
    -- the receiver is a value, or a fresh object whose constructor this is
    match ls, hrec with
    | .value :: ls, hrec =>
      refine gives_bind (Operands.popEntry_yields hst fun o st' ho hst' => ?_)
      cases o with
      | value receiver =>
        cases hrec
        exact hm.emitCall hst' _ _
      | uninitialized type => cases ho
    | .fresh type :: ls, hrec =>
      refine gives_bind (Operands.popEntry_yields hst fun o st' ho hst' => ?_)
      cases o with
      | value receiver => cases ho
      | uninitialized type' =>
        cases ho
        simp only at hrec ⊢
        split at hrec
        · rename_i hinit
          cases hrec
          rw [if_pos hinit]
          exact hm.construct hst' _ _
        · cases hrec
  · rename_i hreceiver
    rw [if_neg hreceiver] at hrec
    cases hrec
    exact hm.emitCall hst _ _

/-- The entry on top is dropped. -/
theorem pop {k : Slot} (hm : m.Holds (k :: ks)) : Yields m.pop fun m' => m'.Holds ks := by
  refine gives_bind (Operands.popEntry_yields hm.layout fun o st _ hst => ?_)
  have hm' : Holds { m with stack := st } ks := hm.withStack hst
  cases o with
  | value e =>
    show Yields (if e.hasEffects then _ else _) _
    split
    · exact hm'.append _
    · exact gives_ok hm'
  | uninitialized t => exact gives_ok hm'

/-- An operator of one operand. -/
theorem unary (hm : m.Holds (.value :: ks)) (f : Expr → Expr) :
    Yields (m.unary f) fun m' => m'.Holds (.value :: ks) :=
  gives_bind (Operands.pop_yields hm.layout fun _ _ hst => gives_ok (hm.pushOn hst _))

/-- An operator of two operands. -/
theorem binary (hm : m.Holds (.value :: .value :: ks)) (f : Expr → Expr → Expr) :
    Yields (m.binary f) fun m' => m'.Holds (.value :: ks) :=
  gives_bind (Operands.pop_yields hm.layout fun _ _ hst₁ =>
    gives_bind (Operands.pop_yields hst₁ fun _ _ hst => gives_ok (hm.pushOn hst _)))

/-- The two entries on top change places. -/
theorem swap {k k' : Slot} (hm : m.Holds (k :: k' :: ks)) :
    Yields m.swap fun m' => m'.Holds (k' :: k :: ks) :=
  gives_bind (Operands.popEntry_yields hm.layout fun o _ ho hst₁ =>
    gives_bind (Operands.popEntry_yields hst₁ fun o' _ ho' hst => gives_ok
      ⟨hm.unlocked, by simp [Operands.layout, ← ho, ← ho', ← hst]⟩))

end Holds

/-! ### Instructions that take in the next one -/

/-- An outcome leaves the layout behind its instruction, or the one behind the next instruction if
    it took that in. -/
def Outcome.Leaves (out : Outcome) (next : Option Insn) (ks : Layout) : Prop :=
  if out.tookNext then ∃ i ls, next = some i ∧ i.layout ks = some ls ∧ out.state.Holds ls
  else out.state.Holds ks

/-- A copy of the entry on top. -/
theorem Holds.dup {k : Slot} (hm : m.Holds (k :: ks)) (next : Option Insn) :
    Yields (Simulation.dup config m next) fun out => out.Leaves next (k :: k :: ks) := by
  refine gives_bind (Operands.popEntry_yields hm.layout fun o st ho hst => ?_)
  have hcopied : (alone { m with stack := o :: o :: st }).Leaves next (k :: k :: ks) := by
    refine ⟨hm.unlocked, ?_⟩
    show o.slot :: o.slot :: st.layout = _
    rw [ho, hst]
  cases o with
  | uninitialized t => exact gives_ok hcopied
  | value e =>
    simp only
    split
    · -- the value is stored and its destination read, as if the store came on its own
      have hstored : Yields (storeTarget? { m with stack := st } next) fun r =>
          ∀ target m₁, r = some (target, m₁) →
            m₁.Holds ks ∧ ∃ i, next = some i ∧ i.layout (k :: k :: ks) = some (k :: ks) := by
        have hm' : Holds { m with stack := st } ks := hm.withStack hst
        obtain rfl : k = .value := ho.symm
        unfold storeTarget?
        split
        · refine gives_map ((hm'.resolve _ _).imp fun r hr target m₁ h => ?_)
          cases h
          exact ⟨hr, _, rfl, rfl⟩
        · refine gives_ok fun target m₁ h => ?_
          cases h
          exact ⟨hm', _, rfl, rfl⟩
        · exact gives_ok fun _ _ h => by cases h
      refine gives_bind (hstored.imp fun r hr => ?_)
      cases r with
      | none => exact rfl
      | some r =>
        obtain ⟨hm₁, i, hnext, hi⟩ := hr r.1 r.2 rfl
        refine gives_bind ((hm₁.assign _ _).imp fun m₂ hm₂ => gives_ok ?_)
        exact ⟨i, k :: ks, hnext, hi, ho ▸ hm₂.pushOn hm₂.layout _⟩
    · exact gives_ok hcopied

/-- A copy of the entry on top below the next one. -/
theorem Holds.dupX1 {k k' : Slot} (hm : m.Holds (k :: k' :: ks)) (next : Option Insn) :
    Yields (Simulation.dupX1 config m next) fun out => out.Leaves next (k :: k' :: k :: ks) := by
  refine gives_bind (Operands.popEntry_yields hm.layout fun o st₁ ho hst₁ => ?_)
  refine gives_bind (Operands.popEntry_yields hst₁ fun o' st ho' hst => ?_)
  have hcopied : (alone { m with stack := o :: o' :: o :: st }).Leaves next
      (k :: k' :: k :: ks) := by
    refine ⟨hm.unlocked, ?_⟩
    show o.slot :: o'.slot :: o.slot :: st.layout = _
    rw [ho, ho', hst]
  simp only
  split
  · rename_i value receiver f
    split
    -- a receiver that must not be repeated is an error
    · exact rfl
    · obtain rfl : k = .value := ho.symm
      obtain rfl : k' = .value := ho'.symm
      -- the field is assigned at once, and the value it then has stays on the stack
      have hm' : Holds { m with stack := st } ks := hm.withStack hst
      refine gives_bind ((hm'.assign _ _).imp fun m₂ hm₂ => gives_ok ?_)
      exact ⟨_, _, rfl, rfl, hm₂.pushOn hm₂.layout _⟩
  · refine gives_bind ?_
    have hcopies : Yields o.duplicable fun _ => True := by
      cases o with
      | value e =>
        show Yields (if e.hasEffects then _ else _) _
        split
        · exact rfl
        · exact trivial
      | uninitialized t => exact trivial
    exact hcopies.imp fun _ _ => gives_ok hcopied

/-! ### Instructions -/

/-- One instruction runs as its layout says, unless it has no form there. -/
theorem step_yields (hm : m.Holds ks) {prev next : Option Insn} {i : Insn}
    (h : i.layout ks = some ks') :
    Yields (step config m prev i next) fun out => out.Leaves next ks' := by
  -- all instructions but the two copies stand alone
  have halone : ∀ {x : Except Error Simulation}, Yields x (fun m' => m'.Holds ks') →
      Yields (x.map alone) fun out => out.Leaves next ks' := fun hx =>
    gives_map (hx.imp fun _ h => h)
  cases i with
  | const _ | getStatic _ =>
    cases h
    exact gives_ok (hm.pushOn hm.layout _)
  | new c =>
    cases h
    exact gives_ok ⟨hm.unlocked, congrArg (Slot.fresh _ :: ·) hm.layout⟩
  | load slot t =>
    cases h
    exact halone (hm.load _ _ _)
  | increment slot n =>
    cases h
    exact halone (hm.increment _ _ _)
  | store slot t =>
    obtain rfl := Layout.popValues_one.1 h
    refine gives_bind (Operands.pop_yields hm.layout fun value st hst => ?_)
    refine gives_bind (((hm.withStack hst).resolve slot t).imp fun ⟨v, m₁⟩ hm₁ => ?_)
    exact halone (hm₁.assign _ _)
  | putStatic f =>
    obtain rfl := Layout.popValues_one.1 h
    refine gives_bind (Operands.pop_yields hm.layout fun value st hst => ?_)
    exact halone ((hm.withStack hst).assign _ _)
  | putField f =>
    obtain rfl := Layout.popValues_two.1 h
    refine gives_bind (Operands.pop_yields hm.layout fun value st₁ hst₁ => ?_)
    refine gives_bind (Operands.pop_yields hst₁ fun receiver st hst => ?_)
    exact halone ((hm.withStack hst).assign _ _)
  | arrayStore t =>
    obtain rfl := Layout.popValues_three.1 h
    exact halone hm.arrayStore
  | binary _ _ | compare _ | arrayLoad _ =>
    obtain ⟨ls, hls, rfl⟩ := Option.map_eq_some_iff.1 h
    obtain rfl := Layout.popValues_two.1 hls
    exact halone (hm.binary _)
  | negate _ | convert _ | checkCast _ | instanceOf _ | getField _ | arrayLength | newArray _ =>
    obtain ⟨ls, hls, rfl⟩ := Option.map_eq_some_iff.1 h
    obtain rfl := Layout.popValues_one.1 hls
    exact halone (hm.unary _)
  | invoke dispatch f => exact halone (hm.invoke h)
  | dup =>
    match ks, h with
    | k :: ks, rfl => exact hm.dup next
  | dupX1 =>
    match ks, h with
    | k :: k' :: ks, rfl => exact hm.dupX1 next
  | swap =>
    match ks, h with
    | k :: k' :: ks, rfl => exact halone hm.swap
  | pop =>
    match ks, h with
    | k :: ks, rfl => exact halone hm.pop
  | dupX2 | dup2 | pop2 => cases h

/-- The stack holds as many entries as the instruction takes. -/
theorem checkOperands_yields (hm : m.Holds ks) {i : Insn} (h : i.layout ks = some ks') :
    Yields (m.checkOperands i) fun _ => True := by
  obtain ⟨e, he, hpops⟩ := Insn.effect_of_layout h
  have hlen : m.stack.length = ks.length := by rw [← hm.layout, Operands.layout, List.length_map]
  have hlt : ¬ m.stack.length < e.pops := by omega
  unfold checkOperands
  rw [he]
  refine gives_bind (gives_ok ?_)
  simp [hlt, Gives, pure, Except.pure]

/-- Instructions that fit the layout of the stack run, unless their code has no form there. -/
theorem runAfter_yields {prev : Option Insn} {is : List Insn} (hm : m.Holds ks)
    (h : Insn.layoutAll is ks = some ks') :
    Yields (runAfter config prev m is) fun m' => m'.Holds ks' := by
  -- each instruction moves the layout on by one, or by two where it takes in the next one
  fun_induction runAfter config prev m is generalizing ks with
  | case1 =>
    cases h
    exact gives_ok hm
  | case2 prev m i =>
    obtain ⟨ls, hi, h⟩ := Option.bind_eq_some_iff.1 h
    cases h
    refine gives_bind ((checkOperands_yields hm hi).imp fun _ _ => ?_)
    refine gives_bind ((step_yields hm hi).imp fun out hout => gives_ok ?_)
    unfold Outcome.Leaves at hout
    split at hout
    -- behind the last instruction there is nothing to take in
    · obtain ⟨_, _, hnext, _⟩ := hout
      cases hnext
    · exact hout
  | case3 prev m i next rest ih ih' =>
    obtain ⟨ls, hi, h⟩ := Option.bind_eq_some_iff.1 h
    refine gives_bind ((checkOperands_yields hm hi).imp fun _ _ => ?_)
    refine gives_bind ((step_yields hm hi).imp fun out hout => ?_)
    unfold Outcome.Leaves at hout
    split at hout
    · rename_i htook
      obtain ⟨_, ms, hnext, hstate⟩ := hout
      cases hnext
      rw [if_pos htook]
      obtain ⟨ms', hms', h⟩ := Option.bind_eq_some_iff.1 h
      obtain rfl : ms' = ms := Option.some.inj (hms'.symm.trans hstate.1)
      exact ih out hstate.2 h
    · rename_i htook
      rw [if_neg htook]
      exact ih' out hout h

/-- A block runs as its layout says, unless its code has no form there. -/
theorem run_yields {is : List Insn} (hm : m.Holds ks) (h : Insn.layoutAll is ks = some ks') :
    Yields (run config m is) fun m' => m'.Holds ks' := runAfter_yields hm h

/-! ### Instructions that have run -/

/-- An instruction that has found its operands fits the layout. -/
theorem layout_of_step {prev next : Option Insn} {i : Insn} {out : Outcome}
    (hcheck : m.checkOperands i = .ok ()) (hi : movesSlots i = false)
    (h : step config m prev i next = .ok out) : ∃ ks, i.layout m.stack.layout = some ks := by
  cases i with
  | const _ | load _ _ | getStatic _ | new _ | increment _ _ => exact ⟨_, rfl⟩
  | store _ _ =>
    obtain ⟨⟨value, st⟩, hvalue, -⟩ := Except.bind_eq_ok.1 h
    rw [pop_ok hvalue]
    exact ⟨_, rfl⟩
  | putStatic _ =>
    obtain ⟨⟨value, st⟩, hvalue, -⟩ := Except.bind_eq_ok.1 h
    rw [pop_ok hvalue]
    exact ⟨_, rfl⟩
  | putField _ =>
    obtain ⟨⟨value, st₁⟩, hvalue, h⟩ := Except.bind_eq_ok.1 h
    obtain ⟨⟨receiver, st⟩, hreceiver, -⟩ := Except.bind_eq_ok.1 h
    rw [pop_ok hvalue, pop_ok hreceiver]
    exact ⟨_, rfl⟩
  | arrayStore _ =>
    obtain ⟨_, h, -⟩ := Except.map_eq_ok.1 h
    obtain ⟨⟨value, st₁⟩, hvalue, h⟩ := Except.bind_eq_ok.1 h
    obtain ⟨⟨index, st₂⟩, hindex, h⟩ := Except.bind_eq_ok.1 h
    obtain ⟨⟨array, st⟩, harray, -⟩ := Except.bind_eq_ok.1 h
    rw [pop_ok hvalue, pop_ok hindex, pop_ok harray]
    exact ⟨_, rfl⟩
  | binary _ _ | compare _ | arrayLoad _ =>
    obtain ⟨_, h, -⟩ := Except.map_eq_ok.1 h
    obtain ⟨⟨right, st₁⟩, hright, h⟩ := Except.bind_eq_ok.1 h
    obtain ⟨⟨left, st⟩, hleft, -⟩ := Except.bind_eq_ok.1 h
    rw [pop_ok hright, pop_ok hleft]
    exact ⟨_, rfl⟩
  | negate _ | convert _ | checkCast _ | instanceOf _ | getField _ | arrayLength | newArray _ =>
    obtain ⟨_, h, -⟩ := Except.map_eq_ok.1 h
    obtain ⟨⟨e, st⟩, he, -⟩ := Except.bind_eq_ok.1 h
    rw [pop_ok he]
    exact ⟨_, rfl⟩
  | invoke dispatch f =>
    obtain ⟨_, h, -⟩ := Except.map_eq_ok.1 h
    obtain ⟨t, ht, h⟩ := Except.bind_eq_ok.1 h
    obtain ⟨⟨args, st⟩, hargs, h⟩ := Except.bind_eq_ok.1 h
    have hparse := parse_of_ofDescriptor ht
    have hvalues := Operands.popValues_of_popMany hargs
    -- the check in front of the step has counted the operands
    have hmax : t.params.length + (if dispatch.hasReceiver then 1 else 0) ≤ Insn.maxPops := by
      by_contra hmany
      have hnone : (Insn.invoke dispatch f).effect = .error (.tooManyArguments f) := by
        rw [Insn.effect, hparse]
        exact if_neg hmany
      unfold checkOperands at hcheck
      rw [hnone] at hcheck
      cases hcheck
    show ∃ ks, Layout.invoked dispatch f m.stack.layout = some ks
    unfold Layout.invoked Layout.received
    simp only [hparse, if_pos hmax, hvalues, Option.bind_some]
    simp only at h
    split at h
    · rename_i hreceiver
      rw [if_pos hreceiver]
      obtain ⟨⟨o, st'⟩, ho, h⟩ := Except.bind_eq_ok.1 h
      rw [popEntry_ok ho]
      cases o with
      | value receiver => exact ⟨_, rfl⟩
      | uninitialized type =>
        simp only at h
        split at h
        · rename_i hinit
          exact ⟨_, if_pos hinit⟩
        · cases h
    · rename_i hreceiver
      rw [if_neg hreceiver]
      exact ⟨_, rfl⟩
  | dup =>
    obtain ⟨⟨o, st⟩, ho, -⟩ := Except.bind_eq_ok.1 h
    rw [popEntry_ok ho]
    exact ⟨_, rfl⟩
  | pop =>
    obtain ⟨_, h, -⟩ := Except.map_eq_ok.1 h
    obtain ⟨⟨o, st⟩, ho, -⟩ := Except.bind_eq_ok.1 h
    rw [popEntry_ok ho]
    exact ⟨_, rfl⟩
  | dupX1 =>
    obtain ⟨⟨o, st₁⟩, ho, h⟩ := Except.bind_eq_ok.1 h
    obtain ⟨⟨o', st⟩, ho', -⟩ := Except.bind_eq_ok.1 h
    rw [popEntry_ok ho, popEntry_ok ho']
    exact ⟨_, rfl⟩
  | swap =>
    obtain ⟨_, h, -⟩ := Except.map_eq_ok.1 h
    obtain ⟨⟨o, st₁⟩, ho, h⟩ := Except.bind_eq_ok.1 h
    obtain ⟨⟨o', st⟩, ho', -⟩ := Except.bind_eq_ok.1 h
    rw [popEntry_ok ho, popEntry_ok ho']
    exact ⟨_, rfl⟩
  | dupX2 | dup2 | pop2 => cases hi

/-- Instructions that have run over an open scope fit the layout of the stack. -/
theorem layout_of_runAfter {prev : Option Insn} {is : List Insn} {m' : Simulation}
    (hm : m.Holds ks) (his : ∀ i ∈ is, movesSlots i = false)
    (h : runAfter config prev m is = .ok m') : ∃ ks', Insn.layoutAll is ks = some ks' := by
  fun_induction runAfter config prev m is generalizing ks with
  | case1 => exact ⟨_, rfl⟩
  | case2 prev m i =>
    obtain ⟨_, hcheck, h⟩ := Except.bind_eq_ok.1 h
    obtain ⟨out, hout, -⟩ := Except.bind_eq_ok.1 h
    obtain ⟨ls, hls⟩ := layout_of_step hcheck (his i (List.mem_singleton_self _)) hout
    rw [hm.layout] at hls
    exact ⟨ls, by simp [Insn.layoutAll, hls]⟩
  | case3 prev m i next rest ih ih' =>
    obtain ⟨_, hcheck, h⟩ := Except.bind_eq_ok.1 h
    obtain ⟨out, hout, h⟩ := Except.bind_eq_ok.1 h
    obtain ⟨ls, hls⟩ := layout_of_step hcheck (his i (List.mem_cons_self ..)) hout
    rw [hm.layout] at hls
    -- the step has a layout, so what it leaves is known, and the induction goes on from there
    have hleaves := (step_yields hm hls).of_ok hout
    unfold Outcome.Leaves at hleaves
    split at h
    · rename_i htook
      rw [if_pos htook] at hleaves
      obtain ⟨_, ms, hnext, hms, hstate⟩ := hleaves
      cases hnext
      obtain ⟨ks', hks'⟩ := ih out hstate (fun i hi => his i (by simp [hi])) h
      exact ⟨ks', Option.bind_eq_some_iff.2 ⟨ls, hls, Option.bind_eq_some_iff.2 ⟨ms, hms, hks'⟩⟩⟩
    · rename_i htook
      rw [if_neg htook] at hleaves
      obtain ⟨ks', hks'⟩ := ih' out hleaves (fun i hi => his i (List.mem_cons_of_mem _ hi)) h
      exact ⟨ks', Option.bind_eq_some_iff.2 ⟨ls, hls, hks'⟩⟩

/-- Instructions that have run over an open scope fit the layouts of the stack before and behind
    them. -/
theorem run_layout {is : List Insn} {m' : Simulation} (hm : m.Holds ks)
    (his : ∀ i ∈ is, movesSlots i = false) (h : run config m is = .ok m') :
    Insn.layoutAll is ks = some m'.stack.layout := by
  obtain ⟨ks', hks'⟩ := layout_of_runAfter hm his h
  rw [hks', ((run_yields hm hks').of_ok h).layout]

end Simulation

end Restructure
