import Restructure.Proofs.Locals.Tables
import Restructure.Proofs.Simulation.Moves

namespace Restructure

/-!
# Bindings — instructions bind the locals that they name

An instruction that names a slot looks it up in the table of the scope, which binds the slot if
nothing else has. What it writes and what it leaves on the stack is then bound by this table, and
all other instructions only put together what is on the stack.

* `Scope.Fits`, `Simulation.Fits` — the invariant: all occurrences on the stack and in the
  statements fit the table of the scope.
* `Simulation.Fits.resolve` — a lookup binds the slot.
* `Simulation.Move.fits` — instructions that name no slot only move occurrences.
* `Simulation.run_fits` — instructions keep the invariant.
-/

open Use

variable {params t : Locals} {v : Local} {slot : Nat}

/-- All occurrences in the finished values on the stack fit. -/
def Operands.Fit (params t : Locals) (st : Operands) : Prop :=
  ∀ e, .value e ∈ st → AllFit params t (e.uses false)

/-- The table extends the parameters, and the occurrences in all statements fit it. -/
structure Scope.Fits (params : Locals) (s : Scope) : Prop where
  table : s.locals.Extends params
  stmts : ∀ x ∈ s.stmts, AllFit params s.locals x.uses

/-- So it is in the scope, and the occurrences in the values on the stack fit as well. -/
structure Simulation.Fits (params : Locals) (m : Simulation) : Prop where
  scope : m.scope.Fits params
  stack : m.stack.Fit params m.scope.locals

namespace Operands

variable {o : Operand} {e : Expr} {st rest : Operands}

/-- An empty stack fits every table. -/
@[simp] theorem fit_nil : Fit params t [] := fun _ h => absurd h List.not_mem_nil

/-- Two parts of the stack fit if each of them does. -/
theorem fit_append : Fit params t (st ++ rest) ↔ st.Fit params t ∧ rest.Fit params t := by
  constructor
  · exact fun h => ⟨fun e he => h e (List.mem_append_left _ he),
      fun e he => h e (List.mem_append_right _ he)⟩
  · exact fun h e he => (List.mem_append.1 he).elim (h.1 e) (h.2 e)

/-- The top fits, and what is below. -/
theorem fit_cons : Fit params t (o :: st) ↔ Fit params t [o] ∧ st.Fit params t := by
  rw [← List.singleton_append]
  exact fit_append

/-- An entry fits if the occurrences in its value do. -/
@[simp] theorem fit_value : Fit params t [.value e] ↔ AllFit params t (e.uses false) := by
  simp [Fit]

/-- An object without its constructor call names no local. -/
@[simp] theorem fit_uninitialized {type : String} : Fit params t [.uninitialized type] := by
  simp [Fit]

/-- A value is pushed. -/
theorem fit_push : Fit params t (st.push e) ↔ AllFit params t (e.uses false) ∧ st.Fit params t := by
  rw [push, fit_cons, fit_value]

/-- A value is taken from the stack. -/
theorem fit_of_pop {st' : Operands} (h : st.pop = .ok (e, st')) (hst : st.Fit params t) :
    AllFit params t (e.uses false) ∧ st'.Fit params t := by
  rw [Simulation.pop_ok h] at hst
  exact fit_push.1 hst

/-- Arguments on the stack fit as a list of values. -/
theorem fit_ofArgs {args : List Expr} :
    (ofArgs args).Fit params t ↔ AllFit params t (Expr.allUses args false) := by
  constructor
  · exact fun h => Expr.allFit_allUses fun e he => h e (by simpa [ofArgs] using he)
  · exact fun h e he => Expr.allFit_of_allUses h e (by simpa [ofArgs] using he)

end Operands

/-- The slot that an instruction names. -/
def Insn.slot? : Insn → Option Nat
  | .load slot _ | .store slot _ | .increment slot _ => some slot
  | _ => none

/-- An instruction that names no slot binds nothing. -/
theorem Insn.bind_of_slot {insn : Insn} (h : insn.slot? = none) : insn.bind t = t := by
  cases insn <;> first | rfl | cases h

/-- Instructions that name no slots bind nothing. -/
theorem Insn.bindAll_of_slot {insns : List Insn} (h : ∀ i ∈ insns, i.slot? = none) :
    Insn.bindAll t insns = t := by
  induction insns with
  | nil => rfl
  | cons insn insns ih =>
    obtain ⟨hinsn, hinsns⟩ := List.forall_mem_cons.1 h
    rw [bindAll, List.foldl_cons, bind_of_slot hinsn]
    exact ih hinsns

namespace Simulation

variable {config : Config} {m m' : Simulation} {prev next : Option Insn} {insn : Insn}
  {out : Outcome} {st taken put rest : Operands} {edit : Edit} {took : Bool}

/-- All that fits the table of the first state fits the table of the other one. -/
def Widens (params : Locals) (m m' : Simulation) : Prop :=
  ∀ us, AllFit params m.scope.locals us → AllFit params m'.scope.locals us

/-- A named slot is bound, and all else fits as before. -/
theorem Fits.resolve (hm : m.Fits params) {type : String} (h : m.resolve slot type = .ok (v, m')) :
    m'.Fits params ∧ Use.Fits params m'.scope.locals ⟨v, false⟩ ∧ Widens params m m' := by
  unfold Simulation.resolve at h
  cases hfind : m.scope.locals.find? slot with
  | some w =>
    rw [hfind] at h
    cases h
    have hbound : m.scope.locals.find? v.slot = some v := Locals.slot_of_find hfind ▸ hfind
    exact ⟨hm, ⟨hm.scope.table.names slot v hfind, fun _ => hbound⟩, fun _ hus => hus⟩
  | none =>
    rw [hfind] at h
    obtain ⟨scope, hscope, h⟩ := Except.map_eq_ok.1 h
    cases h
    have hlocals := Scope.locals_of_declare hscope
    have htable : scope.locals.Extends params := hlocals ▸ hm.scope.table.declare hfind
    have hbound : scope.locals.find? slot = some ⟨slot, "local" ++ toString slot, type⟩ := by
      rw [hlocals, Locals.find?_declare, if_pos rfl]
    have hwidens : Widens params m { m with scope } := by
      refine fun us hus => hus.mono fun k v hv => ?_
      rw [hlocals, Locals.find?_declare, if_neg fun heq => ?_]
      · exact hv
      · rw [heq, hfind] at hv
        cases hv
    refine ⟨⟨⟨htable, ?_⟩, fun e he => hwidens _ (hm.stack e he)⟩,
      ⟨htable.names slot _ hbound, fun _ => hbound⟩, hwidens⟩
    rw [Scope.stmts_of_declare hscope]
    exact fun x hx => hwidens _ (hm.scope.stmts x hx)

/-- One more statement. -/
theorem Fits.append (hm : m.Fits params) {s : Stmt}
    (hs : AllFit params m.scope.locals s.uses) (h : m.append s = .ok m') : m'.Fits params := by
  obtain ⟨scope, hscope, rfl⟩ := Except.map_eq_ok.1 h
  obtain rfl := Scope.append_inv hscope
  refine ⟨⟨hm.scope.table, fun x hx => ?_⟩, hm.stack⟩
  rcases List.mem_append.1 hx with hx | hx
  · exact hm.scope.stmts x hx
  · exact List.mem_singleton.1 hx ▸ hs

/-- The stack is exchanged. -/
theorem Fits.withStack (hm : m.Fits params) (hst : st.Fit params m.scope.locals) :
    Simulation.Fits params { m with stack := st } := ⟨hm.scope, hst⟩

/-- A value is pushed on another stack. -/
theorem Fits.pushOn (hm : m.Fits params) {e : Expr} (hst : st.Fit params m.scope.locals)
    (he : AllFit params m.scope.locals (e.uses false)) : (m.pushOn st e).Fits params :=
  hm.withStack (Operands.fit_push.2 ⟨he, hst⟩)

/-! ### Instructions that name no slot -/

/-- An assignment names the locals of its target and of its value, in whatever form it is written.
    -/
theorem fits_assignment {target : Place} {value : Expr}
    (ht : AllFit params t (target.uses false)) (hv : AllFit params t (value.uses false)) :
    AllFit params t (assignment config target value).uses := by
  unfold assignment
  cases hparts : compoundParts? config target value with
  | none => exact Stmt.fits_assign ht hv
  | some parts =>
    obtain ⟨op, left, right⟩ := parts
    unfold compoundParts? at hparts
    split at hparts
    · split at hparts
      · cases hparts
        exact allFit_append.2 ⟨ht, (allFit_append.1 hv).2⟩
      · cases hparts
    · cases hparts

/-- What remains of a dropped entry names the locals of the entry. -/
theorem fits_remains {o : Operand} (ho : Operands.Fit params t [o]) :
    ∀ s ∈ o.remains, AllFit params t s.uses := by
  intro s hs
  cases o with
  | uninitialized => exact absurd hs List.not_mem_nil
  | value e =>
    simp only [Operand.remains] at hs
    split at hs
    · rw [List.mem_singleton.1 hs]
      exact Operands.fit_value.1 ho
    · exact absurd hs List.not_mem_nil

/-- A place that is read names the locals of its operands. -/
theorem fits_read {target : Place} (ht : AllFit params t (target.uses false)) :
    AllFit params t (target.read.uses false) := by
  cases target with
  | static f => exact allFit_nil
  | var v | field f r | element a i => exact ht

/-- An operator of one operand names what the operand names. -/
theorem uses_unary {f : Expr → Expr} (hf : insn.unary? = some f) (e : Expr) :
    (f e).uses false = e.uses false := by
  cases insn <;> cases hf <;> rfl

/-- An operator of two operands names what they name, the left one first. -/
theorem uses_binary {f : Expr → Expr → Expr} (hf : insn.binary? = some f) (left right : Expr) :
    (f left right).uses false = left.uses false ++ right.uses false := by
  cases insn <;> cases hf <;> rfl

/-- A call names the locals of its receiver and of its arguments. -/
theorem fits_on {f : MethodRef} {args : List Expr} {receiver : Option Expr}
    (h : Operands.Fit params t (Operands.ofArgs args ++ receiver.toList.map .value)) :
    AllFit params t ((f.on args receiver).uses false) := by
  obtain ⟨hargs, hreceiver⟩ := Operands.fit_append.1 h
  have hargs := Operands.fit_ofArgs.1 hargs
  cases receiver with
  | none => exact hargs
  | some e => exact allFit_append.2 ⟨Operands.fit_value.1 hreceiver, hargs⟩

/-- An instruction that names no slot puts back what it has taken. -/
theorem Move.fits (h : Move config prev next insn taken put edit took) (hslot : insn.slot? = none)
    (hdup : insn ≠ .dup) (htaken : taken.Fit params t) :
    put.Fit params t ∧ ∃ ss, edit = .add ss ∧ ∀ s ∈ ss, AllFit params t s.uses := by
  have hadded : ∀ {s : Stmt}, AllFit params t s.uses →
      ∃ ss, Edit.add [s] = .add ss ∧ ∀ s ∈ ss, AllFit params t s.uses :=
    fun hs => ⟨_, rfl, List.forall_mem_singleton.2 hs⟩
  have hnothing : ∃ ss, Edit.add [] = .add ss ∧ ∀ s ∈ ss, AllFit params t s.uses :=
    ⟨[], rfl, List.forall_mem_nil _⟩
  cases h with
  | load | loadIncremented | increment | incrementLoaded => cases hslot
  | dup | dupStore => exact absurd rfl hdup
  | const | getStatic => exact ⟨Operands.fit_value.2 allFit_nil, hnothing⟩
  | new => exact ⟨Operands.fit_uninitialized, hnothing⟩
  -- an expression uses the locals of its operands, and these fit as they lie on the stack
  | unary e hf =>
    refine ⟨Operands.fit_value.2 ?_, hnothing⟩
    rw [uses_unary hf]
    exact Operands.fit_value.1 htaken
  | binary left right hf =>
    obtain ⟨hright, hleft⟩ := Operands.fit_push.1 htaken
    refine ⟨Operands.fit_value.2 ?_, hnothing⟩
    rw [uses_binary hf]
    exact allFit_append.2 ⟨Operands.fit_value.1 hleft, hright⟩
  | store value htarget =>
    cases htarget with
    | store => cases hslot
    | putStatic =>
      exact ⟨Operands.fit_nil, hadded (fits_assignment allFit_nil (Operands.fit_value.1 htaken))⟩
  | putField f receiver value =>
    obtain ⟨hvalue, hreceiver⟩ := Operands.fit_push.1 htaken
    exact ⟨Operands.fit_nil, hadded (fits_assignment (Operands.fit_value.1 hreceiver) hvalue)⟩
  | arrayStore _ array index value =>
    obtain ⟨hvalue, hrest⟩ := Operands.fit_push.1 htaken
    obtain ⟨hindex, harray⟩ := Operands.fit_push.1 hrest
    have htarget := allFit_append.2 ⟨Operands.fit_value.1 harray, hindex⟩
    exact ⟨Operands.fit_nil, hadded (fits_assignment htarget hvalue)⟩
  | fill _ hsame hfilled =>
    obtain ⟨hvalue, hrest⟩ := Operands.fit_push.1 htaken
    obtain ⟨-, hrest⟩ := Operands.fit_push.1 hrest
    obtain ⟨-, htop⟩ := Operands.fit_push.1 hrest
    exact ⟨Operands.fit_value.2 (Expr.allFit_stored (Operands.fit_value.1 htop) hvalue hfilled),
      hnothing⟩
  | invoke => exact ⟨Operands.fit_value.2 (fits_on htaken), hnothing⟩
  | invokeVoid => exact ⟨Operands.fit_nil, hadded (fits_on htaken)⟩
  | construct =>
    exact ⟨Operands.fit_nil, hadded (Operands.fit_ofArgs.1 (Operands.fit_append.1 htaken).1)⟩
  | constructCopy =>
    exact ⟨Operands.fit_value.2 (Operands.fit_ofArgs.1 (Operands.fit_append.1 htaken).1),
      hnothing⟩
  | dupX1Store =>
    obtain ⟨hvalue, hreceiver⟩ := Operands.fit_push.1 htaken
    have htarget := Operands.fit_value.1 hreceiver
    exact ⟨Operands.fit_value.2 htarget, hadded (fits_assignment htarget hvalue)⟩
  -- what only moves entries puts back some of those it has taken
  | dupX1 | dupX2Wide | dupX2 | dup2Wide | dup2 | swap =>
    exact ⟨fun e he => htaken e (by simp at he ⊢; tauto), hnothing⟩
  | pop | pop2Wide => exact ⟨Operands.fit_nil, _, rfl, fits_remains htaken⟩
  | pop2 =>
    obtain ⟨hfirst, hsecond⟩ := Operands.fit_cons.1 htaken
    exact ⟨Operands.fit_nil, _, rfl,
      List.forall_mem_append.2 ⟨fits_remains hfirst, fits_remains hsecond⟩⟩

/-! ### Instructions that name a slot -/

/-- A store into a place binds nothing. -/
theorem locals_of_assign {target : Place} {value : Expr}
    (h : Simulation.assign config m target value = .ok m') : m'.scope.locals = m.scope.locals := by
  rw [assign_eq] at h
  exact locals_of_append h

/-- A store into a place keeps the invariant. -/
theorem Fits.assign (hm : m.Fits params) {target : Place} {value : Expr}
    (ht : AllFit params m.scope.locals (target.uses false))
    (hv : AllFit params m.scope.locals (value.uses false))
    (h : Simulation.assign config m target value = .ok m') : m'.Fits params := by
  rw [assign_eq] at h
  exact hm.append (fits_assignment ht hv) h

/-- A load binds its slot and pushes the local. -/
theorem Fits.load (hm : m.Fits params) {type : String}
    (h : Simulation.load config m prev slot type = .ok m') : m'.Fits params := by
  obtain ⟨⟨v, m₁⟩, hv, h⟩ := Except.bind_eq_ok.1 h
  obtain ⟨hm₁, hv, -⟩ := hm.resolve hv
  have hread : (m₁.pushOn m₁.stack (.var v)).Fits params :=
    hm₁.pushOn hm₁.stack (allFit_singleton hv)
  simp only at h
  split at h
  · rename_i w n hw
    split at h
    · -- the local of the increment at the end has been bound before
      obtain ⟨⟨s, scope⟩, hpop, h⟩ := Except.bind_eq_ok.1 h
      cases h
      obtain ⟨-, rfl⟩ := Scope.pop_inv hpop
      have hmem : .increment w n ∈ m₁.scope.stmts :=
        List.mem_of_getLast? (last_of_justIncremented hw).2
      refine ⟨⟨hm₁.scope.table, fun x hx => ?_⟩,
        Operands.fit_push.2 ⟨hm₁.scope.stmts _ hmem, hm₁.stack⟩⟩
      exact hm₁.scope.stmts x (List.dropLast_subset _ hx)
    · cases h
      exact hread
  · cases h
    exact hread

/-- An increment binds its slot. -/
theorem Fits.increment (hm : m.Fits params) {n : Int}
    (h : Simulation.increment config m prev slot n = .ok m') : m'.Fits params := by
  obtain ⟨⟨v, m₁⟩, hv, h⟩ := Except.bind_eq_ok.1 h
  obtain ⟨hm₁, hv, -⟩ := hm.resolve hv
  have hstmt : AllFit params m₁.scope.locals (Stmt.increment v n).uses := allFit_singleton hv
  simp only at h
  split at h
  · rename_i st hst
    split at h
    · cases h
      obtain ⟨w, _, hstack⟩ := stack_of_justRead hst
      have hall := hm₁.stack
      rw [hstack, Operands.fit_cons] at hall
      exact hm₁.pushOn hall.2 (allFit_singleton hv)
    · exact hm₁.append hstmt h
  · exact hm₁.append hstmt h

/-- A store binds its slot and assigns to the local. -/
theorem Fits.store (hm : m.Fits params) {type : String}
    (h : step config m prev (.store slot type) next = .ok out) : out.state.Fits params := by
  obtain ⟨⟨value, st⟩, hvalue, h⟩ := Except.bind_eq_ok.1 h
  obtain ⟨⟨v, m₁⟩, hv, h⟩ := Except.bind_eq_ok.1 h
  obtain ⟨m₂, hm₂, rfl⟩ := Except.map_eq_ok.1 h
  obtain ⟨hvalue, hst⟩ := Operands.fit_of_pop hvalue hm.stack
  obtain ⟨hm₁, hv, hwidens⟩ := (hm.withStack hst).resolve hv
  have htarget : AllFit params m₁.scope.locals ((Place.var v).uses false) := allFit_singleton hv
  exact hm₁.assign htarget (hwidens _ hvalue) hm₂

/-- The store behind a copy binds the slot of its target. -/
theorem Fits.storeTarget (hm : m.Fits params) {target : Place}
    (h : m.storeTarget? next = .ok (some (target, m'))) :
    m'.Fits params ∧ AllFit params m'.scope.locals (target.uses false) ∧ Widens params m m' := by
  unfold storeTarget? at h
  split at h
  · obtain ⟨⟨v, m₁⟩, hv, h⟩ := Except.map_eq_ok.1 h
    cases h
    obtain ⟨hm₁, hv, hwidens⟩ := hm.resolve hv
    exact ⟨hm₁, allFit_singleton hv, hwidens⟩
  · cases h
    exact ⟨hm, allFit_nil, fun _ hus => hus⟩
  · cases h

/-- A copy keeps the invariant, alone or together with the store behind it. -/
theorem Fits.dup (hm : m.Fits params) (h : Simulation.dup config m next = .ok out) :
    out.state.Fits params := by
  obtain ⟨⟨top, st⟩, hpop, h⟩ := Except.bind_eq_ok.1 h
  have hstack := hm.stack
  rw [popEntry_ok hpop, Operands.fit_cons] at hstack
  obtain ⟨htop, hst⟩ := hstack
  have htwice : Simulation.Fits params { m with stack := top :: top :: st } :=
    hm.withStack (Operands.fit_cons.2 ⟨htop, Operands.fit_cons.2 ⟨htop, hst⟩⟩)
  simp only at h
  split at h
  · split at h
    · obtain ⟨target?, htarget, h⟩ := Except.bind_eq_ok.1 h
      split at h
      · obtain ⟨m₂, hm₂, h⟩ := Except.bind_eq_ok.1 h
        cases h
        -- the lookup of the destination may bind one more slot, and the value still fits
        obtain ⟨hm₁, ht, hwidens⟩ := (hm.withStack hst).storeTarget htarget
        have hm₂' := hm₁.assign ht (hwidens _ (Operands.fit_value.1 htop)) hm₂
        refine hm₂'.pushOn hm₂'.stack (fits_read ?_)
        rw [locals_of_assign hm₂]
        exact ht
      · cases h
    · cases h
      exact htwice
  · cases h
    exact htwice

/-! ### Runs -/

/-- Where no slot is named, the table stays as it is. -/
theorem locals_of_makes (hmove : Move config prev next insn taken put edit out.tookNext)
    (hslot : insn.slot? = none) (hdup : insn ≠ .dup) (h : step config m prev insn next = .ok out) :
    out.state.scope.locals = m.scope.locals := by
  have hlocals := (step_grown foreign_false (.start fun _ _ _ _ => id)
    (fun _ _ _ _ => id) h).state.locals
  rw [hlocals]
  split
  · rename_i htook
    rw [htook] at hmove
    cases hmove with
    | dupStore => exact absurd rfl hdup
    | dupX1Store _ hnext =>
      rw [hnext]
      exact Insn.bindAll_of_slot (by simp [Insn.slot?])
  · exact Insn.bind_of_slot hslot

/-- One instruction keeps the invariant. -/
theorem step_fits (hm : m.Fits params) (h : step config m prev insn next = .ok out) :
    out.state.Fits params := by
  -- all instructions that do not occur in the cases name no slot
  have hrest : insn.slot? = none → insn ≠ .dup → out.state.Fits params := by
    intro hslot hdup
    obtain ⟨taken, put, rest, edit, hmakes⟩ := moves_of_step h
    have hlocals := locals_of_makes hmakes.move hslot hdup h
    have hstack := hm.stack
    rw [hmakes.before, Operands.fit_append] at hstack
    obtain ⟨hput, ss, rfl, hss⟩ := hmakes.move.fits hslot hdup hstack.1
    have hstmts : out.state.scope.stmts = m.scope.stmts ++ ss := hmakes.stmts
    refine ⟨⟨hlocals ▸ hm.scope.table, ?_⟩, ?_⟩
    · rw [hstmts, hlocals]
      exact List.forall_mem_append.2 ⟨hm.scope.stmts, hss⟩
    · rw [hmakes.after, hlocals]
      exact Operands.fit_append.2 ⟨hput, hstack.2⟩
  cases insn with
  | load =>
    obtain ⟨m₁, hm₁, rfl⟩ := Except.map_eq_ok.1 h
    exact hm.load hm₁
  | increment =>
    obtain ⟨m₁, hm₁, rfl⟩ := Except.map_eq_ok.1 h
    exact hm.increment hm₁
  | store => exact hm.store h
  | dup => exact hm.dup h
  | _ => exact hrest rfl nofun

/-- A whole run keeps the invariant. By induction on the instructions. -/
theorem runAfter_fits (hm : m.Fits params) {insns : List Insn}
    (h : runAfter config prev m insns = .ok m') : m'.Fits params := by
  fun_induction runAfter config prev m insns with
  | case1 =>
    cases h
    exact hm
  | case2 prev m insn =>
    obtain ⟨_, _, h⟩ := Except.bind_eq_ok.1 h
    obtain ⟨out, hout, h⟩ := Except.bind_eq_ok.1 h
    cases h
    exact step_fits hm hout
  | case3 prev m insn next rest ih ih' =>
    obtain ⟨_, _, h⟩ := Except.bind_eq_ok.1 h
    obtain ⟨out, hout, h⟩ := Except.bind_eq_ok.1 h
    have hstate := step_fits hm hout
    split at h
    · exact ih out hstate h
    · exact ih' out hstate h

/-- Instructions keep the invariant. -/
theorem run_fits (hm : m.Fits params) {insns : List Insn} (h : run config m insns = .ok m') :
    m'.Fits params := runAfter_fits hm h

end Simulation

end Restructure
