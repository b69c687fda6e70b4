import Mathlib.Logic.Function.Basic
import Restructure.Code.Insn
import Restructure.Simulation.Operands

namespace Restructure

/-!
# Machines — what straight-line code does

Instructions on an operand stack and the values and statements recovered from them are given a
meaning over the same machines, so that the two can be compared.

* `Machine` — the local variables, the static fields and the calls made so far.
* `Eval` — a computation on a machine that yields a result or breaks off.
* `Expr.eval`, `Stmt.exec` — values and statements, operands being evaluated from left to right.
* `Insn.exec` — instructions on an ordinary operand stack.
* `Expr.eval_readOnly` — a value without effects leaves the machine as it is.

Only straight-line code has a meaning here: constants, locals, static fields, operators on
`int`, static calls and moves of the stack. Every other form breaks off.
-/

/-! ### Values -/

/-- A value of a local variable, a static field or an operand. -/
inductive Value where
  | int (v : BitVec 32)
  | literal (c : Constant)
  | object (id : Nat)
  deriving DecidableEq

/-- The `int` that operators take a value for. Checked code applies them to nothing else. -/
def Value.toInt : Value → BitVec 32
  | int v => v
  | literal _ | object _ => 0

/-- The value of a literal. Truth values are the numbers 0 and 1. -/
def Constant.value : Constant → Value
  | .int n => .int (BitVec.ofInt 32 n)
  | .boolean b => .int (if b then 1 else 0)
  | c => .literal c

/-- The operators on `int`: results wrap around, a division by zero has none, and shifts take the
    five lowest bits of their distance. -/
def BinaryOp.apply (op : BinaryOp) (a b : BitVec 32) : Option (BitVec 32) :=
  match op with
  | .add => some (a + b)
  | .sub => some (a - b)
  | .mul => some (a * b)
  | .div => if b = 0 then none else some (a.sdiv b)
  | .rem => if b = 0 then none else some (a.srem b)
  | .shl => some (a <<< (b.toNat % 32))
  | .shr => some (a.sshiftRight (b.toNat % 32))
  | .ushr => some (a >>> (b.toNat % 32))
  | .and => some (a &&& b)
  | .or => some (a ||| b)
  | .xor => some (a ^^^ b)

/-! ### Machines -/

/-- A call of a static method. -/
structure Call where
  method : MethodRef
  args : List Value
  deriving DecidableEq

/-- The values of the static fields. -/
abbrev Statics := FieldRef → Value

/-- What straight-line code can see and change. The calls are in the order in which they were
    made. -/
structure Machine where
  locals : Nat → Value
  statics : Statics
  calls : List Call

/-- What the called methods do. The answer to the last of the calls may depend on all calls made
    so far and on the static fields; it is a result, if the call returns, and new static fields. -/
def Behaviour : Type := List Call → Statics → Option Value × Statics

/-! ### Computations -/

/-- A computation on a machine. It yields a result or breaks off, with the machine that it leaves
    in both cases. -/
def Eval (α : Type) : Type := Machine → Option α × Machine

namespace Eval

variable {α β γ : Type}

/-- Runs the second computation on what the first one leaves. -/
protected def bind (x : Eval α) (f : α → Eval β) : Eval β := fun σ =>
  match x σ with
  | (some a, σ') => f a σ'
  | (none, σ') => (none, σ')

/-- Computations run one behind the other, up to the first one that breaks off. -/
instance : Monad Eval where
  pure a := fun σ => (some a, σ)
  bind := Eval.bind

/-- What the second computation does depends on whether there is a result. -/
theorem bind_apply (x : Eval α) (f : α → Eval β) (σ : Machine) :
    (x >>= f) σ = match x σ with
      | (some a, σ') => f a σ'
      | (none, σ') => (none, σ') := rfl

/-- With a result the second computation goes on. -/
theorem bind_of_some {x : Eval α} {f : α → Eval β} {σ σ' : Machine} {a : α}
    (h : x σ = (some a, σ')) : (x >>= f) σ = f a σ' := by
  rw [bind_apply, h]

/-- Without a result the second computation does nothing. -/
theorem bind_of_none {x : Eval α} {f : α → Eval β} {σ σ' : Machine} (h : x σ = (none, σ')) :
    (x >>= f) σ = (none, σ') := by
  rw [bind_apply, h]

/-- Only the order of computations matters, not how they are put together. -/
instance : LawfulMonad Eval := LawfulMonad.mk' Eval
  (by
    intro α x
    funext σ
    show (x >>= fun a => pure a) σ = x σ
    rcases h : x σ with ⟨_ | a, σ'⟩
    · rw [bind_of_none h]
    · rw [bind_of_some h]
      rfl)
  (by
    intro α β a f
    rfl)
  (by
    intro α β γ x f g
    funext σ
    rcases h : x σ with ⟨_ | a, σ'⟩
    · rw [bind_of_none (bind_of_none h), bind_of_none h]
    · rw [bind_of_some h, bind_apply, bind_of_some h]
      rfl)

/-- Two computations that agree on a machine agree there with the same one behind them. -/
theorem bind_congr_left {x y : Eval α} {σ : Machine} (h : x σ = y σ) (f : α → Eval β) :
    (x >>= f) σ = (y >>= f) σ := by
  rw [bind_apply, bind_apply, h]

/-- Breaks off. -/
def fail : Eval α := fun σ => (none, σ)

/-- The result, if there is one. -/
def ofOption : Option α → Eval α
  | some a => pure a
  | none => fail

/-- The value of a local variable. -/
def getLocal (slot : Nat) : Eval Value := fun σ => (some (σ.locals slot), σ)

/-- Sets a local variable. -/
def setLocal (slot : Nat) (v : Value) : Eval Unit := fun σ =>
  (some (), { σ with locals := Function.update σ.locals slot v })

/-- The value of a static field. -/
def getStatic (f : FieldRef) : Eval Value := fun σ => (some (σ.statics f), σ)

/-- Sets a static field. -/
def setStatic (f : FieldRef) (v : Value) : Eval Unit := fun σ =>
  (some (), { σ with statics := Function.update σ.statics f v })

/-- Calls a static method. -/
def call (env : Behaviour) (method : MethodRef) (args : List Value) : Eval Value := fun σ =>
  let calls := σ.calls ++ [⟨method, args⟩]
  let answer := env calls σ.statics
  (answer.1, { σ with statics := answer.2, calls })

/-- The result of an operator. -/
def binary (op : BinaryOp) (a b : Value) : Eval Value :=
  ofOption ((op.apply a.toInt b.toInt).map .int)

/-- Adds a number to a local variable; the values before and behind the change. -/
def increment (slot : Nat) (n : Int) : Eval (Value × Value) := do
  let old ← getLocal slot
  let new := Value.int (old.toInt + BitVec.ofInt 32 n)
  setLocal slot new
  return (old, new)

end Eval

/-! ### Recovered code -/

variable (env : Behaviour)

mutual

/-- Evaluates a value. -/
def Expr.eval : Expr → Eval Value
  | .const c => pure c.value
  | .var v => Eval.getLocal v.slot
  | .static f => Eval.getStatic f
  | .binary op l r => do
    let a ← l.eval
    let b ← r.eval
    Eval.binary op a b
  | .staticCall m args => do
    let vs ← Expr.evalAll args
    Eval.call env m vs
  | .increment v n before => do
    let change ← Eval.increment v.slot n
    return if before then change.2 else change.1
  | .field _ _ | .element _ _ | .length _ | .negate _ | .cast _ _ | .instanceOf _ _
  | .newArray _ _ | .arrayOf _ _ _ | .new _ _ _ | .call _ _ _ | .ternary _ _ _
  | .compare _ _ _ => Eval.fail

/-- Evaluates values in order. -/
def Expr.evalAll : List Expr → Eval (List Value)
  | [] => pure []
  | e :: es => do
    let v ← e.eval
    let vs ← Expr.evalAll es
    return v :: vs

end

/-- Assigns to a destination. -/
def Place.write : Place → Value → Eval Unit
  | .var v, a => Eval.setLocal v.slot a
  | .static f, a => Eval.setStatic f a
  | .field _ _, _ | .element _ _, _ => Eval.fail

/-- Executes a statement. -/
def Stmt.exec : Stmt → Eval Unit
  | .assign target e => do
    let v ← e.eval env
    target.write v
  | .compound target op e => do
    let a ← target.read.eval env
    let b ← e.eval env
    let v ← Eval.binary op a b
    target.write v
  | .increment v n => do
    let _ ← Eval.increment v.slot n
    return ()
  | .eval e => do
    let _ ← e.eval env
    return ()
  | _ => Eval.fail

/-- Executes statements in order. -/
def Stmt.execAll : List Stmt → Eval Unit
  | [] => pure ()
  | s :: ss => do
    s.exec env
    Stmt.execAll ss

/-- Evaluates an entry of a simulated stack. -/
def Operand.eval : Operand → Eval Value
  | .value e => e.eval env
  | .uninitialized _ => Eval.fail

/-- Evaluates the entries of a simulated stack from bottom to top. The results are an operand
    stack with the top first. -/
def Operands.eval : Operands → Eval (List Value)
  | [] => pure []
  | o :: st => do
    let vs ← Operands.eval st
    let v ← o.eval env
    return v :: vs

/-! ### Instructions -/

/-- Executes one instruction on an operand stack, the top first. -/
def Insn.exec : Insn → List Value → Eval (List Value)
  | .const c, st => pure (c.value :: st)
  | .load slot _, st => do
    let v ← Eval.getLocal slot
    return v :: st
  | .store slot _, v :: st => do
    Eval.setLocal slot v
    return st
  | .increment slot n, st => do
    let _ ← Eval.increment slot n
    return st
  | .binary op _, b :: a :: st => do
    let v ← Eval.binary op a b
    return v :: st
  | .getStatic f, st => do
    let v ← Eval.getStatic f
    return v :: st
  | .putStatic f, v :: st => do
    Eval.setStatic f v
    return st
  | .invoke .static m, st =>
    match m.parse with
    | .error _ => Eval.fail
    | .ok t =>
      if t.params.length ≤ st.length then do
        let v ← Eval.call env m (st.take t.params.length).reverse
        let below := st.drop t.params.length
        return if t.returnsVoid then below else v :: below
      else Eval.fail
  | .dup, v :: st => pure (v :: v :: st)
  | .pop, _ :: st => pure st
  | .swap, b :: a :: st => pure (a :: b :: st)
  | _, _ => Eval.fail

/-- Executes instructions in order. -/
def Insn.execAll : List Insn → List Value → Eval (List Value)
  | [], st => pure st
  | i :: is, st => do
    let st ← i.exec env st
    Insn.execAll is st

/-! ### Laws -/

variable {env : Behaviour}

/-- Statements are executed one list after the other. -/
theorem Stmt.execAll_append (ss ts : List Stmt) :
    Stmt.execAll env (ss ++ ts) = (do
      Stmt.execAll env ss
      Stmt.execAll env ts) := by
  induction ss with
  | nil => rfl
  | cons s ss ih =>
    simp only [List.cons_append, Stmt.execAll, ih, bind_assoc]

/-- A list of one statement is that statement. -/
@[simp] theorem Stmt.execAll_singleton (s : Stmt) : Stmt.execAll env [s] = s.exec env := by
  simp only [Stmt.execAll]
  exact bind_pure_unit

/-- Instructions are executed one list after the other. -/
theorem Insn.execAll_append (is js : List Insn) (st : List Value) :
    Insn.execAll env (is ++ js) st = (do
      let st ← Insn.execAll env is st
      Insn.execAll env js st) := by
  induction is generalizing st with
  | nil => rfl
  | cons i is ih =>
    simp only [List.cons_append, Insn.execAll, ih, bind_assoc]

/-- A list of one instruction is that instruction. -/
@[simp] theorem Insn.execAll_singleton (i : Insn) : Insn.execAll env [i] = i.exec env := by
  funext st
  simp only [Insn.execAll, bind_pure]

/-- The two values on top change places. -/
theorem Insn.exec_swap (a b : Value) (st : List Value) :
    Insn.exec env .swap (b :: a :: st) = pure (a :: b :: st) := by
  rw [Insn.exec]

/-- The value on top is dropped. -/
theorem Insn.exec_pop (a : Value) (st : List Value) :
    Insn.exec env .pop (a :: st) = pure st := by
  rw [Insn.exec]

/-- Values are evaluated one list after the other. -/
theorem Expr.evalAll_append (es fs : List Expr) :
    Expr.evalAll env (es ++ fs) = (do
      let vs ← Expr.evalAll env es
      let ws ← Expr.evalAll env fs
      return vs ++ ws) := by
  induction es with
  | nil => simp only [List.nil_append, Expr.evalAll, pure_bind, bind_pure]
  | cons e es ih =>
    simp only [List.cons_append, Expr.evalAll, ih, bind_assoc, pure_bind]

/-! ### Values without effects -/

namespace Eval

variable {α β : Type}

/-- The computation changes nothing. -/
def ReadOnly (x : Eval α) : Prop := ∀ σ, (x σ).2 = σ

/-- Computations that only read, one behind the other. -/
theorem ReadOnly.bind {x : Eval α} {f : α → Eval β} (hx : x.ReadOnly) (hf : ∀ a, (f a).ReadOnly) :
    (x >>= f).ReadOnly := by
  intro σ
  have hσ := hx σ
  rcases h : x σ with ⟨_ | a, σ'⟩
  -- a computation that breaks off has changed nothing either
  · rw [bind_of_none h]
    rwa [h] at hσ
  · rw [bind_of_some h, hf a σ']
    rwa [h] at hσ

/-- A result that is there or not is read only. -/
theorem readOnly_ofOption (o : Option α) : (ofOption o).ReadOnly := by
  cases o with
  | none => exact fun _ => rfl
  | some a => exact fun _ => rfl

/-- A computation that changes nothing yields the same when it is run again. -/
theorem ReadOnly.twice {x : Eval α} (hx : x.ReadOnly) (f : α → α → Eval β) :
    (do
      let a ← x
      let b ← x
      f a b) = (do
      let a ← x
      f a a) := by
  funext σ
  have hσ := hx σ
  rcases h : x σ with ⟨_ | a, σ'⟩
  · rw [bind_of_none h, bind_of_none h]
  · rw [h] at hσ
    -- the second run starts where the first one did
    obtain rfl : σ' = σ := hσ
    rw [bind_of_some h, bind_of_some h, bind_of_some h]

end Eval

/-- A value without effects leaves the machine as it is. -/
theorem Expr.eval_readOnly : (e : Expr) → e.hasEffects = false → (e.eval env).ReadOnly
  | .const _, _ | .var _, _ | .static _, _ | .field _ _, _ | .element _ _, _ | .length _, _
  | .negate _, _ | .cast _ _, _ | .instanceOf _ _, _ | .newArray _ _, _ | .arrayOf _ _ _, _
  | .call _ _ _, _ | .ternary _ _ _, _ | .compare _ _ _, _ => by
    intro σ
    rw [Expr.eval]
    rfl
  -- calls and increments are ruled out; of the rest only operators evaluate something inside
  | .new _ _ _, h => by simp [Expr.hasEffects] at h
  | .staticCall _ _, h => by simp [Expr.hasEffects] at h
  | .increment _ _ _, h => by simp [Expr.hasEffects] at h
  | .binary op l r, h => by
    simp only [Expr.hasEffects, Bool.or_eq_false_iff] at h
    rw [Expr.eval]
    refine (Expr.eval_readOnly l h.1).bind fun a => ?_
    refine (Expr.eval_readOnly r h.2).bind fun b => ?_
    exact Eval.readOnly_ofOption _

end Restructure
