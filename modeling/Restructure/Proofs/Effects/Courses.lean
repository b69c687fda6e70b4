import Restructure.Proofs.Conditions.Evaluation
import Restructure.Proofs.Simulation.Growth

namespace Restructure

/-!
# Courses — what evaluations do, in order

Calls and increments are effects. What a test finds is left open, as before; a course evaluates
values and conditions from left to right, keeps a record of the effects, and asks for the outcome
of a test when its operands have been evaluated.

* `Effect`, `Insn.effects` — effects, and those of instructions.
* `Course` — a computation that makes effects and asks tests.
* `Expr.perform`, `Cond.perform`, `Stmt.perform`, `Operands.perform` — the courses of evaluations.
* `Cond.perform_eq_eval` — conditions are evaluated as before, with the record in the state.
* `Expr.exists_makes` — a value that no test is part of always makes the same effects.
* `Expr.perform_of_same`, `Expr.effects_eq_nil` — values that are the same, and values
  without effects.
-/

/-! ### Effects -/

/-- A call or an increment of a local. A constructor is called, too. -/
inductive Effect where
  | call (owner name descriptor : String)
  | increment (slot : Nat) (amount : Int)
  deriving DecidableEq

/-- The call of a method. -/
def MethodRef.effect (m : MethodRef) : Effect :=
  .call (Descriptor.classRef m.owner) m.name m.descriptor

/-- The effects of an instruction. -/
def Insn.effects : Insn → List Effect
  | .invoke _ m => [m.effect]
  | .increment slot n => [.increment slot n]
  | _ => []

/-- The effects of instructions. -/
def Insn.allEffects (insns : List Insn) : List Effect := insns.flatMap Insn.effects

/-! ### Courses -/

/-- What a computation yields, the effects that it makes, in order, and the state behind it. -/
structure Trail (σ α : Type) where
  result : α
  effects : List Effect
  state : σ

/-- A computation that makes effects and asks tests. Only tests change the state. -/
def Course (σ α : Type) : Type := σ → Trail σ α

namespace Course

variable {σ α β : Type}

/-- Runs the second computation behind the first one. -/
protected def bind (x : Course σ α) (f : α → Course σ β) : Course σ β := fun s =>
  ⟨(f (x s).result (x s).state).result, (x s).effects ++ (f (x s).result (x s).state).effects,
    (f (x s).result (x s).state).state⟩

/-- Computations run one behind the other. -/
instance : Monad (Course σ) where
  pure a := fun s => ⟨a, [], s⟩
  bind := Course.bind

/-- Makes effects. -/
def emit (es : List Effect) : Course σ Unit := fun s => ⟨(), es, s⟩

/-- Asks a test. -/
def ask (test : σ → Bool × σ) : Course σ Bool := fun s => ⟨(test s).1, [], (test s).2⟩

/-- A result alone makes no effects. -/
@[simp] theorem pure_apply (a : α) (s : σ) : (pure a : Course σ α) s = ⟨a, [], s⟩ := rfl

/-- The effects of both computations stand in a row. -/
@[simp] theorem bind_apply (x : Course σ α) (f : α → Course σ β) (s : σ) :
    (x >>= f) s = ⟨(f (x s).result (x s).state).result,
      (x s).effects ++ (f (x s).result (x s).state).effects,
      (f (x s).result (x s).state).state⟩ := rfl

/-- Effects alone leave the state. -/
@[simp] theorem emit_apply (es : List Effect) (s : σ) : emit es s = ⟨(), es, s⟩ := rfl

/-- A test makes no effects of its own. -/
@[simp] theorem ask_apply (test : σ → Bool × σ) (s : σ) :
    ask test s = ⟨(test s).1, [], (test s).2⟩ := rfl

/-- Only the order of computations matters, not how they are put together. -/
instance : LawfulMonad (Course σ) := LawfulMonad.mk' (Course σ)
  (by
    intro α x
    funext s
    show (x >>= fun a => pure a) s = x s
    simp)
  (by
    intro α β a f
    rfl)
  (by
    intro α β γ x f g
    funext s
    simp)

/-- Changing the result changes nothing else. -/
@[simp] theorem map_apply (f : α → β) (x : Course σ α) (s : σ) :
    (f <$> x) s = ⟨f (x s).result, (x s).effects, (x s).state⟩ := by
  rw [← bind_pure_comp, bind_apply]
  simp

/-- No effects are made. -/
theorem emit_nil : (emit [] : Course σ Unit) = pure () := rfl

/-- Effects are made one list after the other. -/
theorem emit_append (es fs : List Effect) :
    (do
      emit es
      emit fs : Course σ Unit) = emit (es ++ fs) := rfl

/-- The computation with the record of the effects in the state. -/
def logged (x : Course σ α) (s : σ × List Effect) : α × σ × List Effect :=
  ((x s.1).result, (x s.1).state, s.2 ++ (x s.1).effects)

/-- Written to a log, too, the effects of both computations stand in a row. -/
theorem logged_bind (x : Course σ α) (f : α → Course σ β) (s : σ × List Effect) :
    (x >>= f).logged s = (f (x.logged s).1).logged (x.logged s).2 := by
  simp [logged]

/-- The record tells everything. -/
theorem eq_of_logged {x y : Course σ α} (h : ∀ s, x.logged s = y.logged s) : x = y := by
  funext s
  have hs := h (s, [])
  simp only [logged, List.nil_append, Prod.mk.injEq] at hs
  rcases hx : x s with ⟨a, es, t⟩
  rcases hy : y s with ⟨b, fs, u⟩
  simp_all

end Course

/-! ### Evaluations -/

section Perform

variable {σ : Type} (I : Interpretation σ)

mutual

/-- Evaluates a value. -/
def Expr.perform : Expr → Course σ Unit
  | .const _ | .var _ | .static _ => pure ()
  | .field _ e | .length e | .negate e | .cast _ e | .instanceOf _ e | .newArray _ e => e.perform
  | .element l r | .binary _ l r | .compare _ l r => do
    l.perform
    r.perform
  | .arrayOf _ size values => do
    size.perform
    Expr.performAll values
  | .new type constructor args => do
    Expr.performAll args
    Course.emit [.call type "<init>" constructor]
  | .call m receiver args => do
    receiver.perform
    Expr.performAll args
    Course.emit [m.effect]
  | .staticCall m args => do
    Expr.performAll args
    Course.emit [m.effect]
  | .ternary test onTrue onFalse => do
    if ← test.perform then onTrue.perform else onFalse.perform
  | .increment v n _ => Course.emit [.increment v.slot n]

/-- Evaluates values in order. -/
def Expr.performAll : List Expr → Course σ Unit
  | [] => pure ()
  | e :: es => do
    e.perform
    Expr.performAll es

/-- Evaluates a condition. -/
def Cond.perform : Cond → Course σ Bool
  | .test e inverse => do
    e.perform
    let holds ← Course.ask (I.truth e)
    return holds != inverse
  | .compare l r e => do
    l.perform
    e.perform
    Course.ask (I.relation l r e)
  | .not c => do
    let holds ← c.perform
    return !holds
  | .and cs => Cond.performAll cs
  | .or cs => Cond.performAny cs

/-- Evaluates conditions until one of them fails. -/
def Cond.performAll : List Cond → Course σ Bool
  | [] => pure true
  | c :: cs => do
    if ← c.perform then Cond.performAll cs else pure false

/-- Evaluates conditions until one of them holds. -/
def Cond.performAny : List Cond → Course σ Bool
  | [] => pure false
  | c :: cs => do
    if ← c.perform then pure true else Cond.performAny cs

end

/-- Executes a statement that stands for itself. The operands of a destination come first. -/
def Stmt.perform : Stmt → Course σ Unit
  | .assign target e | .compound target _ e => do
    Expr.performAll I target.operands
    e.perform I
  | .increment v n => Course.emit [.increment v.slot n]
  | .eval e | .ret (some e) | .throw e => e.perform I
  | _ => pure ()

/-- Executes statements in order. -/
def Stmt.performAll : List Stmt → Course σ Unit
  | [] => pure ()
  | s :: ss => do
    s.perform I
    Stmt.performAll ss

/-- Evaluates an entry of a stack. -/
def Operand.perform : Operand → Course σ Unit
  | .value e => e.perform I
  | .uninitialized _ => pure ()

/-- Evaluates the entries of a stack from bottom to top. -/
def Operands.perform : Operands → Course σ Unit
  | [] => pure ()
  | o :: st => do
    Operands.perform st
    o.perform I

end Perform

/-! ### Conditions -/

section Conditions

variable {σ : Type} {I : Interpretation σ}

/-- What atomic tests do, with the evaluation of their operands and a record of its effects. -/
def Interpretation.logged (I : Interpretation σ) : Interpretation (σ × List Effect) where
  truth e := Course.logged (do
    e.perform I
    Course.ask (I.truth e))
  relation l r e := Course.logged (do
    l.perform I
    e.perform I
    Course.ask (I.relation l r e))
  opposite l r e s := by simp [Course.logged, I.opposite]

namespace Cond

mutual

/-- A condition is evaluated as its atomic tests are made. -/
theorem perform_eq_eval (c : Cond) (s : σ × List Effect) :
    (c.perform I).logged s = ((c.eval I.logged s).holds, (c.eval I.logged s).state) := by
  cases c with
  | test e inverse => simp [perform, eval, Interpretation.logged, Course.logged]
  | compare l r e => simp [perform, eval, Interpretation.logged, Course.logged]
  | not d =>
    rw [perform, Course.logged_bind, perform_eq_eval d, eval]
    simp [Course.logged]
  | and cs => rw [perform, eval, performAll_eq_eval]
  | or cs => rw [perform, eval, performAny_eq_eval]

/-- Evaluating a conjunction performs it. -/
theorem performAll_eq_eval (cs : List Cond) (s : σ × List Effect) :
    (performAll I cs).logged s
      = ((evalAll I.logged cs s).holds, (evalAll I.logged cs s).state) := by
  match cs with
  | [] => simp [performAll, evalAll, Course.logged]
  | c :: cs =>
    rw [performAll, Course.logged_bind, perform_eq_eval c, evalAll_cons]
    simp only
    split
    · rw [performAll_eq_eval cs]
      rfl
    · rename_i h
      simp [Course.logged, Bool.eq_false_iff.2 h]

/-- Evaluating a disjunction performs it. -/
theorem performAny_eq_eval (cs : List Cond) (s : σ × List Effect) :
    (performAny I cs).logged s
      = ((evalAny I.logged cs s).holds, (evalAny I.logged cs s).state) := by
  match cs with
  | [] => simp [performAny, evalAny, Course.logged]
  | c :: cs =>
    rw [performAny, Course.logged_bind, perform_eq_eval c, evalAny_cons]
    simp only
    split
    · rename_i h
      simp [Course.logged, h]
    · rw [performAny_eq_eval cs]
      rfl

end

/-- The opposite condition makes the same effects and has the opposite outcome. -/
theorem perform_negate (c : Cond) : c.negate.perform I = (do
    let holds ← c.perform I
    return !holds) := by
  refine Course.eq_of_logged fun s => ?_
  rw [Course.logged_bind, perform_eq_eval, perform_eq_eval, eval_negate]
  simp [Course.logged]

end Cond

end Conditions

/-! ### Values that no test is part of -/

/-- The node is a condition. -/
def Node.Asks (n : Node) : Prop := ∃ c : Cond, n = .cond c

/-- Instructions ask no tests. -/
theorem foreign_asks : Foreign Node.Asks where
  expr _ _ := fun ⟨_, h⟩ => by cases h
  stmt _ _ _ _ := fun ⟨_, h⟩ => by cases h

/-- The evaluation always makes the given effects, and asks nothing. -/
def Expr.Makes (e : Expr) (es : List Effect) : Prop :=
  ∀ {σ : Type} (I : Interpretation σ), e.perform I = Course.emit es

/-- Evaluating the values one after the other always makes the given effects, and asks nothing. -/
def Expr.AllMake (vs : List Expr) (es : List Effect) : Prop :=
  ∀ {σ : Type} (I : Interpretation σ), Expr.performAll I vs = Course.emit es

mutual

/-- A value that no test is part of always makes the same effects. By recursion on the value. -/
theorem Expr.exists_makes (e : Expr) (h : e.Avoids Node.Asks) : ∃ es, e.Makes es := by
  cases e with
  | const _ | var _ | static _ => exact ⟨[], fun I => by rw [perform]; rfl⟩
  | increment v n _ => exact ⟨[.increment v.slot n], fun I => by rw [perform]⟩
  | field _ e | length e | negate e | cast _ e | instanceOf _ e | newArray _ e =>
    obtain ⟨es, hes⟩ := exists_makes e (h.parts (by rw [Expr.nodes]))
    exact ⟨es, fun I => by rw [perform, hes I]⟩
  | element l r | binary _ l r | compare _ l r =>
    obtain ⟨hl, hr⟩ := List.forall_mem_append.1 (h.parts (by rw [Expr.nodes]))
    obtain ⟨es, hes⟩ := exists_makes l hl
    obtain ⟨fs, hfs⟩ := exists_makes r hr
    exact ⟨es ++ fs, fun I => by rw [perform, hes I, hfs I]; rfl⟩
  | arrayOf _ size values =>
    obtain ⟨hsize, hvalues⟩ := List.forall_mem_append.1 (h.parts (by rw [Expr.nodes]))
    obtain ⟨es, hes⟩ := exists_makes size hsize
    obtain ⟨fs, hfs⟩ := exists_allMake values hvalues
    exact ⟨es ++ fs, fun I => by rw [perform, hes I, hfs I]; rfl⟩
  | new type constructor args =>
    obtain ⟨es, hes⟩ := exists_allMake args (h.parts (by rw [Expr.nodes]))
    exact ⟨es ++ [.call type "<init>" constructor], fun I => by rw [perform, hes I]; rfl⟩
  | call m receiver args =>
    obtain ⟨hreceiver, hargs⟩ := List.forall_mem_append.1 (h.parts (by rw [Expr.nodes]))
    obtain ⟨es, hes⟩ := exists_makes receiver hreceiver
    obtain ⟨fs, hfs⟩ := exists_allMake args hargs
    exact ⟨es ++ (fs ++ [m.effect]), fun I => by rw [perform, hes I, hfs I]; rfl⟩
  | staticCall m args =>
    obtain ⟨es, hes⟩ := exists_allMake args (h.parts (by rw [Expr.nodes]))
    exact ⟨es ++ [m.effect], fun I => by rw [perform, hes I]; rfl⟩
  | ternary test onTrue onFalse =>
    -- the test is such a node
    refine absurd ⟨test, rfl⟩ (h (.cond test) ?_)
    rw [Expr.nodes, Cond.nodes.eq_def]
    simp

/-- The same for a list of values. -/
theorem Expr.exists_allMake (vs : List Expr) (h : ∀ n ∈ Expr.allNodes vs, ¬Node.Asks n) :
    ∃ es, Expr.AllMake vs es := by
  match vs with
  | [] => exact ⟨[], fun I => by rw [performAll]; rfl⟩
  | v :: vs =>
    have h : ∀ n ∈ v.nodes ++ Expr.allNodes vs, ¬Node.Asks n := h
    obtain ⟨hv, hvs⟩ := List.forall_mem_append.1 h
    obtain ⟨es, hes⟩ := exists_makes v hv
    obtain ⟨fs, hfs⟩ := exists_allMake vs hvs
    exact ⟨es ++ fs, fun I => by rw [performAll, hes I, hfs I]; rfl⟩

end

/-- Values that are the same make the same effects, literals being compared as numbers. -/
theorem Expr.perform_of_same {σ : Type} (I : Interpretation σ) (a b : Expr)
    (ha : a.Avoids Node.Asks) (h : a.same b = true) : a.perform I = b.perform I := by
  revert ha h
  apply Expr.same.induct
    (fun a b => a.Avoids Node.Asks → a.same b = true → a.perform I = b.perform I)
    (fun _ _ => True) (fun _ _ => True)
    (fun as bs => (∀ n ∈ Expr.allNodes as, ¬Node.Asks n) → Expr.allSame as bs = true →
      Expr.performAll I as = Expr.performAll I bs)
  -- literals, locals and static fields
  case case1 | case2 | case4 =>
    intros
    rw [perform, perform]
  case case18 =>
    intro v n _ w m _ _ h
    simp only [same, Bool.and_eq_true, beq_iff_eq] at h
    rw [perform, perform, h.1.1, h.1.2]
  -- one operand
  case case3 | case9 | case10 | case11 =>
    intro _ _ _ _ ih ha h
    rw [same, Bool.and_eq_true] at h
    rw [perform, perform, ih (ha.parts (by rw [Expr.nodes])) h.2]
  case case6 | case8 =>
    intro _ _ ih ha h
    rw [same] at h
    rw [perform, perform, ih (ha.parts (by rw [Expr.nodes])) h]
  -- two operands
  case case5 =>
    intro _ _ _ _ ihl ihr ha h
    obtain ⟨hl, hr⟩ := List.forall_mem_append.1 (ha.parts (by rw [Expr.nodes]))
    rw [same, Bool.and_eq_true] at h
    rw [perform, perform, ihl hl h.1, ihr hr h.2]
  case case7 | case17 =>
    intro _ _ _ _ _ _ ihl ihr ha h
    obtain ⟨hl, hr⟩ := List.forall_mem_append.1 (ha.parts (by rw [Expr.nodes]))
    rw [same, Bool.and_eq_true, Bool.and_eq_true] at h
    rw [perform, perform, ihl hl h.1.2, ihr hr h.2]
  -- several operands
  case case12 =>
    intro _ _ _ _ _ _ ihsize ihvalues ha h
    obtain ⟨hsize, hvalues⟩ := List.forall_mem_append.1 (ha.parts (by rw [Expr.nodes]))
    rw [same, Bool.and_eq_true, Bool.and_eq_true] at h
    rw [perform, perform, ihsize hsize h.1.2, ihvalues hvalues h.2]
  case case13 =>
    intro _ _ _ _ _ _ ihargs ha h
    simp only [same, Bool.and_eq_true, beq_iff_eq] at h
    rw [perform, perform, ihargs (ha.parts (by rw [Expr.nodes])) h.2, h.1.1, h.1.2]
  case case14 =>
    intro _ _ _ _ _ _ ihreceiver ihargs ha h
    obtain ⟨hreceiver, hargs⟩ := List.forall_mem_append.1 (ha.parts (by rw [Expr.nodes]))
    simp only [same, Bool.and_eq_true, beq_iff_eq] at h
    rw [perform, perform, ihreceiver hreceiver h.1.2, ihargs hargs h.2, h.1.1]
  case case15 =>
    intro _ _ _ _ ihargs ha h
    simp only [same, Bool.and_eq_true, beq_iff_eq] at h
    rw [perform, perform, ihargs (ha.parts (by rw [Expr.nodes])) h.2, h.1]
  case case16 =>
    intro c a b _ _ _ _ _ _ ha
    refine absurd ⟨c, rfl⟩ (ha (.cond c) ?_)
    rw [Expr.nodes, Cond.nodes.eq_def]
    simp
  case case29 => exact fun _ _ => rfl
  case case30 =>
    intro a as _ _ iha ihas has h
    have has : ∀ n ∈ a.nodes ++ Expr.allNodes as, ¬Node.Asks n := has
    obtain ⟨ha, has⟩ := List.forall_mem_append.1 has
    rw [allSame, Bool.and_eq_true] at h
    rw [performAll, performAll, iha ha h.1, ihas has h.2]
  -- values of different forms are not the same, and conditions do not come up
  case case19 | case31 =>
    intros
    simp_all [same, allSame]
  all_goals
    intros
    trivial

/-! ### Values without effects -/

section Pure

variable {σ : Type} (I : Interpretation σ)

mutual

/-- A value without effects makes none. -/
theorem Expr.effects_eq_nil (e : Expr) (h : e.hasEffects = false) (s : σ) :
    (e.perform I s).effects = [] := by
  cases e with
  | const _ | var _ | static _ => rw [Expr.perform]; rfl
  | increment _ _ _ | new _ _ _ | call _ _ _ | staticCall _ _ => cases h
  | field _ e | length e | negate e | cast _ e | instanceOf _ e | newArray _ e =>
    rw [Expr.perform]
    exact Expr.effects_eq_nil e h s
  | element l r | binary _ l r | compare _ l r =>
    obtain ⟨hl, hr⟩ := Bool.or_eq_false_iff.1 h
    simp [Expr.perform, Expr.effects_eq_nil l hl, Expr.effects_eq_nil r hr]
  | arrayOf _ size values =>
    obtain ⟨hsize, hvalues⟩ := Bool.or_eq_false_iff.1 h
    simp [Expr.perform, Expr.effects_eq_nil size hsize, Expr.effects_all_eq_nil values hvalues]
  | ternary test onTrue onFalse =>
    obtain ⟨h, hfalse⟩ := Bool.or_eq_false_iff.1 h
    obtain ⟨htest, htrue⟩ := Bool.or_eq_false_iff.1 h
    rw [Expr.perform, Course.bind_apply, Cond.effects_eq_nil test htest]
    simp only [List.nil_append]
    split
    · exact Expr.effects_eq_nil onTrue htrue _
    · exact Expr.effects_eq_nil onFalse hfalse _

/-- Values without effects make none. -/
theorem Expr.effects_all_eq_nil (es : List Expr) (h : Expr.anyHasEffects es = false) (s : σ) :
    (Expr.performAll I es s).effects = [] := by
  match es with
  | [] => rw [Expr.performAll]; rfl
  | e :: es =>
    obtain ⟨he, hes⟩ := Bool.or_eq_false_iff.1 h
    simp [Expr.performAll, Expr.effects_eq_nil e he, Expr.effects_all_eq_nil es hes]

/-- A test without effects makes none. -/
theorem Cond.effects_eq_nil (c : Cond) (h : c.hasEffects = false) (s : σ) :
    (c.perform I s).effects = [] := by
  cases c with
  | test e _ => simp [Cond.perform, Expr.effects_eq_nil e h]
  | compare l _ r =>
    obtain ⟨hl, hr⟩ := Bool.or_eq_false_iff.1 h
    simp [Cond.perform, Expr.effects_eq_nil l hl, Expr.effects_eq_nil r hr]
  | not d => simp [Cond.perform, Cond.effects_eq_nil d h]
  | and cs => rw [Cond.perform]; exact Cond.effects_performAll cs h s
  | or cs => rw [Cond.perform]; exact Cond.effects_performAny cs h s

/-- A conjunction of conditions without effects makes none. -/
theorem Cond.effects_performAll (cs : List Cond) (h : Cond.anyHasEffects cs = false) (s : σ) :
    (Cond.performAll I cs s).effects = [] := by
  match cs with
  | [] => rw [Cond.performAll]; rfl
  | c :: cs =>
    obtain ⟨hc, hcs⟩ := Bool.or_eq_false_iff.1 h
    rw [Cond.performAll, Course.bind_apply, Cond.effects_eq_nil c hc]
    simp only [List.nil_append]
    split
    · exact Cond.effects_performAll cs hcs _
    · rfl

/-- A disjunction of conditions without effects makes none. -/
theorem Cond.effects_performAny (cs : List Cond) (h : Cond.anyHasEffects cs = false) (s : σ) :
    (Cond.performAny I cs s).effects = [] := by
  match cs with
  | [] => rw [Cond.performAny]; rfl
  | c :: cs =>
    obtain ⟨hc, hcs⟩ := Bool.or_eq_false_iff.1 h
    rw [Cond.performAny, Course.bind_apply, Cond.effects_eq_nil c hc]
    simp only [List.nil_append]
    split
    · rfl
    · exact Cond.effects_performAny cs hcs _

end

end Pure

end Restructure
