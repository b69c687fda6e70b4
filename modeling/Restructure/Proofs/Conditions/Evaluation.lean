import Mathlib.Order.Lattice
import Restructure.Expr.Condition

namespace Restructure

/-!
# Evaluating conditions — short circuits, with a record of the tests that are made

The atomic parts of a condition are tests of a truth value and comparisons of two values. What they
do is left open: each changes a state and has an outcome.

* `Interpretation` — what atomic tests do.
* `Evaluator` — what expressions do; values are ordered, and atomic tests compare them.
* `Cond.eval` — short-circuit evaluation of a condition, with the atomic tests in their order.
* `Cond.eval_all`, `Cond.eval_any` — conjunction and disjunction of a list.
* `Cond.eval_negate` — the opposite condition makes the same tests and has the opposite outcome.
* `Cond.negate_evaluates` — whatever expressions do, it evaluates the same ones in the same order.
-/

/-! ### Atomic tests -/

/-- The first of a relation and its opposite. -/
def Relation.stem : Relation → Relation
  | eq | ne => eq
  | lt | ge => lt
  | gt | le => gt

/-- A relation and its opposite ask the same question. -/
@[simp] theorem Relation.stem_negate (r : Relation) : r.negate.stem = r.stem := by
  cases r <;> rfl

/-- An atomic test, whichever of its two outcomes is asked for. -/
inductive Atom where
  | truth (e : Expr)
  | relation (left : Expr) (r : Relation) (right : Expr)

/-- What atomic tests do: each has an outcome and changes the state. A relation and its opposite
    change the state alike and have opposite outcomes. -/
structure Interpretation (σ : Type) where
  truth : Expr → σ → Bool × σ
  relation : Expr → Relation → Expr → σ → Bool × σ
  opposite : ∀ l r e s,
    relation l r.negate e s = (!(relation l r e s).1, (relation l r e s).2)

/-- The outcome of a condition, the atomic tests made for it, in order, and the state behind it. -/
structure Verdict (σ : Type) where
  holds : Bool
  asked : List Atom
  state : σ

namespace Verdict

variable {σ : Type}

/-- The opposite outcome. -/
def negate (v : Verdict σ) : Verdict σ := { v with holds := !v.holds }

/-- The verdict with earlier tests in front. -/
def behind (v : Verdict σ) (asked : List Atom) : Verdict σ := { v with asked := asked ++ v.asked }

/-- Nothing has been asked before. -/
@[simp] theorem behind_nil (v : Verdict σ) : v.behind [] = v := rfl

/-- What has been asked before is put in front in two steps. -/
theorem behind_append (v : Verdict σ) (as bs : List Atom) :
    v.behind (as ++ bs) = (v.behind bs).behind as := by
  simp [behind]

/-- What has been asked before does not change the answer. -/
@[simp] theorem holds_behind (v : Verdict σ) (as : List Atom) : (v.behind as).holds = v.holds := rfl

/-- What has been asked before does not change the state behind. -/
@[simp] theorem state_behind (v : Verdict σ) (as : List Atom) : (v.behind as).state = v.state := rfl

/-- What has been asked before stands in front. -/
@[simp] theorem asked_behind (v : Verdict σ) (as : List Atom) :
    (v.behind as).asked = as ++ v.asked := rfl

/-- Turning the answer around keeps what has been asked. -/
@[simp] theorem negate_behind (v : Verdict σ) (as : List Atom) :
    (v.behind as).negate = v.negate.behind as := rfl

/-- The answer is turned around. -/
@[simp] theorem holds_negate (v : Verdict σ) : v.negate.holds = !v.holds := rfl

/-- The state stays. -/
@[simp] theorem state_negate (v : Verdict σ) : v.negate.state = v.state := rfl

/-- The questions stay. -/
@[simp] theorem asked_negate (v : Verdict σ) : v.negate.asked = v.asked := rfl

/-- Turning the answer around twice changes nothing. -/
@[simp] theorem negate_negate (v : Verdict σ) : v.negate.negate = v := by
  simp [negate]

end Verdict

/-! ### Ordered values -/

/-- Whether a relation holds between two values. -/
def Relation.relates {α : Type} [LinearOrder α] (r : Relation) (a b : α) : Bool :=
  match r with
  | .eq => decide (a = b)
  | .ne => decide (a ≠ b)
  | .lt => decide (a < b)
  | .ge => decide (b ≤ a)
  | .gt => decide (b < a)
  | .le => decide (a ≤ b)

/-- The opposite of a relation holds exactly if the relation does not. -/
theorem Relation.relates_negate {α : Type} [LinearOrder α] (r : Relation) (a b : α) :
    r.negate.relates a b = !r.relates a b := by
  cases r <;> simp [relates, negate, ← not_lt]

/-- What expressions do: each one has a value and changes the state. One that breaks off is an
    expression behind which the state does not change any more. -/
structure Evaluator (σ α : Type) where
  value : Expr → σ → α × σ
  isTrue : α → Bool

/-- What atomic tests do if expressions are evaluated from left to right. -/
def Evaluator.interpretation {σ α : Type} [LinearOrder α] (V : Evaluator σ α) :
    Interpretation σ where
  truth e s := (V.isTrue (V.value e s).1, (V.value e s).2)
  relation l r e s :=
    let left := V.value l s
    let right := V.value e left.2
    (r.relates left.1 right.1, right.2)
  opposite l r e s := by simp only [Relation.relates_negate]

/-- The expressions that an atomic test evaluates, in order. -/
def Atom.operands : Atom → List Expr
  | truth e => [e]
  | relation l _ r => [l, r]

/-- The expressions that have been evaluated, in order. -/
def Verdict.evaluated {σ : Type} (v : Verdict σ) : List Expr := v.asked.flatMap Atom.operands

/-! ### Evaluation -/

namespace Cond

variable {σ : Type} (I : Interpretation σ)

mutual

/-- Evaluates a condition. -/
def eval : Cond → σ → Verdict σ
  | .test e inverse, s => ⟨(I.truth e s).1 != inverse, [.truth e], (I.truth e s).2⟩
  | .compare l r e, s => ⟨(I.relation l r e s).1, [.relation l r.stem e], (I.relation l r e s).2⟩
  | .not c, s => (c.eval s).negate
  | .and cs, s => evalAll cs s
  | .or cs, s => evalAny cs s

/-- Evaluates conditions until one of them fails. -/
def evalAll : List Cond → σ → Verdict σ
  | [], s => ⟨true, [], s⟩
  | c :: cs, s =>
    let v := c.eval s
    if v.holds then (evalAll cs v.state).behind v.asked else v

/-- Evaluates conditions until one of them holds. -/
def evalAny : List Cond → σ → Verdict σ
  | [], s => ⟨false, [], s⟩
  | c :: cs, s =>
    let v := c.eval s
    if v.holds then v else (evalAny cs v.state).behind v.asked

end

variable {I} {s : σ}

/-! ### Lists of conditions -/

/-- A conjunction goes on behind a test that holds. -/
theorem evalAll_cons (c : Cond) (cs : List Cond) :
    evalAll I (c :: cs) s =
      if (c.eval I s).holds then (evalAll I cs (c.eval I s).state).behind (c.eval I s).asked
      else c.eval I s := by
  rw [evalAll]

/-- A disjunction goes on behind a test that does not hold. -/
theorem evalAny_cons (c : Cond) (cs : List Cond) :
    evalAny I (c :: cs) s =
      if (c.eval I s).holds then c.eval I s
      else (evalAny I cs (c.eval I s).state).behind (c.eval I s).asked := by
  rw [evalAny]

/-- A conjunction of one test is that test. -/
theorem evalAll_singleton (c : Cond) : evalAll I [c] s = c.eval I s := by
  rw [evalAll_cons, evalAll]
  split
  · rename_i h
    simp [Verdict.behind, ← h]
  · rfl

/-- A disjunction of one test is that test. -/
theorem evalAny_singleton (c : Cond) : evalAny I [c] s = c.eval I s := by
  rw [evalAny_cons, evalAny]
  split
  · rfl
  · rename_i h
    simp [Verdict.behind, ← Bool.eq_false_iff.2 h]

/-- The second half of a conjunction is asked if the first one holds. -/
theorem evalAll_append (cs ds : List Cond) :
    evalAll I (cs ++ ds) s =
      if (evalAll I cs s).holds then
        (evalAll I ds (evalAll I cs s).state).behind (evalAll I cs s).asked
      else evalAll I cs s := by
  induction cs generalizing s with
  | nil => simp [evalAll]
  | cons c cs ih =>
    rw [List.cons_append, evalAll_cons, evalAll_cons]
    -- the tests of the second list are made only behind those of the first one
    by_cases hc : (c.eval I s).holds = true
    · simp only [if_pos hc, ih, Verdict.holds_behind, Verdict.state_behind, Verdict.asked_behind,
        Verdict.behind_append]
      split <;> rfl
    · simp only [if_neg hc]

/-- The second half of a disjunction is asked if the first one does not hold. -/
theorem evalAny_append (cs ds : List Cond) :
    evalAny I (cs ++ ds) s =
      if (evalAny I cs s).holds then evalAny I cs s
      else (evalAny I ds (evalAny I cs s).state).behind (evalAny I cs s).asked := by
  induction cs generalizing s with
  | nil => simp [evalAny]
  | cons c cs ih =>
    rw [List.cons_append, evalAny_cons, evalAny_cons]
    by_cases hc : (c.eval I s).holds = true
    · simp only [if_pos hc]
    · simp only [if_neg hc, ih, Verdict.holds_behind, Verdict.state_behind, Verdict.asked_behind,
        Verdict.behind_append]
      split <;> rfl

/-! ### Conjunction and disjunction -/

/-- A condition is the conjunction of its operands. -/
theorem evalAll_andOperands (c : Cond) : evalAll I c.andOperands s = c.eval I s := by
  cases c with
  | and cs => rw [andOperands, eval]
  | _ => exact evalAll_singleton _

/-- A condition is the disjunction of its operands. -/
theorem evalAny_orOperands (c : Cond) : evalAny I c.orOperands s = c.eval I s := by
  cases c with
  | or cs => rw [orOperands, eval]
  | _ => exact evalAny_singleton _

/-- The conjunction that is built is evaluated member by member. -/
theorem eval_conjunction (cs : List Cond) : (conjunction cs).eval I s = evalAll I cs s := by
  match cs with
  | [] => rw [conjunction, eval]; simp
  | [c] => rw [conjunction, evalAll_singleton]
  | c :: d :: cs => rw [conjunction, eval]; simp

/-- The disjunction that is built is evaluated member by member. -/
theorem eval_disjunction (cs : List Cond) : (disjunction cs).eval I s = evalAny I cs s := by
  match cs with
  | [] => rw [disjunction, eval]; simp
  | [c] => rw [disjunction, evalAny_singleton]
  | c :: d :: cs => rw [disjunction, eval]; simp

/-- Flattening operands of the same kind changes nothing. -/
theorem eval_all (cs : List Cond) : (all cs).eval I s = evalAll I cs s := by
  rw [all, eval_conjunction]
  induction cs generalizing s with
  | nil => rfl
  | cons c cs ih =>
    -- the operands of a member are evaluated in its place, in the same order
    rw [List.flatMap_cons, evalAll_append, evalAll_andOperands, evalAll_cons]
    simp only [ih]

/-- Flattening does not change how a disjunction is evaluated. -/
theorem eval_any (cs : List Cond) : (any cs).eval I s = evalAny I cs s := by
  rw [any, eval_disjunction]
  induction cs generalizing s with
  | nil => rfl
  | cons c cs ih =>
    rw [List.flatMap_cons, evalAny_append, evalAny_orOperands, evalAny_cons]
    simp only [ih]

/-- A disjunction of two tests asks the second one if the first does not hold. -/
theorem eval_any_pair (c d : Cond) :
    (any [c, d]).eval I s =
      if (c.eval I s).holds then c.eval I s
      else (d.eval I (c.eval I s).state).behind (c.eval I s).asked := by
  rw [eval_any, evalAny_cons, evalAny_singleton]

/-- A conjunction of two tests asks the second one if the first holds. -/
theorem eval_all_pair (c d : Cond) :
    (all [c, d]).eval I s =
      if (c.eval I s).holds then (d.eval I (c.eval I s).state).behind (c.eval I s).asked
      else c.eval I s := by
  rw [eval_all, evalAll_cons, evalAll_singleton]

/-! ### Negation -/

mutual

/-- The opposite condition makes the same tests and has the opposite outcome. -/
theorem eval_negate (c : Cond) (s : σ) : c.negate.eval I s = (c.eval I s).negate := by
  cases c with
  | test e inverse =>
    simp only [negate, eval, Verdict.negate]
    cases (I.truth e s).1 <;> cases inverse <;> rfl
  | compare l r e => simp only [negate, eval, Verdict.negate, I.opposite, Relation.stem_negate]
  | not d => simp only [negate, eval, Verdict.negate_negate]
  -- a chain breaks off at the same member: where one test fails its opposite holds
  | and cs => rw [negate, eval_any, evalAny_negateAll, eval]
  | or cs => rw [negate, eval_all, evalAll_negateAll, eval]

/-- A disjunction of opposites is the opposite of the conjunction. -/
theorem evalAny_negateAll (cs : List Cond) (s : σ) :
    evalAny I (negateAll cs) s = (evalAll I cs s).negate := by
  match cs with
  | [] => rfl
  | c :: cs =>
    rw [negateAll, evalAny_cons, evalAll_cons, eval_negate c]
    by_cases hc : (c.eval I s).holds = true
    · simp [hc, evalAny_negateAll cs]
    · simp [hc]

/-- A conjunction of opposites is the opposite of the disjunction. -/
theorem evalAll_negateAll (cs : List Cond) (s : σ) :
    evalAll I (negateAll cs) s = (evalAny I cs s).negate := by
  match cs with
  | [] => rfl
  | c :: cs =>
    rw [negateAll, evalAll_cons, evalAny_cons, eval_negate c]
    by_cases hc : (c.eval I s).holds = true
    · simp [hc]
    · simp [hc, evalAll_negateAll cs]

end

/-- **Negation.** Whatever expressions do, the opposite condition has the opposite outcome,
    evaluates the same expressions in the same order, and leaves the same state; and the conditions
    that the flattening constructors make are evaluated as short-circuit conjunction and
    disjunction of their operands. -/
theorem negate_evaluates {α : Type} [LinearOrder α] (V : Evaluator σ α) :
    (∀ (c : Cond) (s : σ),
      (c.negate.eval V.interpretation s).holds = !(c.eval V.interpretation s).holds ∧
        (c.negate.eval V.interpretation s).evaluated = (c.eval V.interpretation s).evaluated ∧
        (c.negate.eval V.interpretation s).state = (c.eval V.interpretation s).state) ∧
      ∀ (cs : List Cond) (s : σ),
        (all cs).eval V.interpretation s = evalAll V.interpretation cs s ∧
          (any cs).eval V.interpretation s = evalAny V.interpretation cs s := by
  constructor
  · intro c s
    rw [eval_negate]
    exact ⟨rfl, rfl, rfl⟩
  · exact fun cs s => ⟨eval_all cs, eval_any cs⟩

end Cond

end Restructure
