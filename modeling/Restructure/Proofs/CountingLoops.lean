import Restructure.Proofs.Region.Forms
import Restructure.Proofs.Statements.Meaning

namespace Restructure

/-!
# Counting loops — a `for` loop does what its `while` loop did

A jump to the next round passes over the update at the end of the body of a `while` loop, but not
over the update of a `for` loop. The two agree where the body has no such jump of its own, and such
bodies alone are promoted.

* `Transition.rounds_act` — an update at the end of the body is an update behind the body.
* `Promoted.denote` — a loop behind what it has taken out of the scope does what it did.
* `promoteFor_denote` — so the scope with the promoted loop does what it did.
-/

/-! ### Updates -/

/-- Behind a simple statement control goes on, or a value is thrown. -/
theorem Meaning.act_inv {σ α : Type} (M : Meaning σ α) (stmt : Stmt) (s : σ) :
    ∃ s', M.act stmt s = (.onward, s') ∨ ∃ v, M.act stmt s = (.thrown v, s') := by
  unfold act Transition.andThen
  rcases M.simple stmt s with ⟨v | _, s'⟩
  · exact ⟨s', .inr ⟨v, rfl⟩⟩
  · exact ⟨s', .inl rfl⟩

namespace Transition

variable {σ α : Type} (M : Meaning σ α) {body : Transition σ α}

/-- In a round without a jump to the next one, a simple statement at the end of the body can as well
    come behind the body. -/
theorem round_act (hbody : body.KeepsRound) (update : Stmt) (next : Transition σ α) :
    round (seq body (M.act update)) next = round body (seq (M.act update) next) := by
  funext s
  have hs := hbody s
  unfold round seq
  generalize body s = r at hs ⊢
  obtain ⟨e, s'⟩ := r
  cases e with
  | onward =>
    obtain ⟨s'', h | ⟨v, h⟩⟩ := M.act_inv update s' <;> simp only [h]
  | nextRound => exact absurd rfl hs
  | _ => rfl

/-- So the whole loop may have the update at the end of its body or behind it. -/
theorem rounds_act {test : σ → Except α Bool × σ} (hbody : body.KeepsRound) (update : Stmt)
    (n : Nat) :
    rounds test (seq body (M.act update)) skip n = rounds test body (M.act update) n := by
  induction n with
  | zero => rfl
  | succ n ih => rw [rounds, rounds, skip_seq, ih, round_act M hbody]

end Transition

/-- What an assignment, a compound assignment or an increment does is left to the meaning of simple
    statements. -/
theorem Stmt.denote_of_assignedLocal {σ α : Type} {M : Meaning σ α} {limit : Nat} {s : Stmt}
    {slot : Nat} (h : s.assignedLocal? = some slot) : s.denote M limit = M.act s := by
  cases s with
  | assign _ _ | compound _ _ _ | increment _ _ => rfl
  | _ => cases h

/-- One of two lists of statements has a `continue` of its own. -/
theorem Stmt.anyHasOwnContinue_append (ss ts : List Stmt) :
    Stmt.anyHasOwnContinue (ss ++ ts) =
      (Stmt.anyHasOwnContinue ss || Stmt.anyHasOwnContinue ts) := by
  induction ss with
  | nil => rfl
  | cons s ss ih => rw [List.cons_append, Stmt.anyHasOwnContinue, ih, Stmt.anyHasOwnContinue,
      Bool.or_assoc]

/-- Only the statements of a scope count. -/
theorem Scope.hasOwnContinue_eq (b : Scope) :
    b.hasOwnContinue = Stmt.anyHasOwnContinue b.stmts := by
  obtain ⟨_, _, _, _⟩ := b
  rw [Scope.hasOwnContinue]

/-! ### Promotion -/

/-- Behind the statements that it has taken out of the scope, the loop did what it does now. -/
theorem Promoted.denote {scope scope' body : Scope} {cond : Cond} {stmt : Stmt}
    (h : Promoted scope body cond scope' stmt) :
    ∃ taken, scope.stmts = scope'.stmts ++ taken ∧
      ∀ {σ α : Type} (M : Meaning σ α) (limit : Nat), stmt.denote M limit =
        Stmt.denoteAll M limit (taken ++ [.whileLoop cond body]) := by
  cases h with
  | @counting slot init update b hinit hupdate _ hcontinue hstmts hbody _ =>
    refine ⟨[init], hstmts, fun M limit => ?_⟩
    have hkeeps : (b.denote M limit).KeepsRound := by
      rw [Scope.hasOwnContinue_eq, hbody, Stmt.anyHasOwnContinue_append] at hcontinue
      rw [Scope.denote_eq]
      exact Stmt.denoteAll_keepsRound M limit _ (Bool.or_eq_false_iff.1 hcontinue).1
    -- the body of the old loop is that of the new one with the update behind it
    have hold : body.denote M limit = .seq (b.denote M limit) (M.act update) := by
      rw [Scope.denote_eq, hbody, Stmt.denoteAll_append, Stmt.denoteAll_singleton,
        Stmt.denote_of_assignedLocal hupdate, Scope.denote_eq]
    have hwhile : (Stmt.whileLoop cond body).denote M limit =
        .rounds (M.test cond) (b.denote M limit) (M.act update) limit := by
      rw [Stmt.denote, hold, Transition.rounds_act M hkeeps]
    rw [Stmt.denoteAll_append, Stmt.denoteAll_singleton, Stmt.denoteAll_singleton,
      Stmt.denote_of_assignedLocal hinit, hwhile]
    rfl
  | @plain b hbody hscope =>
    refine ⟨[], by rw [hscope, List.append_nil], fun M limit => ?_⟩
    rw [List.nil_append, Stmt.denoteAll_singleton, Stmt.denote, Stmt.denote,
      Scope.denote_eq, hbody, Scope.denote_eq]

/-- **Promotion.** The statement for a loop that tests first is found whenever the scopes are open,
    and behind what is left of the scope it does what the whole scope did with the `while` loop
    behind it, whatever values, tests and simple statements mean. Only the loop and what it has
    taken from the end of the scope are concerned. -/
theorem promoteFor_denote (enabled : Bool) (scope body : Scope) (cond : Cond) :
    (scope.locked = false → body.locked = false →
      ∃ r, promoteFor enabled scope cond body = .ok r) ∧
      ∀ (stmt : Stmt) (scope' : Scope), promoteFor enabled scope cond body = .ok (stmt, scope') →
        (∀ {σ α : Type} (M : Meaning σ α) (limit : Nat),
          Stmt.denoteAll M limit (scope'.stmts ++ [stmt]) =
            Stmt.denoteAll M limit (scope.stmts ++ [.whileLoop cond body])) ∧
          ∃ taken, scope.stmts = scope'.stmts ++ taken ∧
            ∀ {σ α : Type} (M : Meaning σ α) (limit : Nat), stmt.denote M limit =
              Stmt.denoteAll M limit (taken ++ [.whileLoop cond body]) := by
  refine ⟨fun hscope hbody => ?_, fun stmt scope' h => ?_⟩
  · obtain ⟨stmt, scope', h, _⟩ := promoteFor_unlocked enabled cond hscope hbody
    exact ⟨_, h⟩
  · obtain ⟨taken, hstmts, hloop⟩ := (promoteFor_inv h).denote
    refine ⟨fun M limit => ?_, taken, hstmts, hloop⟩
    rw [hstmts, List.append_assoc, Stmt.denoteAll_append, Stmt.denoteAll_append,
      Stmt.denoteAll_singleton, hloop]

/-- The local of a counting loop. -/
def counterLocal : Local := ⟨1, "i", "I"⟩

/-- The statements `n = 9; i = 0`. -/
def countedScope : Scope where
  kind := .method
  locals := .empty
  stmts := [.assign (.var ⟨0, "n", "I"⟩) (.int 9), .assign (.var counterLocal) (.int 0)]
  locked := false

/-- The test `i < n`. -/
def countedTest : Cond := .compare (.var counterLocal) .lt (.var ⟨0, "n", "I"⟩)

/-- The statements `if (b) { break; } i++`. -/
def countedBody : Scope where
  kind := .loop
  locals := .empty
  stmts := [.ifElse (.test (.var ⟨2, "b", "Z"⟩) false) ⟨.arm, .empty, [.breakOut], true⟩ none,
    .increment counterLocal 1]
  locked := false

/-- The loop gets a counter, and does the same. -/
theorem countedLoop_denote :
    (∃ r, promoteFor true countedScope countedTest countedBody = .ok r) ∧
      ∃ init update b scope', promoteFor true countedScope countedTest countedBody =
          .ok (.forLoop (some init) countedTest (some update) b, scope') ∧
        ∀ {σ α : Type} (M : Meaning σ α) (limit : Nat),
          Stmt.denoteAll M limit
              (scope'.stmts ++ [.forLoop (some init) countedTest (some update) b]) =
            Stmt.denoteAll M limit
              (countedScope.stmts ++ [.whileLoop countedTest countedBody]) := by
  obtain ⟨hsucceeds, hsame⟩ := promoteFor_denote true countedScope countedBody countedTest
  have heval : ∃ init update b scope', promoteFor true countedScope countedTest countedBody =
      .ok (.forLoop (some init) countedTest (some update) b, scope') := ⟨_, _, _, _, rfl⟩
  obtain ⟨init, update, b, scope', h⟩ := heval
  exact ⟨hsucceeds rfl rfl, init, update, b, scope', h, (hsame _ _ h).1⟩

/-- Tests compare a number with 3, and simple statements increase it. -/
def countToThree : Meaning Nat Unit where
  value _ n := (.ok (), n)
  test _ n := (.ok (decide (n < 3)), n)
  simple _ n := (.ok (), n + 1)
  key _ := 0

/-- With a jump of its own in the body the two loops differ: the one never ends, the other does. -/
example :
    (Stmt.whileLoop countedTest
        ⟨.loop, .empty, [.continueLoop, .increment counterLocal 1], true⟩).denote
      countToThree 5 0 = (.cut, 0) ∧
    (Stmt.forLoop none countedTest (some (.increment counterLocal 1))
        ⟨.loop, .empty, [.continueLoop], true⟩).denote countToThree 5 0 = (.onward, 3) :=
  ⟨rfl, rfl⟩

end Restructure
