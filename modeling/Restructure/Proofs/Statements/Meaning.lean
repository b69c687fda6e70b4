import Restructure.Region.Loop

namespace Restructure

/-!
# What statements do — control flow over an open meaning of values

What values, tests and simple statements do to a state is left open; what sequences, conditionals,
switches, loops and jumps make of it is not. Every loop is given a number of rounds, so that all
code has an outcome: a loop that needs more rounds is cut off. Code that does not end is cut off
whatever the number of rounds, each time in the state that it has come to.

* `Ending` — how control leaves a piece of code.
* `Meaning` — what values, tests and simple statements do.
* `Transition` — the ending and the state behind it, for every state before.
* `Transition.seq`, `Transition.branch`, `Transition.rounds` and their companions — how pieces of
  code are put together.
* `Stmt.denote`, `Scope.denote` — what statements do.
* `Stmt.denote_keepsRound` — only a jump of its own makes a statement begin the next round of the
  loop around it.
-/

/-- How control leaves a piece of code: behind it, by a jump of an enclosing construct, by a jump
    to a label, with or without a result, with a thrown value, or by being cut off. -/
inductive Ending (α : Type) where
  | onward
  | leave
  | nextRound
  | jump (block : Nat)
  | ret (value : Option α)
  | thrown (value : α)
  | cut
  deriving DecidableEq

/-- What values, tests and simple statements do: they change the state, and have a result or throw a
    value. Nothing catches what is thrown, so one that does not end can be taken for one that throws
    a value of its own. -/
structure Meaning (σ α : Type) where
  value : Expr → σ → Except α α × σ
  test : Cond → σ → Except α Bool × σ
  simple : Stmt → σ → Except α Unit × σ
  /-- What a switch compares with its keys. -/
  key : α → Int

/-- The ending of a piece of code and the state behind it. -/
abbrev Transition (σ α : Type) := σ → Ending α × σ

/-! ### Putting code together -/

namespace Transition

variable {σ α β : Type}

/-- Control leaves at once. -/
def stop (e : Ending α) : Transition σ α := fun s => (e, s)

/-- Nothing is done. -/
def skip : Transition σ α := stop .onward

/-- Goes on with the result of a computation, unless it throws a value. -/
def andThen (x : σ → Except α β × σ) (k : β → Transition σ α) : Transition σ α := fun s =>
  match x s with
  | (.ok b, s') => k b s'
  | (.error v, s') => (.thrown v, s')

/-- One piece of code after the other. -/
def seq (a b : Transition σ α) : Transition σ α := fun s =>
  match a s with
  | (.onward, s') => b s'
  | r => r

/-- Pieces of code, one after the other. -/
def seqAll : List (Transition σ α) → Transition σ α := List.foldr seq skip

/-- One of two pieces of code. -/
def branch (test : σ → Except α Bool × σ) (onTrue onFalse : Transition σ α) : Transition σ α :=
  andThen test fun holds => if holds then onTrue else onFalse

/-- A construct that a jump leaves. -/
def enclosed (body : Transition σ α) : Transition σ α := fun s =>
  match body s with
  | (.leave, s') => (.onward, s')
  | r => r

/-- The body of a loop, and what comes after a round that does not leave the loop. -/
def round (body next : Transition σ α) : Transition σ α := fun s =>
  match body s with
  | (.onward, s') | (.nextRound, s') => next s'
  | (.leave, s') => (.onward, s')
  | r => r

/-- A loop that tests first, with an update at the end of every round. -/
def rounds (test : σ → Except α Bool × σ) (body update : Transition σ α) : Nat → Transition σ α
  | 0 => stop .cut
  | n + 1 => branch test (round body (seq update (rounds test body update n))) skip

/-- A loop that tests behind its body. -/
def roundsBefore (test : σ → Except α Bool × σ) (body : Transition σ α) : Nat → Transition σ α
  | 0 => stop .cut
  | n + 1 => round body (branch test (roundsBefore test body n) skip)

end Transition

/-! ### Statements -/

/-- The arm of a switch where control enters: the one with the key, or else the default. -/
def SwitchArm.entry? (arms : List SwitchArm) (key : Int) : Option Nat :=
  (arms.findIdx? (·.labels.contains key)).or (arms.findIdx? (·.isDefault))

namespace Meaning

variable {σ α : Type} (M : Meaning σ α)

/-- What a simple statement does. -/
def act (s : Stmt) : Transition σ α := .andThen (M.simple s) fun _ => .skip

/-- What a simple statement does, if there is one. -/
def actIf : Option Stmt → Transition σ α
  | some s => M.act s
  | none => .skip

end Meaning

section Statements

variable {σ α : Type} (M : Meaning σ α) (limit : Nat)

open Transition

mutual

/-- What a statement does if each of its loops has `limit` rounds. A label does nothing, and a jump
    to one leaves the code. -/
def Stmt.denote : Stmt → Transition σ α
  | .assign target value => M.act (.assign target value)
  | .compound target op value => M.act (.compound target op value)
  | .increment v amount => M.act (.increment v amount)
  | .eval value => M.act (.eval value)
  | .ret none => stop (.ret none)
  | .ret (some value) => andThen (M.value value) fun v => stop (.ret (some v))
  | .throw value => andThen (M.value value) fun v => stop (.thrown v)
  | .ifElse test body none => branch (M.test test) body.denote skip
  | .ifElse test body (some orElse) => branch (M.test test) body.denote orElse.denote
  | .whileLoop test body => rounds (M.test test) body.denote skip limit
  | .doWhile test body => roundsBefore (M.test test) body.denote limit
  | .forLoop init test update body =>
    seq (M.actIf init) (rounds (M.test test) body.denote (M.actIf update) limit)
  | .switch key arms =>
    andThen (M.value key) fun v =>
      match SwitchArm.entry? arms (M.key v) with
      | some i => enclosed (seqAll ((SwitchArm.denoteEach arms).drop i))
      | none => skip
  | .breakOut => stop .leave
  | .continueLoop => stop .nextRound
  | .label _ => skip
  | .goto block => stop (.jump block)
  | .gotoIf test block => branch (M.test test) (stop (.jump block)) skip

/-- What statements do, one after the other. -/
def Stmt.denoteAll : List Stmt → Transition σ α
  | [] => skip
  | s :: ss => seq s.denote (Stmt.denoteAll ss)

/-- What the statements of a scope do. -/
def Scope.denote : Scope → Transition σ α
  | ⟨_, _, ss, _⟩ => Stmt.denoteAll ss

/-- What the arms of a switch do, each with the jump behind the switch at its end. -/
def SwitchArm.denoteEach : List SwitchArm → List (Transition σ α)
  | [] => []
  | ⟨_, _, b, breaks⟩ :: arms =>
    (if breaks then seq b.denote (stop .leave) else b.denote) :: SwitchArm.denoteEach arms

end

/-! ### Sequences of statements -/

variable {M limit}

/-- Nothing in front of a piece of code. -/
theorem Transition.skip_seq (a : Transition σ α) : seq skip a = a := rfl

/-- Only the order of the pieces matters. -/
theorem Transition.seq_assoc (a b c : Transition σ α) : seq (seq a b) c = seq a (seq b c) := by
  funext s
  unfold seq
  rcases a s with ⟨e, s'⟩
  cases e <;> rfl

/-- Nothing behind a piece of code. -/
theorem Transition.seq_skip (a : Transition σ α) : seq a skip = a := by
  funext s
  unfold seq
  rcases a s with ⟨e, s'⟩
  cases e <;> rfl

/-- Statements are run one list after the other. -/
theorem Stmt.denoteAll_append (ss ts : List Stmt) :
    Stmt.denoteAll M limit (ss ++ ts)
      = seq (Stmt.denoteAll M limit ss) (Stmt.denoteAll M limit ts) := by
  induction ss with
  | nil => rfl
  | cons s ss ih => rw [List.cons_append, Stmt.denoteAll, ih, Stmt.denoteAll, seq_assoc]

/-- A list of one statement is that statement. -/
theorem Stmt.denoteAll_singleton (s : Stmt) :
    Stmt.denoteAll M limit [s] = s.denote M limit := by
  rw [Stmt.denoteAll, Stmt.denoteAll, seq_skip]

/-- A scope is run statement by statement. -/
theorem Scope.denote_eq (b : Scope) :
    b.denote M limit = Stmt.denoteAll M limit b.stmts := by
  obtain ⟨_, _, _, _⟩ := b
  rw [Scope.denote]

end Statements

/-! ### Code that stays in its round -/

namespace Transition

variable {σ α β : Type} {a b body next update : Transition σ α} {test : σ → Except α Bool × σ}

/-- The code never begins the next round of the loop around it. -/
def KeepsRound (a : Transition σ α) : Prop := ∀ s, (a s).1 ≠ .nextRound

/-- Code that ends in one way ends no round, unless this way is the next round. -/
theorem keepsRound_stop {e : Ending α} (h : e ≠ .nextRound) :
    KeepsRound (stop e : Transition σ α) := fun _ => h

/-- Nothing ends no round. -/
theorem keepsRound_skip : KeepsRound (skip : Transition σ α) := keepsRound_stop nofun

/-- Where a computation goes on with code that ends no round, nothing ends it. -/
theorem keepsRound_andThen {x : σ → Except α β × σ} {k : β → Transition σ α}
    (h : ∀ b, (k b).KeepsRound) : (andThen x k).KeepsRound := by
  intro s
  unfold andThen
  rcases x s with ⟨_ | b, s'⟩
  · exact nofun
  · exact h b s'

/-- One of two pieces that end no round. -/
theorem KeepsRound.branch (ha : a.KeepsRound) (hb : b.KeepsRound) :
    (branch test a b).KeepsRound := by
  refine keepsRound_andThen fun holds => ?_
  cases holds
  · exact hb
  · exact ha

/-- One piece that ends no round behind another one. -/
theorem KeepsRound.seq (ha : a.KeepsRound) (hb : b.KeepsRound) : (seq a b).KeepsRound := by
  intro s
  have hs := ha s
  unfold Transition.seq
  generalize a s = r at hs ⊢
  obtain ⟨e, s'⟩ := r
  -- only where the first piece goes on does the second one decide
  cases e with
  | onward => exact hb s'
  | nextRound => exact absurd rfl hs
  | _ => exact nofun

/-- A row of pieces that end no round. -/
theorem keepsRound_seqAll {as : List (Transition σ α)} (h : ∀ a ∈ as, a.KeepsRound) :
    (seqAll as).KeepsRound := by
  induction as with
  | nil => exact keepsRound_skip
  | cons a as ih =>
    exact (h a (List.mem_cons_self ..)).seq (ih fun b hb => h b (List.mem_cons_of_mem _ hb))

/-- Jumps that leave a construct do not matter to the loop around. -/
theorem KeepsRound.enclosed (h : body.KeepsRound) : (enclosed body).KeepsRound := by
  intro s
  have hs := h s
  unfold Transition.enclosed
  generalize body s = r at hs ⊢
  obtain ⟨e, s'⟩ := r
  cases e with
  | nextRound => exact absurd rfl hs
  | _ => exact nofun

/-- A loop takes the jumps to the next round of its body. -/
theorem keepsRound_round (h : next.KeepsRound) : (round body next).KeepsRound := by
  intro s
  unfold round
  rcases body s with ⟨e, s'⟩
  cases e with
  -- the end of a body and a `continue` are the same to the code around
  | onward | nextRound => exact h s'
  | _ => exact nofun

/-- A loop ends its own rounds alone. -/
theorem keepsRound_rounds (h : update.KeepsRound) (n : Nat) :
    (rounds test body update n).KeepsRound := by
  induction n with
  | zero => exact keepsRound_stop nofun
  | succ n ih => exact (keepsRound_round (h.seq ih)).branch keepsRound_skip

/-- The same for a loop that tests behind its body. -/
theorem keepsRound_roundsBefore (n : Nat) : (roundsBefore test body n).KeepsRound := by
  induction n with
  | zero => exact keepsRound_stop nofun
  | succ n ih => exact keepsRound_round (ih.branch keepsRound_skip)

end Transition

namespace Meaning

open Transition

variable {σ α : Type} (M : Meaning σ α)

/-- A simple statement ends no round. -/
theorem keepsRound_act (s : Stmt) : (M.act s).KeepsRound :=
  keepsRound_andThen fun _ => keepsRound_skip

/-- The same where there may be no statement. -/
theorem keepsRound_actIf (s : Option Stmt) : (M.actIf s).KeepsRound := by
  cases s with
  | none => exact keepsRound_skip
  | some s => exact M.keepsRound_act s

end Meaning

section Continues

open Transition

variable {σ α : Type} (M : Meaning σ α) (limit : Nat)

mutual

/-- Only a jump of its own makes a statement begin the next round of the loop around it. -/
theorem Stmt.denote_keepsRound (s : Stmt) (h : s.hasOwnContinue = false) :
    (s.denote M limit).KeepsRound := by
  cases s with
  | assign _ _ | compound _ _ _ | increment _ _ | eval _ => exact M.keepsRound_act _
  | ret value =>
    cases value with
    | none => exact keepsRound_stop nofun
    | some e => exact keepsRound_andThen fun _ => keepsRound_stop nofun
  | throw e => exact keepsRound_andThen fun _ => keepsRound_stop nofun
  | ifElse test b orElse =>
    cases orElse with
    | none => exact (Scope.denote_keepsRound b h).branch keepsRound_skip
    | some e =>
      obtain ⟨hb, he⟩ := Bool.or_eq_false_iff.1 h
      exact (Scope.denote_keepsRound b hb).branch (Scope.denote_keepsRound e he)
  -- a loop takes every `continue` of its body, so nothing is asked of the body
  | whileLoop test b => exact keepsRound_rounds keepsRound_skip limit
  | doWhile test b => exact keepsRound_roundsBefore limit
  | forLoop init test update b =>
    exact (M.keepsRound_actIf init).seq (keepsRound_rounds (M.keepsRound_actIf update) limit)
  -- a switch takes the jumps behind it, but none to the next round
  | switch key arms =>
    refine keepsRound_andThen fun v => ?_
    split
    · refine (keepsRound_seqAll fun a ha => ?_).enclosed
      exact SwitchArm.denoteEach_keepRound arms h a (List.mem_of_mem_drop ha)
    · exact keepsRound_skip
  | continueLoop => cases h
  | breakOut | goto _ => exact keepsRound_stop nofun
  | label _ => exact keepsRound_skip
  | gotoIf test n =>
    have hjump : KeepsRound (stop (.jump n) : Transition σ α) := keepsRound_stop nofun
    exact hjump.branch keepsRound_skip

/-- Statements without a `continue` of their own end no round of the loop around. -/
theorem Stmt.denoteAll_keepsRound (ss : List Stmt) (h : Stmt.anyHasOwnContinue ss = false) :
    (Stmt.denoteAll M limit ss).KeepsRound := by
  match ss with
  | [] => exact keepsRound_skip
  | s :: ss =>
    obtain ⟨hs, hss⟩ := Bool.or_eq_false_iff.1 h
    exact (Stmt.denote_keepsRound s hs).seq (Stmt.denoteAll_keepsRound ss hss)

/-- The same for the statements of a scope. -/
theorem Scope.denote_keepsRound (b : Scope) (h : b.hasOwnContinue = false) :
    (b.denote M limit).KeepsRound := by
  match b with
  | ⟨_, _, ss, _⟩ => exact Stmt.denoteAll_keepsRound ss h

/-- The same for the arms of a switch. -/
theorem SwitchArm.denoteEach_keepRound (arms : List SwitchArm)
    (h : SwitchArm.anyHasOwnContinue arms = false) :
    ∀ a ∈ SwitchArm.denoteEach M limit arms, a.KeepsRound := by
  match arms with
  | [] => exact fun a ha => absurd ha List.not_mem_nil
  | ⟨_, _, b, breaks⟩ :: arms =>
    obtain ⟨hb, harms⟩ := Bool.or_eq_false_iff.1 h
    have hbody := Scope.denote_keepsRound b hb
    intro a ha
    rcases List.mem_cons.1 ha with rfl | ha
    · cases breaks
      · exact hbody
      · exact hbody.seq (keepsRound_stop nofun)
    · exact SwitchArm.denoteEach_keepRound arms harms a ha

end

end Continues

end Restructure
