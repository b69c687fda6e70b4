import Restructure.Proofs.Region.Whole
import Restructure.Proofs.Simulation.Growth

namespace Restructure

/-!
# Lockstep — labels decide nothing

Two passes over one graph that differ in the labels take the same way through the blocks: what is
written next depends on the locals that are bound, on the blocks written so far and on the
constructs around, and on the stack only in that most forms need it to be empty.

* `Context.pureTest_congr` and its companions — the searches read nothing of a scope but its locals.
* `BranchTest.fold_targets` — folding reads nothing of a test but its targets.
* `Twin` — what the two passes have in common at every point.
* `Piece.Lockstep` — a piece of one pass and that of another one that begin alike.
* `Context.Derives.lockstep`, `Context.code_lockstep` — the two have it in common everywhere.
-/

/-! ### Searches and scopes -/

namespace Context

variable {c : Context} {s s' : Scope}

/-- A block is simulated alone with the locals of the scope. -/
theorem scratch_congr (h : s.locals = s'.locals) (n : Nat) : c.scratch? n s = c.scratch? n s' := by
  unfold scratch? Scope.child
  rw [h]

/-- So it is with its test. -/
theorem pureTest_congr (h : s.locals = s'.locals) (n : Nat) : c.pureTest n s = c.pureTest n s' := by
  unfold pureTest
  simp only [scratch_congr h]

end Context

/-- So it is with a folded chain. -/
theorem BranchTest.fold_congr {c : Context} {s s' : Scope} (h : s.locals = s'.locals)
    (eligible : Nat → Bool) (head : BranchTest) (n : Nat) :
    head.fold c s eligible n = head.fold c s' eligible n := by
  have hwithin : ∀ room (head : BranchTest) chain, head.foldWithin c s eligible room chain
      = head.foldWithin c s' eligible room chain := by
    intro room
    induction room with
    | zero => exact fun _ _ => rfl
    | succ room ih =>
      intro head chain
      simp only [foldWithin, extension?, Context.pureTest_congr h, ih]
  exact hwithin _ _ _

namespace Context

variable {c : Context} {s s' : Scope}

/-- So it is with the arms of a conditional value. -/
theorem valueArm_congr (h : s.locals = s'.locals) (p : Position) (n : Nat) (chain : List Nat) :
    c.valueArm? p s n chain = c.valueArm? p s' n chain := by
  have hwithin : ∀ fuel n chain, c.valueArmWithin? p s fuel n chain
      = c.valueArmWithin? p s' fuel n chain := by
    intro fuel
    induction fuel with
    | zero => exact fun _ _ => rfl
    | succ fuel ih =>
      intro n chain
      simp only [valueArmWithin?, scratch_congr h, pureTest_congr h, BranchTest.fold_congr h, ih]
  exact hwithin _ _ _

/-- So it is with the shape of an arm. -/
theorem armShape_congr (h : s.locals = s'.locals) (n : Nat) :
    c.armShape? s n = c.armShape? s' n := by
  unfold armShape?
  rw [scratch_congr h]

/-- So it is with the test of a loop. -/
theorem loopTest_congr (h : s.locals = s'.locals) (l : Loop) (written : List Nat) :
    c.loopTest? l written s = c.loopTest? l written s' := by
  unfold loopTest?
  simp only [pureTest_congr h, BranchTest.fold_congr h]

end Context

/-! ### Searches and tests -/

namespace BranchTest

variable {c : Context} {s : Scope} {eligible : Nat → Bool} {head head' : BranchTest}

/-- The two blocks that a test leads to. -/
def targets (t : BranchTest) : Nat × Nat := (t.taken, t.fallthrough)

/-- Whether a chain is extended depends on the targets alone. -/
theorem extension_targets (h : head.targets = head'.targets) (chain : List Nat) :
    (head.extension? c s eligible chain).map (fun r => (r.1, r.2.targets))
      = (head'.extension? c s eligible chain).map (fun r => (r.1, r.2.targets)) := by
  obtain ⟨cond, taken, fallthrough⟩ := head
  obtain ⟨cond', taken', fallthrough'⟩ := head'
  obtain ⟨rfl, rfl⟩ := Prod.mk.inj h
  have hfall : ∀ next : BranchTest,
      ((mk cond taken fallthrough).joinFallthrough next).map targets
        = ((mk cond' taken fallthrough).joinFallthrough next).map targets := fun next => by
    unfold joinFallthrough
    split
    · rfl
    · split <;> rfl
  have htaken : ∀ next : BranchTest, ((mk cond taken fallthrough).joinTaken next).map targets
      = ((mk cond' taken fallthrough).joinTaken next).map targets := fun next => by
    unfold joinTaken
    split
    · rfl
    · split <;> rfl
  -- which block joins is told by the targets, and so are the targets of the longer test
  have hjoin : ∀ {join join' : BranchTest → Option BranchTest} (k : Nat) (t : Option BranchTest),
      (∀ next, (join next).map targets = (join' next).map targets) →
        ((t.bind join).map (k, ·)).map (fun r => (r.1, r.2.targets))
          = ((t.bind join').map (k, ·)).map (fun r => (r.1, r.2.targets)) := by
    intro join join' k t hj
    cases t with
    | none => rfl
    | some next =>
      have hnext := hj next
      simp only [Option.bind_some]
      cases hx : join next <;> cases hy : join' next <;> simp_all
  unfold extension?
  simp only [Option.map_or]
  congr 1
  · split
    · exact hjoin _ _ hfall
    · rfl
  · split
    · exact hjoin _ _ htaken
    · rfl

/-- The chain and its targets depend on the targets alone. -/
theorem fold_targets (eligible : Nat → Bool) (h : head.targets = head'.targets) (n : Nat) :
    (head.fold c s eligible n).1.targets = (head'.fold c s eligible n).1.targets ∧
      (head.fold c s eligible n).2 = (head'.fold c s eligible n).2 := by
  have hwithin : ∀ room (head head' : BranchTest) chain, head.targets = head'.targets →
      (head.foldWithin c s eligible room chain).1.targets
          = (head'.foldWithin c s eligible room chain).1.targets ∧
        (head.foldWithin c s eligible room chain).2
          = (head'.foldWithin c s eligible room chain).2 := by
    intro room
    induction room with
    | zero => exact fun _ _ _ h => ⟨h, rfl⟩
    | succ room ih =>
      intro head head' chain h
      have hext : (head.extension? c s eligible chain).map (fun r => (r.1, r.2.targets))
          = (head'.extension? c s eligible chain).map (fun r => (r.1, r.2.targets)) :=
        extension_targets h chain
      rw [foldWithin, foldWithin]
      cases hx : head.extension? c s eligible chain with
      | none =>
        cases hy : head'.extension? c s eligible chain with
        | none => exact ⟨h, rfl⟩
        | some r' => simp [hx, hy] at hext
      | some r =>
        cases hy : head'.extension? c s eligible chain with
        | none => simp [hx, hy] at hext
        | some r' =>
          -- both chains grow by the same block, to tests with the same targets
          obtain ⟨hk, ht⟩ : r.1 = r'.1 ∧ r.2.targets = r'.2.targets := by
            simpa [hx, hy] using hext
          simp only
          rw [hk]
          exact ih _ _ _ ht
  exact hwithin _ _ _ _ h

/-- Tests with the same targets are folded along the same chain. -/
theorem fold_unique {test test' : BranchTest} {chain chain' : List Nat} {n : Nat}
    (hfold : head.fold c s eligible n = (test, chain))
    (hfold' : head'.fold c s eligible n = (test', chain')) (h : head.targets = head'.targets) :
    test.targets = test'.targets ∧ chain = chain' := by
  have hboth := fold_targets (c := c) (s := s) eligible h n
  rw [hfold, hfold'] at hboth
  exact hboth

end BranchTest

/-! ### Collapsed branches -/

namespace Context

variable {c : Context} {p : Position} {s s' : Scope} {m m' : Simulation} {test test' : BranchTest}
  {chain : List Nat}

/-- What a branch does to the written blocks and where control goes on. -/
def outline (form : Collapsed) : List Nat × Option Nat := (form.blocks, form.merge?)

/-- Whether a branch collapses into a value depends on the locals and the targets alone. -/
theorem valueTernary_outline (hs : s.locals = s'.locals) (ht : test.targets = test'.targets) :
    (c.valueTernary? p s test chain).map outline
      = (c.valueTernary? p s' test' chain).map outline := by
  obtain ⟨cond, taken, fallthrough⟩ := test
  obtain ⟨cond', taken', fallthrough'⟩ := test'
  obtain ⟨rfl, rfl⟩ := Prod.mk.inj ht
  unfold valueTernary?
  simp only [valueArm_congr hs]
  cases c.valueArm? p s' taken chain with
  | none => rfl
  | some a =>
    cases c.valueArm? p s' fallthrough chain with
    | none => rfl
    | some b =>
      simp only [Option.bind_eq_bind, Option.bind_some]
      split <;> rfl

/-- Whether a branch collapses into a statement depends on the locals and the targets alone. -/
theorem stmtTernary_outline (hs : s.locals = s'.locals) (ht : test.targets = test'.targets) :
    (c.stmtTernary? s test).map (Option.map outline)
      = (c.stmtTernary? s' test').map (Option.map outline) := by
  obtain ⟨cond, taken, fallthrough⟩ := test
  obtain ⟨cond', taken', fallthrough'⟩ := test'
  obtain ⟨rfl, rfl⟩ := Prod.mk.inj ht
  unfold stmtTernary?
  simp only [armShape_congr hs]
  -- both arms have to be alone and of one kind; the shapes are equal for the two scopes
  cases c.armShape? s' fallthrough with
  | error e => rfl
  | ok fall =>
    cases fall with
    | none => rfl
    | some fall =>
      cases c.armShape? s' taken with
      | error e => cases fall <;> rfl
      | ok taken? =>
        cases fall with
        | assign target value merge =>
          cases taken? with
          | none => rfl
          | some shape =>
            cases shape with
            | assign target' value' merge' =>
              simp only [bind, Except.bind]
              split <;> rfl
            | ret value' => rfl
        | ret value =>
          cases taken? with
          | none => rfl
          | some shape => cases shape <;> rfl

/-- The searches for a collapsed form come to the same result, unless one of them is given up for
    the values that wait on the stack. -/
theorem ternary_outline {form form' : Option Collapsed} (hs : m.scope.locals = m'.scope.locals)
    (ht : test.targets = test'.targets) (h : c.ternary? p m test chain = .ok form)
    (h' : c.ternary? p m' test' chain = .ok form') :
    form.map outline = form'.map outline ∨ (form = none ∧ m.stack.isEmpty = false) ∨
      (form' = none ∧ m'.stack.isEmpty = false) := by
  have hvalue : (c.valueTernary? p m.scope test chain).map outline
      = (c.valueTernary? p m'.scope test' chain).map outline := valueTernary_outline hs ht
  have hstmt : (c.stmtTernary? m.scope test).map (Option.map outline)
      = (c.stmtTernary? m'.scope test').map (Option.map outline) := stmtTernary_outline hs ht
  obtain ⟨cond, taken, fallthrough⟩ := test
  obtain ⟨cond', taken', fallthrough'⟩ := test'
  obtain ⟨rfl, rfl⟩ := Prod.mk.inj ht
  unfold ternary? at h h'
  simp only at h h'
  split at h
  · rename_i heq
    rw [if_pos heq] at h'
    cases h
    cases h'
    exact .inl rfl
  · rename_i hne
    rw [if_neg hne] at h'
    -- the search for a value comes first, and both find one or neither does
    cases hv : c.valueTernary? p m.scope ⟨cond, taken, fallthrough⟩ chain with
    | some v =>
      cases hv' : c.valueTernary? p m'.scope ⟨cond', taken, fallthrough⟩ chain with
      | none => simp [hv, hv'] at hvalue
      | some v' =>
        simp only [hv, hv'] at h h' hvalue
        cases h
        cases h'
        exact .inl hvalue
    | none =>
      cases hv' : c.valueTernary? p m'.scope ⟨cond', taken, fallthrough⟩ chain with
      | some v' => simp [hv, hv'] at hvalue
      | none =>
        simp only [hv] at h
        simp only [hv'] at h'
        -- only on an empty stack do the arms collapse into a statement
        by_cases hm : m.stack.isEmpty = true
        · by_cases hm' : m'.stack.isEmpty = true
          · rw [hm] at h
            rw [hm'] at h'
            split at h
            · rename_i hall
              rw [if_pos hall] at h'
              rw [h, h'] at hstmt
              exact .inl (Except.ok.inj hstmt)
            · rename_i hall
              rw [if_neg hall] at h'
              cases h
              cases h'
              exact .inl rfl
          · rw [Bool.not_eq_true] at hm'
            rw [hm'] at h'
            cases h'
            exact .inr (.inr ⟨rfl, hm'⟩)
        · rw [Bool.not_eq_true] at hm
          rw [hm] at h
          cases h
          exact .inr (.inl ⟨rfl, hm⟩)

/-- Branches that both collapse have the same outline. -/
theorem outline_unique {form form' : Collapsed} (hs : m.scope.locals = m'.scope.locals)
    (ht : test.targets = test'.targets) (h : c.ternary? p m test chain = .ok (some form))
    (h' : c.ternary? p m' test' chain = .ok (some form')) : outline form = outline form' := by
  rcases ternary_outline hs ht h h' with heq | ⟨heq, -⟩ | ⟨heq, -⟩
  · exact Option.some.inj heq
  · cases heq
  · cases heq

/-- Where one branch collapses, the other one does, if no values wait on the stack. -/
theorem ternary_ne_none {form : Collapsed} (hs : m.scope.locals = m'.scope.locals)
    (ht : test.targets = test'.targets) (h : c.ternary? p m test chain = .ok (some form))
    (hempty : m'.stack = []) : c.ternary? p m' test' chain ≠ .ok none := by
  intro h'
  rcases ternary_outline hs ht h h' with heq | ⟨heq, -⟩ | ⟨-, hstack⟩
  · cases heq
  · cases heq
  · rw [hempty] at hstack
    cases hstack

/-- Which arm never comes back is told by the targets. -/
theorem guardedArm_targets (ht : test.targets = test'.targets) :
    c.guardedArm? p test = c.guardedArm? p test' := by
  obtain ⟨cond, taken, fallthrough⟩ := test
  obtain ⟨cond', taken', fallthrough'⟩ := test'
  obtain ⟨rfl, rfl⟩ := Prod.mk.inj ht
  rfl

end Context

/-! ### Two passes at the same point -/

/-- The same blocks have been written, with jumps to the same blocks. -/
structure Progress.Agrees (p q : Progress) : Prop where
  written : p.written = q.written
  targets : p.targets = q.targets

/-- Both passes mark the same blocks. -/
theorem Progress.Agrees.markAll {p q : Progress} (h : p.Agrees q) (ns : List Nat) :
    Agrees { p with written := ns ++ p.written } { q with written := ns ++ q.written } :=
  ⟨congrArg (ns ++ ·) h.written, h.targets⟩

/-- Both passes jump to the same block. -/
theorem Progress.Agrees.addTarget {p q : Progress} (h : p.Agrees q) (n : Nat) :
    Agrees { p with targets := Loop.insertAscending n p.targets }
      { q with targets := Loop.insertAscending n q.targets } :=
  ⟨h.written, congrArg (Loop.insertAscending n) h.targets⟩

/-- The code written by the two passes is in scopes with the same locals. -/
structure Twin (s t : Scope) (p q : Progress) : Prop extends p.Agrees q where
  locals : s.locals = t.locals

/-- Control goes on with the same block. -/
structure TwinOnward (r₁ r₂ : Onward) (p q : Progress) : Prop
    extends Twin r₁.2.scope r₂.2.scope p q where
  next : r₁.1 = r₂.1

namespace Twin

variable {c : Context} {s s' t t' : Scope} {p q : Progress}

/-- Each pass adds a statement. -/
theorem append {x y : Stmt} (h : Twin s t p q) (hs : s.append x = .ok s')
    (ht : t.append y = .ok t') : Twin s' t' p q :=
  ⟨h.toAgrees, by rw [Scope.locals_of_append hs, Scope.locals_of_append ht, h.locals]⟩

/-- Each pass adds a statement, and control goes on with the same block. -/
theorem goesOn {x y : Stmt} {next : Option Nat} {st₁ st₂ : Operands} (h : Twin s t p q)
    (hs : s.append x = .ok s') (ht : t.append y = .ok t') :
    TwinOnward (next, ⟨s', st₁⟩) (next, ⟨t', st₂⟩) p q := ⟨h.append hs ht, rfl⟩

/-- Each pass simulates the same block. -/
theorem run {m₁ m₂ m₁' m₂' : Simulation} {insns : List Insn} (h : Twin m₁.scope m₂.scope p q)
    (h₁ : Simulation.run c.config m₁ insns = .ok m₁')
    (h₂ : Simulation.run c.config m₂ insns = .ok m₂') : Twin m₁'.scope m₂'.scope p q :=
  ⟨h.toAgrees, by rw [Simulation.run_locals h₁, Simulation.run_locals h₂, h.locals]⟩

/-- A label changes neither the locals nor the blocks. -/
theorem labelled {labels labels' : List Nat} {n : Nat} {m₁ m₂ m₁' m₂' : Simulation}
    {p₁ q₁ : Progress} (h : Twin m₁.scope m₂.scope p q) (h₁ : Labelling labels n m₁ p m₁' p₁)
    (h₂ : Labelling labels' n m₂ q m₂' q₁) : Twin m₁'.scope m₂'.scope p₁ q₁ := by
  cases h₁ with
  | none _ =>
    cases h₂ with
    | none _ => exact h
    | placed _ _ happend =>
      exact ⟨⟨h.written, h.targets⟩, h.locals.trans (Scope.locals_of_append happend).symm⟩
  | placed _ _ happend =>
    cases h₂ with
    | none _ => exact ⟨⟨h.written, h.targets⟩, (Scope.locals_of_append happend).trans h.locals⟩
    | placed _ _ happend' => exact ⟨⟨h.written, h.targets⟩, (h.append happend happend').locals⟩

end Twin

/-- The only arm that is written of a branch is told by the targets. -/
theorem OneArm.unique {c : Context} {pos : Position} {n start start' other other' : Nat}
    {t t' : BranchTest} {isTaken isTaken' : Bool} {armStop armStop' : Option Nat}
    (ht : t.targets = t'.targets) (h : OneArm c pos n t isTaken start other armStop)
    (h' : OneArm c pos n t' isTaken' start' other' armStop') :
    start = start' ∧ other = other' ∧ armStop = armStop' := by
  have hguarded := Context.guardedArm_targets (c := c) (p := pos) ht
  cases h with
  | guard hg hleave =>
    cases h' with
    | guard hg' _ =>
      cases hg.symm.trans (hguarded.trans hg')
      exact ⟨rfl, rfl, rfl⟩
    | meet _ hmeet hnone =>
      exact nomatch (hguarded.symm.trans hg).symm.trans (hnone (hleave _ hmeet))
  | meet hchosen hmeet hnone =>
    cases h' with
    | guard hg' hleave => exact nomatch (hguarded.trans hg').symm.trans (hnone (hleave _ hmeet))
    | meet hchosen' hmeet' _ =>
      cases hmeet.symm.trans hmeet'
      obtain ⟨htaken, hfall⟩ := Prod.mk.inj ht
      rw [← htaken, ← hfall] at hchosen'
      -- the arms are told apart by where they meet, or there is only one
      refine ⟨?_, rfl, rfl⟩
      generalize t.taken = taken, t.fallthrough = fallthrough at hchosen hchosen'
      cases hchosen <;> cases hchosen' <;> rfl

/-- A branch with one arm in front of the other target is not one with two arms that meet behind
    them. -/
theorem OneArm.ne_twoArms {c : Context} {pos : Position} {n start other merge : Nat}
    {t t' : BranchTest} {isTaken : Bool} {armStop : Option Nat} (ht : t.targets = t'.targets)
    (h : OneArm c pos n t isTaken start other armStop) (hmeet : c.meeting? pos n = some merge)
    (hguard : c.jump pos merge = .leave → c.guardedArm? pos t' = none)
    (hfall : t'.fallthrough ≠ merge) (htaken : t'.taken ≠ merge) : False := by
  obtain ⟨heq, heq'⟩ := Prod.mk.inj ht
  cases h with
  | guard hg hleave =>
    rw [Context.guardedArm_targets ht, hguard (hleave _ hmeet)] at hg
    cases hg
  | meet hchosen hmeet' _ =>
    cases hmeet.symm.trans hmeet'
    rw [← heq] at htaken
    rw [← heq'] at hfall
    generalize t.taken = taken, t.fallthrough = fallthrough at hchosen htaken hfall
    cases hchosen with
    | taken => exact hfall rfl
    | fallthrough => exact htaken rfl

/-- A branch with one arm has one that never comes back, or its arms meet. -/
theorem OneArm.ne_jump {c : Context} {pos : Position} {n start other : Nat} {t t' : BranchTest}
    {isTaken : Bool} {armStop : Option Nat} (ht : t.targets = t'.targets)
    (h : OneArm c pos n t isTaken start other armStop) (hmeet : c.meeting? pos n = none)
    (hguard : c.guardedArm? pos t' = none) : False := by
  cases h with
  | guard hg _ =>
    rw [Context.guardedArm_targets ht, hguard] at hg
    cases hg
  | meet _ hmeet' _ => exact nomatch hmeet.symm.trans hmeet'

/-- A piece of one pass, and that of another one that begins alike, end alike. -/
def Piece.Lockstep (c : Context) (p p' : Progress) : Piece → Prop
  | .region frames n stop m₁ m₁' => ∀ ⦃labels m₂ m₂' q q'⦄,
    c.Derives labels (.region frames n stop m₂ m₂') q q' → Twin m₁.scope m₂.scope p q →
      Twin m₁'.scope m₂'.scope p' q'
  | .onward frames stop r₁ m₁' => ∀ ⦃labels r₂ m₂' q q'⦄,
    c.Derives labels (.onward frames stop r₂ m₂') q q' → TwinOnward r₁ r₂ p q →
      Twin m₁'.scope m₂'.scope p' q'
  | .entered frames n stop m₁ r₁ => ∀ ⦃labels m₂ r₂ q q'⦄,
    c.Derives labels (.entered frames n stop m₂ r₂) q q' → Twin m₁.scope m₂.scope p q →
      TwinOnward r₁ r₂ p' q'
  | .block frames n stop m₁ r₁ => ∀ ⦃labels m₂ r₂ q q'⦄,
    c.Derives labels (.block frames n stop m₂ r₂) q q' → Twin m₁.scope m₂.scope p q →
      TwinOnward r₁ r₂ p' q'
  | .exit frames n stop t m₁ r₁ => ∀ ⦃labels m₂ r₂ q q'⦄,
    c.Derives labels (.exit frames n stop t m₂ r₂) q q' → Twin m₁.scope m₂.scope p q →
      TwinOnward r₁ r₂ p' q'
  | .branch frames n stop t₁ chain m₁ r₁ => ∀ ⦃labels t₂ m₂ r₂ q q'⦄,
    c.Derives labels (.branch frames n stop t₂ chain m₂ r₂) q q' → t₁.targets = t₂.targets →
      Twin m₁.scope m₂.scope p q → TwinOnward r₁ r₂ p' q'
  | .plain frames n stop t₁ m₁ r₁ => ∀ ⦃labels t₂ m₂ r₂ q q'⦄,
    c.Derives labels (.plain frames n stop t₂ m₂ r₂) q q' → t₁.targets = t₂.targets →
      Twin m₁.scope m₂.scope p q → TwinOnward r₁ r₂ p' q'
  | .inner frames n stop s s' => ∀ ⦃labels t t' q q'⦄,
    c.Derives labels (.inner frames n stop t t') q q' → Twin s t p q → Twin s' t' p' q'
  | .before frames header latch s s' => ∀ ⦃labels t t' q q'⦄,
    c.Derives labels (.before frames header latch t t') q q' → Twin s t p q → Twin s' t' p' q'
  | .arm frames n stop s _ => ∀ ⦃labels t b q q'⦄,
    c.Derives labels (.arm frames n stop t b) q q' → Twin s t p q → p'.Agrees q'
  | .switchArm frames follow next s n _ _ => ∀ ⦃labels t breaks b q q'⦄,
    c.Derives labels (.switchArm frames follow next t n breaks b) q q' → Twin s t p q →
      p'.Agrees q'
  | .arms frames follow s es _ => ∀ ⦃labels t code q q'⦄,
    c.Derives labels (.arms frames follow t es code) q q' → Twin s t p q → p'.Agrees q'

namespace Context

variable {c : Context} {labels : List Nat} {p p' : Progress}

/-- A loop with a counter is in a scope with the same locals. -/
theorem promoteFor_locals {enabled : Bool} {scope scope' body : Scope} {cond : Cond} {s : Stmt}
    (h : promoteFor enabled scope cond body = .ok (s, scope')) : scope'.locals = scope.locals := by
  cases promoteFor_inv h with
  | counting _ _ _ _ _ _ hlocals => exact hlocals
  | plain _ hscope => rw [hscope]

/-- Pieces that begin alike end alike. By induction on the first of them: what it has come about by
    is what the other one comes about by, since nothing that they decide on differs. -/
theorem Derives.lockstep {piece : Piece} (h : c.Derives labels piece p p') :
    piece.Lockstep c p p' := by
  induction h with
  | stop hjump =>
    intro _ _ _ _ _ h' hpq
    -- both passes decide from the written blocks, which are the same
    rw [hpq.written] at hjump
    cases h' with
    | stop _ => exact hpq
    | nextRound hjump' _ | leave hjump' _ | goto hjump' _ _ _ | enter hjump' _ _ _ =>
      exact nomatch hjump.symm.trans hjump'
  | nextRound hjump happend =>
    intro _ _ _ _ _ h' hpq
    rw [hpq.written] at hjump
    cases h' with
    | nextRound _ happend' => exact hpq.append happend happend'
    | stop hjump' | leave hjump' _ | goto hjump' _ _ _ | enter hjump' _ _ _ =>
      exact nomatch hjump.symm.trans hjump'
  | leave hjump happend =>
    intro _ _ _ _ _ h' hpq
    rw [hpq.written] at hjump
    cases h' with
    | leave _ happend' => exact hpq.append happend happend'
    | stop hjump' | nextRound hjump' _ | goto hjump' _ _ _ | enter hjump' _ _ _ =>
      exact nomatch hjump.symm.trans hjump'
  | goto hjump _ _ happend =>
    intro _ _ _ _ _ h' hpq
    rw [hpq.written] at hjump
    cases h' with
    | goto _ _ _ happend' =>
      exact ⟨hpq.toAgrees.addTarget _, (hpq.append happend happend').locals⟩
    | stop hjump' | nextRound hjump' _ | leave hjump' _ | enter hjump' _ _ _ =>
      exact nomatch hjump.symm.trans hjump'
  | enter hjump hlabel _ _ ihcode ihrest =>
    intro _ _ _ _ _ h' hpq
    rw [hpq.written] at hjump
    cases h' with
    | enter _ hlabel' hcode' hrest' =>
      exact ihrest hrest' (ihcode hcode' (hpq.labelled hlabel hlabel'))
    | stop hjump' | nextRound hjump' _ | leave hjump' _ | goto hjump' _ _ _ =>
      exact nomatch hjump.symm.trans hjump'
  | done =>
    intro _ _ _ _ _ h' hpq
    cases h' with
    | done => exact hpq.toTwin
    | next _ => exact nomatch hpq.next
  -- whether there is a block to go on with is part of what is alike
  | next _ ih =>
    intro _ _ _ _ _ h' hpq
    cases h' with
    | done => exact nomatch hpq.next
    | next h' =>
      cases hpq.next
      exact ih h' hpq.toTwin
  -- the other pass finds no loop to begin either
  | here hloop _ ih =>
    intro _ _ _ _ _ h' hpq
    cases h' with
    | here _ h' => exact ih h' hpq
    | whileLoop hl hframes _ _ _ _ _ _ | doLoop _ hl hframes _ _ _ _ _ _ _ _ _ _
    | endless hl hframes _ _ _ _ _ _ _ _ _ => exact nomatch (hloop _ hl).symm.trans hframes
  -- the forms of loops are tried in turn, so a form of the other pass is one that failed here
  | whileLoop hl hframes hempty hform htest _ hpromote happend ih =>
    intro _ _ _ _ _ h' hpq
    rw [hpq.written, loopTest_congr hpq.locals] at htest
    cases h' with
    | here hloop _ => exact nomatch (hloop _ hl).symm.trans hframes
    | whileLoop hl' _ _ _ htest' hbody' hpromote' happend' =>
      cases hl.symm.trans hl'
      cases htest.symm.trans htest'
      have hbody := ih hbody' ⟨hpq.toAgrees.markAll _, hpq.locals⟩
      have hlocals := (promoteFor_locals hpromote).trans
        (hpq.locals.trans (promoteFor_locals hpromote').symm)
      exact Twin.goesOn ⟨hbody.toAgrees, hlocals⟩ happend happend'
    | doLoop _ hl' _ _ hfirst _ _ _ _ _ _ _ _ | endless hl' _ _ hfirst _ _ _ _ _ _ _ =>
      cases hl.symm.trans hl'
      exact nomatch (hfirst hform).symm.trans htest
  | doLoop _ hl hframes _ hfirst hform htest _ _ _ _ _ happend ih =>
    intro _ _ _ _ _ h' hpq
    rw [hpq.written, loopTest_congr hpq.locals] at hfirst
    cases h' with
    | here hloop _ => exact nomatch (hloop _ hl).symm.trans hframes
    | whileLoop hl' _ _ hform' htest' _ _ _ =>
      cases hl.symm.trans hl'
      exact nomatch (hfirst hform').symm.trans htest'
    | doLoop _ hl' _ _ _ _ htest' hbefore' _ _ _ _ happend' =>
      cases hl.symm.trans hl'
      cases htest.symm.trans htest'
      have hbody := ih hbefore' ⟨hpq.toAgrees, hpq.locals⟩
      exact Twin.goesOn ⟨hbody.toAgrees.markAll _, hpq.locals⟩ happend happend'
    | endless hl' _ _ _ hlast _ _ _ _ _ _ =>
      cases hl.symm.trans hl'
      exact nomatch (hlast hform).symm.trans htest
  | endless hl hframes _ hfirst hlast _ _ _ _ _ happend ihblock ihrest =>
    intro _ _ _ _ _ h' hpq
    rw [hpq.written, loopTest_congr hpq.locals] at hfirst
    cases h' with
    | here hloop _ => exact nomatch (hloop _ hl).symm.trans hframes
    | whileLoop hl' _ _ hform' htest' _ _ _ =>
      cases hl.symm.trans hl'
      exact nomatch (hfirst hform').symm.trans htest'
    | doLoop _ hl' _ _ _ hform' htest' _ _ _ _ _ _ =>
      cases hl.symm.trans hl'
      exact nomatch (hlast hform').symm.trans htest'
    | endless hl' _ _ _ _ hblock' hrest' _ _ _ happend' =>
      cases hl.symm.trans hl'
      have hbody := ihrest hrest' (ihblock hblock' ⟨hpq.toAgrees, hpq.locals⟩)
      exact Twin.goesOn ⟨hbody.toAgrees, hpq.locals⟩ happend happend'
  | block hb hrun _ ih =>
    intro _ _ _ _ _ h' hpq
    cases h' with
    | block hb' hrun' hexit' =>
      cases hb.symm.trans hb'
      exact ih hexit' (Twin.run ⟨hpq.toAgrees.markAll [_], hpq.locals⟩ hrun hrun')
  | exitGoto =>
    intro _ _ _ _ _ h' hpq
    cases h' with
    | exitGoto => exact ⟨hpq, rfl⟩
  | exitRet happend =>
    intro _ _ _ _ _ h' hpq
    cases h' with
    | exitRet happend' => exact hpq.goesOn happend happend'
  | exitValue _ happend =>
    intro _ _ _ _ _ h' hpq
    cases h' with
    | exitValue _ happend' => exact hpq.goesOn happend happend'
  | exitThrow _ happend =>
    intro _ _ _ _ _ h' hpq
    cases h' with
    | exitThrow _ happend' => exact hpq.goesOn happend happend'
  | exitBranch _ hfold _ ih =>
    intro _ _ _ _ _ h' hpq
    cases h' with
    | exitBranch _ hfold' hbranch' =>
      -- the conditions may differ, but folding looks at the targets alone
      rw [hpq.written, BranchTest.fold_congr hpq.locals] at hfold
      obtain ⟨ht, rfl⟩ := BranchTest.fold_unique hfold hfold' rfl
      exact ih hbranch' ht ⟨hpq.toAgrees.markAll _, hpq.locals⟩
  | exitSwitch _ hown _ happend ih =>
    intro _ _ _ _ _ h' hpq
    cases h' with
    | exitSwitch _ hown' harms' happend' =>
      rw [hpq.written] at hown
      cases hown.trans hown'.symm
      exact Twin.goesOn ⟨ih harms' hpq, hpq.locals⟩ happend happend'
  -- equal outlines write the same blocks and go on alike, though the values may differ
  | collapsedValue hon hform =>
    intro _ _ _ _ _ _ h' ht hpq
    rw [hpq.written] at hform
    cases h' with
    | collapsedValue _ hform' =>
      obtain ⟨rfl, hnext⟩ := Prod.mk.inj (outline_unique hpq.locals ht hform hform')
      exact ⟨⟨hpq.toAgrees.markAll _, hpq.locals⟩, hnext⟩
    | collapsedStmt _ hform' happend' =>
      obtain ⟨rfl, hnext⟩ := Prod.mk.inj (outline_unique hpq.locals ht hform hform')
      have hlocals := hpq.locals.trans (Scope.locals_of_append happend').symm
      exact ⟨⟨hpq.toAgrees.markAll _, hlocals⟩, hnext⟩
    | plain hnone hempty _ => exact absurd (hnone hon) (ternary_ne_none hpq.locals ht hform hempty)
  | collapsedStmt hon hform happend =>
    intro _ _ _ _ _ _ h' ht hpq
    rw [hpq.written] at hform
    cases h' with
    | collapsedValue _ hform' =>
      obtain ⟨rfl, hnext⟩ := Prod.mk.inj (outline_unique hpq.locals ht hform hform')
      exact ⟨⟨hpq.toAgrees.markAll _, (Scope.locals_of_append happend).trans hpq.locals⟩, hnext⟩
    | collapsedStmt _ hform' happend' =>
      obtain ⟨rfl, hnext⟩ := Prod.mk.inj (outline_unique hpq.locals ht hform hform')
      exact ⟨⟨hpq.toAgrees.markAll _, (hpq.append happend happend').locals⟩, hnext⟩
    | plain hnone hempty _ => exact absurd (hnone hon) (ternary_ne_none hpq.locals ht hform hempty)
  -- over an empty stack no search is given up, so the other pass found nothing either
  | plain hnone hempty _ ih =>
    intro _ _ _ _ _ _ h' ht hpq
    rw [hpq.written] at hnone
    cases h' with
    | collapsedValue hon hform' | collapsedStmt hon hform' _ =>
      exact absurd (hnone hon) (ternary_ne_none hpq.locals.symm ht.symm hform' hempty)
    | plain _ _ h' => exact ih h' ht hpq
  | oneArm _ hside _ happend ih =>
    intro _ _ _ _ _ _ h' ht hpq
    rw [hpq.written] at hside
    cases h' with
    | oneArm _ hside' harm' happend' =>
      obtain ⟨rfl, rfl, rfl⟩ := hside.unique ht hside'
      exact Twin.goesOn ⟨ih harm' hpq, hpq.locals⟩ happend happend'
    | twoArms hmeet hguard hfall htaken _ _ _ =>
      exact (hside.ne_twoArms ht hmeet hguard hfall htaken).elim
    | jump hmeet hguard _ _ => exact (hside.ne_jump ht hmeet hguard).elim
  | twoArms hmeet hguard hfall htaken _ _ happend iharm ihelse =>
    intro _ _ _ _ _ _ h' ht hpq
    rw [hpq.written] at hmeet hguard
    cases h' with
    | oneArm _ hside' _ _ => exact (hside'.ne_twoArms ht.symm hmeet hguard hfall htaken).elim
    | twoArms hmeet' _ _ _ harm' helse' happend' =>
      cases hmeet.symm.trans hmeet'
      obtain ⟨htaken, hfall⟩ := Prod.mk.inj ht
      rw [← hfall] at harm'
      rw [← htaken] at helse'
      have harm := iharm harm' hpq
      exact Twin.goesOn ⟨ihelse helse' ⟨harm, hpq.locals⟩, hpq.locals⟩ happend happend'
    | jump hmeet' _ _ _ => exact nomatch hmeet.symm.trans hmeet'
  | jump hmeet hguard _ happend =>
    intro _ _ _ _ _ _ h' ht hpq
    rw [hpq.written] at hmeet hguard
    cases h' with
    | oneArm _ hside' _ _ => exact (hside'.ne_jump ht.symm hmeet hguard).elim
    | twoArms hmeet' _ _ _ _ _ _ => exact nomatch hmeet.symm.trans hmeet'
    | jump _ _ _ happend' =>
      obtain ⟨htaken, hfall⟩ := Prod.mk.inj ht
      rw [← htaken, ← hfall]
      exact Twin.goesOn ⟨hpq.toAgrees.addTarget _, hpq.locals⟩ happend happend'
  | inner _ _ ih =>
    intro _ _ _ _ _ h' hpq
    cases h' with
    | inner h' _ => exact ih h' hpq
  | arm _ _ ih =>
    intro _ _ _ _ _ h' hpq
    cases h' with
    | arm h' _ => exact (ih h' ⟨hpq.toAgrees, hpq.locals⟩).toAgrees
  | latchOnly hlatch =>
    intro _ _ _ _ _ h' hpq
    cases h' with
    | latchOnly _ => exact hpq
    | before hne _ => exact absurd hlatch hne
  | before hne _ ih =>
    intro _ _ _ _ _ h' hpq
    cases h' with
    | latchOnly hlatch => exact absurd hlatch hne
    | before _ h' => exact ih h' hpq
  | armEmpty hfollow _ =>
    intro _ _ _ _ _ _ h' hpq
    cases h' with
    | armEmpty _ _ => exact hpq.toAgrees
    | armCode hne _ _ _ => exact absurd hfollow hne
  | armCode hne _ _ _ ih =>
    intro _ _ _ _ _ _ h' hpq
    cases h' with
    | armEmpty hfollow _ => exact absurd hfollow hne
    | armCode _ h' _ _ => exact (ih h' ⟨hpq.toAgrees, hpq.locals⟩).toAgrees
  | armsNil =>
    intro _ _ _ _ _ h' hpq
    cases h' with
    | armsNil => exact hpq.toAgrees
  | armsCons _ _ iharm ihrest =>
    intro _ _ _ _ _ h' hpq
    cases h' with
    | armsCons harm' hrest' => exact ihrest hrest' ⟨iharm harm' hpq, hpq.locals⟩

/-! ### Passes -/

/-- The targets of the jumps in flat code are those of the blocks. -/
theorem Flattens.targets_unique {ns ts us : List Nat} {s s' t t' : Scope}
    (h : c.Flattens ns s s' ts) (h' : c.Flattens ns t t' us) : ts = us := by
  induction h generalizing t t' us with
  | nil =>
    cases h'
    rfl
  | cons hb _ _ _ _ _ ih =>
    cases h' with
    | cons hb' _ _ _ _ hrest' =>
      cases hb.symm.trans hb'
      rw [ih hrest']

/-- Behind structured code that has written the same blocks the same ones are missing. -/
theorem Completes.lockstep {s s' t t' : Scope} {q q' : Progress} (h : c.Completes s p s' p')
    (h' : c.Completes t q t' q') (hpq : p.Agrees q) : p'.Agrees q' := by
  -- what is left to write flat is told by what has been written
  have hmissing : c.unwritten p = c.unwritten q := by rw [unwritten, unwritten, hpq.written]
  cases h with
  | dropped hrest _ =>
    cases h' with
    | dropped _ _ => exact hpq
    | flat hrest' hon _ =>
      rcases hrest with hnone | hoff
      · exact absurd (hmissing.symm.trans hnone) hrest'
      · exact absurd (hoff.symm.trans hon) Bool.false_ne_true
  | flat hrest hon hcode =>
    cases h' with
    | dropped hrest' _ =>
      rcases hrest' with hnone | hoff
      · exact absurd (hmissing.trans hnone) hrest
      · exact absurd (hoff.symm.trans hon) Bool.false_ne_true
    | flat _ _ hcode' =>
      rw [← hmissing] at hcode'
      refine ⟨?_, ?_⟩
      · show c.unwritten p ++ p.written = c.unwritten q ++ q.written
        rw [hmissing, hpq.written]
      · show _ = List.foldl _ q.targets _
        rw [hcode.targets_unique hcode', hpq.targets]

/-- Two passes over the same graph jump to the same blocks, whatever labels they place. -/
theorem code_lockstep {labels' : List Nat} {s t t' : Scope}
    (h : (c.code labels s).run {} = .ok (t, p)) (h' : (c.code labels' s).run {} = .ok (t', p')) :
    p.Agrees p' := by
  obtain ⟨m, q, hregion, htail⟩ := code_derives t p h
  obtain ⟨m', q', hregion', htail'⟩ := code_derives t' p' h'
  exact htail.lockstep htail' (hregion.lockstep hregion' ⟨⟨rfl, rfl⟩, rfl⟩).toAgrees

end Context

end Restructure
