import Restructure.Proofs.Simulation.Edits
import Restructure.Proofs.Simulation.Machine

namespace Restructure

/-!
# Stages — a run of straight-line code cut at its idioms

* `Insn.isStraight` — the instructions that have a meaning on machines.
* `Simulation.Stage` — a part of a run: one instruction, or two that are simulated together.
* `Simulation.stages` — the parts of a run.
* `Simulation.stages_of_runAfter` — they follow one another and take all instructions.
* `Simulation.runAfter_of_stages` — the instructions of the first parts are simulated in the same
  way when no others follow.
-/

/-- The instructions of straight-line code. -/
def Insn.isStraight : Insn → Bool
  | .const _ | .load _ _ | .store _ _ | .increment _ _ | .getStatic _ | .putStatic _ | .dup | .pop
  | .swap => true
  | .binary _ t => t == Descriptor.int
  | .invoke dispatch _ => dispatch == .static
  | _ => false

namespace Simulation

variable {config : Config} {m m' : Simulation}

/-! ### Stages -/

/-- A part of a run: the instructions that are simulated together and the states around them. -/
structure Stage where
  before : Simulation
  taken : List Insn
  after : Simulation

/-- The statement of an increment will be taken back by the read behind it. -/
def isLent (config : Config) (m : Simulation) (prev : Option Insn) (insn next : Insn) : Bool :=
  match insn, next with
  | .increment slot _, .load slot' _ =>
    config.increments && slot == slot' && (m.justRead? prev slot).isNone
  | _, _ => false

/-- The parts of a run behind `prev`. An instruction that takes in the next one is one part with
    it, and so is an increment with the read that takes its statement back. -/
def stages (config : Config) (prev : Option Insn) (m : Simulation) : List Insn → List Stage
  | [] => []
  | [insn] =>
    match step config m prev insn none with
    | .ok out => [⟨m, [insn], out.state⟩]
    | .error _ => []
  | insn :: next :: rest =>
    match step config m prev insn (some next) with
    | .ok out =>
      if out.tookNext then ⟨m, [insn, next], out.state⟩ :: stages config (some next) out.state rest
      else if isLent config m prev insn next then
        match step config out.state (some insn) next rest.head? with
        | .ok out' => ⟨m, [insn, next], out'.state⟩ :: stages config (some next) out'.state rest
        | .error _ => []
      else ⟨m, [insn], out.state⟩ :: stages config (some insn) out.state (next :: rest)
    | .error _ => []

/-- The ways in which a part of a run comes about. -/
inductive Stage.Arises (config : Config) : Stage → Prop
  | alone {m : Simulation} {prev next : Option Insn} {insn : Insn} {out : Outcome}
      (h : step config m prev insn next = .ok out) (hnext : out.tookNext = false) :
      Arises config ⟨m, [insn], out.state⟩
  | withNext {m : Simulation} {prev : Option Insn} {insn next : Insn} {out : Outcome}
      (h : step config m prev insn (some next) = .ok out) (hnext : out.tookNext = true) :
      Arises config ⟨m, [insn, next], out.state⟩
  | lent {m : Simulation} {prev next' : Option Insn} {insn next : Insn} {out out' : Outcome}
      (h : step config m prev insn (some next) = .ok out)
      (hlent : isLent config m prev insn next = true)
      (h' : step config out.state (some insn) next next' = .ok out') :
      Arises config ⟨m, [insn, next], out'.state⟩

/-- The parts lead from one state to the other. -/
def Chained (m : Simulation) (gs : List Stage) (m' : Simulation) : Prop :=
  match gs with
  | [] => m = m'
  | g :: gs => m = g.before ∧ Chained g.after gs m'

/-! ### The next instruction -/

/-- An instruction of straight-line code takes in the next one only if it is a copy. -/
theorem eq_dup_of_tookNext {prev next : Option Insn} {insn : Insn} {out : Outcome}
    (hi : insn.isStraight = true) (h : step config m prev insn next = .ok out)
    (hnext : out.tookNext = true) : insn = .dup := by
  cases insn with
  | dup => rfl
  | const _ | getStatic _ =>
    cases h
    cases hnext
  | store _ _ =>
    obtain ⟨⟨value, st⟩, _, h⟩ := Except.bind_eq_ok.1 h
    obtain ⟨⟨v, m₁⟩, _, h⟩ := Except.bind_eq_ok.1 h
    obtain ⟨m₂, _, rfl⟩ := Except.map_eq_ok.1 h
    cases hnext
  | putStatic _ =>
    obtain ⟨⟨value, st⟩, _, h⟩ := Except.bind_eq_ok.1 h
    obtain ⟨m₁, _, rfl⟩ := Except.map_eq_ok.1 h
    cases hnext
  | load _ _ | increment _ _ | binary _ _ | invoke _ _ | pop | swap =>
    obtain ⟨m₁, _, rfl⟩ := Except.map_eq_ok.1 h
    cases hnext
  | _ => cases hi

/-- What a copy does: a value without effects is pushed again, one with effects is stored. -/
theorem dup_cases {next : Option Insn} {out : Outcome} (h : dup config m next = .ok out) :
    (out.tookNext = false ∧ out.state.scope = m.scope ∧
      ∃ o st, m.stack = o :: st ∧ out.state.stack = o :: o :: st ∧
        ∀ e, o = .value e → e.hasEffects = false) ∨
    (out.tookNext = true ∧ ∃ e st target m₁ m₂, m.stack = .value e :: st ∧
      Simulation.storeTarget? { m with stack := st } next = .ok (some (target, m₁)) ∧
      assign config m₁ target e = .ok m₂ ∧ out.state = m₂.pushOn m₂.stack target.read) := by
  obtain ⟨⟨o, st⟩, hpop, h⟩ := Except.bind_eq_ok.1 h
  have hstack : m.stack = o :: st := by
    cases hm : m.stack with
    | nil =>
      rw [hm] at hpop
      cases hpop
    | cons o' st' =>
      rw [hm] at hpop
      cases hpop
      rfl
  simp only at h
  split at h
  · rename_i e
    split at h
    · obtain ⟨target?, htarget, h⟩ := Except.bind_eq_ok.1 h
      split at h
      · rename_i target m₁
        obtain ⟨m₂, hm₂, h⟩ := Except.bind_eq_ok.1 h
        cases h
        exact .inr ⟨rfl, e, st, target, m₁, m₂, hstack, htarget, hm₂, rfl⟩
      · cases h
    · rename_i heffects
      cases h
      refine .inl ⟨rfl, rfl, _, st, hstack, rfl, fun e' he => ?_⟩
      cases he
      simpa using heffects
  · cases h
    refine .inl ⟨rfl, rfl, _, st, hstack, rfl, fun e' he => ?_⟩
    cases he

/-- With nothing behind it no instruction takes one in. -/
theorem tookNext_of_none {prev : Option Insn} {insn : Insn} {out : Outcome}
    (hi : insn.isStraight = true) (h : step config m prev insn none = .ok out) :
    out.tookNext = false := by
  by_contra hnext
  have htook : out.tookNext = true := by simpa using hnext
  obtain rfl := eq_dup_of_tookNext hi h htook
  rcases dup_cases h with ⟨hfalse, _⟩ | ⟨_, e, st, target, m₁, m₂, _, htarget, _⟩
  · exact hnext hfalse
  · cases htarget

/-- An instruction that stands for itself does the same whatever is behind it. -/
theorem step_of_alone {prev next : Option Insn} {insn : Insn} {out : Outcome}
    (hi : insn.isStraight = true) (h : step config m prev insn next = .ok out)
    (hnext : out.tookNext = false) (next' : Option Insn) :
    step config m prev insn next' = .ok out := by
  cases insn with
  | dup =>
    obtain ⟨⟨o, st⟩, hpop, h⟩ := Except.bind_eq_ok.1 h
    refine Except.bind_eq_ok.2 ⟨(o, st), hpop, ?_⟩
    cases o with
    | uninitialized _ => exact h
    | value e =>
      simp only at h ⊢
      split at h
      · obtain ⟨target?, _, h⟩ := Except.bind_eq_ok.1 h
        split at h
        · obtain ⟨m₁, _, h⟩ := Except.bind_eq_ok.1 h
          cases h
          cases hnext
        · cases h
      · rename_i heffects
        rw [if_neg heffects]
        exact h
  | const _ | load _ _ | store _ _ | increment _ _ | getStatic _ | putStatic _ | binary _ _
  | invoke _ _ | pop | swap => exact h
  | _ => cases hi

/-! ### Runs -/

/-- One step, and the run of what is left. -/
theorem runAfter_cons (prev : Option Insn) (m : Simulation) (insn : Insn) (rest : List Insn) :
    runAfter config prev m (insn :: rest) = (do
      m.checkOperands insn
      let out ← step config m prev insn rest.head?
      if out.tookNext then runAfter config rest.head? out.state rest.tail
      else runAfter config (some insn) out.state rest) := by
  cases rest with
  | nil =>
    rw [runAfter]
    congr 1
    funext _
    congr 1
    funext out
    split
    · rfl
    · rfl
  | cons next rest => rfl

/-- A run goes on behind a step that succeeds. -/
theorem runAfter_of_step {prev : Option Insn} {insn : Insn} (rest : List Insn) {out : Outcome}
    (hout : step config m prev insn rest.head? = .ok out) :
    runAfter config prev m (insn :: rest) = .ok m' ↔
      m.checkOperands insn = .ok () ∧
        (if out.tookNext then runAfter config rest.head? out.state rest.tail
          else runAfter config (some insn) out.state rest) = .ok m' := by
  rw [runAfter_cons, Except.bind_eq_ok]
  constructor
  · rintro ⟨u, hu, h⟩
    obtain ⟨out', hout', h⟩ := Except.bind_eq_ok.1 h
    rw [hout] at hout'
    cases hout'
    exact ⟨hu, h⟩
  · rintro ⟨hu, h⟩
    exact ⟨(), hu, Except.bind_eq_ok.2 ⟨out, hout, h⟩⟩

/-- A run does not succeed if its first step fails. -/
theorem runAfter_ne_of_step {prev : Option Insn} {insn : Insn} (rest : List Insn) {e : Error}
    (hout : step config m prev insn rest.head? = .error e) :
    runAfter config prev m (insn :: rest) ≠ .ok m' := by
  intro h
  rw [runAfter_cons] at h
  obtain ⟨_, _, h⟩ := Except.bind_eq_ok.1 h
  obtain ⟨out, hout', _⟩ := Except.bind_eq_ok.1 h
  rw [hout] at hout'
  cases hout'

/-- A read never takes in the next instruction. -/
theorem tookNext_of_isLent {prev prev' next' : Option Insn} {insn next : Insn} {out : Outcome}
    (hlent : isLent config m prev insn next = true)
    (h : step config m' prev' next next' = .ok out) : out.tookNext = false := by
  unfold isLent at hlent
  split at hlent
  · obtain ⟨m₁, _, rfl⟩ := Except.map_eq_ok.1 h
    rfl
  · cases hlent

/-- The parts of a run follow one another and take all instructions. -/
theorem stages_of_runAfter {prev : Option Insn} {insns : List Insn}
    (hs : ∀ i ∈ insns, i.isStraight = true) (h : runAfter config prev m insns = .ok m') :
    Chained m (stages config prev m insns) m' ∧
      (stages config prev m insns).flatMap Stage.taken = insns ∧
      ∀ g ∈ stages config prev m insns, g.Arises config := by
  fun_induction stages config prev m insns with
  | case1 =>
    cases h
    exact ⟨rfl, rfl, by simp⟩
  -- a last instruction has nothing to take
  | case2 prev m insn out hout =>
    have hnext := tookNext_of_none (hs insn (by simp)) hout
    obtain ⟨_, h⟩ := (runAfter_of_step _ hout).1 h
    rw [hnext] at h
    cases h
    refine ⟨⟨rfl, rfl⟩, rfl, ?_⟩
    simpa using Stage.Arises.alone hout hnext
  | case3 prev m insn _ hout => exact absurd h (runAfter_ne_of_step _ hout)
  | case4 prev m insn next rest out hout htook ih =>
    obtain ⟨_, h⟩ := (runAfter_of_step (next :: rest) hout).1 h
    rw [if_pos htook] at h
    obtain ⟨hchain, htaken, harises⟩ := ih (fun i hi => hs i (by simp_all)) h
    refine ⟨⟨rfl, hchain⟩, by simp [htaken], ?_⟩
    simpa using ⟨Stage.Arises.withNext hout htook, harises⟩
  -- an increment and the read that takes its statement back are one part
  | case5 prev m insn next rest out hout htook hlent out' hout' ih =>
    obtain ⟨_, h⟩ := (runAfter_of_step (next :: rest) hout).1 h
    rw [if_neg htook] at h
    obtain ⟨_, h⟩ := (runAfter_of_step _ hout').1 h
    rw [tookNext_of_isLent hlent hout'] at h
    obtain ⟨hchain, htaken, harises⟩ := ih (fun i hi => hs i (by simp_all)) h
    refine ⟨⟨rfl, hchain⟩, by simp [htaken], ?_⟩
    simpa using ⟨Stage.Arises.lent hout hlent hout', harises⟩
  | case6 prev m insn next rest out hout htook hlent _ hout' =>
    obtain ⟨_, h⟩ := (runAfter_of_step (next :: rest) hout).1 h
    rw [if_neg htook] at h
    exact absurd h (runAfter_ne_of_step _ hout')
  | case7 prev m insn next rest out hout htook hlent ih =>
    obtain ⟨_, h⟩ := (runAfter_of_step (next :: rest) hout).1 h
    rw [if_neg htook] at h
    obtain ⟨hchain, htaken, harises⟩ := ih (fun i hi => hs i (by simp_all)) h
    refine ⟨⟨rfl, hchain⟩, by simp [htaken], ?_⟩
    simpa using ⟨Stage.Arises.alone hout (by simpa using htook), harises⟩
  | case8 prev m insn next rest _ hout =>
    exact absurd h (runAfter_ne_of_step (next :: rest) hout)

/-- The instructions of the first parts of a run lead to the state behind these parts when no
    others follow. -/
theorem runAfter_of_stages {prev : Option Insn} {insns : List Insn} {gs gs' : List Stage}
    {g : Stage} (hs : ∀ i ∈ insns, i.isStraight = true)
    (h : runAfter config prev m insns = .ok m')
    (hg : stages config prev m insns = gs ++ g :: gs') :
    runAfter config prev m ((gs ++ [g]).flatMap Stage.taken) = .ok g.after := by
  fun_induction stages config prev m insns generalizing gs with
  | case1 => simp at hg
  | case2 prev m insn out hout =>
    have hnext := tookNext_of_none (hs insn (by simp)) hout
    obtain ⟨hcheck, _⟩ := (runAfter_of_step _ hout).1 h
    cases gs with
    | nil =>
      cases hg
      refine (runAfter_of_step _ hout).2 ⟨hcheck, ?_⟩
      rw [hnext]
      rfl
    | cons g' gs => simp at hg
  | case3 prev m insn _ hout => exact absurd h (runAfter_ne_of_step _ hout)
  | case4 prev m insn next rest out hout htook ih =>
    obtain ⟨hcheck, h⟩ := (runAfter_of_step (next :: rest) hout).1 h
    rw [if_pos htook] at h
    cases gs with
    | nil =>
      cases hg
      refine (runAfter_of_step _ hout).2 ⟨hcheck, ?_⟩
      rw [if_pos htook]
      rfl
    | cons g' gs =>
      obtain ⟨rfl, htail⟩ := List.cons.inj hg
      refine (runAfter_of_step _ hout).2 ⟨hcheck, ?_⟩
      rw [if_pos htook]
      exact ih (fun i hi => hs i (by simp_all)) h htail
  | case5 prev m insn next rest out hout htook hlent out' hout' ih =>
    obtain ⟨hcheck, h⟩ := (runAfter_of_step (next :: rest) hout).1 h
    rw [if_neg htook] at h
    obtain ⟨hcheck', h⟩ := (runAfter_of_step _ hout').1 h
    -- an increment and its read are one part, and the read does not look at what follows it
    have hread := tookNext_of_isLent hlent hout'
    rw [hread] at h
    have hstep := step_of_alone (hs next (by simp)) hout' hread
    cases gs with
    | nil =>
      cases hg
      refine (runAfter_of_step _ hout).2 ⟨hcheck, ?_⟩
      rw [if_neg htook]
      refine (runAfter_of_step _ (hstep _)).2 ⟨hcheck', ?_⟩
      rw [hread]
      rfl
    | cons g' gs =>
      obtain ⟨rfl, htail⟩ := List.cons.inj hg
      refine (runAfter_of_step _ hout).2 ⟨hcheck, ?_⟩
      rw [if_neg htook]
      refine (runAfter_of_step _ (hstep _)).2 ⟨hcheck', ?_⟩
      rw [hread]
      exact ih (fun i hi => hs i (by simp_all)) h htail
  | case6 prev m insn next rest out hout htook hlent _ hout' =>
    obtain ⟨_, h⟩ := (runAfter_of_step (next :: rest) hout).1 h
    rw [if_neg htook] at h
    exact absurd h (runAfter_ne_of_step _ hout')
  | case7 prev m insn next rest out hout htook hlent ih =>
    obtain ⟨hcheck, h⟩ := (runAfter_of_step (next :: rest) hout).1 h
    rw [if_neg htook] at h
    -- the instruction did not look at its successor, so it does the same at the end of the list
    have hstep := step_of_alone (hs insn (by simp)) hout (by simpa using htook)
    cases gs with
    | nil =>
      cases hg
      refine (runAfter_of_step _ (hstep _)).2 ⟨hcheck, ?_⟩
      rw [if_neg htook]
      rfl
    | cons g' gs =>
      obtain ⟨rfl, htail⟩ := List.cons.inj hg
      refine (runAfter_of_step _ (hstep _)).2 ⟨hcheck, ?_⟩
      rw [if_neg htook]
      exact ih (fun i hi => hs i (by simp_all)) h htail
  | case8 prev m insn next rest _ hout =>
    exact absurd h (runAfter_ne_of_step (next :: rest) hout)

end Simulation

end Restructure
