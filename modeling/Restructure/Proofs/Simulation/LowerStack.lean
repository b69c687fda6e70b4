import Restructure.Proofs.Simulation.Products

namespace Restructure

/-!
# The lower stack — what a simulation leaves alone

Instructions take their operands from the top of the stack, and what lies below the operands stays.
There are two exceptions: a constructor also finishes a copy of its object right below, and a store
into an array also becomes part of the same array right below.

* `Insn.staysAbove` — by the stack effects, no instruction pops an entry up to a height.
* `Insn.leavesAlone` — the same, but only what is pushed for sure is counted.
* `Simulation.Turn.completed?` — the entry that a step changes below its operands.
* `Simulation.frames_of_makes` — a step changes no other entry.
* `Simulation.lower_stack_of_run` — a run changes the lower stack by such steps only.
-/

/-! ### Counting entries -/

namespace Insn

/-- No instruction pops the entries up to `h`, counting them by the stack effects. -/
def staysAbove (h : Nat) : (depth : Nat) → List Insn → Bool
  | _, [] => true
  | depth, insn :: is =>
    match insn.effect with
    | .ok e => h + e.pops ≤ depth && staysAbove h (depth - e.pops + e.pushes) is
    | .error _ => false

/-- A constructor with a result in its descriptor. The stack effect counts the result, but the
    simulation, which finishes an object there, pushes none. -/
def promisesResult : Insn → Bool
  | .invoke .special f =>
    f.name = "<init>" && match f.parse with
      | .ok t => !t.returnsVoid
      | .error _ => false
  | _ => false

/-- The entries that an instruction with the given stack effect is sure to push: all that the effect
    counts, but none for a constructor that promises a result. -/
def surelyPushed (insn : Insn) (e : StackEffect) : Nat :=
  if insn.promisesResult then 0 else e.pushes

/-- No instruction pops the entries up to `h`, counting those that are pushed for sure. -/
def leavesAlone (h : Nat) : (depth : Nat) → List Insn → Bool
  | _, [] => true
  | depth, insn :: is =>
    match insn.effect with
    | .ok e => h + e.pops ≤ depth && leavesAlone h (depth - e.pops + insn.surelyPushed e) is
    | .error _ => false

/-- If no constructor promises a result, as in every class file, this is what the stack effects
    say. -/
theorem leavesAlone_eq_staysAbove {h depth : Nat} {insns : List Insn}
    (hvoid : ∀ i ∈ insns, i.promisesResult = false) :
    leavesAlone h depth insns = staysAbove h depth insns := by
  induction insns generalizing depth with
  | nil => rfl
  | cons insn is ih =>
    obtain ⟨hinsn, his⟩ := List.forall_mem_cons.1 hvoid
    rw [leavesAlone, staysAbove]
    cases insn.effect with
    | error e => rfl
    | ok e => simp only [surelyPushed, hinsn, Bool.false_eq_true, if_false, ih his]

/-- The entries that are left alone are there. -/
theorem height_le_of_leavesAlone {h depth : Nat} {insn : Insn} {is : List Insn}
    (hstays : leavesAlone h depth (insn :: is) = true) : h ≤ depth := by
  rw [leavesAlone] at hstays
  split at hstays
  · rw [Bool.and_eq_true, decide_eq_true_eq] at hstays
    omega
  · cases hstays

/-- The instructions take `pops` entries and are sure to put `pushes` in their place. -/
def Counts (insns : List Insn) (pops pushes : Nat) : Prop :=
  ∀ (h depth : Nat) (is : List Insn), leavesAlone h depth (insns ++ is) = true →
    h + pops ≤ depth ∧ leavesAlone h (depth - pops + pushes) is = true

/-- One instruction takes and puts what its stack effect says, or puts nothing if it promises a
    result. -/
theorem counts_insn {insn : Insn} {e : StackEffect} (heffect : insn.effect = .ok e) :
    Counts [insn] e.pops (insn.surelyPushed e) := by
  intro h depth is hstays
  rw [List.singleton_append, leavesAlone, heffect] at hstays
  simpa using hstays

/-- One instruction that promises no result takes and puts what its stack effect says. -/
theorem counts_of_effect {insn : Insn} {pops pushes : Nat}
    (heffect : insn.effect = .ok ⟨pops, pushes⟩) (hvoid : insn.promisesResult = false) :
    Counts [insn] pops pushes := by
  simpa [surelyPushed, hvoid] using counts_insn heffect

/-- The second instructions take what the first ones have pushed, and what is missing then. -/
theorem Counts.append {insns insns' : List Insn} {pops pushes pops' pushes' : Nat}
    (h : Counts insns pops pushes) (h' : Counts insns' pops' pushes') :
    Counts (insns ++ insns') (pops + (pops' - pushes)) (pushes - pops' + pushes') := by
  intro height depth is hstays
  rw [List.append_assoc] at hstays
  obtain ⟨hpops, hstays⟩ := h _ _ _ hstays
  obtain ⟨hpops', hstays⟩ := h' _ _ _ hstays
  have hdepth : depth - pops + pushes - pops' + pushes'
      = depth - (pops + (pops' - pushes)) + (pushes - pops' + pushes') := by omega
  exact ⟨by omega, hdepth ▸ hstays⟩

/-- No more is pushed for sure than the stack effect says. -/
theorem surelyPushed_le (insn : Insn) (e : StackEffect) : insn.surelyPushed e ≤ e.pushes := by
  unfold surelyPushed
  split
  · exact Nat.zero_le e.pushes
  · exact Nat.le_refl e.pushes

/-- The effect of an invocation that can be checked. -/
def effectOf (dispatch : Dispatch) (sig : MethodType) : StackEffect :=
  ⟨sig.params.length + if dispatch.hasReceiver then 1 else 0, if sig.returnsVoid then 0 else 1⟩

/-- An invocation takes its arguments and its receiver. -/
theorem counts_invoke {dispatch : Dispatch} {f : MethodRef} {sig : MethodType}
    (hf : f.parse = .ok sig) :
    Counts [.invoke dispatch f] (effectOf dispatch sig).pops
      ((invoke dispatch f).surelyPushed (effectOf dispatch sig)) := by
  intro h depth is hstays
  by_cases hmax : sig.params.length + (if dispatch.hasReceiver then 1 else 0) ≤ maxPops
  · exact counts_insn (by rw [effect, hf]; exact if_pos hmax) h depth is hstays
  · have heffect : (invoke dispatch f).effect = .error (.tooManyArguments f) := by
      rw [effect, hf]
      exact if_neg hmax
    rw [List.singleton_append, leavesAlone, heffect] at hstays
    cases hstays

/-- A constructor is not sure to push anything. -/
theorem surelyPushed_constructor {f : MethodRef} {sig : MethodType} (hf : f.parse = .ok sig)
    (hname : f.name = "<init>") :
    (invoke .special f).surelyPushed (effectOf .special sig) = 0 := by
  cases hvoid : sig.returnsVoid <;> simp [surelyPushed, promisesResult, effectOf, hname, hf, hvoid]

end Insn

/-- The lowest `h` entries of a stack. -/
def Operands.lowest (h : Nat) (st : Operands) : Operands := st.drop (st.length - h)

/-- The lowest `h` entries of a stack, with another one uppermost if it is given. -/
def Operands.lowestWith (top? : Option Operand) (h : Nat) (st : Operands) : Operands :=
  match top? with
  | none => st.lowest h
  | some o => o :: st.lowest (h - 1)

namespace Operands

variable {h : Nat} {o : Operand} {st below : Operands}

/-- What lies on top of the lowest entries does not matter. -/
theorem lowest_append (hbelow : h ≤ below.length) :
    Operands.lowest h (st ++ below) = Operands.lowest h below := by
  have hdrop : (st ++ below).length - h = st.length + (below.length - h) := by
    rw [List.length_append]
    omega
  rw [lowest, hdrop, List.drop_length_add_append, lowest]

/-- The same for one entry. -/
theorem lowest_cons (hbelow : h ≤ below.length) :
    Operands.lowest h (o :: below) = Operands.lowest h below := by
  rw [← List.singleton_append, lowest_append hbelow]

/-- The same for several entries and one below them. -/
theorem lowest_append_cons (hbelow : h ≤ below.length) :
    Operands.lowest h (st ++ o :: below) = Operands.lowest h below := by
  rw [List.append_cons, lowest_append hbelow]

/-- One entry more is taken in. -/
theorem lowest_succ (hst : h < st.length) :
    ∃ o, Operands.lowest (h + 1) st = o :: Operands.lowest h st := by
  have hnext : st.length - (h + 1) + 1 = st.length - h := by omega
  rw [lowest, List.drop_eq_getElem_cons (by omega), hnext]
  exact ⟨_, rfl⟩

/-- As many entries as arguments. -/
@[simp] theorem length_ofArgs (args : List Expr) : (ofArgs args).length = args.length := by
  simp [ofArgs]

/-- Arguments and a receiver, if there is one. -/
theorem length_operands {args : List Expr} {receiver : Option Expr} {hasReceiver : Bool}
    (h : receiver.isSome = hasReceiver) :
    (ofArgs args ++ receiver.toList.map Operand.value).length
      = args.length + if hasReceiver then 1 else 0 := by
  rw [List.length_append, length_ofArgs, ← h]
  cases receiver <;> rfl

/-- All entries are the lowest ones. -/
theorem lowest_length (st : Operands) : Operands.lowest st.length st = st := by
  simp [lowest]

/-- Nothing changes if the uppermost of the lowest entries is the one that is put there. -/
theorem lowestWith_eq_iff (hst : h ≤ st.length) :
    Operands.lowestWith (some o) h st = Operands.lowest h st
      ↔ (Operands.lowest h st).head? = some o := by
  cases h with
  | zero => simp [lowestWith, lowest]
  | succ h =>
    obtain ⟨top, htop⟩ := lowest_succ hst
    rw [htop, lowestWith, Nat.add_sub_cancel, List.head?_cons, List.cons.injEq, Option.some_inj]
    exact ⟨fun heq => heq.1.symm, fun heq => ⟨heq.symm, rfl⟩⟩

end Operands

namespace Simulation

variable {config : Config} {m m' : Simulation} {prev next : Option Insn} {insn : Insn}
  {taken put rest : Operands} {edit : Edit} {h : Nat}

/-! ### Steps -/

namespace Turn

/-- The entry below the operands that the step has changed: an object whose constructor has run,
    or an array with one more element. Such a step adds no statement. -/
def completed? (g : Turn) : Option Operand :=
  if g.adds then none
  else
    match g.insn, g.after.stack with
    | .arrayStore _, o :: _ => some o
    | .invoke _ _, .value (.new t k args) :: _ => some (.value (.new t k args))
    | _, _ => none

/-- What a step that takes `pops` entries and puts `pushes` in their place does to the others. -/
inductive Frames (g : Turn) (pops pushes : Nat) : Prop
  | keeps {popped put below : Operands} (hbefore : g.before.stack = popped ++ below)
      (hafter : g.after.stack = put ++ below) (hpops : popped.length = pops)
      (hpushes : pushes ≤ put.length)
      (hnone : g.completed? = none)
  | completes {popped below : Operands} {old new : Operand}
      (hbefore : g.before.stack = popped ++ old :: below) (hafter : g.after.stack = new :: below)
      (hpops : popped.length = pops) (hpushes : pushes = 0)
      (hsome : g.completed? = some new)
  /-- The read that was pushed just before becomes an increment. -/
  | increments {below : Operands} {old new : Operand}
      (hprev : ∃ slot t, g.prev = some (.load slot t))
      (hbefore : g.before.stack = old :: below) (hafter : g.after.stack = new :: below)
      (hpops : pops = 0) (hpushes : pushes = 0) (hnone : g.completed? = none)

end Turn

/-- A step that takes and puts what the effect of its instruction says. -/
theorem frames_of_effect {g : Turn}
    (h : Makes config g.before g.prev g.insn g.next g.out taken put rest edit)
    (htook : g.out.tookNext = false) (heffect : g.insn.effect = .ok ⟨taken.length, put.length⟩)
    (hnone : g.completed? = none) :
    ∃ pops pushes, Insn.Counts g.insns pops pushes ∧ g.Frames pops pushes := by
  have hinsns : g.insns = [g.insn] := by simp [Turn.insns, htook]
  exact ⟨_, _, hinsns ▸ Insn.counts_insn heffect,
    .keeps h.before h.after rfl (Insn.surelyPushed_le _ _) hnone⟩

/-- A step changes at most one entry that it does not take: it completes the uppermost of them, or
    makes an increment of a read that the step before has pushed. -/
theorem frames_of_makes {g : Turn}
    (h : Makes config g.before g.prev g.insn g.next g.out taken put rest edit)
    (hslots : movesSlots g.insn = false) :
    ∃ pops pushes, Insn.Counts g.insns pops pushes ∧ g.Frames pops pushes := by
  obtain ⟨before, prev, insn, next, took, state⟩ := g
  have hmove := h.move
  have hbefore := h.before
  have hafter := h.after
  simp only at hmove hbefore hafter hslots
  cases hmove
  case dupX2Wide | dupX2 | dup2Wide | dup2 | pop2Wide | pop2 => cases hslots
  case unary e hf =>
    cases insn <;> cases hf <;> exact frames_of_effect h rfl rfl (by simp [Turn.completed?])
  case binary left right hf =>
    cases insn <;> cases hf <;> exact frames_of_effect h rfl rfl (by simp [Turn.completed?])
  case store value htarget =>
    cases htarget <;> exact frames_of_effect h rfl rfl (by simp [Turn.completed?])
  case loadIncremented slot t v n hv =>
    exact frames_of_effect h rfl rfl (by simp [Turn.completed?])
  -- three moves take an entry that their instruction does not pop
  case incrementLoaded slot t n v w hprev hv hw =>
    exact ⟨0, 0, Insn.counts_of_effect rfl rfl, .increments ⟨slot, t, hprev⟩ hbefore hafter rfl rfl
      (by simp [Turn.completed?])⟩
  case fill array index value top filled t hsame hfilled =>
    have hpopped : before.stack
        = [.value value, .value index, .value array] ++ .value top :: rest := hbefore
    exact ⟨3, 0, Insn.counts_of_effect rfl rfl, .completes hpopped hafter rfl rfl
      (by simp [Turn.completed?, adds_of_makes h, Turn.after, hafter])⟩
  case constructCopy f sig args type hf hargs hname =>
    have hpopped : before.stack
        = (Operands.ofArgs args ++ [.uninitialized type]) ++ .uninitialized type :: rest := by
      simpa using hbefore
    refine ⟨_, _, Insn.counts_invoke hf, .completes hpopped hafter ?_ ?_ ?_⟩
    · simp [Insn.effectOf, hargs, Dispatch.hasReceiver]
    · exact Insn.surelyPushed_constructor hf hname
    · simp [Turn.completed?, adds_of_makes h, Turn.after, hafter]
  case invoke dispatch f sig args receiver hf hargs hreceiver hvoid =>
    refine ⟨_, _, Insn.counts_invoke hf, .keeps hbefore hafter ?_ ?_ ?_⟩
    · rw [Operands.length_operands hreceiver, hargs]
      rfl
    · refine Nat.le_trans (Insn.surelyPushed_le _ _) ?_
      simp [Insn.effectOf, hvoid]
    · cases receiver <;> simp [Turn.completed?, Turn.after, hafter, MethodRef.on]
  case invokeVoid dispatch f sig args receiver hf hargs hreceiver hvoid =>
    refine ⟨_, _, Insn.counts_invoke hf, .keeps hbefore hafter ?_ ?_ ?_⟩
    · rw [Operands.length_operands hreceiver, hargs]
      rfl
    · refine Nat.le_trans (Insn.surelyPushed_le _ _) ?_
      simp [Insn.effectOf, hvoid]
    · simp [Turn.completed?, adds_of_makes h]
  case construct f sig args type hf hargs hname =>
    refine ⟨_, _, Insn.counts_invoke hf, .keeps hbefore hafter ?_ ?_ ?_⟩
    · simp [Insn.effectOf, hargs, Dispatch.hasReceiver]
    · exact Nat.le_of_eq (Insn.surelyPushed_constructor hf hname)
    · simp [Turn.completed?, adds_of_makes h]
  -- two instructions at once take what both of them pop, less what the first one pushes
  case dupStore e target insn he hnext htarget =>
    subst hnext
    refine ⟨1, 1, ?_, .keeps hbefore hafter rfl (by simp) (by simp [Turn.completed?])⟩
    have hdup : Insn.Counts [.dup] 1 2 := Insn.counts_of_effect rfl rfl
    have hstore : Insn.Counts [insn] 1 0 := by
      cases htarget <;> exact Insn.counts_of_effect rfl rfl
    exact hdup.append hstore
  case dupX1Store value receiver f hreceiver hnext =>
    subst hnext
    refine ⟨2, 1, ?_, .keeps hbefore hafter rfl (by simp) (by simp [Turn.completed?])⟩
    have hdup : Insn.Counts [.dupX1] 2 3 := Insn.counts_of_effect rfl rfl
    have hstore : Insn.Counts [.putField f] 2 0 := Insn.counts_of_effect rfl rfl
    exact hdup.append hstore
  all_goals exact frames_of_effect h rfl rfl (by simp [Turn.completed?, adds_of_makes h])

/-- A read leaves one more entry. -/
theorem length_of_load {g : Turn} {slot : Nat} {t : String}
    (h : Makes config g.before g.prev g.insn g.next g.out taken put rest edit)
    (hlast : g.last = .load slot t) :
    g.after.stack.length = g.before.stack.length + 1 := by
  obtain ⟨before, prev, insn, next, took, state⟩ := g
  have hmove := h.move
  have hbefore := h.before
  have hafter := h.after
  simp only at hmove hbefore hafter
  cases hmove
  case load v hv => simp [Turn.after, hafter, hbefore]
  case loadIncremented v n hv => simp [Turn.after, hafter, hbefore]
  case unary e hf => cases insn <;> cases hf <;> cases hlast
  case binary left right hf => cases insn <;> cases hf <;> cases hlast
  case store value htarget => cases htarget <;> cases hlast
  case dupStore e target insn he hnext htarget =>
    subst hnext
    cases htarget <;> cases hlast
  case dupX1Store value receiver f hreceiver hnext =>
    subst hnext
    cases hlast
  all_goals cases hlast

/-- The depth behind a step is at least what is sure to be pushed. -/
theorem length_of_frames {g : Turn} {pops pushes : Nat} (hframes : g.Frames pops pushes) :
    g.before.stack.length - pops + pushes ≤ g.after.stack.length := by
  cases hframes with
  | keeps hbefore hafter hpopped hpushes hnone =>
    rw [hbefore, hafter, List.length_append, List.length_append]
    omega
  | completes hbefore hafter hpopped hpushes hsome =>
    rw [hbefore, hafter, List.length_append, List.length_cons, List.length_cons]
    omega
  | increments hload hbefore hafter hpops hpushes hnone =>
    rw [hbefore, hafter, List.length_cons, List.length_cons]
    omega

/-- The entries of height `h` that steps complete. -/
def completions (h : Nat) (gs : List Turn) : Operands :=
  (gs.filter fun g => g.after.stack.length = h).filterMap Turn.completed?

/-- A step that completes nothing below leaves what is below. -/
theorem lowest_of_same {g : Turn}
    (hsame : ∀ i ≤ h, g.after.stack.lowest i = g.before.stack.lowest i)
    (hnone : completions h [g] = []) :
    g.after.stack.lowest h = Operands.lowestWith (completions h [g]).getLast? h g.before.stack ∧
      g.after.stack.lowest (h - 1) = g.before.stack.lowest (h - 1) := by
  rw [hnone]
  exact ⟨hsame h (Nat.le_refl h), hsame (h - 1) (Nat.sub_le h 1)⟩

/-- A step that pops no entry up to `h` leaves these alone, except for the one of height `h` that it
    completes. -/
theorem lowest_of_frames {g : Turn} {pops pushes : Nat} (hframes : g.Frames pops pushes)
    (hpops : h + pops ≤ g.before.stack.length)
    (hprev : (∃ slot t, g.prev = some (.load slot t)) → h < g.before.stack.length) :
    g.after.stack.lowest h = Operands.lowestWith (completions h [g]).getLast? h g.before.stack ∧
      g.after.stack.lowest (h - 1) = g.before.stack.lowest (h - 1) := by
  cases hframes with
  | @keeps popped put below hbefore hafter hpopped hpushes hnone =>
    rw [hbefore, List.length_append] at hpops
    refine lowest_of_same (fun i hi => ?_) (by simp [completions, hnone])
    rw [hbefore, hafter, Operands.lowest_append (by omega), Operands.lowest_append (by omega)]
  | @completes popped below old new hbefore hafter hpopped hpushes hsome =>
    rw [hbefore, List.length_append, List.length_cons] at hpops
    have hsame : ∀ i ≤ below.length, g.after.stack.lowest i = g.before.stack.lowest i := by
      intro i hi
      rw [hbefore, hafter, Operands.lowest_cons hi, Operands.lowest_append_cons hi]
    by_cases hheight : h = below.length + 1
    · have hcompletions : completions h [g] = [new] := by
        simp [completions, hsome, hafter, hheight]
      have hlower : g.before.stack.lowest (h - 1) = below := by
        rw [hheight, Nat.add_sub_cancel, ← hsame _ (Nat.le_refl _), hafter,
          Operands.lowest_cons (Nat.le_refl _), Operands.lowest_length]
      have hfull : g.after.stack.lowest h = new :: below := by
        rw [hafter, hheight]
        exact Operands.lowest_length (new :: below)
      rw [hcompletions, hfull]
      exact ⟨congrArg (new :: ·) hlower.symm, hsame (h - 1) (by omega)⟩
    · exact lowest_of_same (fun i hi => hsame i (by omega))
        (by simp [completions, hafter, Ne.symm hheight])
  -- the read was pushed above the entries up to `h`
  | @increments below old new hload hbefore hafter hpops' hpushes hnone =>
    have hbelow := hprev hload
    rw [hbefore, List.length_cons] at hbelow
    refine lowest_of_same (fun i hi => ?_) (by simp [completions, hnone])
    rw [hbefore, hafter, Operands.lowest_cons (by omega), Operands.lowest_cons (by omega)]

/-- The completions of a step stand in front of those behind it. -/
theorem completions_cons (g : Turn) (gs : List Turn) :
    completions h (g :: gs) = completions h [g] ++ completions h gs := by
  rw [completions, ← List.singleton_append, List.filter_append, List.filterMap_append]
  rfl

/-- The lowest entries after a run. The invariant is that the stack is at least as deep as the
    counted depth, and deeper than `h` behind a read. -/
theorem lowest_of_turned {insns : List Insn} {gs : List Turn} {depth : Nat}
    (hturned : Turned config prev m insns gs m') (hslots : ∀ i ∈ insns, movesSlots i = false)
    (hdepth : depth ≤ m.stack.length) (hstays : Insn.leavesAlone h depth insns = true)
    (hprev : (∃ slot t, prev = some (.load slot t)) → h < m.stack.length) :
    m'.stack.lowest h = Operands.lowestWith (completions h gs).getLast? h m.stack := by
  induction hturned generalizing depth with
  | nil prev m => rfl
  | @cons g insns is gs m' hstep hinsns hturned ih =>
    subst hinsns
    obtain ⟨taken, put, rest, edit, hmakes⟩ := moves_of_step hstep
    obtain ⟨pops, pushes, hcounts, hframes⟩ :=
      frames_of_makes hmakes (hslots g.insn (by simp [Turn.insns]))
    obtain ⟨hpops, hafter⟩ := hcounts _ _ _ hstays
    have hlength := length_of_frames hframes
    have hrun := ih (fun i hi => hslots i (List.mem_append_right g.insns hi)) (by omega) hafter ?_
    · obtain ⟨hfirst, hfirst'⟩ := lowest_of_frames hframes (by omega) hprev
      rw [hrun, completions_cons, List.getLast?_append]
      cases (completions h gs).getLast? with
      | none => exact hfirst
      | some o => exact congrArg (o :: ·) hfirst'
    · rintro ⟨slot, t, hload⟩
      rw [length_of_load hmakes (Option.some.inj hload)]
      omega

/-- The lowest `h` entries of the stack change by completions only: if the instructions never pop
    one of these, then the uppermost of them is the last one of this height that a step has
    completed, and the others stay.

    What is popped and pushed is counted by the stack effects, except that a constructor counts as
    pushing nothing. If its descriptor has a result, the stack effect counts that result although
    the simulation pushes none when it finishes an object, so the stack effects alone would let the
    instructions pop one of the lowest entries. No class file has such constructors, and without
    them the stack effects say the same (`Insn.leavesAlone_eq_staysAbove`). -/
theorem lower_stack_of_run {insns : List Insn} (hslots : ∀ i ∈ insns, movesSlots i = false)
    (hstays : Insn.leavesAlone h m.stack.length insns = true)
    (hrun : run config m insns = .ok m') :
    m'.stack.lowest h = Operands.lowestWith
        (completions h (turns config none m insns)).getLast? h m.stack ∧
      (m'.stack.lowest h = m.stack.lowest h ↔
        ∀ o, (completions h (turns config none m insns)).getLast? = some o →
          (m.stack.lowest h).head? = some o) := by
  have hlowest := lowest_of_turned (turned_of_runAfter hrun) hslots (Nat.le_refl _) hstays
    (by rintro ⟨_, _, ⟨⟩⟩)
  refine ⟨hlowest, ?_⟩
  rw [hlowest]
  cases hlast : (completions h (turns config none m insns)).getLast? with
  | none => simp [Operands.lowestWith]
  | some o =>
    have hheight : h ≤ m.stack.length := by
      cases insns with
      | nil => simp [turns, completions] at hlast
      | cons insn is => exact Insn.height_le_of_leavesAlone hstays
    simpa using Operands.lowestWith_eq_iff hheight

/-- A value waits. -/
def valueWaiting : Simulation := ⟨.new .method, [.value (.const (.int 5))]⟩

/-- `new int[] { 0, 7 }` is made above it. -/
def filling : List Insn :=
  [.const (.int 2), .newArray Descriptor.int, .dup, .const (.int 1), .const (.int 7),
    .arrayStore Descriptor.int]

/-- An array that is filled above a value leaves the value. -/
theorem run_filling_above : ∃ m, run {} valueWaiting filling = .ok m ∧
    m.stack.lowest 1 = valueWaiting.stack.lowest 1 := by
  have hslots : ∀ i ∈ filling, movesSlots i = false := by decide
  have hstays : Insn.leavesAlone 1 valueWaiting.stack.length filling = true := by
    rw [Insn.leavesAlone_eq_staysAbove (by decide)]
    decide
  have hsucceeds : (run {} valueWaiting filling).isOk = true := by decide +kernel
  obtain ⟨m, hrun⟩ := Except.eq_ok_of_isOk hsucceeds
  have hnone : (completions 1 (turns {} none valueWaiting filling)).isEmpty = true := by
    decide +kernel
  refine ⟨m, hrun, (lower_stack_of_run hslots hstays hrun).2.2 ?_⟩
  rw [List.isEmpty_iff.1 hnone]
  simp

/-- An object waits for its constructor. -/
def objectWaiting : Simulation := ⟨.new .method, [.uninitialized (Descriptor.classRef "T")]⟩

/-- Another object of its class is made above it. -/
def making : List Insn := [.new "T", .invoke .special ⟨"T", "<init>", "()V"⟩]

/-- The constructor of one object also finishes another one. -/
theorem run_making_above :
    ¬ ∀ (config : Config) (m : Simulation) (insns : List Insn) (h : Nat) (m' : Simulation),
      (∀ i ∈ insns, movesSlots i = false) → Insn.staysAbove h m.stack.length insns = true →
      run config m insns = .ok m' → m'.stack.lowest h = m.stack.lowest h := by
  intro hclaim
  have hone : (run {} objectWaiting making).toOption.map
      (fun m => Operands.made Product.isEffect (m.stack.lowest 1)) = some 1 := by decide +kernel
  obtain ⟨m, hm, hone⟩ := Option.map_eq_some_iff.1 hone
  have hsame := hclaim {} objectWaiting making 1 m (by decide) (by decide +kernel)
    (Except.eq_ok_of_toOption hm)
  rw [hsame] at hone
  exact absurd hone (by decide)

end Simulation

end Restructure
