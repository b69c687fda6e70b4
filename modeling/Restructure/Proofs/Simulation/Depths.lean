import Mathlib.Data.List.Forall2
import Restructure.Proofs.Simulation.LowerStack

namespace Restructure

/-!
# Depths — the simulation and the stack effects count the same entries

The stack effects describe the instructions a second time, without the simulation. The two agree on
the depth of the stack at every instruction, where a value of two slots counts once and decides what
the instructions that move slots take. The exceptions are constructors whose descriptors promise a
result.

* `Insn.effectOn` — the stack effect of an instruction on a given stack.
* `StackEffect.depthAfter?` — the depth behind instructions, if none pops more than there is.
* `Simulation.Turn.Counted` — a step keeps to the effects of the instructions that it simulates.
* `Simulation.depths_of_run` — so do all steps of a run, and the net effects add up to its depth.
-/

/-! ### Effects on a stack -/

namespace Insn

variable {st : Operands} {insn : Insn}

/-- The stack effect of an instruction on a stack. It is the one of `Insn.effect`, but an
    instruction that moves slots takes a value of two slots alone and other values in pairs. -/
def effectOn (st : Operands) : Insn → Except EffectFault StackEffect
  | dup2 => if st.topIsWide then .ok ⟨1, 2⟩ else dup2.effect
  | pop2 => if st.topIsWide then pop2.effect else .ok ⟨2, 0⟩
  | dupX2 => if Operands.topIsWide st.tail then .ok ⟨2, 3⟩ else dupX2.effect
  | insn => insn.effect

/-- The net effect differs for two of the instructions that move slots. For the third one both its
    pops and its pushes differ by one. -/
theorem map_net_effectOn : (insn.effectOn st).map StackEffect.net =
    match insn with
    | dup2 => .ok (if st.topIsWide then 1 else 2)
    | pop2 => .ok (if st.topIsWide then -1 else -2)
    | insn => insn.effect.map StackEffect.net := by
  cases insn with
  | dup2 | pop2 | dupX2 =>
    rw [effectOn]
    split <;> rfl
  | _ => rfl

end Insn

namespace StackEffect

variable {depth depth' : Nat} {es es' : List StackEffect}

/-- The depth behind instructions with the given effects. There is none if one of them pops more
    entries than there are. -/
def depthAfter? : (depth : Nat) → List StackEffect → Option Nat
  | depth, [] => some depth
  | depth, e :: es => if e.pops ≤ depth then depthAfter? (depth - e.pops + e.pushes) es else none

/-- The change of the depth by instructions with the given effects. -/
def netAll : List StackEffect → Int
  | [] => 0
  | e :: es => e.net + netAll es

/-- The first effect must find what it pops. -/
theorem depthAfter_cons {e : StackEffect} :
    depthAfter? depth (e :: es) = some depth'
      ↔ e.pops ≤ depth ∧ depthAfter? (depth - e.pops + e.pushes) es = some depth' := by
  rw [depthAfter?]
  split
  · rename_i hpops
    exact ⟨fun h => ⟨hpops, h⟩, fun h => h.2⟩
  · rename_i hpops
    exact ⟨fun h => absurd h (by simp), fun h => absurd h.1 hpops⟩

/-- The depth behind two runs of effects is found one run after the other. -/
theorem depthAfter_append (h : depthAfter? depth es = some depth') :
    depthAfter? depth (es ++ es') = depthAfter? depth' es' := by
  induction es generalizing depth with
  | nil =>
    cases h
    rfl
  | cons e es ih =>
    obtain ⟨hpops, h⟩ := depthAfter_cons.1 h
    rw [List.cons_append, depthAfter?, if_pos hpops]
    exact ih h

/-- The net effects add up. -/
theorem depth_of_depthAfter (h : depthAfter? depth es = some depth') :
    (depth' : Int) = depth + netAll es := by
  induction es generalizing depth with
  | nil =>
    cases h
    simp [netAll]
  | cons e es ih =>
    obtain ⟨hpops, h⟩ := depthAfter_cons.1 h
    have hrest := ih h
    have hnet : e.net = (e.pushes : Int) - e.pops := rfl
    rw [netAll]
    omega

/-- At each effect the depth so far is at least what it pops. -/
theorem pops_le_of_depthAfter {before after : List StackEffect} {e : StackEffect}
    (h : depthAfter? depth (before ++ e :: after) = some depth') :
    (e.pops : Int) ≤ depth + netAll before := by
  induction before generalizing depth with
  | nil =>
    obtain ⟨hpops, _⟩ := depthAfter_cons.1 h
    simpa [netAll] using hpops
  | cons e' before ih =>
    obtain ⟨hpops, h⟩ := depthAfter_cons.1 h
    have hrest := ih h
    have hnet : e'.net = (e'.pushes : Int) - e'.pops := rfl
    rw [netAll]
    omega

end StackEffect

namespace Simulation

variable {config : Config} {m m' : Simulation} {prev : Option Insn} {insns : List Insn}
  {taken put rest : Operands} {edit : Edit}

/-! ### Steps -/

namespace Turn

/-- The instructions that the step simulates, with the stack before the step. -/
def reached (g : Turn) : List (Operands × Insn) := g.insns.map fun insn => (g.before.stack, insn)

/-- The effects of the instructions that the step simulates lead to the depth behind the step. -/
def Counted (g : Turn) : Prop :=
  ∃ es, List.Forall₂ (fun r e => Insn.effectOn r.1 r.2 = .ok e) g.reached es ∧
    StackEffect.depthAfter? g.before.stack.length es = some g.after.stack.length

end Turn

/-- A step that simulates one instruction changes the depth by the effect of this one. Entries that
    it takes and puts although the instruction does not pop them cancel out. -/
theorem counted_of_effectOn {g : Turn} {e : StackEffect} (more : Nat)
    (h : Makes config g.before g.prev g.insn g.next g.out taken put rest edit)
    (htook : g.out.tookNext = false) (heffect : g.insn.effectOn g.before.stack = .ok e)
    (hpops : taken.length = e.pops + more) (hpushes : put.length = e.pushes + more) :
    g.Counted := by
  have hreached : g.reached = [(g.before.stack, g.insn)] := by
    simp [Turn.reached, Turn.insns, htook]
  refine ⟨[e], hreached ▸ .cons heffect .nil, ?_⟩
  show StackEffect.depthAfter? g.before.stack.length [e] = some g.out.state.stack.length
  rw [h.before, h.after, StackEffect.depthAfter_cons, List.length_append, List.length_append,
    StackEffect.depthAfter?]
  refine ⟨by omega, ?_⟩
  congr 1
  omega

/-- A step that takes and puts what the effect of its instruction says. -/
theorem counted_of_same {g : Turn}
    (h : Makes config g.before g.prev g.insn g.next g.out taken put rest edit)
    (htook : g.out.tookNext = false)
    (heffect : g.insn.effectOn g.before.stack = .ok ⟨taken.length, put.length⟩) : g.Counted :=
  counted_of_effectOn 0 h htook heffect rfl rfl

/-- A step that takes in the next instruction takes what both pop and puts what both push, except
    for what passes from the first one to the second. -/
theorem counted_of_pair {g : Turn} {next : Insn} {e e' : StackEffect}
    (h : Makes config g.before g.prev g.insn g.next g.out taken put rest edit)
    (htook : g.out.tookNext = true) (hnext : g.next = some next)
    (heffect : g.insn.effectOn g.before.stack = .ok e)
    (heffect' : next.effectOn g.before.stack = .ok e') (hpops : taken.length = e.pops)
    (hpassed : e'.pops ≤ e.pushes) (hpushes : put.length + e'.pops = e.pushes + e'.pushes) :
    g.Counted := by
  have hreached : g.reached = [(g.before.stack, g.insn), (g.before.stack, next)] := by
    simp [Turn.reached, Turn.insns, htook, hnext]
  refine ⟨[e, e'], hreached ▸ .cons heffect (.cons heffect' .nil), ?_⟩
  show StackEffect.depthAfter? g.before.stack.length [e, e'] = some g.out.state.stack.length
  rw [h.before, h.after, List.length_append, List.length_append, StackEffect.depthAfter_cons,
    StackEffect.depthAfter_cons, StackEffect.depthAfter?]
  refine ⟨by omega, by omega, ?_⟩
  congr 1
  omega

/-- The effect of an invocation comes from its descriptor. -/
theorem effect_of_invoke {dispatch : Dispatch} {f : MethodRef} {sig : MethodType} {e : StackEffect}
    (hf : f.parse = .ok sig) (h : (Insn.invoke dispatch f).effect = .ok e) :
    e = ⟨sig.params.length + if dispatch.hasReceiver then 1 else 0,
      if sig.returnsVoid then 0 else 1⟩ := by
  rw [Insn.effect, hf] at h
  dsimp only at h
  by_cases hmax : sig.params.length + (if dispatch.hasReceiver then 1 else 0) ≤ Insn.maxPops
  · rw [if_pos hmax] at h
    exact (Except.ok.inj h).symm
  · rw [if_neg hmax] at h
    cases h

/-- A constructor that promises no result has none. -/
theorem returnsVoid_of_promisesResult {f : MethodRef} {sig : MethodType} (hf : f.parse = .ok sig)
    (hname : f.name = "<init>") (h : (Insn.invoke .special f).promisesResult = false) :
    sig.returnsVoid = true := by
  simpa [Insn.promisesResult, hname, hf] using h

/-- A step keeps to the effects of its instructions. -/
theorem counted_of_makes {g : Turn} {e : StackEffect}
    (h : Makes config g.before g.prev g.insn g.next g.out taken put rest edit)
    (heffect : g.insn.effect = .ok e) (hvoid : g.insn.promisesResult = false) : g.Counted := by
  obtain ⟨before, prev, insn, next, took, state⟩ := g
  have hmove := h.move
  have hbefore := h.before
  simp only at hmove hbefore heffect hvoid
  cases hmove
  case unary e hf => cases insn <;> cases hf <;> exact counted_of_same h rfl rfl
  case binary left right hf =>
    cases insn <;> cases hf <;> exact counted_of_same h rfl rfl
  case store value htarget => cases htarget <;> exact counted_of_same h rfl rfl
  case invoke dispatch f sig args receiver hf hargs hreceiver hresult =>
    obtain rfl := effect_of_invoke hf heffect
    refine counted_of_effectOn 0 h rfl heffect ?_ (by simp [hresult])
    rw [Operands.length_operands hreceiver, hargs]
    rfl
  case invokeVoid dispatch f sig args receiver hf hargs hreceiver hresult =>
    obtain rfl := effect_of_invoke hf heffect
    refine counted_of_effectOn 0 h rfl heffect ?_ (by simp [hresult])
    rw [Operands.length_operands hreceiver, hargs]
    rfl
  -- a constructor pushes nothing, but it replaces the copy of its object that waits below
  case construct f sig args type hf hargs hname =>
    obtain rfl := effect_of_invoke hf heffect
    have hresult := returnsVoid_of_promisesResult hf hname hvoid
    exact counted_of_effectOn 0 h rfl heffect
      (by simp [hargs, Dispatch.hasReceiver]) (by simp [hresult])
  case constructCopy f sig args type hf hargs hname =>
    obtain rfl := effect_of_invoke hf heffect
    have hresult := returnsVoid_of_promisesResult hf hname hvoid
    exact counted_of_effectOn 1 h rfl heffect
      (by simp [hargs, Dispatch.hasReceiver]) (by simp [hresult])
  case incrementLoaded => exact counted_of_effectOn 1 h rfl rfl rfl rfl
  case fill => exact counted_of_effectOn 1 h rfl rfl rfl rfl
  -- what is on top decides what the instructions that move slots take
  case dup2Wide o ho hwide =>
    have heffectOn : Insn.effectOn before.stack .dup2 = .ok ⟨1, 2⟩ := by
      rw [hbefore]
      exact if_pos hwide
    exact counted_of_same h rfl heffectOn
  case dup2 o p ho hp hwide =>
    have heffectOn : Insn.effectOn before.stack .dup2 = .ok ⟨2, 4⟩ := by
      rw [hbefore]
      exact if_neg (by simp [Operands.topIsWide, hwide])
    exact counted_of_same h rfl heffectOn
  case pop2Wide o hwide =>
    have heffectOn : Insn.effectOn before.stack .pop2 = .ok ⟨1, 0⟩ := by
      rw [hbefore]
      exact if_pos hwide
    exact counted_of_same h rfl heffectOn
  case pop2 o p hwide =>
    have heffectOn : Insn.effectOn before.stack .pop2 = .ok ⟨2, 0⟩ := by
      rw [hbefore]
      exact if_neg (by simp [Operands.topIsWide, hwide])
    exact counted_of_same h rfl heffectOn
  case dupX2Wide o p ho hp =>
    have heffectOn : Insn.effectOn before.stack .dupX2 = .ok ⟨2, 3⟩ := by
      rw [hbefore]
      exact if_pos hp
    exact counted_of_same h rfl heffectOn
  case dupX2 o p q ho hp =>
    have heffectOn : Insn.effectOn before.stack .dupX2 = .ok ⟨3, 4⟩ := by
      rw [hbefore]
      exact if_neg (by simp [Operands.topIsWide, hp])
    exact counted_of_same h rfl heffectOn
  -- the copy passes from the first instruction to the second
  case dupStore e target insn he hnext htarget =>
    cases htarget <;>
      exact counted_of_pair h rfl hnext rfl rfl rfl (by decide) rfl
  case dupX1Store value receiver f hreceiver hnext =>
    exact counted_of_pair h rfl hnext rfl rfl rfl (by decide) rfl
  all_goals exact counted_of_same h rfl rfl

/-! ### Runs -/

/-- A run checks the operands before each step. -/
theorem checked_of_runAfter (h : runAfter config prev m insns = .ok m') :
    ∀ g ∈ turns config prev m insns, g.before.checkOperands g.insn = .ok () := by
  fun_induction turns config prev m insns with
  | case1 => simp
  | case2 prev m insn out hout =>
    obtain ⟨hcheck, _⟩ := (runAfter_of_step _ hout).1 h
    simpa using hcheck
  | case3 prev m insn _ hout => exact absurd h (runAfter_ne_of_step _ hout)
  | case4 prev m insn next rest out hout ih ih' =>
    obtain ⟨hcheck, h⟩ := (runAfter_of_step (next :: rest) hout).1 h
    rw [List.forall_mem_cons]
    refine ⟨hcheck, ?_⟩
    split at h
    · rename_i htook
      rw [if_pos htook]
      exact ih h
    · rename_i htook
      rw [if_neg htook]
      exact ih' h
  | case5 prev m insn next rest _ hout =>
    exact absurd h (runAfter_ne_of_step (next :: rest) hout)

/-- An instruction that passes the check has an effect. -/
theorem effect_of_checkOperands {insn : Insn} (h : m.checkOperands insn = .ok ()) :
    ∃ e, insn.effect = .ok e := by
  obtain ⟨e, he, _⟩ := Except.bind_eq_ok.1 h
  cases heffect : insn.effect with
  | ok e => exact ⟨e, rfl⟩
  | error fault =>
    rw [heffect] at he
    cases fault <;> cases he

/-- The steps of a run keep to the effects of their instructions. -/
theorem counted_of_turned {gs : List Turn} (hturned : Turned config prev m insns gs m')
    (hchecked : ∀ g ∈ gs, g.before.checkOperands g.insn = .ok ())
    (hvoid : ∀ i ∈ insns, i.promisesResult = false) : ∀ g ∈ gs, g.Counted := by
  induction hturned with
  | nil => simp
  | @cons g insns is gs m' hstep hinsns hturned ih =>
    subst hinsns
    obtain ⟨hcheck, hrest⟩ := List.forall_mem_cons.1 hchecked
    obtain ⟨taken, put, rest, edit, hmakes⟩ := moves_of_step hstep
    obtain ⟨e, heffect⟩ := effect_of_checkOperands hcheck
    rw [List.forall_mem_cons]
    constructor
    · exact counted_of_makes hmakes heffect (hvoid g.insn (by simp [Turn.insns]))
    · exact ih hrest fun i hi => hvoid i (List.mem_append_right g.insns hi)

/-- The counts of the steps follow one another. -/
theorem depthAfter_of_turned {gs : List Turn} (hturned : Turned config prev m insns gs m')
    (hcounted : ∀ g ∈ gs, g.Counted) :
    (gs.flatMap Turn.reached).map Prod.snd = insns ∧
      ∃ es, List.Forall₂ (fun r e => Insn.effectOn r.1 r.2 = .ok e) (gs.flatMap Turn.reached) es ∧
        StackEffect.depthAfter? m.stack.length es = some m'.stack.length := by
  -- each step counts from the depth that the last one has left
  induction hturned with
  | nil => exact ⟨rfl, [], .nil, rfl⟩
  | @cons g insns is gs m' hstep hinsns hturned ih =>
    obtain ⟨hg, hgs⟩ := List.forall_mem_cons.1 hcounted
    obtain ⟨es, heffects, hdepth⟩ := hg
    obtain ⟨hrest, es', heffects', hdepth'⟩ := ih hgs
    refine ⟨?_, es ++ es', ?_, ?_⟩
    · have hfirst : g.reached.map Prod.snd = g.insns := by
        rw [Turn.reached, List.map_map]
        exact List.map_id _
      rw [List.flatMap_cons, List.map_append, hrest, hfirst, hinsns]
    · rw [List.flatMap_cons]
      exact List.rel_append heffects heffects'
    · rw [StackEffect.depthAfter_append hdepth]
      exact hdepth'

/-- The stack effects tell the depths of a run whose constructors have no result: each step changes
    the depth by the effects of its instructions on the stack that it finds, the run changes it by
    the sum of all net effects, and nowhere is the depth less than what an instruction pops. -/
theorem depths_of_run (hvoid : ∀ i ∈ insns, i.promisesResult = false)
    (hrun : run config m insns = .ok m') :
    (∀ g ∈ turns config none m insns, g.Counted) ∧
      ((turns config none m insns).flatMap Turn.reached).map Prod.snd = insns ∧
      ∃ es, List.Forall₂ (fun r e => Insn.effectOn r.1 r.2 = .ok e)
          ((turns config none m insns).flatMap Turn.reached) es ∧
        (m'.stack.length : Int) = m.stack.length + StackEffect.netAll es ∧
        ∀ before e after, es = before ++ e :: after →
          (e.pops : Int) ≤ m.stack.length + StackEffect.netAll before := by
  have hturned := turned_of_runAfter hrun
  have hcounted := counted_of_turned hturned (checked_of_runAfter hrun) hvoid
  obtain ⟨hinsns, es, heffects, hdepth⟩ := depthAfter_of_turned hturned hcounted
  refine ⟨hcounted, hinsns, es, heffects, StackEffect.depth_of_depthAfter hdepth, ?_⟩
  intro before e after hes
  rw [hes] at hdepth
  exact StackEffect.pops_le_of_depthAfter hdepth

/-- A result is stored and read, a value of two slots is copied and both copies are dropped, and an
    object is made: `local0 = T.g();` and a `new T()` that waits. -/
def counting : List Insn :=
  [.invoke .static ⟨"T", "g", "()I"⟩, .dup, .store 0 Descriptor.int, .pop, .const (.long 3), .dup2,
    .pop2, .pop2, .new "T", .dup, .invoke .special ⟨"T", "<init>", "()V"⟩]

/-- One value is left, and every step is counted. -/
theorem run_counting : ∃ m, run {} (.start (.new .method)) counting = .ok m ∧
    m.stack.length = 1 ∧ ∀ g ∈ turns {} none (.start (.new .method)) counting, g.Counted := by
  have hvoid : ∀ i ∈ counting, i.promisesResult = false := by decide +kernel
  have hlength : (run {} (.start (.new .method)) counting).toOption.map (fun m => m.stack.length)
      = some 1 := by decide +kernel
  obtain ⟨m, hm, hlength⟩ := Option.map_eq_some_iff.1 hlength
  have hrun := Except.eq_ok_of_toOption hm
  exact ⟨m, hrun, hlength, (depths_of_run hvoid hrun).1⟩

end Simulation

end Restructure
