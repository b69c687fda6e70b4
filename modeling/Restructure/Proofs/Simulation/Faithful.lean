import Restructure.Proofs.Simulation.Acts

namespace Restructure

/-!
# Faithful simulation — when statements and values mean what the instructions do

Values wait on the simulated stack while statements are added to the scope. A statement stands
before every value that still waits, although its instruction came after theirs, so the recovered
code does what the instructions do exactly if this makes no difference.

* `Simulation.Faithful` — the statements that were added and the values that wait do what the
  instructions do.
* `Simulation.Stage.Quiet` — a part of a run changes the order of nothing that matters.
* `Simulation.faithful_iff_quiet` — behind a faithful part of a run, the next part is faithful
  exactly if it is quiet.
-/

namespace Simulation

variable {config : Config} {env : Behaviour} {m m' : Simulation} {s : Scope} {σ : Machine}

/-! ### Faithful runs -/

/-- On the given machine the two computations do the same behind the statements. -/
def Agree (env : Behaviour) (σ : Machine) (ss : List Stmt) {α : Type} (x y : Eval α) : Prop :=
  (do
    Stmt.execAll env ss
    x) σ = (do
    Stmt.execAll env ss
    y) σ

/-- Executing the statements that were added to the scope and then evaluating the operands from
    bottom to top does what the instructions do on an empty stack: the same calls in the same
    order, the same locals and static fields at the end, and the same values. -/
def Faithful (env : Behaviour) (s : Scope) (σ : Machine) (insns : List Insn) (m : Simulation) :
    Prop :=
  ∃ ss, m.scope.stmts = s.stmts ++ ss ∧
    (do
      Stmt.execAll env ss
      m.stack.eval env) σ = Insn.execAll env insns [] σ

/-- The statement, which stands before the operands, may as well come behind them. -/
def Overtakes (env : Behaviour) (σ : Machine) (ss : List Stmt) (stmt : Stmt) (st : Operands) :
    Prop :=
  Agree env σ ss
    (do
      stmt.exec env
      st.eval env)
    (do
      let vs ← st.eval env
      stmt.exec env
      return vs)

/-- A part of a run changes the order of nothing that matters on the given machine. -/
structure Stage.Quiet (env : Behaviour) (s : Scope) (σ : Machine) (g : Stage) : Prop where
  /-- A statement that is added may come behind the operands that wait. -/
  added : ∀ ss stmt, g.before.scope.stmts = s.stmts ++ ss →
    g.after.scope.stmts = g.before.scope.stmts ++ [stmt] → Overtakes env σ ss stmt g.waiting
  /-- A statement that is taken back was added in the run, and may come behind the operands. -/
  takenBack : ∀ stmt, g.before.scope.stmts = g.after.scope.stmts ++ [stmt] →
    ∃ ss, g.after.scope.stmts = s.stmts ++ ss ∧ Overtakes env σ ss stmt g.before.stack
  /-- Operands that are exchanged may be evaluated in either order. -/
  exchanged : ∀ ss o p (st : Operands), g.before.scope.stmts = s.stmts ++ ss → g.taken = [.swap] →
    g.before.stack = o :: p :: st →
    Agree env σ ss
      (do
        let vs ← st.eval env
        let a ← o.eval env
        let b ← p.eval env
        return b :: a :: vs)
      (do
        let vs ← st.eval env
        let b ← p.eval env
        let a ← o.eval env
        return b :: a :: vs)
  /-- An operand that is dropped need not be evaluated. -/
  dropped : ∀ ss o (st : Operands), g.before.scope.stmts = s.stmts ++ ss → g.taken = [.pop] →
    g.before.stack = o :: st → g.after.scope.stmts = g.before.scope.stmts →
    Agree env σ ss (st.eval env)
      (do
        let vs ← st.eval env
        let _ ← o.eval env
        return vs)

/-- Looking at the machine in the end changes nothing. -/
theorem agree_of_look {α β : Type} {ss : List Stmt} {x y : Eval α} {look : α → Eval β}
    (hlook : Eval.Looks look) : Agree env σ ss (x >>= look) (y >>= look) ↔ Agree env σ ss x y := by
  unfold Agree
  rw [← bind_assoc, ← bind_assoc]
  exact hlook.bind_eq_iff

/-- A look behind both orders tells nothing more. -/
theorem overtakes_iff {ss : List Stmt} {stmt : Stmt} {st : Operands}
    {look : List Value → Eval (List Value)} (hlook : Eval.Looks look) :
    Overtakes env σ ss stmt st ↔ Agree env σ ss
      (do
        stmt.exec env
        st.eval env >>= look)
      (do
        let vs ← st.eval env
        stmt.exec env
        look vs) := by
  unfold Overtakes
  refine (agree_of_look hlook).symm.trans ?_
  simp only [bind_assoc, pure_bind]

/-- The last statement belongs to what is compared. -/
theorem agree_concat {α : Type} {ss : List Stmt} {stmt : Stmt} {x y : Eval α} :
    (do
      Stmt.execAll env (ss ++ [stmt])
      x) σ = (do
      Stmt.execAll env ss
      y) σ ↔
      Agree env σ ss
        (do
          stmt.exec env
          x) y := by
  unfold Agree
  rw [Stmt.execAll_append, Stmt.execAll_singleton, bind_assoc]

/-- What more instructions do behind a faithful part of a run. -/
theorem execAll_append_of_faithful {insns : List Insn} {ss : List Stmt}
    (heval : (do
      Stmt.execAll env ss
      m.stack.eval env) σ = Insn.execAll env insns [] σ) (is : List Insn) :
    Insn.execAll env (insns ++ is) [] σ = (do
      Stmt.execAll env ss
      m.stack.eval env >>= Insn.execAll env is) σ := by
  rw [Insn.execAll_append, ← Eval.bind_congr_left heval, bind_assoc]

/-- Equal lists do not differ by a last statement. -/
theorem ne_concat_of_eq {ts us : List Stmt} (h : ts = us) (stmt : Stmt) : ts ≠ us ++ [stmt] := by
  rintro hts
  rw [h] at hts
  simpa using congrArg List.length hts

/-- The statements that were added to a scope are determined. -/
theorem eq_of_added {ts ss ss' : List Stmt} (h : ts = s.stmts ++ ss) (h' : ts = s.stmts ++ ss') :
    ss' = ss := List.append_cancel_left (h'.symm.trans h)

/-! ### The next part of a faithful run

Each part comes behind a faithful part `insns`, and is quiet exactly if it is faithful as well. What
it asks depends on the way in which it acts, and three of the four conditions always hold. -/

section NextPart

variable {g : Stage} {insns : List Insn}

/-- A part that adds and takes back no statement is always quiet. -/
theorem faithful_iff_of_replaces (h : Faithful env s σ insns g.before)
    (hstmts : g.after.scope.stmts = g.before.scope.stmts) (hswap : g.taken ≠ [.swap])
    (hpop : g.taken ≠ [.pop])
    (heval : g.after.stack.eval env = g.before.stack.eval env >>= Insn.execAll env g.taken) :
    Faithful env s σ (insns ++ g.taken) g.after ↔ g.Quiet env s σ := by
  obtain ⟨ss, hss, hbefore⟩ := h
  refine iff_of_true ⟨ss, hstmts.trans hss, ?_⟩ ⟨?_, ?_, ?_, ?_⟩
  · rw [execAll_append_of_faithful hbefore, heval]
  · exact fun _ stmt _ hadd => absurd hadd (ne_concat_of_eq hstmts stmt)
  · exact fun stmt htake => absurd htake (ne_concat_of_eq hstmts.symm stmt)
  · exact fun _ _ _ _ _ htaken => absurd htaken hswap
  · exact fun _ _ _ _ htaken => absurd htaken hpop

/-- A part that adds a statement puts it in front of the operands that wait. -/
theorem faithful_iff_of_adds {stmt : Stmt} {look : List Value → Eval (List Value)}
    (h : Faithful env s σ insns g.before) (hlook : Eval.Looks look)
    (hstmts : g.after.scope.stmts = g.before.scope.stmts ++ [stmt]) (hswap : g.taken ≠ [.swap])
    (hafter : g.after.stack.eval env = g.waiting.eval env >>= look)
    (heval : g.before.stack.eval env >>= Insn.execAll env g.taken = (do
      let vs ← g.waiting.eval env
      stmt.exec env
      look vs)) :
    Faithful env s σ (insns ++ g.taken) g.after ↔ g.Quiet env s σ := by
  obtain ⟨ss, hss, hbefore⟩ := h
  have hinsns := execAll_append_of_faithful hbefore g.taken
  have hkey : (do
      Stmt.execAll env (ss ++ [stmt])
      g.after.stack.eval env) σ = (do
      Stmt.execAll env ss
      g.before.stack.eval env >>= Insn.execAll env g.taken) σ ↔
      Overtakes env σ ss stmt g.waiting := by
    rw [agree_concat, hafter, heval, overtakes_iff hlook]
  have hstmts' : g.after.scope.stmts = s.stmts ++ (ss ++ [stmt]) := by
    rw [hstmts, hss, List.append_assoc]
  constructor
  · rintro ⟨ss', hss', heval'⟩
    -- what has been added is the same list, however the scope is split
    obtain rfl : ss' = ss ++ [stmt] := eq_of_added hstmts' hss'
    refine ⟨fun ss₁ stmt₁ hss₁ hadd => ?_, fun stmt₁ htake => ?_, ?_, ?_⟩
    · obtain rfl := eq_of_added hss hss₁
      obtain rfl : stmt₁ = stmt :=
        List.singleton_injective (List.append_cancel_left (hadd.symm.trans hstmts))
      exact hkey.1 (heval'.trans hinsns)
    · rw [hstmts] at htake
      simpa using congrArg List.length htake
    · exact fun _ _ _ _ _ htaken => absurd htaken hswap
    · exact fun _ _ _ _ _ _ hpop => absurd hstmts (ne_concat_of_eq hpop stmt)
  · intro hquiet
    exact ⟨ss ++ [stmt], hstmts', (hkey.2 (hquiet.added ss stmt hss hstmts)).trans hinsns.symm⟩

/-- A part that takes a statement back moves it behind the operands. -/
theorem faithful_iff_of_takesBack {stmt : Stmt} {look : List Value → Eval (List Value)}
    (h : Faithful env s σ insns g.before) (hlook : Eval.Looks look)
    (hstmts : g.before.scope.stmts = g.after.scope.stmts ++ [stmt]) (hswap : g.taken ≠ [.swap])
    (hafter : g.after.stack.eval env = (do
      let vs ← g.before.stack.eval env
      stmt.exec env
      look vs))
    (heval : g.before.stack.eval env >>= Insn.execAll env g.taken
      = g.before.stack.eval env >>= look) :
    Faithful env s σ (insns ++ g.taken) g.after ↔ g.Quiet env s σ := by
  obtain ⟨ss, hss, hbefore⟩ := h
  have hinsns := execAll_append_of_faithful hbefore g.taken
  -- the statements that are left, and behind them the one that is taken back
  have hkey : ∀ {ss'}, g.after.scope.stmts = s.stmts ++ ss' →
      ((do
        Stmt.execAll env ss'
        g.after.stack.eval env) σ = (do
        Stmt.execAll env ss
        g.before.stack.eval env >>= Insn.execAll env g.taken) σ ↔
        Overtakes env σ ss' stmt g.before.stack) := by
    intro ss' hss'
    obtain rfl : ss = ss' ++ [stmt] := by
      rw [hstmts, hss', List.append_assoc] at hss
      exact (List.append_cancel_left hss).symm
    rw [eq_comm, agree_concat, hafter, heval, overtakes_iff hlook]
  constructor
  · rintro ⟨ss', hss', heval'⟩
    refine ⟨fun _ stmt₁ _ hadd => ?_, fun stmt₁ htake => ?_, ?_, ?_⟩
    · rw [hstmts] at hadd
      simpa using congrArg List.length hadd
    · obtain rfl : stmt₁ = stmt :=
        List.singleton_injective (List.append_cancel_left (htake.symm.trans hstmts))
      exact ⟨ss', hss', (hkey hss').1 (heval'.trans hinsns)⟩
    · exact fun _ _ _ _ _ htaken => absurd htaken hswap
    · exact fun _ _ _ _ _ _ hpop => absurd hstmts (ne_concat_of_eq hpop.symm stmt)
  · intro hquiet
    obtain ⟨ss', hss', hovertakes⟩ := hquiet.takenBack stmt hstmts
    exact ⟨ss', hss', ((hkey hss').2 hovertakes).trans hinsns.symm⟩

/-- A part that exchanges two operands exchanges their computations. -/
theorem faithful_iff_of_swaps {o p : Operand} {st : Operands}
    (h : Faithful env s σ insns g.before)
    (hstmts : g.after.scope.stmts = g.before.scope.stmts) (htaken : g.taken = [.swap])
    (hbefore : g.before.stack = o :: p :: st) (hafter : g.after.stack = p :: o :: st) :
    Faithful env s σ (insns ++ g.taken) g.after ↔ g.Quiet env s σ := by
  obtain ⟨ss, hss, heval⟩ := h
  -- the machine computes the lower operand first and exchanges the values; the stack afterwards
  -- computes the upper one first
  have hrun : g.before.stack.eval env >>= Insn.execAll env g.taken = (do
      let vs ← st.eval env
      let b ← p.eval env
      let a ← o.eval env
      return b :: a :: vs) := by
    rw [htaken, hbefore, Insn.execAll_singleton]
    simp only [Operands.eval, bind_assoc, pure_bind, Insn.exec_swap]
  have hend : g.after.stack.eval env = (do
      let vs ← st.eval env
      let a ← o.eval env
      let b ← p.eval env
      return b :: a :: vs) := by
    rw [hafter]
    simp only [Operands.eval, bind_assoc, pure_bind]
  have hinsns := execAll_append_of_faithful heval g.taken
  rw [hrun] at hinsns
  constructor
  -- the other three conditions of quietness are about parts of other kinds
  · rintro ⟨ss', hss', heval'⟩
    refine ⟨fun _ stmt _ hadd => absurd hadd (ne_concat_of_eq hstmts stmt),
      fun stmt htake => absurd htake (ne_concat_of_eq hstmts.symm stmt), ?_, ?_⟩
    · intro ss₁ o₁ p₁ st₁ hss₁ _ hbefore₁
      obtain rfl := eq_of_added hss hss₁
      obtain rfl : ss' = ss₁ := eq_of_added hss (hstmts.symm.trans hss')
      cases hbefore.symm.trans hbefore₁
      rw [hend] at heval'
      exact heval'.trans hinsns
    · intro _ _ _ _ hpop
      rw [htaken] at hpop
      cases hpop
  · intro hquiet
    refine ⟨ss, hstmts.trans hss, ?_⟩
    rw [hend]
    exact (hquiet.exchanged ss o p st hss htaken hbefore).trans hinsns.symm

/-- A part that drops an operand leaves its computation out. -/
theorem faithful_iff_of_drops {o : Operand} {st : Operands}
    (h : Faithful env s σ insns g.before)
    (hstmts : g.after.scope.stmts = g.before.scope.stmts) (htaken : g.taken = [.pop])
    (hbefore : g.before.stack = o :: st) (hafter : g.after.stack = st) :
    Faithful env s σ (insns ++ g.taken) g.after ↔ g.Quiet env s σ := by
  obtain ⟨ss, hss, heval⟩ := h
  -- the machine computes the operand and forgets it, and the stack afterwards does not hold it
  have hrun : g.before.stack.eval env >>= Insn.execAll env g.taken = (do
      let vs ← st.eval env
      let _ ← o.eval env
      return vs) := by
    rw [htaken, hbefore, Insn.execAll_singleton]
    simp only [Operands.eval, bind_assoc, pure_bind, Insn.exec_pop]
  have hinsns := execAll_append_of_faithful heval g.taken
  rw [hrun] at hinsns
  constructor
  · rintro ⟨ss', hss', heval'⟩
    refine ⟨fun _ stmt _ hadd => absurd hadd (ne_concat_of_eq hstmts stmt),
      fun stmt htake => absurd htake (ne_concat_of_eq hstmts.symm stmt), ?_, ?_⟩
    · intro _ _ _ _ _ hswap
      rw [htaken] at hswap
      cases hswap
    · intro ss₁ o₁ st₁ hss₁ _ hbefore₁ _
      obtain rfl := eq_of_added hss hss₁
      obtain rfl : ss' = ss₁ := eq_of_added hss (hstmts.symm.trans hss')
      cases hbefore.symm.trans hbefore₁
      rw [hafter] at heval'
      exact heval'.trans hinsns
  · intro hquiet
    refine ⟨ss, hstmts.trans hss, ?_⟩
    rw [hafter]
    exact (hquiet.dropped ss o st hss htaken hbefore hstmts).trans hinsns.symm

/-- Behind a faithful part of a run, the next part is faithful exactly if it is quiet. -/
theorem faithful_iff_quiet (hacts : g.Acts env) (h : Faithful env s σ insns g.before) :
    Faithful env s σ (insns ++ g.taken) g.after ↔ g.Quiet env s σ := by
  cases hacts with
  | replaces hstmts hswap hpop heval => exact faithful_iff_of_replaces h hstmts hswap hpop heval
  | adds stmt look hlook hstmts hswap hafter heval =>
    exact faithful_iff_of_adds h hlook hstmts hswap hafter heval
  | takesBack stmt look hlook hstmts hswap hafter heval =>
    exact faithful_iff_of_takesBack h hlook hstmts hswap hafter heval
  | swaps o p st hstmts htaken hbefore hafter =>
    exact faithful_iff_of_swaps h hstmts htaken hbefore hafter
  | drops o st hstmts htaken hbefore hafter =>
    exact faithful_iff_of_drops h hstmts htaken hbefore hafter

end NextPart

/-- A chain of quiet parts carries faithfulness along. -/
theorem faithful_of_quiet {gs : List Stage} {insns : List Insn} (hchain : Chained m gs m')
    (hacts : ∀ g ∈ gs, g.Acts env) (hquiet : ∀ g ∈ gs, g.Quiet env s σ)
    (h : Faithful env s σ insns m) : Faithful env s σ (insns ++ gs.flatMap Stage.taken) m' := by
  induction gs generalizing m insns with
  | nil =>
    obtain rfl : m = m' := hchain
    simpa using h
  | cons g gs ih =>
    obtain ⟨rfl, hchain⟩ := hchain
    have hnext := (faithful_iff_quiet (hacts g (by simp)) h).2 (hquiet g (by simp))
    rw [List.flatMap_cons, ← List.append_assoc]
    exact ih hchain (fun g' hg' => hacts g' (by simp [hg']))
      (fun g' hg' => hquiet g' (by simp [hg']))
      hnext

/-- The parts before one of a chain lead to the state in front of it. -/
theorem chained_of_append {gs gs' : List Stage} {g : Stage}
    (h : Chained m (gs ++ g :: gs') m') : Chained m gs g.before := by
  induction gs generalizing m with
  | nil => exact h.1
  | cons g' gs ih => exact ⟨h.1, ih h.2⟩

/-- If not all members of a list have a property, one is the first without it. -/
theorem exists_first_not {α : Type} {P : α → Prop} {as : List α} (h : ∃ a ∈ as, ¬ P a) :
    ∃ bs a cs, as = bs ++ a :: cs ∧ (∀ b ∈ bs, P b) ∧ ¬ P a := by
  induction as with
  | nil => simp at h
  | cons x xs ih =>
    by_cases hx : P x
    · have hxs : ∃ a ∈ xs, ¬ P a := by
        obtain ⟨a, ha, hP⟩ := h
        rcases List.mem_cons.1 ha with rfl | ha
        · exact absurd hx hP
        · exact ⟨a, ha, hP⟩
      obtain ⟨bs, a, cs, rfl, hbs, ha⟩ := ih hxs
      refine ⟨x :: bs, a, cs, rfl, ?_, ha⟩
      intro b hb
      rcases List.mem_cons.1 hb with rfl | hb
      · exact hx
      · exact hbs b hb
    · exact ⟨[], x, xs, rfl, by simp, hx⟩

/-- At the start nothing has happened. -/
theorem faithful_start (env : Behaviour) (s : Scope) (σ : Machine) :
    Faithful env s σ [] (start s) :=
  ⟨[], (List.append_nil _).symm, rfl⟩

/-- A run of straight-line code from an empty stack does what its instructions do, for every
    behaviour of the called methods and on every machine on which all its parts are quiet. Where
    some part is not quiet, the run is wrong already for the instructions up to some part. -/
theorem run_faithful_exactly {insns : List Insn} (h : run config (start s) insns = .ok m)
    (hs : ∀ i ∈ insns, i.isStraight = true) (env : Behaviour) (σ : Machine) :
    ((∀ g ∈ stages config none (start s) insns, g.Quiet env s σ) → Faithful env s σ insns m) ∧
      ((∃ g ∈ stages config none (start s) insns, ¬ g.Quiet env s σ) →
        ∃ first m₁, first <+: insns ∧ run config (start s) first = .ok m₁ ∧
          ¬ Faithful env s σ first m₁) := by
  -- the stages make up the whole run, and each acts in one of five ways
  obtain ⟨hchain, htaken, harises⟩ := stages_of_runAfter hs h
  have hacts : ∀ g ∈ stages config none (start s) insns, g.Acts env := by
    intro g hg
    refine (harises g hg).acts fun i hi => hs i ?_
    rw [← htaken]
    exact List.mem_flatMap.2 ⟨g, hg, hi⟩
  constructor
  · intro hquiet
    have hfaithful := faithful_of_quiet hchain hacts hquiet (faithful_start env s σ)
    rwa [List.nil_append, htaken] at hfaithful
  · intro hnot
    -- up to the first stage that is not quiet, everything is faithful
    obtain ⟨gs, g, gs', hgs, hquiet, hg⟩ := exists_first_not hnot
    rw [hgs] at hchain hacts htaken
    refine ⟨(gs ++ [g]).flatMap Stage.taken, g.after, ?_, runAfter_of_stages hs h hgs, ?_⟩
    · have hsplit : gs ++ g :: gs' = (gs ++ [g]) ++ gs' := List.append_cons gs g gs'
      refine ⟨gs'.flatMap Stage.taken, ?_⟩
      rw [← List.flatMap_append, ← hsplit, htaken]
    · have hbefore := faithful_of_quiet (chained_of_append hchain)
        (fun g' hg' => hacts g' (by simp [hg'])) hquiet (faithful_start env s σ)
      intro hfaithful
      rw [List.flatMap_append, List.flatMap_singleton] at hfaithful
      exact hg ((faithful_iff_quiet (hacts g (by simp)) hbefore).1 hfaithful)

/-! ### Code without waiting operands -/

/-- The part exchanges and drops nothing and takes no statement back, and nothing waits when it
    adds one. -/
def Stage.isOrdered (g : Stage) : Bool :=
  g.taken ≠ [.swap] && g.taken ≠ [.pop] && g.before.scope.size ≤ g.after.scope.size &&
    (g.after.scope.size ≤ g.before.scope.size || g.waiting.isEmpty)

/-- A part without waiting operands is quiet, whatever the called methods do and on every
    machine. -/
theorem Stage.quiet_of_isOrdered {g : Stage} (h : g.isOrdered = true) : g.Quiet env s σ := by
  simp only [isOrdered, Bool.and_eq_true, Bool.or_eq_true, decide_eq_true_eq,
    List.isEmpty_iff] at h
  unfold Scope.size at h
  obtain ⟨⟨⟨hswap, hpop⟩, hsize⟩, hwaiting⟩ := h
  refine ⟨fun ss stmt _ hadd => ?_, fun stmt htake => ?_, ?_, ?_⟩
  · have hlength := congrArg List.length hadd
    rw [List.length_append, List.length_singleton] at hlength
    rcases hwaiting with hle | hempty
    · omega
    · unfold Overtakes
      rw [hempty]
      rfl
  · have hlength := congrArg List.length htake
    rw [List.length_append, List.length_singleton] at hlength
    omega
  · exact fun _ _ _ _ _ htaken => absurd htaken hswap
  · exact fun _ _ _ _ htaken => absurd htaken hpop

/-! ### Two runs -/

/-- A scope that knows one local of type `int`. -/
def oneLocal : Scope := Scope.withLocals .method (Locals.ofList [⟨0, "x", Descriptor.int⟩])

/-- All locals and static fields are 0. -/
def zeroed : Machine := ⟨fun _ => .int 0, fun _ => .int 0, []⟩

/-- Every call returns 0 and changes nothing. -/
def constantly : Behaviour := fun _ statics => (some (.int 0), statics)

/-- `x = x++ + x`. -/
def addedToItself : List Insn :=
  [.load 0 Descriptor.int, .increment 0 1, .load 0 Descriptor.int, .binary .add Descriptor.int,
    .store 0 Descriptor.int]

/-- The increment belongs to the first operand, so the second one reads what it has made. -/
theorem run_addedToItself : ∃ m, run {} (start oneLocal) addedToItself = .ok m ∧
    Faithful constantly oneLocal zeroed addedToItself m := by
  have hs : ∀ i ∈ addedToItself, i.isStraight = true := by decide
  have hordered : (stages {} none (start oneLocal) addedToItself).all Stage.isOrdered = true := by
    decide +kernel
  have hsucceeds : (run {} (start oneLocal) addedToItself).isOk = true := by decide +kernel
  cases h : run {} (start oneLocal) addedToItself with
  | error e =>
    rw [h] at hsucceeds
    cases hsucceeds
  | ok m =>
    refine ⟨m, rfl, (run_faithful_exactly h hs constantly zeroed).1 fun g hg => ?_⟩
    exact Stage.quiet_of_isOrdered (List.all_eq_true.1 hordered g hg)

/-- An increment becomes part of the read before it, and the read behind it takes back the
    statement of an older increment. -/
def incrementedTwice : List Insn :=
  [.increment 0 1, .const (.int 7), .load 0 Descriptor.int, .increment 0 1, .load 0 Descriptor.int]

/-- Not every run is faithful: on a local that is 0 these instructions leave 7, 1 and 2 on the
    stack, and the values that wait in the end are 7, 0 and 2. -/
theorem run_incrementedTwice :
    ¬ ∀ (config : Config) (s : Scope) (insns : List Insn) (m : Simulation), s.locked = false →
      (∀ i ∈ insns, i.isStraight = true) → run config (start s) insns = .ok m →
      ∀ env σ, Faithful env s σ insns m := by
  intro hclaim
  have hs : ∀ i ∈ incrementedTwice, i.isStraight = true := by decide
  obtain ⟨ss, hss, heval⟩ := hclaim {} oneLocal incrementedTwice _ rfl hs rfl constantly zeroed
  obtain rfl : ss = [] := List.append_cancel_left
    (show oneLocal.stmts ++ ss = oneLocal.stmts ++ [] from hss.symm)
  exact absurd (congrArg Prod.fst heval) (by decide)

end Simulation

end Restructure
