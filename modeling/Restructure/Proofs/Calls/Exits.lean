import Restructure.Proofs.Calls.Arms
import Restructure.Proofs.Region.Begun
import Restructure.Proofs.Region.Zones

namespace Restructure

/-!
# Exits — pieces of code that follow the graph

A piece of code follows the graph from a block on if the places to which it can go do so: the end of
its region, the place behind the innermost construct, and the next round of the innermost loop. Each
of these is asked for only where control really gets there.

* `Exits.Lead` — the places to which a piece of code can go follow the graph.
* `Carries`, `Begins`, `Forks` — what is known of the code of a region, of a block that is written,
  and of what comes behind a test.
* `Forks.conditional`, `Forks.guard`, `Forks.switch` — the constructs behind a test.
* `Begins.goto`, `Begins.leave`, `Begins.fork` — blocks, by what they end in.
* `Begins.endless`, `Begins.doWhile` — loops.

A block makes a call before control goes anywhere, so its exits need to agree for one call less.
-/

variable {c : Context} {answers : Answers} {Z Z' : Nat → Prop} {W W₁ W' : List Nat} {i j n : Nat}
  {frames : Frames} {stop next : Option Nat} {k : Exits}

/-! ### Places to go -/

/-- The places to which code of a region can go follow the graph for `i` calls, as far as control
    stays in the zone `Z` and comes there through the blocks `W`. -/
structure Exits.Lead (c : Context) (answers : Answers) (Z : Nat → Prop) (W : List Nat) (i : Nat)
    (frames : Frames) (stop : Option Nat) (k : Exits) : Prop where
  onward : ∀ s, stop = some s → Z s → c.Reached W s →
    Run.Follows i k.onward (c.graph.behaviour answers s)
  leave : ∀ s, frames.follow? = some s → Z s → c.Reached W s →
    Run.Follows i k.leave (c.graph.behaviour answers s)
  nextRound : ∀ s, frames.nextRound? = some s →
    Run.Follows i k.nextRound (c.graph.behaviour answers s)

namespace Exits.Lead

/-- With fewer blocks to lead to, fewer blocks written and fewer rounds the exits still lead on. -/
theorem mono (h : k.Lead c answers Z W i frames stop) (hZ : ∀ m, Z' m → Z m) (hW : W' ⊆ W)
    (hj : j ≤ i) : k.Lead c answers Z' W' j frames stop where
  onward s hs hz hr := (h.onward s hs (hZ s hz) (hr.mono hW)).mono hj
  leave s hs hz hr := (h.leave s hs (hZ s hz) (hr.mono hW)).mono hj
  nextRound s hs := (h.nextRound s hs).mono hj

/-- Another place at the end of the region. -/
theorem withOnward (h : k.Lead c answers Z W i frames stop) {r : Run}
    (hr : ∀ s, next = some s → Z s → c.Reached W s →
      Run.Follows i r (c.graph.behaviour answers s)) :
    Exits.Lead c answers Z W i frames next { k with onward := r } where
  onward := hr
  leave := h.leave
  nextRound := h.nextRound

end Exits.Lead

/-- What is known where a region is written: the constructs around, and where the region ends. -/
structure Site (c : Context) (frames : Frames) (stop : Option Nat) (W : List Nat) : Prop where
  sound : frames.Sound c W
  stop : ∀ s, stop = some s → frames.nextRound? = some s ∨ c.Anchored W s

/-- With more blocks written the place stays what it is. -/
theorem Site.mono (h : Site c frames stop W) (hW : W ⊆ W') : Site c frames stop W' where
  sound := h.sound.mono hW
  stop s hs := (h.stop s hs).imp_right fun ha => ha.mono hW

/-- Inside a switch whose code is left for a block behind a written one. -/
theorem Frames.Sound.switch (h : frames.Sound c W) (hnext : ∀ s, next = some s → c.Anchored W s) :
    Frames.Sound c W (.switch next :: frames) where
  loop := h.loop
  follow s hs := .inl (hnext s hs)

/-! ### Pieces of code -/

/-- The statements of a region follow the graph from its first block on. -/
def Carries (c : Context) (answers : Answers) (frames : Frames) (n : Nat) (stop : Option Nat)
    (W : List Nat) (us : List Stmt) (W' : List Nat) : Prop :=
  Site c frames stop W → c.Reached W n → ∀ Z : Nat → Prop, Z n → c.Closed Z frames W → ∀ i k,
    (∀ j < i, k.Lead c answers Z W' j frames stop) →
      (c.jump ⟨frames, W, stop⟩ n ≠ .enter → k.Lead c answers Z W' i frames stop) →
        Run.Follows i (Stmt.runAll answers us k) (c.graph.behaviour answers n)

/-- The statements for a block that is written follow the graph from it on, and then go on with
    block `next`. -/
def Begins (c : Context) (answers : Answers) (frames : Frames) (n : Nat) (stop : Option Nat)
    (W : List Nat) (us : List Stmt) (next : Option Nat) (W' : List Nat) : Prop :=
  Site c frames stop W → c.Reached W n → ∀ Z, c.Room Z frames W n → ∀ i k,
    (∀ j < i, k.Lead c answers Z W' j frames next) →
      Run.Follows i (Stmt.runAll answers us k) (c.graph.behaviour answers n)

/-- The statements behind block `n` ask a test, follow the graph from the target of its answer on,
    and then go on with block `next`. -/
def Forks (c : Context) (answers : Answers) (frames : Frames) (n : Nat) (stop : Option Nat)
    (W : List Nat) (g : MethodRef) (target : Int → Nat) (us : List Stmt) (next : Option Nat)
    (W' : List Nat) : Prop :=
  Site c frames stop W → c.Reached W n → n ∈ W → ∀ Z, c.Closed Z frames W →
    (∀ m ∈ c.graph.successors n, Z m) → ∀ k, ∃ f, Stmt.runAll answers us k = Run.ask answers g f ∧
      ∀ i, k.Lead c answers Z W' i frames next → ∀ v,
        Run.Follows i (f v) (c.graph.behaviour answers (target v))

/-- The code of a region follows the graph if the places to which it can go do so. -/
theorem Carries.follows {us : List Stmt} (h : Carries c answers frames n stop W us W')
    (hsite : Site c frames stop W) (hr : c.Reached W n) (hn : Z n) (hZ : c.Closed Z frames W)
    (hk : k.Lead c answers Z W' i frames stop) :
    Run.Follows i (Stmt.runAll answers us k) (c.graph.behaviour answers n) :=
  h hsite hr Z hn hZ i k (fun _ hj => hk.mono (fun _ h => h) (List.Subset.refl _) (Nat.le_of_lt hj))
    fun _ => hk

/-- Code that goes on with the region behind it. -/
theorem Begins.goOn {us vs : List Stmt} {t : Nat}
    (h : Begins c answers frames n stop W us (some t) W₁)
    (h' : Carries c answers frames t stop W₁ vs W') (hW : W ⊆ W₁) (hW₁ : W₁ ⊆ W') :
    Begins c answers frames n stop W (us ++ vs) stop W' := by
  intro hsite hr Z hroom i k hk
  rw [Stmt.runAll_append]
  refine h hsite hr Z hroom i _ fun j hj => ?_
  refine Exits.Lead.withOnward ((hk j hj).mono (fun _ h => h) hW₁ (Nat.le_refl j)) ?_
  intro s hs hz hreach
  obtain rfl : t = s := Option.some.inj hs
  exact h'.follows (hsite.mono hW) hreach hz (hroom.closed.mono hW) (hk j hj)

/-- Code behind which control does not go on. -/
theorem Begins.ends {us : List Stmt} (h : Begins c answers frames n stop W us none W') :
    Begins c answers frames n stop W us stop W' := by
  intro hsite hr Z hroom i k hk
  refine h hsite hr Z hroom i k fun j hj => ?_
  exact ⟨(fun _ hs => nomatch hs), (hk j hj).leave, (hk j hj).nextRound⟩

/-- A label in front changes nothing. -/
theorem Begins.label {us : List Stmt} (h : Begins c answers frames n stop W us next W') :
    Begins c answers frames n stop W (.label n :: us) next W' := h

/-- A test may as well be asked where fewer blocks have been written. -/
theorem Forks.mono {g : MethodRef} {target : Int → Nat} {us : List Stmt}
    (h : Forks c answers frames n stop W₁ g target us next W') (hW : W ⊆ W₁) :
    Forks c answers frames n stop W g target us next W' := fun hsite hr hn Z hZ hsucc =>
  h (hsite.mono hW) (hr.mono hW) (hW hn) Z (hZ.mono hW) hsucc

/-! ### Conditionals -/

/-- The test of a block whose value is asked for, or the opposite. -/
def askedTest (g : MethodRef) (r : Relation) (isTaken : Bool) : Cond :=
  if isTaken then zeroTest (.staticCall g []) r else (zeroTest (.staticCall g []) r).negate

variable {g : MethodRef} {r : Relation} {isTaken : Bool} {taken fallthrough start other : Nat}

/-- The test asks its question, and goes on by the answer. -/
theorem askedTest_run {holds fails : Run} : (askedTest g r isTaken).run answers holds fails
    = Run.ask answers g fun v => if r.holds v 0 = isTaken then holds else fails := by
  cases isTaken with
  | true => exact zeroTest_run
  | false =>
    refine negate_zeroTest_run.trans (zeroTest_run.trans ?_)
    refine congrArg (Run.ask answers g) (funext fun v => ?_)
    cases r.holds v 0 <;> rfl

/-- Where the answer of the test leads. -/
theorem Run.follows_chosen (hchosen : Chosen taken fallthrough isTaken start other)
    {next : Nat → Run} {a b : Run} (ha : Run.Follows i a (next start))
    (hb : Run.Follows i b (next other)) (holds : Bool) :
    Run.Follows i (if holds = isTaken then a else b)
      (next (if holds then taken else fallthrough)) := by
  cases hchosen with
  | taken => cases holds <;> simpa
  | fallthrough => cases holds <;> simpa

/-- A conditional whose arms follow the graph from the targets of its test on. -/
theorem Forks.ifElse {body : Scope} {orElse : Option Scope}
    (hchosen : Chosen taken fallthrough isTaken start other)
    (h : Site c frames stop W → c.Reached W n → n ∈ W → ∀ Z, c.Closed Z frames W →
      (∀ m ∈ c.graph.successors n, Z m) → ∀ i k, k.Lead c answers Z W' i frames next →
        Run.Follows i (Stmt.runAll answers body.stmts k) (c.graph.behaviour answers start) ∧
          Run.Follows i (Scope.runIf answers orElse k) (c.graph.behaviour answers other)) :
    Forks c answers frames n stop W g (fun v => if r.holds v 0 then taken else fallthrough)
      [.ifElse (askedTest g r isTaken) body orElse] next W' := by
  intro hsite hr hn Z hZ hsucc k
  refine ⟨fun v => if r.holds v 0 = isTaken then body.run answers k else
    Scope.runIf answers orElse k, ?_, fun i hk v => ?_⟩
  · rw [Stmt.runAll_singleton, Stmt.run_ifElse, askedTest_run]
  · obtain ⟨hbody, horElse⟩ := h hsite hr hn Z hZ hsucc i k hk
    rw [← Scope.run_eq] at hbody
    exact Run.follows_chosen hchosen hbody horElse (r.holds v 0)

/-- The arms of a conditional meet behind it. -/
theorem Forks.conditional {body : Scope} {orElse : Option Scope} {merge : Nat}
    (hchosen : Chosen taken fallthrough isTaken start other)
    (hstart : start ∈ c.graph.successors n) (hother : other ∈ c.graph.successors n)
    (hmerge : c.graph.postDominator? n = some merge)
    (hbody : Carries c answers frames start (some merge) W body.stmts W₁)
    (horElse : match orElse with
      | some e => Carries c answers frames other (some merge) W₁ e.stmts W'
      | none => other = merge) (hW : W ⊆ W₁) (hW₁ : W₁ ⊆ W') :
    Forks c answers frames n stop W g (fun v => if r.holds v 0 then taken else fallthrough)
      [.ifElse (askedTest g r isTaken) body orElse] (some merge) W' := by
  refine Forks.ifElse hchosen fun hsite hr hn Z hZ hsucc i k hk => ?_
  have harm : Site c frames (some merge) W :=
    ⟨hsite.sound, fun s hs => .inr (Option.some.inj hs ▸ .merge hr hn hmerge)⟩
  refine ⟨hbody.follows harm (.step hr hn hstart) (hsucc start hstart) hZ
    (hk.mono (fun _ h => h) hW₁ (Nat.le_refl i)), ?_⟩
  have hreach : c.Reached W other := .step hr hn hother
  cases orElse with
  | some e =>
    rw [Scope.runIf, Scope.run_eq]
    exact horElse.follows (harm.mono hW) (hreach.mono hW) (hsucc other hother) (hZ.mono hW) hk
  | none =>
    obtain rfl : other = merge := horElse
    exact hk.onward other rfl (hsucc other hother) (hreach.mono (List.Subset.trans hW hW₁))

/-- A guard around an arm that never comes back. -/
theorem Forks.guard {body : Scope} {size : Nat}
    (hchosen : Chosen taken fallthrough isTaken start other)
    (hstart : start ∈ c.graph.successors n) (hother : other ∈ c.graph.successors n)
    (hsize : c.closedArmSize? (Position.guarded ⟨frames, W, stop⟩) start other = some size)
    (hbody : Carries c answers frames start (Position.guarded ⟨frames, W, stop⟩).stop W
      body.stmts W')
    (hW : W ⊆ W') :
    Forks c answers frames n stop W g (fun v => if r.holds v 0 then taken else fallthrough)
      [.ifElse (askedTest g r isTaken) body none] (some other) W' := by
  refine Forks.ifElse hchosen fun hsite hr hn Z hZ hsucc i k hk => ?_
  have hreach : ∀ m ∈ c.graph.successors n, c.Reached W m := fun m hm => .step hr hn hm
  refine ⟨?_, hk.onward other rfl (hsucc other hother) ((hreach other hother).mono hW)⟩
  obtain ⟨S, hS, hconfined⟩ := Context.exists_confined hsize (c.graph.lt_of_successor hstart)
  -- the arm ends where the region does, unless this is where the loop goes on
  have hguarded : (Position.guarded ⟨frames, W, stop⟩).stop = none ∨
      ∃ s, stop = some s ∧ frames.nextRound? ≠ some s ∧
        Position.guarded ⟨frames, W, stop⟩ = ⟨frames, W, some s⟩ := by
    unfold Position.guarded
    cases stop with
    | none => exact .inl rfl
    | some s =>
      by_cases hs : frames.nextRound? = some s
      · simp [hs]
      · simp [hs]
  rcases hguarded with hnone | ⟨s, rfl, hs, hguarded⟩
  · rw [hnone] at hbody
    refine hbody.follows ⟨hsite.sound, (fun _ hs => nomatch hs)⟩ (hreach start hstart)
      (hsucc start hstart) hZ ⟨(fun _ hs => nomatch hs), hk.leave, hk.nextRound⟩
  · -- the end of the region lies outside of what the arm reaches
    rw [hguarded] at hbody hconfined
    have ha := (hsite.stop s rfl).resolve_left hs
    obtain ⟨Z', hsub, hmem, hZ', hout⟩ := hZ.exists_within hsite.sound ha hconfined
    have hk' := hk.mono hsub (List.Subset.refl W') (Nat.le_refl i)
    refine hbody.follows ⟨hsite.sound, fun t ht => .inr (Option.some.inj ht ▸ ha)⟩
      (hreach start hstart) (hmem start (hsucc start hstart) hS) hZ'
      ⟨fun t ht hz => ?_, hk'.leave, hk'.nextRound⟩
    obtain rfl : s = t := Option.some.inj ht
    exact absurd hz hout

/-! ### Switches -/

/-- What becomes of the statements `bs` of an arm: a jump behind the switch at their end is taken
    away, and the arm that ends with it breaks. -/
inductive Closes (next follow : Option Nat) : (bs ss : List Stmt) → (breaks : Bool) → Prop
  | jump {ss : List Stmt} : Closes next follow (ss ++ [.breakOut]) ss true
  | same {ss : List Stmt} {breaks : Bool} (h : breaks = true → next = follow) :
      Closes next follow ss ss breaks

/-- What becomes of the end of an arm. -/
theorem closes_of_closeArm {next follow : Option Nat} {s : Scope} {a : Bool × Scope}
    (h : closeArm next follow s = .ok a) : Closes next follow s.stmts a.2.stmts a.1 := by
  rcases closeArm_inv h with ⟨hstmts, hbreaks⟩ | ⟨heq, hnext⟩
  · rw [hstmts, hbreaks]
    exact .jump
  · rw [heq]
    exact .same hnext

/-- An arm goes on behind the switch if it breaks, and else with what comes next. -/
theorem Closes.follows {follow : Option Nat} {bs ss : List Stmt} {breaks : Bool} {r target : Run}
    {Q : Nat → Prop} {next' : Nat → Run} (h : Closes next follow bs ss breaks)
    (hbs : ∀ r, (∀ s, next = some s → Q s → Run.Follows i r (next' s)) →
      Run.Follows i (Stmt.runAll answers bs { k with onward := r }) target)
    (hnext : ∀ s, next = some s → Q s → Run.Follows i r (next' s))
    (hleave : ∀ s, follow = some s → Q s → Run.Follows i k.leave (next' s)) :
    Run.Follows i
      (Stmt.runAll answers ss { k with onward := if breaks then k.leave else r }) target := by
  cases h with
  | jump =>
    have hjump := hbs r hnext
    rw [Stmt.runAll_append] at hjump
    exact hjump
  | same hbreaks =>
    refine hbs _ ?_
    cases breaks with
    | true =>
      rw [hbreaks rfl]
      exact hleave
    | false => exact hnext

variable {follow : Option Nat}

/-- The statements of arms follow the graph from the starts of these arms on. -/
def CarriesArms (c : Context) (answers : Answers) (frames : Frames) (follow : Option Nat)
    (W : List Nat) (es : List ArmEntry) (arms : List SwitchArm) (W' : List Nat) : Prop :=
  frames.Sound c W → (∀ s, follow = some s → c.Anchored W s) → ∀ Z : Nat → Prop,
    c.Closed Z frames W → (∀ e ∈ es, Z e.start ∧ c.Reached W e.start) → ∀ i (k : Exits),
      k.onward = k.leave → k.Lead c answers Z W' i frames follow →
        List.Forall₂ (ArmRun.Leads i (c.graph.behaviour answers)) es (SwitchArm.runs answers arms k)

/-- No arms carry nothing. -/
theorem carriesArms_nil : CarriesArms c answers frames follow W [] [] W :=
  fun _ _ _ _ _ _ _ _ _ => .nil

/-- One more arm: it goes on behind the switch if it breaks, and else with the arms behind it. -/
theorem CarriesArms.cons {e : ArmEntry} {es : List ArmEntry} {arms : List SwitchArm} {breaks : Bool}
    {body : Scope} (hfollow : frames.follow? = follow)
    (harm : (follow = some e.start ∧ body.stmts = [] ∧ breaks = true) ∨
      ∃ bs, Carries c answers frames e.start ((es.head?.map (·.start)).or follow) W bs W₁ ∧
        Closes ((es.head?.map (·.start)).or follow) follow bs body.stmts breaks)
    (hrest : CarriesArms c answers frames follow W₁ es arms W') (hW : W ⊆ W₁) (hW₁ : W₁ ⊆ W') :
    CarriesArms c answers frames follow W (e :: es) (⟨e.keys, e.isDefault, body, breaks⟩ :: arms)
      W' := by
  intro hsound hanchored Z hZ hes i k hk hlead
  have hes' : ∀ e ∈ es, Z e.start ∧ c.Reached W₁ e.start := fun e he =>
    (hes e (List.mem_cons_of_mem _ he)).imp_right fun hr => hr.mono hW
  have hruns := hrest (hsound.mono hW) (fun s hs => (hanchored s hs).mono hW) Z (hZ.mono hW) hes'
    i k hk hlead
  obtain ⟨hstart, hreach⟩ := hes e (List.mem_cons_self ..)
  rw [SwitchArm.runs_cons]
  generalize SwitchArm.runs answers arms k = rs at hruns ⊢
  refine .cons ⟨rfl, rfl, ?_⟩ hruns
  rw [Scope.run_eq]
  have hleave : ∀ s, follow = some s → Z s ∧ c.Reached W₁ s →
      Run.Follows i k.leave (c.graph.behaviour answers s) := fun s hs ⟨hz, hr⟩ =>
    hlead.leave s (hfollow.trans hs) hz (hr.mono hW₁)
  rcases harm with ⟨hown, hnil, hbreaks⟩ | ⟨bs, hcarries, hcloses⟩
  · rw [hnil, hbreaks]
    exact hleave _ hown ⟨hstart, hreach.mono hW⟩
  · have hsite : Site c frames ((es.head?.map (·.start)).or follow) W := by
      refine ⟨hsound, fun s hs => .inr ?_⟩
      cases es with
      | nil => exact hanchored s hs
      | cons e' es =>
        obtain rfl : e'.start = s := Option.some.inj hs
        exact .reached (hes e' (by simp)).2
    -- without a jump the arm goes on with the next one
    have hnext : ∀ s, (es.head?.map (·.start)).or follow = some s → Z s ∧ c.Reached W₁ s →
        Run.Follows i (ArmRun.first rs k.onward) (c.graph.behaviour answers s) := by
      intro s hs hr
      cases hruns with
      | nil =>
        rw [hk]
        exact hleave s hs hr
      | cons hlead _ =>
        obtain rfl := Option.some.inj hs
        exact hlead.run
    refine hcloses.follows (fun r hr => ?_) hnext hleave
    refine hcarries.follows hsite hreach hstart hZ ?_
    exact (hlead.mono (fun _ h => h) hW₁ (Nat.le_refl i)).withOnward fun s hs hz hreach =>
      hr s hs ⟨hz, hreach⟩

/-- The arms of a switch, in the order of their starts. -/
theorem Forks.switch {cases : List (Int × Nat)} {default : Nat} {follow own : Option Nat}
    {arms : List SwitchArm} (hkeys : (cases.map (·.1)).Nodup)
    (hsucc : ∀ m, m ∈ cases.map (·.2) ∨ m = default → m ∈ c.graph.successors n)
    (hfollow : c.graph.postDominator? n = follow) (hown : ∀ s, own = some s → follow = some s)
    (harms : CarriesArms c answers (.switch own :: frames) own W (groupCases cases default own) arms
      W') (hW : W ⊆ W') :
    Forks c answers frames n stop W g (switchTarget cases default)
      [.switch (.staticCall g []) arms] follow W' := by
  intro hsite hr hn Z hZ hzone k
  refine ⟨fun v =>
      ArmRun.select (SwitchArm.runs answers arms { k with leave := k.onward }) v k.onward,
    Stmt.run_switch k _ arms, fun i hk v => ?_⟩
  have hreach : ∀ m, m ∈ cases.map (·.2) ∨ m = default → Z m ∧ c.Reached W m := fun m hm =>
    ⟨hzone m (hsucc m hm), .step hr hn (hsucc m hm)⟩
  have hanchored : ∀ s, own = some s → c.Anchored W s := fun s hs =>
    .merge hr hn (hfollow.trans (hown s hs))
  have hbehind : ∀ s, own = some s → Z s → c.Reached W' s →
      Run.Follows i k.onward (c.graph.behaviour answers s) := fun s hs =>
    hk.onward s (hown s hs)
  -- inside the switch a jump behind it and the end of the last arm lead to the same place
  have hruns := harms (hsite.sound.switch hanchored) hanchored Z (hZ.push fun _ h => h)
    (fun e he => hreach e.start
      ((mem_groupCases_iff.1 (List.mem_map_of_mem he)).imp_right And.left))
    i { k with leave := k.onward } rfl ⟨hbehind, hbehind, hk.nextRound⟩
  refine ArmRun.select_follows hkeys hruns (fun hdefault => ?_) v
  obtain ⟨hz, hr⟩ := hreach default (.inr rfl)
  exact hbehind default hdefault hz (hr.mono hW)

/-! ### Blocks -/

section Blocks

variable {f : MethodRef}

/-- A block that goes on. -/
theorem Begins.goto {t : Nat} (hc : c.graph.Traced) (hf : f.Marks)
    (hb : c.graph.block? n = some ⟨[.invoke .static f], .goto t⟩) (hn : n ∈ W') (hW : W ⊆ W') :
    Begins c answers frames n stop W [.eval (.staticCall f [])] (some t) W' := by
  intro hsite hr Z hroom i k hk
  have ht : t ∈ c.graph.successors n :=
    (FlowGraph.mem_successors_of_block hb).2 (List.mem_singleton_self t)
  rw [FlowGraph.behaviour_eq hc hb, Block.run_goto hf]
  refine Run.follows_call fun j hj => ?_
  exact (hk j hj).onward t rfl (hroom.successors t ht) (.step (hr.mono hW) hn ht)

/-- A block that ends the method. -/
theorem Begins.leave {exit : Terminator} (hc : c.graph.Traced) (hf : f.Marks)
    (hb : c.graph.block? n = some ⟨[.invoke .static f], exit⟩) (hexit : exit.successors = []) :
    Begins c answers frames n stop W [.eval (.staticCall f []), .ret none] none W' := by
  intro _ _ Z _ i k _
  rw [FlowGraph.behaviour_eq hc hb, Block.run_leave hf hexit]
  exact Run.follows_call fun j _ => Run.follows_halt j

/-- A block with a test, and what comes behind the test. -/
theorem Begins.fork {b : Block} {target : Int → Nat} {us : List Stmt} (hc : c.graph.Traced)
    (hb : c.graph.block? n = some b)
    (hrun : b.run answers (c.graph.behaviour answers) = Run.call f (Run.ask answers g fun v =>
      c.graph.behaviour answers (target v)))
    (h : Forks c answers frames n stop W₁ g target us next W') (hn : n ∈ W₁) (hW : W ⊆ W₁) :
    Begins c answers frames n stop W (.eval (.staticCall f []) :: us) next W' := by
  intro hsite hr Z hroom i k hk
  obtain ⟨f', hask, hfollows⟩ := h (hsite.mono hW) (hr.mono hW) hn Z (hroom.closed.mono hW)
    hroom.successors k
  rw [FlowGraph.behaviour_eq hc hb, hrun, Stmt.runAll_cons, hask]
  refine Run.follows_call fun j hj => Run.follows_ask fun v l hl => ?_
  exact hfollows l (hk l (Nat.lt_trans hl hj)) v

end Blocks

/-! ### Loops -/

section Loops

variable {l : Loop} {z : Nat}

/-- Inside a loop that has been begun, and that is left for a block outside. -/
theorem Frames.sound_loop (hr : c.Reached W n) (hl : c.graph.loopAt? n = some l)
    (hz : z = n ∨ ∀ m ∈ c.graph.successors z, m = n ∨ next = some m)
    (hout : ∀ s, next = some s → s ∉ l.body) :
    Frames.Sound c W (.loop n z l.body next :: frames) where
  loop header next' body follow hf := by
    cases hf
    exact ⟨hr, c.graph.loopAt_natural hl, hz⟩
  follow s hs := by
    refine .inr ?_
    show l.body.contains s = false
    simpa using hout s hs

/-- The zone of the header of a loop is the zone of the header inside the loop. -/
theorem Context.Room.inside (h : c.Room Z frames W n) (hl : c.graph.loopAt? n = some l)
    (hheader : frames.isHeader n = false) : c.Room Z (.loop n z l.body next :: frames) W n := by
  have hinside : Frames.isHeader (.loop n z l.body next :: frames) n = true := by
    simp [Frames.isHeader, Frame.isLoopAt]
  refine ⟨h.mem, h.push l z next hl hheader, h.successors, fun l' next' follow hl' hnot => ?_,
    fun l' z' hl' hnot => ?_⟩
  · rw [hinside] at hnot
    cases hnot
  · rw [hinside] at hnot
    cases hnot

/-- A loop without a test: a jump to the next round at its end can be left out. -/
theorem Begins.endless {us : List Stmt} {body : Scope} (hl : c.graph.loopAt? n = some l)
    (hheader : frames.isHeader n = false) (hout : ∀ s, next = some s → s ∉ l.body)
    (h : Begins c answers (.loop n n l.body next :: frames) n none W us none W')
    (hbody : Trimmed .continueLoop us body.stmts) :
    Begins c answers frames n stop W [.whileLoop .always body] next W' := by
  intro hsite hr Z hroom i k hk
  rw [Stmt.runAll_singleton, Stmt.run_whileLoop]
  refine Run.follows_loop fun j hj again hagain => ?_
  -- falling off the end of the body begins the next round, as the jump does
  have hround : Stmt.runAll answers us ⟨again, k.onward, again⟩
      = body.run answers ⟨again, k.onward, again⟩ := by
    rw [Scope.run_eq]
    cases hbody with
    | last =>
      rw [Stmt.runAll_append]
      rfl
    | same => rfl
  show Run.Follows j (body.run answers ⟨again, k.onward, again⟩) (c.graph.behaviour answers n)
  rw [← hround]
  have hsite' : Site c (.loop n n l.body next :: frames) none W :=
    ⟨Frames.sound_loop hr hl (.inl rfl) hout, (fun _ hs => nomatch hs)⟩
  refine h hsite' hr Z (hroom.inside hl hheader) j _ fun j' hj' =>
    ⟨(fun _ hs => nomatch hs), ?_, ?_⟩
  · intro s hs hz hreach
    exact (hk j' (by omega)).onward s hs hz hreach
  · intro s hs
    obtain rfl : n = s := Option.some.inj hs
    exact hagain j' hj'

/-- A block with a test makes its call and goes on as the answer says. -/
theorem Run.follows_branch {f : MethodRef} {a b : Run} (hc : c.graph.Traced) (hf : f.Marks)
    (hg : g.Asks) (hb : c.graph.block? n =
      some ⟨[.invoke .static f, .invoke .static g], .branch (.zero r) taken fallthrough⟩)
    (hchosen : Chosen taken fallthrough isTaken start other)
    (hstart : ∀ j < i, Run.Follows j a (c.graph.behaviour answers start))
    (hother : ∀ j < i, Run.Follows j b (c.graph.behaviour answers other)) :
    Run.Follows i
      (Run.call f (Run.ask answers g fun v => if r.holds v 0 = isTaken then a else b))
      (c.graph.behaviour answers n) := by
  rw [FlowGraph.behaviour_eq hc hb, Block.run_branch hf hg]
  refine Run.follows_call fun j hj => Run.follows_ask fun v j' hj' => ?_
  have hlt : j' < i := Nat.lt_trans hj' hj
  rw [← apply_ite (c.graph.behaviour answers)]
  exact Run.follows_chosen hchosen (hstart j' hlt) (hother j' hlt) (r.holds v 0)

/-- A loop whose latch tests: what comes before the latch, the call of the latch, and its test. -/
theorem Begins.doWhile {f : MethodRef} {outside : Nat} {us : List Stmt} {body : Scope}
    (hc : c.graph.Traced) (hf : f.Marks) (hg : g.Asks) (hl : c.graph.loopAt? n = some l)
    (hlatches : l.latches = [z])
    (hz : c.graph.block? z =
      some ⟨[.invoke .static f, .invoke .static g], .branch (.zero r) taken fallthrough⟩)
    (hchosen : Chosen taken fallthrough isTaken n outside) (hout : outside ∉ l.body)
    (hfresh : n ∉ W) (hinner : frames.isOuterTarget n = false) (hheader : frames.isHeader n = false)
    (hbefore : (z = n ∧ us = []) ∨ (z ≠ n ∧
      Carries c answers (.loop n z l.body (some outside) :: frames) n (some z) W us W₁))
    (hbody : body.stmts = us ++ [.eval (.staticCall f [])]) (hW : W ⊆ W₁) (hW₁ : W₁ ⊆ W')
    (hzW : z ∈ W') :
    Begins c answers frames n stop W [.doWhile (askedTest g r isTaken) body] (some outside) W' := by
  have hsucc := Context.mem_successors_of_chosen hz rfl hchosen
  obtain ⟨hzl, hzr⟩ := Context.mem_body_of_latch hl (hlatches ▸ List.mem_singleton_self z)
  have hlh : l.header = n := c.graph.header_of_loopAt hl
  have hexit : c.ExitLatch l z := by
    refine ⟨hzl, hlh ▸ (hsucc n).2 (.inl rfl), fun m hm => ?_⟩
    rcases (hsucc m).1 hm with heq | rfl
    · exact .inl (heq.trans hlh.symm)
    · exact .inr hout
  intro hsite hr Z hroom i k hk
  rw [Stmt.runAll_singleton, Stmt.run_doWhile]
  refine Run.follows_loop fun j hj again hagain => ?_
  simp only [askedTest_run]
  generalize htest : (Run.ask answers g fun v => if r.holds v 0 = isTaken then again else k.onward)
    = test
  -- the latch makes its call and goes on as its test says
  have hlatch : Z z → c.Reached W' z →
      Run.Follows j (Run.call f test) (c.graph.behaviour answers z) := by
    intro hzone hreach
    have hmem : outside ∈ c.graph.successors z := (hsucc outside).2 (.inr rfl)
    rw [← htest]
    refine Run.follows_branch hc hf hg hz hchosen hagain fun j' hj' => ?_
    exact (hk j' (by omega)).onward outside rfl
      (hroom.latch l z hl hheader hexit hzone outside hmem) (.step hreach hzW hmem)
  rw [Scope.run_eq, hbody, Stmt.runAll_append]
  show Run.Follows j (Stmt.runAll answers us ⟨Run.call f test, k.onward, Run.retest test⟩) _
  rcases hbefore with ⟨rfl, rfl⟩ | ⟨hzn, hcarries⟩
  · exact hlatch hroom.mem (hr.mono (List.Subset.trans hW hW₁))
  · have hsite' : Site c (.loop n z l.body (some outside) :: frames) (some z) W := by
      refine ⟨Frames.sound_loop hr hl (.inr fun m hm => ?_) ?_, fun s hs => .inl hs⟩
      · exact ((hsucc m).1 hm).imp_right fun heq => congrArg some heq.symm
      · intro s hs
        exact Option.some.inj hs ▸ hout
    refine hcarries hsite' hr Z hroom.mem (hroom.push l z _ hl hheader) j _ (fun j' hj' => ?_)
      fun hjump => absurd (Context.jump_header hl hzn hout hinner hfresh) hjump
    refine ⟨fun s hs hzone hreach => ?_, fun s hs hzone hreach => ?_, fun s hs => ?_⟩
    · obtain rfl : z = s := Option.some.inj hs
      exact (hlatch hzone (hreach.mono hW₁)).mono (Nat.le_of_lt hj')
    · exact (hk j' (by omega)).onward s hs hzone (hreach.mono hW₁)
    · -- a jump to the next round misses the call of the latch, and says so
      obtain rfl : z = s := Option.some.inj hs
      rw [FlowGraph.behaviour_eq hc hz, Block.run_branch hf hg, ← htest]
      exact Run.follows_retest (hg.ne hf)

end Loops

/-! ### Jumps -/

/-- A region that begins with a block. -/
theorem Begins.carries {us : List Stmt} (h : Begins c answers frames n stop W us stop W')
    (hjump : c.jump ⟨frames, W, stop⟩ n = .enter) : Carries c answers frames n stop W us W' := by
  intro hsite hr Z hn hZ i k hk _
  obtain ⟨Z', hsub, hroom⟩ := hZ.exists_room hsite.sound hn hr hjump
  exact h hsite hr Z' hroom i k fun j hj =>
    (hk j hj).mono hsub (List.Subset.refl W') (Nat.le_refl j)

/-- A region that is a jump. -/
theorem carries_of_jump {us : List Stmt} (hne : c.jump ⟨frames, W, stop⟩ n ≠ .enter)
    (h : ∀ Z i k, Z n → c.Reached W n → k.Lead c answers Z W i frames stop →
      Run.Follows i (Stmt.runAll answers us k) (c.graph.behaviour answers n)) :
    Carries c answers frames n stop W us W :=
  fun _ hr Z hn _ i k _ hk => h Z i k hn hr (hk hne)

end Restructure
