import Restructure.Proofs.Region.Ensures
import Restructure.Proofs.Region.Forms

namespace Restructure

/-!
# Derivations — what the walk has done where it succeeds

The walk is a program of passes that call each other. A derivation says the same without passes: one
rule for each way in which a part of the code comes about, with all that has been asked on the way.
What holds of all code that is written is shown by one induction on derivations, and the routines of
the walk are looked into in this module only.

* `Piece` — the parts of the walk, each with what it begins with and what it hands on.
* `Labelling`, `OneArm` — the choices that several rules share.
* `Context.Derives` — a piece comes about between two states of the progress.
* `Walk.Derives` — what is known of the code of regions inside and behind.
* `Context.region_derives` — every region that is written has a derivation.
* `Context.entered_derives` — and so has what is written of a region before control goes on.
-/

/-! ### Choices -/

/-- A loop of this form may be written with a test in front of its body. -/
def Loop.mayTestFirst (l : Loop) : Bool := l.form == .preTested || l.form == .complex

/-- A loop of this form may be written with a test behind its body. -/
def Loop.mayTestLast (l : Loop) : Bool := l.form == .postTested || l.form == .complex

/-- The block where the arms of a branch may meet. -/
def Context.meeting? (c : Context) (pos : Position) (n : Nat) : Option Nat :=
  (c.graph.postDominator? n).filter (c.usableMerge pos)

/-- Arms meet at the immediate post-dominator of the branch. -/
theorem Context.postDominator_of_meeting {c : Context} {pos : Position} {n merge : Nat}
    (h : c.meeting? pos n = some merge) : c.graph.postDominator? n = some merge :=
  (Option.filter_eq_some_iff.1 h).1

/-- The label of a block is placed in front of it if the block is to have one. -/
inductive Labelling (labels : List Nat) (n : Nat) (m : Simulation) (p : Progress) :
    Simulation → Progress → Prop
  | placed {s : Scope} (hlabel : labels.contains n = true) (hempty : m.stack = [])
      (happend : m.scope.append (.label n) = .ok s) :
      Labelling labels n m p { m with scope := s } { p with placed := n :: p.placed }
  | none (hlabel : labels.contains n = false) : Labelling labels n m p m p

/-- Why only one arm of a branch is written before control goes on with the other target: it never
    comes back, or the other target is where the arms meet. The arm begins at `start` and ends at
    `armStop`. -/
inductive OneArm (c : Context) (pos : Position) (n : Nat) (t : BranchTest) :
    (isTaken : Bool) → (start other : Nat) → (armStop : Option Nat) → Prop
  | guard {g : Guard} (hguard : c.guardedArm? pos t = some g)
      (hleave : ∀ merge, c.meeting? pos n = some merge → c.jump pos merge = .leave) :
      OneArm c pos n t g.isTaken g.start g.other pos.guarded.stop
  | meet {isTaken : Bool} {start merge : Nat}
      (hchosen : Chosen t.taken t.fallthrough isTaken start merge)
      (hmeet : c.meeting? pos n = some merge)
      (hguard : c.jump pos merge = .leave → c.guardedArm? pos t = none) :
      OneArm c pos n t isTaken start merge (some merge)

/-- The arm is one of the targets, and control goes on with the other one. -/
theorem OneArm.chosen {c : Context} {pos : Position} {n : Nat} {t : BranchTest} {isTaken : Bool}
    {start other : Nat} {armStop : Option Nat} (h : OneArm c pos n t isTaken start other armStop) :
    Chosen t.taken t.fallthrough isTaken start other := by
  cases h with
  | guard hguard _ => exact (Context.guardedArm_inv hguard).1
  | meet hchosen _ _ => exact hchosen

/-! ### Derivations -/

/-- A part of the walk: the place where it writes, what it begins with, and what it hands on. -/
inductive Piece where
  /-- The code of a region from block `n` on. -/
  | region (frames : Frames) (n : Nat) (stop : Option Nat) (m m' : Simulation)
  /-- The rest of a region, behind a piece of its code. -/
  | onward (frames : Frames) (stop : Option Nat) (r : Onward) (m' : Simulation)
  /-- Block `n` where it is entered, or the loop that begins there. -/
  | entered (frames : Frames) (n : Nat) (stop : Option Nat) (m : Simulation) (r : Onward)
  /-- Block `n` with what follows from its terminator. -/
  | block (frames : Frames) (n : Nat) (stop : Option Nat) (m : Simulation) (r : Onward)
  /-- What follows from the terminator of block `n`. -/
  | exit (frames : Frames) (n : Nat) (stop : Option Nat) (t : Terminator) (m : Simulation)
      (r : Onward)
  /-- The branch of block `n`, folded along a chain. -/
  | branch (frames : Frames) (n : Nat) (stop : Option Nat) (t : BranchTest) (chain : List Nat)
      (m : Simulation) (r : Onward)
  /-- A branch that is no conditional value. -/
  | plain (frames : Frames) (n : Nat) (stop : Option Nat) (t : BranchTest) (m : Simulation)
      (r : Onward)
  /-- A region written into a scope, from `s` to `s'`, which leaves no values. -/
  | inner (frames : Frames) (n : Nat) (stop : Option Nat) (s s' : Scope)
  /-- The arm of a branch. -/
  | arm (frames : Frames) (n : Nat) (stop : Option Nat) (s b : Scope)
  /-- The body of a `do` loop up to its latch. -/
  | before (frames : Frames) (header latch : Nat) (s s' : Scope)
  /-- The arm of a switch that runs into `next`, and whether a jump belongs at its end. -/
  | switchArm (frames : Frames) (follow next : Option Nat) (s : Scope) (n : Nat) (breaks : Bool)
      (b : Scope)
  /-- The arms of a switch. -/
  | arms (frames : Frames) (follow : Option Nat) (s : Scope) (es : List ArmEntry)
      (arms : List SwitchArm)

/-- The pieces that the walk writes over a graph with labels in front of the given blocks, and the
    progress before and behind them. -/
inductive Context.Derives (c : Context) (labels : List Nat) : Piece → Progress → Progress → Prop
  -- regions
  | stop {frames : Frames} {n : Nat} {stop : Option Nat} {m : Simulation} {p : Progress}
      (hjump : c.jump ⟨frames, p.written, stop⟩ n = .stop) :
      Derives c labels (.region frames n stop m m) p p
  | nextRound {frames : Frames} {n : Nat} {stop : Option Nat} {m : Simulation} {s : Scope}
      {p : Progress} (hjump : c.jump ⟨frames, p.written, stop⟩ n = .nextRound)
      (happend : m.scope.append .continueLoop = .ok s) :
      Derives c labels (.region frames n stop m { m with scope := s }) p p
  | leave {frames : Frames} {n : Nat} {stop : Option Nat} {m : Simulation} {s : Scope}
      {p : Progress} (hjump : c.jump ⟨frames, p.written, stop⟩ n = .leave)
      (happend : m.scope.append .breakOut = .ok s) :
      Derives c labels (.region frames n stop m { m with scope := s }) p p
  | goto {frames : Frames} {n : Nat} {stop : Option Nat} {m : Simulation} {s : Scope}
      {p : Progress} (hjump : c.jump ⟨frames, p.written, stop⟩ n = .invalid)
      (hon : c.config.fallback = true) (hempty : m.stack = [])
      (happend : m.scope.append (.goto n) = .ok s) :
      Derives c labels (.region frames n stop m { m with scope := s }) p
        { p with targets := Loop.insertAscending n p.targets }
  | enter {frames : Frames} {n : Nat} {stop : Option Nat} {m m₁ m' : Simulation} {r : Onward}
      {p p₁ p₂ p' : Progress} (hjump : c.jump ⟨frames, p.written, stop⟩ n = .enter)
      (hlabel : Labelling labels n m p m₁ p₁)
      (hcode : Derives c labels (.entered frames n stop m₁ r) p₁ p₂)
      (hrest : Derives c labels (.onward frames stop r m') p₂ p') :
      Derives c labels (.region frames n stop m m') p p'
  | done {frames : Frames} {stop : Option Nat} {m : Simulation} {p : Progress} :
      Derives c labels (.onward frames stop (none, m) m) p p
  | next {frames : Frames} {n : Nat} {stop : Option Nat} {m m' : Simulation} {p p' : Progress}
      (hregion : Derives c labels (.region frames n stop m m') p p') :
      Derives c labels (.onward frames stop (some n, m) m') p p'
  -- blocks and loops
  | here {frames : Frames} {n : Nat} {stop : Option Nat} {m : Simulation} {r : Onward}
      {p p' : Progress} (hloop : ∀ l, c.graph.loopAt? n = some l → frames.isHeader n = true)
      (hblock : Derives c labels (.block frames n stop m r) p p') :
      Derives c labels (.entered frames n stop m r) p p'
  | whileLoop {frames : Frames} {n : Nat} {stop : Option Nat} {l : Loop} {t : LoopTest}
      {body before s : Scope} {stmt : Stmt} {m : Simulation} {p p' : Progress}
      (hl : c.graph.loopAt? n = some l) (hframes : frames.isHeader n = false)
      (hempty : m.stack = []) (hform : l.mayTestFirst = true)
      (htest : c.loopTest? l p.written m.scope = some t)
      (hbody : Derives c labels (.inner (.loop l.header l.header l.body (some t.outside) :: frames)
        t.inside (some l.header) (m.scope.child .loop) body)
        { p with written := t.chain ++ p.written } p')
      (hpromote : promoteFor (c.config.forLoops && l.preheader.isSome) m.scope t.cond body
        = .ok (stmt, before))
      (happend : before.append stmt = .ok s) :
      Derives c labels (.entered frames n stop m (some t.outside, { m with scope := s })) p p'
  | doLoop {frames : Frames} {n : Nat} {stop : Option Nat} {l : Loop} {latch outside : Nat}
      {test : Branch} (onTaken : Bool) {b : Block} {cond : Cond} {before body s : Scope}
      {m m₁ : Simulation} {p p' : Progress}
      (hl : c.graph.loopAt? n = some l) (hframes : frames.isHeader n = false)
      (hempty : m.stack = [])
      (hfirst : l.mayTestFirst = true → c.loopTest? l p.written m.scope = none)
      (hform : l.mayTestLast = true)
      (htest : c.latchTest? l = some (latch, test, outside, onTaken))
      (hbefore : Derives c labels (.before (.loop l.header latch l.body (some outside) :: frames)
        l.header latch (m.scope.child .loop) before) p p')
      (hb : c.graph.block? latch = some b)
      (hrun : Simulation.run c.config (.start before) b.insns = .ok m₁)
      (hcond : branchCondition test m₁.stack = .ok (cond, []))
      (hlock : m₁.scope.lock = .ok body)
      (happend : m.scope.append (.doWhile (if onTaken then cond else cond.negate) body) = .ok s) :
      Derives c labels (.entered frames n stop m (some outside, { m with scope := s })) p
        { p' with written := [l.header, latch] ++ p'.written }
  | endless {frames : Frames} {n : Nat} {stop : Option Nat} {l : Loop} {dropped body s : Scope}
      {r : Onward} {m m₁ : Simulation} {p p₁ p' : Progress}
      (hl : c.graph.loopAt? n = some l) (hframes : frames.isHeader n = false)
      (hempty : m.stack = [])
      (hfirst : l.mayTestFirst = true → c.loopTest? l p.written m.scope = none)
      (hlast : l.mayTestLast = true → c.latchTest? l = none)
      (hblock : Derives c labels
        (.block (.loop l.header l.header l.body (c.loopFollow? l.exitTargets) :: frames) l.header
          none (.start (m.scope.child .loop)) r) p p₁)
      (hrest : Derives c labels
        (.onward (.loop l.header l.header l.body (c.loopFollow? l.exitTargets) :: frames) none r
          m₁) p₁ p')
      (hnone : m₁.stack = []) (hdrop : dropContinue m₁.scope = .ok dropped)
      (hlock : dropped.lock = .ok body)
      (happend : m.scope.append (.whileLoop .always body) = .ok s) :
      Derives c labels
        (.entered frames n stop m (c.loopFollow? l.exitTargets, { m with scope := s })) p p'
  | block {frames : Frames} {n : Nat} {stop : Option Nat} {b : Block} {m m₁ : Simulation}
      {r : Onward} {p p' : Progress} (hb : c.graph.block? n = some b)
      (hrun : Simulation.run c.config m b.insns = .ok m₁)
      (hexit : Derives c labels (.exit frames n stop b.exit m₁ r)
        { p with written := n :: p.written } p') :
      Derives c labels (.block frames n stop m r) p p'
  -- terminators
  | exitGoto {frames : Frames} {n t : Nat} {stop : Option Nat} {m : Simulation} {p : Progress} :
      Derives c labels (.exit frames n stop (.goto t) m (some t, m)) p p
  | exitRet {frames : Frames} {n : Nat} {stop : Option Nat} {m : Simulation} {s : Scope}
      {p : Progress} (happend : m.scope.append (.ret none) = .ok s) :
      Derives c labels (.exit frames n stop .ret m (none, { m with scope := s })) p p
  | exitValue {frames : Frames} {n : Nat} {stop : Option Nat} {e : Expr} {st : Operands}
      {m : Simulation} {s : Scope} {p : Progress} (hpop : m.stack.pop = .ok (e, st))
      (happend : m.scope.append (.ret (some e)) = .ok s) :
      Derives c labels (.exit frames n stop .retValue m (none, ⟨s, st⟩)) p p
  | exitThrow {frames : Frames} {n : Nat} {stop : Option Nat} {e : Expr} {st : Operands}
      {m : Simulation} {s : Scope} {p : Progress} (hpop : m.stack.pop = .ok (e, st))
      (happend : m.scope.append (.throw e) = .ok s) :
      Derives c labels (.exit frames n stop .throw m (none, ⟨s, st⟩)) p p
  | exitBranch {frames : Frames} {n taken fallthrough : Nat} {stop : Option Nat} {test : Branch}
      {cond : Cond} {st : Operands} {t : BranchTest} {chain : List Nat} {m : Simulation}
      {r : Onward} {p p' : Progress} (hcond : branchCondition test m.stack = .ok (cond, st))
      (hfold : BranchTest.fold c m.scope
        (fun k => c.entersPlain ⟨frames, p.written, stop⟩ k && frames.inLoop k)
        ⟨cond, taken, fallthrough⟩ n = (t, chain))
      (hbranch : Derives c labels (.branch frames n stop t chain { m with stack := st } r)
        { p with written := chain ++ p.written } p') :
      Derives c labels (.exit frames n stop (.branch test taken fallthrough) m r) p p'
  | exitSwitch {frames : Frames} {n default : Nat} {stop own : Option Nat}
      {cases : List (Int × Nat)} {key : Expr} {arms : List SwitchArm} {m : Simulation}
      {s : Scope} {p p' : Progress} (hpop : m.stack.pop = .ok (key, []))
      (hown : own = (c.graph.postDominator? n).filter fun f => stop == some f ||
        (c.jump ⟨frames, p.written, stop⟩ f == .enter && frames.inLoop f))
      (harms : Derives c labels
        (.arms (.switch own :: frames) own m.scope (groupCases cases default own) arms) p p')
      (happend : m.scope.append (.switch key arms) = .ok s) :
      Derives c labels
        (.exit frames n stop (.switch cases default) m (c.graph.postDominator? n, ⟨s, []⟩)) p p'
  -- branches
  | collapsedValue {frames : Frames} {n merge : Nat} {stop : Option Nat} {t : BranchTest}
      {chain blocks : List Nat} {e : Expr} {m : Simulation} {p : Progress}
      (hon : c.config.ternaries = true)
      (hform : c.ternary? ⟨frames, p.written, stop⟩ m t chain
        = .ok (some (.value blocks e merge))) :
      Derives c labels (.branch frames n stop t chain m (some merge, m.pushOn m.stack e)) p
        { p with written := blocks ++ p.written }
  | collapsedStmt {frames : Frames} {n : Nat} {stop merge : Option Nat} {t : BranchTest}
      {chain blocks : List Nat} {stmt : Stmt} {m : Simulation} {s : Scope} {p : Progress}
      (hon : c.config.ternaries = true)
      (hform : c.ternary? ⟨frames, p.written, stop⟩ m t chain
        = .ok (some (.stmt blocks stmt merge)))
      (happend : m.scope.append stmt = .ok s) :
      Derives c labels (.branch frames n stop t chain m (merge, { m with scope := s })) p
        { p with written := blocks ++ p.written }
  | plain {frames : Frames} {n : Nat} {stop : Option Nat} {t : BranchTest} {chain : List Nat}
      {m : Simulation} {r : Onward} {p p' : Progress}
      (hnone : c.config.ternaries = true →
        c.ternary? ⟨frames, p.written, stop⟩ m t chain = .ok none)
      (hempty : m.stack = []) (hplain : Derives c labels (.plain frames n stop t m r) p p') :
      Derives c labels (.branch frames n stop t chain m r) p p'
  | oneArm {frames : Frames} {n start other : Nat} {stop armStop : Option Nat} {t : BranchTest}
      (isTaken : Bool) {b s : Scope} {m : Simulation} {p p' : Progress}
      (hside : OneArm c ⟨frames, p.written, stop⟩ n t isTaken start other armStop)
      (harm : Derives c labels (.arm frames start armStop m.scope b) p p')
      (happend : m.scope.append (.ifElse (if isTaken then t.cond else t.cond.negate) b none)
        = .ok s) :
      Derives c labels (.plain frames n stop t m (some other, { m with scope := s })) p p'
  | twoArms {frames : Frames} {n merge : Nat} {stop : Option Nat} {t : BranchTest} {b e s : Scope}
      {m : Simulation} {p p₁ p' : Progress}
      (hmeet : c.meeting? ⟨frames, p.written, stop⟩ n = some merge)
      (hguard : c.jump ⟨frames, p.written, stop⟩ merge = .leave →
        c.guardedArm? ⟨frames, p.written, stop⟩ t = none)
      (hfall : t.fallthrough ≠ merge) (htaken : t.taken ≠ merge)
      (harm : Derives c labels (.arm frames t.fallthrough (some merge) m.scope b) p p₁)
      (helse : Derives c labels (.arm frames t.taken (some merge) m.scope e) p₁ p')
      (happend : m.scope.append (.ifElse t.cond.negate b (some e)) = .ok s) :
      Derives c labels (.plain frames n stop t m (some merge, { m with scope := s })) p p'
  | jump {frames : Frames} {n : Nat} {stop : Option Nat} {t : BranchTest} {m : Simulation}
      {s : Scope} {p : Progress} (hmeet : c.meeting? ⟨frames, p.written, stop⟩ n = none)
      (hguard : c.guardedArm? ⟨frames, p.written, stop⟩ t = none)
      (hon : c.config.fallback = true)
      (happend : m.scope.append (.gotoIf t.cond t.taken) = .ok s) :
      Derives c labels (.plain frames n stop t m (some t.fallthrough, { m with scope := s })) p
        { p with targets := Loop.insertAscending t.taken p.targets }
  -- scopes inside
  | inner {frames : Frames} {n : Nat} {stop : Option Nat} {s : Scope} {m : Simulation}
      {p p' : Progress} (hregion : Derives c labels (.region frames n stop (.start s) m) p p')
      (hempty : m.stack = []) : Derives c labels (.inner frames n stop s m.scope) p p'
  | arm {frames : Frames} {n : Nat} {stop : Option Nat} {s s' b : Scope} {p p' : Progress}
      (hinner : Derives c labels (.inner frames n stop (s.child .arm) s') p p')
      (hlock : s'.lock = .ok b) : Derives c labels (.arm frames n stop s b) p p'
  | latchOnly {frames : Frames} {header latch : Nat} {s : Scope} {p : Progress}
      (hlatch : latch = header) : Derives c labels (.before frames header latch s s) p p
  | before {frames : Frames} {header latch : Nat} {s s' : Scope} {p p' : Progress}
      (hlatch : latch ≠ header)
      (hinner : Derives c labels (.inner frames header (some latch) s s') p p') :
      Derives c labels (.before frames header latch s s') p p'
  | armEmpty {frames : Frames} {n : Nat} {follow next : Option Nat} {s b : Scope} {p : Progress}
      (hfollow : follow = some n) (hlock : (s.child .switch).lock = .ok b) :
      Derives c labels (.switchArm frames follow next s n true b) p p
  | armCode {frames : Frames} {n : Nat} {follow next : Option Nat} {s s₁ s₂ b : Scope}
      {breaks : Bool} {p p' : Progress} (hfollow : follow ≠ some n)
      (hinner : Derives c labels (.inner frames n next (s.child .switch) s₁) p p')
      (hclose : closeArm next follow s₁ = .ok (breaks, s₂)) (hlock : s₂.lock = .ok b) :
      Derives c labels (.switchArm frames follow next s n breaks b) p p'
  | armsNil {frames : Frames} {follow : Option Nat} {s : Scope} {p : Progress} :
      Derives c labels (.arms frames follow s [] []) p p
  | armsCons {frames : Frames} {follow : Option Nat} {s b : Scope} {e : ArmEntry}
      {es : List ArmEntry} {breaks : Bool} {arms : List SwitchArm} {p p₁ p' : Progress}
      (harm : Derives c labels
        (.switchArm frames follow ((es.head?.map (·.start)).or follow) s e.start breaks b) p p₁)
      (hrest : Derives c labels (.arms frames follow s es arms) p₁ p') :
      Derives c labels
        (.arms frames follow s (e :: es) (⟨e.keys, e.isDefault, b, breaks⟩ :: arms)) p p'

open Pass

/-- A statement is added to the scope, and the operands stay. -/
theorem Pass.ensures_added {m : Simulation} {stmt : Stmt} {p : Progress}
    {R : Simulation → Progress → Prop}
    (h : ∀ s, m.scope.append stmt = .ok s → R { m with scope := s } p) :
    Ensures (Pass.append m stmt) p R := by
  refine ensures_of fun m' hm' => ?_
  obtain ⟨s, hs, rfl⟩ := Except.map_eq_ok.1 hm'
  exact h s hs

/-! ### Regions inside -/

/-- The code of every region has a derivation. -/
def Walk.Derives (c : Context) (labels : List Nat) (walk : Walk) : Prop :=
  ∀ frames n stop m p, Ensures (walk frames n stop m) p fun m' p' =>
    c.Derives labels (.region frames n stop m m') p p'

namespace Walk.Derives

variable {c : Context} {labels : List Nat} {walk : Walk} {frames : Frames} {n : Nat}
  {stop : Option Nat} {m : Simulation} {s : Scope} {p : Progress}

/-- A region inside, in a scope of its own. -/
theorem into (hw : walk.Derives c labels) {e : Error} :
    Ensures (walk.into frames n stop s e) p fun s' p' =>
      c.Derives labels (.inner frames n stop s s') p p' := by
  refine ensures_bind ((hw frames n stop (.start s) p).imp fun m p' hregion => ?_)
  exact ensures_bind (ensures_failIf fun hempty =>
    ensures_pure (.inner hregion (by simpa using hempty)))

/-- The rest of a region. -/
theorem goOn (hw : walk.Derives c labels) (r : Onward) :
    Ensures (walk.goOn frames stop r) p fun m' p' =>
      c.Derives labels (.onward frames stop r m') p p' := by
  obtain ⟨next, m⟩ := r
  cases next with
  | none => exact ensures_pure .done
  | some next => exact (hw frames next stop m p).imp fun _ _ h => .next h

/-- The arm of a branch. -/
theorem arm (hw : walk.Derives c labels) :
    Ensures (walk.arm frames n stop s) p fun b p' =>
      c.Derives labels (.arm frames n stop s b) p p' := by
  refine ensures_bind (hw.into.imp fun s' p' hinner => ?_)
  exact ensures_of fun b hlock => .arm hinner hlock

/-- A conditional has one arm if the other target is where the arms meet, and else it has two. -/
theorem conditional (hw : walk.Derives c labels) {t : BranchTest} {merge : Nat}
    (hmeet : c.meeting? ⟨frames, p.written, stop⟩ n = some merge)
    (hguard : c.jump ⟨frames, p.written, stop⟩ merge = .leave →
      c.guardedArm? ⟨frames, p.written, stop⟩ t = none) :
    Ensures (walk.conditional frames t merge m) p fun r p' =>
      c.Derives labels (.plain frames n stop t m r) p p' := by
  unfold Walk.conditional
  split
  · rename_i cond thenStart elseStart hchoice
    split at hchoice
    · rename_i hfall
      cases hchoice
      refine ensures_bind (hw.arm.imp fun b p' harm => ensures_bind (ensures_pure ?_))
      refine ensures_bind (ensures_added fun s happend => ensures_pure ?_)
      have hchosen : Chosen t.taken t.fallthrough true t.taken merge := hfall ▸ .taken
      exact .oneArm _ (.meet hchosen hmeet hguard) harm happend
    · rename_i hfall
      split at hchoice
      · rename_i htaken
        cases hchoice
        refine ensures_bind (hw.arm.imp fun b p' harm => ensures_bind (ensures_pure ?_))
        refine ensures_bind (ensures_added fun s happend => ensures_pure ?_)
        have hchosen : Chosen t.taken t.fallthrough false t.fallthrough merge :=
          htaken ▸ .fallthrough
        exact .oneArm _ (.meet hchosen hmeet hguard) harm happend
      · rename_i htaken
        cases hchoice
        refine ensures_bind (hw.arm.imp fun b p₁ harm => ?_)
        refine ensures_bind (ensures_bind (hw.arm.imp fun e p' helse => ensures_pure ?_))
        refine ensures_bind (ensures_added fun s happend => ensures_pure ?_)
        exact .twoArms hmeet hguard hfall htaken harm helse happend

/-- A guard around an arm that never comes back. -/
theorem guard (hw : walk.Derives c labels) {t : BranchTest} {g : Guard}
    (hguard : c.guardedArm? ⟨frames, p.written, stop⟩ t = some g)
    (hleave : ∀ merge, c.meeting? ⟨frames, p.written, stop⟩ n = some merge →
      c.jump ⟨frames, p.written, stop⟩ merge = .leave) :
    Ensures (walk.guard ⟨frames, p.written, stop⟩ t g m) p fun r p' =>
      c.Derives labels (.plain frames n stop t m r) p p' := by
  refine ensures_bind (hw.arm.imp fun b p' harm => ?_)
  refine ensures_bind (ensures_added fun s happend => ensures_pure ?_)
  exact .oneArm _ (.guard hguard hleave) harm happend

/-- The arm of a switch, up to the end of its scope. -/
theorem switchArm (hw : walk.Derives c labels) {follow next : Option Nat} :
    Ensures (walk.switchArm frames follow next (s.child .switch) n) p fun r p' =>
      ∀ b, r.2.lock = .ok b → c.Derives labels (.switchArm frames follow next s n r.1 b) p p' := by
  unfold Walk.switchArm
  split
  · rename_i hfollow
    exact ensures_pure fun b hlock => .armEmpty hfollow hlock
  · rename_i hfollow
    refine ensures_bind (hw.into.imp fun s₁ p' hinner => ?_)
    exact ensures_of fun r hclose b hlock => .armCode hfollow hinner hclose hlock

/-- The arms of a switch, one after the other. By induction on the entries. -/
theorem switchArms (hw : walk.Derives c labels) {follow : Option Nat} (es : List ArmEntry) :
    Ensures (walk.switchArms frames follow s es) p fun arms p' =>
      c.Derives labels (.arms frames follow s es arms) p p' := by
  induction es generalizing p with
  | nil => exact ensures_pure .armsNil
  | cons e es ih =>
    refine ensures_bind (hw.switchArm.imp fun ⟨breaks, body⟩ p₁ harm => ?_)
    refine ensures_bind (ensures_of fun b hlock => ?_)
    exact ensures_bind (ih.imp fun arms p' hrest =>
      ensures_pure (.armsCons (harm b hlock) hrest))

end Walk.Derives

namespace Context

variable {c : Context} {labels : List Nat} {walk : Walk} {frames : Frames} {n : Nat}
  {stop : Option Nat} {m : Simulation} {p : Progress}

/-! ### Blocks -/

/-- A branch that is no conditional value is a conditional, a guard or a jump. -/
theorem plainBranch_derives (hw : walk.Derives c labels) {t : BranchTest} :
    Ensures (c.plainBranch walk ⟨frames, p.written, stop⟩ n t m) p fun r p' =>
      m.stack = [] ∧ c.Derives labels (.plain frames n stop t m r) p p' := by
  refine ensures_bind (ensures_failIf fun hempty => ?_)
  suffices h : Ensures _ p fun r p' => c.Derives labels (.plain frames n stop t m r) p p' from
    h.imp fun r p' hplain => ⟨by simpa using hempty, hplain⟩
  split
  · rename_i merge hmeet
    have hmeet : c.meeting? ⟨frames, p.written, stop⟩ n = some merge := hmeet
    split
    · rename_i hleave
      split
      · rename_i g hguard
        exact hw.guard hguard fun merge' hmeet' =>
          Option.some.inj (hmeet.symm.trans hmeet') ▸ hleave
      · rename_i hguard
        exact hw.conditional hmeet fun _ => hguard
    · rename_i hleave
      exact hw.conditional hmeet fun h => absurd h hleave
  · rename_i hmeet
    have hmeet : c.meeting? ⟨frames, p.written, stop⟩ n = none := hmeet
    split
    · rename_i g hguard
      refine hw.guard hguard fun merge hmeet' => ?_
      cases hmeet.symm.trans hmeet'
    · rename_i hguard
      refine ensures_bind (ensures_failIf fun hon => ensures_bind (ensures_addTargets ?_))
      refine ensures_bind (ensures_added fun s happend => ensures_pure ?_)
      exact .jump hmeet hguard (by simpa using hon) happend

/-- A branch collapses, or it is a plain branch. -/
theorem branch_derives (hw : walk.Derives c labels) {test : Branch} {taken fallthrough : Nat} :
    Ensures (c.branch walk frames n test taken fallthrough stop m) p fun r p' =>
      c.Derives labels (.exit frames n stop (.branch test taken fallthrough) m r) p p' := by
  refine ensures_bind (ensures_of fun ⟨cond, st⟩ hcond => ensures_bind (ensures_position ?_))
  simp only
  generalize hfold : BranchTest.fold c m.scope _ _ n = folded
  obtain ⟨t, chain⟩ := folded
  refine ensures_bind (ensures_markAll (ensures_bind (ensures_position (ensures_bind ?_))))
  -- without a conditional value it is known why there is none
  have hplain : (c.config.ternaries = true →
      c.ternary? ⟨frames, chain ++ p.written, stop⟩ { m with stack := st } t chain = .ok none) →
        Ensures (c.plainBranch walk ⟨frames, chain ++ p.written, stop⟩ n t { m with stack := st })
          { p with written := chain ++ p.written } fun r p' =>
            c.Derives labels (.exit frames n stop (.branch test taken fallthrough) m r) p p' :=
    fun hnone => (plainBranch_derives (p := { p with written := chain ++ p.written }) hw).imp
      fun r p' ⟨hempty, h⟩ => .exitBranch hcond hfold (.plain hnone hempty h)
  by_cases hon : c.config.ternaries = true
  · rw [tryIf, if_pos hon]
    refine ensures_of fun form hform => ?_
    cases form with
    | none => exact hplain fun _ => hform
    | some form =>
      cases form with
      | value blocks e merge =>
        exact ensures_bind (ensures_markAll (ensures_pure
          (.exitBranch hcond hfold (.collapsedValue hon hform))))
      | stmt blocks s merge =>
        refine ensures_bind (ensures_markAll (ensures_bind (ensures_added fun s happend => ?_)))
        exact ensures_pure (.exitBranch hcond hfold (.collapsedStmt hon hform happend))
  · rw [tryIf, if_neg hon]
    exact ensures_pure (hplain fun h => absurd h hon)

/-- A switch takes its key from the stack, which must be empty then. -/
theorem switch_derives (hw : walk.Derives c labels) {cases : List (Int × Nat)} {default : Nat} :
    Ensures (c.switch walk frames n cases default stop m) p fun r p' =>
      c.Derives labels (.exit frames n stop (.switch cases default) m r) p p' := by
  refine ensures_bind (ensures_of fun ⟨key, st⟩ hpop => ?_)
  refine ensures_bind (ensures_failIf fun hempty => ?_)
  obtain rfl : st = [] := by simpa using hempty
  refine ensures_bind (ensures_position (ensures_bind ?_))
  refine (hw.switchArms _).imp fun arms p' harms => ?_
  exact ensures_bind (ensures_added fun s happend =>
    ensures_pure (.exitSwitch hpop rfl harms happend))

/-- A block is simulated, and then its terminator says how it goes on. -/
theorem blockCode_derives (hw : walk.Derives c labels) :
    Ensures (c.blockCode walk frames n stop m) p fun r p' =>
      c.Derives labels (.block frames n stop m r) p p' := by
  refine ensures_bind (ensures_mark (ensures_bind (ensures_bind (ensures_block fun b hb =>
    ensures_of fun m₁ hrun => ?_))))
  refine ensures_bind (ensures_block fun b' hb' => ?_)
  obtain rfl : b = b' := Option.some.inj (hb.symm.trans hb')
  suffices h : Ensures _ { p with written := n :: p.written } fun r p' => c.Derives labels
      (.exit frames n stop b.exit m₁ r) { p with written := n :: p.written } p' from
    h.imp fun r p' hexit => .block hb hrun hexit
  cases b.exit with
  | goto t => exact ensures_pure .exitGoto
  | ret => exact ensures_bind (ensures_added fun s happend => ensures_pure (.exitRet happend))
  | retValue =>
    exact ensures_bind (ensures_of fun _ hpop => ensures_bind (ensures_added fun s happend =>
      ensures_pure (.exitValue hpop happend)))
  | throw =>
    exact ensures_bind (ensures_of fun _ hpop => ensures_bind (ensures_added fun s happend =>
      ensures_pure (.exitThrow hpop happend)))
  | branch test taken fallthrough => exact branch_derives hw
  | switch cases default => exact switch_derives hw

/-! ### Loops -/

variable {l : Loop}

/-- A loop that tests first, if its header has such a test. -/
theorem whileLoop_derives (stop : Option Nat) (hw : walk.Derives c labels)
    (hl : c.graph.loopAt? n = some l) (hframes : frames.isHeader n = false) (hempty : m.stack = [])
    (hform : l.mayTestFirst = true) :
    Ensures (c.whileLoop walk frames l m) p fun r p' =>
      match r with
      | some r => c.Derives labels (.entered frames n stop m r) p p'
      | none => p' = p ∧ c.loopTest? l p.written m.scope = none := by
  refine ensures_bind (ensures_get ?_)
  split
  · exact ensures_pure ⟨rfl, ‹_›⟩
  · rename_i t htest
    refine ensures_bind (ensures_markAll (ensures_bind (hw.into.imp fun body p' hbody => ?_)))
    refine ensures_bind (ensures_of fun ⟨s, scope⟩ hpromote => ?_)
    refine ensures_bind (ensures_added fun s happend => ensures_pure ?_)
    exact .whileLoop hl hframes hempty hform htest hbody hpromote happend

/-- A loop that tests last, if its latch has such a test. -/
theorem doLoop_derives (stop : Option Nat) (hw : walk.Derives c labels)
    (hl : c.graph.loopAt? n = some l) (hframes : frames.isHeader n = false) (hempty : m.stack = [])
    (hfirst : l.mayTestFirst = true → c.loopTest? l p.written m.scope = none)
    (hform : l.mayTestLast = true) :
    Ensures (c.doLoop walk frames l m) p fun r p' =>
      match r with
      | some r => c.Derives labels (.entered frames n stop m r) p p'
      | none => p' = p ∧ c.latchTest? l = none := by
  unfold doLoop
  split
  · exact ensures_pure ⟨rfl, ‹_›⟩
  · rename_i latch test outside onTaken htest
    have hbefore : Ensures (doPrefix walk (.loop l.header latch l.body (some outside) :: frames)
        l.header latch (m.scope.child .loop)) p fun s p' => c.Derives labels
          (.before (.loop l.header latch l.body (some outside) :: frames) l.header latch
            (m.scope.child .loop) s) p p' := by
      unfold doPrefix
      split
      · rename_i hlatch
        exact ensures_pure (.latchOnly hlatch)
      · rename_i hlatch
        exact hw.into.imp fun s p' hinner => .before hlatch hinner
    refine ensures_bind (ensures_bind (hbefore.imp fun before p' hbefore => ?_))
    refine ensures_bind (ensures_markAll (ensures_bind (ensures_bind ?_)))
    refine ensures_block fun b hb => ?_
    refine ensures_of fun m₁ hrun => ensures_bind (ensures_of fun ⟨cond, st⟩ hcond => ?_)
    refine ensures_bind (ensures_failIf fun hnone => ensures_pure ?_)
    obtain rfl : st = [] := by simpa using hnone
    refine ensures_bind (ensures_of fun body hlock => ?_)
    refine ensures_bind (ensures_added fun s happend => ensures_pure ?_)
    exact .doLoop onTaken hl hframes hempty hfirst hform htest hbefore hb hrun hcond hlock happend

/-- A loop with neither test. -/
theorem endlessLoop_derives (hw : walk.Derives c labels) (hl : c.graph.loopAt? n = some l)
    (hframes : frames.isHeader n = false) (hempty : m.stack = [])
    (hfirst : l.mayTestFirst = true → c.loopTest? l p.written m.scope = none)
    (hlast : l.mayTestLast = true → c.latchTest? l = none) :
    Ensures (c.endlessLoop walk (c.blockCode walk) frames l m) p fun r p' =>
      c.Derives labels (.entered frames n stop m r) p p' := by
  refine ensures_bind ((blockCode_derives hw).imp fun r p₁ hblock => ?_)
  refine ensures_bind ((hw.goOn r).imp fun m₁ p' hrest => ?_)
  refine ensures_bind (ensures_failIf fun hnone => ensures_bind (ensures_of fun s hdrop => ?_))
  refine ensures_bind (ensures_of fun body hlock => ?_)
  refine ensures_bind (ensures_added fun s happend => ensures_pure ?_)
  exact .endless hl hframes hempty hfirst hlast hblock hrest (by simpa using hnone) hdrop hlock
    happend

/-- A loop is written in the first of its forms that it has. -/
theorem loop_derives (hw : walk.Derives c labels) (hl : c.graph.loopAt? n = some l)
    (hframes : frames.isHeader n = false) :
    Ensures (c.loop walk (c.blockCode walk) frames l m) p fun r p' =>
      c.Derives labels (.entered frames n stop m r) p p' := by
  refine ensures_bind (ensures_failIf fun hempty => ?_)
  have hempty : m.stack = [] := by simpa using hempty
  -- the forms are tried one after the other; one that is not taken leaves the progress as it was,
  -- and the derivation of the next records why it was not taken
  have hwhile : Ensures (tryIf l.mayTestFirst (c.whileLoop walk frames l m)) p fun r p' =>
      match r with
      | some r => c.Derives labels (.entered frames n stop m r) p p'
      | none => p' = p ∧ (l.mayTestFirst = true → c.loopTest? l p.written m.scope = none) := by
    by_cases hform : l.mayTestFirst = true
    · rw [tryIf, if_pos hform]
      refine (whileLoop_derives stop hw hl hframes hempty hform).imp fun r p' h => ?_
      cases r with
      | some r => exact h
      | none => exact ⟨h.1, fun _ => h.2⟩
    · rw [tryIf, if_neg hform]
      exact ensures_pure ⟨rfl, fun h => absurd h hform⟩
  refine ensures_bind (hwhile.imp fun r p₁ hr => ?_)
  cases r with
  | some r => exact ensures_pure hr
  | none =>
    obtain ⟨rfl, hfirst⟩ := hr
    have hdo : Ensures (tryIf l.mayTestLast (c.doLoop walk frames l m)) p₁ fun r p' =>
        match r with
        | some r => c.Derives labels (.entered frames n stop m r) p₁ p'
        | none => p' = p₁ ∧ (l.mayTestLast = true → c.latchTest? l = none) := by
      by_cases hform : l.mayTestLast = true
      · rw [tryIf, if_pos hform]
        refine (doLoop_derives stop hw hl hframes hempty hfirst hform).imp fun r p' h => ?_
        cases r with
        | some r => exact h
        | none => exact ⟨h.1, fun _ => h.2⟩
      · rw [tryIf, if_neg hform]
        exact ensures_pure ⟨rfl, fun h => absurd h hform⟩
    refine ensures_bind (hdo.imp fun r p₂ hr => ?_)
    cases r with
    | some r => exact ensures_pure hr
    | none =>
      obtain ⟨rfl, hlast⟩ := hr
      exact endlessLoop_derives hw hl hframes hempty hfirst hlast

/-! ### Regions -/

/-- What is written of a region before control goes on. -/
theorem entered_derives (hw : walk.Derives c labels) :
    Ensures (c.entered walk frames n stop m) p fun r p' =>
      c.Derives labels (.entered frames n stop m r) p p' := by
  unfold entered
  split
  · rename_i l hl
    split
    · rename_i hframes
      exact (blockCode_derives hw).imp fun r p' h => .here (fun _ _ => hframes) h
    · rename_i hframes
      exact loop_derives hw hl (by simpa using hframes)
  · rename_i hnone
    exact (blockCode_derives hw).imp fun r p' h => .here (fun l hl => nomatch hnone.symm.trans hl) h

/-- A label is placed, or there is none to place. -/
theorem labelled_labelling :
    Ensures (labelled labels n m) p fun m₁ p₁ => Labelling labels n m p m₁ p₁ := by
  unfold labelled
  split
  · rename_i hlabel
    refine ensures_bind (ensures_failIf fun hempty => ensures_bind (ensures_place ?_))
    exact ensures_added fun s happend => .placed hlabel (by simpa using hempty) happend
  · rename_i hlabel
    exact ensures_pure (.none (by simpa using hlabel))

/-- A step of the walk comes about by the rules, if the walk below it does. -/
theorem regionStep_derives (hw : walk.Derives c labels) :
    (c.regionStep labels walk).Derives c labels := by
  intro frames n stop m p
  refine ensures_bind (ensures_position ?_)
  cases hjump : c.jump ⟨frames, p.written, stop⟩ n with
  | stop => exact ensures_pure (.stop hjump)
  | nextRound => exact ensures_added fun s happend => .nextRound hjump happend
  | leave => exact ensures_added fun s happend => .leave hjump happend
  | invalid =>
    refine ensures_bind (ensures_failIf fun hon => ensures_bind (ensures_failIf fun hempty => ?_))
    refine ensures_bind (ensures_addTargets (ensures_added fun s happend => ?_))
    exact .goto hjump (by simpa using hon) (by simpa using hempty) happend
  | enter =>
    refine ensures_bind (labelled_labelling.imp fun m₁ p₁ hlabel => ?_)
    refine ensures_bind ((entered_derives hw).imp fun r p₂ hcode => ?_)
    exact (hw.goOn r).imp fun m' p' hrest => .enter hjump hlabel hcode hrest

/-- The code of every region has a derivation, whatever depth the walk is given. -/
theorem region_derives (c : Context) (labels : List Nat) (fuel : Nat) :
    (c.region labels fuel).Derives c labels := by
  induction fuel with
  | zero => exact fun _ _ _ _ _ => ensures_fail _
  | succ fuel ih => exact regionStep_derives ih

end Context

end Restructure
