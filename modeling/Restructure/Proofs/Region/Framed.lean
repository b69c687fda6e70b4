import Restructure.Proofs.Outcomes
import Restructure.Proofs.Region.Whole

namespace Restructure

/-!
# Framed code — what is written within which constructs

The walk knows the constructs around the place where it writes: every loop and every switch that it
enters is a frame, and the bodies and arms of its statements are scopes that are locked before they
become part of a statement. So a jump is written only within a construct that offers it, and no
open scope is ever enclosed.

* `Scope.Sealed` — the scope is locked and of a given kind.
* `Framed` — a statement that may stand within given constructs.
* `Written` — an open scope of such statements.
* `Enclosed` — a locked one.
* `Piece.Writes` — what is written of a piece of the walk, and what is enclosed in it.
* `Context.Derives.writes` — and so for all that the walk writes.
* `Method.recover_framed` — and for the code of every method.
-/

/-- The scope is locked and of the given kind. -/
structure Scope.Sealed (k : ScopeKind) (s : Scope) : Prop where
  locked : s.locked = true
  kind : s.kind = k

/-- A scope that is locked becomes part of a statement as it is. -/
theorem Scope.sealed_of_lock {k : ScopeKind} {s s' : Scope} (hs : s.Opened k)
    (h : s.lock = .ok s') : s'.Sealed k := by
  have hlock : Gives (Error.Allowed True) s.lock fun s' => s'.locked = true ∧ s'.kind = k :=
    Scope.lock_gives hs
  obtain ⟨hlocked, hkind⟩ := hlock.of_ok h
  exact ⟨hlocked, hkind⟩

/-- The statement holds no others, and control goes on behind it or leaves the method. -/
def Stmt.isPlain : Stmt → Bool
  | .breakOut | .continueLoop => false
  | s => s.isAtomic

/-- An assignment to a local is plain. -/
theorem Stmt.isPlain_of_assignedLocal {s : Stmt} {slot : Nat} (h : s.assignedLocal? = some slot) :
    s.isPlain = true := by
  cases s <;> first | rfl | cases h

/-! ### Statements within constructs -/

/-- A statement that may stand within constructs, the innermost first. What it encloses is locked
    and may stand there, too, or within the loop or the switch that the statement is. -/
inductive Framed : Frames → Stmt → Prop
  | plain {frames : Frames} {s : Stmt} (h : s.isPlain = true) : Framed frames s
  | leave {frames : Frames} {n : Nat} (h : frames.follow? = some n) : Framed frames .breakOut
  | nextRound {frames : Frames} {n : Nat} (h : frames.nextRound? = some n) :
      Framed frames .continueLoop
  | label (frames : Frames) (n : Nat) : Framed frames (.label n)
  | goto (frames : Frames) (n : Nat) : Framed frames (.goto n)
  | gotoIf (frames : Frames) (test : Cond) (n : Nat) : Framed frames (.gotoIf test n)
  | ifElse {frames : Frames} {test : Cond} {b : Scope} {orElse : Option Scope}
      (hb : b.Sealed .arm) (hbody : ∀ s ∈ b.stmts, Framed frames s)
      (he : ∀ e, orElse = some e → e.Sealed .arm)
      (helse : ∀ e, orElse = some e → ∀ s ∈ e.stmts, Framed frames s) :
      Framed frames (.ifElse test b orElse)
  | whileLoop {frames : Frames} {f : Frame} {test : Cond} {b : Scope} (hf : f.isLoop = true)
      (hb : b.Sealed .loop) (hbody : ∀ s ∈ b.stmts, Framed (f :: frames) s) :
      Framed frames (.whileLoop test b)
  | doWhile {frames : Frames} {f : Frame} {test : Cond} {b : Scope} (hf : f.isLoop = true)
      (hb : b.Sealed .loop) (hbody : ∀ s ∈ b.stmts, Framed (f :: frames) s) :
      Framed frames (.doWhile test b)
  | forLoop {frames : Frames} {f : Frame} {init update : Stmt} {test : Cond} {b : Scope}
      (hinit : init.isPlain = true) (hupdate : update.isPlain = true) (hf : f.isLoop = true)
      (hb : b.Sealed .loop) (hbody : ∀ s ∈ b.stmts, Framed (f :: frames) s) :
      Framed frames (.forLoop (some init) test (some update) b)
  | switch {frames : Frames} {follow : Option Nat} {key : Expr} {arms : List SwitchArm}
      (harms : ∀ a ∈ arms, a.body.Sealed .switch)
      (hbodies : ∀ a ∈ arms, ∀ s ∈ a.body.stmts, Framed (.switch follow :: frames) s) :
      Framed frames (.switch key arms)

/-- The scope is open and of the given kind, and its statements may stand within the constructs. -/
structure Written (frames : Frames) (k : ScopeKind) (s : Scope) : Prop extends s.Opened k where
  framed : ∀ t ∈ s.stmts, Framed frames t

/-- The scope is locked and of the given kind, and its statements may stand within the
    constructs. -/
structure Enclosed (frames : Frames) (k : ScopeKind) (s : Scope) : Prop extends s.Sealed k where
  framed : ∀ t ∈ s.stmts, Framed frames t

namespace Written

variable {frames : Frames} {k : ScopeKind} {s s' : Scope} {t : Stmt}

/-- The scope of a construct, before anything is written. -/
theorem child (frames : Frames) (s : Scope) (k : ScopeKind) : Written frames k (s.child k) :=
  ⟨Scope.opened_child s k, fun _ ht => absurd ht List.not_mem_nil⟩

/-- A statement that may stand there is added. -/
theorem of_append (happend : s.append t = .ok s') (h : Written frames k s) (ht : Framed frames t) :
    Written frames k s' := by
  rw [Scope.append_inv happend]
  refine ⟨⟨h.unlocked, h.kind⟩, ?_⟩
  intro x hx
  rcases List.mem_append.1 hx with hx | hx
  · exact h.framed x hx
  · rw [List.mem_singleton.1 hx]
    exact ht

/-- A scope is locked before it becomes part of a statement. -/
theorem lock (h : Written frames k s) (hlock : s.lock = .ok s') : Enclosed frames k s' := by
  refine ⟨Scope.sealed_of_lock h.toOpened hlock, ?_⟩
  rw [Scope.stmts_of_lock hlock]
  exact h.framed

/-- Some of the statements are left. -/
theorem of_subset (h : Written frames k s) (hs : s'.Opened k) (hsub : s'.stmts ⊆ s.stmts) :
    Written frames k s' := ⟨hs, fun t ht => h.framed t (hsub ht)⟩

/-- The jump at the end of an arm is taken away. -/
theorem closeArm {next follow : Option Nat} {r : Bool × Scope} (h : Written frames k s)
    (hclose : Restructure.closeArm next follow s = .ok r) : Written frames k r.2 := by
  have hgives : Gives (Error.Allowed True) (Restructure.closeArm next follow s)
      fun r => r.2.Opened k :=
    closeArm_gives h.toOpened
  exact h.of_subset (hgives.of_ok hclose) (closeArm_trimmed hclose).subset

/-- So is the jump at the end of an endless loop. -/
theorem dropContinue (h : Written frames k s) (hdrop : Context.dropContinue s = .ok s') :
    Written frames k s' := by
  have hgives : Gives (Error.Allowed True) (Context.dropContinue s) (Scope.Opened k) :=
    Context.dropContinue_gives h.toOpened
  exact h.of_subset (hgives.of_ok hdrop) (Context.dropContinue_trimmed hdrop).subset

/-- And the return at the end of a method. -/
theorem dropReturn (h : Written frames k s) (hdrop : Context.dropReturn s = .ok s') :
    Written frames k s' := by
  have hgives : Gives (Error.Allowed True) (Context.dropReturn s) (Scope.Opened k) :=
    Context.dropReturn_gives h.toOpened
  exact h.of_subset (hgives.of_ok hdrop) (Context.dropReturn_trimmed hdrop).subset

/-- Instructions write plain statements. -/
theorem run {config : Config} {m m' : Simulation} {is : List Insn} (h : Written frames k m.scope)
    (hrun : Simulation.run config m is = .ok m') : Written frames k m'.scope := by
  have hgives : Gives (Error.Allowed True) (Simulation.run config m is) (Simulation.Opened k) :=
    Simulation.run_gives h.toOpened fun _ _ _ _ => trivial
  refine ⟨hgives.of_ok hrun, ?_⟩
  -- by induction on the changes of the code: statements are added or taken back
  have hall : ∀ {ts}, Rewritten Node.Terminal m.scope.stmts ts → ∀ t ∈ ts, Framed frames t := by
    intro ts hts
    induction hts with
    | refl => exact h.framed
    | @add ts s _ hs hB ih =>
      intro t ht
      rcases List.mem_append.1 ht with ht | ht
      · exact ih t ht
      · rw [List.mem_singleton.1 ht]
        -- of the atomic statements only the jumps are not plain, and instructions do not jump
        have hgoes : s.isTerminal = false := Stmt.isTerminal_of_avoids hB
        apply Framed.plain
        cases s with
        | breakOut | continueLoop => cases hgoes
        | _ => exact hs
    | drop _ ih => exact fun t ht => ih t (List.mem_append_left _ ht)
  exact hall (Simulation.run_straight hrun)

end Written

namespace Context

variable {c : Context} {frames : Frames} {k : ScopeKind} {n : Nat} {scope : Scope}

/-! ### What the walk puts into statements -/

/-- A branch collapses into a plain statement. -/
theorem CollapsesTo.isPlain {pos : Position} {test : BranchTest} {blocks : List Nat} {s : Stmt}
    {merge : Option Nat} (h : c.CollapsesTo pos scope test (.stmt blocks s merge)) :
    s.isPlain = true := by
  cases h with
  | assign => rfl
  | ret => rfl

/-- The body of a promoted loop is locked. -/
theorem sealed_of_promoteFor {enabled : Bool} {scope' body : Scope} {cond : Cond} {s : Stmt}
    (hb : body.Opened .loop) (h : promoteFor enabled scope cond body = .ok (s, scope')) :
    (∀ test b, s = .whileLoop test b → b.Sealed .loop) ∧
      ∀ init test update b, s = .forLoop init test update b → b.Sealed .loop := by
  unfold promoteFor at h
  split at h
  · obtain ⟨⟨update, body₁⟩, hpop, h⟩ := Except.bind_eq_ok.1 h
    obtain ⟨⟨init, scope₁⟩, _, h⟩ := Except.bind_eq_ok.1 h
    obtain ⟨b, hlock, h⟩ := Except.bind_eq_ok.1 h
    cases h
    have hgives : Gives (Error.Allowed True) body.pop fun r => r.2.Opened .loop :=
      Scope.pop_gives hb (Scope.pop_inv hpop).1
    have hbody₁ : body₁.Opened .loop := hgives.of_ok hpop
    constructor
    · intro _ _ heq
      cases heq
    · intro _ _ _ _ heq
      cases heq
      exact Scope.sealed_of_lock hbody₁ hlock
  · obtain ⟨b, hlock, h⟩ := Except.bind_eq_ok.1 h
    cases h
    constructor
    · intro _ _ heq
      cases heq
      exact Scope.sealed_of_lock hb hlock
    · intro _ _ _ _ heq
      cases heq

/-- A promoted loop takes the last statement of the scope before it, or none. -/
theorem promoteFor_framed {f : Frame} {enabled : Bool} {scope' body : Scope} {cond : Cond}
    {s : Stmt} (hf : f.isLoop = true) (hs : Written frames k scope)
    (hb : Written (f :: frames) .loop body)
    (h : promoteFor enabled scope cond body = .ok (s, scope')) :
    Written frames k scope' ∧ Framed frames s := by
  have hgives : Gives (Error.Allowed True) (promoteFor enabled scope cond body)
      fun r => r.2.Opened k :=
    promoteFor_gives hs.toOpened hb.toOpened
  have hopened : scope'.Opened k := hgives.of_ok h
  obtain ⟨hwhile, hfor⟩ := sealed_of_promoteFor hb.toOpened h
  -- either loop has the locked body; a counting one leaves less of the scope and of the body
  cases promoteFor_inv h with
  | @counting init update b slot hinit hupdate _ _ hstmts hbody _ =>
    constructor
    · apply hs.of_subset hopened
      rw [hstmts]
      exact List.subset_append_left _ _
    · refine .forLoop (Stmt.isPlain_of_assignedLocal hinit)
        (Stmt.isPlain_of_assignedLocal hupdate) hf (hfor _ _ _ _ rfl) fun t ht => ?_
      apply hb.framed
      rw [hbody]
      exact List.mem_append_left _ ht
  | plain hbody hscope =>
    constructor
    · rw [hscope]
      exact hs
    · refine .whileLoop hf (hwhile _ _ rfl) fun t ht => ?_
      apply hb.framed
      rwa [← hbody]

end Context

/-! ### The walk -/

/-- What is written of a piece may stand within the constructs around it, and what becomes part of a
    statement is locked. -/
def Piece.Writes : Piece → Prop
  | .region frames _ _ m m' | .onward frames _ (_, m) m' | .entered frames _ _ m (_, m')
  | .block frames _ _ m (_, m') | .exit frames _ _ _ m (_, m') | .branch frames _ _ _ _ m (_, m')
  | .plain frames _ _ _ m (_, m') =>
    ∀ k, Written frames k m.scope → Written frames k m'.scope
  | .inner frames _ _ s s' | .before frames _ _ s s' =>
    ∀ k, Written frames k s → Written frames k s'
  | .arm frames _ _ _ b => Enclosed frames .arm b
  | .switchArm frames _ _ _ _ _ b => Enclosed frames .switch b
  | .arms frames _ _ _ code => ∀ a ∈ code, Enclosed frames .switch a.body

namespace Context

variable {c : Context} {frames : Frames} {k : ScopeKind} {n : Nat} {scope : Scope}

/-- Every piece may stand within the constructs around it. By induction on how it comes about: what
    is written inside a construct may stand within one frame more. -/
theorem Derives.writes {labels : List Nat} {piece : Piece} {p p' : Progress}
    (h : c.Derives labels piece p p') : piece.Writes := by
  induction h with
  | stop _ | done | exitGoto | collapsedValue _ _ | latchOnly _ => exact fun _ hm => hm
  -- a jump is written only where the frames around offer it
  | nextRound hjump happend =>
    exact fun _ hm => .of_append happend hm (.nextRound ((c.jump_inv _ _).2.1 hjump))
  | leave hjump happend =>
    exact fun _ hm => .of_append happend hm (.leave ((c.jump_inv _ _).2.2 hjump))
  | goto _ _ _ happend => exact fun _ hm => .of_append happend hm (.goto ..)
  -- a label may stand anywhere, and so what is written behind it is what the code of the block is
  | enter _ hlabel _ _ ihcode ihrest =>
    refine fun k hm => ihrest k (ihcode k ?_)
    cases hlabel with
    | placed _ _ happend => exact .of_append happend hm (.label ..)
    | none _ => exact hm
  | next _ ih | here _ _ ih | plain _ _ _ ih | before _ _ ih | inner _ _ ih | exitBranch _ _ _ ih =>
    exact ih
  -- the body has the loop as one frame more, and a promotion takes a statement in front of it
  | whileLoop _ _ _ _ _ _ hpromote happend ih =>
    intro k hm
    have hbody := ih .loop (.child _ _ .loop)
    obtain ⟨hscope, hstmt⟩ := promoteFor_framed rfl hm hbody hpromote
    exact .of_append happend hscope hstmt
  | doLoop _ _ _ _ _ _ _ _ _ hrun _ hlock happend ih =>
    intro k hm
    -- the latch is simulated behind the rest of the body
    have hbody := ih .loop (.child _ _ .loop)
    have hall := (Written.run (m := .start _) hbody hrun).lock hlock
    exact .of_append happend hm (.doWhile rfl hall.toSealed hall.framed)
  -- two parts are written into one body: the header's own code, and what follows it in the loop
  | endless _ _ _ _ _ _ _ _ hdrop hlock happend ihblock ihrest =>
    intro k hm
    have hbody := ihrest .loop (ihblock .loop (.child _ _ .loop))
    have hall := (hbody.dropContinue hdrop).lock hlock
    exact .of_append happend hm (.whileLoop rfl hall.toSealed hall.framed)
  | block _ hrun _ ih => exact fun k hm => ih k (hm.run hrun)
  | exitRet happend => exact fun _ hm => .of_append happend hm (.plain rfl)
  | exitValue _ happend | exitThrow _ happend =>
    exact fun _ hm => .of_append happend hm (.plain rfl)
  -- here an enclosed scope becomes part of a statement: it is locked, as the arms of a branch are
  | exitSwitch _ _ _ happend ih =>
    exact fun _ hm => .of_append happend hm
      (.switch (fun a ha => (ih a ha).toSealed) fun a ha => (ih a ha).framed)
  | collapsedStmt _ hform happend =>
    exact fun _ hm => .of_append happend hm (.plain (ternary_inv hform).isPlain)
  | oneArm _ _ _ happend ih =>
    exact fun _ hm => .of_append happend hm
      (.ifElse ih.toSealed ih.framed (fun _ he => nomatch he) fun _ he => nomatch he)
  | twoArms _ _ _ _ _ _ happend iharm ihelse =>
    intro k hm
    refine .of_append happend hm (.ifElse iharm.toSealed iharm.framed ?_ ?_)
    · intro e he
      cases he
      exact ihelse.toSealed
    · intro e he
      cases he
      exact ihelse.framed
  | jump _ _ _ happend => exact fun _ hm => .of_append happend hm (.gotoIf ..)
  -- arms begin as empty scopes of their own, and are locked in the end
  | arm _ hlock ih => exact (ih .arm (.child _ _ .arm)).lock hlock
  | armEmpty _ hlock => exact (Written.child _ _ .switch).lock hlock
  | armCode _ _ hclose hlock ih =>
    exact ((ih .switch (.child _ _ .switch)).closeArm hclose).lock hlock
  | armsNil => exact fun a ha => absurd ha List.not_mem_nil
  | armsCons _ _ iharm ihrest =>
    intro a ha
    rcases List.mem_cons.1 ha with rfl | ha
    · exact iharm
    · exact ihrest a ha

/-! ### Whole methods -/

/-- The jumps of flat code may stand anywhere. -/
theorem flatExit_framed (frames : Frames) {exit : Terminator} {st st' : Operands}
    {jumps : List Stmt} (h : flatExit n exit st = .ok (jumps, st')) :
    ∀ t ∈ jumps, Framed frames t := by
  cases exit with
  | goto t =>
    cases h
    simpa using Framed.goto frames t
  | ret =>
    cases h
    have hplain : Framed frames (.ret none) := .plain rfl
    simpa using hplain
  | retValue =>
    obtain ⟨⟨e, st₁⟩, _, h⟩ := Except.bind_eq_ok.1 h
    cases h
    have hplain : Framed frames (.ret (some e)) := .plain rfl
    simpa using hplain
  | throw =>
    obtain ⟨⟨e, st₁⟩, _, h⟩ := Except.bind_eq_ok.1 h
    cases h
    have hplain : Framed frames (.throw e) := .plain rfl
    simpa using hplain
  | branch test taken fallthrough =>
    obtain ⟨⟨cond, st₁⟩, _, h⟩ := Except.bind_eq_ok.1 h
    cases h
    simpa using And.intro (Framed.gotoIf frames cond taken) (Framed.goto frames fallthrough)
  | switch cases default =>
    obtain ⟨⟨key, st₁⟩, _, h⟩ := Except.bind_eq_ok.1 h
    simp only at h
    split at h
    · cases h
    · cases h
      -- one jump for each case, and then the jump to the default
      intro t ht
      rcases List.mem_append.1 ht with ht | ht
      · obtain ⟨x, _, rfl⟩ := List.mem_map.1 ht
        exact .gotoIf ..
      · rw [List.mem_singleton.1 ht]
        exact .goto ..

/-- Statements are added one by one. -/
theorem appendAll_written {scope' : Scope} {ss : List Stmt} (hs : Written frames k scope)
    (hss : ∀ t ∈ ss, Framed frames t) (h : appendAll scope ss = .ok scope') :
    Written frames k scope' := by
  have hgives : Gives (Error.Allowed True) (appendAll scope ss) (Scope.Opened k) :=
    appendAll_gives hs.toOpened ss
  refine ⟨hgives.of_ok h, ?_⟩
  rw [stmts_of_appendAll h]
  exact List.forall_mem_append.2 ⟨hs.framed, hss⟩

/-- Flat code may stand anywhere. -/
theorem Flattens.written {s s' : Scope} {ns targets : List Nat} (h : c.Flattens ns s s' targets)
    (hs : Written frames k s) : Written frames k s' := by
  induction h with
  | nil => exact hs
  | cons _ hlabel hrun hexit hjumps _ ih =>
    have hm := Written.run (m := .start _) (.of_append hlabel hs (.label ..)) hrun
    exact ih (appendAll_written hm (flatExit_framed frames hexit) hjumps)

/-- Structured code, in front of what only jumps lead to. -/
theorem structured_written {r : Result} (hs : Written [] k scope)
    (h : c.structured scope = .ok r) : Written [] k r.body := by
  obtain ⟨labels, m, p, p', hregion, htail⟩ := structured_derives h
  have hm : Written [] k m.scope := hregion.writes k hs
  cases htail with
  | dropped _ hdrop => exact hm.dropReturn hdrop
  | flat _ _ hcode => exact hcode.written hm

end Context

/-- The body of a method is locked, and its statements stand within no construct. -/
theorem Method.recover_framed {config : Config} {m : Method} {r : RecoveredBody}
    (h : m.recover config = .ok r) : Enclosed [] .method r.body := by
  obtain ⟨body, _, horigin, hlock, _⟩ := recover_inv h
  have hstart : ∀ locals, Written [] .method (.withLocals .method locals) :=
    fun _ => ⟨⟨rfl, rfl⟩, fun _ ht => absurd ht List.not_mem_nil⟩
  -- structured or flat, the code stands within no construct
  refine Written.lock ?_ hlock
  cases horigin with
  | bodyless _ locals => exact hstart locals
  | structured _ hcode => exact Context.structured_written (hstart _) hcode
  | flat _ hcode =>
    obtain ⟨_, hblocks⟩ := Context.flattens_of_flatten hcode
    exact hblocks.written (hstart _)

end Restructure
