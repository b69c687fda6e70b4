import Restructure.Proofs.Locals.Trees
import Restructure.Proofs.Origins
import Restructure.Proofs.Region.Whole

namespace Restructure

/-!
# Scoped code — the locals of regions are bound where they stand

A region begins over a copy of the table around it, and its instructions bind what they name. What
the walk then puts together of tests, values and scopes keeps all occurrences in their scopes, but
for those that come from a block of their own: they keep the names of their slots only.

* `branchCondition_fits`, `Context.pureTest_fits`, `Context.fold_fits` — tests of branches, and of
  chains of them.
* `Context.built_fits`, `Context.collapsed_fits` — conditional values.
* `promoteFor_scoped` — loops that become counting loops.
* `Piece.Scopes` — a piece of the walk keeps the code scoped.
* `Context.Derives.scopes` — and so does all that the walk writes.
* `Method.recover_scoped` — and for the code of every method.
-/

open Use

variable {params t : Locals}

/-! ### Tests -/

/-- A test against zero is made of the value that it tests. -/
theorem zeroTest_fits {e : Expr} {o : Relation} (he : AllFit params t (e.uses false)) :
    (zeroTest e o).Fits params t false := by
  unfold zeroTest
  split
  · exact ⟨.compare .., he⟩
  · split
    · exact ⟨.test .., he⟩
    · split
      · exact ⟨.test .., he⟩
      · exact ⟨.compare .., allFit_append.2 ⟨he, allFit_nil⟩⟩

/-- The condition of a branch is made of values from the stack. -/
theorem branchCondition_fits {test : Branch} {st st' : Operands} {cond : Cond}
    (hst : st.Fit params t) (h : branchCondition test st = .ok (cond, st')) :
    cond.Fits params t false ∧ st'.Fit params t := by
  unfold branchCondition at h
  cases test with
  | zero o =>
    obtain ⟨⟨e, st₁⟩, hpop, h⟩ := Except.bind_eq_ok.1 h
    cases h
    obtain ⟨he, hst₁⟩ := Operands.fit_of_pop hpop hst
    exact ⟨zeroTest_fits he, hst₁⟩
  | values o =>
    obtain ⟨⟨r, st₁⟩, hpop₁, h⟩ := Except.bind_eq_ok.1 h
    obtain ⟨⟨l, st₂⟩, hpop₂, h⟩ := Except.bind_eq_ok.1 h
    cases h
    obtain ⟨hr, hst₁⟩ := Operands.fit_of_pop hpop₁ hst
    obtain ⟨hl, hst₂⟩ := Operands.fit_of_pop hpop₂ hst₁
    exact ⟨⟨.compare .., allFit_append.2 ⟨hl, hr⟩⟩, hst₂⟩
  | isNull | isNotNull =>
    obtain ⟨⟨e, st₁⟩, hpop, h⟩ := Except.bind_eq_ok.1 h
    cases h
    obtain ⟨he, hst₁⟩ := Operands.fit_of_pop hpop hst
    exact ⟨⟨.compare .., allFit_append.2 ⟨he, allFit_nil⟩⟩, hst₁⟩

/-- The test of a conditional value stays where it is, and its alternatives are moved there. -/
theorem BranchTest.choose_fits {test : BranchTest} {t₁ t₂ : Locals} {b : Bool} {x y : Expr}
    (ht : test.cond.Fits params t b) (hx : AllFit params t₁ (x.uses true))
    (hy : AllFit params t₂ (y.uses true)) : AllFit params t ((test.choose x y).uses b) :=
  allFit_append.2 ⟨allFit_append.2 ⟨ht.negate.uses, Expr.fits_moved hx⟩, Expr.fits_moved hy⟩

namespace Context

variable {c : Context} {test : BranchTest} {chain : List Nat} {n : Nat} {scope : Scope}
  {m : Simulation}

/-- A block over a scope of its own. -/
theorem scratch_fits (htable : scope.locals.Extends params) (h : c.scratch? n scope = some m) :
    m.Fits params := by
  unfold scratch? at h
  split at h
  · have hstart : (Simulation.start (scope.child .block)).Scoped params :=
      .start (.withLocals htable _)
    exact Simulation.run_fits hstart.fits (Except.eq_ok_of_toOption h)
  · cases h

/-- The test of a block that only tests is moved to where the chain begins. -/
theorem pureTest_fits (htable : scope.locals.Extends params) (h : c.pureTest n scope = some test) :
    test.cond.Fits params t true := by
  obtain ⟨b, _, h⟩ := Option.bind_eq_some_iff.1 h
  split at h
  · obtain ⟨m, hm, h⟩ := Option.bind_eq_some_iff.1 h
    split at h
    · obtain ⟨⟨cond, st⟩, hcond, h⟩ := Option.bind_eq_some_iff.1 h
      cases h
      have hstack := (scratch_fits htable hm).stack
      exact (branchCondition_fits hstack (Except.eq_ok_of_toOption hcond)).1.moved
    · cases h
  · cases h

/-- The first test of a chain stays where it is, and the others are moved there. -/
theorem fold_fits {eligible : Nat → Bool} {head : BranchTest} {b : Bool}
    (htable : scope.locals.Extends params)
    (hfold : head.fold c scope eligible n = (test, chain)) (hhead : head.cond.Fits params t b) :
    test.cond.Fits params t b := by
  refine BranchTest.fold_induction (motive := fun test _ => test.cond.Fits params t b) hfold
    hhead ?_
  intro head longer chain k hhead hext
  obtain ⟨next, _, _, hnext, _, hj⟩ := BranchTest.extension_inv hext
  have hnext : next.cond.Fits params t true := pureTest_fits htable hnext
  have hcond := hj.cond
  generalize longer.cond = joined at hcond
  cases hcond with
  | any => exact hhead.any hnext
  | anyNegated => exact hhead.any hnext.negate
  | all => exact hhead.all hnext
  | allNegated => exact hhead.all hnext.negate

/-- The values of arms come from other scopes. -/
theorem built_fits {pos : Position} {arm : ValueArm} (htable : scope.locals.Extends params)
    (h : arm.Built c pos scope n) : AllFit params t (arm.value.uses true) := by
  induction h with
  | leaf _ _ _ hm _ hstack =>
    have hst := (scratch_fits htable hm).stack
    rw [hstack, Operands.fit_value] at hst
    exact Expr.fits_moved hst
  | fork _ hhead hfold _ _ _ iht ihf =>
    exact BranchTest.choose_fits (fold_fits htable hfold (pureTest_fits htable hhead)) ihf iht

/-- What a branch collapses into fits the scope in which the branch stands. -/
theorem collapsed_fits {pos : Position} {form : Collapsed} (htable : scope.locals.Extends params)
    (h : c.CollapsesTo pos scope test form) (ht : test.cond.Fits params t false) :
    match form with
    | .value _ e _ => AllFit params t (e.uses false)
    | .stmt _ s _ => s.scopes = [] ∧ AllFit params t s.uses := by
  have hassigned : ∀ {n merge : Nat} {target : Place} {value : Expr},
      c.Shaped scope n (.assign target value merge) →
        AllFit params t (target.uses true) ∧ AllFit params t (value.uses true) := by
    intro n merge target value hshape
    cases hshape with
    | assign _ _ hm hstmts _ =>
      have huses := (scratch_fits htable hm).scope.stmts (.assign target value) (by simp [hstmts])
      obtain ⟨htarget, hvalue⟩ := allFit_append.1 huses
      -- the destination comes from the scope of the arm, too
      exact ⟨target.uses_true _ ▸ htarget.move, Expr.fits_moved hvalue⟩
  have hreturned : ∀ {n : Nat} {value : Expr}, c.Shaped scope n (.ret value) →
      AllFit params t (value.uses true) := by
    intro n value hshape
    cases hshape with
    | ret _ _ hm _ hstack =>
      have hst := (scratch_fits htable hm).stack
      rw [hstack, Operands.fit_value] at hst
      exact Expr.fits_moved hst
  cases h with
  | value htaken hfall _ =>
    exact BranchTest.choose_fits ht (built_fits (t := t) htable hfall)
      (built_fits (t := t) htable htaken)
  | assign _ _ hfall htaken =>
    obtain ⟨htarget, hvalue⟩ := hassigned hfall
    exact ⟨rfl, allFit_append.2 ⟨htarget, BranchTest.choose_fits ht hvalue (hassigned htaken).2⟩⟩
  | ret _ hfall htaken =>
    exact ⟨rfl, BranchTest.choose_fits ht (hreturned hfall) (hreturned htaken)⟩

end Context

/-! ### Scopes whose end is taken away -/

section Ends

variable {scope scope' body : Scope}

/-- The end of an arm may be taken away. -/
theorem closeArm_scoped {next follow : Option Nat} {r : Bool × Scope} (hs : scope.Scoped params)
    (h : closeArm next follow scope = .ok r) : r.2.Scoped params := by
  unfold closeArm at h
  split at h
  · obtain ⟨⟨x, s⟩, hpop, rfl⟩ := Except.map_eq_ok.1 h
    exact hs.pop hpop
  · cases h
    exact hs

/-- So may the end of an endless loop. -/
theorem Context.dropContinue_scoped (hs : scope.Scoped params)
    (h : dropContinue scope = .ok scope') : scope'.Scoped params := by
  unfold dropContinue at h
  split at h
  · obtain ⟨⟨x, s⟩, hpop, rfl⟩ := Except.map_eq_ok.1 h
    exact hs.pop hpop
  · cases h
    exact hs

/-- And the end of a method. -/
theorem Context.dropReturn_scoped (hs : scope.Scoped params)
    (h : dropReturn scope = .ok scope') : scope'.Scoped params := by
  unfold dropReturn at h
  split at h
  · obtain ⟨⟨x, s⟩, hpop, rfl⟩ := Except.map_eq_ok.1 h
    exact hs.pop hpop
  · cases h
    exact hs

/-- A counting loop takes in statements from the ends of the scope around it and of its body. -/
theorem promoteFor_scoped {enabled : Bool} {cond : Cond} {s : Stmt}
    (hcond : AllFit params t (cond.uses true)) (hscope : scope.Scoped params)
    (hbody : body.Scoped params) (h : promoteFor enabled scope cond body = .ok (s, scope')) :
    scope'.Scoped params ∧ scope'.locals = scope.locals ∧ s.Scoped params ∧
      AllFit params scope.locals s.uses := by
  have hcond : AllFit params scope.locals (cond.uses true) := cond.uses_true true ▸ hcond.move
  unfold promoteFor at h
  split at h
  · obtain ⟨⟨update, body₁⟩, hpop, h⟩ := Except.bind_eq_ok.1 h
    obtain ⟨⟨init, scope₁⟩, hpop', h⟩ := Except.bind_eq_ok.1 h
    obtain ⟨body₂, hlock, h⟩ := Except.bind_eq_ok.1 h
    cases h
    have hupdate : update ∈ body.stmts := List.mem_of_getLast? (Scope.pop_inv hpop).1
    have hinit : init ∈ scope.stmts := List.mem_of_getLast? (Scope.pop_inv hpop').1
    obtain ⟨hbody₂, hlocals⟩ := (hbody.pop hpop).lock hlock
    -- the update fits the table of the body, which locking leaves alone
    have huses : AllFit params body₂.locals update.uses := by
      rw [hlocals, Scope.locals_of_pop hpop]
      exact hbody.fits.stmts update hupdate
    refine ⟨hscope.pop hpop', Scope.locals_of_pop hpop', Stmt.scoped_forLoop hcond
      (hscope.stmts init hinit) (hbody.stmts update hupdate) huses hbody₂, ?_⟩
    exact allFit_append.2 ⟨allFit_append.2 ⟨hscope.fits.stmts init hinit, hcond⟩, huses.move⟩
  · obtain ⟨body₁, hlock, h⟩ := Except.bind_eq_ok.1 h
    cases h
    exact ⟨hscope, rfl, Stmt.scoped_whileLoop hcond (hbody.lock hlock).1, hcond⟩

end Ends

namespace Context

variable {c : Context} {n : Nat} {scope : Scope}

/-- The test of a loop is made of code that belongs to its rounds. It may be turned round, so that
    it holds where the loop goes on. -/
theorem loopTest_fits {l : Loop} {written : List Nat} {test : LoopTest}
    (htable : scope.locals.Extends params) (h : c.loopTest? l written scope = some test) :
    AllFit params t (test.cond.uses true) := by
  obtain ⟨folded, head, hhead, hfold, _, _, heq, _⟩ := loopTest_inv h
  have hfolded : folded.cond.Fits params t true :=
    fold_fits htable hfold (pureTest_fits htable hhead)
  rcases heq with heq | heq
  · exact heq ▸ hfolded.uses
  · exact heq ▸ hfolded.negate.uses

end Context

/-- A condition may be turned round. -/
theorem Cond.fits_side {cond : Cond} {b : Bool} (isTaken : Bool) (h : cond.Fits params t b) :
    (if isTaken then cond else cond.negate).Fits params t b := by
  cases isTaken with
  | true => exact h
  | false => exact h.negate

/-! ### The walk -/

/-- The code of a piece is scoped if what is before it is. -/
def Piece.Scopes (params : Locals) : Piece → Prop
  | .region _ _ _ m m' | .onward _ _ (_, m) m' | .entered _ _ _ m (_, m') | .block _ _ _ m (_, m')
  | .exit _ _ _ _ m (_, m') => m.Scoped params → m'.Scoped params
  | .branch _ _ _ test _ m (_, m') | .plain _ _ _ test m (_, m') =>
    m.Scoped params → test.cond.Fits params m.scope.locals false → m'.Scoped params
  | .inner _ _ _ s s' | .arm _ _ _ s s' | .before _ _ _ s s' | .switchArm _ _ _ s _ _ s' =>
    s.Scoped params → s'.Scoped params
  | .arms _ _ s _ code => s.Scoped params → ∀ a ∈ code, a.body.Scoped params

namespace Context

variable {c : Context} {n : Nat} {scope : Scope}

/-- Every piece is scoped. By induction on how it comes about: a scope inside begins over the table
    around it, and a test is looked at where it stands. -/
theorem Derives.scopes {labels : List Nat} {piece : Piece} {p p' : Progress}
    (h : c.Derives labels piece p p') : piece.Scopes params := by
  induction h with
  | stop _ | done | exitGoto | latchOnly _ => exact id
  | nextRound _ happend | leave _ happend | goto _ _ _ happend | exitRet happend =>
    exact fun hm => .of_append_flat happend hm rfl allFit_nil
  | enter _ hlabel _ _ ihcode ihrest =>
    refine fun hm => ihrest (ihcode ?_)
    cases hlabel with
    | placed _ _ happend => exact .of_append_flat happend hm rfl allFit_nil
    | none _ => exact hm
  | next _ ih | here _ _ ih | plain _ _ _ ih | before _ _ ih => exact ih
  | whileLoop _ _ _ _ htest _ hpromote happend ih =>
    intro hm
    have hcond := loopTest_fits (t := params) hm.scope.fits.table htest
    obtain ⟨hscope, hlocals, hstmt, huses⟩ :=
      promoteFor_scoped hcond hm.scope (ih (hm.scope.child .loop)) hpromote
    exact .of_append happend ⟨hscope, hlocals ▸ hm.stack⟩ hstmt (hlocals ▸ huses)
  | doLoop onTaken _ _ _ _ _ _ _ _ hrun hcond hlock happend ih =>
    intro hm
    have hbody := Simulation.run_scoped (.start (ih (hm.scope.child .loop))) hrun
    have htest := Cond.fits_side onTaken (branchCondition_fits hbody.stack hcond).1
    obtain ⟨hlocked, hlocals⟩ := hbody.scope.lock hlock
    -- the test stands behind the body and is bound by the same table
    exact .of_append happend hm (Stmt.scoped_doWhile (hlocals ▸ htest.uses) hlocked)
      htest.moved.uses
  | endless _ _ _ _ _ _ _ _ hdrop hlock happend ihblock ihrest =>
    intro hm
    have hbody := ihrest (ihblock (.start (hm.scope.child .loop)))
    have hlocked := ((dropContinue_scoped hbody.scope hdrop).lock hlock).1
    exact .of_append happend hm (Stmt.scoped_whileLoop (t := params) allFit_nil hlocked)
      allFit_nil
  | block _ hrun _ ih => exact fun hm => ih (Simulation.run_scoped hm hrun)
  | exitValue hpop happend | exitThrow hpop happend =>
    intro hm
    obtain ⟨he, hst⟩ := Operands.fit_of_pop hpop hm.stack
    exact .of_append_flat happend (hm.withStack hst) rfl he
  | exitBranch hcond hfold _ ih =>
    intro hm
    obtain ⟨hhead, hst⟩ := branchCondition_fits hm.stack hcond
    exact ih (hm.withStack hst) (fold_fits hm.scope.fits.table hfold hhead)
  | exitSwitch hpop _ _ happend ih =>
    intro hm
    obtain ⟨hkey, hst⟩ := Operands.fit_of_pop hpop hm.stack
    exact .of_append happend (hm.withStack hst) (Stmt.scoped_switch hkey (ih hm.scope)) hkey
  | collapsedValue _ hform =>
    intro hm ht
    have hvalue := collapsed_fits hm.scope.fits.table (ternary_inv hform) ht
    exact hm.withStack (Operands.fit_push.2 ⟨hvalue, hm.stack⟩)
  | collapsedStmt _ hform happend =>
    intro hm ht
    obtain ⟨hflat, huses⟩ := collapsed_fits hm.scope.fits.table (ternary_inv hform) ht
    exact .of_append_flat happend hm hflat huses
  | oneArm isTaken _ _ happend ih =>
    intro hm ht
    have hcond := Cond.fits_side isTaken ht
    have hnone : ∀ e, (none : Option Scope) = some e → e.Scoped params := fun _ he => nomatch he
    exact .of_append happend hm (Stmt.scoped_ifElse hcond.uses (ih hm.scope) hnone) hcond.uses
  | twoArms _ _ _ _ _ _ happend iharm ihelse =>
    intro hm ht
    have hcond := ht.negate
    refine .of_append happend hm (Stmt.scoped_ifElse hcond.uses (iharm hm.scope) ?_) hcond.uses
    exact fun e he => Option.some.inj he ▸ ihelse hm.scope
  | jump _ _ _ happend => exact fun hm ht => .of_append_flat happend hm rfl ht.uses
  | inner _ _ ih => exact fun hs => (ih (.start hs)).scope
  | arm _ hlock ih => exact fun hs => ((ih (hs.child .arm)).lock hlock).1
  | armEmpty _ hlock => exact fun hs => ((hs.child .switch).lock hlock).1
  | armCode _ _ hclose hlock ih =>
    exact fun hs => ((closeArm_scoped (ih (hs.child .switch)) hclose).lock hlock).1
  | armsNil => exact fun _ a ha => absurd ha List.not_mem_nil
  | armsCons _ _ iharm ihrest =>
    exact fun hs => List.forall_mem_cons.2 ⟨iharm hs, ihrest hs⟩

/-! ### Flat code -/

/-- The jumps of flat code are made of values from the stack. -/
theorem flatExit_fits {exit : Terminator} {st st' : Operands} {jumps : List Stmt}
    (hst : st.Fit params t) (h : flatExit n exit st = .ok (jumps, st')) :
    ∀ s ∈ jumps, s.scopes = [] ∧ AllFit params t s.uses := by
  cases exit with
  | goto | ret =>
    cases h
    exact List.forall_mem_singleton.2 ⟨rfl, allFit_nil⟩
  | retValue | throw =>
    obtain ⟨⟨e, st₁⟩, he, h⟩ := Except.bind_eq_ok.1 h
    cases h
    exact List.forall_mem_singleton.2 ⟨rfl, (Operands.fit_of_pop he hst).1⟩
  | branch test taken fallthrough =>
    obtain ⟨⟨cond, st₁⟩, hcond, h⟩ := Except.bind_eq_ok.1 h
    cases h
    exact List.forall_mem_cons.2 ⟨⟨rfl, (branchCondition_fits hst hcond).1.uses⟩,
      List.forall_mem_singleton.2 ⟨rfl, allFit_nil⟩⟩
  | switch cases default =>
    obtain ⟨⟨key, st₁⟩, hkey, h⟩ := Except.bind_eq_ok.1 h
    simp only at h
    split at h
    · cases h
    · cases h
      refine List.forall_mem_append.2 ⟨fun s hs => ?_,
        List.forall_mem_singleton.2 ⟨rfl, allFit_nil⟩⟩
      obtain ⟨k, _, rfl⟩ := List.mem_map.1 hs
      exact ⟨rfl, allFit_append.2 ⟨(Operands.fit_of_pop hkey hst).1, allFit_nil⟩⟩

/-- Statements that own no scopes are added one by one. -/
theorem appendAll_scoped {scope' : Scope} {ss : List Stmt} (hs : scope.Scoped params)
    (hss : ∀ x ∈ ss, x.scopes = [] ∧ AllFit params scope.locals x.uses)
    (h : appendAll scope ss = .ok scope') : scope'.Scoped params := by
  induction ss generalizing scope with
  | nil =>
    cases h
    exact hs
  | cons x ss ih =>
    obtain ⟨scope₁, hscope₁, h⟩ := Except.bind_eq_ok.1 h
    obtain ⟨⟨hflat, huses⟩, hss⟩ := List.forall_mem_cons.1 hss
    have hs₁ := hs.append (Stmt.scoped_of_flat hflat huses) huses hscope₁
    exact ih hs₁ (Scope.locals_of_append hscope₁ ▸ hss) h

/-- A block of flat code is a label, its instructions, and its jumps. -/
theorem Flattens.scoped {s s' : Scope} {ns targets : List Nat} (h : c.Flattens ns s s' targets)
    (hs : s.Scoped params) : s'.Scoped params := by
  induction h with
  | nil => exact hs
  | @cons n _ _ _ _ _ s _ _ _ _ hlabel hrun hexit hjumps _ ih =>
    have huses : AllFit params s.locals (Stmt.label n).uses := allFit_nil
    have hlabelled := hs.append (Stmt.scoped_of_flat rfl huses) huses hlabel
    have hm := Simulation.run_scoped (.start hlabelled) hrun
    exact ih (appendAll_scoped hm.scope (flatExit_fits hm.stack hexit) hjumps)

/-! ### Whole methods -/

/-- Structured code is scoped, with what only jumps lead to. -/
theorem structured_scoped {r : Context.Result} (hs : scope.Scoped params)
    (h : c.structured scope = .ok r) : r.body.Scoped params := by
  obtain ⟨labels, m, p, p', hregion, htail⟩ := structured_derives h
  have hm : m.Scoped params := hregion.scopes (.start hs)
  cases htail with
  | dropped _ hdrop => exact dropReturn_scoped hm.scope hdrop
  | flat _ _ hcode => exact hcode.scoped hm.scope

end Context

/-- The code of a method is scoped. -/
theorem Method.recover_scoped {config : Config} {m : Method} {r : RecoveredBody}
    (h : m.recover config = .ok r) :
    ∃ params, m.parameterLocals = .ok params ∧ r.body.Scoped params := by
  obtain ⟨body, _, horigin, hlock, _⟩ := Method.recover_inv h
  have hstart : ∀ locals : Locals, (Scope.withLocals .method locals).Scoped locals :=
    fun locals => .withLocals (.refl locals) _
  cases horigin with
  | bodyless _ locals hlocals => exact ⟨locals, hlocals, ((hstart locals).lock hlock).1⟩
  | @structured g locals _ _ hcode hlocals =>
    exact ⟨locals, hlocals, ((Context.structured_scoped (hstart locals) hcode).lock hlock).1⟩
  | @flat g locals _ _ hcode hlocals =>
    obtain ⟨_, hblocks⟩ := Context.flattens_of_flatten hcode
    exact ⟨locals, hlocals, ((hblocks.scoped (hstart locals)).lock hlock).1⟩

end Restructure
