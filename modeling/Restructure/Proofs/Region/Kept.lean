import Restructure.Proofs.Calls.Kept
import Restructure.Proofs.Region.Derivations
import Restructure.Proofs.Region.Zones

namespace Restructure

/-!
# Kept calls in the walk — a block is written together with its calls

The walk puts values and statements together and drops nothing but jumps, and where a scope of its
own ends it asks that nothing is left on the stack. So code that does not name a method was made
without writing a block that calls it.

* `Context.CallsAt` — a block that calls a method.
* `Kept` — code that comes about while more blocks are written.
* `Context.fold_keeps`, `Context.CollapsesTo.keeps`, `Context.latch_keeps` — what follows for
  chains, conditional values and `do` loops.
* `Piece.Keeps`, `Context.Derives.keeps` — and so for all that the walk writes.
-/

variable {B : Node → Prop}

/-! ### Parts of statements -/

namespace Stmt.Avoids

/-- The value that is returned. -/
theorem of_ret {e : Expr} (h : (Stmt.ret (some e)).Avoids B) : e.Avoids B :=
  h.parts (by rw [Stmt.nodes])

/-- The reference that is thrown. -/
theorem of_throw {e : Expr} (h : (Stmt.throw e).Avoids B) : e.Avoids B :=
  h.parts (by rw [Stmt.nodes])

/-- The condition of a jump to a label. -/
theorem of_gotoIf {c : Cond} {n : Nat} (h : (Stmt.gotoIf c n).Avoids B) : c.Avoids B :=
  h.parts (by rw [Stmt.nodes])

/-- The condition and the branches of a conditional. -/
theorem of_ifElse {c : Cond} {b : Scope} {orElse : Option Scope}
    (h : (Stmt.ifElse c b orElse).Avoids B) :
    c.Avoids B ∧ b.Avoids B ∧ ∀ e, orElse = some e → e.Avoids B := by
  cases orElse with
  | none =>
    obtain ⟨hc, hb⟩ := List.forall_mem_append.1 (h.parts (by rw [Stmt.nodes]))
    exact ⟨hc, Scope.Avoids.iff_nodes.2 hb, fun e he => by cases he⟩
  | some e =>
    obtain ⟨hfirst, he⟩ := List.forall_mem_append.1 (h.parts (by rw [Stmt.nodes]))
    obtain ⟨hc, hb⟩ := List.forall_mem_append.1 hfirst
    refine ⟨hc, Scope.Avoids.iff_nodes.2 hb, fun e' he' => ?_⟩
    cases he'
    exact Scope.Avoids.iff_nodes.2 he

/-- The condition and the body of a loop. -/
theorem of_whileLoop {c : Cond} {b : Scope} (h : (Stmt.whileLoop c b).Avoids B) :
    c.Avoids B ∧ b.Avoids B := by
  obtain ⟨hc, hb⟩ := List.forall_mem_append.1 (h.parts (by rw [Stmt.nodes]))
  exact ⟨hc, Scope.Avoids.iff_nodes.2 hb⟩

/-- The condition and the body of a loop that tests last. -/
theorem of_doWhile {c : Cond} {b : Scope} (h : (Stmt.doWhile c b).Avoids B) :
    c.Avoids B ∧ b.Avoids B := by
  obtain ⟨hb, hc⟩ := List.forall_mem_append.1 (h.parts (by rw [Stmt.nodes]))
  exact ⟨hc, Scope.Avoids.iff_nodes.2 hb⟩

/-- The parts of a loop with a counter. -/
theorem of_forLoop {init update : Stmt} {c : Cond} {b : Scope}
    (h : (Stmt.forLoop (some init) c (some update) b).Avoids B) :
    init.Avoids B ∧ c.Avoids B ∧ update.Avoids B ∧ b.Avoids B := by
  obtain ⟨hrest, hb⟩ := List.forall_mem_append.1 (h.parts (by rw [Stmt.nodes]))
  obtain ⟨hrest, hupdate⟩ := List.forall_mem_append.1 hrest
  obtain ⟨hinit, hc⟩ := List.forall_mem_append.1 hrest
  exact ⟨hinit, hc, hupdate, Scope.Avoids.iff_nodes.2 hb⟩

/-- The key and the arms of a switch. -/
theorem of_switch {key : Expr} {arms : List SwitchArm} (h : (Stmt.switch key arms).Avoids B) :
    key.Avoids B ∧ ∀ a ∈ arms, a.body.Avoids B := by
  obtain ⟨hkey, harms⟩ := List.forall_mem_append.1 (h.parts (by rw [Stmt.nodes]))
  refine ⟨hkey, ?_⟩
  clear h hkey
  induction arms with
  | nil => exact fun a ha => absurd ha List.not_mem_nil
  | cons a arms ih =>
    obtain ⟨ks, d, body, x⟩ := a
    obtain ⟨hbody, harms⟩ := List.forall_mem_append.1 harms
    exact List.forall_mem_cons.2 ⟨Scope.Avoids.iff_nodes.2 hbody, ih harms⟩

end Stmt.Avoids

/-- A jump that has been taken away at the end is all that is missing. -/
theorem Scope.Avoids.of_trimmed {s s' : Scope} {t : Stmt} (h : s'.Avoids B) (ht : t.Avoids B)
    (htrim : Trimmed t s.stmts s'.stmts) : s.Avoids B := by
  generalize hss : s.stmts = ss at htrim
  generalize hts : s'.stmts = ts at htrim
  unfold Scope.Avoids at h ⊢
  rw [hts] at h
  rw [hss]
  cases htrim with
  | last => exact List.forall_mem_append.2 ⟨h, by simpa using ht⟩
  | same => exact h

/-- Only the statements of a scope count. -/
theorem Scope.Avoids.of_eq {s s' : Scope} (h : s'.Avoids B) (hstmts : s'.stmts = s.stmts) :
    s.Avoids B := fun t ht => h t (hstmts ▸ ht)

/-- What a scope avoids with more statements behind it, it avoids without them, and they do. -/
theorem Scope.Avoids.of_appendAll {s s' : Scope} {ts : List Stmt} (h : s'.Avoids B)
    (hstmts : s'.stmts = s.stmts ++ ts) : s.Avoids B ∧ ∀ t ∈ ts, t.Avoids B :=
  List.forall_mem_append.1 fun t ht => h t (hstmts ▸ ht)

/-- The same for a statement that is added to the scope of a simulation. -/
theorem Simulation.Avoids.of_added {s s' : Scope} {st : Operands} {t : Stmt}
    (h : Simulation.Avoids B ⟨s', st⟩) (happend : s.append t = .ok s') :
    Simulation.Avoids B ⟨s, st⟩ ∧ t.Avoids B := by
  obtain ⟨hs, ht⟩ := h.scope.of_appendAll (Scope.stmts_of_append happend)
  exact ⟨⟨h.stack, hs⟩, ht t (List.mem_singleton_self t)⟩

/-- The same for a statement made of the entry on top of the stack. -/
theorem Simulation.Avoids.of_popped {s' : Scope} {st : Operands} {e : Expr} {t : Stmt}
    {m : Simulation} (h : Simulation.Avoids B ⟨s', st⟩) (hpop : m.stack.pop = .ok (e, st))
    (happend : m.scope.append t = .ok s') (he : t.Avoids B → e.Avoids B) : m.Avoids B := by
  obtain ⟨hsilent, ht⟩ := h.of_added happend
  refine ⟨?_, hsilent.scope⟩
  rw [pop_ok hpop]
  exact hsilent.stack.push (he ht)

/-- A statement without parts names no method. -/
theorem Stmt.uncalled {f : MethodRef} {s : Stmt} (hnodes : s.nodes = [.stmt s]) :
    s.Avoids (Node.Calls f) :=
  Stmt.avoids_of_nodes hnodes (Node.not_calls rfl) fun _ hn => absurd hn List.not_mem_nil

/-- The nodes of what a branch collapses into. -/
def Collapsed.nodes : Collapsed → List Node
  | .value _ e _ => e.nodes
  | .stmt _ s _ => s.nodes

/-- An empty stack holds no unfinished values. -/
theorem Operands.allComplete_nil : Operands.AllComplete [] := fun _ ho => absurd ho List.not_mem_nil

/-- Below the top of a stack without unfinished values there are none. -/
theorem Operands.AllComplete.of_pop {st st' : Operands} {e : Expr} (h : st.AllComplete)
    (hpop : st.pop = .ok (e, st')) : st'.AllComplete :=
  fun o ho => h o (Simulation.pop_ok hpop ▸ List.mem_cons_of_mem _ ho)

/-! ### Pieces of code -/

/-- The block holds a static call of the method. -/
def Context.CallsAt (c : Context) (f : MethodRef) (b : Nat) : Prop :=
  ∃ k, c.graph.block? b = some k ∧ .invoke .static f ∈ k.insns

/-- Code comes about while the written blocks grow from `W` to `W'`. If it is silent in the end
    (`A'`), then what there was before is silent (`A`), and block `b` has not been written on the
    way. -/
structure Kept (b : Nat) (A : Prop) (W : List Nat) (A' : Prop) (W' : List Nat) : Prop where
  written : W ⊆ W'
  before : A' → A
  fresh : A' → b ∈ W' → b ∈ W

namespace Kept

variable {b n : Nat} {A A₁ A' : Prop} {W W₁ W' ns : List Nat}

/-- Nothing has been written. -/
theorem refl (A : Prop) (W : List Nat) : Kept b A W A W := ⟨List.Subset.refl _, id, fun _ => id⟩

/-- One piece of code behind another one. -/
theorem trans (h : Kept b A W A₁ W₁) (h' : Kept b A₁ W₁ A' W') : Kept b A W A' W' :=
  ⟨List.Subset.trans h.written h'.written, fun ha => h.before (h'.before ha),
    fun ha hb => h.fresh (h'.before ha) (h'.fresh ha hb)⟩

/-- A piece of code in a scope of its own. -/
theorem beside (h : Kept b A W A₁ W₁) (h' : Kept b True W₁ A' W') : Kept b A W (A₁ ∧ A') W' :=
  ⟨List.Subset.trans h.written h'.written, fun ha => h.before ha.1,
    fun ha hb => h.fresh ha.1 (h'.fresh ha.2 hb)⟩

/-- More is silent in the end. -/
theorem imp (h : Kept b A W A₁ W') (ha : A' → A₁) : Kept b A W A' W' :=
  ⟨h.written, fun h' => h.before (ha h'), fun h' => h.fresh (ha h')⟩

/-- Less was silent before. -/
theorem of_imp (h : Kept b A₁ W A' W') (ha : A₁ → A) : Kept b A W A' W' :=
  ⟨h.written, fun h' => ha (h.before h'), h.fresh⟩

/-- More blocks are written. -/
theorem markAll (h : A' → A ∧ (b ∈ ns → b ∈ W)) : Kept b A W A' (ns ++ W) :=
  ⟨List.subset_append_right _ _, fun ha => (h ha).1,
    fun ha hb => (List.mem_append.1 hb).elim (h ha).2 id⟩

/-- One more block is written. -/
theorem mark (h : A' → A ∧ n ≠ b) : Kept b A W A' (n :: W) := by
  have hone : Kept b A W A' ([n] ++ W) := .markAll fun ha =>
    ⟨(h ha).1, fun hb => absurd (List.mem_singleton.1 hb).symm (h ha).2⟩
  exact hone

end Kept

/-- A piece of code with the block that control goes on to. -/
structure KeptOnward (f : MethodRef) (b : Nat) (A : Prop) (W : List Nat) (r : Onward)
    (W' : List Nat) : Prop where
  code : Kept b A W (r.2.Avoids (Node.Calls f)) W'
  complete : r.2.stack.AllComplete

/-- A piece of code in front of another one. -/
theorem Kept.onward {f : MethodRef} {b : Nat} {A A₁ : Prop} {W W₁ W' : List Nat} {r : Onward}
    (h : Kept b A W A₁ W₁) (h' : KeptOnward f b A₁ W₁ r W') : KeptOnward f b A W r W' :=
  ⟨h.trans h'.code, h'.complete⟩

/-- One more statement, and a place to go on at. -/
theorem KeptOnward.added {f : MethodRef} {b : Nat} {A : Prop} {W W' : List Nat} {s s' : Scope}
    {st : Operands} {t : Stmt} {next : Option Nat} (happend : s.append t = .ok s')
    (hst : st.AllComplete)
    (hcode : Kept b A W (Simulation.Avoids (Node.Calls f) ⟨s, st⟩ ∧ t.Avoids (Node.Calls f)) W') :
    KeptOnward f b A W (next, ⟨s', st⟩) W' :=
  ⟨hcode.imp fun h => h.of_added happend, hst⟩

/-! ### Simulated blocks -/

namespace Context

variable {c : Context} {f : MethodRef} {b n : Nat} {m : Simulation} {scope : Scope}

/-- A block that is simulated is not the one with the call, unless the call is named. -/
theorem block_keeps (hb : c.CallsAt f b) {k : Block} {m' : Simulation}
    (hk : c.graph.block? n = some k) (hrun : Simulation.run c.config m k.insns = .ok m')
    (hm : m.stack.AllComplete) :
    m'.stack.AllComplete ∧
      (m'.Avoids (Node.Calls f) → m.Avoids (Node.Calls f) ∧ n ≠ b) := by
  obtain ⟨hcomplete, hkeeps⟩ := Simulation.run_keeps hrun hm
  refine ⟨hcomplete, fun hsilent => ?_⟩
  obtain ⟨hbefore, hnot⟩ := hkeeps hsilent
  refine ⟨hbefore, ?_⟩
  -- a block with the call would have left it in the stack or in the code
  rintro rfl
  obtain ⟨k', hk', hmem⟩ := hb
  cases hk.symm.trans hk'
  exact hnot hmem

/-- A block over a scope of its own. -/
theorem scratch_keeps (hb : c.CallsAt f b) (h : c.scratch? n scope = some m)
    (hm : m.Avoids (Node.Calls f)) : n ≠ b := by
  rintro rfl
  obtain ⟨k, hk, hmem⟩ := hb
  unfold scratch? at h
  rw [hk] at h
  have hrun := Except.eq_ok_of_toOption h
  exact ((Simulation.run_keeps hrun Operands.allComplete_nil).2 hm).2 hmem

/-- A scope without statements avoids everything. -/
theorem avoids_of_isEmpty {s : Scope} (h : s.isEmpty = true) : s.Avoids B := by
  intro t ht
  rw [List.isEmpty_iff.1 h] at ht
  cases ht

/-- The condition of a block that only tests holds all that the block computes. -/
theorem pureTest_keeps (hb : c.CallsAt f b) {t : BranchTest} (h : c.pureTest n scope = some t)
    (ht : t.cond.Avoids (Node.Calls f)) : n ≠ b := by
  obtain ⟨k, _, h⟩ := Option.bind_eq_some_iff.1 h
  split at h
  · obtain ⟨m, hm, h⟩ := Option.bind_eq_some_iff.1 h
    split at h
    · rename_i hpure
      obtain ⟨hempty, hlength⟩ := Bool.and_eq_true_iff.1 hpure
      obtain ⟨⟨cond, st⟩, hcond, h⟩ := Option.bind_eq_some_iff.1 h
      cases h
      have hcond := Except.eq_ok_of_toOption hcond
      -- the branch takes the whole stack
      obtain ⟨es, hes, hstack⟩ := stack_of_branchCondition hcond
      have hnil : st = [] := by
        have hsum := congrArg List.length hstack
        rw [List.length_append, List.length_map, hes, beq_iff_eq.1 hlength] at hsum
        exact List.eq_nil_of_length_eq_zero (by omega)
      exact scratch_keeps hb hm ⟨branchCondition_keeps hcond ht (hnil ▸ Operands.avoids_nil),
        avoids_of_isEmpty hempty⟩
    · cases h
  · cases h

/-- The condition of a folded chain holds that of its first block, and behind that block the chain
    holds no call. -/
theorem fold_keeps (hb : c.CallsAt f b) {eligible : Nat → Bool} {head test : BranchTest}
    {chain : List Nat} (hfold : head.fold c scope eligible n = (test, chain))
    (htest : test.cond.Avoids (Node.Calls f)) :
    head.cond.Avoids (Node.Calls f) ∧ (b ∈ chain → b = n) := by
  -- by induction on the extensions: a joined condition holds both of its parts
  refine BranchTest.fold_induction (motive := fun test chain => test.cond.Avoids (Node.Calls f) →
    head.cond.Avoids (Node.Calls f) ∧ (b ∈ chain → b = n)) hfold
    (fun h => ⟨h, List.mem_singleton.1⟩) ?_ htest
  intro head' longer chain k ih hext hlonger
  obtain ⟨next, taken, _, hnext, _, hj⟩ := BranchTest.extension_inv hext
  have hparts : head'.cond.Avoids (Node.Calls f) ∧ next.cond.Avoids (Node.Calls f) := by
    have hcond := hj.cond
    generalize longer.cond = joined at hcond hlonger
    have hnegated : next.cond.negate.Avoids (Node.Calls f) → next.cond.Avoids (Node.Calls f) :=
      Cond.avoids_of_negate Node.not_calls_cond _
    cases hcond with
    | any => simpa using hlonger.of_any Node.not_calls_cond
    | anyNegated => exact (by simpa using hlonger.of_any Node.not_calls_cond :
        head'.cond.Avoids _ ∧ next.cond.negate.Avoids _).imp_right hnegated
    | all => simpa using hlonger.of_all Node.not_calls_cond
    | allNegated => exact (by simpa using hlonger.of_all Node.not_calls_cond :
        head'.cond.Avoids _ ∧ next.cond.negate.Avoids _).imp_right hnegated
  obtain ⟨hhead, hchain⟩ := ih hparts.1
  refine ⟨hhead, fun hmem => ?_⟩
  rcases List.mem_append.1 hmem with hmem | hmem
  · exact hchain hmem
  · exact absurd (List.mem_singleton.1 hmem).symm (pureTest_keeps hb hnext hparts.2)

/-- The value of an arm holds the calls of its blocks. -/
theorem built_keeps (hb : c.CallsAt f b) {pos : Position} {arm : ValueArm}
    (h : arm.Built c pos scope n) (harm : arm.value.Avoids (Node.Calls f)) : b ∉ arm.blocks := by
  induction h with
  | leaf _ _ _ hm hempty hstack =>
    have hst : Operands.Avoids (Node.Calls f) _ := Operands.avoids_nil.push harm
    have hne := scratch_keeps hb hm ⟨hstack ▸ hst, avoids_of_isEmpty hempty⟩
    simpa using hne.symm
  -- the value holds the test, and the test holds the calls of its chain
  | fork _ hhead hfold _ _ _ iht ihf =>
    obtain ⟨htest, hfall, htaken⟩ := harm.of_choose
    obtain ⟨hcond, hchain⟩ := fold_keeps hb hfold htest
    intro hmem
    simp only [List.mem_append] at hmem
    rcases hmem with (hmem | hmem) | hmem
    · exact iht htaken hmem
    · exact ihf hfall hmem
    · exact pureTest_keeps hb hhead hcond (hchain hmem).symm

/-- An arm that is a block alone holds the calls of that block. -/
theorem shaped_assign_keeps (hb : c.CallsAt f b) {target : Place} {value : Expr} {merge : Nat}
    (h : c.Shaped scope n (.assign target value merge)) (htarget : target.Avoids (Node.Calls f))
    (hvalue : value.Avoids (Node.Calls f)) : n ≠ b := by
  cases h with
  | assign _ _ hm hstmts hstack =>
    have hassign : (Stmt.assign target value).Avoids (Node.Calls f) :=
      Stmt.avoids_of_nodes rfl (Node.not_calls rfl)
        (List.forall_mem_append.2 ⟨Expr.allAvoid_iff.2 htarget, hvalue⟩)
    refine scratch_keeps hb hm ⟨hstack ▸ Operands.avoids_nil, fun s hs => ?_⟩
    rw [hstmts] at hs
    exact List.mem_singleton.1 hs ▸ hassign

/-- The same for a block that returns a value. -/
theorem shaped_ret_keeps (hb : c.CallsAt f b) {value : Expr} (h : c.Shaped scope n (.ret value))
    (hvalue : value.Avoids (Node.Calls f)) : n ≠ b := by
  cases h with
  | ret _ _ hm hstmts hstack =>
    have hst : Operands.Avoids (Node.Calls f) _ := Operands.avoids_nil.push hvalue
    refine scratch_keeps hb hm ⟨hstack ▸ hst, fun s hs => ?_⟩
    rw [hstmts] at hs
    cases hs

/-- What a branch collapses into holds its test and the calls of its blocks. -/
theorem CollapsesTo.keeps (hb : c.CallsAt f b) {pos : Position} {test : BranchTest}
    {form : Collapsed} (h : c.CollapsesTo pos scope test form)
    (hform : ∀ x ∈ form.nodes, ¬x.Calls f) :
    test.cond.Avoids (Node.Calls f) ∧ b ∉ form.blocks := by
  cases h with
  | value htaken hfall _ =>
    obtain ⟨htest, hf, ht⟩ := Expr.Avoids.of_choose hform
    exact ⟨htest, fun hmem => (List.mem_append.1 hmem).elim (built_keeps hb htaken ht)
      (built_keeps hb hfall hf)⟩
  | assign _ hsame hfall htaken =>
    have hassign : Stmt.Avoids (Node.Calls f) (.assign _ _) := hform
    obtain ⟨htarget, hvalue⟩ := List.forall_mem_append.1 (hassign.parts (by rw [Stmt.nodes]))
    have htarget := Expr.allAvoid_iff.1 htarget
    obtain ⟨htest, hf, ht⟩ := Expr.Avoids.of_choose hvalue
    refine ⟨htest, fun hmem => ?_⟩
    rcases List.mem_pair.1 hmem with heq | heq
    · exact shaped_assign_keeps hb hfall htarget hf heq.symm
    · exact shaped_assign_keeps hb htaken (Place.uncalled_of_same hsame htarget) ht heq.symm
  | ret _ hfall htaken =>
    have hret : Stmt.Avoids (Node.Calls f) (.ret (some _)) := hform
    obtain ⟨htest, hf, ht⟩ := Expr.Avoids.of_choose hret.of_ret
    refine ⟨htest, fun hmem => ?_⟩
    rcases List.mem_pair.1 hmem with heq | heq
    · exact shaped_ret_keeps hb hfall hf heq.symm
    · exact shaped_ret_keeps hb htaken ht heq.symm

/-- The statement for a loop holds its condition, and what it takes from the scope around. -/
theorem promoteFor_keeps {enabled : Bool} {scope' body : Scope} {cond : Cond} {s : Stmt}
    (h : promoteFor enabled scope cond body = .ok (s, scope')) (hscope' : scope'.Avoids B)
    (hs : s.Avoids B) : scope.Avoids B ∧ cond.Avoids B ∧ body.Avoids B := by
  unfold Scope.Avoids at hscope' ⊢
  cases promoteFor_inv h with
  | counting _ _ _ _ hstmts hbody _ =>
    obtain ⟨hinit, hcond, hupdate, hb⟩ := hs.of_forLoop
    rw [hstmts, hbody]
    exact ⟨List.forall_mem_append.2 ⟨hscope', by simpa using hinit⟩, hcond,
      List.forall_mem_append.2 ⟨hb, by simpa using hupdate⟩⟩
  | plain hbody hscope =>
    obtain ⟨hcond, hb⟩ := hs.of_whileLoop
    exact ⟨hscope ▸ hscope', hcond, hbody ▸ hb⟩

/-- The chain of a loop's test is written together with the condition of the loop, and begins with
    the header. -/
theorem loopTest_keeps (hb : c.CallsAt f b) {l : Loop} {W : List Nat} {t : LoopTest}
    (htest : c.loopTest? l W scope = some t) :
    l.header ∈ t.chain ∧ (t.cond.Avoids (Node.Calls f) → b ∉ t.chain) := by
  obtain ⟨test, head, hhead, hfold, -, -, hcond, -⟩ := loopTest_inv htest
  refine ⟨(BranchTest.fold_chained hfold fun m => mem_successors_of_pureTest hhead).first_mem,
    fun ht hmem => ?_⟩
  have htest : test.cond.Avoids (Node.Calls f) := by
    rcases hcond with heq | heq
    · exact heq ▸ ht
    · exact Cond.avoids_of_negate Node.not_calls_cond _ (heq ▸ ht)
  obtain ⟨hheadCond, hfirst⟩ := fold_keeps hb hfold htest
  exact pureTest_keeps hb hhead hheadCond (hfirst hmem).symm

/-- The condition of a branch, or its opposite. -/
theorem avoids_of_side {isTaken : Bool} {cond : Cond}
    (h : (if isTaken then cond else cond.negate).Avoids (Node.Calls f)) :
    cond.Avoids (Node.Calls f) := by
  cases isTaken with
  | true => exact h
  | false => exact Cond.avoids_of_negate Node.not_calls_cond _ h

/-- The latch of a `do` loop is written together with the condition of the loop, and the header is
    written before it, unless it is the latch. -/
theorem latch_keeps (hb : c.CallsAt f b) {header latch : Nat} {k : Block} {test : Branch}
    {cond : Cond} {before body : Scope} {W : List Nat} (hk : c.graph.block? latch = some k)
    (hrun : Simulation.run c.config (.start before) k.insns = .ok m)
    (hcond : branchCondition test m.stack = .ok (cond, [])) (hlock : m.scope.lock = .ok body)
    (hheader : latch ≠ header → header ∈ W) :
    Kept b (before.Avoids (Node.Calls f)) W
      (cond.Avoids (Node.Calls f) ∧ body.Avoids (Node.Calls f)) ([header, latch] ++ W) := by
  refine .markAll fun ⟨hc, hbody⟩ => ?_
  have hs : m.scope.Avoids (Node.Calls f) := hbody.of_eq (Scope.stmts_of_lock hlock)
  obtain ⟨hbefore, hne⟩ := (block_keeps hb hk hrun Operands.allComplete_nil).2
    ⟨branchCondition_keeps hcond hc Operands.avoids_nil, hs⟩
  -- neither of the two blocks that are marked here is the one with the call
  refine ⟨hbefore.scope, fun hmem => ?_⟩
  rcases List.mem_pair.1 hmem with rfl | rfl
  · exact hheader hne
  · exact absurd rfl hne

end Context

/-! ### The walk -/

/-- A label in front of a block leaves the stack and the written blocks. -/
theorem Labelling.keeps {labels : List Nat} {n : Nat} {m m₁ : Simulation} {p p₁ : Progress}
    (h : Labelling labels n m p m₁ p₁) :
    p₁.written = p.written ∧ m₁.stack = m.stack ∧ (m₁.Avoids B → m.Avoids B) := by
  cases h with
  | none _ => exact ⟨rfl, rfl, id⟩
  | placed _ _ happend => exact ⟨rfl, rfl, fun h => (h.of_added happend).1⟩

/-- A piece of the walk holds what there was before it and the calls of the blocks that it writes,
    and it writes its first block unless control leaves at once. -/
def Piece.Keeps (c : Context) (f : MethodRef) (b : Nat) (p p' : Progress) : Piece → Prop
  | .region frames n stop m m' => m.stack.AllComplete → m'.stack.AllComplete ∧
    Kept b (m.Avoids (Node.Calls f)) p.written (m'.Avoids (Node.Calls f)) p'.written ∧
      (c.jump ⟨frames, p.written, stop⟩ n = .enter → n ∈ p'.written)
  | .onward _ _ r m' => r.2.stack.AllComplete → m'.stack.AllComplete ∧
    Kept b (r.2.Avoids (Node.Calls f)) p.written (m'.Avoids (Node.Calls f)) p'.written
  | .entered frames n _ m r => n ∉ p.written → frames.isOuterTarget n = false →
    m.stack.AllComplete →
      KeptOnward f b (m.Avoids (Node.Calls f)) p.written r p'.written ∧ n ∈ p'.written
  | .block _ n _ m r => m.stack.AllComplete →
    KeptOnward f b (m.Avoids (Node.Calls f)) p.written r p'.written ∧ n ∈ p'.written
  | .exit _ n _ _ m r => n ∈ p.written → m.stack.AllComplete →
    KeptOnward f b (m.Avoids (Node.Calls f)) p.written r p'.written
  | .branch _ _ _ t _ m r | .plain _ _ _ t m r => m.stack.AllComplete →
    KeptOnward f b (m.Avoids (Node.Calls f) ∧ t.cond.Avoids (Node.Calls f)) p.written r p'.written
  | .inner frames n stop s s' =>
    Kept b (s.Avoids (Node.Calls f)) p.written (s'.Avoids (Node.Calls f)) p'.written ∧
      (c.jump ⟨frames, p.written, stop⟩ n = .enter → n ∈ p'.written)
  | .before frames header latch s s' =>
    Kept b (s.Avoids (Node.Calls f)) p.written (s'.Avoids (Node.Calls f)) p'.written ∧
      (latch ≠ header → c.jump ⟨frames, p.written, some latch⟩ header = .enter →
        header ∈ p'.written)
  | .arm _ _ _ _ s | .switchArm _ _ _ _ _ _ s =>
    Kept b True p.written (s.Avoids (Node.Calls f)) p'.written
  | .arms _ _ _ _ code =>
    Kept b True p.written (∀ a ∈ code, a.body.Avoids (Node.Calls f)) p'.written

namespace Context

variable {c : Context} {f : MethodRef} {b : Nat} {labels : List Nat} {p p' : Progress}

/-- Every piece of the walk holds the calls of the blocks that it writes. By induction on how it
    comes about: what is taken from the stack or from a scope is put into a statement, and the
    blocks of a chain are marked where its condition is made. -/
theorem Derives.keeps (hb : c.CallsAt f b) {piece : Piece} (h : c.Derives labels piece p p') :
    piece.Keeps c f b p p' := by
  induction h with
  | stop hjump =>
    refine fun hm => ⟨hm, .refl _ _, fun h => ?_⟩
    cases hjump.symm.trans h
  | nextRound hjump happend | leave hjump happend | goto hjump _ _ happend =>
    refine fun hm => ⟨hm, (Kept.refl _ _).imp fun h => (h.of_added happend).1, fun h => ?_⟩
    cases hjump.symm.trans h
  -- a block is entered once, so it is not among the written ones before
  | enter hjump hlabel _ _ ihcode ihrest =>
    intro hm
    obtain ⟨_, _, _, hinner, _, hfresh⟩ := jump_eq_enter.1 hjump
    obtain ⟨hwritten, hstack, hsilent⟩ := hlabel.keeps (B := Node.Calls f)
    obtain ⟨hcode, hmem⟩ := ihcode (hwritten ▸ hfresh) hinner (hstack ▸ hm)
    obtain ⟨hcomplete, hrest⟩ := ihrest hcode.complete
    refine ⟨hcomplete, ?_, fun _ => hrest.written hmem⟩
    exact hwritten ▸ (hcode.code.trans hrest).of_imp hsilent
  | done => exact fun hm => ⟨hm, .refl _ _⟩
  | next _ ih => exact fun hm => ⟨(ih hm).1, (ih hm).2.1⟩
  | here _ _ ih => exact fun _ _ hm => ih hm
  | @whileLoop frames n stop l t body before s stmt m p p' hl _ _ _ htest _ hpromote happend ih =>
    intro _ _ hm
    obtain ⟨hfirst, hchain⟩ := loopTest_keeps hb htest
    rw [c.graph.header_of_loopAt hl] at hfirst
    refine ⟨.added happend hm ?_, ih.1.written (List.mem_append_left _ hfirst)⟩
    -- the chain is written together with its condition
    have hmarked : Kept b (m.Avoids (Node.Calls f)) p.written
        (m.Avoids (Node.Calls f) ∧ t.cond.Avoids (Node.Calls f)) (t.chain ++ p.written) :=
      .markAll fun ⟨hsilent, ht⟩ => ⟨hsilent, fun hmem => absurd hmem (hchain ht)⟩
    refine (hmarked.beside (ih.1.of_imp fun _ => trivial)).imp fun ⟨hafter, hs⟩ => ?_
    obtain ⟨hscope, ht, hbody⟩ := promoteFor_keeps hpromote hafter.scope hs
    exact ⟨⟨⟨hafter.stack, hscope⟩, ht⟩, hbody⟩
  | @doLoop frames n stop l latch outside test _ k cond before body s m m₁ p p' hl _ _ _ _ htest _
      hk hrun hcond hlock happend ih =>
    intro hfresh hinner hm
    obtain rfl := c.graph.header_of_loopAt hl
    have hout := Loop.not_mem_body (latchTest_inv htest).2.1
    have hcode := ih.1.trans (latch_keeps hb hk hrun hcond hlock fun hne =>
      ih.2 hne (jump_header hl hne hout hinner hfresh))
    refine ⟨.added happend hm ?_, List.mem_cons_self ..⟩
    refine ((Kept.refl _ _).beside (hcode.of_imp fun _ => trivial)).imp fun ⟨hsilent, hs⟩ => ?_
    obtain ⟨hc, hlocked⟩ := hs.of_doWhile
    exact ⟨hsilent, avoids_of_side hc, hlocked⟩
  -- the block and what follows it are one body; a jump that is taken away at its end is no call
  | endless hl _ _ _ _ _ _ hnone hdrop hlock happend ihblock ihrest =>
    intro _ _ hm
    obtain rfl := c.graph.header_of_loopAt hl
    obtain ⟨hblock, hheader⟩ := ihblock Operands.allComplete_nil
    obtain ⟨-, hrest⟩ := ihrest hblock.complete
    refine ⟨.added happend hm ?_, hrest.written hheader⟩
    refine ((Kept.refl _ _).beside ((hblock.code.trans hrest).of_imp fun _ => trivial)).imp
      fun ⟨hsilent, hs⟩ => ⟨hsilent, hnone ▸ Operands.avoids_nil, ?_⟩
    have hbody := hs.of_whileLoop.2.of_eq (Scope.stmts_of_lock hlock)
    exact hbody.of_trimmed (Stmt.uncalled rfl) (dropContinue_trimmed hdrop)
  | block hk hrun _ ih =>
    intro hm
    obtain ⟨hm₁, hkeeps⟩ := block_keeps hb hk hrun hm
    have hrest := ih (List.mem_cons_self ..) hm₁
    exact ⟨(Kept.mark hkeeps).onward hrest, hrest.code.written (List.mem_cons_self ..)⟩
  | exitGoto => exact fun _ hm => ⟨.refl _ _, hm⟩
  | exitRet happend => exact fun _ hm => .added happend hm ((Kept.refl _ _).imp And.left)
  | exitValue hpop happend =>
    exact fun _ hm => ⟨(Kept.refl _ _).imp fun h => h.of_popped hpop happend Stmt.Avoids.of_ret,
      hm.of_pop hpop⟩
  | exitThrow hpop happend =>
    exact fun _ hm => ⟨(Kept.refl _ _).imp fun h => h.of_popped hpop happend Stmt.Avoids.of_throw,
      hm.of_pop hpop⟩
  -- the chain behind the block holds no call if its condition holds none
  | exitBranch hcond hfold _ ih =>
    intro hn hm
    obtain ⟨es, _, hstack⟩ := stack_of_branchCondition hcond
    have hrest := ih fun o ho => hm o (hstack ▸ List.mem_append_right _ ho)
    refine Kept.onward (.markAll fun ⟨hsilent, htest⟩ => ?_) hrest
    obtain ⟨hhead, hmem⟩ := fold_keeps hb hfold htest
    exact ⟨⟨branchCondition_keeps hcond hhead hsilent.stack, hsilent.scope⟩,
      fun hbc => hmem hbc ▸ hn⟩
  -- the key is all that is on the stack, so nothing is dropped with it
  | exitSwitch hpop _ _ happend ih =>
    intro _ hm
    have hstack := Simulation.pop_ok hpop
    refine .added happend Operands.allComplete_nil
      (((Kept.refl _ _).beside ih).imp fun ⟨hsilent, hs⟩ => ?_)
    obtain ⟨hkey, harms⟩ := hs.of_switch
    refine ⟨⟨?_, hsilent.scope⟩, harms⟩
    rw [hstack]
    exact hsilent.stack.push hkey
  | collapsedValue _ hform =>
    intro hm
    have hcollapses := ternary_inv hform
    refine ⟨.markAll fun hsilent => ?_, List.forall_mem_cons.2 ⟨?_, hm⟩⟩
    · obtain ⟨htest, hblocks⟩ := hcollapses.keeps hb (hsilent.stack _ (List.mem_cons_self ..))
      exact ⟨⟨⟨hsilent.stack.of_cons, hsilent.scope⟩, htest⟩, fun hmem => absurd hmem hblocks⟩
    · -- a conditional value is no array
      cases hcollapses with
      | value _ _ _ => exact fun _ _ _ _ h => nomatch h
  | collapsedStmt _ hform happend =>
    intro hm
    refine .added happend hm (.markAll fun ⟨hsilent, hs⟩ => ?_)
    obtain ⟨htest, hblocks⟩ := (ternary_inv hform).keeps hb hs
    exact ⟨⟨hsilent, htest⟩, fun hmem => absurd hmem hblocks⟩
  | plain _ _ _ ih => exact ih
  | oneArm _ _ _ happend ih =>
    refine fun hm => .added happend hm (((Kept.refl _ _).beside ih).imp fun ⟨hsilent, hs⟩ => ?_)
    obtain ⟨hc, hthen, -⟩ := hs.of_ifElse
    exact ⟨⟨hsilent, avoids_of_side hc⟩, hthen⟩
  | twoArms _ _ _ _ _ _ happend iharm ihelse =>
    refine fun hm => .added happend hm
      ((((Kept.refl _ _).beside iharm).beside ihelse).imp fun ⟨hsilent, hs⟩ => ?_)
    obtain ⟨hc, hthen, hother⟩ := hs.of_ifElse
    exact ⟨⟨⟨hsilent, Cond.avoids_of_negate Node.not_calls_cond _ hc⟩, hthen⟩, hother _ rfl⟩
  | jump _ _ _ happend =>
    exact fun hm => .added happend hm ((Kept.refl _ _).imp fun ⟨hsilent, hs⟩ =>
      ⟨hsilent, hs.of_gotoIf⟩)
  | inner _ hempty ih =>
    -- at the end of a scope of its own nothing is left on the stack
    obtain ⟨-, hcode, henter⟩ := ih Operands.allComplete_nil
    exact ⟨(hcode.imp fun hs => ⟨hempty ▸ Operands.avoids_nil, hs⟩).of_imp Simulation.Avoids.scope,
      henter⟩
  | arm _ hlock ih =>
    exact (ih.1.imp fun hs => hs.of_eq (Scope.stmts_of_lock hlock)).of_imp fun _ => trivial
  | latchOnly hlatch => exact ⟨.refl _ _, fun hne => absurd hlatch hne⟩
  | before _ _ ih => exact ⟨ih.1, fun _ => ih.2⟩
  | armEmpty _ _ | armsNil => exact (Kept.refl _ _).imp fun _ => trivial
  | armCode _ _ hclose hlock ih =>
    refine (ih.1.imp fun hs => ?_).of_imp fun _ => trivial
    exact (hs.of_eq (Scope.stmts_of_lock hlock)).of_trimmed (Stmt.uncalled rfl)
      (closeArm_trimmed hclose)
  | armsCons _ _ iharm ihrest => exact (iharm.beside ihrest).imp List.forall_mem_cons.1

end Context

end Restructure
