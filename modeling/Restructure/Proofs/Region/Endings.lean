import Restructure.Proofs.Region.Begun
import Restructure.Proofs.Region.Breaks

namespace Restructure

/-!
# Endings — a region with nothing behind it is never left at its end

Where no loop or switch around offers a place to go on at, the code of a region ends in a statement
that control does not come out of. For this no block whose code may be written has a plain return.

* `Stmt.closes` — control never goes on behind a statement.
* `FlowGraph.Attained` — the blocks whose code may be written: those that are reached, and what lies
  behind a loop even if only its unreachable blocks lead there.
* `Context.Goes` — what is known of a part of a region.
* `Piece.Ends` — where nothing is behind, a piece of the walk leads on or ends.
* `Context.Derives.ends` — and so the code of regions ends.
-/

/-! ### Statements that control does not come out of -/

mutual

/-- Control never goes on behind the statement: it leaves the method, or it stays in a loop without
    a test and without jumps behind it. A conditional needs two such branches; a switch needs a
    default, no jumps behind it, and such a last arm. -/
def Stmt.closes : Stmt → Bool
  | .ret _ | .throw _ => true
  | .whileLoop (.test (.const (.boolean true)) false) b => !b.hasOwnBreak
  | .ifElse _ b (some e) => b.closes && e.closes
  | .switch _ arms =>
    arms.any (·.isDefault) && arms.all (fun a => !a.breaks && !a.body.hasOwnBreak)
      && SwitchArm.lastCloses arms
  | _ => false

/-- Some statement is one that control does not come out of. -/
def Stmt.anyCloses : List Stmt → Bool
  | [] => false
  | s :: ss => s.closes || Stmt.anyCloses ss

/-- Control does not come to the end of the scope. -/
def Scope.closes : Scope → Bool
  | ⟨_, _, ss, _⟩ => Stmt.anyCloses ss

/-- Control does not come to the end of the last arm. -/
def SwitchArm.lastCloses : List SwitchArm → Bool
  | [] => false
  | ⟨_, _, b, _⟩ :: arms => if arms.isEmpty then b.closes else SwitchArm.lastCloses arms

end

/-- Control stays in statements if it stays in one of them. -/
theorem Stmt.anyCloses_iff {ss : List Stmt} :
    Stmt.anyCloses ss = true ↔ ∃ s ∈ ss, s.closes = true := by
  induction ss with
  | nil => simp [Stmt.anyCloses]
  | cons s ss ih => simp [Stmt.anyCloses, ih]

/-- The end of a scope is that of its statements. -/
theorem Scope.closes_iff {s : Scope} : s.closes = true ↔ ∃ t ∈ s.stmts, t.closes = true := by
  obtain ⟨_, _, _, _⟩ := s
  exact Stmt.anyCloses_iff

/-- Control does not come to the end of the statements, and that not for a plain return alone. -/
def Ended (ss : List Stmt) : Prop := ∃ s ∈ ss, s.closes = true ∧ s ≠ .ret none

namespace Ended

variable {ss ts : List Stmt} {s : Stmt}

/-- The last statement is one that control does not come out of. -/
theorem concat (hs : s.closes = true) (hne : s ≠ .ret none) : Ended (ss ++ [s]) :=
  ⟨s, List.mem_append_right _ (List.mem_singleton_self s), hs, hne⟩

/-- Control does not come to the end of a scope with these statements. -/
theorem closes {scope : Scope} (h : Ended scope.stmts) : scope.closes = true := by
  obtain ⟨s, hs, hcloses, _⟩ := h
  exact Scope.closes_iff.2 ⟨s, hs, hcloses⟩

/-- A plain return at the end may be dropped. -/
theorem of_trimmed (h : Ended ss) (htrim : Trimmed (.ret none) ss ts) : Ended ts := by
  -- what is dropped is a plain return, and the code ends for another statement
  cases htrim with
  | same => exact h
  | last =>
    obtain ⟨s, hs, hcloses, hne⟩ := h
    rcases List.mem_append.1 hs with hs | hs
    · exact ⟨s, hs, hcloses, hne⟩
    · exact absurd (List.mem_singleton.1 hs) hne

/-- The statement is added to a scope. -/
theorem of_append {scope scope' : Scope} (happend : scope.append s = .ok scope')
    (hs : s.closes = true) (hne : s ≠ .ret none) : Ended scope'.stmts := by
  rw [Scope.stmts_of_append happend]
  exact .concat hs hne

end Ended

/-! ### Blocks whose code may be written -/

namespace FlowGraph

variable {g : FlowGraph} {n m h : Nat} {l : Loop}

/-- Control comes to the block if it can also start in the unreachable blocks of a loop, to leave
    it. -/
inductive Attained (g : FlowGraph) : Nat → Prop
  | reached {n : Nat} (h : g.isReachable n = true) : Attained g n
  | step {n m : Nat} (h : Attained g n) (hm : m ∈ g.successors n) : Attained g m
  | left {n m : Nat} {l : Loop} (h : Attained g n) (hl : g.loopAt? n = some l)
      (hm : m ∈ l.exitTargets) : Attained g m

/-- Control goes on along a path. -/
theorem Attained.of_reachable (hn : g.Attained n) (h : g.graph.links.Reachable n m) :
    g.Attained m := by
  obtain ⟨ns, hp⟩ := h
  induction hp with
  | single _ => exact hn
  | cons hm _ ih => exact ih (hn.step hm)

/-- Control comes to the block where all paths meet. -/
theorem Attained.of_postDominator (hn : g.Attained n) (hm : g.postDominator? n = some m) :
    g.Attained m := hn.of_reachable (g.reachable_of_postDominator hm)

/-- If no unreachable block belongs to a loop, these are the reachable blocks. -/
theorem attained_iff_isReachable
    (hloops : ∀ h l, g.loopAt? h = some l → ∀ k ∈ l.body, g.isReachable k = true) :
    g.Attained n ↔ g.isReachable n = true := by
  refine ⟨fun hn => ?_, .reached⟩
  induction hn with
  | reached h => exact h
  | step _ hm ih => exact g.isReachable_of_successor ih hm
  -- a loop is left from one of its own blocks
  | left _ hl hm _ =>
    obtain ⟨k, hk, hm, _⟩ := Context.exists_of_exitTarget (c := ⟨{}, g⟩) hl hm
    exact g.isReachable_of_successor (hloops _ _ hl k hk) hm

end FlowGraph

/-! ### The walk -/

/-- Nothing around the place offers a place to go on at. -/
def Frames.Final (frames : Frames) : Prop := frames.nextRound? = none ∧ frames.follow? = none

/-- Inside a switch with nothing behind it. -/
theorem Frames.Final.switch {frames : Frames} (h : frames.Final) :
    Frames.Final (.switch none :: frames) := ⟨h.1, rfl⟩

/-- The code of a part of a region goes on with an attained block, or it ends. -/
def Context.Goes (c : Context) (r : Onward) (p : Progress) : Prop :=
  match r.1 with
  | some next => c.graph.Attained next
  | none => p.targets = [] → Ended r.2.scope.stmts

/-- The arms of a switch with nothing behind it: none breaks, and the last one ends. -/
structure ArmsEnd (es : List ArmEntry) (arms : List SwitchArm) (p : Progress) : Prop where
  isDefault : arms.any (·.isDefault) = es.any (·.isDefault)
  unbroken : arms.all (fun a => !a.breaks && !a.body.hasOwnBreak) = true
  last : es ≠ [] → p.targets = [] → SwitchArm.lastCloses arms = true

/-- One more arm in front of the others. It ends itself if there are none. -/
theorem ArmsEnd.cons {e : ArmEntry} {es : List ArmEntry} {b : Scope} {arms : List SwitchArm}
    {p' : Progress} (h : ArmsEnd es arms p') (hown : b.hasOwnBreak = false)
    (hlast : es = [] → arms = [] ∧ (p'.targets = [] → Ended b.stmts)) :
    ArmsEnd (e :: es) (⟨e.keys, e.isDefault, b, false⟩ :: arms) p' := by
  refine ⟨?_, ?_, fun _ ht => ?_⟩
  · rw [List.any_cons, List.any_cons, h.isDefault]
  · rw [List.all_cons, h.unbroken, hown]
    rfl
  · cases es with
    | nil =>
      obtain ⟨rfl, hended⟩ := hlast rfl
      exact (hended ht).closes
    | cons e' es =>
      have hrest := h.last (by simp) ht
      cases arms with
      | nil => cases hrest
      | cons arm arms => simpa [SwitchArm.lastCloses] using hrest

/-- Where nothing is behind, the code of a region without an end ends, if it has no jumps to labels,
    and a part of it goes on or ends. The arms of conditionals and the bodies of loops need not
    end. -/
def Piece.Ends (c : Context) (p p' : Progress) : Piece → Prop
  | .region frames n stop _ m' => frames.Final → stop = none → c.graph.Attained n →
    p'.targets = [] → Ended m'.scope.stmts
  | .inner frames n stop _ s' => frames.Final → stop = none → c.graph.Attained n →
    p'.targets = [] → Ended s'.stmts
  | .onward frames stop r m' => frames.Final → stop = none → c.Goes r p →
    p'.targets = [] → Ended m'.scope.stmts
  | .entered frames n _ _ r | .block frames n _ _ r =>
    frames.Final → c.graph.Attained n → c.Goes r p'
  | .exit frames n _ t _ r => frames.Final → c.graph.Attained n →
    (∀ m, m ∈ c.graph.successors n ↔ m ∈ t.successors) → t ≠ .ret → c.Goes r p'
  | .branch _ n _ t _ _ r | .plain _ n _ t _ r => c.graph.Attained n → c.graph.Attained t.taken →
    c.graph.Attained t.fallthrough → c.Goes r p'
  | .switchArm frames follow next _ n breaks b => frames.Final → follow = none →
    c.graph.Attained n → breaks = false ∧ b.hasOwnBreak = false ∧
      (next = none → p'.targets = [] → Ended b.stmts)
  | .arms frames follow _ es code => frames.Final → follow = none →
    (∀ e ∈ es, c.graph.Attained e.start) → ArmsEnd es code p'
  | .arm .. | .before .. => True

namespace Context

variable {c : Context} {labels : List Nat} {p p' : Progress} {n : Nat}

/-- The targets of a chain's test are attained with the chain's first block. -/
theorem attained_of_chained {scope : Scope} {eligible : Nat → Bool} {t : BranchTest}
    {chain : List Nat} (h : Chained c scope eligible n t chain) (hn : c.graph.Attained n) {k : Nat}
    (hk : k = t.taken ∨ k = t.fallthrough) : c.graph.Attained k := by
  obtain ⟨j, hj, hleads⟩ := h.left k hk
  exact (h.spread c.graph.Attained hn (fun _ _ h _ => h.step) j hj).step hleads

/-- The block behind a loop that tests first is attained. -/
theorem attained_of_loopTest {l : Loop} {written : List Nat} {scope : Scope} {t : LoopTest}
    (htest : c.loopTest? l written scope = some t) (hn : c.graph.Attained l.header) :
    c.graph.Attained t.outside := by
  obtain ⟨test, head, hhead, hfold, -, -, -, htargets⟩ := loopTest_inv htest
  have hchain := BranchTest.fold_chained hfold fun m => mem_successors_of_pureTest hhead
  exact attained_of_chained hchain hn ((htargets _).2 (.inr rfl))

/-- The block behind a loop that tests last is attained: its latch is reached. -/
theorem attained_of_latchTest {l : Loop} {latch outside : Nat} {test : Branch} {onTaken : Bool}
    (hl : c.graph.loopAt? n = some l)
    (htest : c.latchTest? l = some (latch, test, outside, onTaken)) :
    c.graph.Attained outside := by
  obtain ⟨hlatches, -, b, taken, fallthrough, hb, hexit, hchosen⟩ := latchTest_inv htest
  have hlatch := (mem_body_of_latch hl (hlatches ▸ List.mem_singleton_self latch)).2
  exact (FlowGraph.Attained.reached (c.graph.isReachable_iff.2 hlatch)).step
    ((mem_successors_of_chosen hb hexit hchosen outside).2 (.inr rfl))

/-- Where a branch collapses and control goes on behind it, that block is attained, and else the
    code ends with a return of a value. -/
theorem CollapsesTo.goes {pos : Position} {scope s : Scope} {t : BranchTest} {blocks : List Nat}
    {stmt : Stmt} {merge : Option Nat} {st : Operands}
    (h : c.CollapsesTo pos scope t (.stmt blocks stmt merge)) (happend : scope.append stmt = .ok s)
    (htaken : c.graph.Attained t.taken) (hfall : c.graph.Attained t.fallthrough) :
    c.Goes (merge, ⟨s, st⟩) p := by
  obtain ⟨-, hbehind⟩ := h.spread (fun k hk => hk.elim (· ▸ htaken) (· ▸ hfall))
    fun _ _ h _ => h.step
  cases h with
  | assign => exact hbehind _ rfl
  | ret => exact fun _ => .of_append happend rfl nofun

/-- An arm of a switch with nothing behind it does not break, and it ends if it is the last. -/
theorem ends_of_closeArm {next : Option Nat} {s₁ s₂ b : Scope} {breaks : Bool}
    (hclose : closeArm next none s₁ = .ok (breaks, s₂)) (hlock : s₂.lock = .ok b)
    (hs : Unbroken s₁.stmts) (hended : next = none → p'.targets = [] → Ended s₁.stmts) :
    breaks = false ∧ b.hasOwnBreak = false ∧
      (next = none → p'.targets = [] → Ended b.stmts) := by
  unfold closeArm at hclose
  split at hclose
  · rename_i hlast
    exact absurd (List.mem_of_getLast? hlast) hs.not_mem
  · cases hclose
    rw [Scope.hasOwnBreak_eq, Scope.stmts_of_lock hlock]
    -- without a jump at its end an arm breaks only to a block behind the switch
    exact ⟨by cases next <;> rfl, hs, hended⟩

/-- The code of every region that nothing is behind ends, if no block that it may hold has a plain
    return. By induction on how it comes about. -/
theorem Derives.ends (hret : ∀ k b, c.graph.Attained k → c.graph.block? k = some b →
    b.exit ≠ .ret) {piece : Piece} (h : c.Derives labels piece p p') : piece.Ends c p p' := by
  induction h with
  -- where nothing is behind, a region can neither end nor leave for a construct around it
  | stop hjump =>
    rintro - hstop -
    cases hstop.symm.trans ((c.jump_inv _ _).1 hjump)
  | nextRound hjump _ =>
    rintro ⟨hnext, -⟩ - -
    cases hnext.symm.trans ((c.jump_inv _ _).2.1 hjump)
  | leave hjump _ =>
    rintro ⟨-, hleave⟩ - -
    cases hleave.symm.trans ((c.jump_inv _ _).2.2 hjump)
  -- a jump to a label adds a target, but there are none in the end
  | goto _ _ _ _ =>
    exact fun _ _ _ hnil => absurd hnil (List.ne_nil_of_mem (Loop.mem_insertAscending.2 (.inl rfl)))
  | enter _ _ _ _ ihcode ihrest => exact fun hf hstop hn => ihrest hf hstop (ihcode hf hn)
  | done => exact fun _ _ h => h
  | next _ ih => exact ih
  | here _ _ ih => exact ih
  | whileLoop hl _ _ _ htest _ _ _ _ =>
    rintro - hn
    exact attained_of_loopTest htest (c.graph.header_of_loopAt hl ▸ hn)
  | doLoop _ hl _ _ _ _ htest _ _ _ _ _ _ _ => exact fun _ _ => attained_of_latchTest hl htest
  | @endless frames n stop l dropped body s r m m₁ p p₁ p' hl _ _ _ _ hblock hrest _ hdrop hlock
      happend _ _ =>
    intro _ hn
    cases hfollow : c.loopFollow? l.exitTargets with
    | some f => exact hn.left hl (mem_of_loopFollow hfollow)
    -- nothing is behind the loop or the switch, so no jump in it leads there
    | none =>
      -- a loop that nothing is behind holds no jumps behind it
      rw [hfollow] at hblock hrest
      have hunbroken := hrest.unbroken rfl (hblock.unbroken rfl .nil)
      have hown : body.hasOwnBreak = false := by
        rw [Scope.hasOwnBreak_eq, Scope.stmts_of_lock hlock]
        exact hunbroken.of_trimmed (dropContinue_trimmed hdrop)
      refine fun _ => .of_append happend ?_ (fun h => by cases h)
      rw [Cond.always, Stmt.closes, hown]
      rfl
  | block hb _ _ ih =>
    exact fun hf hn => ih hf hn (fun _ => FlowGraph.mem_successors_of_block hb) (hret _ _ hn hb)
  | exitGoto => exact fun _ hn hsucc _ => hn.step ((hsucc _).2 (List.mem_singleton_self _))
  -- the only exit that is ruled out: all the others return a value, throw, or go on
  | exitRet _ => exact fun _ _ _ hne => absurd rfl hne
  | exitValue _ happend | exitThrow _ happend =>
    exact fun _ _ _ _ _ => .of_append happend rfl (fun h => by cases h)
  | exitBranch _ hfold _ ih =>
    intro _ hn hsucc _
    have hchain := BranchTest.fold_chained hfold fun m =>
      (hsucc m).trans Terminator.mem_successors_branch
    have htaken := attained_of_chained hchain hn (.inl rfl)
    exact ih hn htaken (attained_of_chained hchain hn (.inr rfl))
  | @exitSwitch frames n default stop own cases key arms m s p p' _ hown _ happend ih =>
    intro hf hn hsucc _
    cases hfollow : c.graph.postDominator? n with
    | some f => exact hn.of_postDominator hfollow
    | none =>
      obtain rfl : own = none := by rw [hown, hfollow, Option.filter_none]
      have hstarts : ∀ e ∈ groupCases cases default none, c.graph.Attained e.start := by
        intro e he
        have hstart := mem_groupCases_iff.1 (List.mem_map_of_mem (f := (·.start)) he)
        refine hn.step ((hsucc e.start).2 ?_)
        exact Terminator.mem_successors_switch.2 (hstart.imp_right And.left)
      -- the default has an arm of its own, since it is not the block behind the switch
      obtain ⟨e, he, -, hdefault⟩ : ∃ e ∈ groupCases cases default none, e.start = default ∧
          e.isDefault = true := exists_default_iff.2 ⟨rfl, by simp⟩
      have harms := ih hf.switch rfl hstarts
      have hany : arms.any (·.isDefault) = true := by
        rw [harms.isDefault]
        exact List.any_eq_true.2 ⟨e, he, hdefault⟩
      refine fun ht => .of_append happend ?_ (fun h => by cases h)
      rw [Stmt.closes, hany, harms.unbroken, harms.last (List.ne_nil_of_mem he) ht]
      rfl
  | collapsedValue _ hform =>
    intro _ htaken hfall
    exact ((ternary_inv hform).spread (fun k hk => hk.elim (· ▸ htaken) (· ▸ hfall))
      fun _ _ h _ => h.step).2 _ rfl
  | collapsedStmt _ hform happend => exact fun _ => (ternary_inv hform).goes happend
  | plain _ _ _ ih => exact ih
  -- the arms of a branch need not end: control may go on behind it
  | oneArm _ hside _ _ _ => exact fun _ htaken hfall => (hside.chosen.both htaken hfall).2
  | twoArms hmeet _ _ _ _ _ _ _ _ =>
    exact fun hn _ _ => hn.of_postDominator (postDominator_of_meeting hmeet)
  | jump _ _ _ _ => exact fun _ _ hfall => hfall
  | inner _ _ ih => exact ih
  | arm _ _ _ | latchOnly _ | before _ _ _ => exact trivial
  | armEmpty hfollow _ =>
    rintro - hnone
    cases hnone.symm.trans hfollow
  | armCode _ hinner hclose hlock ih =>
    rintro hf rfl hn
    exact ends_of_closeArm hclose hlock (hinner.unbroken hf.2 .nil) fun hnext => ih hf hnext hn
  | armsNil => exact fun _ _ _ => ⟨rfl, rfl, fun h => absurd rfl h⟩
  -- each arm but the last runs into the next one; the last one has to end
  | armsCons _ hrest iharm ihrest =>
    rintro hf rfl hes
    obtain ⟨rfl, hown, hended⟩ := iharm hf rfl (hes _ (List.mem_cons_self ..))
    refine (ihrest hf rfl fun e he => hes e (List.mem_cons_of_mem _ he)).cons hown ?_
    rintro rfl
    cases hrest
    exact ⟨rfl, hended rfl⟩

end Context

end Restructure
