import Restructure.Proofs.Region.Breaks

namespace Restructure

/-!
# Finishes — how the code of a region ends

The walk follows control from block to block. It ends where the region ends, with a jump of a
construct around, or with a statement behind which nothing is left to write. As long as control goes
on, every statement written so far is one that it goes on behind.

* `Finish`, `Context.Finishes` — how a walk ends, and the runs of the walk that end so.
* `Context.finishes_of_run`, `Context.Finishes.run` — every run ends in one of these ways.
* `Continues` — control goes on behind every statement.
* `Piece.GoesOn`, `Context.Derives.goesOn` — one block, or one loop, before control goes on.
* `Context.Finishes.continues` — a region that ends at its end.
-/

/-- How the code of a region ends: at the block that ends the region, with a jump, or with a
    statement that control does not come out of. -/
inductive Finish where
  | atStop | jump | inside
  deriving DecidableEq

/-- The walk from the block `n` on ends in the given way. -/
inductive Context.Finishes (c : Context) (labels : List Nat) :
    (fuel : Nat) → Frames → (n : Nat) → (stop : Option Nat) → Simulation → Progress → Finish →
      Simulation → Progress → Prop
  | atStop {fuel : Nat} {frames : Frames} {n : Nat} {stop : Option Nat} {m : Simulation}
      {p : Progress} (h : c.jump ⟨frames, p.written, stop⟩ n = .stop) :
      Finishes c labels (fuel + 1) frames n stop m p .atStop m p
  | jump {fuel : Nat} {frames : Frames} {n : Nat} {stop : Option Nat} {m m' : Simulation}
      {p p' : Progress} (hstop : c.jump ⟨frames, p.written, stop⟩ n ≠ .stop)
      (henter : c.jump ⟨frames, p.written, stop⟩ n ≠ .enter)
      (hrun : (c.region labels (fuel + 1) frames n stop m).run p = .ok (m', p')) :
      Finishes c labels (fuel + 1) frames n stop m p .jump m' p'
  | inside {fuel : Nat} {frames : Frames} {n : Nat} {stop : Option Nat} {m m₁ m' : Simulation}
      {p p₁ p' : Progress} (henter : c.jump ⟨frames, p.written, stop⟩ n = .enter)
      (hlabel : (labelled labels n m).run p = .ok (m₁, p₁))
      (hblock : (c.entered (c.region labels fuel) frames n stop m₁).run p₁ = .ok ((none, m'), p')) :
      Finishes c labels (fuel + 1) frames n stop m p .inside m' p'
  | onward {fuel next : Nat} {frames : Frames} {n : Nat} {stop : Option Nat}
      {m m₁ m₂ m' : Simulation} {p p₁ p₂ p' : Progress} {e : Finish}
      (henter : c.jump ⟨frames, p.written, stop⟩ n = .enter)
      (hlabel : (labelled labels n m).run p = .ok (m₁, p₁))
      (hblock : (c.entered (c.region labels fuel) frames n stop m₁).run p₁
        = .ok ((some next, m₂), p₂))
      (hrest : Finishes c labels fuel frames next stop m₂ p₂ e m' p') :
      Finishes c labels (fuel + 1) frames n stop m p e m' p'

/-- One computation behind another one. -/
theorem Pass.run_bind_iff {α β : Type} {x : Pass α} {f : α → Pass β} {p p' : Progress} {b : β} :
    (x >>= f).run p = .ok (b, p') ↔
      ∃ a p₁, x.run p = .ok (a, p₁) ∧ (f a).run p₁ = .ok (b, p') := by
  rw [StateT.run_bind, Except.bind_eq_ok]
  exact ⟨fun ⟨r, hr, h⟩ => ⟨r.1, r.2, hr, h⟩, fun ⟨a, p₁, ha, h⟩ => ⟨(a, p₁), ha, h⟩⟩

namespace Context

variable {c : Context} {labels : List Nat} {fuel : Nat} {frames : Frames} {n : Nat}
  {stop : Option Nat} {m m' : Simulation} {p p' : Progress} {e : Finish}

/-! ### Runs -/

/-- The first step of a region. -/
theorem region_run_eq : (c.region labels (fuel + 1) frames n stop m).run p =
    StateT.run (match c.jump ⟨frames, p.written, stop⟩ n with
      | .stop => pure m
      | .nextRound => Pass.append m .continueLoop
      | .leave => Pass.append m .breakOut
      | .invalid => c.gotoLabel n m
      | .enter => do
        let m ← labelled labels n m
        let onward ← c.entered (c.region labels fuel) frames n stop m
        (c.region labels fuel).goOn frames stop onward) p := rfl

/-- The run of a walk that enters its first block. -/
theorem region_run_of_enter (henter : c.jump ⟨frames, p.written, stop⟩ n = .enter) :
    (c.region labels (fuel + 1) frames n stop m).run p = .ok (m', p') ↔
      ∃ m₁ p₁ r p₂, (labelled labels n m).run p = .ok (m₁, p₁) ∧
        (c.entered (c.region labels fuel) frames n stop m₁).run p₁ = .ok (r, p₂) ∧
          ((c.region labels fuel).goOn frames stop r).run p₂ = .ok (m', p') := by
  rw [region_run_eq, henter]
  simp only [Pass.run_bind_iff]
  constructor
  · rintro ⟨m₁, p₁, hlabel, r, p₂, hblock, hrest⟩
    exact ⟨m₁, p₁, r, p₂, hlabel, hblock, hrest⟩
  · rintro ⟨m₁, p₁, r, p₂, hlabel, hblock, hrest⟩
    exact ⟨m₁, p₁, hlabel, r, p₂, hblock, hrest⟩

/-- Every walk that succeeds ends in one of the ways. -/
theorem finishes_of_run (h : (c.region labels fuel frames n stop m).run p = .ok (m', p')) :
    ∃ e, c.Finishes labels fuel frames n stop m p e m' p' := by
  induction fuel generalizing frames n stop m p with
  | zero => cases h
  | succ fuel ih =>
    cases hjump : c.jump ⟨frames, p.written, stop⟩ n with
    | stop =>
      rw [region_run_eq, hjump] at h
      cases h
      exact ⟨.atStop, .atStop hjump⟩
    | nextRound | leave | invalid => exact ⟨.jump, .jump (by simp [hjump]) (by simp [hjump]) h⟩
    | enter =>
      -- if control goes on, then with less fuel and to the same end
      obtain ⟨m₁, p₁, ⟨next, m₂⟩, p₂, hlabel, hblock, hrest⟩ := (region_run_of_enter hjump).1 h
      cases next with
      | none =>
        cases hrest
        exact ⟨.inside, .inside hjump hlabel hblock⟩
      | some next =>
        obtain ⟨e, he⟩ := ih hrest
        exact ⟨e, .onward hjump hlabel hblock he⟩

/-- And so the ways are those of walks that succeed. -/
theorem Finishes.run (h : c.Finishes labels fuel frames n stop m p e m' p') :
    (c.region labels fuel frames n stop m).run p = .ok (m', p') := by
  induction h with
  | atStop h =>
    rw [region_run_eq, h]
    rfl
  | jump _ _ hrun => exact hrun
  | inside henter hlabel hblock =>
    exact (region_run_of_enter henter).2 ⟨_, _, _, _, hlabel, hblock, rfl⟩
  | onward henter hlabel hblock _ ih =>
    exact (region_run_of_enter henter).2 ⟨_, _, _, _, hlabel, hblock, ih⟩

/-- A walk that ends at the end of its region has one. -/
theorem Finishes.stop_isSome (h : c.Finishes labels fuel frames n stop m p .atStop m' p') :
    stop.isSome = true := by
  generalize he : Finish.atStop = e at h
  induction h with
  | @atStop _ _ n stop _ _ h =>
    have hstop : stop = some n := (c.jump_inv _ n).1 h
    rw [hstop]
    rfl
  | jump | inside => cases he
  | onward _ _ _ _ ih => exact ih he

end Context

/-! ### Statements that control goes on behind -/

/-- Control goes on behind every statement. -/
def Continues (ss : List Stmt) : Prop := ∀ s ∈ ss, s.isTerminal = false

namespace Continues

variable {ss ts : List Stmt} {s : Stmt}

/-- Nothing keeps control. -/
theorem nil : Continues [] := fun _ hs => absurd hs List.not_mem_nil

/-- One more statement. -/
theorem concat (h : Continues ss) (hs : s.isTerminal = false) : Continues (ss ++ [s]) := by
  intro t ht
  rcases List.mem_append.1 ht with ht | ht
  · exact h t ht
  · rw [List.mem_singleton.1 ht]
    exact hs

/-- The statements in front of others. -/
theorem of_append (h : Continues (ss ++ ts)) : Continues ss :=
  fun s hs => h s (List.mem_append_left _ hs)

/-- One more statement of a scope. -/
theorem added {scope scope' : Scope} (happend : scope.append s = .ok scope')
    (h : Continues scope.stmts) (hs : s.isTerminal = false) : Continues scope'.stmts := by
  rw [Scope.stmts_of_append happend]
  exact h.concat hs

/-- Instructions add statements that control goes on behind. -/
theorem of_rewritten (h : Continues ss) (hts : Rewritten Node.Terminal ss ts) : Continues ts := by
  induction hts with
  | refl => exact h
  | add _ _ hB ih => exact ih.concat (Stmt.isTerminal_of_avoids hB)
  | drop _ ih => exact ih.of_append

end Continues

/-- If control goes on behind a piece of code, it does so behind every statement. -/
def Piece.GoesOn : Piece → Prop
  | .entered _ _ _ m r | .block _ _ _ m r | .exit _ _ _ _ m r | .branch _ _ _ _ _ m r
  | .plain _ _ _ _ m r => Continues m.scope.stmts → r.1.isSome = true → Continues r.2.scope.stmts
  | _ => True

namespace Context

variable {c : Context} {labels : List Nat} {fuel : Nat} {frames : Frames} {n : Nat}
  {stop : Option Nat} {m m' : Simulation} {p p' : Progress}

/-- A conditional value is returned, or control goes on behind the assignment of it. -/
theorem CollapsesTo.isTerminal {pos : Position} {scope : Scope} {test : BranchTest}
    {blocks : List Nat} {s : Stmt} {merge : Option Nat}
    (h : c.CollapsesTo pos scope test (.stmt blocks s merge)) (hmerge : merge.isSome = true) :
    s.isTerminal = false := by
  cases h with
  | assign => rfl
  | ret => cases hmerge

/-- A loop takes in at most the statement before it. -/
theorem promoteFor_continues {enabled : Bool} {scope scope' body : Scope} {cond : Cond} {s : Stmt}
    (h : promoteFor enabled scope cond body = .ok (s, scope')) (hs : Continues scope.stmts) :
    Continues scope'.stmts ∧ s.isTerminal = false := by
  cases promoteFor_inv h with
  | counting _ _ _ _ hstmts _ _ =>
    rw [hstmts] at hs
    exact ⟨hs.of_append, rfl⟩
  | plain _ hscope => exact ⟨hscope ▸ hs, rfl⟩

/-- Control goes on behind constructs and assignments, and a piece that leaves with another
    statement says that nothing comes next. -/
theorem Derives.goesOn {piece : Piece} (h : c.Derives labels piece p p') : piece.GoesOn := by
  induction h with
  | here _ _ ih | exitBranch _ _ _ ih | plain _ _ _ ih => exact ih
  | whileLoop _ _ _ _ _ _ hpromote happend _ =>
    intro hm _
    obtain ⟨hscope, hstmt⟩ := promoteFor_continues hpromote hm
    exact .added happend hscope hstmt
  | doLoop _ _ _ _ _ _ _ _ _ _ _ _ happend | endless _ _ _ _ _ _ _ _ _ _ happend
  | exitSwitch _ _ _ happend | oneArm _ _ _ happend | twoArms _ _ _ _ _ _ happend
  | jump _ _ _ happend => exact fun hm _ => .added happend hm rfl
  | block _ hrun _ ih => exact fun hm => ih (hm.of_rewritten (Simulation.run_straight hrun))
  | exitGoto | collapsedValue _ _ => exact fun hm _ => hm
  | exitRet _ | exitValue _ _ | exitThrow _ _ => exact fun _ hnext => nomatch hnext
  | collapsedStmt _ hform happend =>
    exact fun hm hnext => .added happend hm ((ternary_inv hform).isTerminal hnext)
  | _ => exact trivial

/-- One block, or one loop, before control goes on. -/
theorem entered_continues {next : Nat} {m' : Simulation}
    (h : (c.entered (c.region labels fuel) frames n stop m).run p = .ok ((some next, m'), p'))
    (hm : Continues m.scope.stmts) : Continues m'.scope.stmts :=
  (entered_derives (c.region_derives labels fuel) _ _ h).goesOn hm rfl

/-- A label in front of a block. -/
theorem labelled_continues (h : (labelled labels n m).run p = .ok (m', p'))
    (hm : Continues m.scope.stmts) : Continues m'.scope.stmts := by
  cases labelled_labelling _ _ h with
  | placed _ _ happend => exact .added happend hm rfl
  | none _ => exact hm

/-! ### Regions -/

/-- A region that is left at its end holds no statement that control does not go on behind. -/
theorem Finishes.continues (h : c.Finishes labels fuel frames n stop m p .atStop m' p')
    (hm : Continues m.scope.stmts) : Continues m'.scope.stmts := by
  -- on the blocks that are entered in turn; a block that control stays in is another end
  generalize he : Finish.atStop = e at h
  induction h with
  | atStop => exact hm
  | jump | inside => cases he
  | onward _ hlabel hblock _ ih =>
    exact ih (entered_continues hblock (labelled_continues hlabel hm)) he

end Context

end Restructure
