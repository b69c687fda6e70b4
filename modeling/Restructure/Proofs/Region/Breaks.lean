import Restructure.Proofs.Region.Labels

namespace Restructure

/-!
# Breaks — where nothing is behind a construct, no jump goes there

* `Stmt.hasOwnBreak` — a statement holds a jump behind the loop or the switch around it.
* `Unbroken` — a sequence of statements without such jumps.
* `Piece.Unbroken` — a piece of the walk without such jumps to a place where nothing is.
* `Context.Derives.unbroken` — and so is all that the walk writes.
-/

mutual

/-- The statement holds a jump behind the construct around it. -/
def Stmt.hasOwnBreak : Stmt → Bool
  | .breakOut => true
  | .ifElse _ b none => b.hasOwnBreak
  | .ifElse _ b (some e) => b.hasOwnBreak || e.hasOwnBreak
  | _ => false

/-- Some statement holds such a jump. -/
def Stmt.anyHasOwnBreak : List Stmt → Bool
  | [] => false
  | s :: ss => s.hasOwnBreak || Stmt.anyHasOwnBreak ss

/-- The scope holds such a jump. -/
def Scope.hasOwnBreak : Scope → Bool
  | ⟨_, _, ss, _⟩ => Stmt.anyHasOwnBreak ss

end

/-- No statement holds a jump behind the construct around it. -/
def Unbroken (ss : List Stmt) : Prop := Stmt.anyHasOwnBreak ss = false

/-- The jumps of a scope are those of its statements. -/
theorem Scope.hasOwnBreak_eq (s : Scope) : s.hasOwnBreak = Stmt.anyHasOwnBreak s.stmts := by
  obtain ⟨_, _, _, _⟩ := s
  rfl

namespace Unbroken

variable {ss ts : List Stmt} {s : Stmt}

/-- Nothing holds no jumps. -/
theorem nil : Unbroken [] := rfl

/-- Statements hold the jumps of both of their parts. -/
theorem append_iff : Unbroken (ss ++ ts) ↔ Unbroken ss ∧ Unbroken ts := by
  induction ss with
  | nil => simp [Unbroken, Stmt.anyHasOwnBreak]
  | cons t ss ih =>
    simp only [Unbroken, List.cons_append, Stmt.anyHasOwnBreak, Bool.or_eq_false_iff] at ih ⊢
    rw [ih, and_assoc]

/-- One more statement. -/
theorem concat (h : Unbroken ss) (hs : s.hasOwnBreak = false) : Unbroken (ss ++ [s]) := by
  refine append_iff.2 ⟨h, ?_⟩
  simp [Unbroken, Stmt.anyHasOwnBreak, hs]

/-- The jump itself is not among the statements. -/
theorem not_mem (h : Unbroken ss) : .breakOut ∉ ss := by
  intro hmem
  obtain ⟨us, vs, rfl⟩ := List.append_of_mem hmem
  have hvs := (append_iff.1 h).2
  simp [Unbroken, Stmt.anyHasOwnBreak, Stmt.hasOwnBreak] at hvs

/-- The end may be taken away. -/
theorem of_trimmed (h : Unbroken ss) (htrim : Trimmed s ss ts) : Unbroken ts := by
  cases htrim with
  | last => exact (append_iff.1 h).1
  | same => exact h

/-- One more statement of a scope. -/
theorem of_append {scope scope' : Scope} (happend : scope.append s = .ok scope')
    (h : Unbroken scope.stmts) (hs : s.hasOwnBreak = false) : Unbroken scope'.stmts := by
  rw [Scope.stmts_of_append happend]
  exact h.concat hs

/-- Statements that control goes on behind are no jumps. -/
theorem of_rewritten (h : Unbroken ss) (hts : Rewritten Node.Terminal ss ts) : Unbroken ts := by
  induction hts with
  | refl => exact h
  | @add ts s _ hs hB ih =>
    have hgoes := Stmt.isTerminal_of_avoids hB
    refine ih.concat ?_
    cases s with
    | breakOut => cases hgoes
    | ifElse _ _ _ => cases hs
    | _ => rfl
  | drop _ ih => exact (append_iff.1 ih).1

end Unbroken

/-! ### The walk -/

/-- Within a construct with nothing behind it a piece holds no jumps there. A loop and a switch hold
    none whatever is in them, since jumps inside go behind these. -/
def Piece.Unbroken : Piece → Prop
  | .region frames _ _ m m' | .onward frames _ (_, m) m' | .entered frames _ _ m (_, m')
  | .block frames _ _ m (_, m') | .exit frames _ _ _ m (_, m') | .branch frames _ _ _ _ m (_, m')
  | .plain frames _ _ _ m (_, m') => frames.follow? = none →
    Restructure.Unbroken m.scope.stmts → Restructure.Unbroken m'.scope.stmts
  | .inner frames _ _ s s' => frames.follow? = none →
    Restructure.Unbroken s.stmts → Restructure.Unbroken s'.stmts
  | .arm frames _ _ _ b => frames.follow? = none → b.hasOwnBreak = false
  | .before .. | .switchArm .. | .arms .. => True

namespace Context

variable {c : Context}

/-- What a branch collapses into is no jump. -/
theorem CollapsesTo.hasOwnBreak {pos : Position} {scope : Scope} {test : BranchTest}
    {blocks : List Nat} {s : Stmt} {merge : Option Nat}
    (h : c.CollapsesTo pos scope test (.stmt blocks s merge)) : s.hasOwnBreak = false := by
  cases h with
  | assign => rfl
  | ret => rfl

/-- Nor is a loop, and what is left of the scope before it holds none. -/
theorem promoteFor_unbroken {enabled : Bool} {scope scope' body : Scope} {cond : Cond} {s : Stmt}
    (h : promoteFor enabled scope cond body = .ok (s, scope')) (hs : Unbroken scope.stmts) :
    Unbroken scope'.stmts ∧ s.hasOwnBreak = false := by
  cases promoteFor_inv h with
  | counting _ _ _ _ hstmts _ _ =>
    rw [hstmts] at hs
    exact ⟨(Unbroken.append_iff.1 hs).1, rfl⟩
  | plain _ hscope => exact ⟨hscope ▸ hs, rfl⟩

/-- No piece holds jumps to a place where nothing is. By induction on how it comes about: only
    where control leaves a construct a jump is written, and then there is something behind it. -/
theorem Derives.unbroken {labels : List Nat} {piece : Piece} {p p' : Progress}
    (h : c.Derives labels piece p p') : piece.Unbroken := by
  induction h with
  | stop _ | done | exitGoto | collapsedValue _ _ => exact fun _ hm => hm
  | nextRound _ happend | goto _ _ _ happend | exitRet happend | exitValue _ happend
  | exitThrow _ happend | doLoop _ _ _ _ _ _ _ _ _ _ _ _ happend
  | endless _ _ _ _ _ _ _ _ _ _ happend | exitSwitch _ _ _ happend | jump _ _ _ happend =>
    exact fun _ hm => .of_append happend hm rfl
  -- a jump out of a construct needs a block behind one, and here is none
  | leave hjump _ => exact fun hf => nomatch hf.symm.trans ((c.jump_inv _ _).2.2 hjump)
  | enter _ hlabel _ _ ihcode ihrest =>
    refine fun hf hm => ihrest hf (ihcode hf ?_)
    cases hlabel with
    | placed _ _ happend => exact .of_append happend hm rfl
    | none _ => exact hm
  | next _ ih | here _ _ ih | exitBranch _ _ _ ih | plain _ _ _ ih | inner _ _ ih => exact ih
  | whileLoop _ _ _ _ _ _ hpromote happend _ =>
    intro _ hm
    obtain ⟨hscope, hstmt⟩ := promoteFor_unbroken hpromote hm
    exact .of_append happend hscope hstmt
  | block _ hrun _ ih => exact fun hf hm => ih hf (hm.of_rewritten (Simulation.run_straight hrun))
  | collapsedStmt _ hform happend =>
    exact fun _ hm => .of_append happend hm (ternary_inv hform).hasOwnBreak
  | oneArm _ _ _ happend ih => exact fun hf hm => .of_append happend hm (ih hf)
  | twoArms _ _ _ _ _ _ happend iharm ihelse =>
    refine fun hf hm => .of_append happend hm ?_
    rw [Stmt.hasOwnBreak, iharm hf, ihelse hf, Bool.false_or]
  | arm _ hlock ih =>
    -- an arm starts with an empty scope
    intro hf
    rw [Scope.hasOwnBreak_eq, Scope.stmts_of_lock hlock]
    exact ih hf .nil
  | latchOnly _ | before _ _ _ | armEmpty _ _ | armCode _ _ _ _ _ | armsNil | armsCons _ _ _ _ =>
    exact trivial

end Context

end Restructure
