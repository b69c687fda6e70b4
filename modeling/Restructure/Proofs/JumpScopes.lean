import Restructure.Proofs.Region.Framed

namespace Restructure

/-!
# Jump scopes — jumps stand where there is something to leave or to continue

A jump to the next round stands in the body of a loop, and a jump behind a construct in the body of
a loop or in an arm of a switch, however many conditionals, labels and jumps to labels are around.

* `Scope.jumpsFit` — all jumps in a tree stand where they may.
* `Framed.jumpsFit` — they do so in code that is written within constructs.
* `Method.jumpsFit_of_recover` — and so in the code of every method.
-/

mutual

/-- Every jump to the next round is in a loop, and every jump behind a construct is in a construct,
    if the statement itself is in a loop or in a construct as the flags tell. -/
def Stmt.jumpsFit (inLoop inConstruct : Bool) : Stmt → Bool
  | .breakOut => inConstruct
  | .continueLoop => inLoop
  | .ifElse _ b none => b.jumpsFit inLoop inConstruct
  | .ifElse _ b (some e) => b.jumpsFit inLoop inConstruct && e.jumpsFit inLoop inConstruct
  | .whileLoop _ b => b.jumpsFit true true
  | .doWhile _ b => b.jumpsFit true true
  | .forLoop init _ update b =>
    (match init with
      | none => true
      | some s => s.jumpsFit inLoop inConstruct)
    && (match update with
      | none => true
      | some s => s.jumpsFit inLoop inConstruct)
    && b.jumpsFit true true
  | .switch _ arms => SwitchArm.allJumpsFit inLoop arms
  | _ => true

/-- The same of all statements. -/
def Stmt.allJumpsFit (inLoop inConstruct : Bool) : List Stmt → Bool
  | [] => true
  | s :: ss => s.jumpsFit inLoop inConstruct && Stmt.allJumpsFit inLoop inConstruct ss

/-- The same of the statements of a scope. -/
def Scope.jumpsFit (inLoop inConstruct : Bool) : Scope → Bool
  | ⟨_, _, ss, _⟩ => Stmt.allJumpsFit inLoop inConstruct ss

/-- The same of the arms of a switch, which is a construct. -/
def SwitchArm.allJumpsFit (inLoop : Bool) : List SwitchArm → Bool
  | [] => true
  | ⟨_, _, b, _⟩ :: arms => b.jumpsFit inLoop true && SwitchArm.allJumpsFit inLoop arms

end

variable {inLoop inConstruct : Bool}

/-- The jumps of statements fit if those of each of them do. -/
theorem Stmt.allJumpsFit_of_forall {ss : List Stmt}
    (h : ∀ s ∈ ss, s.jumpsFit inLoop inConstruct = true) :
    Stmt.allJumpsFit inLoop inConstruct ss = true := by
  induction ss with
  | nil => rfl
  | cons s ss ih =>
    rw [Stmt.allJumpsFit, h s (List.mem_cons_self ..), Bool.true_and]
    exact ih fun t ht => h t (List.mem_cons_of_mem s ht)

/-- The jumps of a scope fit if those of its statements do. -/
theorem Scope.jumpsFit_of_forall {b : Scope}
    (h : ∀ s ∈ b.stmts, s.jumpsFit inLoop inConstruct = true) :
    b.jumpsFit inLoop inConstruct = true := by
  obtain ⟨_, _, ss, _⟩ := b
  exact Stmt.allJumpsFit_of_forall h

/-- The jumps of the arms fit if those of each arm do, as they may break. -/
theorem SwitchArm.allJumpsFit_of_forall {arms : List SwitchArm}
    (h : ∀ a ∈ arms, a.body.jumpsFit inLoop true = true) :
    SwitchArm.allJumpsFit inLoop arms = true := by
  induction arms with
  | nil => rfl
  | cons a arms ih =>
    obtain ⟨_, _, b, _⟩ := a
    rw [SwitchArm.allJumpsFit, h _ (List.mem_cons_self ..), Bool.true_and]
    exact ih fun a ha => h a (List.mem_cons_of_mem _ ha)

/-- Plain statements are no jumps and hold none. -/
theorem Stmt.jumpsFit_of_isPlain {s : Stmt} (h : s.isPlain = true) :
    s.jumpsFit inLoop inConstruct = true := by
  cases s <;> first | rfl | cases h

/-! ### Code within constructs -/

/-- Within a loop there is a next round. -/
theorem Frames.any_isLoop_of_nextRound {frames : Frames} {n : Nat}
    (h : frames.nextRound? = some n) : frames.any Frame.isLoop = true := by
  obtain ⟨f, hf, -⟩ := Option.bind_eq_some_iff.1 h
  exact List.any_eq_true.2 ⟨f, List.mem_of_find?_eq_some hf, List.find?_some hf⟩

/-- The constructs around a statement tell which jumps it may hold. -/
theorem Framed.jumpsFit {frames : Frames} {s : Stmt} (h : Framed frames s) :
    s.jumpsFit (frames.any Frame.isLoop) (!frames.isEmpty) = true := by
  -- inside a loop every jump has a place to go
  have hloop : ∀ {f : Frame} {frames : Frames} {b : Scope}, f.isLoop = true →
      (∀ t ∈ b.stmts, t.jumpsFit (List.any (f :: frames) Frame.isLoop)
        (!List.isEmpty (f :: frames)) = true) → b.jumpsFit true true = true := by
    intro f frames b hf hbody
    apply Scope.jumpsFit_of_forall
    rwa [List.any_cons, hf, Bool.true_or] at hbody
  induction h with
  | plain h => exact Stmt.jumpsFit_of_isPlain h
  | @leave frames n h =>
    cases frames with
    | nil => cases h
    | cons f frames => rfl
  | nextRound h => exact Frames.any_isLoop_of_nextRound h
  | label | goto | gotoIf => rfl
  | @ifElse frames test b orElse _ _ _ _ ihbody ihelse =>
    have hb := Scope.jumpsFit_of_forall ihbody
    cases orElse with
    | none => exact hb
    | some e =>
      rw [Stmt.jumpsFit, hb, Bool.true_and]
      exact Scope.jumpsFit_of_forall (ihelse e rfl)
  | whileLoop hf _ _ ih | doWhile hf _ _ ih => exact hloop hf ih
  | forLoop hinit hupdate hf _ _ ih =>
    rw [Stmt.jumpsFit, hloop hf ih, Bool.and_true]
    simp only [Stmt.jumpsFit_of_isPlain hinit, Stmt.jumpsFit_of_isPlain hupdate, Bool.and_true]
  | switch _ _ ih =>
    apply SwitchArm.allJumpsFit_of_forall
    intro a ha
    apply Scope.jumpsFit_of_forall
    exact ih a ha

namespace Method

/-- Every jump behind a construct is in the body of a loop or in an arm of a switch, and every jump
    to the next round is in the body of a loop. -/
theorem jumpsFit_of_recover {config : Config} {m : Method} {r : RecoveredBody}
    (h : m.recover config = .ok r) : r.body.jumpsFit false false = true := by
  apply Scope.jumpsFit_of_forall
  intro s hs
  exact ((recover_framed h).framed s hs).jumpsFit

/-- An endless loop around a switch, left and continued at many places. -/
def crowded : Method := ofBlocks
  [⟨[.increment 0 1, .load 0 "I"], .branch (.zero .eq) 2 1⟩,
    ⟨[.load 1 "I"], .branch (.zero .eq) 4 3⟩, ⟨[.load 2 "I"], .branch (.zero .eq) 0 4⟩,
    ⟨[.load 3 "I"], .switch [(1, 5), (2, 6)] 0⟩, ⟨[], .ret⟩, ⟨[.increment 1 1], .goto 0⟩,
    ⟨[.increment 2 1, .load 1 "I"], .branch (.zero .eq) 0 4⟩]

/-- Three breaks and four jumps to the next round, all of them where they belong. -/
theorem crowded_jumpsFit :
    ∃ r, crowded.recover {} = .ok r ∧ r.body.jumpsFit false false = true ∧
      (r.body.nodes.countP fun | .stmt .breakOut => true | _ => false) = 3 ∧
        (r.body.nodes.countP fun | .stmt .continueLoop => true | _ => false) = 4 := by
  have heval : (crowded.recover {}).toOption.map (fun r =>
      ((r.body.nodes.countP fun | .stmt .breakOut => true | _ => false),
        r.body.nodes.countP fun | .stmt .continueLoop => true | _ => false))
      = some (3, 4) := by decide +kernel
  obtain ⟨r, hr, h⟩ := exists_of_map_toOption heval
  obtain ⟨hbreaks, hcontinues⟩ := Prod.mk.inj h
  exact ⟨r, hr, jumpsFit_of_recover hr, hbreaks, hcontinues⟩

end Method

end Restructure
