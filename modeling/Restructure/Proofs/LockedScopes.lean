import Restructure.Proofs.Region.Framed

namespace Restructure

/-!
# Locked scopes — scopes change only while they are open, and end locked

No scope is changed behind its lock and none is popped that is empty, neither the scopes that
become part of the code nor those that a block is tried out in. In the code of a method every scope
is locked, and its kind tells what it is part of.

* `Scope.allSealed` — the scope and all scopes in it are locked, each with the kind of its place.
* `Framed.allSealed` — they are so in code that is written within constructs.
* `Method.recover_locked` — and in the code of every method, where no change of a scope ever fails.
-/

mutual

/-- Every scope in the statement is locked, and its kind is that of an arm of a conditional, of the
    body of a loop or of an arm of a switch. -/
def Stmt.allSealed : Stmt → Bool
  | .ifElse _ b none => b.allSealed .arm
  | .ifElse _ b (some e) => b.allSealed .arm && e.allSealed .arm
  | .whileLoop _ b => b.allSealed .loop
  | .doWhile _ b => b.allSealed .loop
  | .forLoop init _ update b =>
    (match init with
      | none => true
      | some s => s.allSealed)
    && (match update with
      | none => true
      | some s => s.allSealed)
    && b.allSealed .loop
  | .switch _ arms => SwitchArm.sealedAll arms
  | _ => true

/-- So it is in all statements. -/
def Stmt.sealedAll : List Stmt → Bool
  | [] => true
  | s :: ss => s.allSealed && Stmt.sealedAll ss

/-- The scope is locked and has the given kind, and so it is in its statements. -/
def Scope.allSealed (k : ScopeKind) : Scope → Bool
  | ⟨kind, _, ss, locked⟩ => kind == k && locked && Stmt.sealedAll ss

/-- So it is in all arms of a switch. -/
def SwitchArm.sealedAll : List SwitchArm → Bool
  | [] => true
  | ⟨_, _, b, _⟩ :: arms => b.allSealed .switch && SwitchArm.sealedAll arms

end

variable {k : ScopeKind}

/-- Statements are sealed if each of them is. -/
theorem Stmt.sealedAll_of_forall {ss : List Stmt} (h : ∀ s ∈ ss, s.allSealed = true) :
    Stmt.sealedAll ss = true := by
  induction ss with
  | nil => rfl
  | cons s ss ih =>
    rw [Stmt.sealedAll, h s (List.mem_cons_self ..), Bool.true_and]
    exact ih fun t ht => h t (List.mem_cons_of_mem s ht)

/-- A sealed scope of sealed statements is sealed throughout. -/
theorem Scope.Sealed.allSealed {b : Scope} (hb : b.Sealed k)
    (h : ∀ s ∈ b.stmts, s.allSealed = true) : b.allSealed k = true := by
  obtain ⟨kind, _, ss, locked⟩ := b
  obtain ⟨rfl, rfl⟩ := hb
  rw [Scope.allSealed, beq_self_eq_true, Bool.true_and, Bool.true_and]
  exact Stmt.sealedAll_of_forall h

/-- The arms are sealed if each of them is. -/
theorem SwitchArm.sealedAll_of_forall {arms : List SwitchArm}
    (h : ∀ a ∈ arms, a.body.allSealed .switch = true) : SwitchArm.sealedAll arms = true := by
  induction arms with
  | nil => rfl
  | cons a arms ih =>
    obtain ⟨_, _, b, _⟩ := a
    rw [SwitchArm.sealedAll, h _ (List.mem_cons_self ..), Bool.true_and]
    exact ih fun a ha => h a (List.mem_cons_of_mem _ ha)

/-- Plain statements hold no scopes. -/
theorem Stmt.allSealed_of_isPlain {s : Stmt} (h : s.isPlain = true) : s.allSealed = true := by
  cases s <;> first | rfl | cases h

/-- Within a statement that may stand somewhere every scope is locked. -/
theorem Framed.allSealed {frames : Frames} {s : Stmt} (h : Framed frames s) :
    s.allSealed = true := by
  induction h with
  | plain h => exact Stmt.allSealed_of_isPlain h
  | leave | nextRound | label | goto | gotoIf => rfl
  | @ifElse frames test b orElse hb _ he _ ihbody ihelse =>
    have hbody : b.allSealed .arm = true := hb.allSealed ihbody
    cases orElse with
    | none => exact hbody
    | some e =>
      rw [Stmt.allSealed, hbody, Bool.true_and]
      exact (he e rfl).allSealed (ihelse e rfl)
  | whileLoop _ hb _ ih | doWhile _ hb _ ih => exact hb.allSealed ih
  | forLoop hinit hupdate _ hb _ ih =>
    rw [Stmt.allSealed, hb.allSealed ih, Bool.and_true]
    simp only [Stmt.allSealed_of_isPlain hinit, Stmt.allSealed_of_isPlain hupdate, Bool.and_true]
  | switch harms _ ih =>
    apply SwitchArm.sealedAll_of_forall
    intro a ha
    exact (harms a ha).allSealed (ih a ha)

namespace Method

/-- No change of a scope fails, neither in the code nor where a block is tried out in a scope of its
    own. In the code that is recovered every scope is locked: that of the method, and those of arms
    and bodies at any depth. -/
theorem recover_locked (config : Config) (m : Method) :
    (∀ e, m.recover config = .error e → e.kind ≠ .scopeMisuse) ∧
    (∀ (scope : Scope) k insns e,
      Simulation.run config (.start (scope.child k)) insns = .error e → e.kind ≠ .scopeMisuse) ∧
    ∀ r, m.recover config = .ok r → r.body.allSealed .method = true := by
  refine ⟨?_, ?_, ?_⟩
  · intro e herror
    exact (kind_ne_of_recover herror).1
  · intro scope k insns e herror
    have hgives : Gives (Error.Allowed True) (Simulation.run config (.start (scope.child k)) insns)
        (Simulation.Opened k) :=
      Simulation.run_gives (Scope.opened_child scope k) fun _ _ _ _ => trivial
    exact (hgives.of_error herror).kind_ne.1
  · intro r hr
    have hbody := recover_framed hr
    exact hbody.toSealed.allSealed fun s hs => (hbody.framed s hs).allSealed

/-- A loop over a switch, and a conditional in one of its arms. -/
def tallied : Method := ofBlocks
  [⟨[.const (.int 0), .store 1 "I"], .goto 1⟩,
    ⟨[.load 1 "I", .load 0 "I"], .branch (.values .ge) 7 2⟩,
    ⟨[.load 1 "I"], .switch [(1, 3)] 6⟩, ⟨[.load 2 "I"], .branch (.zero .eq) 4 5⟩,
    ⟨[.increment 0 1], .goto 6⟩, ⟨[.increment 0 2], .goto 6⟩, ⟨[.increment 1 1], .goto 1⟩,
    ⟨[], .ret⟩]

/-- Locked scopes of all kinds, and a block that fails where it is tried out. -/
theorem tallied_locked :
    (∃ r, tallied.recover {} = .ok r ∧ r.body.allSealed .method = true ∧
      (r.body.nodes.countP fun
        | .stmt (.forLoop ..) | .stmt (.switch ..) | .stmt (.ifElse _ _ (some _)) => true
        | _ => false) = 3) ∧
    ∃ e, Simulation.run {} (.start ((Scope.new .method).child .block)) [.store 1 "I"] = .error e ∧
      e.kind = .malformed ∧ e.kind ≠ .scopeMisuse := by
  have heval : (tallied.recover {}).toOption.map (fun r =>
      r.body.nodes.countP fun
        | .stmt (.forLoop ..) | .stmt (.switch ..) | .stmt (.ifElse _ _ (some _)) => true
        | _ => false) = some 3 := by decide +kernel
  obtain ⟨r, hr, hcount⟩ := exists_of_map_toOption heval
  obtain ⟨-, htrial, hlocked⟩ := recover_locked {} tallied
  refine ⟨⟨r, hr, hlocked r hr, hcount⟩, _, rfl, rfl, htrial _ .block [.store 1 "I"] _ rfl⟩

end Method

end Restructure
