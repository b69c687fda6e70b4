import Restructure.Proofs.Labels
import Restructure.Proofs.Region.Scoped

namespace Restructure

/-!
# Declared locals — how the locals of a method are named, and which tables bind them

A slot that is no parameter is named by the first instruction that uses it, and each scope has a
table of its own. Still a slot has one name in the whole code of a method. A table binds what its
scope uses, with one exception: code that has been moved into the scope leaves behind the table of
the scope in which it was read. So the values of a conditional value, joined tests and the tests of
loops can use locals that nothing declares where they stand.

* `Scope.named` — the locals that the code of a tree names.
* `Method.recover_names` — a slot has one name.
* `Scope.DeclaresAll` — the table binds all that the scope uses.
* `Method.recover_declares` — what is bound, and which occurrences may not be.
* `Method.chosen_undeclared` — a local that only a moved assignment uses is not declared.
-/

/-- The locals that the nodes of the scope name, in all scopes of the tree. -/
def Scope.named (s : Scope) : List Local := s.nodes.flatMap Node.locals

/-- The table of the scope binds the slot of every local that its statements use, and that the tests
    and values of its control statements use. -/
def Scope.DeclaresAll (s : Scope) : Prop :=
  ∀ x ∈ s.stmts, ∀ u ∈ x.uses, (s.locals.find? u.v.slot).isSome = true

/-- Whether a scope declares all of its locals can be decided. -/
instance (s : Scope) : Decidable s.DeclaresAll :=
  inferInstanceAs (Decidable (∀ x ∈ s.stmts, ∀ u ∈ x.uses, (s.locals.find? u.v.slot).isSome = true))

/-- All scopes of scoped code fit their tables. -/
theorem Scope.Scoped.fits_scopes {params : Locals} {s : Scope} (h : s.Scoped params) :
    ∀ b ∈ s.scopes, b.Fits params := by
  intro b hb
  rcases List.mem_cons.1 hb with rfl | hb
  · exact h.fits
  · obtain ⟨n, hn, hb⟩ := List.mem_flatMap.1 hb
    exact (h.nodes n hn).scopes b hb

namespace Method

variable {config : Config} {m : Method} {r : RecoveredBody}

/-! ### Names -/

/-- **One name for a slot.** A local in the code of a method is the parameter of its slot, or it is
    named after the slot. So two locals of one slot have the same name, whichever scopes they are
    in. -/
theorem recover_names (h : m.recover config = .ok r) :
    ∃ params, m.parameterLocals = .ok params ∧
      (∀ v ∈ r.body.named, match params.find? v.slot with
        | some w => v = w
        | none => v.name = "local" ++ toString v.slot) ∧
      ∀ v ∈ r.body.named, ∀ w ∈ r.body.named, v.slot = w.slot → v.name = w.name := by
  obtain ⟨params, hparams, hscoped⟩ := recover_scoped h
  have hnames : ∀ v ∈ r.body.named, params.Names v := by
    intro v hv
    obtain ⟨n, hn, hv⟩ := List.mem_flatMap.1 hv
    exact (hscoped.nodes n hn).names v hv
  exact ⟨params, hparams, hnames, fun v hv w hw => (hnames v hv).name_eq (hnames w hw)⟩

/-- A loop that uses one slot in its test, in its body and behind it. -/
def countedUp : Method :=
  { ofBlocks [⟨[.const (.int 0), .store 1 "I"], .goto 1⟩,
      ⟨[.load 1 "I", .load 0 "I"], .branch (.values .ge) 4 2⟩,
      ⟨[.load 1 "I"], .branch (.zero .eq) 3 5⟩, ⟨[.increment 1 1], .goto 1⟩,
      ⟨[.load 1 "I"], .retValue⟩, ⟨[.load 2 "I", .store 1 "I"], .goto 3⟩] with
    descriptor := "(I)I" }

/-- Locals are named eight times in three scopes, and those of one slot agree. -/
theorem countedUp_names :
    ∃ r, countedUp.recover {} = .ok r ∧ r.body.scopes.length = 3 ∧
      r.body.named.map (·.slot) = [1, 1, 0, 1, 1, 1, 2, 1] ∧
      ∀ v ∈ r.body.named, ∀ w ∈ r.body.named, v.slot = w.slot → v.name = w.name := by
  have heval : (countedUp.recover {}).toOption.map
      (fun r => (r.body.scopes.length, r.body.named.map (·.slot)))
      = some (3, [1, 1, 0, 1, 1, 1, 2, 1]) := by decide +kernel
  obtain ⟨r, hr, h⟩ := exists_of_map_toOption heval
  obtain ⟨hscopes, hslots⟩ := Prod.mk.inj h
  obtain ⟨_, _, _, hsame⟩ := recover_names hr
  exact ⟨r, hr, hscopes, hslots, hsame⟩

/-! ### Tables -/

/-- **What tables bind.** In all scopes of a method the parameters are bound, and so is every local
    that occurs where its code was read. The test of a `do` loop and the last step of a counting
    loop are read in the body and bound there. Hence a scope declares all that it uses if and only
    if it binds those occurrences that have been moved into it and are no parameters. -/
theorem recover_declares (h : m.recover config = .ok r) :
    ∃ params, m.parameterLocals = .ok params ∧
      (∀ s ∈ r.body.scopes,
        (∀ slot v, params.find? slot = some v → s.locals.find? slot = some v) ∧
        (∀ x ∈ s.stmts, ∀ u ∈ x.uses, u.moved = false → s.locals.find? u.v.slot = some u.v) ∧
        (s.DeclaresAll ↔ ∀ x ∈ s.stmts, ∀ u ∈ x.uses, u.moved = true →
          params.find? u.v.slot = none → (s.locals.find? u.v.slot).isSome = true)) ∧
      ∀ x, Node.stmt x ∈ r.body.nodes → ∀ b ∈ x.scopes, ∀ u ∈ x.roundUses,
        u.moved = false → b.locals.find? u.v.slot = some u.v := by
  obtain ⟨params, hparams, hscoped⟩ := recover_scoped h
  refine ⟨params, hparams, fun s hs => ?_, fun x hx b hb u hu =>
    ((hscoped.nodes _ hx).rounds x rfl b hb u hu).bound⟩
  have hfits := hscoped.fits_scopes s hs
  have hbound : ∀ x ∈ s.stmts, ∀ u ∈ x.uses, u.moved = false →
      s.locals.find? u.v.slot = some u.v := fun x hx u hu => (hfits.stmts x hx u hu).bound
  refine ⟨hfits.table.kept, hbound, fun hall x hx u hu _ _ => hall x hx u hu,
    fun hmoved x hx u hu => ?_⟩
  -- what has not been moved is bound, and so are the parameters
  cases hflag : u.moved with
  | false => rw [hbound x hx u hu hflag, Option.isSome_some]
  | true =>
    cases hparam : params.find? u.v.slot with
    | none => exact hmoved x hx u hu hflag hparam
    | some w => rw [hfits.table.kept _ w hparam, Option.isSome_some]

/-- A conditional assignment to a local that nothing else uses. -/
def chosen : Method :=
  { ofBlocks [⟨[.load 0 "Z"], .branch (.zero .eq) 2 1⟩,
      ⟨[.const (.int 1), .store 1 "I"], .goto 3⟩, ⟨[.const (.int 2), .store 1 "I"], .goto 3⟩,
      ⟨[], .ret⟩] with
    descriptor := "(Z)V" }

/-- The test stays where it was read, and its local is bound; the local of the assignment is not. -/
theorem chosen_declares :
    ∃ r, chosen.recover {} = .ok r ∧ r.body.stmts.flatMap Stmt.uses
        = [⟨⟨1, "local1", "I"⟩, true⟩, ⟨⟨0, "arg0", "Z"⟩, false⟩] ∧
      (∀ x ∈ r.body.stmts, ∀ u ∈ x.uses, u.moved = false →
        r.body.locals.find? u.v.slot = some u.v) := by
  have heval : (chosen.recover {}).toOption.map (fun r => r.body.stmts.flatMap Stmt.uses)
      = some [⟨⟨1, "local1", "I"⟩, true⟩, ⟨⟨0, "arg0", "Z"⟩, false⟩] := by decide +kernel
  obtain ⟨r, hr, huses⟩ := exists_of_map_toOption heval
  obtain ⟨_, _, hscopes, _⟩ := recover_declares hr
  exact ⟨r, hr, huses, (hscopes r.body (List.mem_cons_self ..)).2.1⟩

/-- Not every scope declares all that it uses. -/
theorem chosen_undeclared :
    ¬∀ (config : Config) (m : Method) (r : RecoveredBody), m.recover config = .ok r →
      ∀ s ∈ r.body.scopes, s.DeclaresAll := by
  intro hall
  have heval : (chosen.recover {}).toOption.map (fun r => decide r.body.DeclaresAll)
      = some false := by decide +kernel
  obtain ⟨r, hr, hnot⟩ := exists_of_map_toOption heval
  exact of_decide_eq_false hnot (hall {} chosen r hr r.body (List.mem_cons_self ..))

end Method

end Restructure
