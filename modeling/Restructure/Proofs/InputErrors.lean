import Restructure.Proofs.Outcomes

namespace Restructure

/-!
# Input errors — bad input is told apart from everything else

A descriptor that cannot be read and a jump that leads to no block are found before anything else,
also in a method without code. Behind that, every block that is asked for is there, and the only
thing that may still be unreadable is an invocation.

* `Method.Misread` — what validation finds.
* `Insn.exists_of_effect_error` — the instructions that have no effect on the stack.
* `Method.recover_input_errors` — which failures concern the input.
-/

/-- An instruction without an effect on the stack is an invocation whose descriptor cannot be read
    or has too many parameters. -/
theorem Insn.exists_of_effect_error {i : Insn} {e : EffectFault} (h : i.effect = .error e) :
    ∃ dispatch f, i = .invoke dispatch f ∧ ((∃ fault, f.parse = .error fault) ∨
      ∃ t, f.parse = .ok t ∧
        maxPops < t.params.length + if dispatch.hasReceiver then 1 else 0) := by
  cases i with
  | invoke dispatch f =>
    refine ⟨dispatch, f, rfl, ?_⟩
    cases hparse : f.parse with
    | error fault => exact .inl ⟨fault, rfl⟩
    | ok t =>
      refine .inr ⟨t, rfl, ?_⟩
      by_contra hle
      unfold effect at h
      simp only [hparse, if_pos (Nat.le_of_not_lt hle)] at h
      cases h
  | _ => cases h

namespace Method

/-- The descriptor cannot be read, or some jump leads to no block. -/
def Misread (m : Method) : Prop :=
  (∃ fault, MethodType.parse m.descriptor = .error fault) ∨
    ∃ b ∈ m.blocks, ∃ t ∈ b.exit.successors, m.blocks.length ≤ t

variable {m : Method}

/-- Validation finds exactly this. -/
theorem validate_eq_ok_iff_not_misread : m.validate = .ok () ↔ ¬m.Misread := by
  rw [validate_eq_ok_iff]
  constructor
  · rintro ⟨⟨t, ht⟩, htargets⟩ (⟨fault, hfault⟩ | ⟨b, hb, k, hk, hle⟩)
    · rw [ht] at hfault
      cases hfault
    · have hlt := htargets b hb k hk
      omega
  · intro h
    constructor
    · cases hparse : MethodType.parse m.descriptor with
      | error fault => exact absurd (.inl ⟨fault, hparse⟩) h
      | ok t => exact ⟨t, rfl⟩
    · intro b hb t ht
      by_contra hle
      exact h (.inr ⟨b, hb, t, ht, Nat.le_of_not_lt hle⟩)

/-- What is misread is not valid, and the error says that it was not recognized. -/
theorem exists_of_misread (h : m.Misread) :
    ∃ e, m.validate = .error e ∧ e.kind = .unrecognized := by
  cases hvalid : m.validate with
  | error e => exact ⟨e, rfl, kind_of_validate hvalid⟩
  | ok _ => exact absurd h (validate_eq_ok_iff_not_misread.1 hvalid)

/-- No failure concerns the graph. Input that is misread fails as such; other input fails as
    unreadable only if a block holds an invocation whose descriptor cannot be read or has too many
    parameters. Code that is valid has a graph. -/
theorem recover_input_errors (config : Config) (m : Method) :
    (∀ e, m.recover config = .error e → e.kind ≠ .graph) ∧
    (m.Misread → ∃ e, m.recover config = .error e ∧ e.kind = .unrecognized) ∧
    (¬m.Misread → ∀ e, m.recover config = .error e → e.kind = .unrecognized →
      ∃ b ∈ m.blocks, ∃ dispatch f, .invoke dispatch f ∈ b.insns ∧
        ((∃ fault, f.parse = .error fault) ∨ ∃ t, f.parse = .ok t ∧
          Insn.maxPops < t.params.length + if dispatch.hasReceiver then 1 else 0)) ∧
    (m.isBodyless = false → m.validate = .ok () → ∃ g, FlowGraph.ofBlocks m.blocks = .ok g) := by
  refine ⟨?_, ?_, ?_, ?_⟩
  · intro e herror
    exact (kind_ne_of_recover herror).2
  · intro hmisread
    obtain ⟨e, hvalid, hkind⟩ := exists_of_misread hmisread
    exact ⟨e, recover_of_invalid hvalid, hkind⟩
  · intro hread e herror hkind
    have hvalid := validate_eq_ok_iff_not_misread.2 hread
    obtain ⟨b, hb, i, hi, fault, hfault⟩ :=
      ((recover_gives hvalid).of_error herror).of_unrecognized hkind
    obtain ⟨dispatch, f, rfl, hwhy⟩ := Insn.exists_of_effect_error hfault
    exact ⟨b, hb, dispatch, f, hi, hwhy⟩
  · intro hcode hvalid
    apply FlowGraph.exists_of_targets
    · intro hnil
      simp [isBodyless, hnil] at hcode
    · exact (validate_eq_ok_iff.1 hvalid).2

/-- A method without code that still jumps to a block. -/
def astray : Method := { ofBlocks [⟨[], .goto 1⟩] with access := 0x100 }

/-- A valid method with a call whose descriptor cannot be read. -/
def garbled : Method := ofBlocks [⟨[.invoke .static ⟨"T", "g", "("⟩], .ret⟩]

/-- The one fails because it is misread, the other because of its call. -/
theorem astray_and_garbled_input_errors :
    (astray.isBodyless = true ∧ astray.Misread ∧
      ∃ e, astray.recover {} = .error e ∧ e.kind = .unrecognized) ∧
    (¬garbled.Misread ∧ (∃ g, FlowGraph.ofBlocks garbled.blocks = .ok g) ∧
      ∃ e, garbled.recover {} = .error e ∧ e.kind = .unrecognized ∧
        ∃ b ∈ garbled.blocks, ∃ dispatch f, .invoke dispatch f ∈ b.insns ∧
          ((∃ fault, f.parse = .error fault) ∨ ∃ t, f.parse = .ok t ∧
            Insn.maxPops < t.params.length + if dispatch.hasReceiver then 1 else 0)) := by
  obtain ⟨-, hastray, -, -⟩ := recover_input_errors {} astray
  obtain ⟨-, -, hgarbled, hgraph⟩ := recover_input_errors {} garbled
  have hmisread : astray.Misread := .inr ⟨_, List.mem_singleton_self _, 1,
    List.mem_singleton_self _, Nat.le_refl _⟩
  have hvalid : garbled.validate = .ok () :=
    Except.eq_ok_of_toOption (show garbled.validate.toOption = some () by decide +kernel)
  have hread : ¬garbled.Misread := validate_eq_ok_iff_not_misread.1 hvalid
  have heval : (tryCatch ((garbled.recover {}).map fun _ => none) fun e =>
      .ok (some e.kind)).toOption = some (some ErrorKind.unrecognized) := by decide +kernel
  refine ⟨⟨rfl, hmisread, hastray hmisread⟩, hread, hgraph rfl hvalid, ?_⟩
  cases herror : garbled.recover {} with
  | ok r =>
    rw [herror] at heval
    cases heval
  | error e =>
    rw [herror] at heval
    have hkind : e.kind = .unrecognized := Option.some.inj (Option.some.inj heval)
    exact ⟨e, rfl, hkind, hgarbled hread e herror hkind⟩

end Method

end Restructure
