import Restructure.Body
import Restructure.Proofs.Simulation.Edits

namespace Restructure

/-!
# Origins — where the code of a method comes from

The code of a method is structured or flat, or there is none. Whichever it is, it is locked at the
end, which changes none of its statements.

* `Method.Origin` — the three kinds of code.
* `Method.recover_inv` — the code of every method is of one of them.
-/

namespace Method

/-- The code of a method before it is locked, and whether it is said to need labels and jumps. It
    begins over the parameters. -/
inductive Origin (config : Config) (m : Method) : Scope → Bool → Prop
  | bodyless (hcode : m.isBodyless = true) (locals : Locals)
      (hlocals : m.parameterLocals = .ok locals) :
      Origin config m (.withLocals .method locals) false
  | structured {g : FlowGraph} {locals : Locals} {r : Context.Result}
      (hgraph : FlowGraph.ofBlocks m.blocks = .ok g)
      (hcode : Context.structured ⟨config, g⟩ (.withLocals .method locals) = .ok r)
      (hlocals : m.parameterLocals = .ok locals) : Origin config m r.body r.hasJumps
  | flat {g : FlowGraph} {locals : Locals} {s : Scope}
      (hgraph : FlowGraph.ofBlocks m.blocks = .ok g)
      (hcode : Context.flatten ⟨config, g⟩ (.withLocals .method locals) = .ok s)
      (hlocals : m.parameterLocals = .ok locals) : Origin config m s true

/-- Recovered code has one of these origins. -/
theorem recover_inv {config : Config} {m : Method} {r : RecoveredBody}
    (h : m.recover config = .ok r) :
    ∃ body fallback, Origin config m body fallback ∧ body.lock = .ok r.body ∧
      r.fallback = fallback := by
  obtain ⟨_, _, h⟩ := Except.bind_eq_ok.1 h
  obtain ⟨locals, hlocals, h⟩ := Except.bind_eq_ok.1 h
  split at h
  · rename_i hcode
    obtain ⟨body, hlock, h⟩ := Except.bind_eq_ok.1 h
    cases h
    exact ⟨_, _, .bodyless hcode locals hlocals, hlock, rfl⟩
  · obtain ⟨g, hgraph, h⟩ := Except.bind_eq_ok.1 h
    obtain ⟨⟨body, fallback⟩, hbody, h⟩ := Except.bind_eq_ok.1 h
    obtain ⟨body', hlock, h⟩ := Except.bind_eq_ok.1 h
    cases h
    refine ⟨body, fallback, ?_, hlock, rfl⟩
    unfold recoverGraph at hbody
    split at hbody
    · rename_i r hcode
      cases hbody
      exact .structured hgraph hcode hlocals
    · split at hbody
      · obtain ⟨s, hcode, hbody⟩ := Except.map_eq_ok.1 hbody
        cases hbody
        exact .flat hgraph hcode hlocals
      · cases hbody

end Method

end Restructure
