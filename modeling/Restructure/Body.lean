import Restructure.Code.Method
import Restructure.Region.Walk

namespace Restructure

/-!
# Bodies — the recovered code of one method

* `Method.recover` — structured code where the graph allows it; else, with the fallback on, code
  with labels and jumps.
-/

/-- The recovered code of a method: its locked scope, and whether it needs labels and jumps. -/
structure RecoveredBody where
  body : Scope
  fallback : Bool

namespace Method

/-- The body of a graph, and whether it needs labels and jumps. Code without a structured form is
    written flat if that is allowed. -/
def recoverGraph (c : Context) (start : Scope) : Except Error (Scope × Bool) :=
  match c.structured start with
  | .ok r => .ok (r.body, r.hasJumps)
  | .error e =>
    if e.kind = .unstructurable ∧ c.config.fallback then
      (c.flatten start).map fun s => (s, true)
    else .error e

/-- Recovers the code of a method. A method without code has a body that only binds the
    parameters. -/
def recover (config : Config) (m : Method) : Except Error RecoveredBody := do
  m.validate
  let start := Scope.withLocals .method (← m.parameterLocals)
  if m.isBodyless then
    return ⟨← start.lock, false⟩
  else
    let graph ← FlowGraph.ofBlocks m.blocks
    let (body, fallback) ← recoverGraph ⟨config, graph⟩ start
    return ⟨← body.lock, fallback⟩

end Method

end Restructure
