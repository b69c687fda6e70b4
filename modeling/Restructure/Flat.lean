import Restructure.Region.Test

namespace Restructure

/-!
# Flat code — labels and jumps instead of structure

Every block is written as a label, its statements and explicit jumps. Nothing is folded across
blocks.

* `Context.flatBlock` — one block, with the targets of its jumps.
* `Context.flatten` — all reachable blocks in ascending order.
-/

namespace Context

variable (c : Context)

/-- Adds statements to a scope. -/
def appendAll (s : Scope) (stmts : List Stmt) : Except Error Scope := stmts.foldlM Scope.append s

/-- The jumps at the end of a block, and what is left on the stack. -/
def flatExit (n : Nat) (exit : Terminator) (st : Operands) :
    Except Error (List Stmt × Operands) :=
  match exit with
  | .goto t => .ok ([.goto t], st)
  | .ret => .ok ([.ret none], st)
  | .retValue => do
    let (e, st) ← st.pop
    return ([.ret (some e)], st)
  | .throw => do
    let (e, st) ← st.pop
    return ([.throw e], st)
  | .branch test taken fallthrough => do
    let (cond, st) ← branchCondition test st
    return ([.gotoIf cond taken, .goto fallthrough], st)
  | .switch cases default => do
    let (key, st) ← st.pop
    if key.hasEffects then throw (.effectfulKey key n)
    let jumps := cases.map fun k => Stmt.gotoIf (.compare key .eq (.int k.1)) k.2
    return (jumps ++ [.goto default], st)

/-- Adds one block, and gives the targets of its jumps. -/
def flatBlock (n : Nat) (scope : Scope) : Except Error (Scope × List Nat) :=
  match c.graph.block? n with
  | none => .error (.missingBlock n)
  | some b => do
    let scope ← scope.append (.label n)
    let m ← Simulation.run c.config (.start scope) b.insns
    let (jumps, st) ← flatExit n b.exit m.stack
    let scope ← appendAll m.scope jumps
    if !st.isEmpty then throw (.valuesAtEnd st.length n)
    return (scope, b.exit.successors)

/-- Adds blocks one after the other, and gives the targets of all their jumps. -/
def flatBlocks (scope : Scope) : List Nat → Except Error (Scope × List Nat)
  | [] => .ok (scope, [])
  | n :: ns => do
    let (scope, ts) ← c.flatBlock n scope
    let (scope, us) ← flatBlocks scope ns
    return (scope, ts ++ us)

/-- The reachable blocks, ascending. -/
def reachableBlocks : List Nat := (List.range c.graph.size).filter c.graph.isReachable

/-- Adds all reachable blocks. -/
def flatten (scope : Scope) : Except Error Scope :=
  (c.flatBlocks scope c.reachableBlocks).map (·.1)

end Context

end Restructure
