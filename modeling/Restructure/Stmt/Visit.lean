import Restructure.Stmt.Basic

namespace Restructure

/-!
# Visiting — the nodes of a tree in source order

* `Node` — an expression, a condition or a statement.
* `Expr.nodes`, `Cond.nodes`, `Stmt.nodes`, `Scope.nodes` — the nodes of a tree, each before its
  children, and the children in the order in which source code writes them. A destination that
  is a local or a static field is part of its statement and no node of its own.
-/

/-- One node of a recovered tree. -/
inductive Node where
  | expr (e : Expr)
  | cond (c : Cond)
  | stmt (s : Stmt)

mutual

/-- The nodes of a value: a receiver comes before arguments, a size before the values of an
    array, a condition before its alternatives. -/
def Expr.nodes (e : Expr) : List Node :=
  .expr e ::
    match e with
    | .const _ | .var _ | .static _ | .increment _ _ _ => []
    | .field _ r => r.nodes
    | .element a i => a.nodes ++ i.nodes
    | .length a => a.nodes
    | .binary _ l r => l.nodes ++ r.nodes
    | .negate v => v.nodes
    | .cast _ v => v.nodes
    | .instanceOf _ v => v.nodes
    | .newArray _ n => n.nodes
    | .arrayOf _ n vs => n.nodes ++ Expr.allNodes vs
    | .new _ _ args => Expr.allNodes args
    | .call _ r args => r.nodes ++ Expr.allNodes args
    | .staticCall _ args => Expr.allNodes args
    | .ternary c a b => c.nodes ++ a.nodes ++ b.nodes
    | .compare _ l r => l.nodes ++ r.nodes

/-- The nodes of values, one after the other. -/
def Expr.allNodes : List Expr → List Node
  | [] => []
  | e :: es => e.nodes ++ Expr.allNodes es

/-- The nodes of a test. -/
def Cond.nodes (c : Cond) : List Node :=
  .cond c ::
    match c with
    | .test e _ => e.nodes
    | .compare l _ r => l.nodes ++ r.nodes
    | .not d => d.nodes
    | .and cs => Cond.allNodes cs
    | .or cs => Cond.allNodes cs

/-- The nodes of tests, one after the other. -/
def Cond.allNodes : List Cond → List Node
  | [] => []
  | c :: cs => c.nodes ++ Cond.allNodes cs

end

mutual

/-- The nodes of a statement: a loop's test where source code writes it. -/
def Stmt.nodes (s : Stmt) : List Node :=
  .stmt s ::
    match s with
    | .assign t e => Expr.allNodes t.operands ++ e.nodes
    | .compound t _ e => Expr.allNodes t.operands ++ e.nodes
    | .eval e => e.nodes
    | .ret none => []
    | .ret (some e) => e.nodes
    | .throw e => e.nodes
    | .ifElse c b none => c.nodes ++ b.nodes
    | .ifElse c b (some e) => c.nodes ++ b.nodes ++ e.nodes
    | .whileLoop c b => c.nodes ++ b.nodes
    | .doWhile c b => b.nodes ++ c.nodes
    | .forLoop init c update b =>
      (match init with
        | none => []
        | some i => i.nodes)
      ++ c.nodes
      ++ (match update with
        | none => []
        | some u => u.nodes)
      ++ b.nodes
    | .switch e arms => e.nodes ++ SwitchArm.allNodes arms
    | .increment _ _ | .breakOut | .continueLoop | .label _ | .goto _ => []
    | .gotoIf c _ => c.nodes

/-- The nodes of statements, one after the other. -/
def Stmt.allNodes : List Stmt → List Node
  | [] => []
  | s :: ss => s.nodes ++ Stmt.allNodes ss

/-- The nodes of a scope's statements. -/
def Scope.nodes : Scope → List Node
  | ⟨_, _, ss, _⟩ => Stmt.allNodes ss

/-- The nodes of the statements of switch arms. -/
def SwitchArm.allNodes : List SwitchArm → List Node
  | [] => []
  | ⟨_, _, b, _⟩ :: arms => b.nodes ++ SwitchArm.allNodes arms

end

/-- The nodes of two lists of statements stand in a row. -/
theorem Stmt.allNodes_append (ss ts : List Stmt) :
    Stmt.allNodes (ss ++ ts) = Stmt.allNodes ss ++ Stmt.allNodes ts := by
  induction ss with
  | nil => rfl
  | cons s ss ih => simp [Stmt.allNodes, ih]

/-- The names of the locals that are read, in the order of the reads. -/
def Node.readNames (nodes : List Node) : List String :=
  nodes.filterMap fun
    | .expr (.var v) => some v.name
    | _ => none

end Restructure
