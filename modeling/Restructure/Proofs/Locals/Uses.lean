import Restructure.Proofs.Conditions.NormalForm
import Restructure.Proofs.Region.Marks

namespace Restructure

/-!
# Uses — where code reads and writes its locals

A scope's table is that of the scope in which instructions are simulated. Some code is simulated in
a scope of its own and then moved into another one: the alternatives of conditional values, the
tests that are joined to the first one, and the tests of loops. A use of a local tells whether it
stands at a place to which code is moved.

* `Use` — an occurrence of a local.
* `Expr.uses`, `Cond.uses`, `Place.uses`, `Stmt.uses` — the occurrences in a tree, those of a
  statement without the scopes that it owns.
* `Stmt.roundUses` — the occurrences that belong to the body of a loop.
* `Scope.scopes`, `Node.locals` — all scopes of a tree, and the locals that a node names by itself.
* `Cond.Normal.uses_negate`, `Cond.Normal.uses_all`, `Cond.Normal.uses_any` — building conditions
  keeps the order of the uses.
* `Expr.locals_nodes` — the locals of the nodes of a value are those of its uses.
-/

/-! ### Occurrences -/

/-- An occurrence of a local, and whether code is moved to its place from other scopes. -/
structure Use where
  v : Local
  moved : Bool
  deriving DecidableEq

/-- The occurrence in code that has been moved. -/
def Use.move (u : Use) : Use := { u with moved := true }

mutual

/-- The occurrences of locals in a value. Those in the alternatives of a conditional value are moved
    there. -/
def Expr.uses : Expr → (moved : Bool) → List Use
  | .const _, _ | .static _, _ => []
  | .var v, moved => [⟨v, moved⟩]
  | .increment v _ _, moved => [⟨v, moved⟩]
  | .field _ r, moved => r.uses moved
  | .element a i, moved => a.uses moved ++ i.uses moved
  | .length a, moved => a.uses moved
  | .binary _ l r, moved => l.uses moved ++ r.uses moved
  | .negate e, moved => e.uses moved
  | .cast _ e, moved => e.uses moved
  | .instanceOf _ e, moved => e.uses moved
  | .newArray _ n, moved => n.uses moved
  | .arrayOf _ n vs, moved => n.uses moved ++ Expr.allUses vs moved
  | .new _ _ args, moved => Expr.allUses args moved
  | .call _ r args, moved => r.uses moved ++ Expr.allUses args moved
  | .staticCall _ args, moved => Expr.allUses args moved
  | .ternary c a b, moved => c.uses moved ++ a.uses true ++ b.uses true
  | .compare _ l r, moved => l.uses moved ++ r.uses moved

/-- The occurrences of locals in values. -/
def Expr.allUses : List Expr → (moved : Bool) → List Use
  | [], _ => []
  | e :: es, moved => e.uses moved ++ Expr.allUses es moved

/-- The occurrences of locals in a condition. All its tests but the first are moved there. -/
def Cond.uses : Cond → (moved : Bool) → List Use
  | .test e _, moved => e.uses moved
  | .compare l _ r, moved => l.uses moved ++ r.uses moved
  | .not c, moved => c.uses moved
  | .and cs, moved => Cond.allUses cs moved
  | .or cs, moved => Cond.allUses cs moved

/-- The occurrences of locals in the operands of a condition. -/
def Cond.allUses : List Cond → (moved : Bool) → List Use
  | [], _ => []
  | c :: cs, moved => c.uses moved ++ Cond.allUses cs true

end

/-- The occurrences of locals in a destination. -/
def Place.uses : Place → (moved : Bool) → List Use
  | .var v, moved => [⟨v, moved⟩]
  | .field _ r, moved => r.uses moved
  | .static _, _ => []
  | .element a i, moved => a.uses moved ++ i.uses moved

/-- The value is a conditional value. -/
def Expr.isTernary : Expr → Bool
  | .ternary _ _ _ => true
  | _ => false

/-- The occurrences of locals in a statement, without the scopes that it owns: in the values and the
    destination that it evaluates by itself, and in its test. The destination of a conditional
    value can be moved, and the test and the last step of a loop belong to its rounds. -/
def Stmt.uses : Stmt → List Use
  | .assign t e => t.uses e.isTernary ++ e.uses false
  | .compound t _ e => t.uses false ++ e.uses false
  | .increment v _ => [⟨v, false⟩]
  | .eval e | .throw e | .ret (some e) => e.uses false
  | .ifElse c _ _ | .gotoIf c _ => c.uses false
  | .whileLoop c _ | .doWhile c _ => c.uses true
  | .forLoop init c update _ =>
    (match init with
      | none => []
      | some s => s.uses)
    ++ c.uses true
    ++ (match update with
      | none => []
      | some s => s.uses.map Use.move)
  | .switch key _ => key.uses false
  | .ret none | .breakOut | .continueLoop | .label _ | .goto _ => []

/-- The occurrences of locals in a loop that belong to its body: in the test of a `do` loop and in
    the last step of a counting loop. -/
def Stmt.roundUses : Stmt → List Use
  | .doWhile c _ => c.uses false
  | .forLoop _ _ (some s) _ => s.uses
  | _ => []

/-! ### Trees -/

/-- The locals that a node names by itself. -/
def Node.locals : Node → List Local
  | .expr (.var v) | .expr (.increment v _ _) => [v]
  | .stmt (.assign (.var v) _) | .stmt (.compound (.var v) _ _) | .stmt (.increment v _) => [v]
  | _ => []

/-- The scopes that a node owns. -/
def Node.scopes : Node → List Scope
  | .stmt s => s.scopes
  | _ => []

/-- The scope and all scopes in it. -/
def Scope.scopes (s : Scope) : List Scope := s :: s.nodes.flatMap Node.scopes

/-! ### Moved occurrences -/

mutual

/-- Moving a value moves all its occurrences. -/
theorem Expr.uses_true (b : Bool) : (e : Expr) → e.uses true = (e.uses b).map Use.move
  | .const _ | .static _ | .var _ | .increment _ _ _ => by simp [Expr.uses, Use.move]
  | .field _ e | .length e | .negate e | .cast _ e | .instanceOf _ e | .newArray _ e => by
    simp [Expr.uses, Expr.uses_true b e]
  | .element l r | .binary _ l r | .compare _ l r => by
    simp [Expr.uses, Expr.uses_true b l, Expr.uses_true b r]
  | .arrayOf _ e es | .call _ e es => by
    simp [Expr.uses, Expr.uses_true b e, Expr.allUses_true b es]
  | .new _ _ es | .staticCall _ es => by simp [Expr.uses, Expr.allUses_true b es]
  | .ternary c x y => by
    have hx := Expr.uses_true true x
    have hy := Expr.uses_true true y
    simp [Expr.uses, Cond.uses_true b c, ← hx, ← hy]

/-- In an arm all occurrences in a list of values are moved ones. -/
theorem Expr.allUses_true (b : Bool) :
    (es : List Expr) → Expr.allUses es true = (Expr.allUses es b).map Use.move
  | [] => rfl
  | e :: es => by simp [Expr.allUses, Expr.uses_true b e, Expr.allUses_true b es]

/-- Moving a condition moves all its occurrences. -/
theorem Cond.uses_true (b : Bool) : (c : Cond) → c.uses true = (c.uses b).map Use.move
  | .test e _ => by simp [Cond.uses, Expr.uses_true b e]
  | .compare l _ r => by simp [Cond.uses, Expr.uses_true b l, Expr.uses_true b r]
  | .not c => by simp [Cond.uses, Cond.uses_true b c]
  | .and cs | .or cs => by simp [Cond.uses, Cond.allUses_true b cs]

/-- In an arm all occurrences in a list of conditions are moved ones. -/
theorem Cond.allUses_true (b : Bool) :
    (cs : List Cond) → Cond.allUses cs true = (Cond.allUses cs b).map Use.move
  | [] => rfl
  | c :: cs => by
    have hcs := Cond.allUses_true true cs
    simp [Cond.allUses, Cond.uses_true b c, ← hcs]

end

/-! ### Joined and opposite conditions -/

namespace Cond

mutual

/-- The mirror image of a condition names what the condition names. -/
theorem uses_mirror (b : Bool) : (c : Cond) → c.mirror.uses b = c.uses b
  | .test _ _ | .compare _ _ _ => rfl
  | .not c => uses_mirror b c
  | .and cs | .or cs => by rw [mirror, uses, uses, allUses_mirrorAll b cs]

/-- The same for a list of conditions. -/
theorem allUses_mirrorAll (b : Bool) :
    (cs : List Cond) → allUses (mirrorAll cs) b = allUses cs b
  | [] => rfl
  | c :: cs => by rw [mirrorAll, allUses, allUses, uses_mirror b c, allUses_mirrorAll true cs]

end

variable {c d : Cond} {cs ds : List Cond} {b : Bool}

/-- Behind the first test of a condition all occurrences are moved ones. -/
theorem allUses_append (hcs : cs ≠ []) :
    allUses (cs ++ ds) b = allUses cs b ++ allUses ds true := by
  induction cs generalizing b with
  | nil => exact absurd rfl hcs
  | cons c cs ih =>
    cases cs with
    | nil => simp [allUses]
    | cons c' cs =>
      show c.uses b ++ allUses (c' :: cs ++ ds) true
        = (c.uses b ++ allUses (c' :: cs) true) ++ allUses ds true
      rw [ih (List.cons_ne_nil _ _), List.append_assoc]

/-- A conjunction names what its members name. -/
theorem uses_conjunction (cs : List Cond) : (conjunction cs).uses b = allUses cs b := by
  unfold conjunction
  split
  · simp [allUses]
  · rfl

/-- The operands of a condition name what the condition names. -/
theorem allUses_andOperands (c : Cond) : allUses c.andOperands b = c.uses b := by
  unfold andOperands
  split
  · rfl
  · simp [allUses]

/-- The negation of a normal condition names what the condition names. -/
theorem Normal.uses_negate (hc : c.Normal) : c.negate.uses b = c.uses b := by
  rw [hc.negate_eq_mirror, uses_mirror]

/-- In a conjunction the uses of the second condition are moved. -/
theorem Normal.uses_all (hc : c.Normal) (d : Cond) :
    (all [c, d]).uses b = c.uses b ++ d.uses true := by
  rw [all, uses_conjunction, List.flatMap_cons, List.flatMap_cons, List.flatMap_nil,
    List.append_nil, allUses_append hc.andOperands.1, allUses_andOperands, allUses_andOperands]

/-- A disjunction of two tests names what the tests name, the second one moved. -/
theorem Normal.uses_any (hc : c.Normal) (d : Cond) :
    (any [c, d]).uses b = c.uses b ++ d.uses true := by
  -- the mirror of a conjunction of mirrors
  rw [any_eq_mirror, uses_mirror]
  show (all [c.mirror, d.mirror]).uses b = _
  rw [hc.mirror.uses_all, uses_mirror, uses_mirror]

end Cond

/-! ### Occurrences and nodes -/

mutual

/-- The locals of the nodes of a value are those that occur in it. -/
theorem Expr.locals_nodes (b : Bool) :
    (e : Expr) → e.nodes.flatMap Node.locals = (e.uses b).map (·.v)
  | .const _ | .static _ | .var _ | .increment _ _ _ => by
    simp [Expr.nodes, Expr.uses, Node.locals]
  | .field _ e | .length e | .negate e | .cast _ e | .instanceOf _ e | .newArray _ e => by
    simp [Expr.nodes, Expr.uses, Node.locals, Expr.locals_nodes b e]
  | .element l r | .binary _ l r | .compare _ l r => by
    simp [Expr.nodes, Expr.uses, Node.locals, Expr.locals_nodes b l, Expr.locals_nodes b r]
  | .arrayOf _ e es | .call _ e es => by
    simp [Expr.nodes, Expr.uses, Node.locals, Expr.locals_nodes b e, Expr.locals_allNodes b es]
  | .new _ _ es | .staticCall _ es => by
    simp [Expr.nodes, Expr.uses, Node.locals, Expr.locals_allNodes b es]
  | .ternary c x y => by
    simp [Expr.nodes, Expr.uses, Node.locals, Cond.locals_nodes b c, Expr.locals_nodes true x,
      Expr.locals_nodes true y]

/-- The locals of the nodes of a list of values are those that occur in it. -/
theorem Expr.locals_allNodes (b : Bool) : (es : List Expr) →
    (Expr.allNodes es).flatMap Node.locals = (Expr.allUses es b).map (·.v)
  | [] => rfl
  | e :: es => by
    simp [Expr.allNodes, Expr.allUses, Expr.locals_nodes b e, Expr.locals_allNodes b es]

/-- The locals of the nodes of a condition are those that occur in it. -/
theorem Cond.locals_nodes (b : Bool) :
    (c : Cond) → c.nodes.flatMap Node.locals = (c.uses b).map (·.v)
  | .test e _ => by simp [Cond.nodes, Cond.uses, Node.locals, Expr.locals_nodes b e]
  | .compare l _ r => by
    simp [Cond.nodes, Cond.uses, Node.locals, Expr.locals_nodes b l, Expr.locals_nodes b r]
  | .not c => by simp [Cond.nodes, Cond.uses, Node.locals, Cond.locals_nodes b c]
  | .and cs | .or cs => by
    simp [Cond.nodes, Cond.uses, Node.locals, Cond.locals_allNodes b cs]

/-- The locals of the nodes of a list of conditions are those that occur in it. -/
theorem Cond.locals_allNodes (b : Bool) : (cs : List Cond) →
    (Cond.allNodes cs).flatMap Node.locals = (Cond.allUses cs b).map (·.v)
  | [] => rfl
  | c :: cs => by
    simp [Cond.allNodes, Cond.allUses, Cond.locals_nodes b c, Cond.locals_allNodes true cs]

end

end Restructure
