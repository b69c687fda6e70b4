import Restructure.Expr.Basic

namespace Restructure

/-!
# Statements and scopes — the imperative layer of recovered code

* `Place` — what can be assigned to; `Place.read` is the value that reads it.
* `Stmt`, `Scope`, `SwitchArm` — statements, the sequences that control statements own with
  their locals, and the arms of a switch.
* `Stmt.assignedLocal?` — the local that a statement writes, if it does nothing else.
* `Stmt.same`, `Scope.same` — equality of trees, literals being compared as numbers.
-/

/-! ### Destinations -/

/-- What can be assigned to. -/
inductive Place where
  | var (v : Local)
  | field (f : FieldRef) (receiver : Expr)
  | static (f : FieldRef)
  | element (array index : Expr)

namespace Place

/-- The value that reads the destination. -/
def read : Place → Expr
  | var v => .var v
  | field f r => .field f r
  | static f => .static f
  | element a i => .element a i

/-- The slot of a destination that is a local. -/
def slot? : Place → Option Nat
  | var v => some v.slot
  | _ => none

/-- The values evaluated to find the destination. -/
def operands : Place → List Expr
  | var _ | static _ => []
  | field _ r => [r]
  | element a i => [a, i]

/-- The destinations are the same tree. -/
def same : Place → Place → Bool
  | var v, var w => v == w
  | field f r, field g s => f == g && r.same s
  | static f, static g => f == g
  | element a i, element b j => a.same b && i.same j
  | _, _ => false

end Place

/-! ### The trees -/

/-- What a scope is the body of. -/
inductive ScopeKind where
  | block | arm | loop | method | switch
  deriving DecidableEq

/-- The kind's name in diagnostics. -/
def ScopeKind.name : ScopeKind → String
  | block => "Block"
  | arm => "If"
  | loop => "Loop"
  | method => "Method"
  | switch => "Switch"

mutual

/-- A statement. Labels and jumps appear only where no structured statement fits; their numbers
    are those of basic blocks. -/
inductive Stmt where
  | assign (target : Place) (value : Expr)
  | compound (target : Place) (op : BinaryOp) (value : Expr)
  | increment (v : Local) (amount : Int)
  | eval (value : Expr)
  | ret (value : Option Expr)
  | throw (value : Expr)
  | ifElse (test : Cond) (body : Scope) (orElse : Option Scope)
  | whileLoop (test : Cond) (body : Scope)
  | doWhile (test : Cond) (body : Scope)
  | forLoop (init : Option Stmt) (test : Cond) (update : Option Stmt) (body : Scope)
  | switch (key : Expr) (arms : List SwitchArm)
  | breakOut
  | continueLoop
  | label (block : Nat)
  | goto (block : Nat)
  | gotoIf (test : Cond) (block : Nat)

/-- A sequence of statements with the locals it can see. A locked scope no longer changes. -/
structure Scope where
  kind : ScopeKind
  locals : Locals
  stmts : List Stmt
  locked : Bool

/-- One arm of a switch: its keys, whether it is also taken when no key matches, and whether a
    jump behind the switch follows its statements. -/
structure SwitchArm where
  labels : List Int
  isDefault : Bool
  body : Scope
  breaks : Bool

end

namespace Stmt

/-! ### Questions about one statement -/

/-- The slot of the local that the statement writes, if it writes one and does nothing else. -/
def assignedLocal? : Stmt → Option Nat
  | assign t e => if e.hasEffects then none else t.slot?
  | compound t _ e => if e.hasEffects then none else t.slot?
  | increment v _ => some v.slot
  | _ => none

/-- Control never goes on behind the statement. -/
def isTerminal : Stmt → Bool
  | ret _ | throw _ | breakOut | continueLoop | goto _ => true
  | _ => false

end Stmt

/-! ### Equality -/

mutual

/-- The statements are the same tree. -/
def Stmt.same : Stmt → Stmt → Bool
  | .assign t e, .assign u f => t.same u && e.same f
  | .compound t o e, .compound u p f => t.same u && o == p && e.same f
  | .increment v n, .increment w m => v == w && n == m
  | .eval e, .eval f => e.same f
  | .ret none, .ret none => true
  | .ret (some e), .ret (some f) => e.same f
  | .throw e, .throw f => e.same f
  | .ifElse c b none, .ifElse d b' none => c.same d && b.same b'
  | .ifElse c b (some e), .ifElse d b' (some e') => c.same d && b.same b' && e.same e'
  | .whileLoop c b, .whileLoop d b' => c.same d && b.same b'
  | .doWhile c b, .doWhile d b' => c.same d && b.same b'
  | .forLoop i c u b, .forLoop i' d u' b' =>
    (match i, i' with
      | none, none => true
      | some s, some t => s.same t
      | _, _ => false)
    && c.same d
    && (match u, u' with
      | none, none => true
      | some s, some t => s.same t
      | _, _ => false)
    && b.same b'
  | .switch e as, .switch f bs => e.same f && SwitchArm.allSame as bs
  | .breakOut, .breakOut => true
  | .continueLoop, .continueLoop => true
  | .label n, .label m => n == m
  | .goto n, .goto m => n == m
  | .gotoIf c n, .gotoIf d m => c.same d && n == m
  | _, _ => false

/-- The lists hold the same statements. -/
def Stmt.allSame : List Stmt → List Stmt → Bool
  | [], [] => true
  | s :: ss, t :: ts => s.same t && Stmt.allSame ss ts
  | _, _ => false

/-- The scopes agree in kind, locals, statements and state. -/
def Scope.same : Scope → Scope → Bool
  | ⟨k, ls, ss, x⟩, ⟨k', ls', ss', x'⟩ => k == k' && ls == ls' && Stmt.allSame ss ss' && x == x'

/-- The lists hold the same arms. -/
def SwitchArm.allSame : List SwitchArm → List SwitchArm → Bool
  | [], [] => true
  | ⟨ks, d, b, x⟩ :: as, ⟨ks', d', b', x'⟩ :: bs =>
    ks == ks' && d == d' && b.same b' && x == x' && SwitchArm.allSame as bs
  | _, _ => false

end

end Restructure
