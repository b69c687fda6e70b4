import Restructure.Error

namespace Restructure.Scope

/-!
# Changing scopes — statements and locals of an open scope

Statements are appended to an open scope, the last one can be taken back, and locals can be
declared. Locking ends all this; a locked scope refuses every change, and nothing opens it again
except a copy.
-/

/-! ### Creation -/

/-- An open scope without statements that sees the given locals. -/
def withLocals (kind : ScopeKind) (locals : Locals) : Scope where
  kind := kind
  locals := locals
  stmts := []
  locked := false

/-- An open scope without statements and locals. -/
def new (kind : ScopeKind) : Scope := withLocals kind Locals.empty

/-- An open scope without statements that sees the locals of this one. -/
def child (s : Scope) (kind : ScopeKind) : Scope := withLocals kind s.locals

/-- The same scope, open. -/
def reopened (s : Scope) : Scope := { s with locked := false }

/-! ### Questions -/

/-- The number of statements. -/
def size (s : Scope) : Nat := s.stmts.length

/-- The scope has no statements. -/
def isEmpty (s : Scope) : Bool := s.stmts.isEmpty

/-- The last statement. -/
def last? (s : Scope) : Option Stmt := s.stmts.getLast?

/-- The statement at a position. -/
def stmt? (s : Scope) (i : Nat) : Option Stmt := s.stmts[i]?

/-! ### Changes -/

/-- The scope as it is, if it is open. -/
def ifOpen (s : Scope) (change : ScopeChange) : Except Error Scope :=
  if s.locked then .error (.lockedScope change s.kind) else .ok s

/-- Adds a statement at the end. -/
def append (s : Scope) (stmt : Stmt) : Except Error Scope :=
  (s.ifOpen .append).map fun s => { s with stmts := s.stmts ++ [stmt] }

/-- Takes the last statement away. -/
def pop (s : Scope) : Except Error (Stmt × Scope) :=
  match s.ifOpen .pop with
  | .error e => .error e
  | .ok s =>
    match s.stmts.getLast? with
    | some stmt => .ok (stmt, { s with stmts := s.stmts.dropLast })
    | none => .error (.emptyScope s.kind)

/-- Binds a slot. -/
def declare (s : Scope) (v : Local) : Except Error Scope :=
  (s.ifOpen .declare).map fun s => { s with locals := s.locals.declare v }

/-- Ends all changes. -/
def lock (s : Scope) : Except Error Scope :=
  (s.ifOpen .lock).map fun s => { s with locked := true }

end Restructure.Scope
