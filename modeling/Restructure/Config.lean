namespace Restructure

/-!
# Settings — which idioms are recovered

* `Config` — one switch per idiom, the behaviour on failure, and the longest chain of tests that
  is folded into one condition.
* `Config.literal` — the preset that stays closest to the bytecode.
-/

/-- What the recovery of structured code may do. -/
structure Config where
  /-- Work on several classes at once; answers do not depend on it. -/
  parallel : Bool := true
  /-- Collapse branches that produce a value into conditional expressions. -/
  ternaries : Bool := true
  /-- Turn counting loops into `for` loops. -/
  forLoops : Bool := true
  /-- Write `x = x op v` as `x op= v`. -/
  compoundAssignments : Bool := true
  /-- Fold a read and an increment of one local into an increment used as a value. -/
  increments : Bool := true
  /-- Write labels and jumps where no structured form fits. -/
  fallback : Bool := true
  /-- The most branch blocks folded into one condition. -/
  maxChain : Nat := 32
  deriving DecidableEq

namespace Config

/-- The default settings. -/
def default : Config := {}

/-- No idiom is recovered, and conditions are never folded. -/
def literal : Config where
  ternaries := false
  forLoops := false
  compoundAssignments := false
  increments := false
  maxChain := 1

/-- Sets the longest chain; it is at least 1. -/
def withMaxChain (c : Config) (n : Nat) : Config := { c with maxChain := max n 1 }

end Config

end Restructure
