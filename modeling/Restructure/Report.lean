import Restructure.Body
import Restructure.Hierarchy

namespace Restructure

/-!
# Reports — the recovered methods of many classes

A method that fails does not stop the others; it is left out of its class and listed as a
failure. Methods do not depend on each other, so the order of work does not show.

* `Attempt` — a method with the outcome of its recovery.
* `Hierarchy.ofClasses` — what the classes tell about each other.
* `Report.ofClasses` — the report of a list of classes.
-/

/-- A recovered method. -/
structure RecoveredMethod where
  name : String
  descriptor : String
  body : Scope
  fallback : Bool

/-- The recovered methods of a class in the order of declaration. -/
structure RecoveredClass where
  name : String
  methods : List RecoveredMethod

/-- A method that could not be recovered. -/
structure MethodFailure where
  className : String
  method : String
  descriptor : String
  error : Error

/-- The order of failures: by class, then by method, then by descriptor. -/
def MethodFailure.le (a b : MethodFailure) : Bool :=
  if a.className = b.className then
    if a.method = b.method then a.descriptor ≤ b.descriptor else a.method ≤ b.method
  else a.className ≤ b.className

/-- A method with the outcome of its recovery. -/
structure Attempt where
  method : Method
  outcome : Except Error RecoveredBody

namespace Attempt

/-- The recovered method, if the attempt succeeded. -/
def recovered? (a : Attempt) : Option RecoveredMethod :=
  match a.outcome with
  | .ok b => some ⟨a.method.name, a.method.descriptor, b.body, b.fallback⟩
  | .error _ => none

/-- The failure of a method of the given class, if the attempt failed. -/
def failure? (className : String) (a : Attempt) : Option MethodFailure :=
  match a.outcome with
  | .ok _ => none
  | .error e => some ⟨className, a.method.name, a.method.descriptor, e⟩

end Attempt

namespace ClassFile

/-- The outcomes of the methods in the order of declaration. -/
def attempts (config : Config) (k : ClassFile) : List Attempt :=
  k.methods.map fun m => ⟨m, m.recover config⟩

/-- What is known about the class. -/
def symbols (k : ClassFile) : ClassSymbols where
  name := k.name
  superName := k.superName
  methods := k.methods.map fun m => (m.name, m.descriptor)

end ClassFile

/-- The hierarchy of the given classes. -/
def Hierarchy.ofClasses (ks : List ClassFile) : Hierarchy := .ofList (ks.map ClassFile.symbols)

/-- The outcome for a list of classes: the classes in their order, and the sorted failures. -/
structure Report where
  classes : List RecoveredClass
  failures : List MethodFailure

namespace Report

/-- The report of recovered classes and of failures that arrived in some order. -/
def collect (classes : List RecoveredClass) (arrivals : List MethodFailure) : Report where
  classes := classes
  failures := arrivals.mergeSort MethodFailure.le

/-- Recovers every method of every class. -/
def ofClasses (config : Config) (ks : List ClassFile) : Report :=
  let tried := ks.map fun k => (k.name, k.attempts config)
  collect (tried.map fun t => ⟨t.1, t.2.filterMap Attempt.recovered?⟩)
    (tried.flatMap fun t => t.2.filterMap (Attempt.failure? t.1))

variable (r : Report)

/-- The recovered methods of all classes. -/
def methods : List RecoveredMethod := r.classes.flatMap (·.methods)

/-- No method failed. -/
def isComplete : Bool := r.failures.isEmpty

/-- The number of methods without labels and jumps. -/
def structuredCount : Nat := r.methods.countP (!·.fallback)

/-- The number of methods with labels and jumps. -/
def fallbackCount : Nat := r.methods.countP (·.fallback)

/-- The recovered method with the given name and descriptor, in the first class of its name. -/
def method? (className name descriptor : String) : Option RecoveredMethod := do
  let k ← r.classes.find? (·.name == className)
  k.methods.find? fun m => m.name == name && m.descriptor == descriptor

end Report

end Restructure
