import Restructure.Descriptor

namespace Restructure

/-!
# Class hierarchy — the known classes and their superclasses

* `ClassSymbols` — a class with its superclass and its methods.
* `Hierarchy` — the known classes, one for every name; a later one replaces an earlier one.
* `Hierarchy.isAssignable` — a value of one type may stand where another is expected, as far as
  superclasses tell. Interfaces are not followed.
-/

/-- What is known about a class. -/
structure ClassSymbols where
  name : String
  superName : Option String
  methods : List (String × String)
  deriving DecidableEq

/-- The known classes. -/
structure Hierarchy where
  classes : List ClassSymbols

namespace Hierarchy

/-- No class is known. -/
def empty : Hierarchy := ⟨[]⟩

/-- The class with the given internal name. -/
def find? (h : Hierarchy) (name : String) : Option ClassSymbols :=
  h.classes.find? (·.name == name)

/-- Makes a class known, in place of another one of its name. -/
def insert (h : Hierarchy) (c : ClassSymbols) : Hierarchy :=
  ⟨h.classes.filter (·.name != c.name) ++ [c]⟩

/-- The hierarchy of the given classes. -/
def ofList (cs : List ClassSymbols) : Hierarchy := cs.foldl insert empty

/-- The number of known classes. -/
def size (h : Hierarchy) : Nat := h.classes.length

/-- No class is known. -/
def isEmpty (h : Hierarchy) : Bool := h.classes.isEmpty

/-- The class that an object descriptor names. -/
def internalName? (d : String) : Option String :=
  match d.toList with
  | 'L' :: rest => if rest.getLast? = some ';' then some (String.ofList rest.dropLast) else none
  | _ => none

/-- Up to `fuel` superclass links through known classes lead from `name` to `target`. -/
def inherits (h : Hierarchy) : (fuel : Nat) → (name target : String) → Bool
  | 0, _, _ => false
  | fuel + 1, name, target =>
    match (h.find? name).bind (·.superName) with
    | none => false
    | some parent => parent == target || h.inherits fuel parent target

/-- A value of type `source` may be used where `target` is expected. A chain of superclasses
    that does not repeat itself has at most as many links as there are classes. -/
def isAssignable (h : Hierarchy) (source target : String) : Bool :=
  if source = target then true
  else if target = Descriptor.root then Descriptor.isReference source
  else
    match internalName? source, internalName? target with
    | some a, some b => h.inherits (h.size + 1) a b
    | _, _ => false

end Hierarchy

end Restructure
