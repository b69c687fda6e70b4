import Restructure.Constant
import Restructure.Operator
import Restructure.Locals

namespace Restructure

/-!
# Expressions and conditions — the values and tests of recovered code

* `Expr` — values: literals, reads, arithmetic, constructions, calls, conditional expressions
  and increments used as values.
* `Cond` — tests that come from control flow, with short-circuit conjunction and disjunction
  over any number of operands.
* `Expr.type` — the descriptor of a value's type.
* `Expr.hasEffects`, `Expr.reads` — whether evaluating a value may change anything, and whether
  it reads a given local; `Cond.hasEffects` and `Cond.reads` likewise.
-/

/-! ### References -/

/-- A field by its owner's internal name, its name and its type. -/
structure FieldRef where
  owner : String
  name : String
  type : String
  deriving DecidableEq

/-- A method by its owner's internal name, its name and its descriptor. -/
structure MethodRef where
  owner : String
  name : String
  descriptor : String
  deriving DecidableEq

/-- The type of the method's result. -/
def MethodRef.result (m : MethodRef) : String := MethodType.resultOf m.descriptor

/-- The method's parameters and result. -/
def MethodRef.parse (m : MethodRef) : Except DescriptorFault MethodType :=
  MethodType.parse m.descriptor

/-! ### The trees -/

mutual

/-- A value. -/
inductive Expr where
  | const (value : Constant)
  | var (v : Local)
  | field (f : FieldRef) (receiver : Expr)
  | static (f : FieldRef)
  | element (array index : Expr)
  | length (array : Expr)
  | binary (op : BinaryOp) (left right : Expr)
  | negate (value : Expr)
  | cast (type : String) (value : Expr)
  | instanceOf (type : String) (value : Expr)
  | newArray (elementType : String) (size : Expr)
  | arrayOf (elementType : String) (size : Expr) (values : List Expr)
  | new (type constructor : String) (args : List Expr)
  | call (m : MethodRef) (receiver : Expr) (args : List Expr)
  | staticCall (m : MethodRef) (args : List Expr)
  | ternary (test : Cond) (onTrue onFalse : Expr)
  | compare (kind : ThreeWay) (left right : Expr)
  | increment (v : Local) (amount : Int) (before : Bool)

/-- A test. The operands of a conjunction or disjunction are in the order of evaluation. -/
inductive Cond where
  | test (value : Expr) (inverse : Bool)
  | compare (left : Expr) (r : Relation) (right : Expr)
  | not (c : Cond)
  | and (cs : List Cond)
  | or (cs : List Cond)

end

/-- A value to fall back on. -/
instance : Inhabited Expr := ⟨.const .null⟩
/-- A condition to fall back on. -/
instance : Inhabited Cond := ⟨.and []⟩

namespace Expr

/-- An `int` literal. -/
def int (n : Int) : Expr := .const (.int n)

/-! ### Types -/

/-- The type of a value. An operator has the type of its left operand and a conditional
    expression that of its first alternative, without promotion. -/
def type : Expr → String
  | const c => c.type
  | var v => v.type
  | field f _ => f.type
  | static f => f.type
  | element a _ => (Descriptor.elementOf? a.type).getD Descriptor.root
  | length _ => Descriptor.int
  | binary _ l _ => l.type
  | negate e => e.type
  | cast t _ => t
  | instanceOf _ _ => Descriptor.boolean
  | newArray t _ => Descriptor.arrayOf t
  | arrayOf t _ _ => Descriptor.arrayOf t
  | new t _ _ => t
  | call m _ _ => m.result
  | staticCall m _ => m.result
  | ternary _ a _ => a.type
  | compare _ _ _ => Descriptor.int
  | increment v _ _ => v.type

/-- The types of a conditional expression's alternatives, if it is one and they differ. -/
def typeConflict : Expr → Option (String × String)
  | ternary _ a b => if a.type = b.type then none else some (a.type, b.type)
  | _ => none

end Expr

/-! ### Effects -/

mutual

/-- Evaluating the value may have effects: it holds a call, a construction of an object or an
    increment. Reads of fields and of array elements count as pure. -/
def Expr.hasEffects : Expr → Bool
  | .const _ | .var _ | .static _ => false
  | .call _ _ _ | .staticCall _ _ | .new _ _ _ | .increment _ _ _ => true
  | .field _ r => r.hasEffects
  | .element a i => a.hasEffects || i.hasEffects
  | .length a => a.hasEffects
  | .binary _ l r => l.hasEffects || r.hasEffects
  | .negate e => e.hasEffects
  | .cast _ e => e.hasEffects
  | .instanceOf _ e => e.hasEffects
  | .newArray _ n => n.hasEffects
  | .arrayOf _ n vs => n.hasEffects || Expr.anyHasEffects vs
  | .ternary c a b => c.hasEffects || a.hasEffects || b.hasEffects
  | .compare _ l r => l.hasEffects || r.hasEffects

/-- Some of the values may have effects. -/
def Expr.anyHasEffects : List Expr → Bool
  | [] => false
  | e :: es => e.hasEffects || Expr.anyHasEffects es

/-- Evaluating the test may have effects. -/
def Cond.hasEffects : Cond → Bool
  | .test e _ => e.hasEffects
  | .compare l _ r => l.hasEffects || r.hasEffects
  | .not c => c.hasEffects
  | .and cs => Cond.anyHasEffects cs
  | .or cs => Cond.anyHasEffects cs

/-- Some of the tests may have effects. -/
def Cond.anyHasEffects : List Cond → Bool
  | [] => false
  | c :: cs => c.hasEffects || Cond.anyHasEffects cs

end

/-! ### Reads of locals -/

mutual

/-- The value reads or increments the local in `slot`. -/
def Expr.reads (slot : Nat) : Expr → Bool
  | .const _ | .static _ => false
  | .var v => v.slot == slot
  | .increment v _ _ => v.slot == slot
  | .field _ r => r.reads slot
  | .element a i => a.reads slot || i.reads slot
  | .length a => a.reads slot
  | .binary _ l r => l.reads slot || r.reads slot
  | .negate e => e.reads slot
  | .cast _ e => e.reads slot
  | .instanceOf _ e => e.reads slot
  | .newArray _ n => n.reads slot
  | .arrayOf _ n vs => n.reads slot || Expr.anyReads slot vs
  | .new _ _ args => Expr.anyReads slot args
  | .call _ r args => r.reads slot || Expr.anyReads slot args
  | .staticCall _ args => Expr.anyReads slot args
  | .ternary c a b => c.reads slot || a.reads slot || b.reads slot
  | .compare _ l r => l.reads slot || r.reads slot

/-- Some of the values read the local. -/
def Expr.anyReads (slot : Nat) : List Expr → Bool
  | [] => false
  | e :: es => e.reads slot || Expr.anyReads slot es

/-- The test reads or increments the local in `slot`. -/
def Cond.reads (slot : Nat) : Cond → Bool
  | .test e _ => e.reads slot
  | .compare l _ r => l.reads slot || r.reads slot
  | .not c => c.reads slot
  | .and cs => Cond.anyReads slot cs
  | .or cs => Cond.anyReads slot cs

/-- Some of the tests read the local. -/
def Cond.anyReads (slot : Nat) : List Cond → Bool
  | [] => false
  | c :: cs => c.reads slot || Cond.anyReads slot cs

end

/-! ### Equality -/

mutual

/-- The values are the same tree, floating point literals being compared as numbers. -/
def Expr.same : Expr → Expr → Bool
  | .const a, .const b => a.same b
  | .var v, .var w => v == w
  | .field f r, .field g s => f == g && r.same s
  | .static f, .static g => f == g
  | .element a i, .element b j => a.same b && i.same j
  | .length a, .length b => a.same b
  | .binary o l r, .binary p m s => o == p && l.same m && r.same s
  | .negate e, .negate e' => e.same e'
  | .cast t e, .cast u e' => t == u && e.same e'
  | .instanceOf t e, .instanceOf u e' => t == u && e.same e'
  | .newArray t n, .newArray u m => t == u && n.same m
  | .arrayOf t n vs, .arrayOf u m ws => t == u && n.same m && Expr.allSame vs ws
  | .new t k as, .new u l bs => t == u && k == l && Expr.allSame as bs
  | .call m r as, .call n s bs => m == n && r.same s && Expr.allSame as bs
  | .staticCall m as, .staticCall n bs => m == n && Expr.allSame as bs
  | .ternary c a b, .ternary c' a' b' => c.same c' && a.same a' && b.same b'
  | .compare k l r, .compare j m s => k == j && l.same m && r.same s
  | .increment v n p, .increment w m q => v == w && n == m && p == q
  | _, _ => false

/-- The lists are equally long and hold the same values. -/
def Expr.allSame : List Expr → List Expr → Bool
  | [], [] => true
  | a :: as, b :: bs => a.same b && Expr.allSame as bs
  | _, _ => false

/-- The tests are the same tree. -/
def Cond.same : Cond → Cond → Bool
  | .test e i, .test e' j => e.same e' && i == j
  | .compare l o r, .compare m p s => l.same m && o == p && r.same s
  | .not c, .not d => c.same d
  | .and cs, .and ds => Cond.allSame cs ds
  | .or cs, .or ds => Cond.allSame cs ds
  | _, _ => false

/-- The lists are equally long and hold the same tests. -/
def Cond.allSame : List Cond → List Cond → Bool
  | [], [] => true
  | c :: cs, d :: ds => c.same d && Cond.allSame cs ds
  | _, _ => false

end

end Restructure
