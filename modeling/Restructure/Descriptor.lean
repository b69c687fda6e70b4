namespace Restructure

/-!
# Type descriptors — the encoded names of types

A field descriptor is any number of `[` followed by one of the eight primitive letters or by
`L`, a name and `;`. A method descriptor is `(`, the parameters' descriptors, `)` and the
descriptor of the result, which may also be `V`. Descriptors are kept as texts: the bodies
under study may carry ones that do not follow the grammar.

* `Descriptor.splitField` — the first field descriptor of a text and what follows it.
* `Descriptor.validate` — the text is one field descriptor and nothing else.
* `MethodType.parse` — the parameters and the result of a method descriptor.
* `Descriptor.sourceName` — the type's name as source code writes it.
-/

/-- How a text fails to be a descriptor. -/
inductive DescriptorFault where
  | truncated (rest : String)
  | unterminatedObject (rest : String)
  | invalidCharacter (c : Char) (rest : String)
  | trailing (descriptor : String)
  | noOpening (descriptor : String)
  | noClosing (descriptor : String)
  deriving DecidableEq

namespace Descriptor

/-! ### Well-known descriptors -/

/-- The type `int`. -/
def int : String := "I"

/-- The type `long`. -/
def long : String := "J"

/-- The type `float`. -/
def float : String := "F"

/-- The type `double`. -/
def double : String := "D"

/-- The type `boolean`. -/
def boolean : String := "Z"

/-- No result. -/
def void : String := "V"

/-- The class of strings. -/
def string : String := "Ljava/lang/String;"

/-- The class of class objects. -/
def classObject : String := "Ljava/lang/Class;"

/-- The root of all classes, which is also the type of the null reference. -/
def root : String := "Ljava/lang/Object;"

/-! ### Building and taking apart -/

/-- The array of elements of the given type. -/
def arrayOf (element : String) : String := "[" ++ element

/-- The element type of an array type. -/
def elementOf? (d : String) : Option String :=
  match d.toList with
  | '[' :: element => some (String.ofList element)
  | _ => none

/-- The object type of the class with the given internal name. -/
def object (name : String) : String := "L" ++ name ++ ";"

/-- The type is an array. -/
def isArray (d : String) : Bool := d.toList.head? == some '['

/-- The type named by a class operand: an internal name, or an array descriptor as it is. -/
def classRef (operand : String) : String :=
  if isArray operand then operand else object operand

/-- The type is an object or an array. -/
def isReference (d : String) : Bool := d.toList.head? == some 'L' || isArray d

/-- The type takes two slots of a frame. -/
def isWide (d : String) : Bool := d == long || d == double

/-! ### Source names -/

/-- The text of an object descriptor's class; any other text is its own class. -/
def className (cs : List Char) : List Char :=
  match cs with
  | 'L' :: rest => if rest.getLast? = some ';' then rest.dropLast else cs
  | _ => cs

/-- The source name of a descriptor given as characters. -/
def sourceChars : List Char → List Char
  | '[' :: element => sourceChars element ++ ['[', ']']
  | ['B'] => "byte".toList
  | ['C'] => "char".toList
  | ['D'] => "double".toList
  | ['F'] => "float".toList
  | ['I'] => "int".toList
  | ['J'] => "long".toList
  | ['S'] => "short".toList
  | ['Z'] => "boolean".toList
  | ['V'] => "void".toList
  | cs => (className cs).map fun c => if c = '/' then '.' else c

/-- The type's name in source code: dotted class names, and `[]` behind an element type. -/
def sourceName (d : String) : String := String.ofList (sourceChars d.toList)

/-- The source name of the class with the given internal name. -/
def classSourceName (name : String) : String := sourceName (object name)

/-! ### Validation -/

/-- The letters of the primitive types. -/
def isPrimitive (c : Char) : Bool :=
  c == 'B' || c == 'C' || c == 'D' || c == 'F' || c == 'I' || c == 'J' || c == 'S' || c == 'Z'

/-- Why no field descriptor starts a text. -/
inductive SplitFault where
  | truncated
  | unterminatedObject
  | invalidCharacter (c : Char)
  deriving DecidableEq

/-- The first field descriptor of a text and the text behind it. -/
def splitField : List Char → Except SplitFault (List Char × List Char)
  | [] => .error .truncated
  | '[' :: rest =>
    match splitField rest with
    | .ok (d, tail) => .ok ('[' :: d, tail)
    | .error e => .error e
  | 'L' :: rest =>
    match rest.takeWhile (· ≠ ';'), rest.dropWhile (· ≠ ';') with
    | c :: name, semicolon :: tail => .ok ('L' :: c :: name ++ [semicolon], tail)
    | _, _ => .error .unterminatedObject
  | c :: rest => if isPrimitive c then .ok ([c], rest) else .error (.invalidCharacter c)

/-- What follows a field descriptor is shorter than the text. -/
theorem length_lt_of_splitField {cs d tail : List Char} (h : splitField cs = .ok (d, tail)) :
    tail.length < cs.length := by
  fun_induction splitField cs generalizing d tail with
  | case1 => simp at h
  | case2 rest d' tail' hr ih =>
    obtain ⟨rfl, rfl⟩ : '[' :: d' = d ∧ tail' = tail := by simpa using h
    simpa using Nat.lt_succ_of_lt (ih hr)
  | case3 => simp at h
  | case4 rest c name semicolon tail' ht hn =>
    obtain ⟨rfl, rfl⟩ : 'L' :: c :: name ++ [semicolon] = d ∧ tail' = tail := by simpa using h
    have := (List.dropWhile_sublist (l := rest) (· ≠ ';')).length_le
    rw [ht] at this
    simp only [List.length_cons] at this ⊢
    omega
  | case5 => simp at h
  | case6 c rest =>
    obtain ⟨rfl, rfl⟩ : [c] = d ∧ rest = tail := by simpa using h
    simp
  | case7 => simp at h

/-- The fault with the text that it was found in. -/
def SplitFault.within (e : SplitFault) (cs : List Char) : DescriptorFault :=
  match e with
  | .truncated => .truncated (String.ofList cs)
  | .unterminatedObject => .unterminatedObject (String.ofList cs)
  | .invalidCharacter c => .invalidCharacter c (String.ofList cs)

/-- The text is exactly one field descriptor. -/
def validateChars (cs : List Char) : Except DescriptorFault Unit :=
  match splitField cs with
  | .error e => .error (e.within cs)
  | .ok (_, []) => .ok ()
  | .ok (_, _ :: _) => .error (.trailing (String.ofList cs))

/-- The text is exactly one field descriptor. -/
def validate (d : String) : Except DescriptorFault Unit := validateChars d.toList

/-- The field descriptors that a text consists of. A fault names the text from the faulty
    descriptor on. -/
def splitFields (cs : List Char) : Except DescriptorFault (List String) :=
  match cs with
  | [] => .ok []
  | c :: rest =>
    match _h : splitField (c :: rest) with
    | .error e => .error (e.within (c :: rest))
    | .ok (d, tail) =>
      match splitFields tail with
      | .ok ds => .ok (String.ofList d :: ds)
      | .error e => .error e
termination_by cs.length
decreasing_by exact length_lt_of_splitField _h

end Descriptor

/-! ### Method descriptors -/

/-- The parameters and the result of a method. -/
structure MethodType where
  params : List String
  result : String
  deriving DecidableEq

namespace MethodType

/-- Reads a method descriptor. The parameters end at the first closing parenthesis. -/
def parse (descriptor : String) : Except DescriptorFault MethodType :=
  match descriptor.toList with
  | '(' :: inner =>
    match inner.dropWhile (· ≠ ')') with
    | [] => .error (.noClosing descriptor)
    | _ :: result =>
      match Descriptor.splitFields (inner.takeWhile (· ≠ ')')) with
      | .error e => .error e
      | .ok params =>
        if result = ['V'] then .ok ⟨params, Descriptor.void⟩
        else
          match Descriptor.validateChars result with
          | .error e => .error e
          | .ok _ => .ok ⟨params, String.ofList result⟩
  | _ => .error (.noOpening descriptor)

/-- The method returns nothing. -/
def returnsVoid (m : MethodType) : Bool := m.result == Descriptor.void

/-- The result named by a text taken for a method descriptor: all behind its last closing
    parenthesis, or the root class if it has none. -/
def resultOf (descriptor : String) : String :=
  let behind := descriptor.toList.reverse.takeWhile (· ≠ ')')
  if behind.length = descriptor.toList.length then Descriptor.root
  else String.ofList behind.reverse

end MethodType

namespace DescriptorFault

/-- The first byte of the character's UTF-8 form, as a character. -/
def leadByte (c : Char) : Char :=
  let n := c.toNat
  if n < 0x80 then c
  else if n < 0x800 then Char.ofNat (0xc0 + n / 0x40)
  else if n < 0x10000 then Char.ofNat (0xe0 + n / 0x1000)
  else Char.ofNat (0xf0 + n / 0x40000)

/-- The wording of a fault. A character beyond ASCII is named by its first byte. -/
def message : DescriptorFault → String
  | truncated rest => s!"truncated descriptor '{rest}'"
  | unterminatedObject rest => s!"unterminated object descriptor '{rest}'"
  | invalidCharacter c rest => s!"invalid descriptor character '{leadByte c}' in '{rest}'"
  | trailing d => s!"trailing characters in descriptor '{d}'"
  | noOpening d => s!"method descriptor '{d}' must start with '('"
  | noClosing d => s!"method descriptor '{d}' has no ')'"

end DescriptorFault

end Restructure
