import Restructure.Proofs.Simulation.Moves
import Restructure.Stmt.Visit

namespace Restructure

/-!
# Products — what becomes of calls, increments and arrays in a simulation

An invocation brings one call into the recovered code, an increment of a local one increment, and
the creation of an array one construction. Copies of entries bring more of them, and what a step
leaves out is lost: a run accounts for all.

* `Product`, `Node.brings`, `Insn.brings` — the nodes and the instructions of interest.
* `Simulation.Turn.copied`, `Simulation.Turn.leftOut` — what a step writes twice, and what it
  leaves out.
* `Simulation.accounts_of_turned` — a run neither makes nor loses anything else.
* `Simulation.effects_of_run`, `Simulation.arrays_of_run` — the accounts of effects and of arrays.
-/

/-! ### Nodes and instructions of interest -/

/-- The nodes of an entry; an object whose constructor has not run has none. -/
def Operand.nodes : Operand → List Node
  | .value e => e.nodes
  | .uninitialized _ => []

/-- The nodes of the statements and of the values that wait behind them. -/
def Simulation.nodes (m : Simulation) : List Node :=
  Stmt.allNodes m.scope.stmts ++ m.stack.flatMap Operand.nodes

/-- What an instruction may bring into a tree. -/
inductive Product where
  | call
  | increment
  | array

/-- The product has effects when it is evaluated. -/
def Product.isEffect : Product → Bool
  | call | increment => true
  | array => false

/-- The product is an array. -/
def Product.isArray : Product → Bool
  | array => true
  | call | increment => false

/-- The product that a node is. A constructor call counts as a call. -/
def Node.product? : Node → Option Product
  | .expr (.call _ _ _) | .expr (.staticCall _ _) | .expr (.new _ _ _) => some .call
  | .expr (.increment _ _ _) | .stmt (.increment _ _) => some .increment
  | .expr (.newArray _ _) | .expr (.arrayOf _ _ _) => some .array
  | _ => none

/-- The product that an instruction brings. -/
def Insn.product? : Insn → Option Product
  | .invoke _ _ => some .call
  | .increment _ _ => some .increment
  | .newArray _ => some .array
  | _ => none

variable (Q : Product → Bool)

/-- The node is a product of the kind `Q`. -/
def Node.brings (n : Node) : Bool := n.product?.any Q

/-- The instruction brings a product of the kind `Q`. -/
def Insn.brings (i : Insn) : Bool := i.product?.any Q

/-- The number of products of the kind `Q` in a value. -/
def Expr.made (e : Expr) : Nat := e.nodes.countP (Node.brings Q)

/-- The number of products of the kind `Q` in values. -/
def Expr.allMade (es : List Expr) : Nat := (Expr.allNodes es).countP (Node.brings Q)

/-- The number of products of the kind `Q` in an entry. -/
def Operand.made (o : Operand) : Nat := o.nodes.countP (Node.brings Q)

/-- The number of products of the kind `Q` on a stack. -/
def Operands.made (st : Operands) : Nat := (st.flatMap Operand.nodes).countP (Node.brings Q)

/-- The number of products of the kind `Q` in statements. -/
def Stmt.allMade (ss : List Stmt) : Nat := (Stmt.allNodes ss).countP (Node.brings Q)

/-! ### Counting -/

variable {Q}

/-- Counting along a list, with the test as a number. -/
theorem countP_cons_toNat {α : Type} (p : α → Bool) (a : α) (l : List α) :
    (a :: l).countP p = l.countP p + (p a).toNat := by
  cases h : p a <;> simp [h]

namespace Expr

/-- No values make nothing. -/
@[simp] theorem allMade_nil : allMade Q [] = 0 := rfl

/-- The products of the first value are counted with those of the others. -/
@[simp] theorem allMade_cons (e : Expr) (es : List Expr) :
    allMade Q (e :: es) = e.made Q + allMade Q es := by
  rw [allMade, allNodes, List.countP_append]
  rfl

/-- The products of two lists are added. -/
@[simp] theorem allMade_append (es fs : List Expr) :
    allMade Q (es ++ fs) = allMade Q es + allMade Q fs := by
  induction es with
  | nil => rw [List.nil_append, allMade_nil, Nat.zero_add]
  | cons e es ih => rw [List.cons_append, allMade_cons, allMade_cons, ih, Nat.add_assoc]

/-- The order of the values does not matter. -/
@[simp] theorem allMade_reverse (es : List Expr) : allMade Q es.reverse = allMade Q es := by
  induction es with
  | nil => rfl
  | cons e es ih =>
    rw [List.reverse_cons, allMade_append, ih, allMade_cons, allMade_cons, allMade_nil]
    omega

/-- The products in a value are those in its parts, and the value may be one itself. -/
theorem made_of_nodes {e : Expr} {ns : List Node} (h : e.nodes = .expr e :: ns) :
    e.made Q = ns.countP (Node.brings Q) + (Node.brings Q (.expr e)).toNat := by
  rw [made, h, countP_cons_toNat]

/-- A value without parts that is no product. -/
theorem made_leaf {e : Expr} (hnodes : e.nodes = [.expr e]) (h : Node.product? (.expr e) = none) :
    e.made Q = 0 := by
  rw [made_of_nodes hnodes, Node.brings, h]
  rfl

/-- A constant makes nothing. -/
@[simp] theorem made_const (c : Constant) : (const c).made Q = 0 := made_leaf rfl rfl

/-- The default of a type makes nothing. -/
@[simp] theorem made_defaultOf (t : String) : (defaultOf t).made Q = 0 := made_const _

/-- Reading a static field makes nothing. -/
@[simp] theorem made_static (f : FieldRef) : (static f).made Q = 0 := made_leaf rfl rfl

/-- Reading a local makes nothing. -/
@[simp] theorem made_var (v : Local) : (var v).made Q = 0 := made_leaf rfl rfl

/-- An increment is made once. -/
@[simp] theorem made_increment (v : Local) (n : Int) (before : Bool) :
    (increment v n before).made Q = (Q .increment).toNat :=
  (made_of_nodes rfl).trans (Nat.zero_add _)

/-- A constructor call makes one call besides what its arguments make. -/
@[simp] theorem made_new (type constructor : String) (args : List Expr) :
    (new type constructor args).made Q = allMade Q args + (Q .call).toNat :=
  made_of_nodes (by rw [nodes])

/-- A call makes one besides what its receiver and its arguments make. -/
@[simp] theorem made_on (f : MethodRef) (args : List Expr) (receiver : Option Expr) :
    (f.on args receiver).made Q
      = allMade Q args + allMade Q receiver.toList + (Q .call).toNat := by
  cases receiver with
  | none => exact made_of_nodes (by rw [MethodRef.on, nodes])
  | some r =>
    rw [made_of_nodes (e := f.on args (some r)) (by rw [MethodRef.on, nodes]), List.countP_append,
      Option.toList_some, allMade_cons, allMade_nil, Nat.add_zero, Nat.add_comm (allMade Q args)]
    rfl

/-- Reading a place makes what its operands make. -/
@[simp] theorem made_read (target : Place) : target.read.made Q = allMade Q target.operands := by
  -- a local and a static field have no operands, the other two are the nodes above theirs
  cases target with
  | var v => exact made_var v
  | static f => exact made_static f
  | field f r =>
    rw [Place.read, made_of_nodes (e := .field f r) (by rw [nodes])]
    simp [Place.operands, allMade_cons, allMade_nil, made, Node.brings, Node.product?]
  | element a i =>
    rw [Place.read, made_of_nodes (e := .element a i) (by rw [nodes]), List.countP_append]
    simp [Place.operands, allMade_cons, allMade_nil, made, Node.brings, Node.product?]

/-- An operation on one value may make a new array. -/
theorem made_unary {insn : Insn} {f : Expr → Expr} (h : insn.unary? = some f) (e : Expr) :
    (f e).made Q = e.made Q + (insn.brings Q).toNat := by
  cases insn <;> cases h <;> exact made_of_nodes (by rw [nodes])

/-- An operator makes what its operands make. -/
theorem made_binary {insn : Insn} {f : Expr → Expr → Expr} (h : insn.binary? = some f)
    (l r : Expr) : (f l r).made Q = l.made Q + r.made Q := by
  cases insn <;> cases h <;>
    exact (made_of_nodes (by rw [nodes])).trans (by rw [List.countP_append]; rfl)

/-- Copies of a value that makes nothing make nothing. -/
theorem allMade_replicate {e : Expr} (he : e.made Q = 0) (n : Nat) :
    allMade Q (List.replicate n e) = 0 := by
  induction n with
  | zero => rfl
  | succ n ih => rw [List.replicate_succ, allMade_cons, he, ih]

/-- Another value in one place. -/
theorem allMade_set {es : List Expr} {i : Nat} (hi : i < es.length) (e : Expr) :
    allMade Q (es.set i e) + es[i].made Q = allMade Q es + e.made Q := by
  -- stated as a sum on both sides, since the old value need not be worth nothing
  induction es generalizing i with
  | nil => cases hi
  | cons d es ih =>
    cases i with
    | zero =>
      simp only [List.set_cons_zero, List.getElem_cons_zero, allMade_cons]
      omega
    | succ i =>
      have := ih (Nat.lt_of_succ_lt_succ hi)
      simp only [List.set_cons_succ, List.getElem_cons_succ, allMade_cons]
      omega

end Expr

namespace Stmt

/-- No statements make nothing. -/
@[simp] theorem allMade_nil : allMade Q [] = 0 := rfl

/-- The products of two pieces of code are added. -/
@[simp] theorem allMade_append (ss ts : List Stmt) :
    allMade Q (ss ++ ts) = allMade Q ss + allMade Q ts := by
  rw [allMade, allNodes_append, List.countP_append]
  rfl

/-- A value as a statement makes what the value makes. -/
@[simp] theorem allMade_eval (e : Expr) : allMade Q [.eval e] = e.made Q := by
  simp [allMade, allNodes, nodes, Expr.made, Node.brings, Node.product?]

/-- An increment as a statement is made once. -/
@[simp] theorem allMade_increment (v : Local) (n : Int) :
    allMade Q [.increment v n] = (Q .increment).toNat := by
  simp [allMade, allNodes, nodes, countP_cons_toNat, Node.brings, Node.product?]

/-- An assignment makes what its target and its value make. -/
theorem allMade_assign (target : Place) (e : Expr) :
    allMade Q [.assign target e] = Expr.allMade Q target.operands + e.made Q := by
  simp [allMade, allNodes, nodes, Expr.made, Expr.allMade, Node.brings, Node.product?]

/-- A compound assignment makes what its target and its value make. -/
theorem allMade_compound (target : Place) (op : BinaryOp) (e : Expr) :
    allMade Q [.compound target op e] = Expr.allMade Q target.operands + e.made Q := by
  simp [allMade, allNodes, nodes, Expr.made, Expr.allMade, Node.brings, Node.product?]

end Stmt

namespace Operands

/-- An empty stack makes nothing. -/
@[simp] theorem made_nil : Operands.made Q [] = 0 := rfl

/-- The products of the top are counted with those below. -/
@[simp] theorem made_cons (o : Operand) (st : Operands) :
    Operands.made Q (o :: st) = Operand.made Q o + Operands.made Q st := by
  rw [made, List.flatMap_cons, List.countP_append]
  rfl

/-- The products of two parts of the stack are added. -/
@[simp] theorem made_append (st st' : Operands) :
    Operands.made Q (st ++ st') = Operands.made Q st + Operands.made Q st' := by
  rw [made, List.flatMap_append, List.countP_append]
  rfl

/-- An entry with a value makes what the value makes. -/
@[simp] theorem made_value (e : Expr) : Operand.made Q (.value e) = e.made Q := rfl

/-- An object without its constructor call makes nothing yet. -/
@[simp] theorem made_uninitialized (t : String) : Operand.made Q (.uninitialized t) = 0 := rfl

/-- A stack of values makes what the values make. -/
@[simp] theorem made_map_value (es : List Expr) :
    Operands.made Q (es.map .value) = Expr.allMade Q es := by
  induction es with
  | nil => rfl
  | cons e es ih => rw [List.map_cons, made_cons, ih, made_value, Expr.allMade_cons]

/-- Arguments on the stack make what they make as a list. -/
@[simp] theorem made_ofArgs (es : List Expr) : Operands.made Q (ofArgs es) = Expr.allMade Q es := by
  rw [ofArgs, made_map_value, Expr.allMade_reverse]

end Operands

/-! ### Effects -/

mutual

/-- A value has effects if one of its nodes brings one. -/
theorem Expr.hasEffects_eq (e : Expr) :
    e.hasEffects = e.nodes.any (Node.brings Product.isEffect) := by
  -- what has effects of its own is a product; all others ask their parts
  cases e with
  | const _ | var _ | static _ | increment _ _ _ | call _ _ _ | staticCall _ _ | new _ _ _ =>
    simp [Expr.hasEffects, Expr.nodes, Node.brings, Node.product?, Product.isEffect]
  | field _ e | length e | negate e | cast _ e | instanceOf _ e | newArray _ e =>
    simp [Expr.hasEffects, Expr.nodes, Node.brings, Node.product?, Product.isEffect,
      e.hasEffects_eq]
  | element l r | binary _ l r | compare _ l r =>
    simp [Expr.hasEffects, Expr.nodes, Node.brings, Node.product?, l.hasEffects_eq,
      r.hasEffects_eq]
  | arrayOf _ n vs =>
    simp [Expr.hasEffects, Expr.nodes, Node.brings, Node.product?, Product.isEffect,
      n.hasEffects_eq, Expr.anyHasEffects_eq vs]
  | ternary c a b =>
    simp [Expr.hasEffects, Expr.nodes, Node.brings, Node.product?, c.hasEffects_eq,
      a.hasEffects_eq, b.hasEffects_eq, Bool.or_assoc]

/-- The same for a list of values. -/
theorem Expr.anyHasEffects_eq (es : List Expr) :
    Expr.anyHasEffects es = (Expr.allNodes es).any (Node.brings Product.isEffect) := by
  cases es with
  | nil => rfl
  | cons e es =>
    rw [Expr.anyHasEffects, Expr.allNodes, List.any_append, e.hasEffects_eq,
      Expr.anyHasEffects_eq es]

/-- The same for a condition. -/
theorem Cond.hasEffects_eq (c : Cond) :
    c.hasEffects = c.nodes.any (Node.brings Product.isEffect) := by
  cases c with
  | test e _ => simp [Cond.hasEffects, Cond.nodes, Node.brings, Node.product?, e.hasEffects_eq]
  | compare l _ r =>
    simp [Cond.hasEffects, Cond.nodes, Node.brings, Node.product?, l.hasEffects_eq,
      r.hasEffects_eq]
  | not c => simp [Cond.hasEffects, Cond.nodes, Node.brings, Node.product?, c.hasEffects_eq]
  | and cs | or cs =>
    simp [Cond.hasEffects, Cond.nodes, Node.brings, Node.product?, Cond.anyHasEffects_eq cs]

/-- The same for a list of conditions. -/
theorem Cond.anyHasEffects_eq (cs : List Cond) :
    Cond.anyHasEffects cs = (Cond.allNodes cs).any (Node.brings Product.isEffect) := by
  cases cs with
  | nil => rfl
  | cons c cs =>
    rw [Cond.anyHasEffects, Cond.allNodes, List.any_append, c.hasEffects_eq,
      Cond.anyHasEffects_eq cs]

end

/-- A value has effects when it holds a product with effects. -/
theorem Expr.made_eq_zero_iff {e : Expr} :
    e.made Product.isEffect = 0 ↔ e.hasEffects = false := by
  rw [made, List.countP_eq_zero, hasEffects_eq, List.any_eq_false]

/-- Values make nothing together if none of them makes anything. -/
theorem Expr.allMade_eq_zero_iff {es : List Expr} :
    allMade Q es = 0 ↔ ∀ e ∈ es, e.made Q = 0 := by
  induction es with
  | nil => simp
  | cons e es ih => simp [ih]

/-- A stack of pure entries makes no effects. -/
theorem Operands.made_eq_zero_of_pure {st : Operands} (h : ∀ o ∈ st, o.IsPure) :
    Operands.made Product.isEffect st = 0 := by
  induction st with
  | nil => rfl
  | cons o st ih =>
    rw [made_cons, ih fun p hp => h p (List.mem_cons_of_mem o hp)]
    cases o with
    | uninitialized t => rfl
    | value e => exact Expr.made_eq_zero_iff.2 (h _ List.mem_cons_self e rfl)

/-! ### Arrays under construction -/

/-- An array that is given by its values has one for each element. -/
def Expr.IsComplete (e : Expr) : Prop :=
  ∀ t size values n, e = .arrayOf t size values → size.natLiteral? = some n → values.length = n

/-- An array in the entry is complete. -/
def Operand.IsComplete : Operand → Prop
  | .value e => e.IsComplete
  | .uninitialized _ => True

/-- All arrays on the stack are complete. -/
def Operands.AllComplete (st : Operands) : Prop := ∀ o ∈ st, o.IsComplete

namespace Expr

/-- A literal makes nothing. -/
theorem made_of_natLiteral {e : Expr} {n : Nat} (h : e.natLiteral? = some n) : e.made Q = 0 := by
  unfold natLiteral? at h
  split at h
  · exact made_const _
  · cases h

/-- What equals the default of a type makes nothing. -/
theorem made_of_same_default {e : Expr} {t : String} (h : e.same (defaultOf t) = true) :
    e.made Q = 0 := by
  cases e with
  | const c => exact made_const c
  | _ => simp [same, defaultOf] at h

/-- An array makes one besides what its size and its values make. -/
theorem made_arrayOf (t : String) (size : Expr) (values : List Expr) :
    (arrayOf t size values).made Q = size.made Q + allMade Q values + (Q .array).toNat := by
  rw [made_of_nodes (e := .arrayOf t size values) (by rw [nodes]), List.countP_append]
  rfl

/-- The ways in which a store becomes part of an array. -/
theorem stored_cases {array index value filled : Expr}
    (h : stored? array index value = some filled) :
    ∃ t size values n i, size.natLiteral? = some n ∧ index.natLiteral? = some i ∧ i < n ∧
      filled = .arrayOf t size (values.set i value) ∧
      (array = .newArray t size ∧ values = List.replicate n (defaultOf t) ∨
        array = .arrayOf t size values ∧
          onlyDefaultsFrom (defaultOf t) values i = true) := by
  unfold stored? at h
  split at h
  · rename_i t size
    split at h
    · rename_i n i hn hi
      split at h
      · rename_i hbound
        cases h
        exact ⟨t, size, _, n, i, hn, hi, hbound.2, rfl, .inl ⟨rfl, rfl⟩⟩
      · cases h
    · cases h
  · rename_i t size values
    split at h
    · rename_i n i hn hi
      split at h
      · rename_i hbound
        cases h
        exact ⟨t, size, values, n, i, hn, hi, hbound.2.1, rfl, .inr ⟨rfl, hbound.2.2⟩⟩
      · cases h
    · cases h
  · cases h

/-- The value takes the place of a default, so the array only gains. -/
theorem made_of_stored {array index value filled : Expr} (hcomplete : array.IsComplete)
    (h : stored? array index value = some filled) :
    filled.made Q = array.made Q + value.made Q := by
  obtain ⟨t, size, values, n, i, hn, _, hi, rfl, ⟨rfl, rfl⟩ | ⟨rfl, hdefaults⟩⟩ := stored_cases h
  · have hlength : i < (List.replicate n (defaultOf t)).length := by simpa using hi
    have hset := allMade_set (Q := Q) hlength value
    rw [List.getElem_replicate, made_defaultOf, allMade_replicate (made_defaultOf t)] at hset
    rw [made_arrayOf, made_of_nodes (e := .newArray t size) (by rw [nodes])]
    show size.made Q + _ + (Q .array).toNat = size.made Q + (Q .array).toNat + _
    omega
  · have hlength : i < values.length := by
      rw [hcomplete t size values n rfl hn]
      exact hi
    have hold : values[i].made Q = 0 := by
      refine made_of_same_default (t := t) (List.all_eq_true.1 hdefaults _ ?_)
      rw [List.mem_iff_getElem]
      exact ⟨0, by simpa [Nat.sub_pos_iff_lt] using hlength, by simp⟩
    have hset := allMade_set (Q := Q) hlength value
    rw [made_arrayOf, made_arrayOf]
    omega

/-- An array stays complete when a value is stored into it. -/
theorem isComplete_of_stored {array index value filled : Expr} (hcomplete : array.IsComplete)
    (h : stored? array index value = some filled) : filled.IsComplete := by
  obtain ⟨t, size, values, n, i, hn, _, _, rfl, hvalues⟩ := stored_cases h
  rintro _ _ _ n' ⟨⟩ hn'
  rw [List.length_set]
  obtain ⟨rfl, rfl⟩ | ⟨rfl, _⟩ := hvalues
  · rw [List.length_replicate]
    exact Option.some.inj (hn.symm.trans hn')
  · exact hcomplete t size values n' rfl hn'

end Expr

/-! ### What a step writes twice and what it leaves out -/

/-- A dropped value without effects leaves nothing behind. -/
def Operand.dropped : Operand → List Expr
  | .value e => if e.hasEffects then [] else [e]
  | .uninitialized _ => []

namespace Simulation

/-- The left operand that a compound assignment leaves out: the destination stands for it. -/
def leftOperand (config : Config) (target : Place) (value : Expr) : List Expr :=
  ((compoundParts? config target value).map (·.2.1)).toList

namespace Turn

/-- The step adds statements. -/
def adds (g : Turn) : Bool := g.before.scope.size < g.after.scope.size

/-- The entries that the step writes once more. -/
def copied (g : Turn) : Operands :=
  match g.insn, g.before.stack with
  | .dup, o :: _ => if g.out.tookNext then [] else [o]
  | .dupX1, o :: p :: _ => [if g.out.tookNext then p else o]
  | .dupX2, o :: _ => [o]
  | .dup2, o :: st => if o.isWide then [o] else o :: st.take 1
  | _, _ => []

/-- The values that the step leaves out: the left operand of a compound assignment, the array
    whose store becomes part of the same array below, and a dropped value without effects. -/
def leftOut (config : Config) (g : Turn) : List Expr :=
  match g.last, g.before.stack with
  | .putField f, .value value :: .value receiver :: _ =>
    leftOperand config (.field f receiver) value
  | .arrayStore _, .value value :: .value index :: .value array :: _ =>
    if g.adds then leftOperand config (.element array index) value else [array]
  | .pop, o :: _ => o.dropped
  | .pop2, o :: st => o.dropped ++ if o.isWide then [] else (st.take 1).flatMap Operand.dropped
  | _, _ => []

end Turn

/-! ### Accounts of one step -/

/-- The number of products of the kind `Q` in the statements and in the values that wait. -/
def made (Q : Product → Bool) (m : Simulation) : Nat := m.nodes.countP (Node.brings Q)

variable {config : Config} {m m' : Simulation} {prev next : Option Insn} {insn : Insn}
  {taken put rest : Operands} {edit : Edit}

/-- The products of a simulation are those of its statements and of its stack. -/
theorem made_eq (m : Simulation) :
    m.made Q = Stmt.allMade Q m.scope.stmts + Operands.made Q m.stack :=
  List.countP_append

/-- What an assignment leaves out is missing in its statement. -/
theorem allMade_assignment (config : Config) (target : Place) (value : Expr) :
    Stmt.allMade Q [assignment config target value]
      + Expr.allMade Q (leftOperand config target value)
      = Expr.allMade Q target.operands + value.made Q := by
  unfold assignment leftOperand
  cases hparts : compoundParts? config target value with
  | none => exact Stmt.allMade_assign target value
  | some parts =>
    obtain ⟨op, left, right⟩ := parts
    have hvalue : value = .binary op left right := by
      unfold compoundParts? at hparts
      split at hparts
      · split at hparts
        · cases hparts
          rfl
        · cases hparts
      · cases hparts
    subst hvalue
    have hbinary : Insn.binary? (.binary op "") = some (Expr.binary op) := rfl
    rw [Stmt.allMade_compound, Expr.made_binary hbinary]
    simp only [Option.map_some, Option.toList_some, Expr.allMade_cons, Expr.allMade_nil]
    omega

/-- The left operand that an assignment to a variable leaves out is a read of it. -/
theorem allMade_leftOperand_of_storesTo {target : Place} (h : StoresTo insn target)
    (value : Expr) : Expr.allMade Q (leftOperand config target value) = 0 := by
  have htarget : target.isVariable = true ∧ target.operands = [] := by
    cases h <;> exact ⟨rfl, rfl⟩
  cases value with
  | binary op left right =>
    simp only [leftOperand, compoundParts?]
    split
    · rename_i hsame
      have hleft := eq_read_of_same htarget.1 (Bool.and_eq_true_iff.1 hsame).2
      simp only [Option.map_some, Option.toList_some, Expr.allMade_cons, Expr.allMade_nil, hleft,
        Expr.made_read, htarget.2]
    · rfl
  | _ => rfl

/-- A step whose edit adds statements balances if the entries above the rest do. -/
theorem accounts_of_add {g : Turn} {us : List Stmt}
    (h : Makes config g.before g.prev g.insn g.next g.out taken put rest (.add us))
    (hbalance : Stmt.allMade Q us + Operands.made Q put + Expr.allMade Q (g.leftOut config)
      = Operands.made Q taken + g.insns.countP (Insn.brings Q) + Operands.made Q g.copied) :
    g.after.made Q + Expr.allMade Q (g.leftOut config)
      = g.before.made Q + g.insns.countP (Insn.brings Q) + Operands.made Q g.copied := by
  have hstmts : g.after.scope.stmts = g.before.scope.stmts ++ us := h.stmts
  have hafter : g.after.stack = put ++ rest := h.after
  simp only [made_eq, hstmts, hafter, h.before, Operands.made_append, Stmt.allMade_append]
  omega

/-- An assignment to a variable writes its value as a whole. -/
theorem balance_of_storesTo (config : Config) {target : Place} (h : StoresTo insn target)
    (value : Expr) :
    Stmt.allMade Q [assignment config target value] = value.made Q := by
  have hassignment := allMade_assignment (Q := Q) config target value
  have hoperands : target.operands = [] := by cases h <;> rfl
  rw [allMade_leftOperand_of_storesTo h, hoperands] at hassignment
  simpa using hassignment

/-- A dropped entry stays as a statement or is left out. -/
theorem made_remains (o : Operand) :
    Stmt.allMade Q o.remains + Expr.allMade Q o.dropped = Operand.made Q o := by
  cases o with
  | uninitialized t => rfl
  | value e => cases he : e.hasEffects <;> simp [Operand.remains, Operand.dropped, he]

/-- The step adds statements if its edit does. -/
theorem adds_of_makes {g : Turn} {us : List Stmt}
    (h : Makes config g.before g.prev g.insn g.next g.out taken put rest (.add us)) :
    g.adds = decide (us ≠ []) := by
  have hstmts : g.after.scope.stmts = g.before.scope.stmts ++ us := h.stmts
  rw [Turn.adds, Scope.size, Scope.size, hstmts, List.length_append]
  cases us <;> simp

/-- A step neither makes nor loses products, except for what it copies and leaves out. -/
theorem accounts_of_makes {g : Turn}
    (h : Makes config g.before g.prev g.insn g.next g.out taken put rest edit)
    (hcomplete : g.before.stack.AllComplete) :
    g.after.made Q + Expr.allMade Q (g.leftOut config)
      = g.before.made Q + g.insns.countP (Insn.brings Q) + Operands.made Q g.copied := by
  obtain ⟨before, prev, insn, next, took, state⟩ := g
  have hmove := h.move
  have hbefore := h.before
  simp only at hmove hbefore
  cases hmove
  -- the statement that is taken back comes again as a value
  case loadIncremented slot t v n hv =>
    have hstmts : before.scope.stmts = state.scope.stmts ++ [.increment v n] := h.stmts
    have hafter : state.stack = .value (.increment v n true) :: rest := h.after
    simp [Turn.after, Turn.leftOut, Turn.last, Turn.copied, Turn.insns, made_eq, hstmts, hafter,
      hbefore, Insn.brings, Insn.product?]
    omega
  -- all others add statements, and what they put and add balances what they take
  all_goals refine accounts_of_add h ?_
  all_goals simp only [Turn.leftOut, Turn.last, Turn.copied, Turn.insns, hbefore, adds_of_makes h,
    List.cons_append, List.nil_append, Bool.false_eq_true, if_false, if_true]
  -- of the operators only the creation of an array brings a product
  case unary e hf =>
    have hmade := Expr.made_unary (Q := Q) hf e
    cases insn <;> cases hf <;> simp [countP_cons_toNat, hmade]
  case binary left right hf =>
    have hmade := Expr.made_binary (Q := Q) hf left right
    cases insn <;> cases hf <;> simp [Insn.brings, Insn.product?, hmade, Nat.add_comm]
  -- a store writes its value, less the operand that the compound form leaves out
  case store value htarget =>
    have hmade := balance_of_storesTo (Q := Q) config htarget value
    cases htarget <;> simp [Insn.brings, Insn.product?, hmade]
  case putField f receiver value =>
    have hmade := allMade_assignment (Q := Q) config (.field f receiver) value
    simp [Insn.brings, Insn.product?, hmade, Place.operands, Nat.add_comm]
  case arrayStore t array index value =>
    have hmade := allMade_assignment (Q := Q) config (.element array index) value
    simp [Insn.brings, Insn.product?, hmade, Place.operands]
    omega
  -- the array below gains the value, and the one that is popped is left out
  case fill array index value top filled t hsame hfilled =>
    have htop : top.IsComplete := hcomplete (.value top) (by simp [hbefore])
    have hmade := Expr.made_of_stored (Q := Q) htop hfilled
    obtain ⟨_, _, _, _, _, _, hindex, _⟩ := Expr.stored_cases hfilled
    simp [Insn.brings, Insn.product?, hmade, Expr.made_of_natLiteral hindex]
    omega
  -- a copy with its store is written once, and the second entry only reads the place
  case dupStore e target insn he hnext htarget =>
    have hmade := balance_of_storesTo (Q := Q) config htarget e
    subst hnext
    cases htarget <;> simp [Insn.brings, Insn.product?, Place.operands, hmade]
  case dupX1Store value receiver f hreceiver hnext =>
    have hmade := allMade_assignment (Q := Q) config (.field f receiver) value
    have hread := Expr.made_read (Q := Q) (.field f receiver)
    subst hnext
    simp [Insn.brings, Insn.product?, Place.operands, Place.read] at hmade hread ⊢
    omega
  case pop o => simp [Insn.brings, Insn.product?, made_remains]
  case pop2Wide o hwide => simp [Insn.brings, Insn.product?, hwide, made_remains]
  case pop2 o p hwide =>
    have ho := made_remains (Q := Q) o
    have hp := made_remains (Q := Q) p
    simp [Insn.brings, Insn.product?, hwide]
    omega
  case dup2Wide o ho hwide => simp [Insn.brings, Insn.product?, hwide]
  case dup2 o p ho hp hwide =>
    simp [Insn.brings, Insn.product?, hwide]
    omega
  all_goals simp [Insn.brings, Insn.product?, countP_cons_toNat]
  all_goals omega

/-- Only entries without effects are copied. -/
theorem Turn.isPure_of_copied {g : Turn}
    (h : Makes config g.before g.prev g.insn g.next g.out taken put rest edit) :
    ∀ o ∈ g.copied, o.IsPure := by
  obtain ⟨before, prev, insn, next, took, state⟩ := g
  have hmove := h.move
  have hbefore := h.before
  simp only at hmove hbefore
  cases hmove
  case dup o ho => simpa [copied, hbefore] using ho
  case dupX1 o p ho => simpa [copied, hbefore] using ho
  case dupX1Store value receiver f hreceiver hnext =>
    have ho : (Operand.value receiver).IsPure := fun e he => by cases he; exact hreceiver
    simpa [copied, hbefore] using ho
  case dupX2Wide o p ho hp => simpa [copied, hbefore] using ho
  case dupX2 o p q ho hp => simpa [copied, hbefore] using ho
  case dup2Wide o ho hwide => simpa [copied, hbefore, hwide] using ho
  case dup2 o p ho hp hwide => simpa [copied, hbefore, hwide] using ⟨ho, hp⟩
  case unary e hf => cases insn <;> cases hf <;> simp [copied]
  case binary left right hf => cases insn <;> cases hf <;> simp [copied]
  case store value htarget => cases htarget <;> simp [copied]
  all_goals simp [copied, hbefore]

/-- Whatever a step puts on the stack, arrays there are complete. -/
theorem allComplete_of_makes {out : Outcome}
    (h : Makes config m prev insn next out taken put rest edit)
    (hcomplete : m.stack.AllComplete) : out.state.stack.AllComplete := by
  have hmove := h.move
  rw [h.before] at hcomplete
  rw [h.after]
  clear h
  generalize out.tookNext = took at hmove
  unfold Operands.AllComplete at hcomplete ⊢
  rw [List.forall_mem_append] at hcomplete ⊢
  refine ⟨?_, hcomplete.2⟩
  replace hcomplete := hcomplete.1
  cases hmove
  -- an array that is given by its values arises from a store only
  case fill array index value top filled t hsame hfilled =>
    simp [Operand.IsComplete] at hcomplete ⊢
    exact Expr.isComplete_of_stored hcomplete.2.2.2 hfilled
  case unary e hf => cases insn <;> cases hf <;> simp [Operand.IsComplete, Expr.IsComplete]
  case binary left right hf =>
    cases insn <;> cases hf <;> simp [Operand.IsComplete, Expr.IsComplete]
  case invoke f sig args receiver hf hargs hreceiver hvoid =>
    cases receiver <;> simp [Operand.IsComplete, Expr.IsComplete, MethodRef.on]
  case dupStore e target insn he hnext htarget =>
    cases htarget <;> simp [Operand.IsComplete, Expr.IsComplete, Place.read]
  all_goals simp_all [Operand.IsComplete, Expr.IsComplete]

/-! ### Accounts of a run -/

/-- A run neither makes nor loses products, except for what its steps copy and leave out. -/
theorem accounts_of_turned {insns : List Insn} {gs : List Turn}
    (h : Turned config prev m insns gs m') (hcomplete : m.stack.AllComplete) :
    m'.made Q + Expr.allMade Q (gs.flatMap (Turn.leftOut config))
      = m.made Q + insns.countP (Insn.brings Q) + Operands.made Q (gs.flatMap Turn.copied) := by
  induction h with
  | nil prev m => simp
  | cons g hstep hinsns h ih =>
    -- the accounts of one step, added to those of the rest of the run
    obtain ⟨taken, put, rest, edit, hmakes⟩ := moves_of_step hstep
    have hturn := accounts_of_makes (Q := Q) hmakes hcomplete
    have hrun := ih (allComplete_of_makes hmakes hcomplete)
    rw [hinsns, List.countP_append, List.flatMap_cons, List.flatMap_cons, Expr.allMade_append,
      Operands.made_append]
    omega

/-- Along a run only pure entries are copied. -/
theorem isPure_of_turned {insns : List Insn} {gs : List Turn}
    (h : Turned config prev m insns gs m') :
    ∀ o ∈ gs.flatMap Turn.copied, o.IsPure := by
  induction h with
  | nil prev m => simp
  | cons g hstep hinsns h ih =>
    obtain ⟨taken, put, rest, edit, hmakes⟩ := moves_of_step hstep
    rw [List.flatMap_cons, List.forall_mem_append]
    exact ⟨Turn.isPure_of_copied hmakes, ih⟩

/-- The accounts of a run on an empty stack over an empty scope. -/
theorem accounts_from_start {s : Scope} {insns : List Insn} (hempty : s.stmts = [])
    (h : run config (start s) insns = .ok m) :
    m.made Q
        + Expr.allMade Q ((turns config none (start s) insns).flatMap (Turn.leftOut config))
      = insns.countP (Insn.brings Q)
        + Operands.made Q ((turns config none (start s) insns).flatMap Turn.copied) := by
  have hstart : (start s).made Q = 0 := by
    rw [made_eq, start, hempty]
    rfl
  have hcomplete : (start s).stack.AllComplete := fun o ho => by cases ho
  have haccounts := accounts_of_turned (Q := Q) (turned_of_runAfter h) hcomplete
  rwa [hstart, Nat.zero_add] at haccounts

/-- Calls and increments are never multiplied: the ones that the instructions bring are those of
    the statements and the stack, and those that steps leave out. So none is lost exactly if the
    steps leave out values without effects only. -/
theorem effects_of_run {s : Scope} {insns : List Insn} (hempty : s.stmts = [])
    (h : run config (start s) insns = .ok m) :
    m.made Product.isEffect + Expr.allMade Product.isEffect
          ((turns config none (start s) insns).flatMap (Turn.leftOut config))
        = insns.countP (Insn.brings Product.isEffect) ∧
      (m.made Product.isEffect = insns.countP (Insn.brings Product.isEffect) ↔
        ∀ g ∈ turns config none (start s) insns, ∀ e ∈ g.leftOut config,
          e.hasEffects = false) := by
  have haccounts := accounts_from_start (Q := Product.isEffect) hempty h
  rw [Operands.made_eq_zero_of_pure (isPure_of_turned (turned_of_runAfter h)), Nat.add_zero]
    at haccounts
  refine ⟨haccounts, ?_⟩
  have hnone : (∀ g ∈ turns config none (start s) insns, ∀ e ∈ g.leftOut config,
      e.hasEffects = false) ↔ Expr.allMade Product.isEffect
        ((turns config none (start s) insns).flatMap (Turn.leftOut config)) = 0 := by
    simp only [Expr.allMade_eq_zero_iff, Expr.made_eq_zero_iff, List.mem_flatMap]
    grind
  rw [hnone]
  omega

/-- `f()` is stored into two locals at once. -/
def answerStoredTwice : List Insn :=
  [.invoke .static ⟨"T", "f", "()I"⟩, .dup, .store 0 Descriptor.int, .store 1 Descriptor.int]

/-- The answer of a call that is copied and stored twice is one call. -/
theorem run_answerStoredTwice : ∃ m, run {} (start (.new .method)) answerStoredTwice = .ok m ∧
    m.made Product.isEffect = answerStoredTwice.countP (Insn.brings Product.isEffect) := by
  have hsucceeds : (run {} (start (.new .method)) answerStoredTwice).isOk = true := by
    decide +kernel
  obtain ⟨m, hrun⟩ := Except.eq_ok_of_isOk hsucceeds
  exact ⟨m, hrun, (effects_of_run rfl hrun).2.2 (by decide +kernel)⟩

/-- `f().x = f().x + 1`. -/
def answerChanged : List Insn :=
  [.invoke .static ⟨"T", "f", "()LT;"⟩, .invoke .static ⟨"T", "f", "()LT;"⟩,
    .getField ⟨"T", "x", Descriptor.int⟩, .const (.int 1), .binary .add Descriptor.int,
    .putField ⟨"T", "x", Descriptor.int⟩]

/-- A compound assignment writes two calls as one. -/
theorem run_answerChanged :
    ¬ ∀ (config : Config) (s : Scope) (insns : List Insn) (m : Simulation), s.stmts = [] →
      s.locked = false → run config (start s) insns = .ok m →
      m.made Product.isEffect = insns.countP (Insn.brings Product.isEffect) := by
  intro hclaim
  have hone : (run {} (start (.new .method)) answerChanged).toOption.map
      (made Product.isEffect) = some 1 := by decide +kernel
  obtain ⟨m, hm, hone⟩ := Option.map_eq_some_iff.1 hone
  have htwo := hclaim {} _ answerChanged m rfl rfl (Except.eq_ok_of_toOption hm)
  rw [hone] at htwo
  exact absurd htwo (by decide)

/-- The arrays that instructions create and those that steps copy are the arrays of the statements
    and the stack, and those that steps leave out. So there are more than the instructions
    create exactly if more are copied than left out. -/
theorem arrays_of_run {s : Scope} {insns : List Insn} (hempty : s.stmts = [])
    (h : run config (start s) insns = .ok m) :
    m.made Product.isArray + Expr.allMade Product.isArray
          ((turns config none (start s) insns).flatMap (Turn.leftOut config))
        = insns.countP (Insn.brings Product.isArray) + Operands.made Product.isArray
          ((turns config none (start s) insns).flatMap Turn.copied) ∧
      (m.made Product.isArray ≤ insns.countP (Insn.brings Product.isArray) ↔
        Operands.made Product.isArray ((turns config none (start s) insns).flatMap Turn.copied)
          ≤ Expr.allMade Product.isArray
            ((turns config none (start s) insns).flatMap (Turn.leftOut config))) := by
  have haccounts := accounts_from_start (Q := Product.isArray) hempty h
  exact ⟨haccounts, by omega⟩

/-- `new int[] { 7 }` is stored into a local. -/
def filledArray : List Insn :=
  [.const (.int 1), .newArray Descriptor.int, .dup, .const (.int 0), .const (.int 7),
    .arrayStore Descriptor.int, .store 0 (Descriptor.arrayOf Descriptor.int)]

/-- An array that is filled right behind its creation is one array. -/
theorem run_filledArray : ∃ m, run {} (start (.new .method)) filledArray = .ok m ∧
    m.made Product.isArray ≤ filledArray.countP (Insn.brings Product.isArray) := by
  have hsucceeds : (run {} (start (.new .method)) filledArray).isOk = true := by decide +kernel
  obtain ⟨m, hrun⟩ := Except.eq_ok_of_isOk hsucceeds
  exact ⟨m, hrun, (arrays_of_run rfl hrun).2.2 (by decide +kernel)⟩

/-- A new array is stored into two locals at once. -/
def arrayStoredTwice : List Insn :=
  [.const (.int 2), .newArray Descriptor.int, .dup,
    .store 0 (Descriptor.arrayOf Descriptor.int), .store 1 (Descriptor.arrayOf Descriptor.int)]

/-- A copy of a new array is another array. -/
theorem run_arrayStoredTwice :
    ¬ ∀ (config : Config) (s : Scope) (insns : List Insn) (m : Simulation), s.stmts = [] →
      s.locked = false → run config (start s) insns = .ok m →
      m.made Product.isArray ≤ insns.countP (Insn.brings Product.isArray) := by
  intro hclaim
  exact absurd (hclaim {} (.new .method) arrayStoredTwice _ rfl rfl rfl) (by decide)

end Simulation

end Restructure
