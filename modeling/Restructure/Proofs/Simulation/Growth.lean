import Restructure.Proofs.Simulation.Edits
import Restructure.Stmt.Visit

namespace Restructure

/-!
# Growth — what simulated instructions make of a scope and a stack

Instructions build larger values from those on the stack and add statements that hold such values,
they take an increment back, and they bind slots. One invariant says all this, for any kind of node
that instructions do not make by themselves.

* `Expr.Avoids`, `Stmt.Avoids`, `Operands.Avoids` — trees and stacks without nodes of a given kind.
* `Foreign` — a kind of node that comes into trees only with calls.
* `Insn.bind`, `Insn.bindAll` — the locals behind one and behind several instructions.
* `Simulation.Grown` — the invariant of a simulation; `Simulation.run_grown` — instructions keep it.
* `Simulation.run_edited`, `Simulation.run_locals` — the statements and the locals behind
  instructions.
-/

/-! ### Calls -/

/-- The method that a value invokes, if it is a call. -/
def Expr.callee? : Expr → Option MethodRef
  | .call f _ _ | .staticCall f _ => some f
  | _ => none

/-- The method that an instruction invokes. -/
def Insn.callee? : Insn → Option MethodRef
  | .invoke _ f => some f
  | _ => none

/-! ### Trees without nodes of a kind -/

/-- No node of the value is of the kind `B`. -/
def Expr.Avoids (B : Node → Prop) (e : Expr) : Prop := ∀ n ∈ e.nodes, ¬B n

/-- No node of the test is of the kind `B`. -/
def Cond.Avoids (B : Node → Prop) (c : Cond) : Prop := ∀ n ∈ c.nodes, ¬B n

/-- No node of the statement is of the kind `B`. -/
def Stmt.Avoids (B : Node → Prop) (s : Stmt) : Prop := ∀ n ∈ s.nodes, ¬B n

/-- No value that the destination evaluates has a node of the kind `B`. -/
def Place.Avoids (B : Node → Prop) (target : Place) : Prop := ∀ e ∈ target.operands, e.Avoids B

/-- No finished value on the stack has a node of the kind `B`. -/
def Operands.Avoids (B : Node → Prop) (st : Operands) : Prop := ∀ e, .value e ∈ st → e.Avoids B

/-- A kind of node that only calls bring into a tree: no other value is of this kind, and no
    statement that stands for itself unless control ends there or it evaluates a value with such
    a node. -/
structure Foreign (B : Node → Prop) : Prop where
  expr : ∀ e : Expr, e.callee? = none → ¬B (.expr e)
  stmt : ∀ s : Stmt, s.isAtomic = true → s.isTerminal = false →
    (∀ e, s = .eval e → e.Avoids B) → ¬B (.stmt s)

/-- Calls of the method that the instruction invokes are not of the kind `B`. -/
def Insn.Spares (B : Node → Prop) (insn : Insn) : Prop :=
  ∀ f, insn.callee? = some f → ∀ e : Expr, e.callee? = some f → ¬B (.expr e)

/-- The nodes of a list of values are those of its members. -/
theorem Expr.mem_allNodes {es : List Expr} {n : Node} :
    n ∈ Expr.allNodes es ↔ ∃ e ∈ es, n ∈ e.nodes := by
  induction es with
  | nil => simp [Expr.allNodes]
  | cons e es ih => simp [Expr.allNodes, ih]

variable {B : Node → Prop}

/-- Nothing at all is foreign. -/
theorem foreign_false : Foreign fun _ => False where
  expr _ _ h := h
  stmt _ _ _ _ h := h

/-- The node is a statement behind which control does not go on. -/
def Node.Terminal (n : Node) : Prop := ∃ s : Stmt, n = .stmt s ∧ s.isTerminal = true

/-- The statements that control does not go past are foreign: no instruction writes them. -/
theorem foreign_terminal : Foreign Node.Terminal where
  expr _ _ := fun ⟨_, h, _⟩ => by cases h
  stmt s _ hs _ := fun ⟨t, heq, ht⟩ => by
    cases heq
    exact Bool.false_ne_true (hs.symm.trans ht)

/-- The nodes of a value are the value and the nodes of its parts. -/
theorem Expr.avoids_of_nodes {e : Expr} {ns : List Node} (hnodes : e.nodes = .expr e :: ns)
    (he : ¬B (.expr e)) (hns : ∀ n ∈ ns, ¬B n) : e.Avoids B := by
  intro n hn
  rw [hnodes] at hn
  rcases List.mem_cons.1 hn with rfl | hn
  · exact he
  · exact hns n hn

/-- A statement without such nodes is none itself. -/
theorem Stmt.isTerminal_of_avoids {s : Stmt} (h : s.Avoids Node.Terminal) :
    s.isTerminal = false := by
  refine Bool.eq_false_iff.2 fun hs => h (.stmt s) ?_ ⟨s, rfl, hs⟩
  rw [Stmt.nodes.eq_def]
  exact List.mem_cons_self ..

/-- A statement avoids what neither itself nor one of its parts is. -/
theorem Stmt.avoids_of_nodes {s : Stmt} {ns : List Node} (hnodes : s.nodes = .stmt s :: ns)
    (hs : ¬B (.stmt s)) (hns : ∀ n ∈ ns, ¬B n) : s.Avoids B := by
  intro n hn
  rw [hnodes] at hn
  rcases List.mem_cons.1 hn with rfl | hn
  · exact hs
  · exact hns n hn

/-- What a value avoids, its parts avoid. -/
theorem Expr.Avoids.parts {e : Expr} {ns : List Node} (h : e.Avoids B)
    (hnodes : e.nodes = .expr e :: ns) : ∀ n ∈ ns, ¬B n :=
  fun n hn => h n (hnodes ▸ List.mem_cons_of_mem _ hn)

/-- What a statement avoids its parts avoid. -/
theorem Stmt.Avoids.parts {s : Stmt} {ns : List Node} (h : s.Avoids B)
    (hnodes : s.nodes = .stmt s :: ns) : ∀ n ∈ ns, ¬B n :=
  fun n hn => h n (hnodes ▸ List.mem_cons_of_mem _ hn)

/-- A list avoids what all of its members avoid. -/
theorem Expr.allAvoid_iff {es : List Expr} :
    (∀ n ∈ Expr.allNodes es, ¬B n) ↔ ∀ e ∈ es, e.Avoids B := by
  simp only [Expr.mem_allNodes, Expr.Avoids]
  exact ⟨fun h e he n hn => h n ⟨e, he, hn⟩, fun h n ⟨e, he, hn⟩ => h e he n hn⟩

namespace Operands

variable {st st' : Operands} {e : Expr}

/-- An empty stack avoids everything. -/
theorem avoids_nil : Operands.Avoids B [] := fun _ h => by cases h

/-- A value is pushed. -/
theorem Avoids.push (hst : st.Avoids B) (he : e.Avoids B) : (st.push e).Avoids B := by
  intro e' h
  rcases List.mem_cons.1 h with h | h
  · cases h
    exact he
  · exact hst e' h

/-- What is below the top. -/
theorem Avoids.of_cons {o : Operand} (hst : Operands.Avoids B (o :: st)) : st.Avoids B :=
  fun e h => hst e (List.mem_cons_of_mem _ h)

/-- An entry on top, which need not be a value. -/
theorem Avoids.cons {o : Operand} (hst : st.Avoids B) (ho : ∀ e, o = .value e → e.Avoids B) :
    Operands.Avoids B (o :: st) := by
  intro e h
  rcases List.mem_cons.1 h with h | h
  · exact ho e h.symm
  · exact hst e h

/-- An entry is taken from the stack. -/
theorem popEntry_avoids {o : Operand} (h : st.popEntry = .ok (o, st')) (hst : st.Avoids B) :
    (∀ e, o = .value e → e.Avoids B) ∧ st'.Avoids B := by
  cases st with
  | nil => cases h
  | cons o' st =>
    cases h
    exact ⟨fun e he => hst e (he ▸ List.mem_cons_self ..), hst.of_cons⟩

/-- A value is taken from the stack. -/
theorem pop_avoids (h : st.pop = .ok (e, st')) (hst : st.Avoids B) :
    e.Avoids B ∧ st'.Avoids B := by
  unfold pop at h
  split at h
  · cases h
  · cases h
    exact ⟨hst _ (List.mem_cons_self ..), hst.of_cons⟩
  · cases h

/-- Several values are taken from the stack. -/
theorem popMany_avoids {count : Nat} {es : List Expr} (h : st.popMany count = .ok (es, st'))
    (hst : st.Avoids B) : (∀ e ∈ es, e.Avoids B) ∧ st'.Avoids B := by
  induction count generalizing st es with
  | zero =>
    cases h
    exact ⟨fun e he => absurd he List.not_mem_nil, hst⟩
  | succ count ih =>
    obtain ⟨⟨e, st₁⟩, hpop, h⟩ := Except.bind_eq_ok.1 h
    obtain ⟨⟨es', st₂⟩, hmany, h⟩ := Except.bind_eq_ok.1 h
    cases h
    obtain ⟨he, hst₁⟩ := pop_avoids hpop hst
    obtain ⟨hes, hst₂⟩ := ih hmany hst₁
    refine ⟨fun x hx => ?_, hst₂⟩
    rcases List.mem_append.1 hx with hx | hx
    · exact hes x hx
    · rw [List.mem_singleton.1 hx]
      exact he

end Operands

/-! ### Values and statements that instructions make -/

namespace Foreign

variable {e value : Expr} {target : Place} {s : Stmt}

/-- A value without parts. -/
theorem leaf (hB : Foreign B) (hnodes : e.nodes = [.expr e]) (hcall : e.callee? = none) :
    e.Avoids B :=
  Expr.avoids_of_nodes hnodes (hB.expr e hcall) fun _ h => by cases h

/-- A constant. -/
theorem const (hB : Foreign B) (k : Constant) : (Expr.const k).Avoids B := hB.leaf rfl rfl

/-- A place that is read. -/
theorem read (hB : Foreign B) (ht : target.Avoids B) : target.read.Avoids B := by
  -- reading a place calls nothing, so what is foreign is at most among the operands
  have hcall : target.read.callee? = none := by cases target <;> rfl
  have hnodes : target.read.nodes = .expr target.read :: Expr.allNodes target.operands := by
    cases target <;> simp [Place.read, Place.operands, Expr.nodes, Expr.allNodes]
  exact Expr.avoids_of_nodes hnodes (hB.expr _ hcall) (Expr.allAvoid_iff.2 ht)

/-- An assignment. -/
theorem assign (hB : Foreign B) (ht : target.Avoids B) (hv : value.Avoids B) :
    (Stmt.assign target value).Avoids B := by
  refine Stmt.avoids_of_nodes rfl (hB.stmt _ rfl rfl fun e h => by cases h) fun n hn => ?_
  rcases List.mem_append.1 hn with hn | hn
  · exact Expr.allAvoid_iff.2 ht n hn
  · exact hv n hn

/-- A compound assignment. -/
theorem compound (hB : Foreign B) {op : BinaryOp} (ht : target.Avoids B) (hv : value.Avoids B) :
    (Stmt.compound target op value).Avoids B := by
  refine Stmt.avoids_of_nodes rfl (hB.stmt _ rfl rfl fun e h => by cases h) fun n hn => ?_
  rcases List.mem_append.1 hn with hn | hn
  · exact Expr.allAvoid_iff.2 ht n hn
  · exact hv n hn

/-- A value as a statement. -/
theorem eval (hB : Foreign B) (hv : value.Avoids B) : (Stmt.eval value).Avoids B :=
  Stmt.avoids_of_nodes rfl (hB.stmt _ rfl rfl fun e h => by cases h; exact hv) hv

/-- A store into an array that is being constructed puts the value among the values of the array. -/
theorem stored (hB : Foreign B) {array index filled : Expr} (ha : array.Avoids B)
    (hv : value.Avoids B) (h : Expr.stored? array index value = some filled) :
    filled.Avoids B := by
  -- a fresh array gets its defaults first, and both kinds of array then one new value
  have hset : ∀ {t : String} {size : Expr} {values : List Expr} {i : Nat}, size.Avoids B →
      (∀ v ∈ values, v.Avoids B) → (Expr.arrayOf t size (values.set i value)).Avoids B := by
    intro t size values i hsize hvalues
    refine Expr.avoids_of_nodes (by rw [Expr.nodes]) (hB.expr _ rfl) fun n hn => ?_
    rcases List.mem_append.1 hn with hn | hn
    · exact hsize n hn
    · refine Expr.allAvoid_iff.2 (fun v hmem => ?_) n hn
      rcases List.mem_or_eq_of_mem_set hmem with hmem | rfl
      · exact hvalues v hmem
      · exact hv
  unfold Expr.stored? at h
  split at h
  · rename_i t size
    have hsize : size.Avoids B := ha.parts (by rw [Expr.nodes])
    split at h
    · split at h
      · cases h
        refine hset hsize fun v hmem => ?_
        rw [List.eq_of_mem_replicate hmem]
        exact hB.const _
      · cases h
    · cases h
  · rename_i t size values
    have hparts : ∀ n ∈ size.nodes ++ Expr.allNodes values, ¬B n := ha.parts (by rw [Expr.nodes])
    have hsize : size.Avoids B := fun n hn => hparts n (List.mem_append_left _ hn)
    have hvalues := Expr.allAvoid_iff.1 fun n hn => hparts n (List.mem_append_right _ hn)
    split at h
    · split at h
      · cases h
        exact hset hsize hvalues
      · cases h
    · cases h
  · cases h

end Foreign

/-! ### Bound slots -/

/-- Binds a slot to a local named after it, unless it is bound. -/
def Locals.bindSlot (t : Locals) (slot : Nat) (type : String) : Locals :=
  match t.find? slot with
  | some _ => t
  | none => t.declare ⟨slot, "local" ++ toString slot, type⟩

/-- The locals behind an instruction. -/
def Insn.bind (t : Locals) : Insn → Locals
  | .load slot type | .store slot type => t.bindSlot slot type
  | .increment slot _ => t.bindSlot slot Descriptor.int
  | _ => t

/-- The locals behind instructions. -/
def Insn.bindAll (t : Locals) (insns : List Insn) : Locals := insns.foldl Insn.bind t

/-! ### The invariant -/

/-- Statements that avoid `B` are added at the end, and increments are taken back from there. -/
inductive Rewritten (B : Node → Prop) (ss : List Stmt) : List Stmt → Prop
  | refl : Rewritten B ss ss
  | add {ts : List Stmt} {s : Stmt} (h : Rewritten B ss ts) (hs : s.isAtomic = true)
      (hB : s.Avoids B) : Rewritten B ss (ts ++ [s])
  | drop {ts : List Stmt} {v : Local} {n : Int} (h : Rewritten B ss (ts ++ [.increment v n])) :
      Rewritten B ss ts

/-- What is rewritten is edited at its end. -/
theorem Rewritten.edited {ss ts : List Stmt} (h : Rewritten B ss ts) : Edited ss ts := by
  induction h with
  | refl => exact .refl _
  | add _ hs _ ih => exact ih.add hs
  | drop _ ih => exact ih.drop rfl

/-- If the first statements avoid `B`, the others do, too. -/
theorem Rewritten.avoids {ss ts : List Stmt} (h : Rewritten B ss ts)
    (hss : ∀ s ∈ ss, s.Avoids B) : ∀ s ∈ ts, s.Avoids B := by
  induction h with
  | refl => exact hss
  | add _ _ hB ih =>
    intro s hs
    rcases List.mem_append.1 hs with hs | hs
    · exact ih s hs
    · rw [List.mem_singleton.1 hs]
      exact hB
  | drop _ ih => exact fun s hs => ih s (List.mem_append_left _ hs)

namespace Simulation

/-- A simulation that began over the statements `ss` and has bound the locals `t`. -/
structure Grown (B : Node → Prop) (ss : List Stmt) (t : Locals) (m : Simulation) : Prop where
  stack : m.stack.Avoids B
  stmts : Rewritten B ss m.scope.stmts
  locals : m.scope.locals = t

variable {config : Config} {m m' : Simulation} {ss : List Stmt} {t : Locals} {st : Operands}
  {e value : Expr} {target : Place}

namespace Grown

/-- Nothing has grown yet. -/
theorem start (h : m.stack.Avoids B) : m.Grown B m.scope.stmts m.scope.locals := ⟨h, .refl, rfl⟩

/-- The stack is exchanged. -/
theorem withStack (hm : m.Grown B ss t) (hst : st.Avoids B) :
    Grown B ss t { m with stack := st } := ⟨hst, hm.stmts, hm.locals⟩

/-- A value is pushed on another stack. -/
theorem pushOn (hm : m.Grown B ss t) (hst : st.Avoids B) (he : e.Avoids B) :
    (m.pushOn st e).Grown B ss t := hm.withStack (hst.push he)

/-- A statement that avoids `B`. -/
theorem append (hm : m.Grown B ss t) {s : Stmt} (hs : s.isAtomic = true) (hB : s.Avoids B)
    (h : m.append s = .ok m') : m'.Grown B ss t := by
  obtain ⟨scope, hscope, rfl⟩ := Except.map_eq_ok.1 h
  refine ⟨hm.stack, ?_, (Scope.locals_of_append hscope).trans hm.locals⟩
  show Rewritten B ss scope.stmts
  rw [Scope.stmts_of_append hscope]
  exact hm.stmts.add hs hB

/-- A lookup binds the slot. -/
theorem resolve (hm : m.Grown B ss t) {slot : Nat} {type : String} {v : Local}
    (h : m.resolve slot type = .ok (v, m')) : m'.Grown B ss (t.bindSlot slot type) := by
  unfold Simulation.resolve at h
  unfold Locals.bindSlot
  rw [← hm.locals]
  cases hfind : m.scope.locals.find? slot with
  | some w =>
    rw [hfind] at h
    cases h
    exact ⟨hm.stack, hm.stmts, rfl⟩
  | none =>
    rw [hfind] at h
    obtain ⟨scope, hscope, h⟩ := Except.map_eq_ok.1 h
    cases h
    refine ⟨hm.stack, ?_, Scope.locals_of_declare hscope⟩
    show Rewritten B ss scope.stmts
    rw [Scope.stmts_of_declare hscope]
    exact hm.stmts

/-- A store becomes an assignment, a compound assignment or an increment. -/
theorem assign (hB : Foreign B) (hm : m.Grown B ss t) (ht : target.Avoids B)
    (hv : value.Avoids B) (h : Simulation.assign config m target value = .ok m') :
    m'.Grown B ss t := by
  unfold Simulation.assign at h
  split at h
  · rename_i op left right
    have hparts : ∀ n ∈ left.nodes ++ right.nodes, ¬B n := hv.parts (by rw [Expr.nodes])
    have hright : right.Avoids B := fun n hn => hparts n (List.mem_append_right _ hn)
    split at h
    · exact hm.append rfl (hB.compound ht hright) h
    · exact hm.append rfl (hB.assign ht hv) h
  · exact hm.append rfl (hB.assign ht hv) h

/-- A call is pushed, or it is a statement if it has no result. -/
theorem emitCall (hB : Foreign B) (hm : m.Grown B ss t) (hst : st.Avoids B) {isVoid : Bool}
    (he : e.Avoids B) (h : m.emitCall st e isVoid = .ok m') : m'.Grown B ss t := by
  unfold Simulation.emitCall at h
  simp only at h
  split at h
  · exact (hm.withStack hst).append rfl (hB.eval he) h
  · cases h
    exact hm.pushOn hst he

/-! ### Operations -/

/-- A load binds its slot. -/
theorem load (hB : Foreign B) (hm : m.Grown B ss t) {prev : Option Insn} {slot : Nat}
    {type : String} (h : Simulation.load config m prev slot type = .ok m') :
    m'.Grown B ss (t.bindSlot slot type) := by
  obtain ⟨⟨v, m₁⟩, hv, h⟩ := Except.bind_eq_ok.1 h
  have hm₁ := hm.resolve hv
  have hread : (m₁.pushOn m₁.stack (.var v)).Grown B ss (t.bindSlot slot type) :=
    hm₁.pushOn hm₁.stack (hB.leaf rfl rfl)
  simp only at h
  split at h
  · rename_i w n hw
    split at h
    · -- the increment at the end of the scope becomes part of the read
      obtain ⟨⟨s, scope⟩, hpop, h⟩ := Except.bind_eq_ok.1 h
      cases h
      have hstmts := Scope.stmts_of_pop hpop
      obtain rfl : s = .increment w n :=
        Option.some.inj ((Scope.pop_inv hpop).1.symm.trans (last_of_justIncremented hw).2)
      refine ⟨hm₁.stack.push (hB.leaf rfl rfl), .drop (v := w) (n := n) ?_,
        (Scope.locals_of_pop hpop).trans hm₁.locals⟩
      rw [← hstmts]
      exact hm₁.stmts
    · cases h
      exact hread
  · cases h
    exact hread

/-- An increment binds its slot. -/
theorem increment (hB : Foreign B) (hm : m.Grown B ss t) {prev : Option Insn} {slot : Nat}
    {n : Int} (h : Simulation.increment config m prev slot n = .ok m') :
    m'.Grown B ss (t.bindSlot slot Descriptor.int) := by
  obtain ⟨⟨v, m₁⟩, hv, h⟩ := Except.bind_eq_ok.1 h
  have hm₁ := hm.resolve hv
  -- an increment has no parts, whether it becomes a value or a statement
  have hstmt : (Stmt.increment v n).Avoids B :=
    Stmt.avoids_of_nodes rfl (hB.stmt _ rfl rfl fun e h => by cases h) fun _ h => by cases h
  simp only at h
  split at h
  · rename_i st hst
    split at h
    · cases h
      obtain ⟨w, _, hstack⟩ := stack_of_justRead hst
      have hall := hm₁.stack
      rw [hstack] at hall
      exact hm₁.pushOn hall.of_cons (hB.leaf rfl rfl)
    · exact hm₁.append rfl hstmt h
  · exact hm₁.append rfl hstmt h

/-- A store into an array, which may be put into its initializer. -/
theorem arrayStore (hB : Foreign B) (hm : m.Grown B ss t)
    (h : Simulation.arrayStore config m = .ok m') : m'.Grown B ss t := by
  obtain ⟨⟨value, st₁⟩, hvalue, h⟩ := Except.bind_eq_ok.1 h
  obtain ⟨⟨index, st₂⟩, hindex, h⟩ := Except.bind_eq_ok.1 h
  obtain ⟨⟨array, st₃⟩, harray, h⟩ := Except.bind_eq_ok.1 h
  obtain ⟨hv, hst₁⟩ := Operands.pop_avoids hvalue hm.stack
  obtain ⟨hi, hst₂⟩ := Operands.pop_avoids hindex hst₁
  obtain ⟨ha, hst₃⟩ := Operands.pop_avoids harray hst₂
  have ht : (Place.element array index).Avoids B := by
    intro e he
    rcases List.mem_pair.1 he with rfl | rfl
    · exact ha
    · exact hi
  have hm₃ : Grown B ss t { m with stack := st₃ } := hm.withStack hst₃
  simp only at h
  split at h
  -- an array literal that waits below is filled in place
  · rename_i top below
    split at h
    · split at h
      · rename_i filled hfilled
        cases h
        have htop : top.Avoids B := hst₃ top (List.mem_cons_self ..)
        exact hm₃.pushOn hst₃.of_cons (hB.stored htop hv hfilled)
      · split at h
        · cases h
        · exact hm₃.assign hB ht hv h
    · exact hm₃.assign hB ht hv h
  · exact hm₃.assign hB ht hv h

/-- A constructor call completes the object below, or it is a statement. -/
theorem construct (hB : Foreign B) (hm : m.Grown B ss t) (hst : st.Avoids B) {type : String}
    (he : e.Avoids B) (h : m.construct st type e = .ok m') : m'.Grown B ss t := by
  unfold Simulation.construct at h
  split at h
  · split at h
    · cases h
      exact hm.pushOn hst.of_cons he
    · exact (hm.withStack hst).append rfl (hB.eval he) h
  · exact (hm.withStack hst).append rfl (hB.eval he) h

/-- A call takes its arguments and its receiver from the stack. -/
theorem invoke (hB : Foreign B) (hm : m.Grown B ss t) {dispatch : Dispatch} {f : MethodRef}
    (hf : Insn.Spares B (.invoke dispatch f)) (h : m.invoke dispatch f = .ok m') :
    m'.Grown B ss t := by
  obtain ⟨sig, _, h⟩ := Except.bind_eq_ok.1 h
  obtain ⟨⟨args, st⟩, hargs, h⟩ := Except.bind_eq_ok.1 h
  obtain ⟨hargs, hst⟩ := Operands.popMany_avoids hargs hm.stack
  have hargs := Expr.allAvoid_iff.2 hargs
  simp only at h
  split at h
  · obtain ⟨⟨o, st'⟩, ho, h⟩ := Except.bind_eq_ok.1 h
    obtain ⟨ho, hst'⟩ := Operands.popEntry_avoids ho hst
    cases o with
    | value receiver =>
      refine hm.emitCall hB hst' (Expr.avoids_of_nodes (by rw [Expr.nodes]) (hf f rfl _ rfl)
        fun n hn => ?_) h
      rcases List.mem_append.1 hn with hn | hn
      · exact ho receiver rfl n hn
      · exact hargs n hn
    -- a constructor turns the fresh object into a value
    | uninitialized type =>
      simp only at h
      split at h
      · refine hm.construct hB hst'
          (Expr.avoids_of_nodes (by rw [Expr.nodes]) (hB.expr _ rfl) hargs) h
      · cases h
  · exact hm.emitCall hB hst
      (Expr.avoids_of_nodes (by rw [Expr.nodes]) (hf f rfl _ rfl) hargs) h

/-- A value that is dropped becomes a statement if it has effects. -/
theorem pop (hB : Foreign B) (hm : m.Grown B ss t) (h : m.pop = .ok m') : m'.Grown B ss t := by
  obtain ⟨⟨o, st⟩, ho, h⟩ := Except.bind_eq_ok.1 h
  obtain ⟨ho, hst⟩ := Operands.popEntry_avoids ho hm.stack
  unfold discard at h
  simp only at h
  split at h
  · split at h
    · exact (hm.withStack hst).append rfl (hB.eval (ho _ rfl)) h
    · cases h
      exact hm.withStack hst
  · cases h
    exact hm.withStack hst

/-- The same for two entries or one wide one. -/
theorem pop2 (hB : Foreign B) (hm : m.Grown B ss t) (h : m.pop2 = .ok m') : m'.Grown B ss t := by
  obtain ⟨m₁, hm₁, h⟩ := Except.bind_eq_ok.1 h
  split at h
  · cases h
    exact hm.pop hB hm₁
  · exact (hm.pop hB hm₁).pop hB h

/-- An operator of one operand. -/
theorem unary (hm : m.Grown B ss t) {f : Expr → Expr}
    (hf : ∀ e : Expr, e.Avoids B → (f e).Avoids B) (h : m.unary f = .ok m') :
    m'.Grown B ss t := by
  obtain ⟨⟨e, st⟩, he, h⟩ := Except.bind_eq_ok.1 h
  obtain ⟨he, hst⟩ := Operands.pop_avoids he hm.stack
  cases h
  exact hm.pushOn hst (hf e he)

/-- An operator of two operands. -/
theorem binary (hm : m.Grown B ss t) {f : Expr → Expr → Expr}
    (hf : ∀ l r : Expr, l.Avoids B → r.Avoids B → (f l r).Avoids B) (h : m.binary f = .ok m') :
    m'.Grown B ss t := by
  obtain ⟨⟨right, st₁⟩, hr, h⟩ := Except.bind_eq_ok.1 h
  obtain ⟨⟨left, st₂⟩, hl, h⟩ := Except.bind_eq_ok.1 h
  obtain ⟨hr, hst₁⟩ := Operands.pop_avoids hr hm.stack
  obtain ⟨hl, hst₂⟩ := Operands.pop_avoids hl hst₁
  cases h
  exact hm.pushOn hst₂ (hf left right hl hr)

/-- A copy below the two entries under the top. -/
theorem dupX2 (hm : m.Grown B ss t) (h : m.dupX2 = .ok m') : m'.Grown B ss t := by
  obtain ⟨⟨v₁, st₁⟩, h₁, h⟩ := Except.bind_eq_ok.1 h
  obtain ⟨_, _, h⟩ := Except.bind_eq_ok.1 h
  obtain ⟨⟨v₂, st₂⟩, h₂, h⟩ := Except.bind_eq_ok.1 h
  obtain ⟨h₁, hst₁⟩ := Operands.popEntry_avoids h₁ hm.stack
  obtain ⟨h₂, hst₂⟩ := Operands.popEntry_avoids h₂ hst₁
  simp only at h
  split at h
  · cases h
    exact hm.withStack (((hst₂.cons h₁).cons h₂).cons h₁)
  · obtain ⟨⟨v₃, st₃⟩, h₃, h⟩ := Except.bind_eq_ok.1 h
    obtain ⟨h₃, hst₃⟩ := Operands.popEntry_avoids h₃ hst₂
    cases h
    exact hm.withStack ((((hst₃.cons h₁).cons h₃).cons h₂).cons h₁)

/-- A copy of the two entries on top. -/
theorem dup2 (hm : m.Grown B ss t) (h : m.dup2 = .ok m') : m'.Grown B ss t := by
  obtain ⟨⟨v₁, st₁⟩, h₁, h⟩ := Except.bind_eq_ok.1 h
  obtain ⟨h₁, hst₁⟩ := Operands.popEntry_avoids h₁ hm.stack
  simp only at h
  split at h
  · obtain ⟨_, _, h⟩ := Except.bind_eq_ok.1 h
    cases h
    exact hm.withStack ((hst₁.cons h₁).cons h₁)
  · obtain ⟨⟨v₂, st₂⟩, h₂, h⟩ := Except.bind_eq_ok.1 h
    obtain ⟨_, _, h⟩ := Except.bind_eq_ok.1 h
    obtain ⟨_, _, h⟩ := Except.bind_eq_ok.1 h
    obtain ⟨h₂, hst₂⟩ := Operands.popEntry_avoids h₂ hst₁
    cases h
    exact hm.withStack ((((hst₂.cons h₂).cons h₁).cons h₂).cons h₁)

/-- The two entries on top change places. -/
theorem swap (hm : m.Grown B ss t) (h : m.swap = .ok m') : m'.Grown B ss t := by
  obtain ⟨⟨v₁, st₁⟩, h₁, h⟩ := Except.bind_eq_ok.1 h
  obtain ⟨⟨v₂, st₂⟩, h₂, h⟩ := Except.bind_eq_ok.1 h
  obtain ⟨h₁, hst₁⟩ := Operands.popEntry_avoids h₁ hm.stack
  obtain ⟨h₂, hst₂⟩ := Operands.popEntry_avoids h₂ hst₁
  cases h
  exact hm.withStack ((hst₂.cons h₁).cons h₂)

end Grown

/-! ### Instructions that take in the next one -/

/-- The outcome of an instruction with the one behind it: it keeps the invariant, and neither of
    two instructions that are taken together is a call. -/
structure Outcome.Grown (B : Node → Prop) (ss : List Stmt) (t : Locals) (insn : Insn)
    (next : Option Insn) (out : Outcome) : Prop where
  state : out.state.Grown B ss
    (if out.tookNext then Insn.bindAll t (insn :: next.toList) else Insn.bind t insn)
  took : out.tookNext = true → ∀ i ∈ insn :: next.toList, i.callee? = none

/-- An instruction that stands for itself. -/
theorem Outcome.Grown.alone {insn : Insn} {next : Option Insn}
    (hm : m.Grown B ss (insn.bind t)) : (Simulation.alone m).Grown B ss t insn next where
  state := hm
  took h := by cases h

/-- The store behind a copy has a target, and calls nothing. -/
theorem Grown.storeTarget (hm : m.Grown B ss t) {next : Option Insn}
    (h : m.storeTarget? next = .ok (some (target, m'))) :
    m'.Grown B ss (Insn.bindAll t next.toList) ∧ target.Avoids B ∧
      ∀ i ∈ next.toList, i.callee? = none := by
  have hnone : ∀ {target : Place}, target.operands = [] → target.Avoids B := fun h e he => by
    rw [h] at he
    cases he
  unfold storeTarget? at h
  split at h
  · obtain ⟨r, hr, h⟩ := Except.map_eq_ok.1 h
    cases h
    exact ⟨hm.resolve hr, hnone rfl, by simp [Insn.callee?]⟩
  · cases h
    exact ⟨hm, hnone rfl, by simp [Insn.callee?]⟩
  · cases h

/-- A copy, alone or together with the store behind it. -/
theorem Grown.dup (hB : Foreign B) (hm : m.Grown B ss t) {next : Option Insn} {out : Outcome}
    (h : Simulation.dup config m next = .ok out) : out.Grown B ss t .dup next := by
  obtain ⟨⟨top, st⟩, htop, h⟩ := Except.bind_eq_ok.1 h
  obtain ⟨htop, hst⟩ := Operands.popEntry_avoids htop hm.stack
  simp only at h
  split at h
  · split at h
    · obtain ⟨target?, htarget, h⟩ := Except.bind_eq_ok.1 h
      split at h
      · rename_i target m₁
        obtain ⟨m₂, hm₂, h⟩ := Except.bind_eq_ok.1 h
        cases h
        obtain ⟨hm₁, ht, hnext⟩ := (hm.withStack hst).storeTarget htarget
        have hm₂ := hm₁.assign hB ht (htop _ rfl) hm₂
        refine ⟨hm₂.pushOn hm₂.stack (hB.read ht), fun _ i hi => ?_⟩
        rcases List.mem_cons.1 hi with rfl | hi
        · rfl
        · exact hnext i hi
      · cases h
    · cases h
      exact .alone (hm.withStack ((hst.cons htop).cons htop))
  · cases h
    exact .alone (hm.withStack ((hst.cons htop).cons htop))

/-- A copy below the next entry, alone or together with the store behind it. -/
theorem Grown.dupX1 (hB : Foreign B) (hm : m.Grown B ss t) {next : Option Insn} {out : Outcome}
    (h : Simulation.dupX1 config m next = .ok out) : out.Grown B ss t .dupX1 next := by
  obtain ⟨⟨v₁, st₁⟩, hpop₁, h⟩ := Except.bind_eq_ok.1 h
  obtain ⟨⟨v₂, st₂⟩, hpop₂, h⟩ := Except.bind_eq_ok.1 h
  obtain ⟨h₁, hst₁⟩ := Operands.popEntry_avoids hpop₁ hm.stack
  obtain ⟨h₂, hst₂⟩ := Operands.popEntry_avoids hpop₂ hst₁
  simp only at h
  split at h
  · rename_i value receiver f _ _
    split at h
    · cases h
    · obtain ⟨m₁, hm₁, h⟩ := Except.bind_eq_ok.1 h
      cases h
      have ht : (Place.field f receiver).Avoids B := fun e he => by
        rw [List.mem_singleton.1 he]
        exact h₂ receiver rfl
      have hm₁ := (hm.withStack hst₂).assign hB ht (h₁ value rfl) hm₁
      exact ⟨hm₁.pushOn hm₁.stack (hB.read ht), fun _ i hi => by
        rcases List.mem_pair.1 hi with rfl | rfl <;> rfl⟩
  · obtain ⟨_, _, h⟩ := Except.bind_eq_ok.1 h
    cases h
    exact .alone (hm.withStack (((hst₂.cons h₁).cons h₂).cons h₁))

/-! ### Instructions -/

/-- An instruction keeps the invariant if it does not call one of the methods that `B` names. -/
theorem step_grown (hB : Foreign B) {prev next : Option Insn} {insn : Insn} {out : Outcome}
    (hm : m.Grown B ss t) (hinsn : insn.Spares B)
    (h : step config m prev insn next = .ok out) : out.Grown B ss t insn next := by
  -- operators are no calls, so what they build holds only what their operands hold
  have hunary : ∀ {f : Expr → Expr}, (∀ e, (f e).nodes = .expr (f e) :: e.nodes) →
      (∀ e, (f e).callee? = none) → ∀ e : Expr, e.Avoids B → (f e).Avoids B :=
    fun hnodes hcall e he => Expr.avoids_of_nodes (hnodes e) (hB.expr _ (hcall e)) he
  have hbinary : ∀ {f : Expr → Expr → Expr},
      (∀ l r, (f l r).nodes = .expr (f l r) :: (l.nodes ++ r.nodes)) →
      (∀ l r, (f l r).callee? = none) →
        ∀ l r : Expr, l.Avoids B → r.Avoids B → (f l r).Avoids B :=
    fun hnodes hcall l r hl hr => Expr.avoids_of_nodes (hnodes l r) (hB.expr _ (hcall l r))
      fun n hn => (List.mem_append.1 hn).elim (hl n) (hr n)
  cases insn with
  | const _ | getStatic _ =>
    cases h
    exact .alone (hm.pushOn hm.stack (hB.leaf rfl rfl))
  | new _ =>
    cases h
    exact .alone (hm.withStack (hm.stack.cons fun e he => by cases he))
  | store slot type =>
    obtain ⟨⟨value, st⟩, hvalue, h⟩ := Except.bind_eq_ok.1 h
    obtain ⟨⟨v, m₁⟩, hv, h⟩ := Except.bind_eq_ok.1 h
    obtain ⟨m₂, hm₂, rfl⟩ := Except.map_eq_ok.1 h
    obtain ⟨hvalue, hst⟩ := Operands.pop_avoids hvalue hm.stack
    have hm₁ := (hm.withStack hst).resolve hv
    exact .alone (hm₁.assign hB (fun e he => by cases he) hvalue hm₂)
  | putField f =>
    obtain ⟨⟨value, st₁⟩, hvalue, h⟩ := Except.bind_eq_ok.1 h
    obtain ⟨⟨receiver, st₂⟩, hreceiver, h⟩ := Except.bind_eq_ok.1 h
    obtain ⟨m₁, hm₁, rfl⟩ := Except.map_eq_ok.1 h
    obtain ⟨hvalue, hst₁⟩ := Operands.pop_avoids hvalue hm.stack
    obtain ⟨hreceiver, hst₂⟩ := Operands.pop_avoids hreceiver hst₁
    refine .alone ((hm.withStack hst₂).assign hB (fun e he => ?_) hvalue hm₁)
    rw [List.mem_singleton.1 he]
    exact hreceiver
  | putStatic f =>
    obtain ⟨⟨value, st⟩, hvalue, h⟩ := Except.bind_eq_ok.1 h
    obtain ⟨m₁, hm₁, rfl⟩ := Except.map_eq_ok.1 h
    obtain ⟨hvalue, hst⟩ := Operands.pop_avoids hvalue hm.stack
    exact .alone ((hm.withStack hst).assign hB (fun e he => by cases he) hvalue hm₁)
  -- only the two copies may take in the instruction behind them; all others stand alone
  | dup => exact hm.dup hB h
  | dupX1 => exact hm.dupX1 hB h
  | load _ _ =>
    obtain ⟨m₁, hm₁, rfl⟩ := Except.map_eq_ok.1 h
    exact .alone (hm.load hB hm₁)
  | increment _ _ =>
    obtain ⟨m₁, hm₁, rfl⟩ := Except.map_eq_ok.1 h
    exact .alone (hm.increment hB hm₁)
  | arrayStore _ =>
    obtain ⟨m₁, hm₁, rfl⟩ := Except.map_eq_ok.1 h
    exact .alone (hm.arrayStore hB hm₁)
  | invoke _ _ =>
    obtain ⟨m₁, hm₁, rfl⟩ := Except.map_eq_ok.1 h
    exact .alone (hm.invoke hB hinsn hm₁)
  | binary _ _ | compare _ | arrayLoad _ =>
    obtain ⟨m₁, hm₁, rfl⟩ := Except.map_eq_ok.1 h
    exact .alone (hm.binary (hbinary (fun _ _ => rfl) fun _ _ => rfl) hm₁)
  | negate _ | convert _ | checkCast _ | instanceOf _ | getField _ | arrayLength | newArray _ =>
    obtain ⟨m₁, hm₁, rfl⟩ := Except.map_eq_ok.1 h
    exact .alone (hm.unary (hunary (fun _ => rfl) fun _ => rfl) hm₁)
  | dupX2 =>
    obtain ⟨m₁, hm₁, rfl⟩ := Except.map_eq_ok.1 h
    exact .alone (hm.dupX2 hm₁)
  | dup2 =>
    obtain ⟨m₁, hm₁, rfl⟩ := Except.map_eq_ok.1 h
    exact .alone (hm.dup2 hm₁)
  | pop =>
    obtain ⟨m₁, hm₁, rfl⟩ := Except.map_eq_ok.1 h
    exact .alone (hm.pop hB hm₁)
  | pop2 =>
    obtain ⟨m₁, hm₁, rfl⟩ := Except.map_eq_ok.1 h
    exact .alone (hm.pop2 hB hm₁)
  | swap =>
    obtain ⟨m₁, hm₁, rfl⟩ := Except.map_eq_ok.1 h
    exact .alone (hm.swap hm₁)

/-- A whole run. By induction on the instructions. -/
theorem runAfter_grown (hB : Foreign B) {prev : Option Insn} {insns : List Insn}
    (hm : m.Grown B ss t) (hinsns : ∀ i ∈ insns, i.Spares B)
    (h : runAfter config prev m insns = .ok m') : m'.Grown B ss (Insn.bindAll t insns) := by
  fun_induction runAfter config prev m insns generalizing t with
  | case1 =>
    cases h
    exact hm
  | case2 prev m insn =>
    obtain ⟨_, _, h⟩ := Except.bind_eq_ok.1 h
    obtain ⟨out, hout, h⟩ := Except.bind_eq_ok.1 h
    cases h
    have hstate := (step_grown hB hm (hinsns insn (List.mem_singleton_self _)) hout).state
    rcases htook : out.tookNext with _ | _ <;> simpa [htook, Insn.bindAll] using hstate
  -- the induction goes two instructions on where the next one is taken
  | case3 prev m insn next rest ih ih' =>
    obtain ⟨_, _, h⟩ := Except.bind_eq_ok.1 h
    obtain ⟨out, hout, h⟩ := Except.bind_eq_ok.1 h
    have hstate := (step_grown hB hm (hinsns insn (List.mem_cons_self ..)) hout).state
    split at h
    · rename_i htook
      rw [if_pos htook] at hstate
      exact ih out hstate (fun i hi => hinsns i (by simp [hi])) h
    · rename_i htook
      rw [if_neg htook] at hstate
      exact ih' out hstate (fun i hi => hinsns i (List.mem_cons_of_mem _ hi)) h

/-- Instructions that do not call one of the methods that `B` names keep the invariant. -/
theorem run_grown (hB : Foreign B) {insns : List Insn} (hm : m.stack.Avoids B)
    (hinsns : ∀ i ∈ insns, i.Spares B) (h : run config m insns = .ok m') :
    m'.Grown B m.scope.stmts (Insn.bindAll m.scope.locals insns) :=
  runAfter_grown hB (.start hm) hinsns h

/-- Where no kind of node is of interest, every instruction keeps the invariant. -/
theorem run_grown_any {insns : List Insn} (h : run config m insns = .ok m') :
    m'.Grown (fun _ => False) m.scope.stmts (Insn.bindAll m.scope.locals insns) :=
  run_grown foreign_false (fun _ _ _ _ => id) (fun _ _ _ _ _ _ => id) h

/-- Simulated instructions edit the scope. -/
theorem run_edited {insns : List Insn} (h : run config m insns = .ok m') :
    Edited m.scope.stmts m'.scope.stmts := (run_grown_any h).stmts.edited

/-- Simulated instructions bind the slots that they name. -/
theorem run_locals {insns : List Insn} (h : run config m insns = .ok m') :
    m'.scope.locals = Insn.bindAll m.scope.locals insns := (run_grown_any h).locals

end Simulation

end Restructure
