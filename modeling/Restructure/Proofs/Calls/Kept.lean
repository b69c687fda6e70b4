import Restructure.Proofs.Region.Tally
import Restructure.Proofs.Region.Unmade
import Restructure.Proofs.Simulation.Products

namespace Restructure

/-!
# Kept calls — what names a method goes on naming it

An instruction drops values only where they have no effects, where they are literals, or where the
same value stays. So if neither the stack nor a statement names a method behind some instructions,
then neither did so before, and none of the instructions was a static call of it.

* `Node.Calls` — a call of a method; `Node.callees` — the methods that nodes are calls of.
* `Expr.callees_of_same` — values that are the same name the same methods.
* `branchCondition_keeps`, `Expr.Avoids.of_choose` — conditions and conditional values.
* `Simulation.move_keeps`, `Simulation.run_keeps` — an instruction, and a list of instructions.
-/

/-! ### Calls -/

/-- The node is a call of the method. -/
def Node.Calls (f : MethodRef) (n : Node) : Prop := n.calls f = true

/-- The method that the node is a call of. -/
def Node.callee? : Node → Option MethodRef
  | .expr e => e.callee?
  | _ => none

/-- The methods that the nodes are calls of, in the order of the nodes. -/
def Node.callees (ns : List Node) : List MethodRef := ns.filterMap Node.callee?

variable {f : MethodRef}

namespace Node

/-- A node calls what its callee is. -/
theorem calls_iff {n : Node} : n.Calls f ↔ n.callee? = some f := by
  cases n <;> simp [Calls, calls, callee?]

/-- A node without a callee calls nothing. -/
theorem not_calls {n : Node} (h : n.callee? = none) : ¬n.Calls f := by
  rw [calls_iff, h]
  exact Option.some_ne_none f ∘ Eq.symm

/-- A condition itself calls nothing. -/
theorem not_calls_cond (c : Cond) : ¬Calls f (.cond c) := not_calls rfl

/-- The callees of two lists of nodes stand in a row. -/
theorem callees_append (ns ms : List Node) : callees (ns ++ ms) = callees ns ++ callees ms :=
  List.filterMap_append

/-- A condition has no callee. -/
theorem callees_cond (c : Cond) (ns : List Node) : callees (.cond c :: ns) = callees ns := rfl

/-- The callee of a value, if it is a call. -/
theorem callees_expr (e : Expr) (ns : List Node) :
    callees (.expr e :: ns) = e.callee?.toList ++ callees ns := by
  cases h : e.callee? <;> simp [callees, callee?, h]

/-- Nodes do not call the method if it is not among their callees. -/
theorem avoid_calls_iff {ns : List Node} : (∀ n ∈ ns, ¬n.Calls f) ↔ f ∉ callees ns := by
  simp [callees, calls_iff]

end Node

/-- The parts of a value that is no call of the method itself. -/
theorem Expr.uncalled {e : Expr} {ns : List Node} (hnodes : e.nodes = .expr e :: ns)
    (he : e.callee? = none) (hns : ∀ n ∈ ns, ¬n.Calls f) : e.Avoids (Node.Calls f) :=
  Expr.avoids_of_nodes hnodes (Node.not_calls he) hns

/-- A value without effects names no method. -/
theorem Expr.uncalled_of_pure {e : Expr} (h : e.hasEffects = false) : e.Avoids (Node.Calls f) := by
  rw [Expr.hasEffects_eq, List.any_eq_false] at h
  intro n hn hcalls
  refine h n hn ?_
  cases n with
  | expr e => cases e <;> first | rfl | cases hcalls
  | _ => cases hcalls

/-! ### Equal values -/

open Node in
/-- Values that are the same name the same methods. -/
theorem Expr.callees_of_same (a b : Expr) (h : a.same b = true) :
    callees a.nodes = callees b.nodes := by
  revert h
  apply Expr.same.induct
    (fun a b => a.same b = true → callees a.nodes = callees b.nodes)
    (fun c d => c.same d = true → callees c.nodes = callees d.nodes)
    (fun cs ds => Cond.allSame cs ds = true →
      callees (Cond.allNodes cs) = callees (Cond.allNodes ds))
    (fun as bs => Expr.allSame as bs = true →
      callees (Expr.allNodes as) = callees (Expr.allNodes bs))
  -- literals, locals, static fields and increments
  case case1 | case2 | case4 | case18 =>
    intros
    rw [nodes, nodes]
    rfl
  -- one operand
  case case3 | case9 | case10 | case11 =>
    intro _ _ _ _ ih h
    rw [same, Bool.and_eq_true] at h
    rw [nodes, nodes, callees_expr, callees_expr, ih h.2]
    rfl
  case case6 | case8 =>
    intro _ _ ih h
    rw [same] at h
    rw [nodes, nodes, callees_expr, callees_expr, ih h]
    rfl
  -- two operands, or a size and values
  case case5 =>
    intro _ _ _ _ ihl ihr h
    rw [same, Bool.and_eq_true] at h
    rw [nodes, nodes, callees_expr, callees_expr, callees_append, callees_append, ihl h.1, ihr h.2]
    rfl
  case case7 | case12 | case17 =>
    intro _ _ _ _ _ _ ihl ihr h
    rw [same, Bool.and_eq_true, Bool.and_eq_true] at h
    rw [nodes, nodes, callees_expr, callees_expr, callees_append, callees_append, ihl h.1.2,
      ihr h.2]
    rfl
  -- constructions and calls
  case case13 =>
    intro _ _ _ _ _ _ ihargs h
    rw [same, Bool.and_eq_true] at h
    rw [nodes, nodes, callees_expr, callees_expr, ihargs h.2]
    rfl
  case case14 =>
    intro _ _ _ _ _ _ ihreceiver ihargs h
    simp only [same, Bool.and_eq_true, beq_iff_eq] at h
    rw [nodes, nodes, callees_expr, callees_expr, callees_append, callees_append,
      ihreceiver h.1.2, ihargs h.2, callee?, callee?, h.1.1]
  case case15 =>
    intro _ _ _ _ ihargs h
    simp only [same, Bool.and_eq_true, beq_iff_eq] at h
    rw [nodes, nodes, callees_expr, callees_expr, ihargs h.2, callee?, callee?, h.1]
  case case16 =>
    intro _ _ _ _ _ _ ihtest iha ihb h
    simp only [same, Bool.and_eq_true] at h
    rw [nodes, nodes, callees_expr, callees_expr, callees_append, callees_append, callees_append,
      callees_append, ihtest h.1.1, iha h.1.2, ihb h.2]
    rfl
  -- tests
  case case20 =>
    intro _ _ _ _ ih h
    rw [Cond.same, Bool.and_eq_true] at h
    rw [Cond.nodes, Cond.nodes, callees_cond, callees_cond, ih h.1]
  case case21 =>
    intro _ _ _ _ _ _ ihl ihr h
    rw [Cond.same, Bool.and_eq_true, Bool.and_eq_true] at h
    rw [Cond.nodes, Cond.nodes, callees_cond, callees_cond, callees_append, callees_append,
      ihl h.1.1, ihr h.2]
  case case22 | case23 | case24 =>
    intro _ _ ih h
    rw [Cond.same] at h
    rw [Cond.nodes, Cond.nodes, callees_cond, callees_cond, ih h]
  -- several values and several tests
  case case26 | case29 => exact fun _ => rfl
  case case27 =>
    intro _ _ _ _ ihc ihcs h
    rw [Cond.allSame, Bool.and_eq_true] at h
    rw [Cond.allNodes, Cond.allNodes, callees_append, callees_append, ihc h.1, ihcs h.2]
  case case30 =>
    intro _ _ _ _ iha ihas h
    rw [allSame, Bool.and_eq_true] at h
    rw [allNodes, allNodes, callees_append, callees_append, iha h.1, ihas h.2]
  -- values and tests of different forms are not the same
  case case19 | case25 | case28 | case31 =>
    intros
    simp_all [same, allSame, Cond.same, Cond.allSame]

/-- Values that are the same call the same methods. -/
theorem Expr.uncalled_iff_of_same {a b : Expr} (h : a.same b = true) :
    a.Avoids (Node.Calls f) ↔ b.Avoids (Node.Calls f) := by
  unfold Expr.Avoids
  rw [Node.avoid_calls_iff, Node.avoid_calls_iff, Expr.callees_of_same a b h]

/-- A read of a destination names what the destination names. -/
theorem Place.uncalled_of_read {B : Node → Prop} {target : Place} (h : target.read.Avoids B) :
    target.Avoids B := by
  cases target with
  | var v | static g => exact fun e he => absurd he List.not_mem_nil
  | field g r =>
    have hr : r.Avoids B := h.parts (by rw [Place.read, Expr.nodes])
    exact fun e he => List.mem_singleton.1 he ▸ hr
  | element a i =>
    have hparts : ∀ n ∈ a.nodes ++ i.nodes, ¬B n := h.parts (by rw [Place.read, Expr.nodes])
    obtain ⟨ha, hi⟩ := List.forall_mem_append.1 hparts
    intro e he
    rcases List.mem_pair.1 he with rfl | rfl
    · exact ha
    · exact hi

/-- A place that is read calls what its operands call. -/
theorem Place.read_uncalled {target : Place} (h : target.Avoids (Node.Calls f)) :
    target.read.Avoids (Node.Calls f) := by
  cases target with
  | var v | static g => exact Expr.uncalled rfl rfl fun _ hn => absurd hn List.not_mem_nil
  | field g r => exact Expr.uncalled (by rw [read, Expr.nodes]) rfl (h r (by simp [operands]))
  | element a i =>
    refine Expr.uncalled (by rw [read, Expr.nodes]) rfl (List.forall_mem_append.2 ⟨?_, ?_⟩)
    · exact h a (by simp [operands])
    · exact h i (by simp [operands])

/-- Destinations that are the same name the same methods. -/
theorem Place.uncalled_of_same {target target' : Place} (hsame : target.same target' = true)
    (h : target.Avoids (Node.Calls f)) : target'.Avoids (Node.Calls f) := by
  have hread : target.read.same target'.read = true := by
    cases target <;> cases target' <;> simp_all [same, read, Expr.same]
  exact uncalled_of_read ((Expr.uncalled_iff_of_same hread).1 (read_uncalled h))

/-! ### Conditions -/

/-- A condition holds the value that it tests. -/
theorem zeroTest_keeps {e : Expr} {o : Relation} (h : (zeroTest e o).Avoids (Node.Calls f)) :
    e.Avoids (Node.Calls f) := by
  unfold zeroTest at h
  split at h
  · exact Expr.uncalled (by rw [Expr.nodes]) rfl (h.parts (by rw [Cond.nodes]))
  · split at h
    · exact h.parts (by rw [Cond.nodes])
    · split at h
      · exact h.parts (by rw [Cond.nodes])
      · exact (List.forall_mem_append.1 (h.parts (by rw [Cond.nodes]))).1

/-- The condition of a branch holds the values that it takes from the stack. -/
theorem branchCondition_keeps {test : Branch} {st st' : Operands} {cond : Cond}
    (h : branchCondition test st = .ok (cond, st')) (hcond : cond.Avoids (Node.Calls f))
    (hst' : st'.Avoids (Node.Calls f)) : st.Avoids (Node.Calls f) := by
  cases test with
  | zero o =>
    obtain ⟨⟨e, st₁⟩, hpop, h⟩ := Except.bind_eq_ok.1 h
    cases h
    rw [Simulation.pop_ok hpop]
    exact hst'.push (zeroTest_keeps hcond)
  | values o =>
    obtain ⟨⟨r, st₁⟩, hr, h⟩ := Except.bind_eq_ok.1 h
    obtain ⟨⟨l, st₂⟩, hl, h⟩ := Except.bind_eq_ok.1 h
    cases h
    obtain ⟨hleft, hright⟩ := List.forall_mem_append.1 (hcond.parts (by rw [Cond.nodes]))
    rw [Simulation.pop_ok hr, Simulation.pop_ok hl]
    exact (hst'.push hleft).push hright
  | isNull | isNotNull =>
    obtain ⟨⟨e, st₁⟩, hpop, h⟩ := Except.bind_eq_ok.1 h
    cases h
    rw [Simulation.pop_ok hpop]
    exact hst'.push (List.forall_mem_append.1 (hcond.parts (by rw [Cond.nodes]))).1

/-- A conditional value holds its test and the values of its arms. -/
theorem Expr.Avoids.of_choose {t : BranchTest} {a b : Expr}
    (h : (t.choose a b).Avoids (Node.Calls f)) :
    t.cond.Avoids (Node.Calls f) ∧ a.Avoids (Node.Calls f) ∧ b.Avoids (Node.Calls f) := by
  obtain ⟨hfirst, hb⟩ := List.forall_mem_append.1 (h.parts (by rw [BranchTest.choose, Expr.nodes]))
  obtain ⟨ht, ha⟩ := List.forall_mem_append.1 hfirst
  exact ⟨Cond.avoids_of_negate Node.not_calls_cond _ ht, ha, hb⟩

/-! ### What instructions put and add -/

/-- A call holds its arguments and its receiver. -/
theorem MethodRef.uncalled_of_on {g : MethodRef} {args : List Expr} {receiver : Option Expr}
    (h : (g.on args receiver).Avoids (Node.Calls f)) :
    g ≠ f ∧ Operands.Avoids (Node.Calls f)
      (Operands.ofArgs args ++ receiver.toList.map .value) := by
  have hself : ¬Node.Calls f (.expr (g.on args receiver)) :=
    h _ (by rw [Expr.nodes.eq_def]; exact List.mem_cons_self ..)
  have hne : g ≠ f := by
    rintro rfl
    refine hself (Node.calls_iff.2 ?_)
    cases receiver <;> rfl
  refine ⟨hne, fun e he => ?_⟩
  have hmem : e ∈ args ∨ receiver = some e := by
    rcases List.mem_append.1 he with he | he
    · exact .inl (by simpa [Operands.ofArgs] using he)
    · exact .inr (by simpa using he)
  cases receiver with
  | none =>
    have hargs := Expr.allAvoid_iff.1 (h.parts (by rw [MethodRef.on, Expr.nodes]))
    exact hargs e (hmem.resolve_right (by simp))
  | some r =>
    obtain ⟨hr, hargs⟩ := List.forall_mem_append.1 (h.parts (by rw [MethodRef.on, Expr.nodes]))
    rcases hmem with hmem | hmem
    · exact Expr.allAvoid_iff.1 hargs e hmem
    · exact Option.some.inj hmem ▸ hr

/-- A store into an array keeps the array and the value. -/
theorem Expr.Avoids.of_stored {array index value filled : Expr} (hcomplete : array.IsComplete)
    (hstored : Expr.stored? array index value = some filled)
    (h : filled.Avoids (Node.Calls f)) :
    array.Avoids (Node.Calls f) ∧ index.Avoids (Node.Calls f) ∧ value.Avoids (Node.Calls f) := by
  have hliteral : ∀ {e : Expr} {n : Nat}, e.natLiteral? = some n → e.Avoids (Node.Calls f) := by
    intro e n he
    cases e with
    | const c => exact uncalled rfl rfl fun _ hn => absurd hn List.not_mem_nil
    | _ => cases he
  obtain ⟨t, size, values, n, i, hn, hi, hlt, rfl, harray⟩ := Expr.stored_cases hstored
  obtain ⟨hsize, hset⟩ := List.forall_mem_append.1 (h.parts (by rw [Expr.nodes]))
  have hset := Expr.allAvoid_iff.1 hset
  rcases harray with ⟨rfl, rfl⟩ | ⟨rfl, hdefaults⟩
  · have hmem : value ∈ (List.replicate n (defaultOf t)).set i value :=
      List.mem_set (by simpa using hlt) value
    exact ⟨uncalled (by rw [nodes]) rfl hsize, hliteral hi, hset value hmem⟩
  · have hlength : i < values.length := by
      rw [hcomplete t size values n rfl hn]
      exact hlt
    refine ⟨uncalled (by rw [nodes]) rfl (List.forall_mem_append.2 ⟨hsize, ?_⟩), hliteral hi,
      hset value (List.mem_set hlength value)⟩
    refine Expr.allAvoid_iff.2 fun e he => ?_
    obtain ⟨j, hj, rfl⟩ := List.getElem_of_mem he
    by_cases hji : i = j
    · -- what is replaced was a default value
      subst hji
      have hsame : (values[i]).same (defaultOf t) = true := by
        refine List.all_eq_true.1 hdefaults _ ?_
        rw [List.mem_iff_getElem]
        exact ⟨0, by simpa [Nat.sub_pos_iff_lt] using hj, by simp⟩
      refine (uncalled_iff_of_same hsame).2 ?_
      exact uncalled rfl rfl fun _ hn => absurd hn List.not_mem_nil
    · exact hset _ (List.mem_iff_getElem.2 ⟨j, by simpa using hj, List.getElem_set_ne hji _⟩)

namespace Simulation

variable {config : Config} {m m' : Simulation} {prev next : Option Insn} {insn : Insn}
  {taken put rest : Operands} {edit : Edit} {took : Bool}

/-- An assignment holds its destination and its value; the operand that a compound assignment drops
    is the same as its destination. -/
theorem assignment_keeps {target : Place} {value : Expr}
    (h : (assignment config target value).Avoids (Node.Calls f)) :
    target.Avoids (Node.Calls f) ∧ value.Avoids (Node.Calls f) := by
  unfold assignment at h
  split at h
  · rename_i op left right hparts
    obtain ⟨htarget, hright⟩ := List.forall_mem_append.1 (h.parts (by rw [Stmt.nodes]))
    have htarget := Expr.allAvoid_iff.1 htarget
    unfold compoundParts? at hparts
    split at hparts
    · split at hparts
      · rename_i hsame
        cases hparts
        have hleft := (Expr.uncalled_iff_of_same (Bool.and_eq_true_iff.1 hsame).2).2
          (Place.read_uncalled htarget)
        exact ⟨htarget, Expr.uncalled (by rw [Expr.nodes]) rfl
          (List.forall_mem_append.2 ⟨hleft, hright⟩)⟩
      · cases hparts
    · cases hparts
  · obtain ⟨htarget, hvalue⟩ := List.forall_mem_append.1 (h.parts (by rw [Stmt.nodes]))
    exact ⟨Expr.allAvoid_iff.1 htarget, hvalue⟩

/-- What is dropped stays as a statement or has no effects. -/
theorem remains_keep {o : Operand} (h : ∀ s ∈ o.remains, s.Avoids (Node.Calls f)) (e : Expr)
    (he : o = .value e) : e.Avoids (Node.Calls f) := by
  subst he
  cases heffects : e.hasEffects with
  | false => exact Expr.uncalled_of_pure heffects
  | true =>
    have hs : (Stmt.eval e).Avoids (Node.Calls f) := h _ (by simp [Operand.remains, heffects])
    exact hs.parts (by rw [Stmt.nodes])

/-- What an instruction puts on the stack and adds to the statements names all that it takes, and
    the method that it calls. -/
theorem move_keeps (hmove : Move config prev next insn taken put edit took)
    (hcomplete : taken.AllComplete) (hput : put.Avoids (Node.Calls f))
    (hadded : ∀ ss, edit = .add ss → ∀ s ∈ ss, s.Avoids (Node.Calls f)) :
    taken.Avoids (Node.Calls f) ∧ insn ≠ .invoke .static f := by
  have hnil : Operands.Avoids (Node.Calls f) [] := Operands.avoids_nil
  cases hmove
  case unary e hf =>
    have hop := hput _ (List.mem_singleton_self _)
    have he : e.Avoids (Node.Calls f) := by
      cases insn <;> cases hf <;> exact hop.parts (by rw [Expr.nodes])
    exact ⟨hnil.push he, by rintro rfl; cases hf⟩
  case binary left right hf =>
    have hop := hput _ (List.mem_singleton_self _)
    have hparts : ∀ n ∈ left.nodes ++ right.nodes, ¬n.Calls f := by
      cases insn <;> cases hf <;> exact hop.parts (by rw [Expr.nodes])
    obtain ⟨hleft, hright⟩ := List.forall_mem_append.1 hparts
    exact ⟨(hnil.push hleft).push hright, by rintro rfl; cases hf⟩
  case store value htarget =>
    obtain ⟨_, hvalue⟩ := assignment_keeps (hadded _ rfl _ (List.mem_singleton_self _))
    exact ⟨hnil.push hvalue, by cases htarget <;> simp⟩
  case putField g receiver value =>
    obtain ⟨htarget, hvalue⟩ := assignment_keeps (hadded _ rfl _ (List.mem_singleton_self _))
    exact ⟨(hnil.push (htarget receiver (List.mem_singleton_self _))).push hvalue, by simp⟩
  case arrayStore t array index value =>
    obtain ⟨htarget, hvalue⟩ := assignment_keeps (hadded _ rfl _ (List.mem_singleton_self _))
    have harray := htarget array (by simp [Place.operands])
    have hindex := htarget index (by simp [Place.operands])
    exact ⟨((hnil.push harray).push hindex).push hvalue, by simp⟩
  case fill array index value top filled t hsame hfilled =>
    have htop : top.IsComplete := hcomplete (.value top) (by simp)
    obtain ⟨htop, hindex, hvalue⟩ :=
      (hput _ (List.mem_singleton_self _)).of_stored htop hfilled
    have harray := (Expr.uncalled_iff_of_same hsame).1 htop
    exact ⟨(((hnil.push htop).push harray).push hindex).push hvalue, by simp⟩
  case invoke dispatch g sig args receiver hg hargs hreceiver hvoid =>
    obtain ⟨hne, htaken⟩ := MethodRef.uncalled_of_on (hput _ (List.mem_singleton_self _))
    exact ⟨htaken, by simpa using fun _ => hne⟩
  case invokeVoid dispatch g sig args receiver hg hargs hreceiver hvoid =>
    have hcall := hadded _ rfl _ (List.mem_singleton_self _)
    obtain ⟨hne, htaken⟩ := MethodRef.uncalled_of_on (hcall.parts (by rw [Stmt.nodes]))
    exact ⟨htaken, by simpa using fun _ => hne⟩
  case construct g sig args type hg hargs hname =>
    have hmade := hadded _ rfl _ (List.mem_singleton_self _)
    have hnew : (Expr.new type g.descriptor args).Avoids (Node.Calls f) :=
      hmade.parts (by rw [Stmt.nodes])
    have hargs := Expr.allAvoid_iff.1 (hnew.parts (by rw [Expr.nodes]))
    exact ⟨fun e he => hargs e (by simpa [Operands.ofArgs] using he), by simp⟩
  case constructCopy g sig args type hg hargs hname =>
    have hnew := hput _ (List.mem_singleton_self _)
    have hargs := Expr.allAvoid_iff.1 (hnew.parts (by rw [Expr.nodes]))
    exact ⟨fun e he => hargs e (by simpa [Operands.ofArgs] using he), by simp⟩
  case dupStore e target insn he hnext htarget =>
    obtain ⟨_, hvalue⟩ := assignment_keeps (hadded _ rfl _ (List.mem_singleton_self _))
    exact ⟨hnil.push hvalue, by simp⟩
  case dupX1Store value receiver g hreceiver hnext =>
    obtain ⟨htarget, hvalue⟩ := assignment_keeps (hadded _ rfl _ (List.mem_singleton_self _))
    exact ⟨(hnil.push (htarget receiver (List.mem_singleton_self _))).push hvalue, by simp⟩
  case pop o => exact ⟨hnil.cons (remains_keep (hadded _ rfl)), by simp⟩
  case pop2Wide o hwide => exact ⟨hnil.cons (remains_keep (hadded _ rfl)), by simp⟩
  case pop2 o p hwide =>
    obtain ⟨ho, hp⟩ := List.forall_mem_append.1 (hadded _ rfl)
    exact ⟨(hnil.cons (remains_keep hp)).cons (remains_keep ho), by simp⟩
  case incrementLoaded slot t n v w hprev hv hw =>
    exact ⟨hnil.push (Expr.uncalled rfl rfl fun _ hn => absurd hn List.not_mem_nil), by simp⟩
  case const | getStatic | new | load | loadIncremented | increment => exact ⟨hnil, by simp⟩
  -- the others put what they take, and more
  all_goals
    refine ⟨fun e he => hput e ?_, by simp⟩
    simp only [List.mem_cons, List.not_mem_nil, or_false] at he ⊢
    tauto

/-- Only an increment is taken back. -/
theorem takenBack_keeps {s : Stmt}
    (hmove : Move config prev next insn taken put (.takeBack s) took) :
    s.Avoids (Node.Calls f) := by
  cases hmove with
  | loadIncremented hv =>
    exact Stmt.avoids_of_nodes rfl (Node.not_calls rfl) fun _ hn => absurd hn List.not_mem_nil

/-- An instruction that is taken in is a store. -/
theorem ne_of_tookNext (hmove : Move config prev next insn taken put edit true) :
    next ≠ some (.invoke .static f) := by
  rintro rfl
  cases hmove with
  | dupStore he hnext htarget =>
    cases hnext
    cases htarget
  | dupX1Store hreceiver hnext => cases hnext

/-- What names no method behind an instruction named none before it, and the instruction does not
    call one. -/
theorem makes_keeps {out : Outcome} (h : Makes config m prev insn next out taken put rest edit)
    (hcomplete : m.stack.AllComplete) (hout : out.state.Avoids (Node.Calls f)) :
    m.Avoids (Node.Calls f) ∧ insn ≠ .invoke .static f := by
  have hstack := hout.stack
  have hmove := h.move
  have hstmts := h.stmts
  rw [h.after] at hstack
  have hadded : ∀ ss, edit = .add ss → ∀ s ∈ ss, s.Avoids (Node.Calls f) := by
    rintro ss rfl s hs
    exact hout.scope s (hstmts ▸ List.mem_append_right _ hs)
  obtain ⟨htaken, hinsn⟩ := move_keeps hmove
    (fun o ho => hcomplete o (h.before ▸ List.mem_append_left _ ho))
    (fun e he => hstack e (List.mem_append_left _ he)) hadded
  refine ⟨⟨fun e he => ?_, fun s hs => ?_⟩, hinsn⟩
  · rw [h.before] at he
    rcases List.mem_append.1 he with he | he
    · exact htaken e he
    · exact hstack e (List.mem_append_right _ he)
  · cases edit with
    | add ss => exact hout.scope s (hstmts ▸ List.mem_append_left _ hs)
    | takeBack t =>
      rw [hstmts] at hs
      rcases List.mem_append.1 hs with hs | hs
      · exact hout.scope s hs
      · exact List.mem_singleton.1 hs ▸ takenBack_keeps hmove

/-- A run keeps the calls of all of its instructions. By induction on its steps. -/
theorem turned_keeps {insns : List Insn} {gs : List Turn}
    (h : Turned config prev m insns gs m') (hcomplete : m.stack.AllComplete) :
    m'.stack.AllComplete ∧
      (m'.Avoids (Node.Calls f) → m.Avoids (Node.Calls f) ∧ .invoke .static f ∉ insns) := by
  induction h with
  | nil prev m => exact ⟨hcomplete, fun hm => ⟨hm, List.not_mem_nil⟩⟩
  | cons g hstep hinsns h ih =>
    obtain ⟨taken, put, rest, edit, hmakes⟩ := moves_of_step hstep
    obtain ⟨hcomplete', hrun⟩ := ih (allComplete_of_makes hmakes hcomplete)
    refine ⟨hcomplete', fun hm' => ?_⟩
    obtain ⟨hafter, his⟩ := hrun hm'
    obtain ⟨hbefore, hinsn⟩ := makes_keeps hmakes hcomplete hafter
    refine ⟨hbefore, fun hmem => ?_⟩
    rw [hinsns, Turn.insns] at hmem
    rcases List.mem_append.1 hmem with hmem | hmem
    · rcases List.mem_cons.1 hmem with heq | hmem
      · exact hinsn heq.symm
      · -- the instruction behind has been taken in
        split at hmem
        · rename_i htook
          have hmove := hmakes.move
          rw [htook] at hmove
          exact ne_of_tookNext hmove (Option.mem_toList.1 hmem)
        · cases hmem
    · exact his hmem

/-- What names no method behind some instructions named none before them, and none of them calls
    one. -/
theorem run_keeps {insns : List Insn} (h : run config m insns = .ok m')
    (hcomplete : m.stack.AllComplete) :
    m'.stack.AllComplete ∧
      (m'.Avoids (Node.Calls f) → m.Avoids (Node.Calls f) ∧ .invoke .static f ∉ insns) :=
  turned_keeps (turned_of_runAfter h) hcomplete

end Simulation

end Restructure
