import Restructure.Proofs.Simulation.Stages

namespace Restructure

/-!
# Initializers — constants stored into a new array

A new array whose elements are stored right away, in ascending order, is written with its values
between braces. Each store is folded if the array below is the same as the one it stores into. An
array that holds a not-a-number is not the same as itself, so the stores behind one are written as
statements.

* `Expr.initialized` — the construction of an array with some of its elements given.
* `Simulation.initializer` — the instructions that make an array and store constants into it.
* `Simulation.run_initializer` — stores are folded up to the first not-a-number, and not behind it.
-/

/-! ### Constants -/

namespace Constant

/-- The constant is a floating point one that is not a number. -/
def isNaN : Constant → Bool
  | float bits => Decimal.Format.single.isNaN bits.toNat
  | double bits => Decimal.Format.double.isNaN bits.toNat
  | _ => false

/-- Only a not-a-number differs from itself. -/
theorem same_self (c : Constant) : c.same c = !c.isNaN := by
  cases c <;> simp [same, isNaN, Decimal.Format.equal]

end Constant

/-! ### Arrays with given elements -/

namespace Expr

/-- The values of an array of `n` elements: the given constants, and the default elsewhere. -/
def elements (t : String) (n : Nat) (pairs : List (Nat × Constant)) : List Expr :=
  (List.range n).map fun i => ((pairs.lookup i).map const).getD (defaultOf t)

/-- The construction of an array of `n` elements with the given constants, if there are any. -/
def initialized (t : String) (n : Nat) (pairs : List (Nat × Constant)) : Expr :=
  if pairs.isEmpty then .newArray t (int n) else .arrayOf t (int n) (elements t n pairs)

variable {t : String} {n i : Nat} {c : Constant} {pairs : List (Nat × Constant)}

/-- An initializer has as many values as the array. -/
@[simp] theorem length_elements : (elements t n pairs).length = n := by simp [elements]

/-- Without stores all values are defaults. -/
theorem elements_nil : elements t n [] = List.replicate n (defaultOf t) := by
  simp [elements]

/-- Each value is the constant stored there, or the default. -/
theorem getElem_elements {j : Nat} (hj : j < (elements t n pairs).length) :
    (elements t n pairs)[j] = ((pairs.lookup j).map const).getD (defaultOf t) := by
  simp [elements]

/-- Behind the last index nothing has been stored. -/
theorem lookup_eq_none {j : Nat} (hj : ∀ p ∈ pairs, p.1 < i) (hij : i ≤ j) :
    pairs.lookup j = none := by
  refine List.lookup_eq_none_iff.2 fun p hp => ?_
  have := hj p hp
  simp
  omega

/-- One more element. -/
theorem elements_concat (hi : ∀ p ∈ pairs, p.1 < i) :
    elements t n (pairs ++ [(i, c)]) = (elements t n pairs).set i (.const c) := by
  refine List.ext_getElem (by simp) fun j hj _ => ?_
  rw [List.getElem_set, getElem_elements, getElem_elements, List.lookup_append, List.lookup_cons]
  -- nothing was stored at the new index before, and elsewhere nothing changes
  by_cases hij : i = j
  · subst hij
    simp [lookup_eq_none hi (Nat.le_refl i)]
  · have hji : (j == i) = false := beq_eq_false_iff_ne.2 (Ne.symm hij)
    simp [hij, hji]

/-- Every value is a default or one of the constants. -/
theorem mem_elements {e : Expr} (he : e ∈ elements t n pairs) :
    e = defaultOf t ∨ ∃ p ∈ pairs, e = .const p.2 := by
  obtain ⟨j, -, rfl⟩ := List.mem_map.1 he
  cases hj : pairs.lookup j with
  | none => exact .inl rfl
  | some c =>
    obtain ⟨first, last, rfl, -⟩ := List.lookup_eq_some_iff.1 hj
    exact .inr ⟨(j, c), by simp, rfl⟩

/-- The default is a number. -/
theorem same_defaultOf (t : String) : (defaultOf t).same (defaultOf t) = true := by
  unfold defaultOf
  rw [same, Constant.same_self]
  repeat' split
  all_goals decide

/-- Behind the last index there are only defaults. -/
theorem onlyDefaultsFrom_elements (hi : ∀ p ∈ pairs, p.1 < i) :
    onlyDefaultsFrom (defaultOf t) (elements t n pairs) i = true := by
  refine List.all_eq_true.2 fun e he => ?_
  obtain ⟨j, hj, rfl⟩ := List.mem_iff_getElem.1 he
  rw [List.getElem_drop, getElem_elements, lookup_eq_none hi (Nat.le_add_right i j)]
  exact same_defaultOf t

/-- A natural number is read back from its literal. -/
@[simp] theorem natLiteral_int (n : Nat) : (int n).natLiteral? = some n := by
  simp [int, natLiteral?]

/-- A store behind all given elements is folded. -/
theorem stored_initialized (hn : n ≤ maxFolded) (hbound : i < n) (hi : ∀ p ∈ pairs, p.1 < i) :
    (initialized t n pairs).stored? (int i) (.const c)
      = some (initialized t n (pairs ++ [(i, c)])) := by
  have hmore : initialized t n (pairs ++ [(i, c)])
      = .arrayOf t (int n) ((elements t n pairs).set i (.const c)) := by
    simp [initialized, elements_concat hi]
  rw [hmore, initialized]
  -- the first store turns the new array into one that is given by its values
  split
  · rename_i hpairs
    rw [List.isEmpty_iff.1 hpairs, elements_nil]
    simp [stored?, hn, hbound]
  · simp [stored?, hn, hbound, onlyDefaultsFrom_elements hi]

/-- Values are the same as themselves if each of them is. -/
theorem allSame_self_iff {es : List Expr} :
    allSame es es = true ↔ ∀ e ∈ es, e.same e = true := by
  induction es with
  | nil => simp [allSame]
  | cons e es ih => simp [allSame, ih]

/-- A list of values without effects has none. -/
theorem anyHasEffects_eq_false {es : List Expr} (h : ∀ e ∈ es, e.hasEffects = false) :
    anyHasEffects es = false := by
  induction es with
  | nil => rfl
  | cons e es ih =>
    rw [List.forall_mem_cons] at h
    rw [anyHasEffects, h.1, ih h.2]
    rfl

/-- An array with constants in it has no effects. -/
theorem hasEffects_initialized : (initialized t n pairs).hasEffects = false := by
  have helements : anyHasEffects (elements t n pairs) = false := by
    refine anyHasEffects_eq_false fun e he => ?_
    obtain rfl | ⟨p, -, rfl⟩ := mem_elements he <;> rfl
  rw [initialized]
  split <;> simp [hasEffects, int, helements]

/-- An array whose constants are numbers is the same as itself. -/
theorem same_initialized (hnumbers : ∀ p ∈ pairs, p.2.isNaN = false) :
    (initialized t n pairs).same (initialized t n pairs) = true := by
  have helements : allSame (elements t n pairs) (elements t n pairs) = true := by
    refine allSame_self_iff.2 fun e he => ?_
    obtain rfl | ⟨p, hp, rfl⟩ := mem_elements he
    · exact same_defaultOf t
    · rw [same, Constant.same_self, hnumbers p hp]
      rfl
  rw [initialized]
  split <;> simp [same, int, Constant.same, helements]

/-- An array that holds a not-a-number differs from itself. -/
theorem same_initialized_concat (hc : c.isNaN = true) (hbound : i < n)
    (hi : ∀ p ∈ pairs, p.1 < i) :
    (initialized t n (pairs ++ [(i, c)])).same (initialized t n (pairs ++ [(i, c)])) = false := by
  have helements : allSame (elements t n (pairs ++ [(i, c)])) (elements t n (pairs ++ [(i, c)]))
      = false := by
    refine Bool.eq_false_iff.2 fun hsame => ?_
    -- a not-a-number differs from itself, and it is one of the values
    have hmem : const c ∈ elements t n (pairs ++ [(i, c)]) := by
      rw [elements_concat hi]
      exact List.mem_set (by simpa using hbound) _
    have hself := allSame_self_iff.1 hsame _ hmem
    rw [same, Constant.same_self, hc] at hself
    cases hself
  simp [initialized, same, helements]

end Expr

namespace Simulation

variable {config : Config} {m : Simulation} {prev : Option Insn} {scope : Scope} {st : Operands}
  {array : Expr} {t u : String} {n : Nat} {pairs : List (Nat × Constant)}

/-! ### The instructions -/

/-- Constants are stored into the array on top, which stays there. -/
def stores (u : String) (pairs : List (Nat × Constant)) : List Insn :=
  pairs.flatMap fun p => [.dup, .const (.int p.1), .const p.2, .arrayStore u]

/-- A new array is made, and constants are stored into it. -/
def initializer (t u : String) (n : Nat) (pairs : List (Nat × Constant)) : List Insn :=
  .const (.int n) :: .newArray t :: stores u pairs

/-- The constants up to the first one that is no number, and this one. -/
def upToNaN : List (Nat × Constant) → List (Nat × Constant)
  | [] => []
  | p :: ps => p :: if p.2.isNaN then [] else upToNaN ps

/-- The constants behind the first one that is no number. -/
def behindNaN : List (Nat × Constant) → List (Nat × Constant)
  | [] => []
  | p :: ps => if p.2.isNaN then ps else behindNaN ps

/-- The statements that store constants into an array. -/
def written (array : Expr) (pairs : List (Nat × Constant)) : List Stmt :=
  pairs.map fun p => .assign (.element array (.int p.1)) (.const p.2)

/-- A stack that is high enough passes the check. -/
theorem checkOperands_of_effect {insn : Insn} {e : StackEffect} (heffect : insn.effect = .ok e)
    (hpops : e.pops ≤ m.stack.length) : m.checkOperands insn = .ok () := by
  have hsome : Error.ofEffect insn.effect = .ok e := by
    rw [heffect]
    rfl
  simp [checkOperands, hsome, Nat.not_lt.2 hpops, bind, Except.bind, pure, Except.pure]

/-- One instruction runs alone, and then the others. -/
theorem runAfter_alone {insn : Insn} {rest : List Insn} {m' : Simulation} {e : StackEffect}
    (heffect : insn.effect = .ok e) (hpops : e.pops ≤ m.stack.length)
    (hstep : step config m prev insn rest.head? = .ok (alone m')) :
    runAfter config prev m (insn :: rest) = runAfter config (some insn) m' rest := by
  rw [runAfter_cons, checkOperands_of_effect heffect hpops, hstep]
  rfl

/-- A value without effects is copied. -/
theorem step_dup (harray : array.hasEffects = false) (next : Option Insn) :
    step config ⟨scope, .value array :: st⟩ prev .dup next
      = .ok (alone ⟨scope, .value array :: .value array :: st⟩) := by
  simp [step, dup, Operands.popEntry, harray, bind, Except.bind, pure, Except.pure]

/-- A store of a constant finds the array twice. -/
theorem runAfter_store (harray : array.hasEffects = false) (p : Nat × Constant)
    (ps : List (Nat × Constant)) :
    runAfter config prev ⟨scope, .value array :: st⟩ (stores u (p :: ps))
      = (arrayStore config ⟨scope, .value (.const p.2) :: .value (.int p.1) :: .value array
          :: .value array :: st⟩).bind fun m =>
        runAfter config (some (.arrayStore u)) m (stores u ps) := by
  have hstores : stores u (p :: ps)
      = .dup :: .const (.int p.1) :: .const p.2 :: .arrayStore u :: stores u ps := rfl
  rw [hstores, runAfter_alone rfl (by simp) (step_dup harray _),
    runAfter_alone rfl (by simp) rfl, runAfter_alone rfl (by simp) rfl, runAfter_cons,
    checkOperands_of_effect rfl (by simp [pushOn, Operands.push])]
  simp only [step, pushOn, Operands.push, Expr.int]
  cases arrayStore config _ <;> rfl

/-- A store into an array that is the same as the one below is folded, -/
theorem arrayStore_folded {index value filled : Expr} (hsame : array.same array = true)
    (hstored : array.stored? index value = some filled) :
    arrayStore config
        ⟨scope, .value value :: .value index :: .value array :: .value array :: st⟩
      = .ok ⟨scope, .value filled :: st⟩ := by
  simp [arrayStore, Operands.pop, bind, Except.bind, hsame, hstored, pushOn, Operands.push, pure,
    Except.pure]

/-- and one into an array that differs from it is written. -/
theorem arrayStore_written {index : Expr} {c : Constant} (hsame : array.same array = false) :
    arrayStore config
        ⟨scope, .value (.const c) :: .value index :: .value array :: .value array :: st⟩
      = (scope.append (.assign (.element array index) (.const c))).map
          (⟨·, .value array :: st⟩) := by
  simp [arrayStore, Operands.pop, bind, Except.bind, hsame, assign]
  rfl

/-- Stores into an array that differs from itself are all written. -/
theorem runAfter_written (harray : array.hasEffects = false) (hsame : array.same array = false)
    (pairs : List (Nat × Constant)) :
    runAfter config prev ⟨scope, .value array :: st⟩ (stores u pairs)
      = ((written array pairs).foldlM Scope.append scope).map (⟨·, .value array :: st⟩) := by
  induction pairs generalizing prev scope with
  | nil => rfl
  | cons p ps ih =>
    rw [runAfter_store harray, arrayStore_written hsame, written, List.map_cons, List.foldlM_cons]
    cases scope.append _ with
    | error e => rfl
    | ok scope => exact ih

/-- Stores of numbers are folded, and so is the first store of a not-a-number. -/
theorem runAfter_folded (done : List (Nat × Constant)) (hn : n ≤ Expr.maxFolded)
    (hbound : ∀ p ∈ pairs, p.1 < n) (hascending : (done ++ pairs).Pairwise (·.1 < ·.1))
    (hdone : ∀ p ∈ done, p.2.isNaN = false) :
    runAfter config prev ⟨scope, .value (.initialized t n done) :: st⟩ (stores u pairs)
      = ((written (.initialized t n (done ++ upToNaN pairs)) (behindNaN pairs)).foldlM
          Scope.append scope).map
        (⟨·, .value (.initialized t n (done ++ upToNaN pairs)) :: st⟩) := by
  induction pairs generalizing done prev with
  | nil =>
    rw [upToNaN, List.append_nil]
    rfl
  | cons p ps ih =>
    obtain ⟨i, c⟩ := p
    have hi : ∀ q ∈ done, q.1 < i := fun q hq =>
      (List.pairwise_append.1 hascending).2.2 q hq _ List.mem_cons_self
    have hin : i < n := hbound _ List.mem_cons_self
    rw [runAfter_store Expr.hasEffects_initialized,
      arrayStore_folded (Expr.same_initialized hdone) (Expr.stored_initialized hn hin hi),
      Except.bind, upToNaN, behindNaN]
    -- behind a not-a-number the array differs from itself, so all further stores are written
    cases hc : c.isNaN with
    | true =>
      simpa using runAfter_written Expr.hasEffects_initialized
        (Expr.same_initialized_concat hc hin hi) ps
    | false =>
      rw [List.append_cons] at hascending
      have hmore : ∀ q ∈ done ++ [(i, c)], q.2.isNaN = false := by
        rw [List.forall_mem_append, List.forall_mem_singleton]
        exact ⟨hdone, hc⟩
      simpa [List.append_assoc] using
        ih _ (fun q hq => hbound q (List.mem_cons_of_mem _ hq)) hascending hmore

/-- The constants are cut in two. -/
theorem upToNaN_append_behindNaN (pairs : List (Nat × Constant)) :
    upToNaN pairs ++ behindNaN pairs = pairs := by
  induction pairs with
  | nil => rfl
  | cons p ps ih =>
    rw [upToNaN, behindNaN]
    split <;> simp [ih]

/-- No constant is left exactly if all but the last are numbers. -/
theorem behindNaN_eq_nil_iff {pairs : List (Nat × Constant)} :
    behindNaN pairs = [] ↔ ∀ p ∈ pairs.dropLast, p.2.isNaN = false := by
  induction pairs with
  | nil => simp [behindNaN]
  | cons p ps ih =>
    cases ps with
    | nil => simp [behindNaN]
    | cons q qs =>
      rw [behindNaN, List.dropLast_cons_cons, List.forall_mem_cons, ← ih]
      cases p.2.isNaN <;> simp

/-- Several statements are added at the end. -/
theorem stmts_of_foldlM {ss : List Stmt} {s s' : Scope} (h : ss.foldlM Scope.append s = .ok s') :
    s'.stmts = s.stmts ++ ss := by
  induction ss generalizing s with
  | nil =>
    cases h
    simp
  | cons stmt ss ih =>
    obtain ⟨s₁, hs₁, h⟩ := Except.bind_eq_ok.1 h
    rw [ih h, Scope.stmts_of_append hs₁, List.append_assoc]
    rfl

/-- Constants that are stored in ascending order into a new array become its initializer, up to the
    first one that is not a number; stores behind it become statements. So all stores are folded
    exactly if all constants but the last are numbers. -/
theorem run_initializer (hn : n ≤ 64) (hbound : ∀ p ∈ pairs, p.1 < n)
    (hascending : pairs.Pairwise (·.1 < ·.1)) :
    run config m (initializer t u n pairs)
        = ((written (.initialized t n (upToNaN pairs)) (behindNaN pairs)).foldlM
            Scope.append m.scope).map
          (⟨·, .value (.initialized t n (upToNaN pairs)) :: m.stack⟩) ∧
      (run config m (initializer t u n pairs)
          = .ok ⟨m.scope, .value (.initialized t n pairs) :: m.stack⟩ ↔
        ∀ p ∈ pairs.dropLast, p.2.isNaN = false) := by
  have hrun : run config m (initializer t u n pairs)
      = ((written (.initialized t n (upToNaN pairs)) (behindNaN pairs)).foldlM
            Scope.append m.scope).map
          (⟨·, .value (.initialized t n (upToNaN pairs)) :: m.stack⟩) := by
    rw [run, initializer, runAfter_alone rfl (Nat.zero_le _) rfl,
      runAfter_alone rfl (by simp [pushOn, Operands.push]) rfl]
    exact runAfter_folded [] hn hbound hascending (fun p hp => by cases hp)
  refine ⟨hrun, ?_⟩
  rw [hrun, ← behindNaN_eq_nil_iff]
  constructor
  -- if all is folded the scope has not grown, so there was nothing left to write
  · intro hall
    obtain ⟨scope, hscope, hstate⟩ := Except.map_eq_ok.1 hall
    obtain rfl : scope = m.scope := congrArg Simulation.scope hstate
    have hstmts := stmts_of_foldlM hscope
    rwa [List.self_eq_append_right, written, List.map_eq_nil_iff] at hstmts
  · intro hnone
    have hupTo := upToNaN_append_behindNaN pairs
    rw [hnone, List.append_nil] at hupTo
    rw [hnone, hupTo]
    rfl

/-- 1.0 and a not-a-number. -/
def numberAndNaN : List (Nat × Constant) := [(0, .float 0x3f800000), (2, .float 0x7fc00000)]

/-- A number and then `NaN` are folded both. -/
theorem run_numberAndNaN : run {} (start (.new .method))
    (initializer Descriptor.float Descriptor.float 3 numberAndNaN)
      = .ok ⟨.new .method, [.value (.initialized Descriptor.float 3 numberAndNaN)]⟩ :=
  (run_initializer (by decide) (by decide) (by decide)).2.2 (by decide)

/-- A not-a-number and 1.0. -/
def nanAndNumber : List (Nat × Constant) := [(0, .float 0x7fc00000), (1, .float 0x3f800000)]

/-- The store behind the not-a-number becomes a statement. -/
theorem run_nanAndNumber :
    ¬ ∀ (config : Config) (m : Simulation) (t u : String) (n : Nat)
      (pairs : List (Nat × Constant)), m.scope.locked = false → n ≤ 64 → (∀ p ∈ pairs, p.1 < n) →
      pairs.Pairwise (·.1 < ·.1) →
      run config m (initializer t u n pairs)
        = .ok ⟨m.scope, .value (.initialized t n pairs) :: m.stack⟩ := by
  intro hclaim
  have hone : (run {} (start (.new .method))
      (initializer Descriptor.float Descriptor.float 2 nanAndNumber)).toOption.map
      (fun m => m.scope.size) = some 1 := by decide +kernel
  rw [hclaim {} (start (.new .method)) _ _ 2 nanAndNumber rfl (by decide) (by decide)
    (by decide)] at hone
  exact absurd hone (by decide)

end Simulation

end Restructure
