import Restructure.Proofs.Conditions.Evaluation
import Restructure.Proofs.Flow.Graph
import Restructure.Region.Test

namespace Restructure

/-!
# Folded chains — a chain of blocks does what its test says

* `Arrival`, `Context.Runs` — running the blocks of a chain one by one, each as a test of its own.
* `BranchTest.extension_inv` — how a chain is extended: which block joins it, and what the longer
  test does.
* `Chained` — the shape of a chain: no block twice, entered at its first block alone, left for the
  two targets of its test.
* `BranchTest.foldWithin_induction` — what extensions preserve holds of the folded chain.
* `BranchTest.fold_runs` — the folded test evaluates as its chain runs.
-/

/-! ### Running a chain -/

/-- The block that control arrives at, the atomic tests made on the way, in order, and the state
    there. -/
structure Arrival (σ : Type) where
  block : Nat
  asked : List Atom
  state : σ

/-- The arrival with earlier tests in front. -/
def Arrival.behind {σ : Type} (a : Arrival σ) (asked : List Atom) : Arrival σ :=
  { a with asked := asked ++ a.asked }

/-- What has been asked before stands in front. -/
@[simp] theorem Arrival.asked_behind {σ : Type} (a : Arrival σ) (asked : List Atom) :
    (a.behind asked).asked = asked ++ a.asked := rfl

/-- What has been asked before is put in front in two steps. -/
theorem Arrival.behind_append {σ : Type} (a : Arrival σ) (as bs : List Atom) :
    a.behind (as ++ bs) = (a.behind bs).behind as := by
  simp [behind]

namespace BranchTest

/-- The block that control goes to if the condition has the given outcome. -/
def target (t : BranchTest) (holds : Bool) : Nat := if holds then t.taken else t.fallthrough

/-- Where the test leads: to one of its two targets, behind the evaluation of its condition. -/
def arrival {σ : Type} (I : Interpretation σ) (t : BranchTest) (s : σ) : Arrival σ :=
  ⟨t.target (t.cond.eval I s).holds, (t.cond.eval I s).asked, (t.cond.eval I s).state⟩

end BranchTest

/-- From block `n` on, the blocks of a chain run one after the other, each as a test of its own,
    until control arrives at a block outside the chain or at its first block again. -/
inductive Context.Runs {σ : Type} (c : Context) (scope : Scope) (I : Interpretation σ)
    (chain : List Nat) (first : Nat) : (n : Nat) → σ → Arrival σ → Prop
  | stop {n : Nat} {s : σ} {t : BranchTest} (ht : c.pureTest n scope = some t)
      (hout : (t.arrival I s).block ∉ chain ∨ (t.arrival I s).block = first) :
      Runs c scope I chain first n s (t.arrival I s)
  | step {n : Nat} {s : σ} {t : BranchTest} {a : Arrival σ} (ht : c.pureTest n scope = some t)
      (hin : (t.arrival I s).block ∈ chain) (hne : (t.arrival I s).block ≠ first)
      (rest : Runs c scope I chain first (t.arrival I s).block (t.arrival I s).state a) :
      Runs c scope I chain first n s (a.behind (t.arrival I s).asked)

namespace Context.Runs

variable {σ : Type} {c : Context} {scope : Scope} {I : Interpretation σ} {chain : List Nat}
  {first n : Nat} {s : σ} {a a' : Arrival σ}

/-- A run has one arrival. -/
theorem deterministic (h : c.Runs scope I chain first n s a)
    (h' : c.Runs scope I chain first n s a') : a = a' := by
  induction h generalizing a' with
  | stop ht hout =>
    cases h' with
    | stop ht' _ =>
      rw [ht] at ht'
      cases ht'
      rfl
    | step ht' hin hne _ =>
      rw [ht] at ht'
      cases ht'
      exact absurd hout (not_or.2 ⟨not_not_intro hin, hne⟩)
  | step ht hin hne _ ih =>
    cases h' with
    | stop ht' hout =>
      rw [ht] at ht'
      cases ht'
      exact absurd hout (not_or.2 ⟨not_not_intro hin, hne⟩)
    | step ht' _ _ rest =>
      rw [ht] at ht'
      cases ht'
      rw [ih rest]

/-- A run of a chain that arrives elsewhere than at block `k` is a run of the chain with `k`. -/
theorem of_ne {k : Nat} (h : c.Runs scope I chain first n s a) (ha : a.block ≠ k) :
    c.Runs scope I (chain ++ [k]) first n s a := by
  induction h with
  | stop ht hout =>
    refine .stop ht (hout.imp_left fun hnot hmem => ?_)
    rcases List.mem_append.1 hmem with hmem | hmem
    · exact hnot hmem
    · exact ha (List.mem_singleton.1 hmem)
  | step ht hin hne _ ih => exact .step ht (List.mem_append_left _ hin) hne (ih ha)

/-- A run of a chain that arrives at block `k` goes on there if `k` joins the chain. -/
theorem goOn {k : Nat} (h : c.Runs scope I chain first n s a) (ha : a.block = k) (hk : k ≠ first)
    (rest : c.Runs scope I (chain ++ [k]) first k a.state a') :
    c.Runs scope I (chain ++ [k]) first n s (a'.behind a.asked) := by
  induction h with
  | stop ht hout =>
    subst ha
    exact .step ht (List.mem_append_right _ (List.mem_singleton_self _)) hk rest
  | step ht hin hne _ ih =>
    rw [Arrival.asked_behind, Arrival.behind_append]
    exact .step ht (List.mem_append_left _ hin) hne (ih ha rest)

end Context.Runs

/-! ### Extending a chain -/

namespace BranchTest

variable {σ : Type} {I : Interpretation σ} {s : σ} {c : Context} {scope : Scope}
  {eligible : Nat → Bool} {chain : List Nat} {head next longer : BranchTest} {k n : Nat}

/-- One of the two targets. -/
theorem target_mem (t : BranchTest) (b : Bool) :
    t.target b = t.taken ∨ t.target b = t.fallthrough := by
  cases b
  · exact .inr rfl
  · exact .inl rfl

/-- The conditions of two tests, the second one as it is or turned around, in one condition. -/
inductive Joined (a b : Cond) : Cond → Prop
  | any : Joined a b (.any [a, b])
  | anyNegated : Joined a b (.any [a, b.negate])
  | all : Joined a b (.all [a, b])
  | allNegated : Joined a b (.all [a, b.negate])

/-- The longer test does what the first one does, unless that leads to the next one. -/
structure Joins (head next : BranchTest) (b : Bool) (longer : BranchTest) : Prop where
  arrival : ∀ {σ : Type} (I : Interpretation σ) (s : σ), longer.arrival I s =
    if (head.cond.eval I s).holds = b then
      (next.arrival I (head.cond.eval I s).state).behind (head.cond.eval I s).asked
    else head.arrival I s
  /-- The other target of the first test is one of the next one's. -/
  shared : head.target (!b) = next.taken ∨ head.target (!b) = next.fallthrough
  targets : ∀ m, (m = longer.taken ∨ m = longer.fallthrough) ↔
    (m = head.target (!b) ∨ m = next.taken ∨ m = next.fallthrough)
  cond : Joined head.cond next.cond longer.cond

/-- `a || b` leaves for the first test's target if that holds, and else does what the next test
    does. -/
theorem arrival_any {taken fallthrough : Nat} (cond : Cond) (hhead : head.taken = taken) :
    (BranchTest.mk (.any [head.cond, cond]) taken fallthrough).arrival I s =
      if (head.cond.eval I s).holds = false then
        ((BranchTest.mk cond taken fallthrough).arrival I (head.cond.eval I s).state).behind
          (head.cond.eval I s).asked
      else head.arrival I s := by
  simp only [arrival, Cond.eval_any_pair]
  cases hholds : (head.cond.eval I s).holds
  · simp [target, Arrival.behind]
  · simp [target, hholds, hhead]

/-- `a && b` leaves for the first test's other target if that fails, and else does what the next
    test does. -/
theorem arrival_all {taken fallthrough : Nat} (cond : Cond)
    (hhead : head.fallthrough = fallthrough) :
    (BranchTest.mk (.all [head.cond, cond]) taken fallthrough).arrival I s =
      if (head.cond.eval I s).holds = true then
        ((BranchTest.mk cond taken fallthrough).arrival I (head.cond.eval I s).state).behind
          (head.cond.eval I s).asked
      else head.arrival I s := by
  simp only [arrival, Cond.eval_all_pair]
  cases hholds : (head.cond.eval I s).holds
  · simp [target, hholds, hhead]
  · simp [target, Arrival.behind]

/-- A test may be turned around. -/
theorem arrival_negate (t : BranchTest) :
    (BranchTest.mk t.cond.negate t.fallthrough t.taken).arrival I s = t.arrival I s := by
  simp only [arrival, Cond.eval_negate, Verdict.holds_negate, Verdict.asked_negate,
    Verdict.state_negate, target]
  cases (t.cond.eval I s).holds <;> rfl

/-- A test is joined where the head falls through. -/
theorem joins_of_joinFallthrough (h : head.joinFallthrough next = some longer) :
    Joins head next false longer := by
  unfold joinFallthrough at h
  split at h
  · rename_i heq
    cases h
    refine ⟨fun I s => ?_, .inl heq.symm, fun m => ?_, .any⟩
    · rw [arrival_any next.cond rfl, ← heq]
    · simp only [target, ← heq]
      tauto
  · split at h
    · rename_i heq
      cases h
      refine ⟨fun I s => ?_, .inr heq.symm, fun m => ?_, .anyNegated⟩
      · rw [arrival_any next.cond.negate rfl, ← heq, arrival_negate]
      · simp only [target, ← heq]
        tauto
    · cases h

/-- A test is joined where the head is taken. -/
theorem joins_of_joinTaken (h : head.joinTaken next = some longer) :
    Joins head next true longer := by
  unfold joinTaken at h
  split at h
  · rename_i heq
    cases h
    refine ⟨fun I s => ?_, .inr heq.symm, fun m => ?_, .all⟩
    · rw [arrival_all next.cond rfl, ← heq]
    · simp only [target, ← heq]
      tauto
  · split at h
    · rename_i heq
      cases h
      refine ⟨fun I s => ?_, .inl heq.symm, fun m => ?_, .allNegated⟩
      · rw [arrival_all next.cond.negate rfl, ← heq, arrival_negate]
      · simp only [target, ← heq]
        tauto
    · cases h

/-- What it takes to extend a chain: a block that only the chain leads to, and that is a test, joins
    at one of the two targets. -/
theorem extension_inv (h : head.extension? c scope eligible chain = some (k, longer)) :
    ∃ next b, c.joinable eligible chain k = true ∧ c.pureTest k scope = some next ∧
      head.target b = k ∧ Joins head next b longer := by
  unfold extension? at h
  rcases Option.or_eq_some_iff.1 h with h | ⟨_, h⟩
  · split at h
    · obtain ⟨t, ht, h⟩ := Option.map_eq_some_iff.1 h
      cases h
      obtain ⟨next, hnext, ht⟩ := Option.bind_eq_some_iff.1 ht
      exact ⟨next, false, ‹_›, hnext, rfl, joins_of_joinFallthrough ht⟩
    · cases h
  · split at h
    · obtain ⟨t, ht, h⟩ := Option.map_eq_some_iff.1 h
      cases h
      obtain ⟨next, hnext, ht⟩ := Option.bind_eq_some_iff.1 ht
      exact ⟨next, true, ‹_›, hnext, rfl, joins_of_joinTaken ht⟩
    · cases h

end BranchTest

/-! ### The shape of a chain -/

/-- A pure test ends with a branch between its targets. -/
theorem Context.mem_successors_of_pureTest {c : Context} {n m : Nat} {scope : Scope}
    {t : BranchTest} (h : c.pureTest n scope = some t) :
    m ∈ c.graph.successors n ↔ m = t.taken ∨ m = t.fallthrough := by
  obtain ⟨block, hblock, h⟩ := Option.bind_eq_some_iff.1 h
  split at h
  · rename_i test taken fallthrough hexit
    obtain ⟨m', _, h⟩ := Option.bind_eq_some_iff.1 h
    split at h
    · obtain ⟨⟨cond, st⟩, _, h⟩ := Option.bind_eq_some_iff.1 h
      cases h
      rw [FlowGraph.mem_successors_of_block hblock, hexit, Terminator.mem_successors_branch]
    · cases h
  · cases h

/-- The blocks of a chain that begins at `first` and whose test is `test`. -/
structure Chained (c : Context) (scope : Scope) (eligible : Nat → Bool) (first : Nat)
    (test : BranchTest) (chain : List Nat) : Prop where
  first_mem : first ∈ chain
  nodup : chain.Nodup
  /-- The other blocks are eligible, do nothing but test, and only the chain leads to them. -/
  joined : ∀ k ∈ chain, k ≠ first → eligible k = true ∧ (c.pureTest k scope).isSome = true
  closed : ∀ k ∈ chain, k ≠ first → ∀ m ∈ c.graph.predecessors k, m ∈ chain
  /-- The chain is left for the targets of its test, and for them alone. -/
  outside : ∀ m, m = test.taken ∨ m = test.fallthrough → m ∉ chain ∨ m = first
  left : ∀ m, m = test.taken ∨ m = test.fallthrough → ∃ k ∈ chain, m ∈ c.graph.successors k
  leads : ∀ k ∈ chain, ∀ m ∈ c.graph.successors k,
    (m ∈ chain ∧ m ≠ first) ∨ m = test.taken ∨ m = test.fallthrough
  /-- What goes on from block to block holds of the chain if it holds of its first block. -/
  spread : ∀ P : Nat → Prop, P first →
    (∀ k ∈ chain, P k → ∀ m ∈ c.graph.successors k, P m) → ∀ k ∈ chain, P k

namespace Chained

variable {c : Context} {scope : Scope} {eligible : Nat → Bool} {first k m : Nat}
  {test head next longer : BranchTest} {chain : List Nat}

/-- A block alone. -/
theorem single (h : ∀ m, m ∈ c.graph.successors first ↔ m = test.taken ∨ m = test.fallthrough) :
    Chained c scope eligible first test [first] where
  first_mem := List.mem_singleton_self _
  nodup := List.nodup_singleton _
  joined k hk hne := absurd (List.mem_singleton.1 hk) hne
  closed k hk hne := absurd (List.mem_singleton.1 hk) hne
  outside m _ := by
    by_cases hm : m = first
    · exact .inr hm
    · exact .inl (by simpa using hm)
  left m hm := ⟨first, List.mem_singleton_self _, (h m).2 hm⟩
  leads k hk m hm := by
    obtain rfl := List.mem_singleton.1 hk
    exact .inr ((h m).1 hm)
  spread P hfirst _ k hk := by
    rw [List.mem_singleton.1 hk]
    exact hfirst

/-- A block is joined once. -/
theorem not_mem_of_joinable (hk : c.joinable eligible chain k = true) : k ∉ chain := by
  simp only [Context.joinable, Bool.and_eq_true] at hk
  simpa using hk.1.1

/-- Only eligible blocks are joined. -/
theorem eligible_of_joinable (hk : c.joinable eligible chain k = true) : eligible k = true := by
  simp only [Context.joinable, Bool.and_eq_true] at hk
  exact hk.1.2

/-- Only the chain leads to a block that joins it. -/
theorem mem_of_joinable (hk : c.joinable eligible chain k = true)
    (hm : m ∈ c.graph.predecessors k) : m ∈ chain := by
  simp only [Context.joinable, Bool.and_eq_true, List.all_eq_true, List.contains_iff_mem] at hk
  exact hk.2 m hm

/-- Predecessors of a block are the blocks that lead to it. -/
theorem mem_predecessors_iff : m ∈ c.graph.predecessors k ↔ k ∈ c.graph.successors m :=
  c.graph.graph.mem_predecessors_iff

/-- A block that joins a chain leads out of the longer chain, or back to its first block. -/
theorem successor_outside (h : Chained c scope eligible first test chain)
    (hk : c.joinable eligible chain k = true) (hm : m ∈ c.graph.successors k) :
    m ∉ chain ++ [k] ∨ m = first := by
  have hnot : k ∉ chain := not_mem_of_joinable hk
  by_cases hfirst : m = first
  · exact .inr hfirst
  · refine .inl fun hmem => ?_
    rcases List.mem_append.1 hmem with hmem | hmem
    · exact hnot (h.closed m hmem hfirst k (mem_predecessors_iff.2 hm))
    · obtain rfl := List.mem_singleton.1 hmem
      exact hnot (mem_of_joinable hk (mem_predecessors_iff.2 hm))

/-- Where a block joins a chain, the other target of the test lies outside of the longer chain. -/
theorem other_outside {b : Bool} (h : Chained c scope eligible first head chain)
    (hk : c.joinable eligible chain k = true) (hnext : c.pureTest k scope = some next)
    (hj : BranchTest.Joins head next b longer) :
    head.target (!b) ∉ chain ++ [k] ∨ head.target (!b) = first :=
  h.successor_outside hk ((Context.mem_successors_of_pureTest hnext).2 hj.shared)

/-- Extending a chain keeps its shape. -/
theorem extend (h : Chained c scope eligible first head chain)
    (hext : head.extension? c scope eligible chain = some (k, longer)) :
    Chained c scope eligible first longer (chain ++ [k]) := by
  obtain ⟨next, b, hk, hnext, hb, hj⟩ := BranchTest.extension_inv hext
  have hnot : k ∉ chain := not_mem_of_joinable hk
  have hfirst : k ≠ first := fun heq => hnot (heq ▸ h.first_mem)
  have hsucc : ∀ m, m ∈ c.graph.successors k ↔ m = next.taken ∨ m = next.fallthrough :=
    fun m => Context.mem_successors_of_pureTest hnext
  have hlast : k ∈ chain ++ [k] := List.mem_append_right _ (List.mem_singleton_self k)
  exact {
    first_mem := List.mem_append_left _ h.first_mem
    nodup := by
      rw [List.nodup_append]
      refine ⟨h.nodup, List.nodup_singleton _, fun j hj' i hi heq => hnot ?_⟩
      rw [← List.mem_singleton.1 hi, ← heq]
      exact hj'
    joined := fun j hj' hne => by
      rcases List.mem_append.1 hj' with hmem | hmem
      · exact h.joined j hmem hne
      · obtain rfl := List.mem_singleton.1 hmem
        exact ⟨eligible_of_joinable hk, by rw [hnext]; rfl⟩
    closed := fun j hj' hne m hm => by
      refine List.mem_append_left _ ?_
      rcases List.mem_append.1 hj' with hmem | hmem
      · exact h.closed j hmem hne m hm
      · obtain rfl := List.mem_singleton.1 hmem
        exact mem_of_joinable hk hm
    outside := fun m hm => by
      rcases (hj.targets m).1 hm with rfl | hm
      · exact h.other_outside hk hnext hj
      · exact h.successor_outside hk ((hsucc m).2 hm)
    left := fun m hm => by
      rcases (hj.targets m).1 hm with rfl | hm
      · obtain ⟨j, hmem, hm⟩ := h.left _ (head.target_mem (!b))
        exact ⟨j, List.mem_append_left _ hmem, hm⟩
      · exact ⟨k, hlast, (hsucc m).2 hm⟩
    leads := fun j hj' m hm => by
      rcases List.mem_append.1 hj' with hmem | hmem
      · rcases h.leads j hmem m hm with ⟨hin, hne⟩ | hm
        · exact .inl ⟨List.mem_append_left _ hin, hne⟩
        · -- one target is the block that joins, the other one stays a target
          by_cases hmk : m = k
          · exact .inl ⟨hmk.symm ▸ hlast, hmk ▸ hfirst⟩
          · refine .inr ((hj.targets m).2 (.inl ?_))
            cases b <;> rcases hm with rfl | rfl <;> first | rfl | exact absurd hb hmk
      · obtain rfl := List.mem_singleton.1 hmem
        exact .inr ((hj.targets m).2 (.inr ((hsucc m).1 hm)))
    spread := fun P hP hstep j hj' => by
      have hchain := h.spread P hP fun i hi => hstep i (List.mem_append_left _ hi)
      rcases List.mem_append.1 hj' with hmem | hmem
      · exact hchain j hmem
      · obtain rfl := List.mem_singleton.1 hmem
        -- some block of the chain leads to the block that joins it
        obtain ⟨i, hi, hleads⟩ := h.left _ (head.target_mem b)
        exact hstep i (List.mem_append_left _ hi) (hchain i hi) j (hb ▸ hleads) }

end Chained

/-! ### Folded chains -/

namespace BranchTest

variable {c : Context} {scope : Scope} {eligible : Nat → Bool} {chain : List Nat}
  {head test : BranchTest} {n : Nat}

/-- What holds of a chain and is preserved by extensions holds of the folded chain. -/
theorem foldWithin_induction {motive : BranchTest → List Nat → Prop} (room : Nat)
    (h : motive head chain)
    (step : ∀ {head longer chain k}, motive head chain →
      head.extension? c scope eligible chain = some (k, longer) → motive longer (chain ++ [k])) :
    motive (head.foldWithin c scope eligible room chain).1
      (head.foldWithin c scope eligible room chain).2 := by
  induction room generalizing head chain with
  | zero => exact h
  | succ room ih =>
    rw [foldWithin]
    split
    · exact ih (step h ‹_›)
    · exact h

/-- A chain grows by as many blocks as there is room for. -/
theorem length_foldWithin (room : Nat) :
    (head.foldWithin c scope eligible room chain).2.length ≤ chain.length + room := by
  induction room generalizing head chain with
  | zero => exact Nat.le_refl _
  | succ room ih =>
    rw [foldWithin]
    split
    · refine ih.trans ?_
      rw [List.length_append, List.length_singleton]
      omega
    · exact Nat.le_add_right _ _

/-- What holds of a block alone and is preserved by extensions holds of the folded chain. -/
theorem fold_induction {motive : BranchTest → List Nat → Prop}
    (hfold : head.fold c scope eligible n = (test, chain)) (h : motive head [n])
    (step : ∀ {head longer chain k}, motive head chain →
      head.extension? c scope eligible chain = some (k, longer) → motive longer (chain ++ [k])) :
    motive test chain := by
  have hwithin := foldWithin_induction (c.config.maxChain - 1) h step
  rw [fold] at hfold
  rwa [hfold] at hwithin

/-- The folded chain of a branch is entered at its first block and left for the test's targets. -/
theorem fold_chained (hfold : head.fold c scope eligible n = (test, chain))
    (h : ∀ m, m ∈ c.graph.successors n ↔ m = head.taken ∨ m = head.fallthrough) :
    Chained c scope eligible n test chain :=
  fold_induction hfold (.single h) fun hchain hext => hchain.extend hext

/-- What holds of the conditions of tests and is kept by negation and by joining two of them holds
    of the condition of the folded chain. -/
theorem fold_cond {Q : Cond → Prop} (hfold : head.fold c scope eligible n = (test, chain))
    (hhead : Q head.cond) (hpure : ∀ k t, c.pureTest k scope = some t → Q t.cond)
    (hnegate : ∀ a, Q a → Q a.negate) (hany : ∀ a b, Q a → Q b → Q (.any [a, b]))
    (hall : ∀ a b, Q a → Q b → Q (.all [a, b])) : Q test.cond := by
  refine fold_induction (motive := fun test _ => Q test.cond) hfold hhead ?_
  intro head longer chain k hhead hext
  obtain ⟨next, b, _, hnext, _, hj⟩ := extension_inv hext
  have hnext := hpure k next hnext
  have hcond := hj.cond
  generalize longer.cond = joined at hcond
  cases hcond with
  | any => exact hany _ _ hhead hnext
  | anyNegated => exact hany _ _ hhead (hnegate _ hnext)
  | all => exact hall _ _ hhead hnext
  | allNegated => exact hall _ _ hhead (hnegate _ hnext)

/-- The folded chain of a pure test runs as its test says. -/
theorem runs_fold (h : c.pureTest n scope = some head)
    (hfold : head.fold c scope eligible n = (test, chain)) {σ : Type} (I : Interpretation σ)
    (s : σ) : c.Runs scope I chain n n s (test.arrival I s) := by
  refine (fold_induction (motive := fun test chain => Chained c scope eligible n test chain ∧
    c.Runs scope I chain n n s (test.arrival I s)) hfold ⟨?_, ?_⟩ ?_).2
  -- a chain of one block stops where its test says
  · exact .single fun m => Context.mem_successors_of_pureTest h
  · refine .stop h ?_
    by_cases hn : (head.arrival I s).block = n
    · exact .inr hn
    · exact .inl (by simpa using hn)
  · intro head longer chain k ⟨hchain, hruns⟩ hext
    obtain ⟨next, b, hk, hnext, hb, hj⟩ := extension_inv hext
    refine ⟨hchain.extend hext, ?_⟩
    rw [hj.arrival]
    split
    -- the run stopped at the block that joins, and now goes on
    · rename_i hholds
      have hkn : k ≠ n := fun heq => Chained.not_mem_of_joinable hk (heq ▸ hchain.first_mem)
      refine hruns.goOn ?_ hkn (.stop hnext ?_)
      · rw [← hb, arrival, hholds]
      · exact hchain.successor_outside hk
          ((Context.mem_successors_of_pureTest hnext).2 (next.target_mem _))
    -- the run stopped at the other target, and still stops there
    · rename_i hholds
      have hother : (head.cond.eval I s).holds = !b := by
        cases hh : (head.cond.eval I s).holds <;> cases b <;> simp_all
      refine hruns.of_ne fun heq => ?_
      have hblock : (head.arrival I s).block = head.target (!b) := by rw [arrival, hother]
      rcases hchain.other_outside hk hnext hj with hout | hfirst
      · refine hout (List.mem_append_right _ ?_)
        rw [← hblock, heq]
        exact List.mem_singleton_self k
      · exact Chained.not_mem_of_joinable hk (heq ▸ hblock.trans hfirst ▸ hchain.first_mem)

/-- Folding preserves the chain that it replaces. Running the blocks of the folded chain one by one
    always comes to an end, at the target that the folded condition chooses, and makes the atomic
    tests that evaluating the condition makes. The chain is entered at its first block alone, holds
    no block twice, and has at most the permitted length. -/
theorem fold_runs (h : c.pureTest n scope = some head)
    (hfold : head.fold c scope eligible n = (test, chain)) :
    (∀ {σ : Type} (I : Interpretation σ) (s : σ) (a : Arrival σ),
      c.Runs scope I chain n n s a ↔
        a = ⟨if (test.cond.eval I s).holds then test.taken else test.fallthrough,
          (test.cond.eval I s).asked, (test.cond.eval I s).state⟩) ∧
      (∀ k ∈ chain, k ≠ n → ∀ m ∈ c.graph.predecessors k, m ∈ chain) ∧
      chain.Nodup ∧ chain.length ≤ max 1 c.config.maxChain := by
  have hchain : Chained c scope eligible n test chain :=
    fold_chained hfold fun m => Context.mem_successors_of_pureTest h
  have hlength : chain.length ≤ 1 + (c.config.maxChain - 1) := by
    have hwithin : (head.foldWithin c scope eligible (c.config.maxChain - 1) [n]).2.length ≤ _ :=
      length_foldWithin _
    rw [fold] at hfold
    rwa [hfold] at hwithin
  refine ⟨fun I s a => ⟨fun ha => ha.deterministic (runs_fold h hfold I s), ?_⟩,
    hchain.closed, hchain.nodup,
    by omega⟩
  rintro rfl
  exact runs_fold h hfold I s

/-- The blocks of `if (a && b || c)` with the two blocks behind it. -/
def threeTests : List Block :=
  [⟨[.load 0 "Z"], .branch (.zero .eq) 2 1⟩, ⟨[.load 1 "Z"], .branch (.zero .ne) 3 2⟩,
    ⟨[.load 2 "Z"], .branch (.zero .eq) 4 3⟩, ⟨[], .ret⟩, ⟨[], .ret⟩]

/-- The graph of these blocks. -/
def threeTestsContext : Context where
  config := {}
  graph := .ofDigraph ⟨threeTests, flowEdges threeTests, by decide⟩ (by decide) rfl

/-- Three tests with a common target run as one condition. -/
theorem threeTests_runs :
    ∃ head test, threeTestsContext.pureTest 0 (.new .method) = some head ∧
      head.fold threeTestsContext (.new .method) (fun _ => true) 0 = (test, [0, 1, 2]) ∧
      test.taken = 4 ∧ test.fallthrough = 3 ∧
      ∀ {σ : Type} (I : Interpretation σ) (s : σ),
        threeTestsContext.Runs (.new .method) I [0, 1, 2] 0 0 s
          ⟨if (test.cond.eval I s).holds then test.taken else test.fallthrough,
            (test.cond.eval I s).asked, (test.cond.eval I s).state⟩ := by
  have heval : (threeTestsContext.pureTest 0 (.new .method)).map (fun head =>
      let r := head.fold threeTestsContext (.new .method) (fun _ => true) 0
      (r.1.taken, r.1.fallthrough, r.2)) = some (4, 3, [0, 1, 2]) := by decide +kernel
  obtain ⟨head, hhead, h⟩ := Option.map_eq_some_iff.1 heval
  obtain ⟨htaken, h⟩ := Prod.mk.inj h
  obtain ⟨hfallthrough, hchain⟩ := Prod.mk.inj h
  generalize hfold : head.fold threeTestsContext (.new .method) (fun _ => true) 0 = folded at *
  obtain ⟨test, chain⟩ := folded
  obtain rfl : chain = [0, 1, 2] := hchain
  exact ⟨head, test, hhead, hfold, htaken, hfallthrough, fun I s =>
    ((fold_runs hhead hfold).1 I s _).2 rfl⟩

end BranchTest

end Restructure
