import Restructure.Proofs.Simulation.Growth
import Restructure.Region.Ternary

namespace Restructure

/-!
# Conditions without nodes of a kind — what they are made of

* `Cond.isAtomic` — a test that is not put together of others.
* `Cond.Avoids.parts`, `Cond.allAvoid_iff` — a condition and its operands.
* `branchCondition_avoids`, `BranchTest.choose_avoids` — the condition of a branch holds values from
  the stack, and a conditional value holds a condition and two values.
* `Cond.all_avoids`, `Cond.any_avoids`, `Cond.negate_avoids` — joined and opposite conditions, where
  no condition is of the kind.
* `Cond.Avoids.of_all`, `Cond.Avoids.of_any`, `Cond.avoids_of_negate` — what these avoid, the tests
  avoid that they are made of.
-/

variable {B : Node → Prop}

/-! ### Parts -/

/-- A list avoids what all of its members avoid. -/
theorem Cond.allAvoid_iff {cs : List Cond} :
    (∀ n ∈ Cond.allNodes cs, ¬B n) ↔ ∀ c ∈ cs, c.Avoids B := by
  induction cs with
  | nil => simp [Cond.allNodes]
  | cons c cs ih =>
    rw [Cond.allNodes, List.forall_mem_append, ih, List.forall_mem_cons]
    rfl

/-- The nodes of a condition are the condition and the nodes of its parts. -/
theorem Cond.avoids_of_nodes {c : Cond} {ns : List Node} (hnodes : c.nodes = .cond c :: ns)
    (hc : ¬B (.cond c)) (hns : ∀ n ∈ ns, ¬B n) : c.Avoids B := by
  intro n hn
  rw [hnodes] at hn
  rcases List.mem_cons.1 hn with rfl | hn
  · exact hc
  · exact hns n hn

namespace Cond.Avoids

/-- What a condition avoids, its parts avoid. -/
theorem parts {c : Cond} {ns : List Node} (h : c.Avoids B) (hnodes : c.nodes = .cond c :: ns) :
    ∀ n ∈ ns, ¬B n :=
  fun n hn => h n (hnodes ▸ List.mem_cons_of_mem _ hn)

/-- What a conjunction avoids its members avoid. -/
theorem of_and {cs : List Cond} (h : (Cond.and cs).Avoids B) : ∀ c ∈ cs, c.Avoids B :=
  Cond.allAvoid_iff.1 (h.parts (by rw [Cond.nodes]))

/-- What a disjunction avoids its members avoid. -/
theorem of_or {cs : List Cond} (h : (Cond.or cs).Avoids B) : ∀ c ∈ cs, c.Avoids B :=
  Cond.allAvoid_iff.1 (h.parts (by rw [Cond.nodes]))

/-- A test and the operands that it contributes. -/
theorem andOperands {c : Cond} (h : c.Avoids B) : ∀ d ∈ c.andOperands, d.Avoids B := by
  unfold Cond.andOperands
  split
  · exact h.of_and
  · exact fun d hd => List.mem_singleton.1 hd ▸ h

/-- What a condition avoids its operands avoid. -/
theorem orOperands {c : Cond} (h : c.Avoids B) : ∀ d ∈ c.orOperands, d.Avoids B := by
  unfold Cond.orOperands
  split
  · exact h.of_or
  · exact fun d hd => List.mem_singleton.1 hd ▸ h

end Cond.Avoids

/-! ### Conditions of branches -/

/-- The test is not put together of other tests. -/
def Cond.isAtomic : Cond → Bool
  | test _ _ | compare _ _ _ => true
  | _ => false

section Branches

variable (hatom : ∀ c : Cond, c.isAtomic = true → ¬B (.cond c))
include hatom

/-- A comparison avoids what both sides avoid. -/
theorem Cond.compare_avoids {l r : Expr} {o : Relation} (hl : l.Avoids B) (hr : r.Avoids B) :
    (Cond.compare l o r).Avoids B :=
  Cond.avoids_of_nodes (by rw [Cond.nodes]) (hatom _ rfl) fun n hn =>
    (List.mem_append.1 hn).elim (hl n) (hr n)

variable (hconst : ∀ k, (Expr.const k).Avoids B)
include hconst

/-- A test against zero avoids what its value avoids. -/
theorem zeroTest_avoids {e : Expr} {o : Relation} (he : e.Avoids B) :
    (zeroTest e o).Avoids B := by
  have htest : ∀ i, (Cond.test e i).Avoids B := fun i =>
    Cond.avoids_of_nodes (by rw [Cond.nodes]) (hatom _ rfl) he
  unfold zeroTest
  split
  · rename_i k l r
    have hparts : ∀ n ∈ l.nodes ++ r.nodes, ¬B n := he.parts (by rw [Expr.nodes])
    exact Cond.compare_avoids hatom (fun n hn => hparts n (List.mem_append_left _ hn))
      fun n hn => hparts n (List.mem_append_right _ hn)
  · split
    · exact htest _
    · split
      · exact htest _
      · exact Cond.compare_avoids hatom he (hconst _)

/-- The condition of a branch holds values from the stack. -/
theorem branchCondition_avoids {test : Branch} {st st' : Operands} {cond : Cond}
    (hst : st.Avoids B) (h : branchCondition test st = .ok (cond, st')) :
    cond.Avoids B ∧ st'.Avoids B := by
  unfold branchCondition at h
  cases test with
  | zero o =>
    obtain ⟨⟨e, st₁⟩, hpop, h⟩ := Except.bind_eq_ok.1 h
    obtain ⟨he, hst₁⟩ := Operands.pop_avoids hpop hst
    cases h
    exact ⟨zeroTest_avoids hatom hconst he, hst₁⟩
  | values o =>
    obtain ⟨⟨r, st₁⟩, hpop₁, h⟩ := Except.bind_eq_ok.1 h
    obtain ⟨⟨l, st₂⟩, hpop₂, h⟩ := Except.bind_eq_ok.1 h
    obtain ⟨hr, hst₁⟩ := Operands.pop_avoids hpop₁ hst
    obtain ⟨hl, hst₂⟩ := Operands.pop_avoids hpop₂ hst₁
    cases h
    exact ⟨Cond.compare_avoids hatom hl hr, hst₂⟩
  | isNull | isNotNull =>
    obtain ⟨⟨e, st₁⟩, hpop, h⟩ := Except.bind_eq_ok.1 h
    obtain ⟨he, hst₁⟩ := Operands.pop_avoids hpop hst
    cases h
    exact ⟨Cond.compare_avoids hatom he (hconst _), hst₁⟩

end Branches

/-- A conditional value holds the opposite of the test and the values of its arms. -/
theorem BranchTest.choose_avoids {t : BranchTest} {a b : Expr} (hchoose : ¬B (.expr (t.choose a b)))
    (ht : t.cond.negate.Avoids B) (ha : a.Avoids B) (hb : b.Avoids B) :
    (t.choose a b).Avoids B := by
  refine Expr.avoids_of_nodes (by rw [choose, Expr.nodes]) hchoose fun n hn => ?_
  rcases List.mem_append.1 hn with hn | hn
  · exact (List.mem_append.1 hn).elim (ht n) (ha n)
  · exact hb n hn

/-! ### Joined and opposite conditions -/

section Joined

variable (hcond : ∀ c : Cond, ¬B (.cond c))
include hcond

/-- A conjunction avoids what all of its members avoid. -/
theorem Cond.and_avoids {cs : List Cond} (h : ∀ c ∈ cs, c.Avoids B) : (Cond.and cs).Avoids B :=
  Cond.avoids_of_nodes (by rw [Cond.nodes]) (hcond _) (Cond.allAvoid_iff.2 h)

/-- A disjunction avoids what all of its members avoid. -/
theorem Cond.or_avoids {cs : List Cond} (h : ∀ c ∈ cs, c.Avoids B) : (Cond.or cs).Avoids B :=
  Cond.avoids_of_nodes (by rw [Cond.nodes]) (hcond _) (Cond.allAvoid_iff.2 h)

/-- The same for a conjunction that is flattened. -/
theorem Cond.all_avoids {cs : List Cond} (h : ∀ c ∈ cs, c.Avoids B) : (Cond.all cs).Avoids B := by
  have hops : ∀ d ∈ cs.flatMap andOperands, d.Avoids B := by
    intro d hd
    obtain ⟨c, hc, hd⟩ := List.mem_flatMap.1 hd
    exact (h c hc).andOperands d hd
  -- a single operand stands by itself, without a conjunction around it
  unfold all conjunction
  split
  · rename_i c heq
    exact hops c (by simp [heq])
  · exact Cond.and_avoids hcond hops

/-- The same for a disjunction that is flattened. -/
theorem Cond.any_avoids {cs : List Cond} (h : ∀ c ∈ cs, c.Avoids B) : (Cond.any cs).Avoids B := by
  have hops : ∀ d ∈ cs.flatMap orOperands, d.Avoids B := by
    intro d hd
    obtain ⟨c, hc, hd⟩ := List.mem_flatMap.1 hd
    exact (h c hc).orOperands d hd
  unfold any disjunction
  split
  · rename_i c heq
    exact hops c (by simp [heq])
  · exact Cond.or_avoids hcond hops

/-- What a conjunction avoids, the tests avoid that it joins. -/
theorem Cond.Avoids.of_all {cs : List Cond} (h : (Cond.all cs).Avoids B) :
    ∀ c ∈ cs, c.Avoids B := by
  have hops : ∀ d ∈ cs.flatMap Cond.andOperands, d.Avoids B := by
    unfold Cond.all Cond.conjunction at h
    split at h
    · rename_i d heq
      intro d' hd'
      rw [heq] at hd'
      exact List.mem_singleton.1 hd' ▸ h
    · exact h.of_and
  intro c hc
  have hown : ∀ d ∈ c.andOperands, d.Avoids B := fun d hd =>
    hops d (List.mem_flatMap.2 ⟨c, hc, hd⟩)
  -- a conjunction among the members was flattened, so its own members are among the operands
  cases c with
  | and ds => exact Cond.and_avoids hcond hown
  | _ => exact hown _ (List.mem_singleton_self _)

/-- What a flattened disjunction avoids its members avoid. -/
theorem Cond.Avoids.of_any {cs : List Cond} (h : (Cond.any cs).Avoids B) :
    ∀ c ∈ cs, c.Avoids B := by
  have hops : ∀ d ∈ cs.flatMap Cond.orOperands, d.Avoids B := by
    unfold Cond.any Cond.disjunction at h
    split at h
    · rename_i d heq
      intro d' hd'
      rw [heq] at hd'
      exact List.mem_singleton.1 hd' ▸ h
    · exact h.of_or
  intro c hc
  have hown : ∀ d ∈ c.orOperands, d.Avoids B := fun d hd =>
    hops d (List.mem_flatMap.2 ⟨c, hc, hd⟩)
  cases c with
  | or ds => exact Cond.or_avoids hcond hown
  | _ => exact hown _ (List.mem_singleton_self _)

end Joined

mutual

/-- Negation keeps the values of a test. -/
theorem Cond.negate_avoids (hcond : ∀ c : Cond, ¬B (.cond c)) :
    (c : Cond) → c.Avoids B → c.negate.Avoids B
  | .test _ _, h =>
    Cond.avoids_of_nodes (by rw [Cond.negate, Cond.nodes]) (hcond _) (h.parts (by rw [Cond.nodes]))
  | .compare _ _ _, h =>
    Cond.avoids_of_nodes (by rw [Cond.negate, Cond.nodes]) (hcond _) (h.parts (by rw [Cond.nodes]))
  | .not c, h => show c.Avoids B from h.parts (by rw [Cond.nodes])
  | .and cs, h => by
    rw [Cond.negate]
    exact Cond.any_avoids hcond (Cond.negateAll_avoid hcond cs h.of_and)
  | .or cs, h => by
    rw [Cond.negate]
    exact Cond.all_avoids hcond (Cond.negateAll_avoid hcond cs h.of_or)

/-- The negations of a list of conditions avoid what the conditions avoid. -/
theorem Cond.negateAll_avoid (hcond : ∀ c : Cond, ¬B (.cond c)) :
    (cs : List Cond) → (∀ c ∈ cs, c.Avoids B) →
    ∀ c ∈ Cond.negateAll cs, c.Avoids B
  | [], _, c, hc => by cases hc
  | d :: ds, h, c, hc => by
    rw [Cond.negateAll] at hc
    rcases List.mem_cons.1 hc with rfl | hc
    · exact Cond.negate_avoids hcond d (h d (List.mem_cons_self ..))
    · exact Cond.negateAll_avoid hcond ds (fun e he => h e (List.mem_cons_of_mem _ he)) c hc

end

mutual

/-- Negation drops no value of a test. -/
theorem Cond.avoids_of_negate (hcond : ∀ c : Cond, ¬B (.cond c)) :
    (c : Cond) → c.negate.Avoids B → c.Avoids B
  | .test _ _, h =>
    Cond.avoids_of_nodes (by rw [Cond.nodes]) (hcond _) (h.parts (by rw [Cond.negate, Cond.nodes]))
  | .compare _ _ _, h =>
    Cond.avoids_of_nodes (by rw [Cond.nodes]) (hcond _) (h.parts (by rw [Cond.negate, Cond.nodes]))
  | .not c, h => by
    have h : c.Avoids B := h
    exact Cond.avoids_of_nodes (by rw [Cond.nodes]) (hcond _) h
  -- the opposite of a conjunction is a flattened disjunction, from which its members are read
  | .and cs, h => by
    rw [Cond.negate] at h
    exact Cond.and_avoids hcond (Cond.avoid_of_negateAll hcond cs (h.of_any hcond))
  | .or cs, h => by
    rw [Cond.negate] at h
    exact Cond.or_avoids hcond (Cond.avoid_of_negateAll hcond cs (h.of_all hcond))

/-- A list of conditions avoids what their negations avoid. -/
theorem Cond.avoid_of_negateAll (hcond : ∀ c : Cond, ¬B (.cond c)) :
    (cs : List Cond) → (∀ c ∈ Cond.negateAll cs, c.Avoids B) → ∀ c ∈ cs, c.Avoids B
  | [], _, c, hc => by cases hc
  | d :: ds, h, c, hc => by
    rw [Cond.negateAll] at h
    rcases List.mem_cons.1 hc with heq | hc
    · rw [heq]
      exact Cond.avoids_of_negate hcond d (h _ (List.mem_cons_self ..))
    · exact Cond.avoid_of_negateAll hcond ds (fun e he => h e (List.mem_cons_of_mem _ he)) c hc

end

end Restructure
