import Restructure.Proofs.Conditions.NormalForm
import Restructure.Proofs.Labels
import Restructure.Proofs.Region.Unmade

namespace Restructure

/-!
# Recovered conditions are normal — at any depth, also within conditional values

Branches give atomic conditions, and all others are made of these by negation and by joining two of
them. So a condition that is not normal is never made.

* `Cond.NormalThroughout` — a condition is normal, and so are those within the values it tests.
* `Node.irregular_unmade` — conditions that are not normal are never made.
* `conditions_normal` — negation and joining keep normal conditions, and the code of every method
  holds no others.
-/

/-! ### Conditions that are never made -/

/-- The condition is normal, and so are the conditions within the values that it tests. -/
def Cond.NormalThroughout (c : Cond) : Prop := ∀ d, Node.cond d ∈ c.nodes → d.Normal

/-- A condition is normal at every level if no node of it is irregular. -/
theorem Cond.normalThroughout_iff {c : Cond} :
    c.NormalThroughout ↔ c.Avoids Node.Irregular := Node.not_irregular_iff.symm

namespace Node

/-- A value itself is not irregular. -/
theorem not_irregular_expr (e : Expr) : ¬Irregular (.expr e) := fun ⟨_, heq, _⟩ => by cases heq

/-- A statement itself is not irregular. -/
theorem not_irregular_stmt (s : Stmt) : ¬Irregular (.stmt s) := fun ⟨_, heq, _⟩ => by cases heq

/-- Instructions make no irregular conditions. -/
theorem irregular_foreign : Foreign Irregular where
  expr e _ := not_irregular_expr e
  stmt s _ _ _ := not_irregular_stmt s

/-- The walk makes no irregular conditions. -/
theorem irregular_unmade (config : Config) : Unmade config Irregular where
  run hm hrun := by
    have hgrown := Simulation.run_grown irregular_foreign hm.stack
      (fun _ _ _ _ e _ => not_irregular_expr e) hrun
    exact ⟨hgrown.stack, hgrown.stmts.avoids hm.scope⟩
  const k := not_irregular_expr _
  atom c hc := by
    rintro ⟨d, heq, hnot⟩
    cases heq
    cases c with
    | test e inverse => exact hnot (.test e inverse)
    | compare l r e => exact hnot (.compare l r e)
    | _ => cases hc
  negate c hc := hc.negate_regular
  all _ c d hc hd := Cond.all_regular (List.cons_ne_nil _ _) (by simpa using ⟨hc, hd⟩)
  any _ c d hc hd := Cond.any_regular (List.cons_ne_nil _ _) (by simpa using ⟨hc, hd⟩)
  ternary _ _ _ _ := not_irregular_expr _
  assign _ _ _ _ := not_irregular_stmt _
  control s _ := not_irregular_stmt s
  forLoop _ _ _ _ _ := not_irregular_stmt _

end Node

/-! ### The normal form -/

/-- **Normal form.** Negation keeps normal conditions and undoes itself on them, joining one or more
    of them gives a normal condition, and every condition in the code of a method, also within
    conditional values, is normal. -/
theorem conditions_normal :
    (∀ c : Cond, c.Normal → c.negate.Normal ∧ c.negate.negate = c) ∧
      (∀ cs : List Cond, cs ≠ [] → (∀ c ∈ cs, c.Normal) →
        (Cond.all cs).Normal ∧ (Cond.any cs).Normal) ∧
      (∀ c : Cond, c.NormalThroughout → c.negate.NormalThroughout) ∧
      (∀ cs : List Cond, cs ≠ [] → (∀ c ∈ cs, c.NormalThroughout) →
        (Cond.all cs).NormalThroughout ∧ (Cond.any cs).NormalThroughout) ∧
      ∀ (config : Config) (m : Method) (r : RecoveredBody), m.recover config = .ok r →
        ∀ c, Node.cond c ∈ r.body.nodes → c.Normal := by
  refine ⟨fun c hc => ⟨hc.negate, hc.negate_negate⟩,
    fun cs hne hcs => ⟨Cond.normal_all hne hcs, Cond.normal_any hne hcs⟩, ?_, ?_, ?_⟩
  · intro c hc
    rw [Cond.normalThroughout_iff] at hc ⊢
    exact hc.negate_regular
  · intro cs hne hcs
    simp only [Cond.normalThroughout_iff] at hcs ⊢
    exact ⟨Cond.all_regular hne hcs, Cond.any_regular hne hcs⟩
  · intro config m r h
    exact Node.not_irregular_iff.1 ((Node.irregular_unmade config).recover h)

/-- A condition of the form `(a || b < c) && !d`. -/
def mixedCond : Cond :=
  .and [.or [.test (.var ⟨0, "a", "Z"⟩) false,
      .compare (.var ⟨1, "b", "I"⟩) .lt (.var ⟨2, "c", "I"⟩)],
    .test (.var ⟨3, "d", "Z"⟩) true]

/-- The blocks of `x = a && b ? 1 : 2`. -/
def chosen : Method := .ofBlocks
  [⟨[.load 0 "Z"], .branch (.zero .eq) 3 1⟩, ⟨[.load 1 "Z"], .branch (.zero .eq) 3 2⟩,
    ⟨[.const (.int 1)], .goto 4⟩, ⟨[.const (.int 2)], .goto 4⟩, ⟨[.store 2 "I"], .ret⟩]

/-- The condition is normal. -/
theorem mixedCond_normal : mixedCond.NormalThroughout := by
  have hor : (Cond.or [.test (.var ⟨0, "a", "Z"⟩) false,
      .compare (.var ⟨1, "b", "I"⟩) .lt (.var ⟨2, "c", "I"⟩)]).Normal :=
    .or (by simp) (by simp) (by simpa using ⟨.test .., .compare ..⟩)
  have hand : mixedCond.Normal := .and (by simp) (by simp) (by simpa using ⟨hor, .test ..⟩)
  rw [Cond.normalThroughout_iff, hand.avoids_iff]
  -- the tested values are locals, which hold no conditions
  have hvar : ∀ v, (Expr.var v).Avoids Node.Irregular :=
    fun v => Node.irregular_foreign.leaf rfl rfl
  simpa [mixedCond, Cond.values, Cond.valuesAll] using ⟨hvar _, hvar _, hvar _, hvar _⟩

/-- Whether a node is a conjunction of two conditions. -/
def Node.isConjunction : Node → Bool
  | .cond (.and [_, _]) => true
  | _ => false

/-- Negations and joins of one condition, and the code of a method with a conjunction inside of a
    conditional value. -/
theorem mixed_and_chosen_normal :
    (mixedCond.negate.Normal ∧ mixedCond.negate.negate = mixedCond) ∧
      ((Cond.all [mixedCond, mixedCond]).Normal ∧ (Cond.any [mixedCond, mixedCond]).Normal) ∧
      mixedCond.negate.NormalThroughout ∧
      ((Cond.all [mixedCond, mixedCond]).NormalThroughout ∧
        (Cond.any [mixedCond, mixedCond]).NormalThroughout) ∧
      ∃ r, chosen.recover {} = .ok r ∧ (∃ c d, Node.cond (.and [c, d]) ∈ r.body.nodes) ∧
        ∀ c, Node.cond c ∈ r.body.nodes → c.Normal := by
  obtain ⟨hnegate, hjoin, hnegateAll, hjoinAll, hcode⟩ := conditions_normal
  have hmixed := mixedCond_normal
  have hnormal : mixedCond.Normal := (Cond.normalThroughout_iff.1 hmixed).normal
  have heval : (chosen.recover {}).toOption.map (·.body.nodes.any Node.isConjunction) =
      some true := by decide +kernel
  obtain ⟨r, hr, hany⟩ := Method.exists_of_map_toOption heval
  refine ⟨hnegate _ hnormal, hjoin _ (by simp) (by simpa using hnormal), hnegateAll _ hmixed,
    hjoinAll _ (by simp) (by simpa using hmixed), r, hr, ?_, hcode _ _ _ hr⟩
  obtain ⟨n, hn, htrue⟩ := List.any_eq_true.1 hany
  unfold Node.isConjunction at htrue
  split at htrue
  · exact ⟨_, _, hn⟩
  · cases htrue

end Restructure
