import Restructure.Proofs.Conditions.Avoidance

namespace Restructure

/-!
# Normal conditions — flat conjunctions and disjunctions, without explicit negations

The flattening constructors keep the operands of a conjunction and of a disjunction flat. Where this
holds at every level, negation has nothing to flatten: conjunctions and disjunctions change places,
and negating twice gives the same tree.

* `Cond.Normal` — normal conditions.
* `Cond.mirror` — the opposite of a condition in the same shape; `Cond.Normal.negate_eq_mirror`
  equates it with the negation.
* `Cond.normal_all`, `Cond.normal_any` — joined conditions.
* `Cond.values` — the values that a condition tests; joining and negation keep them.
* `Node.Irregular` — conditions that are not normal; `Cond.Avoids.negate_regular` and its companions
  carry all this over to conditions whose values hold conditions again.
-/

namespace Cond

/-! ### Normal conditions -/

/-- No explicit negation, at least two operands in every conjunction and disjunction, and none of
    them of the same kind. -/
inductive Normal : Cond → Prop
  | test (e : Expr) (inverse : Bool) : Normal (.test e inverse)
  | compare (l : Expr) (r : Relation) (e : Expr) : Normal (.compare l r e)
  | and {cs : List Cond} (hlen : 2 ≤ cs.length) (hflat : ∀ ds, .and ds ∉ cs)
      (hcs : ∀ c ∈ cs, Normal c) : Normal (.and cs)
  | or {cs : List Cond} (hlen : 2 ≤ cs.length) (hflat : ∀ ds, .or ds ∉ cs)
      (hcs : ∀ c ∈ cs, Normal c) : Normal (.or cs)

/-! ### Mirror images -/

mutual

/-- The opposite of a test in the same shape: conjunctions and disjunctions change places, and
    atomic tests are turned around. -/
def mirror : Cond → Cond
  | .test e inverse => .test e (!inverse)
  | .compare l r e => .compare l r.negate e
  | .not c => .not c.mirror
  | .and cs => .or (mirrorAll cs)
  | .or cs => .and (mirrorAll cs)

/-- The mirror images of tests. -/
def mirrorAll : List Cond → List Cond
  | [] => []
  | c :: cs => c.mirror :: mirrorAll cs

end

/-- The mirror images of a list are those of its members. -/
theorem mirrorAll_eq_map (cs : List Cond) : mirrorAll cs = cs.map mirror := by
  induction cs with
  | nil => rfl
  | cons c cs ih => rw [mirrorAll, ih, List.map_cons]

/-- The mirror image of a conjunction is a disjunction. -/
theorem mirror_and (cs : List Cond) : (Cond.and cs).mirror = .or (cs.map mirror) := by
  rw [mirror, mirrorAll_eq_map]

/-- The mirror image of a disjunction is a conjunction. -/
theorem mirror_or (cs : List Cond) : (Cond.or cs).mirror = .and (cs.map mirror) := by
  rw [mirror, mirrorAll_eq_map]

mutual

/-- The mirror image of a mirror image is the condition itself. -/
theorem mirror_mirror (c : Cond) : c.mirror.mirror = c := by
  cases c with
  | test e inverse => simp only [mirror, Bool.not_not]
  | compare l r e => cases r <;> rfl
  | not c => simp only [mirror, mirror_mirror c]
  | and cs => simp only [mirror, mirrorAll_mirrorAll cs]
  | or cs => simp only [mirror, mirrorAll_mirrorAll cs]

/-- The same for a list of conditions. -/
theorem mirrorAll_mirrorAll (cs : List Cond) : mirrorAll (mirrorAll cs) = cs := by
  match cs with
  | [] => rfl
  | c :: cs => simp only [mirrorAll, mirror_mirror c, mirrorAll_mirrorAll cs]

end

/-- The same for a list of conditions, member by member. -/
theorem map_mirror_mirror (cs : List Cond) : (cs.map mirror).map mirror = cs := by
  rw [← mirrorAll_eq_map, ← mirrorAll_eq_map, mirrorAll_mirrorAll]

/-- Only a disjunction has a conjunction as its mirror image. -/
theorem or_of_mirror_eq_and {c : Cond} {ds : List Cond} (h : c.mirror = .and ds) :
    c = .or (ds.map mirror) := by
  rw [← mirror_mirror c, h, mirror_and]

/-- Only a conjunction has a disjunction for its mirror image. -/
theorem and_of_mirror_eq_or {c : Cond} {ds : List Cond} (h : c.mirror = .or ds) :
    c = .and (ds.map mirror) := by
  rw [← mirror_mirror c, h, mirror_or]

/-- Without disjunctions there are no conjunctions in the mirror image. -/
theorem and_not_mem_map_mirror {cs : List Cond} (hflat : ∀ ds, .or ds ∉ cs) (ds : List Cond) :
    Cond.and ds ∉ cs.map mirror := by
  intro hmem
  obtain ⟨c, hc, heq⟩ := List.mem_map.1 hmem
  rw [or_of_mirror_eq_and heq] at hc
  exact hflat _ hc

/-- Without conjunctions there are no disjunctions in the mirror image. -/
theorem or_not_mem_map_mirror {cs : List Cond} (hflat : ∀ ds, .and ds ∉ cs) (ds : List Cond) :
    Cond.or ds ∉ cs.map mirror := by
  intro hmem
  obtain ⟨c, hc, heq⟩ := List.mem_map.1 hmem
  rw [and_of_mirror_eq_or heq] at hc
  exact hflat _ hc

/-! ### De Morgan's laws for the flattening constructors -/

/-- The operands of a conjunction are mirrored one by one. -/
theorem orOperands_mirror (c : Cond) : c.mirror.orOperands = c.andOperands.map mirror := by
  cases c with
  | and cs => rw [mirror_and, orOperands, andOperands]
  | or cs => simp only [mirror_or, orOperands, andOperands, List.map_cons, List.map_nil]
  | _ => rfl

/-- The mirror image of the conjunction that is built is the disjunction that is built. -/
theorem mirror_conjunction (cs : List Cond) :
    (conjunction cs).mirror = disjunction (cs.map mirror) := by
  match cs with
  | [] => rfl
  | [c] => rfl
  | c :: d :: cs => exact mirror_and _

/-- Flattening commutes with mirroring. -/
theorem mirror_all (cs : List Cond) : (all cs).mirror = any (cs.map mirror) := by
  rw [all, mirror_conjunction, any, List.map_flatMap, List.flatMap_map]
  simp only [orOperands_mirror]

/-- A disjunction is built like the mirror image of a conjunction, so that what holds of one carries
    over to the other. -/
theorem any_eq_mirror (cs : List Cond) : any cs = (all (cs.map mirror)).mirror := by
  rw [mirror_all, map_mirror_mirror]

/-! ### Flat lists -/

/-- A condition that is no conjunction is its own only operand. -/
theorem andOperands_of_ne {c : Cond} (h : ∀ ds, c ≠ .and ds) : c.andOperands = [c] := by
  unfold andOperands
  split
  · exact absurd rfl (h _)
  · rfl

/-- Flat operands stay as they are. -/
theorem all_of_flat {cs : List Cond} (hlen : 2 ≤ cs.length) (hflat : ∀ ds, .and ds ∉ cs) :
    all cs = .and cs := by
  -- none of the members has operands to be taken over
  have hops : cs.flatMap andOperands = cs := by
    refine (List.flatMap_congr fun c hc => ?_).trans (List.flatMap_singleton' cs)
    exact andOperands_of_ne fun ds heq => hflat ds (heq ▸ hc)
  rw [all, hops]
  match cs, hlen with
  | _ :: _ :: _, _ => rfl

/-- Where nothing is to be flattened a disjunction is built as it is. -/
theorem any_of_flat {cs : List Cond} (hlen : 2 ≤ cs.length) (hflat : ∀ ds, .or ds ∉ cs) :
    any cs = .or cs := by
  have hall : all (cs.map mirror) = .and (cs.map mirror) :=
    all_of_flat (by rwa [List.length_map]) (and_not_mem_map_mirror hflat)
  rw [any_eq_mirror, hall, mirror_and, map_mirror_mirror]

/-! ### Negation -/

namespace Normal

variable {c : Cond}

/-- The mirror image of a normal condition is normal. -/
protected theorem mirror (h : c.Normal) : c.mirror.Normal := by
  induction h with
  | test e inverse => exact .test e _
  | compare l r e => exact .compare l _ e
  | @and cs hlen hflat _ ih =>
    rw [mirror_and]
    refine .or (by rwa [List.length_map]) (or_not_mem_map_mirror hflat) fun d hd => ?_
    obtain ⟨c, hc, rfl⟩ := List.mem_map.1 hd
    exact ih c hc
  | @or cs hlen hflat _ ih =>
    rw [mirror_or]
    refine .and (by rwa [List.length_map]) (and_not_mem_map_mirror hflat) fun d hd => ?_
    obtain ⟨c, hc, rfl⟩ := List.mem_map.1 hd
    exact ih c hc

/-- Negating a normal condition flattens nothing. -/
theorem negate_eq_mirror (h : c.Normal) : c.negate = c.mirror := by
  induction h with
  | test e inverse => rfl
  | compare l r e => rfl
  | @and cs hlen hflat _ ih =>
    -- the members are mirrored by induction, and joining them flattens nothing
    have hmap : cs.map negate = cs.map mirror := List.map_congr_left ih
    rw [negate, negateAll_eq_map, hmap, mirror_and]
    exact any_of_flat (by rwa [List.length_map]) (or_not_mem_map_mirror hflat)
  | @or cs hlen hflat _ ih =>
    have hmap : cs.map negate = cs.map mirror := List.map_congr_left ih
    rw [negate, negateAll_eq_map, hmap, mirror_or]
    exact all_of_flat (by rwa [List.length_map]) (and_not_mem_map_mirror hflat)

/-- The negation of a normal condition is normal. -/
protected theorem negate (h : c.Normal) : c.negate.Normal := by
  rw [h.negate_eq_mirror]
  exact h.mirror

/-- Negating a normal condition twice gives the condition back. -/
theorem negate_negate (h : c.Normal) : c.negate.negate = c := by
  rw [h.negate.negate_eq_mirror, h.negate_eq_mirror, mirror_mirror]

/-! ### Conjunction and disjunction -/

/-- A normal condition contributes operands to a conjunction that are normal and flat. -/
theorem andOperands (h : c.Normal) : c.andOperands ≠ [] ∧ (∀ ds, .and ds ∉ c.andOperands) ∧
    ∀ d ∈ c.andOperands, d.Normal := by
  have hsingle : (∀ ds, c ≠ .and ds) → c.andOperands ≠ [] ∧
      (∀ ds, .and ds ∉ c.andOperands) ∧ ∀ d ∈ c.andOperands, d.Normal := by
    intro hne
    rw [andOperands_of_ne hne]
    refine ⟨List.cons_ne_nil _ _, fun ds hds => hne ds (List.mem_singleton.1 hds).symm, ?_⟩
    intro d hd
    rwa [List.mem_singleton.1 hd]
  -- only a conjunction has operands other than itself
  cases h with
  | and hlen hflat hcs =>
    refine ⟨fun hnil => ?_, hflat, hcs⟩
    rw [Cond.andOperands] at hnil
    rw [hnil] at hlen
    exact Nat.not_succ_le_zero 1 hlen
  | _ => exact hsingle fun _ => by simp

end Normal

/-- The conjunction of normal conditions is normal. -/
theorem normal_all {cs : List Cond} (hne : cs ≠ []) (hcs : ∀ c ∈ cs, c.Normal) :
    (all cs).Normal := by
  have hflat : ∀ ds, Cond.and ds ∉ cs.flatMap andOperands := by
    intro ds hds
    obtain ⟨c, hc, hds⟩ := List.mem_flatMap.1 hds
    exact (hcs c hc).andOperands.2.1 ds hds
  have hops : ∀ d ∈ cs.flatMap andOperands, d.Normal := by
    intro d hd
    obtain ⟨c, hc, hd⟩ := List.mem_flatMap.1 hd
    exact (hcs c hc).andOperands.2.2 d hd
  have hsome : cs.flatMap andOperands ≠ [] := by
    obtain ⟨c, hc⟩ := List.exists_mem_of_ne_nil cs hne
    intro hnil
    exact (hcs c hc).andOperands.1 (List.flatMap_eq_nil_iff.1 hnil c hc)
  rw [all]
  generalize cs.flatMap andOperands = ops at hflat hops hsome
  -- one operand stands by itself, and more make a conjunction without conjunctions in it
  match ops, hsome with
  | [c], _ => exact hops c (List.mem_singleton_self c)
  | c :: d :: ops, _ => exact .and (by simp) hflat hops

/-- The disjunction of normal conditions is normal. -/
theorem normal_any {cs : List Cond} (hne : cs ≠ []) (hcs : ∀ c ∈ cs, c.Normal) :
    (any cs).Normal := by
  rw [any_eq_mirror]
  refine (normal_all (by simpa using hne) fun d hd => ?_).mirror
  obtain ⟨c, hc, rfl⟩ := List.mem_map.1 hd
  exact (hcs c hc).mirror

/-! ### Tested values -/

mutual

/-- The values that a condition tests, from left to right. -/
def values : Cond → List Expr
  | .test e _ => [e]
  | .compare l _ r => [l, r]
  | .not c => c.values
  | .and cs | .or cs => valuesAll cs

/-- The values that conditions test. -/
def valuesAll : List Cond → List Expr
  | [] => []
  | c :: cs => c.values ++ valuesAll cs

end

/-- The values of a list of conditions are those of its members. -/
theorem valuesAll_eq_flatMap (cs : List Cond) : valuesAll cs = cs.flatMap values := by
  induction cs with
  | nil => rfl
  | cons c cs ih => rw [valuesAll, ih, List.flatMap_cons]

mutual

/-- The mirror image tests the same values. -/
theorem values_mirror (c : Cond) : c.mirror.values = c.values := by
  cases c with
  | test e inverse => rfl
  | compare l r e => rfl
  | not c => simp only [mirror, values, values_mirror c]
  | and cs => simp only [mirror, values, valuesAll_mirrorAll cs]
  | or cs => simp only [mirror, values, valuesAll_mirrorAll cs]

/-- The same for a list of conditions. -/
theorem valuesAll_mirrorAll (cs : List Cond) : valuesAll (mirrorAll cs) = valuesAll cs := by
  match cs with
  | [] => rfl
  | c :: cs => rw [mirrorAll, valuesAll, values_mirror c, valuesAll_mirrorAll cs, valuesAll]

end

/-- The operands of a conjunction test its values. -/
theorem values_andOperands (c : Cond) : c.andOperands.flatMap values = c.values := by
  cases c with
  | and cs => rw [andOperands, values, valuesAll_eq_flatMap]
  | _ => simp [andOperands]

/-- Joining conditions keeps the values that they test. -/
theorem values_all (cs : List Cond) : (all cs).values = cs.flatMap values := by
  have hops : (cs.flatMap andOperands).flatMap values = cs.flatMap values := by
    rw [List.flatMap_assoc]
    simp only [values_andOperands]
  rw [all, ← hops]
  generalize cs.flatMap andOperands = ops
  match ops with
  | [] => rfl
  | [c] => simp [conjunction]
  | c :: d :: ops => rw [conjunction, values, valuesAll_eq_flatMap]; simp

/-- A disjunction tests the values of its members. -/
theorem values_any (cs : List Cond) : (any cs).values = cs.flatMap values := by
  rw [any_eq_mirror, values_mirror, values_all, List.flatMap_map]
  simp only [values_mirror]

end Cond

/-! ### Conditions within conditions -/

/-- The node is a condition that is not normal. -/
def Node.Irregular (n : Node) : Prop := ∃ c, n = .cond c ∧ ¬c.Normal

/-- Nodes are regular if all conditions among them are normal. -/
theorem Node.not_irregular_iff {ns : List Node} :
    (∀ n ∈ ns, ¬n.Irregular) ↔ ∀ c, Node.cond c ∈ ns → c.Normal := by
  constructor
  · intro h c hc
    by_contra hnot
    exact h _ hc ⟨c, rfl, hnot⟩
  · rintro h n hn ⟨c, rfl, hnot⟩
    exact hnot (h c hn)

namespace Cond

variable {c : Cond}

/-- A regular condition is normal. -/
theorem Avoids.normal (h : c.Avoids Node.Irregular) : c.Normal := by
  refine Node.not_irregular_iff.1 h c ?_
  rw [Cond.nodes.eq_def]
  exact List.mem_cons_self ..

/-- All conditions within a normal one are normal if those within its values are. -/
theorem Normal.avoids_iff (h : c.Normal) :
    c.Avoids Node.Irregular ↔ ∀ e ∈ c.values, e.Avoids Node.Irregular := by
  -- a normal condition is no irregular node itself, so only its parts matter
  have hiff : ∀ {c : Cond} {ns : List Node}, c.Normal → c.nodes = .cond c :: ns →
      (c.Avoids Node.Irregular ↔ ∀ n ∈ ns, ¬n.Irregular) := by
    intro c ns hc hnodes
    refine ⟨fun h => h.parts hnodes, Cond.avoids_of_nodes hnodes ?_⟩
    rintro ⟨d, heq, hnot⟩
    cases heq
    exact hnot hc
  induction h with
  | test e inverse =>
    rw [hiff (.test e inverse) (by rw [Cond.nodes]), values, List.forall_mem_singleton]
    rfl
  | compare l r e =>
    rw [hiff (.compare l r e) (by rw [Cond.nodes]), values, List.forall_mem_append,
      List.forall_mem_cons, List.forall_mem_singleton]
    rfl
  | @and cs hlen hflat hcs ih =>
    rw [hiff (.and hlen hflat hcs) (by rw [Cond.nodes]), Cond.allAvoid_iff, values,
      valuesAll_eq_flatMap, List.forall_mem_flatMap]
    exact forall₂_congr ih
  | @or cs hlen hflat hcs ih =>
    rw [hiff (.or hlen hflat hcs) (by rw [Cond.nodes]), Cond.allAvoid_iff, values,
      valuesAll_eq_flatMap, List.forall_mem_flatMap]
    exact forall₂_congr ih

/-- Negation keeps all conditions within normal. -/
theorem Avoids.negate_regular (h : c.Avoids Node.Irregular) : c.negate.Avoids Node.Irregular := by
  rw [h.normal.negate.avoids_iff, h.normal.negate_eq_mirror, values_mirror]
  exact h.normal.avoids_iff.1 h

/-- So does joining conditions. -/
theorem all_regular {cs : List Cond} (hne : cs ≠ []) (hcs : ∀ c ∈ cs, c.Avoids Node.Irregular) :
    (all cs).Avoids Node.Irregular := by
  rw [(normal_all hne fun c hc => (hcs c hc).normal).avoids_iff, values_all,
    List.forall_mem_flatMap]
  exact fun c hc => (hcs c hc).normal.avoids_iff.1 (hcs c hc)

/-- A disjunction of regular conditions is regular. -/
theorem any_regular {cs : List Cond} (hne : cs ≠ []) (hcs : ∀ c ∈ cs, c.Avoids Node.Irregular) :
    (any cs).Avoids Node.Irregular := by
  rw [(normal_any hne fun c hc => (hcs c hc).normal).avoids_iff, values_any,
    List.forall_mem_flatMap]
  exact fun c hc => (hcs c hc).normal.avoids_iff.1 (hcs c hc)

end Cond

end Restructure
