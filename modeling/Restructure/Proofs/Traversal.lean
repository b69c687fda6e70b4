import Restructure.Proofs.Simulation.Products
import Restructure.Proofs.Locals.Uses

namespace Restructure

/-!
# Traversal — a visit sees every node of a tree once, and queries tell what it sees

* `Node.parts` — the parts of one node, and `Node.at?` — the node at the end of a way down
  through them.  A tree that holds the same part twice has it at two positions.
* `Enumerates` — a list of nodes runs through all positions, each once, from the root down and
  from the first child to the last.  The children's lists make up that of their parent
  (`Enumerates.append`, `Enumerates.node`).
* `Stmt.nodes_enumerate`, `Expr.nodes_enumerate`, `Cond.nodes_enumerate` — so does every visit.
* `visits_and_queries` — the main statement.
-/

/-! ### Positions -/

/-- The parts of a value, in the order in which source code evaluates them. -/
def Expr.parts : Expr → List Node
  | .const _ | .var _ | .static _ | .increment _ _ _ => []
  | .field _ e | .length e | .negate e | .cast _ e | .instanceOf _ e | .newArray _ e => [.expr e]
  | .element l r | .binary _ l r | .compare _ l r => [.expr l, .expr r]
  | .arrayOf _ e es | .call _ e es => .expr e :: es.map .expr
  | .new _ _ es | .staticCall _ es => es.map .expr
  | .ternary c a b => [.cond c, .expr a, .expr b]

/-- The parts of a condition. -/
def Cond.parts : Cond → List Node
  | .test e _ => [.expr e]
  | .compare l _ r => [.expr l, .expr r]
  | .not c => [.cond c]
  | .and cs | .or cs => cs.map .cond

/-- The statements of a scope, as nodes. -/
def Scope.parts (s : Scope) : List Node := s.stmts.map .stmt

/-- The parts of a statement, in the order in which source code writes them. -/
def Stmt.parts : Stmt → List Node
  | .assign t e | .compound t _ e => t.operands.map .expr ++ [.expr e]
  | .eval e | .throw e => [.expr e]
  | .ret e => e.toList.map .expr
  | .ifElse c b orElse => .cond c :: (b.parts ++ orElse.toList.flatMap Scope.parts)
  | .whileLoop c b => .cond c :: b.parts
  | .doWhile c b => b.parts ++ [.cond c]
  | .forLoop init c update b =>
    init.toList.map .stmt ++ (.cond c :: (update.toList.map .stmt ++ b.parts))
  | .switch e arms => .expr e :: arms.flatMap (·.body.parts)
  | .increment _ _ | .breakOut | .continueLoop | .label _ | .goto _ => []
  | .gotoIf c _ => [.cond c]

/-- The parts of a node. -/
def Node.parts : Node → List Node
  | .expr e => e.parts
  | .cond c => c.parts
  | .stmt s => s.parts

/-- The node at a position: the numbers of the children on the way down to it. -/
def Node.at? : Node → List Nat → Option Node
  | n, [] => some n
  | n, i :: p => n.parts[i]?.bind fun part => part.at? p

/-- The node at a position below one of the given nodes, which the position's first number
    chooses. -/
def Node.among? (cs : List Node) : List Nat → Option Node
  | [] => none
  | i :: p => cs[i]?.bind fun part => part.at? p

/-! ### Enumerations -/

/-- The list has one node for each position, in the order of the positions. -/
def Enumerates (ns : List Node) (node? : List Nat → Option Node) : Prop :=
  ∃ ps : List (List Nat), ps.Pairwise (· < ·) ∧ (∀ p, p ∈ ps ↔ (node? p).isSome) ∧
    ps.map node? = ns.map some

/-- The position in a list of children that stands behind `k` other ones. -/
def shift (k : Nat) : List Nat → List Nat
  | [] => []
  | i :: p => (k + i) :: p

/-- Shifted positions keep their order. -/
theorem shift_lt {k : Nat} {p q : List Nat} (h : p < q) : shift k p < shift k q := by
  cases p with
  | nil =>
    cases q with
    | nil => exact absurd h (List.lt_irrefl _)
    | cons j q => exact List.nil_lt_cons _ _
  | cons i p =>
    cases q with
    | nil => exact absurd h (List.not_lt_nil _)
    | cons j q =>
      rw [shift, shift, List.cons_lt_cons_iff]
      rcases List.cons_lt_cons_iff.1 h with hij | ⟨rfl, hpq⟩
      · exact .inl (Nat.add_lt_add_left hij k)
      · exact .inr ⟨rfl, hpq⟩

/-- A position among nodes begins with the number of one of them. -/
theorem Node.eq_cons_of_among? {cs : List Node} {p : List Nat}
    (h : (Node.among? cs p).isSome = true) : ∃ i q, p = i :: q ∧ i < cs.length := by
  cases p with
  | nil => cases h
  | cons i q =>
    refine ⟨i, q, rfl, Nat.lt_of_not_le fun hle => ?_⟩
    rw [Node.among?, List.getElem?_eq_none hle] at h
    cases h

/-- The first nodes keep their positions when others follow. -/
theorem Node.among?_append_left {cs : List Node} (ds : List Node) {i : Nat} (p : List Nat)
    (hi : i < cs.length) : Node.among? (cs ++ ds) (i :: p) = Node.among? cs (i :: p) := by
  rw [Node.among?, Node.among?, List.getElem?_append_left hi]

/-- The positions of the last nodes are shifted by the number of the first ones. -/
theorem Node.among?_append_shift (cs ds : List Node) (p : List Nat) :
    Node.among? (cs ++ ds) (shift cs.length p) = Node.among? ds p := by
  cases p with
  | nil => rfl
  | cons i p =>
    rw [shift, Node.among?, Node.among?, List.getElem?_append_right (Nat.le_add_right _ _),
      Nat.add_sub_cancel_left]

/-- The positions below two lists: those below the first one, and those below the second one with
    larger numbers. -/
theorem Node.isSome_among?_append (cs ds : List Node) (p : List Nat) :
    (Node.among? (cs ++ ds) p).isSome = true ↔ (Node.among? cs p).isSome = true ∨
      ∃ q, (Node.among? ds q).isSome = true ∧ shift cs.length q = p := by
  constructor
  · intro hp
    obtain ⟨i, q, rfl, _⟩ := Node.eq_cons_of_among? hp
    -- the first number of a position tells in which of the two lists it is
    by_cases hi : i < cs.length
    · rw [Node.among?_append_left ds q hi] at hp
      exact .inl hp
    · obtain ⟨j, rfl⟩ := Nat.exists_eq_add_of_le (Nat.le_of_not_lt hi)
      rw [show (cs.length + j) :: q = shift cs.length (j :: q) from rfl,
        Node.among?_append_shift] at hp
      exact .inr ⟨j :: q, hp, rfl⟩
  · rintro (hp | ⟨q, hq, rfl⟩)
    · obtain ⟨i, q, rfl, hi⟩ := Node.eq_cons_of_among? hp
      rwa [Node.among?_append_left ds q hi]
    · rwa [Node.among?_append_shift]

namespace Enumerates

variable {ns ms cs ds : List Node} {n : Node}

/-- No nodes have no positions. -/
theorem nil : Enumerates [] (Node.among? []) :=
  ⟨[], .nil, fun p => by cases p <;> simp [Node.among?], rfl⟩

/-- A node comes before all that is below it. -/
theorem node (h : Enumerates ns (Node.among? n.parts)) : Enumerates (n :: ns) n.at? := by
  obtain ⟨ps, hlt, hmem, hmap⟩ := h
  have hcons : ∀ p ∈ ps, ∃ i q, p = i :: q := fun p hp => by
    obtain ⟨i, q, hp, _⟩ := Node.eq_cons_of_among? ((hmem p).1 hp)
    exact ⟨i, q, hp⟩
  refine ⟨[] :: ps, List.pairwise_cons.2 ⟨fun p hp => ?_, hlt⟩, fun p => ?_, ?_⟩
  -- the node itself has the empty position, which is in front of all others
  · obtain ⟨i, q, rfl⟩ := hcons p hp
    exact List.nil_lt_cons _ _
  · cases p with
    | nil => simp [Node.at?]
    | cons i q =>
      have htail : i :: q ∈ [] :: ps ↔ i :: q ∈ ps := by simp
      exact htail.trans (hmem (i :: q))
  · rw [List.map_cons, List.map_cons, ← hmap]
    refine congrArg (_ :: ·) (List.map_congr_left fun p hp => ?_)
    obtain ⟨i, q, rfl⟩ := hcons p hp
    rfl

/-- The nodes below the only one of a list. -/
theorem single (h : Enumerates ns n.at?) : Enumerates ns (Node.among? [n]) := by
  obtain ⟨ps, hlt, hmem, hmap⟩ := h
  refine ⟨ps.map (0 :: ·), ?_, fun p => ?_, ?_⟩
  · refine List.pairwise_map.2 (hlt.imp fun h => ?_)
    exact List.cons_lt_cons_iff.2 (.inr ⟨rfl, h⟩)
  · cases p with
    | nil => simp [Node.among?]
    | cons i q => cases i <;> simp [Node.among?, hmem]
  · rw [List.map_map, ← hmap]
    rfl

/-- The nodes below a list, and then those below another one. -/
theorem append (h : Enumerates ns (Node.among? cs)) (h' : Enumerates ms (Node.among? ds)) :
    Enumerates (ns ++ ms) (Node.among? (cs ++ ds)) := by
  obtain ⟨ps, hlt, hmem, hmap⟩ := h
  obtain ⟨qs, hlt', hmem', hmap'⟩ := h'
  have hfirst : ∀ p ∈ ps, ∃ i q, p = i :: q ∧ i < cs.length := fun p hp =>
    Node.eq_cons_of_among? ((hmem p).1 hp)
  refine ⟨ps ++ qs.map (shift cs.length), ?_, fun p => ?_, ?_⟩
  · -- a position below the first list has a smaller number in front than one below the second
    refine List.pairwise_append.2 ⟨hlt, List.pairwise_map.2 (hlt'.imp shift_lt), ?_⟩
    intro p hp _ hq
    obtain ⟨q, hqs, rfl⟩ := List.mem_map.1 hq
    obtain ⟨i, p, rfl, hi⟩ := hfirst p hp
    obtain ⟨j, q, rfl, _⟩ := Node.eq_cons_of_among? ((hmem' q).1 hqs)
    exact List.cons_lt_cons_iff.2 (.inl (Nat.lt_of_lt_of_le hi (Nat.le_add_right _ _)))
  · simp only [List.mem_append, List.mem_map, hmem, hmem', Node.isSome_among?_append]
  · rw [List.map_append, List.map_append, ← hmap, ← hmap', List.map_map]
    refine congrArg₂ _ (List.map_congr_left fun p hp => ?_) (List.map_congr_left fun p _ => ?_)
    · obtain ⟨i, q, rfl, hi⟩ := hfirst p hp
      exact Node.among?_append_left ds q hi
    · exact Node.among?_append_shift cs ds p

/-- The nodes below a first node and those below the others. -/
theorem cons (h : Enumerates ns n.at?) (h' : Enumerates ms (Node.among? cs)) :
    Enumerates (ns ++ ms) (Node.among? (n :: cs)) := h.single.append h'

end Enumerates

/-! ### Visits -/

mutual

/-- The visit of a value. By recursion on the value. -/
theorem Expr.nodes_enumerate (e : Expr) : Enumerates e.nodes (Node.expr e).at? := by
  rw [Expr.nodes.eq_def]
  refine .node ?_
  -- each constructor lists its parts in the order in which the visit comes to them
  cases e with
  | const _ | var _ | static _ | increment _ _ _ => exact .nil
  | field _ e | length e | negate e | cast _ e | instanceOf _ e | newArray _ e =>
    exact e.nodes_enumerate.single
  | element l r | binary _ l r | compare _ l r =>
    exact l.nodes_enumerate.cons r.nodes_enumerate.single
  | arrayOf _ e es | call _ e es => exact e.nodes_enumerate.cons (Expr.allNodes_enumerate es)
  | new _ _ es | staticCall _ es => exact Expr.allNodes_enumerate es
  | ternary c a b =>
    have := c.nodes_enumerate.cons (a.nodes_enumerate.cons b.nodes_enumerate.single)
    rwa [← List.append_assoc] at this

/-- The visit of a list of values. -/
theorem Expr.allNodes_enumerate (es : List Expr) :
    Enumerates (Expr.allNodes es) (Node.among? (es.map .expr)) := by
  cases es with
  | nil => exact .nil
  | cons e es => exact e.nodes_enumerate.cons (Expr.allNodes_enumerate es)

/-- The visit of a condition. -/
theorem Cond.nodes_enumerate (c : Cond) : Enumerates c.nodes (Node.cond c).at? := by
  rw [Cond.nodes.eq_def]
  refine .node ?_
  cases c with
  | test e _ => exact e.nodes_enumerate.single
  | compare l _ r => exact l.nodes_enumerate.cons r.nodes_enumerate.single
  | not c => exact c.nodes_enumerate.single
  | and cs | or cs => exact Cond.allNodes_enumerate cs

/-- The visit of a list of conditions. -/
theorem Cond.allNodes_enumerate (cs : List Cond) :
    Enumerates (Cond.allNodes cs) (Node.among? (cs.map .cond)) := by
  cases cs with
  | nil => exact .nil
  | cons c cs => exact c.nodes_enumerate.cons (Cond.allNodes_enumerate cs)

end

mutual

/-- The visit of a statement. By recursion on the statement. -/
theorem Stmt.nodes_enumerate (s : Stmt) : Enumerates s.nodes (Node.stmt s).at? := by
  rw [Stmt.nodes.eq_def]
  refine .node ?_
  cases s with
  | assign t e | compound t _ e =>
    exact (Expr.allNodes_enumerate t.operands).append e.nodes_enumerate.single
  | eval e | throw e => exact e.nodes_enumerate.single
  | ret value =>
    cases value with
    | none => exact .nil
    | some e => exact e.nodes_enumerate.single
  | ifElse c b orElse =>
    have hboth := c.nodes_enumerate.cons (Scope.nodes_enumerate b)
    cases orElse with
    | none => simpa [Node.parts, Stmt.parts] using hboth
    | some e => simpa [Node.parts, Stmt.parts] using hboth.append (Scope.nodes_enumerate e)
  | whileLoop c b => exact c.nodes_enumerate.cons (Scope.nodes_enumerate b)
  | doWhile c b => exact (Scope.nodes_enumerate b).append c.nodes_enumerate.single
  -- an initial statement and an update may be missing, so the parts are put together in four ways
  | forLoop init c update b =>
    have hbody := Scope.nodes_enumerate b
    cases init with
    | none =>
      cases update with
      | none => simpa [Node.parts, Stmt.parts] using c.nodes_enumerate.cons hbody
      | some u =>
        simpa [Node.parts, Stmt.parts] using c.nodes_enumerate.cons (u.nodes_enumerate.cons hbody)
    | some i =>
      cases update with
      | none =>
        simpa [Node.parts, Stmt.parts] using i.nodes_enumerate.cons (c.nodes_enumerate.cons hbody)
      | some u =>
        simpa [Node.parts, Stmt.parts] using
          i.nodes_enumerate.cons (c.nodes_enumerate.cons (u.nodes_enumerate.cons hbody))
  | switch e arms => exact e.nodes_enumerate.cons (SwitchArm.allNodes_enumerate arms)
  | increment _ _ | breakOut | continueLoop | label _ | goto _ => exact .nil
  | gotoIf c _ => exact c.nodes_enumerate.single

/-- The visit of a list of statements. -/
theorem Stmt.allNodes_enumerate (ss : List Stmt) :
    Enumerates (Stmt.allNodes ss) (Node.among? (ss.map .stmt)) := by
  cases ss with
  | nil => exact .nil
  | cons s ss => exact s.nodes_enumerate.cons (Stmt.allNodes_enumerate ss)

/-- The visit of a scope. -/
theorem Scope.nodes_enumerate (b : Scope) : Enumerates b.nodes (Node.among? b.parts) := by
  cases b with
  | mk _ _ ss _ => exact Stmt.allNodes_enumerate ss

/-- The visit of the arms of a switch. -/
theorem SwitchArm.allNodes_enumerate (arms : List SwitchArm) :
    Enumerates (SwitchArm.allNodes arms) (Node.among? (arms.flatMap (·.body.parts))) := by
  cases arms with
  | nil => exact .nil
  | cons arm arms =>
    cases arm with
    | mk _ _ b _ => exact (Scope.nodes_enumerate b).append (SwitchArm.allNodes_enumerate arms)

end

/-! ### Queries -/

/-- The node reads or increments a local in the slot. -/
def Node.touches (slot : Nat) (n : Node) : Bool := n.locals.any (·.slot == slot)

mutual

/-- A value reads a local if one of its nodes touches it. -/
theorem Expr.reads_eq (slot : Nat) (e : Expr) : e.reads slot = e.nodes.any (Node.touches slot) := by
  cases e with
  | const _ | static _ | var _ | increment _ _ _ =>
    simp [Expr.reads, Expr.nodes, Node.touches, Node.locals]
  | field _ e | length e | negate e | cast _ e | instanceOf _ e | newArray _ e =>
    simp [Expr.reads, Expr.nodes, Node.touches, Node.locals, e.reads_eq slot]
  | element l r | binary _ l r | compare _ l r =>
    simp [Expr.reads, Expr.nodes, Node.touches, Node.locals, l.reads_eq slot, r.reads_eq slot]
  | arrayOf _ e es | call _ e es =>
    simp [Expr.reads, Expr.nodes, Node.touches, Node.locals, e.reads_eq slot,
      Expr.anyReads_eq slot es]
  | new _ _ es | staticCall _ es =>
    simp [Expr.reads, Expr.nodes, Node.touches, Node.locals, Expr.anyReads_eq slot es]
  | ternary c a b =>
    simp [Expr.reads, Expr.nodes, Node.touches, Node.locals, c.reads_eq slot, a.reads_eq slot,
      b.reads_eq slot, Bool.or_assoc]

/-- The same for a list of values. -/
theorem Expr.anyReads_eq (slot : Nat) (es : List Expr) :
    Expr.anyReads slot es = (Expr.allNodes es).any (Node.touches slot) := by
  cases es with
  | nil => rfl
  | cons e es =>
    rw [Expr.anyReads, Expr.allNodes, List.any_append, e.reads_eq slot, Expr.anyReads_eq slot es]

/-- The same for a condition. -/
theorem Cond.reads_eq (slot : Nat) (c : Cond) : c.reads slot = c.nodes.any (Node.touches slot) := by
  cases c with
  | test e _ => simp [Cond.reads, Cond.nodes, Node.touches, Node.locals, e.reads_eq slot]
  | compare l _ r =>
    simp [Cond.reads, Cond.nodes, Node.touches, Node.locals, l.reads_eq slot, r.reads_eq slot]
  | not c => simp [Cond.reads, Cond.nodes, Node.touches, Node.locals, c.reads_eq slot]
  | and cs | or cs =>
    simp [Cond.reads, Cond.nodes, Node.touches, Node.locals, Cond.anyReads_eq slot cs]

/-- The same for a list of conditions. -/
theorem Cond.anyReads_eq (slot : Nat) (cs : List Cond) :
    Cond.anyReads slot cs = (Cond.allNodes cs).any (Node.touches slot) := by
  cases cs with
  | nil => rfl
  | cons c cs =>
    rw [Cond.anyReads, Cond.allNodes, List.any_append, c.reads_eq slot, Cond.anyReads_eq slot cs]

end

/-- **Visits and queries.** A visit of a statement, of a value or of a condition calls on every
    node of the tree exactly once, in the order of source code.  A value or a condition has effects
    exactly if its visit comes to a call, a constructor call or an increment, and reads a slot
    exactly if it comes to a local in the slot that is read or incremented. -/
theorem visits_and_queries (slot : Nat) :
    (∀ s : Stmt, Enumerates s.nodes (Node.stmt s).at?) ∧
      (∀ e : Expr, Enumerates e.nodes (Node.expr e).at? ∧
        (e.hasEffects = true ↔ ∃ n ∈ e.nodes, n.brings Product.isEffect = true) ∧
        (e.reads slot = true ↔ ∃ n ∈ e.nodes, n.touches slot = true)) ∧
      ∀ c : Cond, Enumerates c.nodes (Node.cond c).at? ∧
        (c.hasEffects = true ↔ ∃ n ∈ c.nodes, n.brings Product.isEffect = true) ∧
        (c.reads slot = true ↔ ∃ n ∈ c.nodes, n.touches slot = true) := by
  refine ⟨Stmt.nodes_enumerate, fun e => ⟨e.nodes_enumerate, ?_, ?_⟩,
    fun c => ⟨c.nodes_enumerate, ?_, ?_⟩⟩
  · rw [e.hasEffects_eq, List.any_eq_true]
  · rw [e.reads_eq, List.any_eq_true]
  · rw [c.hasEffects_eq, List.any_eq_true]
  · rw [c.reads_eq, List.any_eq_true]

end Restructure
