import Restructure.Proofs.Simulation.Edits
import Restructure.Stmt.Visit

namespace Restructure

/-!
# Marks — the labels and the jumps to labels in a tree

* `Scope.labels`, `Scope.jumps` — the numbers of the labels in a tree and of the jumps to labels,
  at every depth.
* `Scope.relabels` — the labels that stand in front of a `do` loop and open its body once more.
* `Marks` — how often each number is one of these; marks of a statement behind others are added.
-/

/-! ### Labels and jumps -/

/-- The number of a label. -/
def Node.label? : Node → Option Nat
  | .stmt (.label n) => some n
  | _ => none

/-- The number that a jump leads to. -/
def Node.jump? : Node → Option Nat
  | .stmt (.goto n) => some n
  | .stmt (.gotoIf _ n) => some n
  | _ => none

/-- The numbers of the labels in a tree. -/
def Scope.labels (s : Scope) : List Nat := s.nodes.filterMap Node.label?

/-- The numbers that the jumps in a tree lead to. -/
def Scope.jumps (s : Scope) : List Nat := s.nodes.filterMap Node.jump?

/-! ### Repeated labels -/

/-- The number of the label that the statements begin with. -/
def Stmt.opening? : List Stmt → Option Nat
  | .label n :: _ => some n
  | _ => none

/-- The number of the label `prev` if the statement behind it is a `do` loop whose body begins with
    the same label. -/
def Stmt.relabel? (prev : Option Stmt) (s : Stmt) : Option Nat :=
  match prev, s with
  | some (.label n), .doWhile _ b => if Stmt.opening? b.stmts = some n then some n else none
  | _, _ => none

/-- The labels repeated by the next statement, in a sequence behind `prev`. -/
def Stmt.relabelsAfter : (prev : Option Stmt) → List Stmt → List Nat
  | _, [] => []
  | prev, s :: ss => (Stmt.relabel? prev s).toList ++ Stmt.relabelsAfter (some s) ss

/-- The scopes that the statement owns. -/
def Stmt.scopes : Stmt → List Scope
  | .ifElse _ b none => [b]
  | .ifElse _ b (some e) => [b, e]
  | .whileLoop _ b | .doWhile _ b | .forLoop _ _ _ b => [b]
  | .switch _ arms => arms.map (·.body)
  | _ => []

/-- The labels repeated in the scopes that a node owns. -/
def Node.relabels : Node → List Nat
  | .stmt s => s.scopes.flatMap fun b => Stmt.relabelsAfter none b.stmts
  | _ => []

/-- The labels that stand in front of a `do` loop and once more at the beginning of its body. -/
def Scope.relabels (s : Scope) : List Nat :=
  Stmt.relabelsAfter none s.stmts ++ s.nodes.flatMap Node.relabels

/-! ### Counting -/

/-- How often each number is a label, a target of a jump, and a repeated label. -/
structure Marks where
  labels : Nat → Nat
  jumps : Nat → Nat
  repeats : Nat → Nat

namespace Marks

/-- No marks. -/
instance : Zero Marks where
  zero := ⟨fun _ => 0, fun _ => 0, fun _ => 0⟩

/-- The marks of two pieces of code together. -/
instance : Add Marks where
  add k k' := ⟨fun n => k.labels n + k'.labels n, fun n => k.jumps n + k'.jumps n,
    fun n => k.repeats n + k'.repeats n⟩

variable {k k' : Marks} {n : Nat}

/-- No marks have no labels. -/
@[simp] theorem labels_zero : (0 : Marks).labels n = 0 := rfl

/-- No marks have no jumps. -/
@[simp] theorem jumps_zero : (0 : Marks).jumps n = 0 := rfl

/-- No marks repeat nothing. -/
@[simp] theorem repeats_zero : (0 : Marks).repeats n = 0 := rfl

/-- The labels of two pieces are added. -/
@[simp] theorem labels_add : (k + k').labels n = k.labels n + k'.labels n := rfl

/-- The jumps of two pieces are added. -/
@[simp] theorem jumps_add : (k + k').jumps n = k.jumps n + k'.jumps n := rfl

/-- The repeated labels of two pieces are added. -/
@[simp] theorem repeats_add : (k + k').repeats n = k.repeats n + k'.repeats n := rfl

/-- Marks are equal if they count every number alike. -/
@[ext] theorem ext (hl : ∀ n, k.labels n = k'.labels n) (hj : ∀ n, k.jumps n = k'.jumps n)
    (hr : ∀ n, k.repeats n = k'.repeats n) : k = k' := by
  obtain ⟨l, j, r⟩ := k
  obtain ⟨l', j', r'⟩ := k'
  obtain rfl : l = l' := funext hl
  obtain rfl : j = j' := funext hj
  obtain rfl : r = r' := funext hr
  rfl

/-- No marks in front of others change nothing. -/
@[simp] theorem zero_add (k : Marks) : 0 + k = k := by
  ext n <;> simp

/-- No marks behind others change nothing. -/
@[simp] theorem add_zero (k : Marks) : k + 0 = k := by
  ext n <;> simp

/-- Only the pieces matter, not how they are put together. -/
theorem add_assoc (k k' k'' : Marks) : k + k' + k'' = k + (k' + k'') := by
  ext n <;> simp [Nat.add_assoc]

/-- The marks of nodes. -/
def ofNodes (ns : List Node) : Marks where
  labels n := (ns.filterMap Node.label?).count n
  jumps n := (ns.filterMap Node.jump?).count n
  repeats n := (ns.flatMap Node.relabels).count n

/-- No nodes have no marks. -/
@[simp] theorem ofNodes_nil : ofNodes [] = 0 := rfl

/-- The marks of two lists of nodes are added. -/
@[simp] theorem ofNodes_append (ns ms : List Node) :
    ofNodes (ns ++ ms) = ofNodes ns + ofNodes ms := by
  ext n <;> simp [ofNodes]

/-- A value is no mark. -/
@[simp] theorem ofNodes_expr (e : Expr) (ns : List Node) :
    ofNodes (.expr e :: ns) = ofNodes ns := rfl

/-- A condition is no mark. -/
@[simp] theorem ofNodes_cond (c : Cond) (ns : List Node) :
    ofNodes (.cond c :: ns) = ofNodes ns := rfl

/-- The marks of a statement are counted with those of the nodes behind it. -/
theorem ofNodes_stmt (s : Stmt) (ns : List Node) :
    ofNodes (.stmt s :: ns) = ofNodes [.stmt s] + ofNodes ns := ofNodes_append [.stmt s] ns

/-- The marks that one repeated label makes, if there is one. -/
def ofRelabels (ns : List Nat) : Marks where
  labels _ := 0
  jumps _ := 0
  repeats n := ns.count n

/-- Repeated labels are added. -/
theorem ofRelabels_append (ns ms : List Nat) :
    ofRelabels (ns ++ ms) = ofRelabels ns + ofRelabels ms := by
  ext n <;> simp [ofRelabels]

/-- Nothing is repeated. -/
@[simp] theorem ofRelabels_nil : ofRelabels [] = 0 := rfl

end Marks

/-! ### Marks of trees -/

/-- The marks of a sequence of statements. -/
def Stmt.marks (ss : List Stmt) : Marks :=
  .ofRelabels (Stmt.relabelsAfter none ss) + .ofNodes (Stmt.allNodes ss)

/-- The marks of one statement. -/
def Stmt.mark (s : Stmt) : Marks := .ofNodes s.nodes

/-- The marks count the labels of the tree. -/
theorem Scope.labels_count (s : Scope) (n : Nat) :
    s.labels.count n = (Stmt.marks s.stmts).labels n := by
  obtain ⟨k, ls, ss, x⟩ := s
  simp [labels, Stmt.marks, Marks.ofNodes, Marks.ofRelabels, Scope.nodes]

/-- The marks count the jumps of the tree. -/
theorem Scope.jumps_count (s : Scope) (n : Nat) :
    s.jumps.count n = (Stmt.marks s.stmts).jumps n := by
  obtain ⟨k, ls, ss, x⟩ := s
  simp [jumps, Stmt.marks, Marks.ofNodes, Marks.ofRelabels, Scope.nodes]

/-- The marks count the repeated labels of the tree. -/
theorem Scope.relabels_count (s : Scope) (n : Nat) :
    s.relabels.count n = (Stmt.marks s.stmts).repeats n := by
  obtain ⟨k, ls, ss, x⟩ := s
  simp [relabels, Stmt.marks, Marks.ofNodes, Marks.ofRelabels, Scope.nodes]

mutual

/-- A value holds no statements. -/
theorem Expr.stmt_not_mem (s : Stmt) : (e : Expr) → Node.stmt s ∉ e.nodes
  | .const _ | .var _ | .static _ | .increment _ _ _ => by simp [Expr.nodes]
  | .field _ r => by simp [Expr.nodes, Expr.stmt_not_mem s r]
  | .element a i => by simp [Expr.nodes, Expr.stmt_not_mem s a, Expr.stmt_not_mem s i]
  | .length a => by simp [Expr.nodes, Expr.stmt_not_mem s a]
  | .binary _ l r => by simp [Expr.nodes, Expr.stmt_not_mem s l, Expr.stmt_not_mem s r]
  | .negate v => by simp [Expr.nodes, Expr.stmt_not_mem s v]
  | .cast _ v => by simp [Expr.nodes, Expr.stmt_not_mem s v]
  | .instanceOf _ v => by simp [Expr.nodes, Expr.stmt_not_mem s v]
  | .newArray _ n => by simp [Expr.nodes, Expr.stmt_not_mem s n]
  | .arrayOf _ n vs => by simp [Expr.nodes, Expr.stmt_not_mem s n, Expr.stmt_not_mem_all s vs]
  | .new _ _ args => by simp [Expr.nodes, Expr.stmt_not_mem_all s args]
  | .call _ r args => by simp [Expr.nodes, Expr.stmt_not_mem s r, Expr.stmt_not_mem_all s args]
  | .staticCall _ args => by simp [Expr.nodes, Expr.stmt_not_mem_all s args]
  | .ternary c a b => by
    simp [Expr.nodes, Cond.stmt_not_mem s c, Expr.stmt_not_mem s a, Expr.stmt_not_mem s b]
  | .compare _ l r => by simp [Expr.nodes, Expr.stmt_not_mem s l, Expr.stmt_not_mem s r]

/-- A list of values holds no statements. -/
theorem Expr.stmt_not_mem_all (s : Stmt) : (es : List Expr) → Node.stmt s ∉ Expr.allNodes es
  | [] => by simp [Expr.allNodes]
  | e :: es => by simp [Expr.allNodes, Expr.stmt_not_mem s e, Expr.stmt_not_mem_all s es]

/-- A test holds no statements. -/
theorem Cond.stmt_not_mem (s : Stmt) : (c : Cond) → Node.stmt s ∉ c.nodes
  | .test e _ => by simp [Cond.nodes, Expr.stmt_not_mem s e]
  | .compare l _ r => by simp [Cond.nodes, Expr.stmt_not_mem s l, Expr.stmt_not_mem s r]
  | .not d => by simp [Cond.nodes, Cond.stmt_not_mem s d]
  | .and cs => by simp [Cond.nodes, Cond.stmt_not_mem_all s cs]
  | .or cs => by simp [Cond.nodes, Cond.stmt_not_mem_all s cs]

/-- A list of tests holds no statements. -/
theorem Cond.stmt_not_mem_all (s : Stmt) : (cs : List Cond) → Node.stmt s ∉ Cond.allNodes cs
  | [] => by simp [Cond.allNodes]
  | c :: cs => by simp [Cond.allNodes, Cond.stmt_not_mem s c, Cond.stmt_not_mem_all s cs]

end

/-- Nodes that are no statements have no marks. -/
theorem Marks.ofNodes_eq_zero {ns : List Node} (h : ∀ s, Node.stmt s ∉ ns) :
    Marks.ofNodes ns = 0 := by
  induction ns with
  | nil => rfl
  | cons n ns ih =>
    have hns := ih fun s hs => h s (List.mem_cons_of_mem n hs)
    cases n with
    | expr e => rw [Marks.ofNodes_expr, hns]
    | cond c => rw [Marks.ofNodes_cond, hns]
    | stmt s => exact absurd (List.mem_cons_self ..) (h s)

/-- A value has no marks. -/
theorem Expr.ofNodes_nodes (e : Expr) : Marks.ofNodes e.nodes = 0 :=
  Marks.ofNodes_eq_zero fun s => e.stmt_not_mem s

/-- A list of values has no marks. -/
theorem Expr.ofNodes_allNodes (es : List Expr) : Marks.ofNodes (Expr.allNodes es) = 0 :=
  Marks.ofNodes_eq_zero fun s => Expr.stmt_not_mem_all s es

/-- A condition has no marks. -/
theorem Cond.ofNodes_nodes (c : Cond) : Marks.ofNodes c.nodes = 0 :=
  Marks.ofNodes_eq_zero fun s => c.stmt_not_mem s

/-- The nodes of a scope are those of its statements. -/
theorem Scope.nodes_eq (b : Scope) : b.nodes = Stmt.allNodes b.stmts := by
  obtain ⟨_, _, _, _⟩ := b
  rfl

/-! ### Marks of statements -/

namespace Stmt

/-- No statements have no marks. -/
@[simp] theorem marks_nil : marks [] = 0 := rfl

/-- The last statement may repeat the label in front of it. -/
theorem relabelsAfter_concat (prev : Option Stmt) (ss : List Stmt) (s : Stmt) :
    relabelsAfter prev (ss ++ [s])
      = relabelsAfter prev ss ++ (relabel? (ss.getLast?.or prev) s).toList := by
  induction ss generalizing prev with
  | nil => simp [relabelsAfter]
  | cons t ss ih =>
    rw [List.cons_append, relabelsAfter, ih, relabelsAfter, List.append_assoc, List.getLast?_cons]
    cases ss.getLast? <;> simp

/-- One more statement adds its marks, and the label in front of it if it repeats that. -/
theorem marks_concat (ss : List Stmt) (s : Stmt) :
    marks (ss ++ [s]) = marks ss + (.ofRelabels (relabel? ss.getLast? s).toList + s.mark) := by
  have hnodes : allNodes [s] = s.nodes := by simp [allNodes]
  unfold marks mark
  rw [relabelsAfter_concat, allNodes_append, hnodes, Marks.ofRelabels_append, Marks.ofNodes_append]
  simp only [Option.or_none]
  ext n <;> simp <;> omega

/-- Only a `do` loop repeats a label. -/
theorem relabel?_eq_none {prev : Option Stmt} {s : Stmt} (h : ∀ c b, s ≠ .doWhile c b) :
    relabel? prev s = none := by
  unfold relabel?
  split
  · exact absurd rfl (h _ _)
  · rfl

/-- What it means that a label is repeated. -/
theorem opening_of_relabel {prev : Option Stmt} {c : Cond} {b : Scope} {n : Nat}
    (h : relabel? prev (.doWhile c b) = some n) :
    prev = some (.label n) ∧ opening? b.stmts = some n := by
  unfold relabel? at h
  split at h
  · rename_i heq
    cases heq
    split at h
    · rename_i hopening
      cases h
      exact ⟨rfl, hopening⟩
    · cases h
  · cases h

/-- One more statement that is no `do` loop adds its own marks alone. -/
theorem marks_concat_of_ne {s : Stmt} (ss : List Stmt) (h : ∀ c b, s ≠ .doWhile c b) :
    marks (ss ++ [s]) = marks ss + s.mark := by
  rw [marks_concat, relabel?_eq_none h]
  simp

/-- Statements that stand for themselves have no marks. -/
theorem mark_of_isAtomic {s : Stmt} (h : s.isAtomic = true) : s.mark = 0 := by
  have hown : ∀ ns, Marks.ofNodes (.stmt s :: ns) = Marks.ofNodes ns := fun ns => by
    cases s <;> first | rfl | cases h
  rw [mark, nodes.eq_def, hown]
  cases s with
  | assign t e | compound t _ e => simp [Expr.ofNodes_nodes, Expr.ofNodes_allNodes]
  | ret e => cases e <;> simp [Expr.ofNodes_nodes]
  | eval e | throw e => simp [Expr.ofNodes_nodes]
  | increment _ _ | breakOut | continueLoop => rfl
  | _ => cases h

/-- A label is one label. -/
theorem mark_label (n : Nat) :
    (label n).mark = ⟨fun m => [n].count m, fun _ => 0, fun _ => 0⟩ := rfl

/-- A jump is one jump. -/
theorem mark_goto (n : Nat) : (goto n).mark = ⟨fun _ => 0, fun m => [n].count m, fun _ => 0⟩ := rfl

/-- A conditional jump is one jump. -/
theorem mark_gotoIf (c : Cond) (n : Nat) :
    (gotoIf c n).mark = ⟨fun _ => 0, fun m => [n].count m, fun _ => 0⟩ := by
  rw [mark, nodes, Marks.ofNodes_stmt, Cond.ofNodes_nodes, Marks.add_zero]
  rfl

/-- The marks of a statement that is no label and no jump: those repeated in its scopes, and those
    of the nodes in it. -/
theorem ofNodes_stmt_of_scopes {s : Stmt} (hl : Node.label? (.stmt s) = none)
    (hj : Node.jump? (.stmt s) = none) (ns : List Node) :
    Marks.ofNodes (.stmt s :: ns)
      = .ofRelabels (s.scopes.flatMap fun b => relabelsAfter none b.stmts) + .ofNodes ns := by
  ext n <;> simp [Marks.ofNodes, Marks.ofRelabels, hl, hj, Node.relabels]

/-- A conditional without `else` has the marks of its arm. -/
theorem mark_ifElse_none (c : Cond) (b : Scope) : (ifElse c b none).mark = marks b.stmts := by
  rw [mark, nodes, ofNodes_stmt_of_scopes rfl rfl, marks]
  simp [scopes, Cond.ofNodes_nodes, Scope.nodes_eq]

/-- A conditional has the marks of both arms. -/
theorem mark_ifElse_some (c : Cond) (b e : Scope) :
    (ifElse c b (some e)).mark = marks b.stmts + marks e.stmts := by
  rw [mark, nodes, ofNodes_stmt_of_scopes rfl rfl, marks, marks]
  simp only [scopes, Cond.ofNodes_nodes, Scope.nodes_eq, List.flatMap_cons, List.flatMap_nil,
    List.append_nil, Marks.ofRelabels_append, Marks.ofNodes_append]
  ext n <;> simp <;> omega

/-- A loop that tests first has the marks of its body. -/
theorem mark_whileLoop (c : Cond) (b : Scope) : (whileLoop c b).mark = marks b.stmts := by
  rw [mark, nodes, ofNodes_stmt_of_scopes rfl rfl, marks]
  simp [scopes, Cond.ofNodes_nodes, Scope.nodes_eq]

/-- A loop that tests last has the marks of its body. -/
theorem mark_doWhile (c : Cond) (b : Scope) : (doWhile c b).mark = marks b.stmts := by
  rw [mark, nodes, ofNodes_stmt_of_scopes rfl rfl, marks]
  simp [scopes, Cond.ofNodes_nodes, Scope.nodes_eq]

/-- A counting loop whose other statements are atomic has the marks of its body. -/
theorem mark_forLoop {init update : Stmt} (c : Cond) (b : Scope) (hi : init.isAtomic = true)
    (hu : update.isAtomic = true) :
    (forLoop (some init) c (some update) b).mark = marks b.stmts := by
  have hi' : Marks.ofNodes init.nodes = 0 := mark_of_isAtomic hi
  have hu' : Marks.ofNodes update.nodes = 0 := mark_of_isAtomic hu
  rw [mark, nodes, ofNodes_stmt_of_scopes rfl rfl, marks]
  simp [scopes, Cond.ofNodes_nodes, Scope.nodes_eq, hi', hu']

/-- The marks of the arms of a switch. -/
def armMarks : List SwitchArm → Marks
  | [] => 0
  | a :: arms => marks a.body.stmts + armMarks arms

/-- A switch has the marks of its arms. -/
theorem mark_switch (e : Expr) (arms : List SwitchArm) : (switch e arms).mark = armMarks arms := by
  rw [mark, nodes, ofNodes_stmt_of_scopes rfl rfl]
  simp only [scopes, Marks.ofNodes_append, Expr.ofNodes_nodes, Marks.zero_add]
  induction arms with
  | nil => rfl
  | cons a arms ih =>
    obtain ⟨ks, d, b, x⟩ := a
    rw [armMarks, ← ih, marks]
    simp only [SwitchArm.allNodes, List.map_cons, List.flatMap_cons, Marks.ofRelabels_append,
      Marks.ofNodes_append, Scope.nodes_eq]
    ext n <;> simp <;> omega

/-! ### Edits -/

/-- Edits change no marks. -/
theorem marks_of_edited {ss ts : List Stmt} (h : Edited ss ts) : marks ts = marks ss := by
  have hconcat : ∀ (us : List Stmt) {s : Stmt}, s.isAtomic = true → marks (us ++ [s]) = marks us :=
    fun us s hs => by
      rw [marks_concat_of_ne us (by rintro c b rfl; cases hs), mark_of_isAtomic hs,
        Marks.add_zero]
  induction h with
  | refl => rfl
  | add _ hs ih => rw [hconcat _ hs, ih]
  | drop _ hs ih => rw [← hconcat _ hs, ih]

/-- A label at the beginning stays there. -/
theorem opening_concat {ss : List Stmt} {n : Nat} (s : Stmt) (h : opening? ss = some n) :
    opening? (ss ++ [s]) = some n := by
  cases ss with
  | nil => cases h
  | cons t ss =>
    cases t with
    | label m => exact h
    | _ => cases h

/-- Edits keep the label at the beginning. -/
theorem opening_of_edited {ss ts : List Stmt} {n : Nat} (h : Edited ss ts)
    (hn : opening? ss = some n) : opening? ts = some n := by
  induction h with
  | refl => exact hn
  | add _ _ ih => exact opening_concat _ ih
  | @drop ts s _ hs ih =>
    cases ts with
    | nil =>
      -- the label itself would be dropped
      cases s with
      | label m => cases hs
      | _ => cases ih
    | cons t ts =>
      cases t with
      | label m => exact ih
      | _ => cases ih

/-- A label at the beginning is one of the labels. -/
theorem labels_pos_of_opening {ss : List Stmt} {n : Nat} (h : opening? ss = some n) :
    0 < (marks ss).labels n := by
  cases ss with
  | nil => cases h
  | cons s ss =>
    cases s with
    | label m =>
      cases h
      have hmark : (label n).mark.labels n = 1 := by simp [mark_label]
      have hnodes : allNodes (label n :: ss) = (label n).nodes ++ allNodes ss := rfl
      rw [marks, hnodes, Marks.ofNodes_append, Marks.labels_add, Marks.labels_add]
      rw [mark] at hmark
      omega
    | _ => cases h

/-- A label at the end is one of the labels. -/
theorem labels_pos_of_getLast {ss : List Stmt} {n : Nat} (h : ss.getLast? = some (.label n)) :
    0 < (marks ss).labels n := by
  obtain ⟨ts, rfl⟩ := List.getLast?_eq_some_iff.1 h
  have hmark : (label n).mark.labels n = 1 := by simp [mark_label]
  rw [marks_concat, Marks.labels_add, Marks.labels_add]
  omega

end Stmt

end Restructure
