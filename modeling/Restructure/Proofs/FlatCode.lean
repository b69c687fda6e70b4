import Restructure.Proofs.Conditions.Evaluation
import Restructure.Proofs.Labels

namespace Restructure

/-!
# Flat code — every block is written with its own label and with the jumps of its terminator

* `Valuation` — the run-time values of operands; `Valuation.Admits` is what checked code guarantees
  of them.
* `Valuation.select` — where a terminator goes on with given operands.
* `Valuation.departure` — where statements go on when they are executed one after the other.
* `FlatSegment` — the code of one block; `Context.WritesFlat` says what it consists of.
* `Valuation.departure_of_flatExit` — the jumps of a segment go where the terminator of its block
  says.
* `Context.flatten_segments` — flat code is one segment for each reachable block.
-/

/-! ### Values of operands -/

/-- The result of a three-way comparison of ordered values. -/
def ThreeWay.result {α : Type} [LinearOrder α] (a b : α) : Int :=
  if a < b then -1 else if a = b then 0 else 1

/-- The run-time values of operands, in an order that compares numbers as the program does. Any
    order will do for references, which are only tested for equality. -/
structure Valuation (α : Type) [LinearOrder α] where
  value : Expr → α
  ofInt : Int → α
  null : α
  ofInt_lt : ∀ m n : Int, m < n → ofInt m < ofInt n
  value_int : ∀ n, value (.int n) = ofInt n
  value_null : value (.const .null) = null

/-- Where control goes behind a block: to a block, or out of the method. -/
inductive Departure (α : Type) where
  | block (n : Nat)
  | returns (value : Option α)
  | throws (value : α)

namespace Valuation

variable {α : Type} [LinearOrder α] (V : Valuation α)

/-- What checked code guarantees of an operand: a truth value is 0 or 1, and a three-way comparison
    tells the order of its values, none of them being unordered. -/
structure Admits (e : Expr) : Prop where
  truth : e.type = Descriptor.boolean → V.value e = V.ofInt 0 ∨ V.value e = V.ofInt 1
  threeWay : ∀ k l r, e = .compare k l r →
    V.value e = V.ofInt (ThreeWay.result (V.value l) (V.value r))

/-! ### Terminators -/

/-- The outcome of a two-way branch on the operands at the top of the stack. -/
def test : Branch → Operands → Option Bool
  | .zero r, .value e :: _ => some (r.relates (V.value e) (V.ofInt 0))
  | .values r, .value right :: .value left :: _ => some (r.relates (V.value left) (V.value right))
  | .isNull, .value e :: _ => some (decide (V.value e = V.null))
  | .isNotNull, .value e :: _ => some (decide (V.value e ≠ V.null))
  | _, _ => none

/-- The target of a switch: that of the first case with the key, or else the default. -/
def caseOf (key : α) (cases : List (Int × Nat)) (default : Nat) : Nat :=
  ((cases.find? fun k => key = V.ofInt k.1).map (·.2)).getD default

/-- Where a terminator goes on, with the operands at the top of the stack. -/
def select : Terminator → Operands → Option (Departure α)
  | .goto t, _ => some (.block t)
  | .branch test taken fallthrough, st =>
    (V.test test st).map fun holds => .block (if holds then taken else fallthrough)
  | .switch cases default, .value key :: _ => some (.block (V.caseOf (V.value key) cases default))
  | .ret, _ => some (.returns none)
  | .retValue, .value e :: _ => some (.returns (some (V.value e)))
  | .throw, .value e :: _ => some (.throws (V.value e))
  | _, _ => none

/-! ### Statements -/

/-- What the atomic parts of conditions do: nothing but tell how values compare. -/
def interpretation : Interpretation Unit where
  truth e _ := (decide (V.value e = V.ofInt 1), ())
  relation l r e _ := (r.relates (V.value l) (V.value e), ())
  opposite l r e _ := by rw [Relation.relates_negate]

/-- The outcome of a condition. -/
def holds (c : Cond) : Bool := (c.eval V.interpretation ()).holds

/-- Where control goes when flat code is executed one statement after the other, if it does not run
    on behind the last one. The values are those that the closing jumps find. -/
def departure : List Stmt → Option (Departure α)
  | [] => none
  | .goto n :: _ => some (.block n)
  | .gotoIf c n :: ss => if V.holds c then some (.block n) else departure ss
  | .ret e :: _ => some (.returns (e.map V.value))
  | .throw e :: _ => some (.throws (V.value e))
  | .label _ :: ss | .assign _ _ :: ss | .compound _ _ _ :: ss | .increment _ _ :: ss
  | .eval _ :: ss => departure ss
  | _ :: _ => none

/-! ### Conditions -/

variable {V} {st st' : Operands} {cond : Cond}

/-- A test holds if its value is 1, or is not, as it is asked. -/
@[simp] theorem holds_test (e : Expr) (inverse : Bool) :
    V.holds (.test e inverse) = (decide (V.value e = V.ofInt 1) != inverse) := by
  simp only [holds, Cond.eval, interpretation]

/-- A comparison holds if the values are so related. -/
@[simp] theorem holds_compare (l e : Expr) (r : Relation) :
    V.holds (.compare l r e) = r.relates (V.value l) (V.value e) := by
  simp only [holds, Cond.eval, interpretation]

/-- A three-way comparison is to zero as its values are to each other. -/
theorem holds_result (r : Relation) (a b : α) :
    r.relates (V.ofInt (ThreeWay.result a b)) (V.ofInt 0) = r.relates a b := by
  have hneg := V.ofInt_lt (-1) 0 (by decide)
  have hpos := V.ofInt_lt 0 1 (by decide)
  rcases lt_trichotomy a b with h | rfl | h
  · cases r <;>
      simp [Relation.relates, ThreeWay.result, hneg, hneg.ne, hneg.le, hneg.not_gt, hneg.not_ge, h,
        h.ne, h.le, h.not_gt, h.not_ge]
  · cases r <;> simp [Relation.relates, ThreeWay.result]
  · cases r <;>
      simp [Relation.relates, ThreeWay.result, hpos, hpos.ne', hpos.le, hpos.not_gt, hpos.not_ge, h,
        h.ne', h.le, h.not_gt, h.not_ge]

/-- Where a test against zero is written another way, it has the same outcome. -/
theorem holds_zeroTest {e : Expr} (he : V.Admits e) (r : Relation) :
    V.holds (zeroTest e r) = r.relates (V.value e) (V.ofInt 0) := by
  have h01 : V.ofInt 0 ≠ V.ofInt 1 := (V.ofInt_lt 0 1 (by decide)).ne
  unfold zeroTest
  split
  · rename_i k left right
    rw [holds_compare, he.threeWay k left right rfl, holds_result]
  · split
    · rename_i h
      obtain ⟨htype, rfl⟩ := h
      rcases he.truth htype with h | h <;> simp [Relation.relates, h, h01, h01.symm]
    · split
      · rename_i h
        obtain ⟨htype, rfl⟩ := h
        rcases he.truth htype with h | h <;> simp [Relation.relates, h, h01, h01.symm]
      · rw [holds_compare, V.value_int]

/-- The condition of a branch holds when the branch is taken. -/
theorem test_of_branchCondition {test : Branch} (hst : ∀ e, .value e ∈ st → V.Admits e)
    (h : branchCondition test st = .ok (cond, st')) : V.test test st = some (V.holds cond) := by
  cases test with
  | zero r =>
    obtain ⟨⟨e, st₁⟩, he, h⟩ := Except.bind_eq_ok.1 h
    cases h
    obtain rfl := Simulation.pop_ok he
    rw [holds_zeroTest (hst e (List.mem_cons_self ..))]
    rfl
  | values r =>
    obtain ⟨⟨right, st₁⟩, hright, h⟩ := Except.bind_eq_ok.1 h
    obtain ⟨⟨left, st₂⟩, hleft, h⟩ := Except.bind_eq_ok.1 h
    cases h
    obtain rfl := Simulation.pop_ok hright
    obtain rfl := Simulation.pop_ok hleft
    rw [holds_compare]
    rfl
  | isNull | isNotNull =>
    obtain ⟨⟨e, st₁⟩, he, h⟩ := Except.bind_eq_ok.1 h
    cases h
    obtain rfl := Simulation.pop_ok he
    rw [holds_compare, V.value_null]
    rfl

/-! ### Closing jumps -/

/-- The jumps of a switch try its cases in their order. -/
theorem departure_of_cases (key : Expr) (cases : List (Int × Nat)) (default : Nat) :
    V.departure (cases.map (fun k => Stmt.gotoIf (.compare key .eq (.int k.1)) k.2)
        ++ [.goto default])
      = some (.block (V.caseOf (V.value key) cases default)) := by
  induction cases with
  | nil => rfl
  | cons k cases ih =>
    rw [List.map_cons, List.cons_append, departure, holds_compare, V.value_int, ih]
    unfold caseOf
    by_cases hk : V.value key = V.ofInt k.1 <;> simp [Relation.relates, hk]

/-- The jumps at the end of a block go where its terminator goes. -/
theorem departure_of_flatExit {n : Nat} {exit : Terminator} {jumps : List Stmt}
    (hst : ∀ e, .value e ∈ st → V.Admits e) (h : Context.flatExit n exit st = .ok (jumps, st')) :
    ∃ d, V.departure jumps = some d ∧ V.select exit st = some d := by
  cases exit with
  | goto t =>
    cases h
    exact ⟨.block t, rfl, rfl⟩
  | ret =>
    cases h
    exact ⟨.returns none, rfl, rfl⟩
  | retValue =>
    obtain ⟨⟨e, st₁⟩, he, h⟩ := Except.bind_eq_ok.1 h
    cases h
    obtain rfl := Simulation.pop_ok he
    exact ⟨.returns (some (V.value e)), rfl, rfl⟩
  | throw =>
    obtain ⟨⟨e, st₁⟩, he, h⟩ := Except.bind_eq_ok.1 h
    cases h
    obtain rfl := Simulation.pop_ok he
    exact ⟨.throws (V.value e), rfl, rfl⟩
  | branch test taken fallthrough =>
    obtain ⟨⟨cond, st₁⟩, hcond, h⟩ := Except.bind_eq_ok.1 h
    cases h
    refine ⟨.block (if V.holds cond then taken else fallthrough), ?_, ?_⟩
    -- the jump behind the conditional one is made exactly if the condition does not hold
    · simp only [departure]
      split <;> rfl
    · rw [select, test_of_branchCondition hst hcond]
      rfl
  | switch cases default =>
    obtain ⟨⟨key, st₁⟩, hkey, h⟩ := Except.bind_eq_ok.1 h
    simp only at h
    split at h
    · cases h
    · cases h
      obtain rfl := Simulation.pop_ok hkey
      exact ⟨.block (V.caseOf (V.value key) cases default), departure_of_cases key cases default,
        rfl⟩

/-- Statements that stand for themselves and let control go on are passed over. -/
theorem departure_append {ss ts : List Stmt}
    (h : ∀ s ∈ ss, s.isAtomic = true ∧ s.isTerminal = false) :
    V.departure (ss ++ ts) = V.departure ts := by
  induction ss with
  | nil => rfl
  | cons s ss ih =>
    have ih := ih fun t ht => h t (List.mem_cons_of_mem _ ht)
    obtain ⟨hatomic, hgoes⟩ := h s (List.mem_cons_self ..)
    cases s with
    | assign _ _ | compound _ _ _ | increment _ _ | eval _ => exact ih
    | ret _ | throw _ | breakOut | continueLoop => cases hgoes
    | _ => cases hatomic

end Valuation

/-! ### Segments -/

/-- The code of one block: the statements of its instructions, the operands that these leave to the
    terminator, and the closing jumps. -/
structure FlatSegment where
  block : Nat
  body : List Stmt
  operands : Operands
  jumps : List Stmt

/-- The statements of a segment begin with the label of its block. -/
def FlatSegment.stmts (g : FlatSegment) : List Stmt := .label g.block :: (g.body ++ g.jumps)

/-- The segment is what becomes of a block: its instructions are simulated behind the label, and
    the jumps are those of its terminator, which finds no other operands than its own. -/
structure Context.WritesFlat (c : Context) (g : FlatSegment) (b : Block) : Prop where
  block : c.graph.block? g.block = some b
  body : ∃ before m, before.stmts.getLast? = some (.label g.block) ∧
    Simulation.run c.config (.start before) b.insns = .ok m ∧
    m.scope.stmts = before.stmts ++ g.body ∧ m.stack = g.operands
  straight : ∀ s ∈ g.body, s.isAtomic = true ∧ s.isTerminal = false
  jumps : Context.flatExit g.block b.exit g.operands = .ok (g.jumps, [])

/-- Control never runs on behind the statement, and it is no jump out of a loop or a switch. -/
def Stmt.endsFlat : Stmt → Bool
  | .goto _ | .ret _ | .throw _ => true
  | _ => false

/-- Where statements behind a label are rewritten, the label stays and so does what is in front. -/
theorem Rewritten.behind_label {B : Node → Prop} {ss ts : List Stmt} {n : Nat}
    (h : Rewritten B (ss ++ [.label n]) ts) :
    ∃ us, ts = ss ++ [.label n] ++ us ∧ ∀ s ∈ us, s.isAtomic = true ∧ s.Avoids B := by
  induction h with
  | refl => exact ⟨[], by simp, by simp⟩
  | @add ts s _ hs hB ih =>
    obtain ⟨us, rfl, hus⟩ := ih
    refine ⟨us ++ [s], by simp, fun t ht => ?_⟩
    rcases List.mem_append.1 ht with ht | ht
    · exact hus t ht
    · rw [List.mem_singleton.1 ht]
      exact ⟨hs, hB⟩
  | @drop ts v k _ ih =>
    obtain ⟨us, heq, hus⟩ := ih
    rcases List.eq_nil_or_concat us with rfl | ⟨us, s, rfl⟩
    · -- the label is no increment
      rw [List.append_nil] at heq
      have := List.append_inj_right' heq rfl
      cases this
    · rw [List.concat_eq_append, ← List.append_assoc] at heq
      obtain ⟨rfl, _⟩ := List.append_inj' heq rfl
      exact ⟨us, rfl, fun t ht => hus t (by simp [ht])⟩

namespace Context

variable {c : Context} {g : FlatSegment} {b : Block} {scope scope' : Scope}

/-- The jumps at the end of a block end with one that is always made. -/
theorem endsFlat_of_flatExit {n : Nat} {exit : Terminator} {st st' : Operands} {jumps : List Stmt}
    (h : flatExit n exit st = .ok (jumps, st')) :
    ∃ s, jumps.getLast? = some s ∧ s.endsFlat = true := by
  cases exit with
  | goto t =>
    cases h
    exact ⟨.goto t, rfl, rfl⟩
  | ret =>
    cases h
    exact ⟨.ret none, rfl, rfl⟩
  | retValue | throw | branch _ _ _ =>
    obtain ⟨⟨e, st₁⟩, _, h⟩ := Except.bind_eq_ok.1 h
    cases h
    exact ⟨_, rfl, rfl⟩
  | switch cases default =>
    obtain ⟨⟨key, st₁⟩, _, h⟩ := Except.bind_eq_ok.1 h
    simp only at h
    split at h
    · cases h
    · cases h
      exact ⟨.goto default, List.getLast?_concat, rfl⟩

/-- Blocks are written as segments, each behind the one before. -/
theorem Flattens.segments {ns targets : List Nat} (h : c.Flattens ns scope scope' targets) :
    ∃ gs : List FlatSegment, gs.map (·.block) = ns ∧
      scope'.stmts = scope.stmts ++ gs.flatMap FlatSegment.stmts ∧
      ∀ g ∈ gs, ∃ b, c.WritesFlat g b := by
  induction h with
  | nil => exact ⟨[], rfl, by simp, by simp⟩
  | @cons n ns _ b m jumps s s₁ s₂ _ hb hlabel hrun hexit hjumps _ ih =>
    have hstart := Scope.stmts_of_append hlabel
    -- the instructions only add statements behind the label, and control leaves none of them
    have hrun' : Rewritten _ s₁.stmts m.scope.stmts := Simulation.run_straight hrun
    rw [hstart] at hrun'
    obtain ⟨body, hbody, hall⟩ := hrun'.behind_label
    have hstraight : ∀ s ∈ body, s.isAtomic = true ∧ s.isTerminal = false := fun s hs =>
      ⟨(hall s hs).1, Stmt.isTerminal_of_avoids (hall s hs).2⟩
    have hlast : s₁.stmts.getLast? = some (.label n) := by rw [hstart, List.getLast?_concat]
    have hbehind : m.scope.stmts = s₁.stmts ++ body := by rw [hbody, hstart]
    have hg : c.WritesFlat ⟨n, body, m.stack, jumps⟩ b :=
      ⟨hb, ⟨s₁, m, hlast, hrun, hbehind, rfl⟩, hstraight, hexit⟩
    obtain ⟨gs, hblocks, hgs, hall⟩ := ih
    refine ⟨⟨n, body, m.stack, jumps⟩ :: gs, congrArg (n :: ·) hblocks, ?_,
      List.forall_mem_cons.2 ⟨⟨b, hg⟩, hall⟩⟩
    rw [hgs, stmts_of_appendAll hjumps, hbody]
    simp [FlatSegment.stmts]

/-- Flat code is one segment for each reachable block, in ascending order. It gets one label for
    each of these blocks, and jumps only to them. No segment runs on into the next one: each goes
    where the terminator of its block goes, whatever values its operands have. -/
theorem flatten_segments (h : c.flatten scope = .ok scope') :
    ∃ gs : List FlatSegment,
      scope'.stmts = scope.stmts ++ gs.flatMap FlatSegment.stmts ∧
      (gs.map (·.block)).Pairwise (· < ·) ∧
      (∀ n, n ∈ gs.map (·.block) ↔ c.graph.graph.links.Reachable FlowGraph.entry n) ∧
      scope'.labels.Perm (scope.labels ++ gs.map (·.block)) ∧
      (∀ n, scope.jumps.count n < scope'.jumps.count n → n ∈ gs.map (·.block)) ∧
      ∀ g ∈ gs, ∃ b, c.WritesFlat g b ∧
        (∃ s, g.stmts.getLast? = some s ∧ s.endsFlat = true) ∧
        ∀ {α : Type} [LinearOrder α] (V : Valuation α), (∀ e, .value e ∈ g.operands → V.Admits e) →
          ∃ d, V.departure g.stmts = some d ∧ V.select b.exit g.operands = some d := by
  obtain ⟨targets, hblocks⟩ := flattens_of_flatten h
  obtain ⟨gs, hgs, hstmts, hall⟩ := hblocks.segments
  obtain ⟨⟨k, hk, hflat⟩, htargets⟩ := hblocks.marks
  refine ⟨gs, hstmts, ?_, fun n => ?_, ?_, fun n hn => ?_, fun g hg => ?_⟩
  · rw [hgs]
    exact List.pairwise_lt_range.filter _
  · rw [hgs, mem_reachableBlocks, c.graph.isReachable_iff]
  · rw [List.perm_iff_count]
    intro n
    have hn : scope'.labels.count n = scope.labels.count n + k.labels n := by
      rw [Scope.labels_count, Scope.labels_count, hk, Marks.labels_add]
    rw [List.count_append, hgs, ← hflat.labels]
    exact hn
  · have hj : scope'.jumps.count n = scope.jumps.count n + k.jumps n := by
      rw [Scope.jumps_count, Scope.jumps_count, hk, Marks.jumps_add]
    obtain ⟨m, hm, hn⟩ := htargets n (hflat.jumps n (by omega))
    rw [hgs, mem_reachableBlocks]
    exact c.graph.isReachable_of_successor (mem_reachableBlocks.1 hm) hn
  · obtain ⟨b, hb⟩ := hall g hg
    refine ⟨b, hb, ?_, fun V hV => ?_⟩
    · obtain ⟨s, hs, hends⟩ := endsFlat_of_flatExit hb.jumps
      refine ⟨s, ?_, hends⟩
      rw [FlatSegment.stmts, ← List.cons_append, List.getLast?_append, hs]
      rfl
    · rw [FlatSegment.stmts, Valuation.departure, Valuation.departure_append hb.straight]
      exact Valuation.departure_of_flatExit hV hb.jumps

/-! ### Flat code of a comparison and a switch -/

/-- Three blocks with a comparison and a switch that has a key twice, and one that nothing leads
    to. -/
def compared : List Block :=
  [⟨[.load 0 "J", .load 2 "J", .compare .long], .branch (.zero .lt) 1 2⟩,
    ⟨[.load 4 "I"], .switch [(5, 0), (5, 2)] 2⟩, ⟨[.load 4 "I"], .retValue⟩, ⟨[], .goto 0⟩]

/-- The graph of these blocks. -/
def comparedContext : Context where
  config := {}
  graph := .ofDigraph ⟨compared, flowEdges compared, by decide⟩ (by decide) rfl

/-- The number that a value stands for if all locals, fields and results are 0. -/
def numberOf : Expr → Int
  | .const (.int n) => n
  | .compare _ l r => ThreeWay.result (numberOf l) (numberOf r)
  | _ => 0

/-- Numbers as values. -/
def numbers : Valuation Int where
  value := numberOf
  ofInt n := n
  null := 0
  ofInt_lt _ _ h := h
  value_int _ := rfl
  value_null := rfl

/-- The valuation admits every value. -/
theorem numbers_admits (e : Expr) : numbers.Admits e where
  truth h := by
    have hne : Descriptor.int ≠ Descriptor.boolean := by decide
    refine .inl ?_
    cases e with
    | const c => cases c <;> first | rfl | exact absurd h hne
    | compare _ _ _ => exact absurd h hne
    | _ => rfl
  threeWay k l r h := by
    subst h
    rfl

/-- A comparison and the blocks behind it as segments. -/
theorem compared_segments :
    ∃ s, comparedContext.flatten (.new .method) = .ok s ∧ s.labels = [0, 1, 2] ∧
      s.jumps = [1, 2, 0, 2, 2] ∧
      ∃ gs : List FlatSegment, s.stmts = gs.flatMap FlatSegment.stmts ∧
        s.labels.Perm (gs.map (·.block)) ∧
        ∀ g ∈ gs, ∃ d, numbers.departure g.stmts = some d := by
  have heval : (comparedContext.flatten (.new .method)).toOption.map (fun s => (s.labels, s.jumps))
      = some ([0, 1, 2], [1, 2, 0, 2, 2]) := by decide +kernel
  obtain ⟨s, hs, h⟩ := Method.exists_of_map_toOption heval
  obtain ⟨hl, hj⟩ := Prod.mk.inj h
  obtain ⟨gs, hstmts, _, _, hlabels, _, hgs⟩ := flatten_segments hs
  refine ⟨s, hs, hl, hj, gs, hstmts, hlabels, fun g hg => ?_⟩
  obtain ⟨_, _, _, hd⟩ := hgs g hg
  obtain ⟨d, hd, _⟩ := hd numbers fun e _ => numbers_admits e
  exact ⟨d, hd⟩

end Context

end Restructure
