import Restructure.Proofs.Conditions.Avoidance
import Restructure.Proofs.Origins
import Restructure.Proofs.Region.Marks
import Restructure.Proofs.Region.Whole

namespace Restructure

/-!
# Nodes that are never made — what the code of a method does not hold

Instructions make values and simple statements of what is on the stack, and the walk puts these
together: to conditions, to conditional values and to control statements. Some of this depends on
the settings. A kind of node that is never made on these ways is not in the code of a method, at any
depth.

* `Scope.Avoids`, `Simulation.Avoids` — code without nodes of a kind.
* `Unmade` — a kind of node that neither instructions nor the walk make.
* `Unmade.collapsed`, `Unmade.promoted` — what follows for conditional values and counting loops.
* `Unmade.derives` — and so for all that the walk writes.
* `Unmade.recover` — and for the code of every method.
-/

variable {B : Node → Prop}

/-! ### Code without nodes of a kind -/

/-- No statement of the scope has a node of the kind `B`. -/
def Scope.Avoids (B : Node → Prop) (s : Scope) : Prop := ∀ t ∈ s.stmts, t.Avoids B

/-- Neither a value on the stack nor a statement has a node of the kind `B`. -/
structure Simulation.Avoids (B : Node → Prop) (m : Simulation) : Prop where
  stack : m.stack.Avoids B
  scope : m.scope.Avoids B

/-- The nodes of statements are those of each of them. -/
theorem Stmt.allAvoid_iff {ss : List Stmt} :
    (∀ n ∈ Stmt.allNodes ss, ¬B n) ↔ ∀ s ∈ ss, s.Avoids B := by
  induction ss with
  | nil => simp [Stmt.allNodes]
  | cons s ss ih =>
    rw [Stmt.allNodes, List.forall_mem_append, ih, List.forall_mem_cons]
    rfl

namespace Scope.Avoids

variable {s s' : Scope} {t : Stmt}

/-- The nodes of a scope are those of its statements. -/
theorem iff_nodes : s.Avoids B ↔ ∀ n ∈ s.nodes, ¬B n := by
  rw [Scope.nodes_eq, Stmt.allAvoid_iff]
  rfl

/-- A scope in which nothing has been written. -/
theorem child (s : Scope) (k : ScopeKind) : (s.child k).Avoids B :=
  fun _ ht => absurd ht List.not_mem_nil

/-- One more statement. -/
theorem append (h : s.Avoids B) (ht : t.Avoids B) (happend : s.append t = .ok s') :
    s'.Avoids B := by
  intro x hx
  rw [Scope.stmts_of_append happend] at hx
  rcases List.mem_append.1 hx with hx | hx
  · exact h x hx
  · rw [List.mem_singleton.1 hx]
    exact ht

/-- Statements that are added one after the other. -/
theorem appendAll {ss : List Stmt} (h : s.Avoids B) (hss : ∀ t ∈ ss, t.Avoids B)
    (happend : Context.appendAll s ss = .ok s') : s'.Avoids B := by
  unfold Scope.Avoids
  rw [Context.stmts_of_appendAll happend]
  exact List.forall_mem_append.2 ⟨h, hss⟩

/-- Locking a scope leaves its statements. -/
theorem lock (h : s.Avoids B) (hlock : s.lock = .ok s') : s'.Avoids B := by
  unfold Scope.Avoids
  rw [Scope.stmts_of_lock hlock]
  exact h

/-- A jump at the end has been taken away. -/
theorem trimmed (h : s.Avoids B) (htrim : Trimmed t s.stmts s'.stmts) : s'.Avoids B :=
  fun x hx => h x (htrim.subset hx)

end Scope.Avoids

namespace Simulation.Avoids

variable {m m' : Simulation} {st : Operands}

/-- A piece of code in a scope of its own, over an empty stack. -/
theorem start {s : Scope} (h : s.Avoids B) : (Simulation.start s).Avoids B :=
  ⟨Operands.avoids_nil, h⟩

/-- The values on the stack may be others. -/
theorem withStack (h : m.Avoids B) (hst : st.Avoids B) :
    Simulation.Avoids B { m with stack := st } := ⟨hst, h.scope⟩

/-- One more statement. -/
theorem of_append {s s' : Scope} {t : Stmt} (happend : s.append t = .ok s')
    (h : Simulation.Avoids B ⟨s, st⟩) (ht : t.Avoids B) : Simulation.Avoids B ⟨s', st⟩ :=
  ⟨h.stack, h.scope.append ht happend⟩

end Simulation.Avoids

/-! ### What is made -/

/-- A statement that the walk writes whatever the settings are. -/
def Stmt.isControl : Stmt → Bool
  | assign _ _ | compound _ _ _ | increment _ _ | eval _ | forLoop _ _ _ _ => false
  | _ => true

/-- A kind of node that code is never given: instructions keep it away, and so does everything that
    the walk puts together of parts without such nodes. -/
structure Unmade (config : Config) (B : Node → Prop) : Prop where
  run : ∀ {m m' : Simulation} {is : List Insn}, m.Avoids B →
    Simulation.run config m is = .ok m' → m'.Avoids B
  const : ∀ k, ¬B (.expr (.const k))
  atom : ∀ c : Cond, c.isAtomic = true → ¬B (.cond c)
  negate : ∀ c : Cond, c.Avoids B → c.negate.Avoids B
  all : 2 ≤ config.maxChain → ∀ c d : Cond, c.Avoids B → d.Avoids B → (Cond.all [c, d]).Avoids B
  any : 2 ≤ config.maxChain → ∀ c d : Cond, c.Avoids B → d.Avoids B → (Cond.any [c, d]).Avoids B
  ternary : config.ternaries = true → ∀ c a b, ¬B (.expr (.ternary c a b))
  /-- Where one value is assigned, another one can be. -/
  assign : ∀ target value value', ¬B (.stmt (.assign target value)) →
    ¬B (.stmt (.assign target value'))
  control : ∀ s : Stmt, s.isControl = true → ¬B (.stmt s)
  forLoop : config.forLoops = true → ∀ init c update b, ¬B (.stmt (.forLoop init c update b))

namespace Unmade

variable {config : Config} {c : Cond} {e : Expr} {b : Scope}

/-- Constants are never of the kind. -/
theorem const_avoids (hB : Unmade config B) (k : Constant) : (Expr.const k).Avoids B :=
  Expr.avoids_of_nodes rfl (hB.const k) fun _ h => by cases h

/-- Nor is the test of an endless loop. -/
theorem always (hB : Unmade config B) : Cond.always.Avoids B :=
  Cond.avoids_of_nodes rfl (hB.atom _ rfl) (hB.const_avoids _)

/-- A control statement without parts. -/
theorem leaf (hB : Unmade config B) {s : Stmt} (hs : s.isControl = true)
    (hnodes : s.nodes = [.stmt s]) : s.Avoids B :=
  Stmt.avoids_of_nodes hnodes (hB.control s hs) fun _ h => by cases h

/-- A control statement that ends with a value, or that only tests. -/
theorem single (hB : Unmade config B) {s : Stmt} {ns : List Node} (hs : s.isControl = true)
    (hnodes : s.nodes = .stmt s :: ns) (hns : ∀ n ∈ ns, ¬B n) : s.Avoids B :=
  Stmt.avoids_of_nodes hnodes (hB.control s hs) hns

/-- A conditional of such parts. -/
theorem ifElse (hB : Unmade config B) (hc : c.Avoids B) (hb : b.Avoids B) {orElse : Option Scope}
    (he : ∀ e, orElse = some e → e.Avoids B) : (Stmt.ifElse c b orElse).Avoids B := by
  have hfirst : ∀ n ∈ c.nodes ++ b.nodes, ¬B n := fun n hn =>
    (List.mem_append.1 hn).elim (hc n) (Scope.Avoids.iff_nodes.1 hb n)
  cases orElse with
  | none => exact hB.single rfl rfl hfirst
  | some e =>
    refine hB.single rfl rfl fun n hn => ?_
    exact (List.mem_append.1 hn).elim (hfirst n) (Scope.Avoids.iff_nodes.1 (he e rfl) n)

/-- A loop that tests first. -/
theorem whileStmt (hB : Unmade config B) (hc : c.Avoids B) (hb : b.Avoids B) :
    (Stmt.whileLoop c b).Avoids B :=
  hB.single rfl rfl fun n hn =>
    (List.mem_append.1 hn).elim (hc n) (Scope.Avoids.iff_nodes.1 hb n)

/-- A loop that tests last. -/
theorem doStmt (hB : Unmade config B) (hc : c.Avoids B) (hb : b.Avoids B) :
    (Stmt.doWhile c b).Avoids B :=
  hB.single rfl rfl fun n hn =>
    (List.mem_append.1 hn).elim (Scope.Avoids.iff_nodes.1 hb n) (hc n)

/-- A switch of such arms. -/
theorem switchStmt (hB : Unmade config B) {arms : List SwitchArm} (he : e.Avoids B)
    (harms : ∀ a ∈ arms, a.body.Avoids B) : (Stmt.switch e arms).Avoids B := by
  have hnodes : ∀ n ∈ SwitchArm.allNodes arms, ¬B n := by
    induction arms with
    | nil => exact fun n hn => absurd hn List.not_mem_nil
    | cons a arms ih =>
      obtain ⟨_, _, body, _⟩ := a
      intro n hn
      rcases List.mem_append.1 hn with hn | hn
      · exact Scope.Avoids.iff_nodes.1 (harms _ (List.mem_cons_self ..)) n hn
      · exact ih (fun a ha => harms a (List.mem_cons_of_mem _ ha)) n hn
  exact hB.single rfl rfl fun n hn =>
    (List.mem_append.1 hn).elim (he n) (hnodes n)

/-- A counting loop is written only if that idiom is on. -/
theorem promoted (hB : Unmade config B) {enabled : Bool} {scope scope' body : Scope} {s : Stmt}
    (henabled : enabled = true → config.forLoops = true) (hc : c.Avoids B)
    (hscope : scope.Avoids B) (hbody : body.Avoids B)
    (h : promoteFor enabled scope c body = .ok (s, scope')) :
    scope'.Avoids B ∧ s.Avoids B := by
  have hinv := promoteFor_inv h
  cases hinv with
  | @counting slot init update b _ _ _ _ hstmts hbodyStmts _ =>
    -- if the idiom were off the loop would not be promoted
    have hfor : config.forLoops = true := by
      refine henabled ?_
      by_contra hoff
      rw [Bool.eq_false_iff.2 hoff] at h
      obtain ⟨b, _, h⟩ := Except.bind_eq_ok.1 h
      cases h
    unfold Scope.Avoids at hscope hbody
    rw [hstmts] at hscope
    rw [hbodyStmts] at hbody
    obtain ⟨hscope', hinit⟩ := List.forall_mem_append.1 hscope
    obtain ⟨hbody', hupdate⟩ := List.forall_mem_append.1 hbody
    refine ⟨hscope', Stmt.avoids_of_nodes rfl (hB.forLoop hfor _ _ _ _) fun n hn => ?_⟩
    rcases List.mem_append.1 hn with hn | hn
    · rcases List.mem_append.1 hn with hn | hn
      · rcases List.mem_append.1 hn with hn | hn
        · exact hinit init (List.mem_singleton_self _) n hn
        · exact hc n hn
      · exact hupdate update (List.mem_singleton_self _) n hn
    · exact Scope.Avoids.iff_nodes.1 hbody' n hn
  | @plain b hbodyStmts heq =>
    rw [heq]
    refine ⟨hscope, hB.whileStmt hc ?_⟩
    unfold Scope.Avoids
    rw [hbodyStmts]
    exact hbody

end Unmade

variable {n : Nat} {m : Simulation} {scope : Scope}

/-! ### Tests and conditional values -/

namespace Unmade

variable {c : Context} {test : BranchTest} {chain : List Nat}

/-- A block over a scope of its own. -/
theorem scratch (hB : Unmade c.config B) (h : c.scratch? n scope = some m) : m.Avoids B := by
  unfold Context.scratch? at h
  split at h
  · exact hB.run (.start (.child scope .block)) (Except.eq_ok_of_toOption h)
  · cases h

/-- The condition of a branch is made of values from the stack. -/
theorem branchCondition (hB : Unmade c.config B) {test : Branch} {cond : Cond}
    {st st' : Operands} (hst : st.Avoids B)
    (h : Restructure.branchCondition test st = .ok (cond, st')) :
    cond.Avoids B ∧ st'.Avoids B := branchCondition_avoids hB.atom hB.const_avoids hst h

/-- So is the test of a block that only tests. -/
theorem pureTest (hB : Unmade c.config B) (h : c.pureTest n scope = some test) :
    test.cond.Avoids B := by
  obtain ⟨b, _, h⟩ := Option.bind_eq_some_iff.1 h
  split at h
  · obtain ⟨m, hm, h⟩ := Option.bind_eq_some_iff.1 h
    split at h
    · obtain ⟨⟨cond, st⟩, hcond, h⟩ := Option.bind_eq_some_iff.1 h
      cases h
      exact (hB.branchCondition (hB.scratch hm).stack (Except.eq_ok_of_toOption hcond)).1
    · cases h
  · cases h

/-- Tests are joined only where chains may have more than one block. -/
theorem fold (hB : Unmade c.config B) {eligible : Nat → Bool} {head : BranchTest}
    (hfold : head.fold c scope eligible n = (test, chain)) (hhead : head.cond.Avoids B) :
    test.cond.Avoids B := by
  -- with room for one block only, no test is joined
  by_cases hchain : 2 ≤ c.config.maxChain
  · exact BranchTest.fold_cond hfold hhead (fun _ _ ht => hB.pureTest ht) hB.negate
      (hB.any hchain) (hB.all hchain)
  · have hroom : c.config.maxChain - 1 = 0 := by omega
    rw [BranchTest.fold, hroom, BranchTest.foldWithin] at hfold
    cases hfold
    exact hhead

/-- A conditional value is written only if that idiom is on. -/
theorem choose (hB : Unmade c.config B) (hon : c.config.ternaries = true)
    (ht : test.cond.Avoids B) {a b : Expr} (ha : a.Avoids B) (hb : b.Avoids B) :
    (test.choose a b).Avoids B :=
  BranchTest.choose_avoids (hB.ternary hon _ _ _) (hB.negate _ ht) ha hb

/-- The value of an arm is a value from the stack, or a conditional value. -/
theorem built (hB : Unmade c.config B) (hon : c.config.ternaries = true) {pos : Position}
    {arm : ValueArm} (h : arm.Built c pos scope n) : arm.value.Avoids B := by
  induction h with
  | leaf _ _ _ hm _ hstack =>
    have hst := (hB.scratch hm).stack
    rw [hstack] at hst
    exact hst _ (List.mem_singleton_self _)
  | fork _ hhead hfold _ _ _ iht ihf =>
    exact hB.choose hon (hB.fold hfold (hB.pureTest hhead)) ihf iht

/-- What a collapsed branch leaves behind has no such node. -/
theorem collapsed (hB : Unmade c.config B) (hon : c.config.ternaries = true) {pos : Position}
    {form : Collapsed} (h : c.CollapsesTo pos scope test form) (ht : test.cond.Avoids B) :
    match form with
    | .value _ e _ => e.Avoids B
    | .stmt _ s _ => s.Avoids B := by
  -- what an arm assigns or returns was made by the instructions of its block
  have hassigned : ∀ {n merge : Nat} {target : Place} {value : Expr},
      c.Shaped scope n (.assign target value merge) → (Stmt.assign target value).Avoids B := by
    intro n merge target value hshape
    cases hshape with
    | assign _ _ hm hstmts _ => exact (hB.scratch hm).scope _ (by rw [hstmts]; simp)
  have hreturned : ∀ {n : Nat} {value : Expr}, c.Shaped scope n (.ret value) →
      value.Avoids B := by
    intro n value hshape
    cases hshape with
    | ret _ _ hm _ hstack => exact (hB.scratch hm).stack _ (by rw [hstack]; simp)
  cases h with
  | value htaken hfall _ => exact hB.choose hon ht (hB.built hon hfall) (hB.built hon htaken)
  | @assign target target' value value' merge _ _ hfall htaken =>
    have hfirst := hassigned hfall
    have hparts : ∀ n ∈ Expr.allNodes target.operands ++ value.nodes, ¬B n :=
      hfirst.parts rfl
    have hparts' : ∀ n ∈ Expr.allNodes target'.operands ++ value'.nodes, ¬B n :=
      (hassigned htaken).parts rfl
    have hself : ¬B (.stmt (.assign target value)) :=
      hfirst _ (List.mem_cons_self ..)
    have hvalue := hB.choose hon ht (fun n hn => hparts n (List.mem_append_right _ hn))
      fun n hn => hparts' n (List.mem_append_right _ hn)
    -- the target is that of the first arm, and only the value is a new node
    refine Stmt.avoids_of_nodes rfl (hB.assign _ _ _ hself) fun n hn => ?_
    rcases List.mem_append.1 hn with hn | hn
    · exact hparts n (List.mem_append_left _ hn)
    · exact hvalue n hn
  | ret _ hfall htaken =>
    exact hB.single rfl rfl
      (hB.choose hon ht (hreturned hfall) (hreturned htaken))

/-- A test may be turned round. -/
theorem side (hB : Unmade c.config B) {cond : Cond} (isTaken : Bool) (h : cond.Avoids B) :
    (if isTaken then cond else cond.negate).Avoids B := by
  cases isTaken with
  | true => exact h
  | false => exact hB.negate _ h

/-- The test of a loop is one of those that chains are made of. -/
theorem loopTest (hB : Unmade c.config B) {l : Loop} {written : List Nat} {test : LoopTest}
    (h : c.loopTest? l written scope = some test) : test.cond.Avoids B := by
  obtain ⟨folded, head, hhead, hfold, _, _, heq, _⟩ := Context.loopTest_inv h
  have hfolded := hB.fold hfold (hB.pureTest hhead)
  rcases heq with heq | heq
  · exact heq ▸ hfolded
  · exact heq ▸ hB.negate _ hfolded

end Unmade

/-! ### The walk -/

/-- A piece has no node of the kind `B` if what is before it has none. -/
def Piece.Avoids (B : Node → Prop) : Piece → Prop
  | .region _ _ _ m m' | .onward _ _ (_, m) m' | .entered _ _ _ m (_, m') | .block _ _ _ m (_, m')
  | .exit _ _ _ _ m (_, m') => m.Avoids B → m'.Avoids B
  | .branch _ _ _ test _ m (_, m') | .plain _ _ _ test m (_, m') =>
    m.Avoids B → test.cond.Avoids B → m'.Avoids B
  | .inner _ _ _ s s' | .before _ _ _ s s' => s.Avoids B → s'.Avoids B
  | .arm _ _ _ _ b | .switchArm _ _ _ _ _ _ b => b.Avoids B
  | .arms _ _ _ _ code => ∀ a ∈ code, a.body.Avoids B

namespace Unmade

variable {config : Config} {c : Context}

/-- No piece has such a node. By induction on how it comes about: what is enclosed in a statement
    has none, and neither have its tests and values. -/
theorem derives (hB : Unmade c.config B) {labels : List Nat} {piece : Piece} {p p' : Progress}
    (h : c.Derives labels piece p p') : piece.Avoids B := by
  induction h with
  | stop _ | done | exitGoto | latchOnly _ => exact id
  | nextRound _ happend | leave _ happend | goto _ _ _ happend | exitRet happend =>
    exact fun hm => .of_append happend hm (hB.leaf rfl rfl)
  | enter _ hlabel _ _ ihcode ihrest =>
    refine fun hm => ihrest (ihcode ?_)
    cases hlabel with
    | placed _ _ happend => exact .of_append happend hm (hB.leaf rfl rfl)
    | none _ => exact hm
  | next _ ih | here _ _ ih | plain _ _ _ ih | before _ _ ih => exact ih
  -- a counting loop needs its idiom, so it is no node of the kind when it is written
  | whileLoop _ _ _ _ htest _ hpromote happend ih =>
    intro hm
    obtain ⟨hscope, hstmt⟩ := hB.promoted (fun h => (Bool.and_eq_true_iff.1 h).1)
      (hB.loopTest htest) hm.scope (ih (.child _ .loop)) hpromote
    exact .of_append happend ⟨hm.stack, hscope⟩ hstmt
  -- the test is what the latch leaves on the stack, perhaps turned round
  | doLoop onTaken _ _ _ _ _ _ _ _ hrun hcond hlock happend ih =>
    intro hm
    have hbody := hB.run (.start (ih (.child _ .loop))) hrun
    have htest := hB.side onTaken (hB.branchCondition hbody.stack hcond).1
    exact .of_append happend hm (hB.doStmt htest (hbody.scope.lock hlock))
  | endless _ _ _ _ _ _ _ _ hdrop hlock happend ihblock ihrest =>
    intro hm
    have hbody := (ihrest (ihblock (.start (.child _ .loop)))).scope
    have hdropped := hbody.trimmed (Context.dropContinue_trimmed hdrop)
    exact .of_append happend hm (hB.whileStmt hB.always (hdropped.lock hlock))
  | block _ hrun _ ih => exact fun hm => ih (hB.run hm hrun)
  -- the value comes from the stack, where nothing of the kind was before
  | exitValue hpop happend | exitThrow hpop happend =>
    intro hm
    obtain ⟨he, hst⟩ := Operands.pop_avoids hpop hm.stack
    exact .of_append happend (hm.withStack hst) (hB.single rfl rfl he)
  | exitBranch hcond hfold _ ih =>
    intro hm
    obtain ⟨hhead, hst⟩ := hB.branchCondition hm.stack hcond
    exact ih (hm.withStack hst) (hB.fold hfold hhead)
  | exitSwitch hpop _ _ happend ih =>
    intro hm
    obtain ⟨hkey, hst⟩ := Operands.pop_avoids hpop hm.stack
    exact .of_append happend (hm.withStack hst) (hB.switchStmt hkey ih)
  -- conditional values are the only nodes here that a setting turns off
  | collapsedValue hon hform =>
    intro hm ht
    exact hm.withStack (hm.stack.push (hB.collapsed hon (Context.ternary_inv hform) ht))
  | collapsedStmt hon hform happend =>
    exact fun hm ht => .of_append happend hm (hB.collapsed hon (Context.ternary_inv hform) ht)
  | oneArm isTaken _ _ happend ih =>
    exact fun hm ht => .of_append happend hm
      (hB.ifElse (hB.side isTaken ht) ih fun _ he => nomatch he)
  | twoArms _ _ _ _ _ _ happend iharm ihelse =>
    exact fun hm ht => .of_append happend hm
      (hB.ifElse (hB.negate _ ht) iharm fun e he => Option.some.inj he ▸ ihelse)
  | jump _ _ _ happend => exact fun hm ht => .of_append happend hm (hB.single rfl rfl ht)
  | inner _ _ ih => exact fun hs => (ih (.start hs)).scope
  | arm _ hlock ih => exact (ih (.child _ .arm)).lock hlock
  | armEmpty _ hlock => exact Scope.Avoids.lock (.child _ .switch) hlock
  | armCode _ _ hclose hlock ih =>
    exact ((ih (.child _ .switch)).trimmed (closeArm_trimmed hclose)).lock hlock
  | armsNil => exact fun a ha => absurd ha List.not_mem_nil
  | armsCons _ _ iharm ihrest => exact List.forall_mem_cons.2 ⟨iharm, ihrest⟩

variable {n : Nat} {scope : Scope}

/-! ### Flat code -/

/-- The jumps of flat code are control statements. -/
theorem flatExit (hB : Unmade c.config B) {exit : Terminator} {st st' : Operands}
    {jumps : List Stmt} (hst : st.Avoids B)
    (h : Context.flatExit n exit st = .ok (jumps, st')) : ∀ s ∈ jumps, s.Avoids B := by
  have hgoto : ∀ t, (Stmt.goto t).Avoids B := fun t => hB.leaf rfl rfl
  cases exit with
  | goto t =>
    cases h
    simpa using hgoto t
  | ret =>
    cases h
    have hret : (Stmt.ret none).Avoids B := hB.leaf rfl rfl
    simpa using hret
  | retValue =>
    obtain ⟨⟨e, st₁⟩, he, h⟩ := Except.bind_eq_ok.1 h
    cases h
    have hret : (Stmt.ret (some e)).Avoids B :=
      hB.single rfl rfl (Operands.pop_avoids he hst).1
    simpa using hret
  | throw =>
    obtain ⟨⟨e, st₁⟩, he, h⟩ := Except.bind_eq_ok.1 h
    cases h
    have hthrow : (Stmt.throw e).Avoids B :=
      hB.single rfl rfl (Operands.pop_avoids he hst).1
    simpa using hthrow
  | branch test taken fallthrough =>
    obtain ⟨⟨cond, st₁⟩, hcond, h⟩ := Except.bind_eq_ok.1 h
    cases h
    have hjump : (Stmt.gotoIf cond taken).Avoids B :=
      hB.single rfl rfl (hB.branchCondition hst hcond).1
    simpa using And.intro hjump (hgoto fallthrough)
  | switch cases default =>
    obtain ⟨⟨key, st₁⟩, hkey, h⟩ := Except.bind_eq_ok.1 h
    simp only at h
    split at h
    · cases h
    · cases h
      intro s hs
      rcases List.mem_append.1 hs with hs | hs
      · obtain ⟨k, _, rfl⟩ := List.mem_map.1 hs
        have htest : (Cond.compare key .eq (.int k.1)).Avoids B :=
          Cond.compare_avoids hB.atom (Operands.pop_avoids hkey hst).1 (hB.const_avoids _)
        exact hB.single rfl rfl htest
      · rw [List.mem_singleton.1 hs]
        exact hgoto default

/-- Nor is there one in flat code. -/
theorem flattens (hB : Unmade c.config B) {s s' : Scope} {ns targets : List Nat}
    (h : c.Flattens ns s s' targets) (hs : s.Avoids B) : s'.Avoids B := by
  induction h with
  | nil => exact hs
  | cons _ hlabel hrun hexit hjumps _ ih =>
    have hm := hB.run (.start (hs.append (hB.leaf rfl rfl) hlabel)) hrun
    exact ih (hm.scope.appendAll (hB.flatExit hm.stack hexit) hjumps)

/-! ### Whole methods -/

/-- Structured code is without such nodes, with what only jumps lead to. -/
theorem structured (hB : Unmade c.config B) {r : Context.Result} (hs : scope.Avoids B)
    (h : c.structured scope = .ok r) : r.body.Avoids B := by
  obtain ⟨labels, m, p, p', hregion, htail⟩ := Context.structured_derives h
  have hm : m.Avoids B := hB.derives hregion (.start hs)
  cases htail with
  | dropped _ hdrop => exact hm.scope.trimmed (Context.dropReturn_trimmed hdrop)
  | flat _ _ hcode => exact hB.flattens hcode hm.scope

/-- The code of a method is without nodes that are never made. -/
theorem recover {config : Config} (hB : Unmade config B) {m : Method} {r : RecoveredBody}
    (h : m.recover config = .ok r) : ∀ n ∈ r.body.nodes, ¬B n := by
  obtain ⟨body, _, horigin, hlock, _⟩ := Method.recover_inv h
  have hstart : ∀ locals, (Scope.withLocals .method locals).Avoids B :=
    fun _ _ ht => absurd ht List.not_mem_nil
  refine Scope.Avoids.iff_nodes.1 (Scope.Avoids.lock ?_ hlock)
  cases horigin with
  | bodyless _ locals => exact hstart locals
  | @structured g _ _ _ hcode => exact structured (c := ⟨config, g⟩) hB (hstart _) hcode
  | @flat g _ _ _ hcode =>
    obtain ⟨_, hblocks⟩ := Context.flattens_of_flatten hcode
    exact flattens (c := ⟨config, g⟩) hB hblocks (hstart _)

end Unmade

end Restructure
