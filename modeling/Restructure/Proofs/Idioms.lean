import Restructure.Proofs.Fallback
import Restructure.Proofs.Simulation.Products
import Restructure.Proofs.Region.Unmade

namespace Restructure

/-!
# Idioms — settings that are off are respected everywhere

Conditional values, counting loops, compound assignments, increments within values, joined
conditions and jumps to labels are written only where the settings ask for them. Instructions make
some of them and the walk makes the others, partly from scratch simulations that both share, so this
is shown for all nodes that are made.

* `Idiom`, `Node.idiom?` — the idioms, and the one that a node belongs to.
* `Config.allows` — the settings that turn an idiom on.
* `Simulation.run_wanted` — instructions only make nodes of idioms that are on.
* `Node.unwanted_unmade` — neither does the walk make others, jumps apart.
* `idioms_allowed` — the code of a method has only idioms that are on, at any depth.
-/

/-- The forms of code that settings turn on. -/
inductive Idiom where
  | ternary | forLoop | compound | increment | chain | jump
  deriving DecidableEq

/-- The idiom that a node belongs to, if any. -/
def Node.idiom? : Node → Option Idiom
  | .expr (.ternary _ _ _) => some .ternary
  | .expr (.increment _ _ _) => some .increment
  | .cond (.and _) | .cond (.or _) => some .chain
  | .stmt (.forLoop _ _ _ _) => some .forLoop
  | .stmt (.compound _ _ _) => some .compound
  | .stmt (.label _) | .stmt (.goto _) | .stmt (.gotoIf _ _) => some .jump
  | _ => none

/-- The idiom is turned on. Conditions are joined if a chain may have more than one block. -/
def Config.allows (config : Config) : Idiom → Bool
  | .ternary => config.ternaries
  | .forLoop => config.forLoops
  | .compound => config.compoundAssignments
  | .increment => config.increments
  | .chain => 2 ≤ config.maxChain
  | .jump => config.fallback

/-- The node belongs to an idiom that is turned off. Jumps are left out: the walk makes them
    whatever the settings are, but it gives up before they end up in the code. -/
def Node.Unwanted (config : Config) (n : Node) : Prop :=
  ∃ i, n.idiom? = some i ∧ i ≠ .jump ∧ config.allows i = false

variable {config : Config}

namespace Node

variable {n : Node} {i : Idiom}

/-- What is no idiom is not unwanted. -/
theorem not_unwanted (h : n.idiom? = none) : ¬n.Unwanted config := by
  rintro ⟨i, hi, _⟩
  rw [h] at hi
  cases hi

/-- What is allowed is not unwanted. -/
theorem not_unwanted_of_allows (h : n.idiom? = some i) (hi : config.allows i = true) :
    ¬n.Unwanted config := by
  rintro ⟨j, hj, _, hoff⟩
  rw [h] at hj
  cases hj
  exact Bool.noConfusion (hi.symm.trans hoff)

end Node

/-! ### Values and statements that instructions make -/

section Made

variable {e value : Expr} {target : Place}

/-- A value of no idiom, made of wanted parts. -/
theorem Expr.wanted {ns : List Node} (hnodes : e.nodes = .expr e :: ns)
    (he : Node.idiom? (.expr e) = none) (hns : ∀ n ∈ ns, ¬n.Unwanted config) :
    e.Avoids (Node.Unwanted config) := Expr.avoids_of_nodes hnodes (Node.not_unwanted he) hns

/-- Constants are no idioms. -/
theorem Expr.const_wanted (k : Constant) : (Expr.const k).Avoids (Node.Unwanted config) :=
  Expr.wanted rfl rfl fun _ h => absurd h List.not_mem_nil

/-- A place that is read has no idioms but those of its operands. -/
theorem Place.read_wanted (ht : target.Avoids (Node.Unwanted config)) :
    target.read.Avoids (Node.Unwanted config) := by
  have hidiom : Node.idiom? (.expr target.read) = none := by cases target <;> rfl
  have hnodes : target.read.nodes = .expr target.read :: Expr.allNodes target.operands := by
    cases target <;> simp [Place.read, Place.operands, Expr.nodes, Expr.allNodes]
  exact Expr.wanted hnodes hidiom (Expr.allAvoid_iff.2 ht)

/-- An assignment takes the compound form only if that idiom is on. -/
theorem assignment_wanted (ht : target.Avoids (Node.Unwanted config))
    (hv : value.Avoids (Node.Unwanted config)) :
    (Simulation.assignment config target value).Avoids (Node.Unwanted config) := by
  have hparts : ∀ {e : Expr}, e.Avoids (Node.Unwanted config) →
      ∀ n ∈ Expr.allNodes target.operands ++ e.nodes, ¬n.Unwanted config := by
    intro e he n hn
    rcases List.mem_append.1 hn with hn | hn
    · exact Expr.allAvoid_iff.2 ht n hn
    · exact he n hn
  unfold Simulation.assignment
  split
  · rename_i op left right hcompound
    unfold Simulation.compoundParts? at hcompound
    split at hcompound
    · split at hcompound
      · rename_i hon
        cases hcompound
        have hallows : config.allows .compound = true := (Bool.and_eq_true _ _ ▸ hon).1
        have hright : right.Avoids (Node.Unwanted config) := fun n hn =>
          hv.parts (by rw [Expr.nodes]) n (List.mem_append_right _ hn)
        exact Stmt.avoids_of_nodes rfl (Node.not_unwanted_of_allows rfl hallows) (hparts hright)
      · cases hcompound
    · cases hcompound
  · exact Stmt.avoids_of_nodes rfl (Node.not_unwanted rfl) (hparts hv)

/-- A store that becomes part of an array. -/
theorem Expr.stored_wanted {array index filled : Expr} (ha : array.Avoids (Node.Unwanted config))
    (hv : value.Avoids (Node.Unwanted config)) (h : Expr.stored? array index value = some filled) :
    filled.Avoids (Node.Unwanted config) := by
  obtain ⟨t, size, values, n, i, _, _, _, rfl, harray⟩ := Expr.stored_cases h
  have hparts : size.Avoids (Node.Unwanted config) ∧
      ∀ v ∈ values, v.Avoids (Node.Unwanted config) := by
    rcases harray with ⟨rfl, rfl⟩ | ⟨rfl, _⟩
    · refine ⟨ha.parts (by rw [Expr.nodes]), fun v hv => ?_⟩
      rw [List.eq_of_mem_replicate hv]
      exact Expr.const_wanted _
    · have hall : ∀ n ∈ size.nodes ++ Expr.allNodes values, ¬n.Unwanted config :=
        ha.parts (by rw [Expr.nodes])
      rw [List.forall_mem_append] at hall
      exact ⟨hall.1, Expr.allAvoid_iff.1 hall.2⟩
  refine Expr.wanted (by rw [Expr.nodes]) rfl fun n hn => ?_
  rcases List.mem_append.1 hn with hn | hn
  · exact hparts.1 n hn
  · refine Expr.allAvoid_iff.2 (fun v hmem => ?_) n hn
    rcases List.mem_or_eq_of_mem_set hmem with hmem | rfl
    · exact hparts.2 v hmem
    · exact hv

/-- A value as a statement has no idioms but its own. -/
theorem Stmt.eval_wanted (he : e.Avoids (Node.Unwanted config)) :
    (Stmt.eval e).Avoids (Node.Unwanted config) :=
  Stmt.avoids_of_nodes rfl (Node.not_unwanted rfl) he

end Made

namespace Simulation

variable {m m' : Simulation} {prev next : Option Insn} {insn : Insn} {out : Outcome}
  {taken put : Operands} {edit : Edit} {took : Bool}

/-! ### Instructions -/

/-- The arguments and the receiver of a call. -/
theorem avoids_of_arguments {B : Node → Prop} {args : List Expr} {below : Operands}
    (h : Operands.Avoids B (Operands.ofArgs args ++ below)) :
    (∀ n ∈ Expr.allNodes args, ¬B n) ∧ below.Avoids B := by
  constructor
  · refine Expr.allAvoid_iff.2 fun e he => h e (List.mem_append_left _ ?_)
    simpa [Operands.ofArgs] using he
  · exact fun e he => h e (List.mem_append_right _ he)

/-- What a call is made of. -/
theorem call_wanted {f : MethodRef} {args : List Expr} {receiver : Option Expr}
    (h : Operands.Avoids (Node.Unwanted config)
      (Operands.ofArgs args ++ receiver.toList.map .value)) :
    (f.on args receiver).Avoids (Node.Unwanted config) := by
  obtain ⟨hargs, hreceiver⟩ := avoids_of_arguments h
  cases receiver with
  | none => exact Expr.wanted (by rw [MethodRef.on, Expr.nodes]) rfl hargs
  | some r =>
    refine Expr.wanted (by rw [MethodRef.on, Expr.nodes]) rfl fun n hn => ?_
    rcases List.mem_append.1 hn with hn | hn
    · exact hreceiver r (by simp) n hn
    · exact hargs n hn

/-- A dropped value stays if it has effects. -/
theorem remains_wanted {o : Operand} {st : Operands}
    (h : Operands.Avoids (Node.Unwanted config) (o :: st)) :
    ∀ s ∈ o.remains, s.Avoids (Node.Unwanted config) := by
  cases o with
  | uninitialized t => exact fun s hs => absurd hs List.not_mem_nil
  | value e =>
    intro s hs
    simp only [Operand.remains] at hs
    split at hs
    · rw [List.mem_singleton.1 hs]
      exact Stmt.eval_wanted (h e (List.mem_cons_self ..))
    · cases hs

/-- What an instruction puts on the stack and adds to the statements is wanted if what it takes is.
    Reads and increments are not covered: they look at the settings themselves. -/
theorem wanted_of_move (hmove : Move config prev next insn taken put edit took)
    (hload : ∀ slot t, insn ≠ .load slot t) (hincrement : ∀ slot n, insn ≠ .increment slot n)
    (htaken : taken.Avoids (Node.Unwanted config)) :
    put.Avoids (Node.Unwanted config) ∧
      ∀ ss, edit = .add ss → ∀ s ∈ ss, s.Avoids (Node.Unwanted config) := by
  have hnone : ∀ ss, Edit.add [] = .add ss → ∀ s ∈ ss, s.Avoids (Node.Unwanted config) := by
    rintro ss ⟨⟩ s hs
    cases hs
  have hadd : ∀ {s : Stmt}, s.Avoids (Node.Unwanted config) →
      ∀ ss, Edit.add [s] = .add ss → ∀ s ∈ ss, s.Avoids (Node.Unwanted config) := by
    rintro s hs ss ⟨⟩ t ht
    rw [List.mem_singleton.1 ht]
    exact hs
  have hput : ∀ {e : Expr}, e.Avoids (Node.Unwanted config) →
      Operands.Avoids (Node.Unwanted config) [.value e] := by
    intro e he e' he'
    cases List.mem_singleton.1 he'
    exact he
  have hpair : ∀ {e e' : Expr} {st : Operands},
      Operands.Avoids (Node.Unwanted config) (.value e :: .value e' :: st) →
        e.Avoids (Node.Unwanted config) ∧ e'.Avoids (Node.Unwanted config) := fun h =>
    ⟨h _ (by simp), h _ (by simp)⟩
  have hnil : Operands.Avoids (Node.Unwanted config) [] := Operands.avoids_nil
  cases hmove
  case load slot t v hv => exact absurd rfl (hload slot t)
  case loadIncremented slot t v n hv => exact absurd rfl (hload slot t)
  case increment slot n v hv => exact absurd rfl (hincrement slot n)
  case incrementLoaded slot t n v w hprev hv hw => exact absurd rfl (hincrement slot n)
  case const c => exact ⟨hput (Expr.const_wanted c), hnone⟩
  case getStatic f =>
    exact ⟨hput (Expr.wanted rfl rfl fun _ h => absurd h List.not_mem_nil), hnone⟩
  case new c => exact ⟨fun e he => absurd he (by simp), hnone⟩
  case unary e hf =>
    have he : e.Avoids (Node.Unwanted config) := htaken e (by simp)
    refine ⟨hput ?_, hnone⟩
    cases insn <;> cases hf <;> exact Expr.wanted rfl rfl he
  case binary left right hf =>
    obtain ⟨hright, hleft⟩ := hpair htaken
    have hparts : ∀ n ∈ left.nodes ++ right.nodes, ¬n.Unwanted config := fun n hn =>
      (List.mem_append.1 hn).elim (hleft n) (hright n)
    refine ⟨hput ?_, hnone⟩
    cases insn <;> cases hf <;> exact Expr.wanted rfl rfl hparts
  case store value htarget =>
    refine ⟨hnil, hadd (assignment_wanted ?_ (htaken value (by simp)))⟩
    cases htarget <;> exact fun e he => absurd he List.not_mem_nil
  case putField f receiver value =>
    obtain ⟨hvalue, hreceiver⟩ := hpair htaken
    refine ⟨hnil, hadd (assignment_wanted (fun e he => ?_) hvalue)⟩
    rw [List.mem_singleton.1 he]
    exact hreceiver
  case arrayStore t array index value =>
    refine ⟨hnil, hadd (assignment_wanted (fun e he => ?_) (htaken value (by simp)))⟩
    rcases List.mem_pair.1 he with rfl | rfl
    · exact htaken _ (by simp)
    · exact htaken _ (by simp)
  case fill array index value top filled t hsame hfilled =>
    exact ⟨hput (Expr.stored_wanted (htaken top (by simp)) (htaken value (by simp)) hfilled), hnone⟩
  case invoke dispatch f sig args receiver hf hargs hreceiver hvoid =>
    exact ⟨hput (call_wanted htaken), hnone⟩
  case invokeVoid dispatch f sig args receiver hf hargs hreceiver hvoid =>
    exact ⟨hnil, hadd (Stmt.eval_wanted (call_wanted htaken))⟩
  case construct f sig args type hf hargs hname =>
    have hparts := (avoids_of_arguments htaken).1
    exact ⟨hnil, hadd (Stmt.eval_wanted (Expr.wanted (by rw [Expr.nodes]) rfl hparts))⟩
  case constructCopy f sig args type hf hargs hname =>
    have hparts := (avoids_of_arguments htaken).1
    exact ⟨hput (Expr.wanted (by rw [Expr.nodes]) rfl hparts), hnone⟩
  case dupStore e target insn he hnext htarget =>
    have ht : target.Avoids (Node.Unwanted config) := by
      cases htarget <;> exact fun e he => absurd he List.not_mem_nil
    exact ⟨hput (Place.read_wanted ht), hadd (assignment_wanted ht (htaken e (by simp)))⟩
  case dupX1Store value receiver f hreceiver hnext =>
    obtain ⟨hvalue, hreceiver⟩ := hpair htaken
    have ht : (Place.field f receiver).Avoids (Node.Unwanted config) := fun e he =>
      List.mem_singleton.1 he ▸ hreceiver
    exact ⟨hput (Place.read_wanted ht), hadd (assignment_wanted ht hvalue)⟩
  case pop o => exact ⟨hnil, fun ss hss => Edit.add.inj hss ▸ remains_wanted htaken⟩
  case pop2Wide o hwide => exact ⟨hnil, fun ss hss => Edit.add.inj hss ▸ remains_wanted htaken⟩
  case pop2 o p hwide =>
    refine ⟨hnil, fun ss hss => Edit.add.inj hss ▸ ?_⟩
    rw [List.forall_mem_append]
    exact ⟨remains_wanted htaken, remains_wanted htaken.of_cons⟩
  -- the others put copies
  all_goals
    refine ⟨fun e he => htaken e ?_, hnone⟩
    simp only [List.mem_cons, List.not_mem_nil, or_false] at he ⊢
    tauto

/-- Statements of the local itself. -/
theorem incrementStmt_wanted (v : Local) (n : Int) :
    (Stmt.increment v n).Avoids (Node.Unwanted config) :=
  Stmt.avoids_of_nodes rfl (Node.not_unwanted rfl) fun _ h => absurd h List.not_mem_nil

/-- Locals are no idioms. -/
theorem var_wanted (v : Local) : (Expr.var v).Avoids (Node.Unwanted config) :=
  Expr.wanted rfl rfl fun _ h => absurd h List.not_mem_nil

/-- An increment within a value is made only if that idiom is on. -/
theorem incrementValue_wanted (hon : config.increments = true) (v : Local) (n : Int) (b : Bool) :
    (Expr.increment v n b).Avoids (Node.Unwanted config) :=
  Expr.avoids_of_nodes rfl (Node.not_unwanted_of_allows rfl hon)
    fun _ h => absurd h List.not_mem_nil

/-- A step keeps what it does not take, and adds what it makes. -/
theorem avoids_of_makes {B : Node → Prop} {rest : Operands}
    (h : Makes config m prev insn next out taken put rest edit) (hm : m.Avoids B)
    (hput : put.Avoids B) (hadded : ∀ ss, edit = .add ss → ∀ s ∈ ss, s.Avoids B) :
    out.state.Avoids B := by
  have hstmts := h.stmts
  constructor
  · rw [h.after]
    intro e he
    rcases List.mem_append.1 he with he | he
    · exact hput e he
    · exact hm.stack e (h.before ▸ List.mem_append_right _ he)
  · intro s hs
    cases edit with
    | add ss =>
      rw [hstmts] at hs
      rcases List.mem_append.1 hs with hs | hs
      · exact hm.scope s hs
      · exact hadded ss rfl s hs
    | takeBack t => exact hm.scope s (hstmts ▸ List.mem_append_left _ hs)

/-- A read of a local takes an increment in only if that idiom is on. -/
theorem load_wanted {slot : Nat} {t : String} (hm : m.Avoids (Node.Unwanted config))
    (h : load config m prev slot t = .ok m') : m'.Avoids (Node.Unwanted config) := by
  rcases load_spec h with ⟨_, v, _, hstmts, hstack⟩ | ⟨hon, v, n, _, _, hstmts, hstack⟩
  · constructor
    · rw [hstack]
      exact hm.stack.push (var_wanted v)
    · rw [Scope.Avoids, hstmts]
      exact hm.scope
  · constructor
    · rw [hstack]
      exact hm.stack.push (incrementValue_wanted hon v n true)
    · exact fun s hs => hm.scope s (hstmts ▸ List.mem_append_left _ hs)

/-- An increment is taken into the read before it only if that idiom is on. -/
theorem increment_wanted {slot : Nat} {n : Int} (hm : m.Avoids (Node.Unwanted config))
    (h : increment config m prev slot n = .ok m') : m'.Avoids (Node.Unwanted config) := by
  rcases increment_spec h with
    ⟨hon, st, _, v, w, _, _, hread, hstmts, hstack⟩ | ⟨_, v, _, hstmts, hstack⟩
  · constructor
    · have hbelow := hm.stack
      rw [hread] at hbelow
      rw [hstack]
      exact hbelow.of_cons.push (incrementValue_wanted hon v n false)
    · rw [Scope.Avoids, hstmts]
      exact hm.scope
  · constructor
    · rw [hstack]
      exact hm.stack
    · intro s hs
      rw [hstmts] at hs
      rcases List.mem_append.1 hs with hs | hs
      · exact hm.scope s hs
      · rw [List.mem_singleton.1 hs]
        exact incrementStmt_wanted v n

/-- An instruction makes only nodes that are wanted. -/
theorem step_wanted (hm : m.Avoids (Node.Unwanted config))
    (h : step config m prev insn next = .ok out) : out.state.Avoids (Node.Unwanted config) := by
  have hother : (∀ slot t, insn ≠ .load slot t) → (∀ slot n, insn ≠ .increment slot n) →
      out.state.Avoids (Node.Unwanted config) := by
    intro hload hincrement
    obtain ⟨taken, put, rest, edit, hmakes⟩ := moves_of_step h
    obtain ⟨hput, hadded⟩ := wanted_of_move hmakes.move hload hincrement
      fun e he => hm.stack e (hmakes.before ▸ List.mem_append_left _ he)
    exact avoids_of_makes hmakes hm hput hadded
  cases insn with
  | load slot t =>
    obtain ⟨m₁, hm₁, rfl⟩ := Except.map_eq_ok.1 h
    exact load_wanted hm hm₁
  | increment slot n =>
    obtain ⟨m₁, hm₁, rfl⟩ := Except.map_eq_ok.1 h
    exact increment_wanted hm hm₁
  | _ => exact hother (by simp) (by simp)

/-- Instructions only make nodes of idioms that are on. -/
theorem wanted_of_turned {insns : List Insn} {gs : List Turn}
    (hturned : Turned config prev m insns gs m') (hm : m.Avoids (Node.Unwanted config)) :
    m'.Avoids (Node.Unwanted config) := by
  induction hturned with
  | nil => exact hm
  | cons g hstep _ _ ih => exact ih (step_wanted hm hstep)

/-- A run brings no unwanted idioms. -/
theorem run_wanted {insns : List Insn} (hm : m.Avoids (Node.Unwanted config))
    (h : run config m insns = .ok m') : m'.Avoids (Node.Unwanted config) :=
  wanted_of_turned (turned_of_runAfter h) hm

end Simulation

/-! ### The walk -/

/-- Where conditions are joined, no condition is unwanted. -/
theorem Node.not_unwanted_cond (hchain : config.allows .chain = true) (c : Cond) :
    ¬Node.Unwanted config (.cond c) := by
  cases c with
  | and _ | or _ => exact not_unwanted_of_allows rfl hchain
  | _ => exact not_unwanted rfl

/-- Where no conditions are joined, there is no conjunction whose opposite would be a
    disjunction. -/
theorem Cond.negate_wanted {c : Cond} (h : c.Avoids (Node.Unwanted config)) :
    c.negate.Avoids (Node.Unwanted config) := by
  by_cases hchain : config.allows .chain = true
  · exact Cond.negate_avoids (Node.not_unwanted_cond hchain) c h
  · have hoff : config.allows .chain = false := Bool.eq_false_iff.2 hchain
    have hself : ¬Node.Unwanted config (.cond c) :=
      h _ (by rw [Cond.nodes.eq_def]; exact List.mem_cons_self ..)
    cases c with
    | test e i | compare l r e =>
      exact Cond.avoids_of_nodes (by rw [Cond.negate, Cond.nodes]) (Node.not_unwanted rfl)
        (h.parts (by rw [Cond.nodes]))
    | not d => exact h.parts (by rw [Cond.nodes, Cond.negate])
    | and cs | or cs => exact absurd ⟨.chain, rfl, by decide, hoff⟩ hself

/-- The walk writes no idiom that is off, except for jumps. -/
theorem Node.unwanted_unmade (config : Config) : Unmade config (Node.Unwanted config) where
  run := Simulation.run_wanted
  const _ := not_unwanted rfl
  atom c hc := by
    cases c with
    | test e i | compare l r e => exact not_unwanted rfl
    | _ => cases hc
  negate _ := Cond.negate_wanted
  all hchain _ _ hc hd :=
    Cond.all_avoids (not_unwanted_cond (decide_eq_true hchain)) (by simpa using ⟨hc, hd⟩)
  any hchain _ _ hc hd :=
    Cond.any_avoids (not_unwanted_cond (decide_eq_true hchain)) (by simpa using ⟨hc, hd⟩)
  ternary hon _ _ _ := not_unwanted_of_allows rfl hon
  assign _ _ _ _ := not_unwanted rfl
  control s hs := by
    rintro ⟨i, hi, hjump, _⟩
    cases s <;> cases hs <;> cases hi <;> exact hjump rfl
  forLoop hon _ _ _ _ := not_unwanted_of_allows rfl hon

/-! ### The settings -/

/-- A jump in the sense of the settings is a label, or a jump to one. -/
theorem Node.label_or_jump {n : Node} (h : n.idiom? = some .jump) :
    ∃ k, n.label? = some k ∨ n.jump? = some k := by
  cases n with
  | expr e => cases e <;> cases h
  | cond c => cases c <;> cases h
  | stmt s =>
    cases s with
    | label k => exact ⟨k, .inl rfl⟩
    | goto k | gotoIf _ k => exact ⟨k, .inr rfl⟩
    | _ => cases h

namespace Method

variable {m : Method} {r : RecoveredBody}

/-- Without fallbacks the code of a method has no labels and no jumps. -/
theorem fallback_of_jump (h : m.recover config = .ok r) {n : Node} (hn : n ∈ r.body.nodes)
    (hjump : n.idiom? = some .jump) : config.fallback = true := by
  by_contra hoff
  have hquiet := recover_quiet (Bool.eq_false_iff.2 hoff) h
  obtain ⟨hlabels, hjumps⟩ := (fallback_iff h).1 hquiet
  obtain ⟨k, hk | hk⟩ := Node.label_or_jump hjump
  · have hmem : k ∈ r.body.labels := List.mem_filterMap.2 ⟨n, hn, hk⟩
    rw [hlabels] at hmem
    cases hmem
  · have hmem : k ∈ r.body.jumps := List.mem_filterMap.2 ⟨n, hn, hk⟩
    rw [hjumps] at hmem
    cases hmem

end Method

/-- Every node in the code of a method, at any depth, is of an idiom that is turned on, if it is of
    an idiom at all. -/
theorem idioms_allowed {m : Method} {r : RecoveredBody} (h : m.recover config = .ok r) :
    ∀ n ∈ r.body.nodes, ∀ i, n.idiom? = some i → config.allows i = true := by
  intro n hn i hi
  by_cases hjump : i = .jump
  · subst hjump
    exact Method.fallback_of_jump h hn hi
  · by_contra hoff
    exact (Node.unwanted_unmade config).recover h n hn ⟨i, hi, hjump, Bool.eq_false_iff.2 hoff⟩

/-- The blocks of `x = x + y; x++; y = x; if (a && b) z = 1;`. -/
def plain : Method := .ofBlocks
  [⟨[.load 0 "I", .load 1 "I", .binary .add "I", .store 0 "I", .increment 0 1, .load 0 "I",
      .store 1 "I", .load 2 "Z"], .branch (.zero .eq) 3 1⟩,
    ⟨[.load 3 "Z"], .branch (.zero .eq) 3 2⟩, ⟨[.const (.int 1), .store 4 "I"], .goto 3⟩,
    ⟨[], .ret⟩]

/-- By default its code has three idioms, and with all settings off it has none. -/
theorem plain_idioms :
    (∃ r, plain.recover {} = .ok r ∧
      r.body.nodes.filterMap Node.idiom? = [.compound, .increment, .chain]) ∧
      ∃ r, plain.recover { Config.literal with fallback := false } = .ok r ∧
        ∀ n ∈ r.body.nodes, n.idiom? = none := by
  have hdefault : (plain.recover {}).toOption.map (·.body.nodes.filterMap Node.idiom?)
      = some [.compound, .increment, .chain] := by decide +kernel
  have hsucceeds : (plain.recover { Config.literal with fallback := false }).isOk = true := by
    decide +kernel
  obtain ⟨r, hr⟩ := Except.eq_ok_of_isOk hsucceeds
  refine ⟨Method.exists_of_map_toOption hdefault, r, hr, fun n hn => ?_⟩
  cases hi : n.idiom? with
  | none => rfl
  | some i =>
    have hon := idioms_allowed hr n hn i hi
    cases i <;> cases hon

end Restructure
