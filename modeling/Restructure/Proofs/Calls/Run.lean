import Restructure.Body

namespace Restructure

/-!
# Runs — the calls that running code makes

Code whose instructions only call static methods without parameters is told apart by the order of
its calls. Methods without result are only called; a method with a result is a test, and what the
tests answer is given as a stream.

* `Event`, `Run` — what is seen of running code, and what is seen from some point on.
* `Scope.calls` — the first calls of a statement tree.
* `Scope.retests` — whether a `continue` of a `do` loop comes up before them.
* `Method.calls` — the first calls of a graph of basic blocks.

A place in the code is the run from there on. A statement gets the runs of the places to which it
can go, so that a jump is the choice of one of them. Values, statements and instructions of any
other form do not come up in such code; a run ends there.
-/

/-- What is seen of running code: a call, or a `continue` of a `do` loop, which goes to the
    condition. -/
inductive Event where
  | call (m : MethodRef)
  | retest
  deriving DecidableEq

/-- The method of a call. -/
def Event.method? : Event → Option MethodRef
  | call m => some m
  | retest => none

/-- The answers to the tests, in the order in which they are asked. -/
abbrev Answers := Nat → Int

/-- What is seen from some point on up to a number of calls, if `asked` tests have been asked
    before. -/
abbrev Run := (count asked : Nat) → List Event

namespace Run

/-- Nothing more. -/
def halt : Run := fun _ _ => []

/-- One call, and what comes behind it. -/
def call (m : MethodRef) (next : Run) : Run
  | 0, _ => []
  | n + 1, k => .call m :: next n k

/-- One test, and what comes behind each of its answers. -/
def ask (answers : Answers) (m : MethodRef) (next : Int → Run) : Run
  | 0, _ => []
  | n + 1, k => .call m :: next (answers k) n (k + 1)

/-- A jump to the condition of a `do` loop. -/
def retest (condition : Run) : Run
  | 0, _ => []
  | n + 1, k => .retest :: condition (n + 1) k

/-- Some rounds of a loop; `round` gets what comes behind a round. -/
def rounds (round : Run → Run) : Nat → Run
  | 0 => halt
  | n + 1 => round (rounds round n)

/-- All rounds of a loop. A round without calls changes nothing, so none comes in any later round,
    and the first `n` calls are made in `n + 1` rounds. -/
def loop (round : Run → Run) : Run := fun n k => rounds round (n + 1) n k

/-- The first calls from the beginning on. -/
def calls (r : Run) (count : Nat) : List MethodRef := (r count 0).filterMap Event.method?

end Run

/-- The places to which a statement can go: behind it, behind the innermost loop or switch, and to
    the next round of the innermost loop. -/
structure Exits where
  onward : Run
  leave : Run
  nextRound : Run

/-! ### Statement trees -/

/-- The relation of two numbers. -/
def Relation.holds : Relation → Int → Int → Bool
  | .eq, a, b => a == b
  | .ne, a, b => a != b
  | .lt, a, b => a < b
  | .ge, a, b => b ≤ a
  | .gt, a, b => b < a
  | .le, a, b => a ≤ b

/-- The truth of an answer. -/
def truth (v : Int) : Bool := v != 0

/-- Goes on with a value. -/
def Expr.ask (answers : Answers) (e : Expr) (next : Int → Run) : Run :=
  match e with
  | .const (.int n) => next n
  | .const (.boolean b) => next (if b then 1 else 0)
  | .staticCall m [] => Run.ask answers m next
  | _ => Run.halt

/-- Goes on behind a call that is a statement. -/
def Expr.invoke (e : Expr) (next : Run) : Run :=
  match e with
  | .staticCall m [] => Run.call m next
  | _ => Run.halt

mutual

/-- Goes on as a test says. -/
def Cond.run (answers : Answers) : Cond → (holds fails : Run) → Run
  | .test e inverse, holds, fails =>
    e.ask answers fun v => if truth v != inverse then holds else fails
  | .compare l r e, holds, fails =>
    l.ask answers fun a => e.ask answers fun b => if r.holds a b then holds else fails
  | .not c, holds, fails => c.run answers fails holds
  | .and cs, holds, fails => Cond.runAll answers cs holds fails
  | .or cs, holds, fails => Cond.runAny answers cs holds fails

/-- Goes on as a conjunction says. -/
def Cond.runAll (answers : Answers) : List Cond → (holds fails : Run) → Run
  | [], holds, _ => holds
  | c :: cs, holds, fails => c.run answers (Cond.runAll answers cs holds fails) fails

/-- Goes on as a disjunction says. -/
def Cond.runAny (answers : Answers) : List Cond → (holds fails : Run) → Run
  | [], _, fails => fails
  | c :: cs, holds, fails => c.run answers holds (Cond.runAny answers cs holds fails)

end

/-- The run from an arm of a switch on, with the keys that lead there. -/
structure ArmRun where
  labels : List Int
  isDefault : Bool
  run : Run

/-- The run of the first arm, if there is one. -/
def ArmRun.first (rs : List ArmRun) (behind : Run) : Run :=
  match rs with
  | [] => behind
  | r :: _ => r.run

/-- The run of the arm with a key, or else of the default arm. -/
def ArmRun.select (rs : List ArmRun) (v : Int) (behind : Run) : Run :=
  match rs.find? (·.labels.contains v) with
  | some r => r.run
  | none =>
    match rs.find? (·.isDefault) with
    | some r => r.run
    | none => behind

mutual

/-- Runs a statement. -/
def Stmt.run (answers : Answers) : Stmt → Exits → Run
  | .eval e, k => e.invoke k.onward
  | .ret (some e), _ | .throw e, _ => e.ask answers fun _ => Run.halt
  | .ifElse c b none, k => c.run answers (b.run answers k) k.onward
  | .ifElse c b (some e), k => c.run answers (b.run answers k) (e.run answers k)
  | .whileLoop c b, k =>
    Run.loop fun again => c.run answers (b.run answers ⟨again, k.onward, again⟩) k.onward
  | .doWhile c b, k =>
    Run.loop fun again =>
      let test := c.run answers again k.onward
      b.run answers ⟨test, k.onward, Run.retest test⟩
  | .forLoop i c u b, k =>
    let loop := Run.loop fun again =>
      let update :=
        match u with
        | none => again
        | some s => s.run answers ⟨again, k.onward, again⟩
      c.run answers (b.run answers ⟨update, k.onward, update⟩) k.onward
    match i with
    | none => loop
    | some s => s.run answers { k with onward := loop }
  | .switch e arms, k =>
    e.ask answers fun v =>
      ArmRun.select (SwitchArm.runs answers arms { k with leave := k.onward }) v k.onward
  | .breakOut, k => k.leave
  | .continueLoop, k => k.nextRound
  | .label _, k => k.onward
  | .ret none, _ | .assign _ _, _ | .compound _ _ _, _ | .increment _ _, _ | .goto _, _
  | .gotoIf _ _, _ => Run.halt

/-- Runs statements in order. -/
def Stmt.runAll (answers : Answers) : List Stmt → Exits → Run
  | [], k => k.onward
  | s :: ss, k => s.run answers { k with onward := Stmt.runAll answers ss k }

/-- Runs a scope. -/
def Scope.run (answers : Answers) : Scope → Exits → Run
  | ⟨_, _, ss, _⟩, k => Stmt.runAll answers ss k

/-- The runs from the arms of a switch on. An arm without a jump behind the switch goes on with the
    next one. -/
def SwitchArm.runs (answers : Answers) : List SwitchArm → Exits → List ArmRun
  | [], _ => []
  | ⟨labels, isDefault, b, breaks⟩ :: arms, k =>
    let rest := SwitchArm.runs answers arms k
    let onward := if breaks then k.leave else ArmRun.first rest k.onward
    ⟨labels, isDefault, b.run answers { k with onward }⟩ :: rest

end

/-- Runs an arm, if there is one. -/
def Scope.runIf (answers : Answers) : Option Scope → Exits → Run
  | some s, k => s.run answers k
  | none, k => k.onward

/-- The run of a body. -/
def Scope.behaviour (answers : Answers) (s : Scope) : Run :=
  s.run answers ⟨Run.halt, Run.halt, Run.halt⟩

/-- The first calls of a body. -/
def Scope.calls (answers : Answers) (s : Scope) (count : Nat) : List MethodRef :=
  (s.behaviour answers).calls count

/-- The condition of some `do` loop is reached by a `continue` before the first `count` calls have
    been made. -/
def Scope.retests (answers : Answers) (s : Scope) (count : Nat) : Prop :=
  .retest ∈ s.behaviour answers count 0

/-! ### Basic blocks -/

/-- Runs instructions on a stack of answers. -/
def Insn.runAll (answers : Answers) (next : List Int → Run) : List Insn → List Int → Run
  | [], st => next st
  | .invoke .static m :: is, st =>
    match m.parse with
    | .ok t =>
      if t.params.isEmpty then
        if t.returnsVoid then Run.call m (Insn.runAll answers next is st)
        else Run.ask answers m fun v => Insn.runAll answers next is (v :: st)
      else Run.halt
    | .error _ => Run.halt
  | _ :: _, _ => Run.halt

/-- Goes on as a terminator says. -/
def Terminator.run (next : Nat → Run) : Terminator → List Int → Run
  | .goto t, _ => next t
  | .branch (.zero r) taken fallthrough, v :: _ =>
    if r.holds v 0 then next taken else next fallthrough
  | .switch cases default, v :: _ =>
    next (match cases.find? (·.1 == v) with
      | some c => c.2
      | none => default)
  | _, _ => Run.halt

/-- Runs blocks from one of them on, up to `room` of them. -/
def Block.runFrom (answers : Answers) (blocks : List Block) : (room n : Nat) → Run
  | 0, _ => Run.halt
  | room + 1, n =>
    match blocks[n]? with
    | some b =>
      Insn.runAll answers (fun st => b.exit.run (Block.runFrom answers blocks room) st) b.insns []
    | none => Run.halt

/-- The run from a block on, if every block makes a call: then no more blocks than calls come up. -/
def Block.behaviour (answers : Answers) (blocks : List Block) (n : Nat) : Run := fun count asked =>
  Block.runFrom answers blocks (count + 1) n count asked

/-- The first calls of a method that makes one in each of its blocks. -/
def Method.calls (answers : Answers) (m : Method) (count : Nat) : List MethodRef :=
  (Block.behaviour answers m.blocks FlowGraph.entry).calls count

/-! ### Laws -/

section Laws

variable {answers : Answers} (k : Exits)

/-- No statements go on at once. -/
theorem Stmt.runAll_nil : Stmt.runAll answers [] k = k.onward := rfl

/-- The other statements follow the first one. -/
theorem Stmt.runAll_cons (s : Stmt) (ss : List Stmt) :
    Stmt.runAll answers (s :: ss) k
      = s.run answers { k with onward := Stmt.runAll answers ss k } := rfl

/-- The second list follows the first one. -/
theorem Stmt.runAll_append (ss ts : List Stmt) :
    Stmt.runAll answers (ss ++ ts) k
      = Stmt.runAll answers ss { k with onward := Stmt.runAll answers ts k } := by
  induction ss with
  | nil => rw [List.nil_append, runAll_nil]
  | cons s ss ih => rw [List.cons_append, runAll_cons, ih, runAll_cons]

/-- A list of one statement is that statement. -/
theorem Stmt.runAll_singleton (s : Stmt) : Stmt.runAll answers [s] k = s.run answers k := rfl

/-- A scope is run statement by statement. -/
theorem Scope.run_eq (s : Scope) : s.run answers k = Stmt.runAll answers s.stmts k := by
  cases s
  rfl

/-- A conditional runs one of its arms. -/
theorem Stmt.run_ifElse (cond : Cond) (body : Scope) (orElse : Option Scope) :
    (Stmt.ifElse cond body orElse).run answers k
      = cond.run answers (body.run answers k) (Scope.runIf answers orElse k) := by
  cases orElse with
  | none => rfl
  | some e => rfl

/-- A loop that tests first asks its condition before every round. -/
theorem Stmt.run_whileLoop (cond : Cond) (body : Scope) :
    (Stmt.whileLoop cond body).run answers k = Run.loop fun again =>
      cond.run answers (body.run answers ⟨again, k.onward, again⟩) k.onward := rfl

/-- A loop that tests last asks its condition behind every round, also behind one that a `continue`
    ends. -/
theorem Stmt.run_doWhile (cond : Cond) (body : Scope) :
    (Stmt.doWhile cond body).run answers k = Run.loop fun again =>
      body.run answers ⟨cond.run answers again k.onward, k.onward,
        Run.retest (cond.run answers again k.onward)⟩ := rfl

/-- A switch runs from the arm of its key on. -/
theorem Stmt.run_switch (key : Expr) (arms : List SwitchArm) :
    (Stmt.switch key arms).run answers k = key.ask answers fun v =>
      ArmRun.select (SwitchArm.runs answers arms { k with leave := k.onward }) v k.onward := rfl

/-- Behind an arm control leaves the switch if it breaks, and else runs into the next arm. -/
theorem SwitchArm.runs_cons (arm : SwitchArm) (arms : List SwitchArm) :
    SwitchArm.runs answers (arm :: arms) k
      = ⟨arm.labels, arm.isDefault, arm.body.run answers { k with
          onward := if arm.breaks then k.leave
            else ArmRun.first (SwitchArm.runs answers arms k) k.onward }⟩
        :: SwitchArm.runs answers arms k := by
  cases arm
  rfl

end Laws

end Restructure
