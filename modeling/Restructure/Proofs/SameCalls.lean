import Restructure.Proofs.Calls.Regions
import Restructure.Proofs.Fallback

namespace Restructure

/-!
# Same calls — what recovered code does, told by its calls

Let every block of a method call a method of its own, and ask a test where it has a choice. If the
recovered code needs no jumps to labels, it makes the calls of the blocks in their order, up to a
`continue` of a `do` loop: that goes to the condition of the loop, while control goes to the latch,
whose call is missed. So the calls are the same exactly as long as no such `continue` comes up.

* `Context.code_follows` — the code of a graph.
* `Method.recover_calls_iff` — the code of every method.
-/

namespace Context

variable {c : Context} {answers : Answers} {body : Scope}

open Pass

/-- A `return` at the end of a method does nothing. -/
theorem behaviour_of_trimmed (answers : Answers) {s s' : Scope}
    (h : Trimmed (.ret none) s.stmts s'.stmts) : s'.behaviour answers = s.behaviour answers := by
  rw [Scope.behaviour, Scope.behaviour, Scope.run_eq, Scope.run_eq]
  generalize s.stmts = us, s'.stmts = ts at h
  cases h with
  | last =>
    rw [Stmt.runAll_append]
    rfl
  | same => rfl

/-- Code without jumps to labels follows the graph. -/
theorem code_follows (hc : c.graph.Traced) (hbody : body.stmts = []) {labels : List Nat} :
    Ensures (c.code labels body) {} fun s p' => p'.targets = [] → ∀ i,
      Run.Follows i (s.behaviour answers) (c.graph.behaviour answers FlowGraph.entry) := by
  refine code_derives.imp fun s p' ⟨m, p, hregion, htail⟩ hnil i => ?_
  have htargets : p.targets = [] := List.subset_nil.1 (hnil ▸ htail.targets_subset)
  have htrimmed := (htail.trimmed fun n => hregion.written (.inr htargets)).2
  obtain ⟨_, us, hus, hcarries⟩ := (hregion.follows hc answers rfl).2.holds htargets
  have hus : m.scope.stmts = us := by
    rw [hus]
    show body.stmts ++ us = us
    rw [hbody, List.nil_append]
  have hsite : Site c [] none [] := ⟨Frames.sound_nil c [], fun _ hs => nomatch hs⟩
  have hclosed : c.Closed (fun _ => True) [] [] := .of_successors (fun _ _ _ _ => trivial) _ _
  -- no construct encloses the code, so there is nowhere to go
  rw [behaviour_of_trimmed answers htrimmed, Scope.behaviour, Scope.run_eq, hus]
  exact hcarries.follows hsite .entry trivial hclosed
    ⟨(fun _ hs => nomatch hs), (fun _ hs => nomatch hs), (fun _ hs => nomatch hs)⟩

/-- Structured code without jumps to labels follows the graph. -/
theorem structured_follows (answers : Answers) (hc : c.graph.Traced) (hbody : body.stmts = [])
    {r : Result}
    (h : c.structured body = .ok r) (hjumps : r.hasJumps = false) (i : Nat) :
    Run.Follows i (r.body.behaviour answers) (c.graph.behaviour answers FlowGraph.entry) := by
  obtain ⟨labels, hpass, _⟩ := exists_pass_of_passes h
  obtain ⟨p, hrun, hflag, _⟩ := pass_inv hpass
  refine code_follows hc hbody r.body p hrun ?_ i
  rw [hjumps] at hflag
  simpa using hflag.symm

end Context

namespace Method

variable {config : Config} {m : Method} {r : RecoveredBody}

/-- Every block calls a method, and asks a test if it has a choice. -/
def Traced (m : Method) : Prop := ∀ b ∈ m.blocks, b.Traced

/-- Code without jumps to labels makes the calls of the blocks, up to a `continue` of a `do` loop,
    which misses one. So the first calls are the same exactly if no such `continue` comes up before
    them. -/
theorem recover_calls_iff (hcode : m.isBodyless = false) (htraced : m.Traced)
    (h : m.recover config = .ok r) (hflag : r.fallback = false) (answers : Answers) (count : Nat) :
    Event.Agree (r.body.behaviour answers count 0)
        (Block.behaviour answers m.blocks FlowGraph.entry count 0) ∧
      (r.body.calls answers count = m.calls answers count ↔ ¬r.body.retests answers count) := by
  obtain ⟨_, _, h⟩ := Except.bind_eq_ok.1 h
  obtain ⟨locals, _, h⟩ := Except.bind_eq_ok.1 h
  rw [if_neg (by simp [hcode])] at h
  obtain ⟨graph, hgraph, h⟩ := Except.bind_eq_ok.1 h
  obtain ⟨⟨body, fallback⟩, hbody, h⟩ := Except.bind_eq_ok.1 h
  obtain ⟨body', hlock, h⟩ := Except.bind_eq_ok.1 h
  cases h
  obtain rfl : fallback = false := hflag
  -- the flag says that the structured code was taken, and that it has no jumps
  have hnodes : graph.graph.nodes = m.blocks := FlowGraph.nodes_of_ofBlocks hgraph
  have hc : graph.Traced := fun b hb => htraced b (hnodes ▸ hb)
  have hagree : Event.Agree (body'.behaviour answers count 0)
      (Block.behaviour answers m.blocks FlowGraph.entry count 0) := by
    unfold recoverGraph at hbody
    split at hbody
    · rename_i x hx
      obtain ⟨rfl, hjumps⟩ := Prod.mk.inj (Except.ok.inj hbody)
      have hfollows := Context.structured_follows (c := ⟨config, graph⟩) answers hc rfl hx
        hjumps count count (Nat.le_refl count) 0
      rw [← hnodes]
      unfold Scope.behaviour at hfollows ⊢
      rw [Scope.run_eq, Scope.stmts_of_lock hlock, ← Scope.run_eq]
      exact hfollows
    · split at hbody
      · obtain ⟨s, _, hs⟩ := Except.map_eq_ok.1 hbody
        cases hs
      · cases hbody
  exact ⟨hagree, hagree.calls_eq_iff⟩

/-! ### A latch that is passed over -/

/-- A method without a result, named for the place where it is called. -/
def placeOf (name : String) : MethodRef := ⟨"T", name, "()V"⟩

/-- A method that answers a question. -/
def questionOf (name : String) : MethodRef := ⟨"T", name, "()Z"⟩

/-- The call marks a block. -/
theorem placeOf_marks (name : String) : (placeOf name).Marks :=
  ⟨⟨[], Descriptor.void⟩, by
    simp [placeOf, MethodRef.parse, MethodType.parse, Descriptor.splitFields], rfl, rfl⟩

/-- The call asks a test. -/
theorem questionOf_asks (name : String) : (questionOf name).Asks :=
  ⟨⟨[], Descriptor.boolean⟩, by
    simp [questionOf, MethodRef.parse, MethodType.parse, Descriptor.splitFields]
    rfl, rfl, rfl⟩

/-- A `do` loop whose latch is reached from two arms that do not meet before it. -/
def passedOver : Method := ofBlocks
  [⟨[.invoke .static (placeOf "header"), .invoke .static (questionOf "left")],
      .branch (.zero .eq) 2 1⟩,
    ⟨[.invoke .static (placeOf "first")], .goto 3⟩,
    ⟨[.invoke .static (placeOf "second"), .invoke .static (questionOf "stays")],
      .branch (.zero .eq) 4 3⟩,
    ⟨[.invoke .static (placeOf "latch"), .invoke .static (questionOf "again")],
      .branch (.zero .ne) 0 5⟩,
    ⟨[.invoke .static (placeOf "early")], .ret⟩, ⟨[.invoke .static (placeOf "behind")], .ret⟩]

/-- All blocks of the graph are traced. -/
theorem passedOver_traced : passedOver.Traced := by
  intro b hb
  have hplace := placeOf_marks
  have hquestion := questionOf_asks
  simp only [passedOver, ofBlocks, List.mem_cons, List.not_mem_nil, or_false] at hb
  rcases hb with rfl | rfl | rfl | rfl | rfl | rfl
  · exact .branch (hplace _) (hquestion _)
  · exact .goto (hplace _)
  · exact .branch (hplace _) (hquestion _)
  · exact .branch (hplace _) (hquestion _)
  · exact .leave (hplace _) rfl
  · exact .leave (hplace _) rfl

/-- Control does not always follow the blocks: here the latch is passed over in the first round. -/
theorem passedOver_call_missed :
    passedOver.isBodyless = false ∧ passedOver.Traced ∧
      ∃ r, passedOver.recover {} = .ok r ∧ r.fallback = false ∧
        r.body.calls (fun _ => 1) 4
          = [placeOf "header", questionOf "left", placeOf "first", questionOf "again"] ∧
        passedOver.calls (fun _ => 1) 4
          = [placeOf "header", questionOf "left", placeOf "first", placeOf "latch"] ∧
        r.body.calls (fun _ => 1) 4 ≠ passedOver.calls (fun _ => 1) 4 := by
  have heval : (passedOver.recover {}).toOption.map
      (fun r => (r.fallback, r.body.calls (fun _ => 1) 4))
        = some (false,
          [placeOf "header", questionOf "left", placeOf "first", questionOf "again"]) := by
    decide +kernel
  obtain ⟨r, hr, h⟩ := exists_of_map_toOption heval
  obtain ⟨hflag, hcalls⟩ := Prod.mk.inj h
  have hblocks : passedOver.calls (fun _ => 1) 4
      = [placeOf "header", questionOf "left", placeOf "first", placeOf "latch"] := by
    decide +kernel
  refine ⟨rfl, passedOver_traced, r, hr, hflag, hcalls, hblocks, ?_⟩
  rw [hcalls, hblocks]
  decide

/-- With other answers the latch is not on the way, and the calls are the same. -/
theorem passedOver_calls_same :
    passedOver.isBodyless = false ∧ passedOver.Traced ∧ ∃ r, passedOver.recover {} = .ok r ∧
      r.fallback = false ∧ ¬r.body.retests (fun _ => 0) 9 ∧
        r.body.calls (fun _ => 0) 9 = passedOver.calls (fun _ => 0) 9 := by
  have heval : (passedOver.recover {}).toOption.map
      (fun r => (r.fallback, decide (.retest ∈ r.body.behaviour (fun _ => 0) 9 0)))
        = some (false, false) := by
    decide +kernel
  obtain ⟨r, hr, h⟩ := exists_of_map_toOption heval
  obtain ⟨hflag, hretests⟩ := Prod.mk.inj h
  have hretests : ¬r.body.retests (fun _ => 0) 9 := fun hmem =>
    of_decide_eq_false hretests hmem
  exact ⟨rfl, passedOver_traced, r, hr, hflag, hretests,
    (recover_calls_iff rfl passedOver_traced hr hflag (fun _ => 0) 9).2.2 hretests⟩

end Method

end Restructure
