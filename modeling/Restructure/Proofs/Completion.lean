import Restructure.Proofs.Fallback
import Restructure.Proofs.Region.Endings

namespace Restructure

/-!
# Completion — recovered code that does not come to its end

The code of a method that returns a value must not come to its end. It does not, unless a plain
return lies behind a loop to which only unreachable blocks lead.

* `Context.structured_ended` — structured code without jumps to labels.
* `Method.closes_of_recover` — the code of a method.
* `Method.strayed` — a method whose unreachable blocks spoil the code of the others.
-/

namespace Context

variable {c : Context} {body : Scope} {r : Result}

open Pass

/-- Code without jumps to labels ends, and nothing is added behind it. -/
theorem code_ended {labels : List Nat}
    (hret : ∀ k b, c.graph.Attained k → c.graph.block? k = some b → b.exit ≠ .ret) :
    Ensures (c.code labels body) {} fun s p' => p'.targets = [] → Ended s.stmts := by
  have hentry : c.graph.Attained FlowGraph.entry :=
    .reached (c.graph.isReachable_iff.2 (.refl _ _))
  refine code_derives.imp fun s p' ⟨m, p, hregion, htail⟩ hnil => ?_
  have htargets : p.targets = [] := List.subset_nil.1 (hnil ▸ htail.targets_subset)
  have hended := hregion.ends hret ⟨rfl, rfl⟩ rfl hentry htargets
  exact hended.of_trimmed (htail.trimmed fun n => hregion.written (.inr htargets)).2

/-- Structured code without jumps to labels ends. -/
theorem structured_ended
    (hret : ∀ k b, c.graph.Attained k → c.graph.block? k = some b → b.exit ≠ .ret)
    (h : c.structured body = .ok r) (hflag : r.hasJumps = false) : Ended r.body.stmts := by
  obtain ⟨labels, hr, _⟩ := exists_pass_of_passes h
  obtain ⟨p, hrun, hjumps, _⟩ := pass_inv hr
  refine code_ended hret r.body p hrun ?_
  rw [hflag] at hjumps
  simpa using hjumps.symm

end Context

namespace Method

variable {config : Config} {m : Method} {r : RecoveredBody}

/-- Control does not come to the end of code without labels and jumps, if no block whose code may be
    written has a plain return. -/
theorem closes_of_recover (hcode : m.isBodyless = false)
    (hret : ∀ g, FlowGraph.ofBlocks m.blocks = .ok g →
      ∀ n b, g.Attained n → m.blocks[n]? = some b → b.exit ≠ .ret)
    (h : m.recover config = .ok r) (hflag : r.fallback = false) : r.body.closes = true := by
  obtain ⟨_, _, h⟩ := Except.bind_eq_ok.1 h
  obtain ⟨locals, _, h⟩ := Except.bind_eq_ok.1 h
  rw [hcode] at h
  obtain ⟨graph, hgraph, h⟩ := Except.bind_eq_ok.1 h
  obtain ⟨⟨body, fallback⟩, hrecover, h⟩ := Except.bind_eq_ok.1 h
  obtain ⟨body', hlock, h⟩ := Except.bind_eq_ok.1 h
  cases h
  obtain rfl : fallback = false := hflag
  have hret : ∀ n b, graph.Attained n → graph.block? n = some b → b.exit ≠ .ret := by
    intro n b hn hb
    refine hret graph hgraph n b hn ?_
    rw [← FlowGraph.nodes_of_ofBlocks hgraph]
    exact hb
  have hended : Ended body.stmts := by
    unfold recoverGraph at hrecover
    split at hrecover
    · rename_i r hr
      obtain ⟨rfl, hjumps⟩ := Prod.mk.inj (Except.ok.inj hrecover)
      exact Context.structured_ended hret hr hjumps
    · split at hrecover
      · obtain ⟨s, _, hs⟩ := Except.map_eq_ok.1 hrecover
        cases hs
      · cases hrecover
  refine Ended.closes ?_
  rw [Scope.stmts_of_lock hlock]
  exact hended

/-- A loop that is never left, in front of a switch whose arms return. -/
def answered : Method :=
  { ofBlocks
      [⟨[.load 0 "I"], .branch (.zero .eq) 1 2⟩, ⟨[.increment 0 1], .goto 1⟩,
        ⟨[.load 0 "I"], .switch [(1, 3)] 4⟩, ⟨[.const (.int 7)], .retValue⟩,
        ⟨[.load 0 "I"], .retValue⟩] with
    descriptor := "(I)I" }

/-- The code ends with a switch that closes, as all of its arms return. -/
theorem answered_closes :
    ∃ r, answered.recover {} = .ok r ∧ r.fallback = false ∧ r.body.closes = true := by
  have heval : (answered.recover {}).toOption.map (·.fallback) = some false := by decide +kernel
  obtain ⟨r, hr, hflag⟩ := exists_of_map_toOption heval
  have hret : ∀ b ∈ answered.blocks, b.exit ≠ .ret := by decide
  exact ⟨r, hr, hflag, closes_of_recover rfl
    (fun _ _ _ b _ hb => hret b (List.mem_of_getElem? hb)) hr hflag⟩

/-- Two loops, the second one never left. The last four blocks are unreachable; two of them lead
    into the loops, and the return is behind both. -/
def strayed : Method :=
  { ofBlocks
      [⟨[.const (.int 1), .store 1 "I", .load 0 "I"], .branch (.zero .eq) 2 1⟩,
        ⟨[.const (.int 1), .store 2 "I"], .goto 0⟩, ⟨[.const (.int 1), .store 0 "I"], .goto 3⟩,
        ⟨[], .goto 2⟩, ⟨[.load 0 "I"], .branch (.zero .eq) 3 5⟩, ⟨[], .goto 7⟩,
        ⟨[.load 0 "I"], .branch (.zero .eq) 1 5⟩, ⟨[], .ret⟩] with
    descriptor := "(III)I" }

/-- No reachable block has a plain return, and still control comes to the end of the code. -/
theorem strayed_completes :
    strayed.isBodyless = false ∧
      (∃ g, FlowGraph.ofBlocks strayed.blocks = .ok g ∧
        ∀ n b, g.isReachable n = true → strayed.blocks[n]? = some b → b.exit ≠ .ret) ∧
      ∃ r, strayed.recover {} = .ok r ∧ r.fallback = false ∧ r.body.closes = false := by
  have hgraph : (FlowGraph.ofBlocks strayed.blocks).toOption.map (fun g =>
      decide (∀ p ∈ strayed.blocks.zipIdx, g.isReachable p.2 = true → p.1.exit ≠ .ret))
        = some true := by decide +kernel
  have heval : (strayed.recover {}).toOption.map (fun r => (r.fallback, r.body.closes))
      = some (false, false) := by decide +kernel
  obtain ⟨g, hg, hret⟩ := exists_of_map_toOption hgraph
  obtain ⟨r, hr, h⟩ := exists_of_map_toOption heval
  obtain ⟨hflag, hcloses⟩ := Prod.mk.inj h
  refine ⟨rfl, ⟨g, hg, fun n b hn hb => ?_⟩, r, hr, hflag, hcloses⟩
  exact of_decide_eq_true hret (b, n) (List.mem_zipIdx_iff_getElem?.2 hb) hn

end Method

end Restructure
