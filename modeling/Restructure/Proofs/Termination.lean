import Restructure.Proofs.Fallback
import Restructure.Proofs.Outcomes
import Restructure.Proofs.Region.Nesting

namespace Restructure

/-!
# Termination — two passes are enough

A pass ends: neither the walk nor the search for conditional values ever comes to the bottom of its
depth. Where the first pass jumps without labels, the second one places labels, but jumps to the
same blocks and writes the same blocks behind the structured code. So a target that has no label
after the second pass had none after the first one, the label was asked for in vain, and there is no
third pass.

* `Context.unlabeled_subset` — labels that a later pass is missing were missing in the first one.
* `Context.passes_eq_twoPasses` — however many passes are allowed, there are no more than two.
* `Context.structuring_terminates` — all of this for one graph.
-/

open Pass

namespace Context

variable {c : Context} {body : Scope} {labels : List Nat}

/-! ### What the second pass places -/

/-- Behind code without labels no label is placed that would not be placed behind other code that
    has written the same blocks. -/
theorem Completes.placed_subset {s s' t t' : Scope} {p p' q q' : Progress}
    (h : c.Completes s p s' p') (h' : c.Completes t q t' q') (hpq : p.Agrees q)
    (hp : p.placed = []) : p'.placed ⊆ q'.placed := by
  cases h with
  | dropped _ _ =>
    rw [hp]
    exact List.nil_subset _
  | flat hrest hon _ =>
    have hsame : c.unwritten p = c.unwritten q := by rw [unwritten, unwritten, hpq.written]
    cases h' with
    | dropped hrest' _ =>
      rcases hrest' with hnone | hoff
      · exact absurd (hsame.trans hnone) hrest
      · exact absurd (hoff.symm.trans hon) Bool.false_ne_true
    | flat _ _ _ =>
      show (c.unwritten p).reverse ++ p.placed ⊆ (c.unwritten q).reverse ++ q.placed
      rw [hp, hsame, List.append_nil]
      exact List.subset_append_left _ _

/-- A pass without labels jumps where any other one jumps, and places what any other one places. -/
theorem code_placed_subset {s t t' : Scope} {p p' : Progress}
    (h : (c.code [] s).run {} = .ok (t, p)) (h' : (c.code labels s).run {} = .ok (t', p')) :
    p.targets = p'.targets ∧ p.placed ⊆ p'.placed := by
  refine ⟨(code_lockstep h h').targets, ?_⟩
  obtain ⟨m, q, hregion, htail⟩ := code_derives t p h
  obtain ⟨m', q', hregion', htail'⟩ := code_derives t' p' h'
  have htwin : Twin m.scope m'.scope q q' := hregion.lockstep hregion' ⟨⟨rfl, rfl⟩, rfl⟩
  exact htail.placed_subset htail' htwin.toAgrees (List.subset_nil.1 hregion.placed)

/-- A target that has no label behind a pass has none behind a pass without labels. -/
theorem unlabeled_subset {r r' : Result} (h : c.pass [] body = .ok r)
    (h' : c.pass labels body = .ok r') : r'.unlabeled ⊆ r.unlabeled := by
  obtain ⟨p, hp, -, hunlabeled⟩ := pass_inv h
  obtain ⟨q, hq, -, hunlabeled'⟩ := pass_inv h'
  obtain ⟨htargets, hplaced⟩ := code_placed_subset hp hq
  intro n hn
  rw [hunlabeled', List.mem_filter, ← htargets] at hn
  rw [hunlabeled, List.mem_filter]
  have hmissing : n ∉ q.placed := by simpa using hn.2
  exact ⟨hn.1, by simpa using fun hmem => hmissing (hplaced hmem)⟩

/-! ### Repeated passes -/

/-- One pass without labels, and another one with the labels that are missing behind it. -/
def twoPasses (c : Context) (body : Scope) : Except Error Result := do
  let r ← c.pass [] body
  if r.unlabeled.isEmpty then return r
  else do
    let r' ← c.pass r.unlabeled body
    if r'.unlabeled.isEmpty then return r' else throw (.unplacedLabels r'.unlabeled)

/-- The second pass is the last one. -/
theorem passes_of_unlabeled {r : Result} (h : c.pass [] body = .ok r) (fuel : Nat) :
    c.passes body (fuel + 1) r.unlabeled = (do
      let r' ← c.pass r.unlabeled body
      if r'.unlabeled.isEmpty then return r'
      else throw (.unplacedLabels r'.unlabeled)) := by
  rw [passes]
  cases h' : c.pass r.unlabeled body with
  | error e => rfl
  | ok r' =>
    have hall : r'.unlabeled.all r.unlabeled.contains = true :=
      List.all_eq_true.2 fun n hn => List.contains_iff_mem.2 (unlabeled_subset h h' hn)
    show (if r'.unlabeled.isEmpty then _ else if r'.unlabeled.all r.unlabeled.contains then _
      else _) = if r'.unlabeled.isEmpty then _ else _
    rw [if_pos hall]

/-- With at least two passes allowed there are one or two. -/
theorem passes_eq_twoPasses (c : Context) (body : Scope) {fuel : Nat} (hfuel : 2 ≤ fuel) :
    c.passes body fuel [] = c.twoPasses body := by
  obtain ⟨fuel, rfl⟩ : ∃ k, fuel = k + 2 := ⟨fuel - 2, by omega⟩
  rw [passes, twoPasses]
  cases h : c.pass [] body with
  | error e => rfl
  | ok r =>
    show (if r.unlabeled.isEmpty then _ else _) = if r.unlabeled.isEmpty then _ else _
    split
    · rfl
    · rename_i hempty
      -- no label has been placed so far, so the missing ones are new
      have hsome : r.unlabeled.all ([] : List Nat).contains = false := by
        rw [Bool.eq_false_iff]
        intro hall
        apply hempty
        cases hlist : r.unlabeled with
        | nil => rfl
        | cons n ns => simp [hlist] at hall
      have hnew : [] ++ r.unlabeled.filter (fun n => !([] : List Nat).contains n) = r.unlabeled :=
        List.filter_eq_self.2 fun _ _ => rfl
      rw [hsome, hnew]
      exact passes_of_unlabeled h fuel

/-- More passes are allowed than there are blocks, but two are enough. -/
theorem structured_eq_twoPasses (c : Context) (body : Scope) :
    c.structured body = c.twoPasses body := by
  apply passes_eq_twoPasses
  have hpos : 0 < c.graph.size := c.graph.nonempty
  omega

/-! ### Passes that end -/

/-- Structuring terminates. Every region has its code at the depth of the graph, and no more is
    found at any larger depth; the same is true of the arms of a conditional value, whose chain is
    written. Passes that succeed have the same targets, and there are no more than two. -/
theorem structuring_terminates (c : Context) (body : Scope) (hopen : body.locked = false) :
    (∀ labels fuel frames n stop m p, c.depth ≤ fuel → n < c.graph.size →
        m.scope.locked = false →
      (c.region labels fuel frames n stop m).run p
          = (c.region labels c.depth frames n stop m).run p ∧
        (c.region labels fuel frames n stop m).run p ≠ .error .nestedTooDeep) ∧
    (∀ scope eligible head n test chain p fuel arm, n < c.graph.size →
        (∀ k, k ∈ c.graph.successors n ↔ k = head.taken ∨ k = head.fallthrough) →
        BranchTest.fold c scope eligible head n = (test, chain) → chain ⊆ p.written →
        c.graph.size ≤ fuel → arm = test.taken ∨ arm = test.fallthrough →
      c.valueArmWithin? p scope fuel arm chain = c.valueArm? p scope arm chain) ∧
    (∀ labels, c.pass labels body ≠ .error .nestedTooDeep) ∧
    (∀ labels labels' s s' p p', (c.code labels body).run {} = .ok (s, p) →
      (c.code labels' body).run {} = .ok (s', p') → p.targets = p'.targets) ∧
    (∀ fuel, 2 ≤ fuel → c.passes body fuel [] = c.twoPasses body) ∧
    c.structured body = c.twoPasses body := by
  refine ⟨?_, ?_, ?_, ?_, fun fuel => passes_eq_twoPasses c body, structured_eq_twoPasses c body⟩
  · intro labels fuel frames n stop m p hfuel hn hm
    -- the stack may hold anything, so nothing is assumed of the blocks
    have hready : m.Ready False m.scope.kind [] := ⟨⟨hm, rfl⟩, False.elim⟩
    obtain ⟨heq, hgives⟩ := region_settles False.elim labels hfuel frames n stop m p m.scope.kind hn
      hready (remaining_lt_depth frames p.written)
    refine ⟨heq.symm, fun herror => ?_⟩
    rw [heq] at hgives
    exact (hgives.of_error herror).1.ne_nestedTooDeep rfl
  · intro scope eligible head n test chain p fuel arm hn hsucc hfold hwritten hfuel harm
    have hchain := BranchTest.fold_chained hfold hsucc
    exact valueArm_settles hchain hn (hwritten hchain.first_mem) harm hfuel
  · intro labels herror
    exact ((pass_gives False.elim ⟨hopen, rfl⟩ labels).of_error herror).1.ne_nestedTooDeep rfl
  · intro labels labels' s s' p p' hrun hrun'
    exact (code_lockstep hrun hrun').targets

end Context

namespace Method

/-- A conditional value, a cycle that is entered at two blocks, and a block that nothing leads
    to. -/
def winding : Method := ofBlocks
  [⟨[.load 0 "I"], .branch (.zero .eq) 1 2⟩, ⟨[.const (.int 1)], .goto 3⟩,
    ⟨[.const (.int 2)], .goto 3⟩, ⟨[.store 0 "I", .load 0 "I"], .branch (.zero .eq) 4 5⟩,
    ⟨[.load 1 "I"], .branch (.zero .eq) 5 6⟩, ⟨[.load 2 "I"], .branch (.zero .eq) 4 6⟩,
    ⟨[], .ret⟩, ⟨[], .ret⟩]

/-- It takes both passes, and no more depth than there is. -/
theorem winding_terminates :
    ∃ g, FlowGraph.ofBlocks winding.blocks = .ok g ∧ g.isReachable 7 = false ∧
      let c : Context := ⟨{}, g⟩
      let body := Scope.withLocals .method .empty
      let arm := c.valueArm? ⟨[], [0], none⟩ body 1 [0]
      body.locked = false ∧
        ((c.region [4, 5] 40 [] FlowGraph.entry none (.start body)).run {}
          = (c.region [4, 5] c.depth [] FlowGraph.entry none (.start body)).run {}) ∧
        (arm.isSome = true ∧ c.valueArmWithin? ⟨[], [0], none⟩ body 40 1 [0] = arm) ∧
        (c.pass [] body).toOption.map (·.unlabeled) = some [4, 5] ∧
        c.structured body = c.twoPasses body ∧
        (c.structured body).toOption.map (·.unlabeled) = some [] := by
  -- everything that is run is run at once, and the parts of the result are named afterwards
  have heval : (do
      let g ← FlowGraph.ofBlocks winding.blocks
      let c : Context := ⟨{}, g⟩
      let body := Scope.withLocals .method .empty
      let r ← c.pass [] body
      let r' ← c.structured body
      return (r.unlabeled, r'.unlabeled, g.isReachable 7,
        (c.valueArm? ⟨[], [0], none⟩ body 1 [0]).isSome)).toOption
          = some ([4, 5], [], false, true) := by decide +kernel
  obtain ⟨g, hg, h⟩ := Except.bind_eq_ok.1 (Except.eq_ok_of_toOption heval)
  obtain ⟨r, hr, h⟩ := Except.bind_eq_ok.1 h
  obtain ⟨r', hr', h⟩ := Except.bind_eq_ok.1 h
  obtain ⟨hfirst, h⟩ := Prod.mk.inj (Except.ok.inj h)
  obtain ⟨hlast, h⟩ := Prod.mk.inj h
  obtain ⟨hreach, harm⟩ := Prod.mk.inj h
  have hnodes := FlowGraph.nodes_of_ofBlocks hg
  have hsize : g.size = 8 := by
    show g.graph.nodes.length = 8
    rw [hnodes]
    rfl
  have hblock : g.block? 0 = some ⟨[.load 0 "I"], .branch (.zero .eq) 1 2⟩ := by
    show g.graph.nodes[0]? = _
    rw [hnodes]
    rfl
  have hsucc : ∀ k, k ∈ g.successors 0 ↔ k = 1 ∨ k = 2 := fun k => by
    rw [FlowGraph.mem_successors_of_block hblock, Terminator.mem_successors_branch, or_comm]
  obtain ⟨hregion, hvalue, -, -, -, htwo⟩ :=
    Context.structuring_terminates ⟨{}, g⟩ (.withLocals .method .empty) rfl
  refine ⟨g, hg, hreach, rfl, ?_, ⟨harm, ?_⟩, ?_, htwo, ?_⟩
  · have hdepth : Context.depth ⟨{}, g⟩ = 2 * g.size + 2 := rfl
    exact (hregion [4, 5] 40 [] FlowGraph.entry none _ {} (by omega) g.nonempty rfl).1
  · exact hvalue (.withLocals .method .empty) (fun _ => false) ⟨.always, 1, 2⟩ 0 ⟨.always, 1, 2⟩ [0]
      ⟨[], [0], none⟩ 40 1 g.nonempty hsucc rfl (List.Subset.refl _)
      (show g.size ≤ 40 by omega) (.inl rfl)
  · -- the first pass misses two labels, the second one none
    rw [hr]
    exact congrArg some hfirst
  · rw [hr']
    exact congrArg some hlast

end Method

end Restructure
