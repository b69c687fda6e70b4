import Restructure.Proofs.Region.Forms

namespace Restructure

/-!
# Nesting — conditional values are never nested too deeply

An arm of a conditional value may branch again, and its branch may be a conditional value, too. The
chains of these branches are disjoint: an arm is entered only from the chain around it, while every
block of the chains further outside is written or entered from there. So there are no more of them
than blocks.

* `Nesting` — the blocks of a chain, and those of the chains around it.
* `Context.valueArmWithin_settles` — searching deeper than there are blocks finds nothing more.
-/

/-- The blocks of a chain that begins at `first`, within chains of the blocks `outer`. Each block is
    written or is entered from the chains. -/
structure Nesting (c : Context) (written outer : List Nat) (first : Nat) (chain : List Nat) :
    Prop where
  nodup : (outer ++ chain).Nodup
  bounded : ∀ k ∈ outer ++ chain, k < c.graph.size
  outer_led : ∀ k ∈ outer, k ∈ written ∨ ∃ j ∈ outer, k ∈ c.graph.successors j
  first_mem : first ∈ chain
  first_led : first ∈ written ∨ ∃ j ∈ outer, first ∈ c.graph.successors j
  chain_led : ∀ k ∈ chain, k ≠ first → ∃ j ∈ chain, k ∈ c.graph.successors j

/-- The block may begin an arm of the branch that ends the chain. -/
structure Context.Left (c : Context) (first : Nat) (chain : List Nat) (n : Nat) : Prop where
  outside : n ∉ chain ∨ n = first
  led : ∃ k ∈ chain, n ∈ c.graph.successors k

section Chains

variable {c : Context} {scope : Scope} {eligible : Nat → Bool} {first n : Nat}
  {head test : BranchTest} {chain seen : List Nat}

/-- Every block of a chain but the first one is entered from the chain. -/
theorem Chained.exists_led (h : Chained c scope eligible first test chain) {k : Nat}
    (hk : k ∈ chain) (hne : k ≠ first) : ∃ j ∈ chain, k ∈ c.graph.successors j := by
  have hled : ∀ k ∈ chain, k = first ∨ ∃ j ∈ chain, k ∈ c.graph.successors j :=
    h.spread _ (.inl rfl) fun j hj _ m hm => .inr ⟨j, hj, hm⟩
  exact (hled k hk).resolve_left hne

/-- A chain consists of blocks of the graph. -/
theorem Chained.lt_size (h : Chained c scope eligible first test chain)
    (hfirst : first < c.graph.size) : ∀ k ∈ chain, k < c.graph.size :=
  h.spread _ hfirst fun _ _ _ _ hm => c.graph.lt_of_successor hm

/-- The targets of the test lie behind the chain. -/
theorem Chained.leaves (h : Chained c scope eligible first test chain)
    (hn : n = test.taken ∨ n = test.fallthrough) : c.Left first chain n :=
  ⟨h.outside n hn, h.left n hn⟩

/-- A folded chain takes in none of the blocks seen before: those that it might take in are entered
    from blocks seen before. -/
theorem BranchTest.fold_disjoint (hfold : head.fold c scope eligible n = (test, chain))
    (hn : n ∉ seen)
    (hled : ∀ k ∈ seen, eligible k = true → ∃ j ∈ seen, k ∈ c.graph.successors j) :
    ∀ k ∈ chain, k ∉ seen := by
  refine fold_induction (motive := fun _ chain => ∀ k ∈ chain, k ∉ seen) hfold ?_ ?_
  · intro k hk
    rw [List.mem_singleton.1 hk]
    exact hn
  · intro head longer chain j hchain hext k hk
    obtain ⟨_, _, hjoin, -⟩ := extension_inv hext
    rcases List.mem_append.1 hk with hk | hk
    · exact hchain k hk
    · obtain rfl := List.mem_singleton.1 hk
      intro hseen
      obtain ⟨i, hi, hleads⟩ := hled k hseen (Chained.eligible_of_joinable hjoin)
      exact hchain i (Chained.mem_of_joinable hjoin (Chained.mem_predecessors_iff.2 hleads)) hi

end Chains

namespace Nesting

variable {c : Context} {scope : Scope} {eligible : Nat → Bool} {first n : Nat}
  {head test : BranchTest} {W outer chain inner : List Nat}

/-- The chain of a branch that is written here. -/
theorem start (h : Chained c scope eligible first test chain) (hfirst : first < c.graph.size)
    (hW : first ∈ W) : Nesting c W [] first chain where
  nodup := h.nodup
  bounded := h.lt_size hfirst
  outer_led _ hk := absurd hk List.not_mem_nil
  first_mem := h.first_mem
  first_led := .inl hW
  chain_led _ hk hne := h.exists_led hk hne

/-- Every block of the chains is written or entered from the chains. -/
theorem led (h : Nesting c W outer first chain) :
    ∀ k ∈ outer ++ chain, k ∈ W ∨ ∃ j ∈ outer ++ chain, k ∈ c.graph.successors j := by
  intro k hk
  have houter : ∀ {k}, (k ∈ W ∨ ∃ j ∈ outer, k ∈ c.graph.successors j) →
      k ∈ W ∨ ∃ j ∈ outer ++ chain, k ∈ c.graph.successors j := fun hled =>
    hled.imp_right fun ⟨j, hj, hleads⟩ => ⟨j, List.mem_append_left _ hj, hleads⟩
  rcases List.mem_append.1 hk with hk | hk
  · exact houter (h.outer_led k hk)
  · by_cases hne : k = first
    · exact hne ▸ houter h.first_led
    · obtain ⟨j, hj, hleads⟩ := h.chain_led k hk hne
      exact .inr ⟨j, List.mem_append_right _ hj, hleads⟩

/-- There are no more blocks in the chains than in the graph. -/
theorem length_le (h : Nesting c W outer first chain) :
    outer.length + chain.length ≤ c.graph.size := by
  have hsub : outer ++ chain ⊆ List.range c.graph.size := fun k hk =>
    List.mem_range.2 (h.bounded k hk)
  have hle := (h.nodup.subperm hsub).length_le
  rwa [List.length_append, List.length_range] at hle

/-- An arm that is entered from the chain alone begins behind all the chains. -/
theorem not_mem (h : Nesting c W outer first chain) (hn : n ∉ W) (hleft : c.Left first chain n)
    (honly : ∀ j, n ∈ c.graph.successors j → j ∈ chain) : n ∉ outer ++ chain := by
  have hdisjoint : ∀ j ∈ outer, j ∉ chain := fun j hj hj' =>
    (List.nodup_append.1 h.nodup).2.2 j hj j hj' rfl
  -- what is entered from further outside is not entered from the chain alone
  have hled : (n ∈ W ∨ ∃ j ∈ outer, n ∈ c.graph.successors j) → False := by
    rintro (hW | ⟨j, hj, hleads⟩)
    · exact hn hW
    · exact hdisjoint j hj (honly j hleads)
  intro hmem
  rcases List.mem_append.1 hmem with hmem | hmem
  · exact hled (h.outer_led n hmem)
  · rcases hleft.outside with hout | rfl
    · exact hout hmem
    · exact hled h.first_led

/-- The chain of a branch that ends an arm. -/
theorem push (h : Nesting c W outer first chain) (hn : n ∉ outer ++ chain)
    (hleft : c.Left first chain n) (hfold : head.fold c scope eligible n = (test, inner))
    (hinner : Chained c scope eligible n test inner)
    (heligible : ∀ k, eligible k = true → k ∉ W) : Nesting c W (outer ++ chain) n inner := by
  obtain ⟨k, hk, hleads⟩ := hleft.led
  have hlt : n < c.graph.size := c.graph.lt_of_successor hleads
  have hdisjoint := BranchTest.fold_disjoint hfold hn fun j hj hej =>
    (h.led j hj).resolve_left (heligible j hej)
  exact {
    nodup := List.nodup_append.2 ⟨h.nodup, hinner.nodup, fun j hj i hi heq =>
      hdisjoint i hi (heq ▸ hj)⟩
    bounded := fun j hj => by
      rcases List.mem_append.1 hj with hj | hj
      · exact h.bounded j hj
      · exact hinner.lt_size hlt j hj
    outer_led := h.led
    first_mem := hinner.first_mem
    first_led := .inr ⟨k, List.mem_append_right _ hk, hleads⟩
    chain_led := fun j hj hne => hinner.exists_led hj hne }

end Nesting

namespace Context

variable {c : Context} {p : Position} {scope : Scope}

/-- Deeper than there are blocks outside of the chains no arm is searched. -/
theorem valueArmWithin_settles {fuel fuel' first n : Nat} {outer chain : List Nat}
    (hle : fuel ≤ fuel') (h : Nesting c p.written outer first chain)
    (hleft : c.Left first chain n)
    (hbound : c.graph.size < outer.length + chain.length + fuel) :
    c.valueArmWithin? p scope fuel n chain = c.valueArmWithin? p scope fuel' n chain := by
  induction fuel generalizing fuel' first n outer chain with
  | zero =>
    -- the chains would hold more blocks than there are
    have hle := h.length_le
    omega
  | succ fuel ih =>
    obtain ⟨fuel', rfl⟩ : ∃ k, fuel' = k + 1 := ⟨fuel' - 1, by omega⟩
    rw [valueArmWithin?, valueArmWithin?]
    split
    · rename_i henters
      obtain ⟨hplain, honly⟩ := Bool.and_eq_true_iff.1 henters
      have hunwritten : ∀ k, c.entersPlain p k = true → k ∉ p.written := fun k hk =>
        not_mem_written_of_enter (eq_of_beq (Bool.and_eq_true_iff.1 hk).1)
      have honly : ∀ j, n ∈ c.graph.successors j → j ∈ chain := fun j hj =>
        List.contains_iff_mem.1
          (List.all_eq_true.1 honly j (Chained.mem_predecessors_iff.2 hj))
      have hnew := h.not_mem (hunwritten n hplain) hleft honly
      congr 1
      funext b
      split
      · rfl
      · cases hhead : c.pureTest n scope with
        | none => rfl
        | some head =>
          have hfold := (Prod.eta (head.fold c scope (c.entersPlain p) n)).symm
          have hinner := BranchTest.fold_chained hfold fun m => mem_successors_of_pureTest hhead
          have hpush := h.push hnew hleft hfold hinner hunwritten
          -- the chain of the arm adds a block at least
          have hpos := List.length_pos_of_mem hinner.first_mem
          have harm : ∀ m, c.Left n _ m → c.valueArmWithin? p scope fuel m _
              = c.valueArmWithin? p scope fuel' m _ := fun m hm =>
            ih (Nat.le_of_succ_le_succ hle) hpush hm (by rw [List.length_append]; omega)
          simp only [Option.bind_eq_bind, Option.bind_some, harm _ (hinner.leaves (.inl rfl)),
            harm _ (hinner.leaves (.inr rfl))]
      · rfl
    · rfl

/-- The search for a conditional value is as deep as the graph has blocks, which is enough: the
    chain of the branch is written. -/
theorem valueArm_settles {eligible : Nat → Bool} {first n fuel : Nat} {test : BranchTest}
    {chain : List Nat} (h : Chained c scope eligible first test chain)
    (hfirst : first < c.graph.size) (hW : first ∈ p.written)
    (hn : n = test.taken ∨ n = test.fallthrough) (hfuel : c.graph.size ≤ fuel) :
    c.valueArmWithin? p scope fuel n chain = c.valueArm? p scope n chain := by
  have hpos : 0 < chain.length := List.length_pos_of_mem h.first_mem
  have hnesting := Nesting.start h hfirst hW
  have hsize : c.valueArmWithin? p scope c.graph.size n chain
      = c.valueArmWithin? p scope fuel n chain := by
    apply valueArmWithin_settles hfuel hnesting (h.leaves hn)
    rw [List.length_nil]
    omega
  have hsucc : c.valueArmWithin? p scope c.graph.size n chain = c.valueArm? p scope n chain := by
    apply valueArmWithin_settles (Nat.le_succ _) hnesting (h.leaves hn)
    rw [List.length_nil]
    omega
  rw [← hsize, hsucc]

end Context

end Restructure
