import Restructure.Proofs.Labels
import Restructure.Proofs.Region.Coverage
import Restructure.Proofs.Region.Lockstep

namespace Restructure

/-!
# The fallback flag — set exactly for code with labels or jumps

* `Context.code_settled` — code without jumps to labels has only the labels that were asked for.
* `Context.structured_flag`, `Context.flatten_labels` — structured code and flat code.
* `Context.structured_quiet`, `Method.recover_quiet` — without fallbacks the flag is never set.
* `Method.fallback_iff` — the code of every method.
-/

namespace Context

variable {c : Context} {body : Scope} {r : Result}

open Pass

/-! ### Passes -/

/-- Code without jumps to labels has only the labels that were asked for. -/
theorem code_settled {labels : List Nat} :
    Ensures (c.code labels body) {} fun _ p' => p'.targets = [] → p'.placed ⊆ labels := by
  refine code_derives.imp fun s p' ⟨m, p, hregion, htail⟩ hnil => ?_
  have hsettled : Settled c p := (Settled.of_subset (.inr hnil) htail.targets_subset)
  obtain ⟨rfl, -⟩ := htail.trimmed fun n => hregion.written hsettled
  exact hregion.placed

/-- Without fallbacks code has no jumps to labels. -/
theorem code_quiet (hf : c.config.fallback = false) {labels : List Nat} :
    Ensures (c.code labels body) {} fun _ p' => p'.targets = [] := by
  refine code_derives.imp fun s p' ⟨m, p, hregion, htail⟩ => ?_
  obtain ⟨rfl, -⟩ := htail.trimmed fun n => hregion.written (.inl hf)
  exact hregion.quiet hf

/-- The first of repeated passes succeeds, and it is the last one unless it has jumps. -/
theorem first_of_structured (h : c.structured body = .ok r) :
    ∃ r₁, c.pass [] body = .ok r₁ ∧ (r₁.unlabeled = [] → r = r₁) := by
  obtain ⟨r₁, hr₁, h⟩ := Except.bind_eq_ok.1 h
  refine ⟨r₁, hr₁, fun hempty => ?_⟩
  rw [hempty] at h
  cases h
  rfl

/-- Structured code has labels or jumps exactly if it says so. -/
theorem structured_flag (hs : body.stmts = []) (h : c.structured body = .ok r) :
    r.hasJumps = false ↔ r.body.labels = [] ∧ r.body.jumps = [] := by
  obtain ⟨labels, hr, hunlabeled⟩ := exists_pass_of_passes h
  obtain ⟨r₁, hr₁, hfirst⟩ := first_of_structured h
  obtain ⟨p, hrun, hflag, hmissing⟩ := pass_inv hr
  obtain ⟨p₁, hrun₁, hflag₁, hmissing₁⟩ := pass_inv hr₁
  have hplaced := code_placed hs r.body p hrun
  have hagree := code_lockstep hrun hrun₁
  have hcount : ∀ n, r.body.labels.count n = p.placed.count n := fun n => by
    rw [Scope.labels_count, hplaced.placed]
    simp
  constructor
  · intro hfalse
    have hnil : p.targets = [] := by
      rw [hflag] at hfalse
      simpa using hfalse
    -- so the first pass had no jumps either, and was the only one
    have hnil₁ : p₁.targets = [] := hagree.targets ▸ hnil
    obtain rfl := hfirst (by rw [hmissing₁, hnil₁]; rfl)
    refine ⟨List.eq_nil_iff_forall_not_mem.2 fun n hn => ?_,
      List.eq_nil_iff_forall_not_mem.2 fun n hn => ?_⟩
    · have hplaced₁ := code_placed hs r.body p₁ hrun₁
      have hn₁ : n ∈ p₁.placed := by
        have h₁ := hplaced₁.placed n
        rw [← Scope.labels_count] at h₁
        have h₂ := List.count_pos_iff.2 hn
        refine List.count_pos_iff.1 ?_
        simp only [List.count_nil] at h₁
        omega
      exact List.not_mem_nil (code_settled r.body p₁ hrun₁ hnil₁ hn₁)
    · have := hplaced.jumps n (by rw [← Scope.jumps_count]; exact List.count_pos_iff.2 hn)
      rw [hnil] at this
      exact List.not_mem_nil this
  · rintro ⟨hlabels, -⟩
    by_contra htrue
    have hne : p.targets ≠ [] := by
      rw [hflag] at htrue
      simpa using htrue
    obtain ⟨n, hn⟩ := List.exists_mem_of_ne_nil _ hne
    -- a target that has no label would be missing, and then there would be another pass
    have hmem : n ∈ p.placed := by
      by_contra hnot
      have : n ∈ p.targets.filter fun n => !p.placed.contains n :=
        List.mem_filter.2 ⟨hn, by simpa using hnot⟩
      rw [← hmissing, hunlabeled] at this
      exact List.not_mem_nil this
    have := hcount n
    rw [hlabels] at this
    have := List.count_pos_iff.2 hmem
    simp only [List.count_nil] at *
    omega

/-- Without fallbacks structured code never says that it has jumps. -/
theorem structured_quiet (hf : c.config.fallback = false) (h : c.structured body = .ok r) :
    r.hasJumps = false := by
  obtain ⟨labels, hr, _⟩ := exists_pass_of_passes h
  obtain ⟨p, hrun, hflag, _⟩ := pass_inv hr
  have hnil : p.targets = [] := code_quiet hf r.body p hrun
  rw [hflag, hnil]
  rfl

/-- Flat code begins with the label of the entry. -/
theorem flatten_labels {scope : Scope} (hs : scope.stmts = []) (h : c.flatten scope = .ok body) :
    body.labels ≠ [] := by
  obtain ⟨targets, hblocks⟩ := flattens_of_flatten h
  obtain ⟨⟨k, hk, hflat⟩, _⟩ := hblocks.marks
  rw [hs, Stmt.marks_nil, Marks.zero_add] at hk
  have hentry : FlowGraph.entry ∈ c.reachableBlocks :=
    mem_reachableBlocks.2 (c.graph.isReachable_iff.2 (.refl _ _))
  intro hnil
  have hcount : body.labels.count FlowGraph.entry = c.reachableBlocks.count FlowGraph.entry := by
    rw [Scope.labels_count, hk, hflat.labels]
  rw [hnil, List.count_nil] at hcount
  exact List.count_eq_zero.1 hcount.symm hentry

end Context

namespace Method

variable {config : Config} {m : Method} {r : RecoveredBody}

/-- The code of a graph is structured exactly if it has no labels and no jumps to any. -/
theorem recoverGraph_flag {c : Context} {start body : Scope} {fallback : Bool}
    (hs : start.stmts = []) (h : recoverGraph c start = .ok (body, fallback)) :
    fallback = false ↔ body.labels = [] ∧ body.jumps = [] := by
  unfold recoverGraph at h
  split at h
  · rename_i r hr
    cases h
    exact Context.structured_flag hs hr
  · split at h
    · obtain ⟨s, hflat, h⟩ := Except.map_eq_ok.1 h
      cases h
      exact ⟨fun hfalse => Bool.noConfusion hfalse,
        fun hnil => absurd hnil.1 (Context.flatten_labels hs hflat)⟩
    · cases h

/-- Without fallbacks no code is said to need labels and jumps. -/
theorem recoverGraph_quiet {c : Context} {start body : Scope} {fallback : Bool}
    (hf : c.config.fallback = false) (h : recoverGraph c start = .ok (body, fallback)) :
    fallback = false := by
  unfold recoverGraph at h
  split at h
  · rename_i r hr
    cases h
    exact Context.structured_quiet hf hr
  · split at h
    · rename_i hon
      exact Bool.noConfusion (hon.2.symm.trans hf)
    · cases h

/-- Without fallbacks no recovery falls back. -/
theorem recover_quiet (hf : config.fallback = false) (h : m.recover config = .ok r) :
    r.fallback = false := by
  obtain ⟨_, _, h⟩ := Except.bind_eq_ok.1 h
  obtain ⟨locals, _, h⟩ := Except.bind_eq_ok.1 h
  split at h
  · obtain ⟨body, _, h⟩ := Except.bind_eq_ok.1 h
    cases h
    rfl
  · obtain ⟨graph, _, h⟩ := Except.bind_eq_ok.1 h
    obtain ⟨⟨body, fallback⟩, hgraph, h⟩ := Except.bind_eq_ok.1 h
    obtain ⟨body', _, h⟩ := Except.bind_eq_ok.1 h
    cases h
    have hconfig : (Context.mk config graph).config.fallback = false := hf
    exact recoverGraph_quiet hconfig hgraph

/-- Code that is said to need no labels and jumps has none at any depth, and code that is said to
    need them has some. -/
theorem fallback_iff (h : m.recover config = .ok r) :
    r.fallback = false ↔ r.body.labels = [] ∧ r.body.jumps = [] := by
  obtain ⟨_, _, h⟩ := Except.bind_eq_ok.1 h
  obtain ⟨locals, _, h⟩ := Except.bind_eq_ok.1 h
  split at h
  · obtain ⟨body, hlock, h⟩ := Except.bind_eq_ok.1 h
    cases h
    have hstmts : body.stmts = [] := Scope.stmts_of_lock hlock
    have hnodes : body.nodes = [] := by
      rw [Scope.nodes_eq, hstmts]
      rfl
    simp [Scope.labels, Scope.jumps, hnodes]
  · obtain ⟨graph, _, h⟩ := Except.bind_eq_ok.1 h
    obtain ⟨⟨body, fallback⟩, hgraph, h⟩ := Except.bind_eq_ok.1 h
    obtain ⟨body', hlock, h⟩ := Except.bind_eq_ok.1 h
    cases h
    have hflag := recoverGraph_flag rfl hgraph
    simp only [Scope.labels, Scope.jumps, Scope.nodes_eq, Scope.stmts_of_lock hlock] at hflag ⊢
    exact hflag

/-- A conditional inside a loop, both of them structured. -/
def looped : Method := ofBlocks
  [⟨[.load 0 "I"], .branch (.zero .eq) 4 1⟩, ⟨[.load 1 "I"], .branch (.zero .eq) 3 2⟩,
    ⟨[.increment 1 1], .goto 3⟩, ⟨[.increment 0 (-1)], .goto 0⟩, ⟨[], .ret⟩]

/-- A loop is structured, and a cycle that is entered at two blocks is not. -/
theorem looped_and_crossed_fallback :
    (∃ r, looped.recover {} = .ok r ∧ r.fallback = false ∧ r.body.labels = [] ∧ r.body.jumps = []) ∧
      ∃ r, crossed.recover {} = .ok r ∧ r.fallback = true ∧
        ¬(r.body.labels = [] ∧ r.body.jumps = []) := by
  have hlooped : (looped.recover {}).toOption.map (·.fallback) = some false := by decide +kernel
  have hcrossed : (crossed.recover {}).toOption.map (·.fallback) = some true := by decide +kernel
  obtain ⟨r, hr, hfalse⟩ := exists_of_map_toOption hlooped
  obtain ⟨r', hr', htrue⟩ := exists_of_map_toOption hcrossed
  refine ⟨⟨r, hr, hfalse, (fallback_iff hr).1 hfalse⟩, r', hr', htrue, fun hnil => ?_⟩
  have hfalse' := (fallback_iff hr').2 hnil
  rw [htrue] at hfalse'
  cases hfalse'

end Method

end Restructure
