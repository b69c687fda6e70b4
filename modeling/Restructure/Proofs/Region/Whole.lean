import Restructure.Proofs.Region.Derivations
import Restructure.Proofs.Region.Placed

namespace Restructure

/-!
# Whole code — what the code of a graph consists of

The structured code of a graph is that of a region, with what only jumps lead to behind it. The
blocks there, and all blocks where there is no structured code, are written flat.

* `Context.Flattens` — blocks written as flat code.
* `Context.Completes` — what becomes of structured code at its end.
* `Context.code_derives`, `Context.structured_derives` — the code of a pass, and of the last of
  them.
-/

namespace Context

open Pass

variable {c : Context}

/-! ### Reachable blocks -/

/-- Each reachable block is listed once. -/
theorem reachableBlocks_nodup : c.reachableBlocks.Nodup :=
  List.nodup_range.filter _

/-- The list of the reachable blocks holds these and no others. -/
theorem mem_reachableBlocks {n : Nat} : n ∈ c.reachableBlocks ↔ c.graph.isReachable n = true := by
  unfold reachableBlocks
  rw [List.mem_filter, List.mem_range]
  refine ⟨fun h => h.2, fun h => ⟨?_, h⟩⟩
  exact ((c.graph.isReachable_iff).1 h).lt c.graph.links_lawful c.graph.nonempty

/-- The reachable blocks that have not been written. -/
def unwritten (c : Context) (p : Progress) : List Nat :=
  c.reachableBlocks.filter fun n => !p.written.contains n

/-- Each of them is listed once. -/
theorem unwritten_nodup {p : Progress} : (c.unwritten p).Nodup := reachableBlocks_nodup.filter _

/-- What it takes to be among them. -/
theorem mem_unwritten {n : Nat} {p : Progress} :
    n ∈ c.unwritten p ↔ c.graph.isReachable n = true ∧ n ∉ p.written := by
  simp [unwritten, mem_reachableBlocks]

/-! ### Flat code -/

/-- Statements added one by one stand behind the others. -/
theorem stmts_of_appendAll {s s' : Scope} {ss : List Stmt} (h : appendAll s ss = .ok s') :
    s'.stmts = s.stmts ++ ss := by
  induction ss generalizing s with
  | nil =>
    cases h
    simp
  | cons t ss ih =>
    unfold appendAll at h ih
    rw [List.foldlM_cons] at h
    obtain ⟨s₁, hs₁, h⟩ := Except.bind_eq_ok.1 h
    rw [ih h, Scope.stmts_of_append hs₁, List.append_assoc, List.singleton_append]

/-- Blocks are written as flat code from the scope `s` to `s'`, with jumps to `targets`: for each of
    them a label, what its instructions write, and jumps that leave no values. -/
inductive Flattens (c : Context) :
    (ns : List Nat) → (s s' : Scope) → (targets : List Nat) → Prop
  | nil {s : Scope} : Flattens c [] s s []
  | cons {n : Nat} {ns targets : List Nat} {b : Block} {m : Simulation} {jumps : List Stmt}
      {s s₁ s₂ s' : Scope} (hb : c.graph.block? n = some b)
      (hlabel : s.append (.label n) = .ok s₁)
      (hrun : Simulation.run c.config (.start s₁) b.insns = .ok m)
      (hexit : flatExit n b.exit m.stack = .ok (jumps, []))
      (hjumps : appendAll m.scope jumps = .ok s₂) (hrest : Flattens c ns s₂ s' targets) :
      Flattens c (n :: ns) s s' (b.exit.successors ++ targets)

/-- Flat code is written block by block. By induction on the blocks. -/
theorem flattens_of_flatBlocks {ns targets : List Nat} {s s' : Scope}
    (h : c.flatBlocks s ns = .ok (s', targets)) : c.Flattens ns s s' targets := by
  induction ns generalizing s targets with
  | nil =>
    cases h
    exact .nil
  | cons n ns ih =>
    obtain ⟨⟨s₂, ts⟩, hblock, h⟩ := Except.bind_eq_ok.1 h
    obtain ⟨⟨s₃, us⟩, hrest, h⟩ := Except.bind_eq_ok.1 h
    cases h
    unfold flatBlock at hblock
    split at hblock
    · cases hblock
    · rename_i b hb
      obtain ⟨s₁, hlabel, hblock⟩ := Except.bind_eq_ok.1 hblock
      obtain ⟨m, hrun, hblock⟩ := Except.bind_eq_ok.1 hblock
      obtain ⟨⟨jumps, st⟩, hexit, hblock⟩ := Except.bind_eq_ok.1 hblock
      obtain ⟨s₂, hjumps, hblock⟩ := Except.bind_eq_ok.1 hblock
      simp only at hblock
      split at hblock
      · cases hblock
      · rename_i hempty
        cases hblock
        obtain rfl : st = [] := by simpa using hempty
        exact .cons hb hlabel hrun hexit hjumps (ih hrest)

/-- All reachable blocks are written. -/
theorem flattens_of_flatten {s s' : Scope} (h : c.flatten s = .ok s') :
    ∃ targets, c.Flattens c.reachableBlocks s s' targets := by
  obtain ⟨⟨_, targets⟩, hblocks, rfl⟩ := Except.map_eq_ok.1 h
  exact ⟨targets, flattens_of_flatBlocks hblocks⟩

/-! ### Behind structured code -/

/-- What becomes of structured code `s` at its end: what only jumps lead to is written behind it,
    and a plain return at its end is dropped if there is nothing of that kind. -/
inductive Completes (c : Context) (s : Scope) (p : Progress) : Scope → Progress → Prop
  | dropped {s' : Scope} (hrest : c.unwritten p = [] ∨ c.config.fallback = false)
      (hdrop : dropReturn s = .ok s') : Completes c s p s' p
  | flat {s' : Scope} {targets : List Nat} (hrest : c.unwritten p ≠ [])
      (hon : c.config.fallback = true) (hcode : c.Flattens (c.unwritten p) s s' targets) :
      Completes c s p s'
        { written := c.unwritten p ++ p.written
          placed := (c.unwritten p).reverse ++ p.placed
          targets := targets.foldl (fun ts n => Loop.insertAscending n ts) p.targets }

/-- What is written behind structured code takes no jump away. -/
theorem Completes.targets_subset {s s' : Scope} {p p' : Progress} (h : c.Completes s p s' p') :
    p.targets ⊆ p'.targets := by
  cases h with
  | dropped _ _ => exact List.Subset.refl _
  | flat _ _ _ => exact fun n hn => Loop.mem_foldl_insertAscending.2 (.inr hn)

/-- Behind code that holds every reachable block nothing is written, and only a plain return at its
    end is dropped. -/
theorem Completes.trimmed {s s' : Scope} {p p' : Progress} (h : c.Completes s p s' p')
    (hall : ∀ n, c.graph.isReachable n = true → n ∈ p.written) :
    p' = p ∧ Trimmed (.ret none) s.stmts s'.stmts := by
  cases h with
  | dropped _ hdrop => exact ⟨rfl, dropReturn_trimmed hdrop⟩
  | flat hrest _ _ =>
    refine absurd (List.filter_eq_nil_iff.2 fun n hn => ?_) hrest
    simpa using hall n (mem_reachableBlocks.1 hn)

/-- Labels are placed one after the other. -/
theorem ensures_placeAll {ns : List Nat} {p : Progress} {R : Unit → Progress → Prop}
    (h : R () { p with placed := ns.reverse ++ p.placed }) : Ensures (ns.forM place) p R := by
  induction ns generalizing p with
  | nil => exact ensures_pure h
  | cons n ns ih =>
    refine ensures_bind (ensures_place (ih ?_))
    rwa [List.reverse_cons, List.append_assoc] at h

/-- Behind structured code the missing blocks are written flat, or dropped. -/
theorem tail_completes {s : Scope} {p : Progress} :
    Ensures (c.tail s) p fun s' p' => c.Completes s p s' p' := by
  refine ensures_bind (ensures_get ?_)
  simp only
  split
  · rename_i hrest
    refine ensures_of fun s' hdrop => .dropped ?_ hdrop
    simpa [unwritten] using hrest
  · rename_i hrest
    obtain ⟨hsome, hon⟩ : c.unwritten p ≠ [] ∧ c.config.fallback = true := by
      simpa [unwritten] using hrest
    refine ensures_bind (ensures_markAll (ensures_bind (ensures_placeAll ?_)))
    refine ensures_bind (ensures_of fun ⟨s', targets⟩ hblocks => ?_)
    refine ensures_bind (ensures_addTargets (ensures_pure ?_))
    exact .flat hsome hon (flattens_of_flatBlocks hblocks)

/-! ### Passes -/

/-- The code of a pass is that of the region from the entry on, completed at its end. -/
theorem code_derives {labels : List Nat} {s : Scope} :
    Ensures (c.code labels s) {} fun s' p' => ∃ m p,
      c.Derives labels (.region [] FlowGraph.entry none (.start s) m) {} p ∧
        c.Completes m.scope p s' p' := by
  refine ensures_bind ((region_derives c labels c.depth [] FlowGraph.entry none _ {}).imp
    fun m p hregion => ?_)
  exact tail_completes.imp fun s' p' htail => ⟨m, p, hregion, htail⟩

/-- What the result of a pass says about its progress. -/
theorem pass_inv {labels : List Nat} {s : Scope} {r : Result} (h : c.pass labels s = .ok r) :
    ∃ p, (c.code labels s).run {} = .ok (r.body, p) ∧ r.hasJumps = !p.targets.isEmpty ∧
      r.unlabeled = p.targets.filter fun n => !p.placed.contains n := by
  unfold pass at h
  split at h
  · cases h
  · obtain ⟨⟨s, p⟩, hrun, h⟩ := Except.bind_eq_ok.1 h
    cases h
    exact ⟨p, hrun, rfl, rfl⟩

/-- Repeated passes end with one whose jumps have their labels. -/
theorem exists_pass_of_passes {s : Scope} {r : Result} {fuel : Nat} {labels : List Nat}
    (h : c.passes s fuel labels = .ok r) :
    ∃ labels', c.pass labels' s = .ok r ∧ r.unlabeled = [] := by
  induction fuel generalizing labels with
  | zero => cases h
  | succ fuel ih =>
    obtain ⟨r₁, hr₁, h⟩ := Except.bind_eq_ok.1 h
    split at h
    · rename_i hempty
      cases h
      exact ⟨labels, hr₁, by simpa using hempty⟩
    · split at h
      · cases h
      · exact ih h

/-- Structured code is the code of a pass. -/
theorem structured_derives {s : Scope} {r : Result} (h : c.structured s = .ok r) :
    ∃ labels m p p', c.Derives labels (.region [] FlowGraph.entry none (.start s) m) {} p ∧
      c.Completes m.scope p r.body p' := by
  obtain ⟨labels, hpass, -⟩ := exists_pass_of_passes h
  obtain ⟨p', hcode, -, -⟩ := pass_inv hpass
  obtain ⟨m, p, hregion, htail⟩ := code_derives r.body p' hcode
  exact ⟨labels, m, p, p', hregion, htail⟩

end Context

end Restructure
