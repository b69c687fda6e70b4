import Restructure.Proofs.Region.Derivations
import Restructure.Proofs.Region.Placed

namespace Restructure

/-!
# Coverage — where written blocks lead

Every block that is written leads to blocks that are written, too, to a block at which the region
ends, or to a block that a construct around it leads to. Only a jump to a label is an exception, so
code without such jumps holds every block that its first block reaches.

* `Frames.Offered` — the blocks that a region need not hold.
* `Covered` — what a piece of code does to the set of written blocks.
* `Covered.whileLoop`, `Covered.doBody`, `Covered.switch` — what follows for constructs.
* `Context.Derives.covers` — and so for all that the walk writes.
* `Context.Derives.placed`, `Context.Derives.quiet`, `Context.Derives.written` — what follows for
  the code of a whole graph.
-/

/-! ### Pieces of code -/

/-- A transfer to the block ends the region, or is a jump of an enclosing construct. -/
def Frames.Offered (frames : Frames) (stop : Option Nat) (n : Nat) : Prop :=
  stop = some n ∨ frames.nextRound? = some n ∨ frames.follow? = some n

/-- No jump to a label has been written, and none will be if there are to be none. -/
def Settled (c : Context) (p : Progress) : Prop := c.config.fallback = false ∨ p.targets = []

/-- What was written before has no jumps to labels, either. -/
theorem Settled.of_subset {c : Context} {p p' : Progress} (h : Settled c p')
    (hsub : p.targets ⊆ p'.targets) : Settled c p :=
  h.imp_right fun hnil => by
    rw [hnil] at hsub
    exact List.subset_nil.1 hsub

/-- Between the progress `p` and `p'` code was written that begins at the blocks `starts`, and
    control leaves it for the blocks `out`. Only the blocks `labels` got a label, and only with
    fallbacks there are new targets of jumps. -/
structure Covered (c : Context) (labels : List Nat) (out starts : Nat → Prop) (p p' : Progress) :
    Prop where
  written : p.written ⊆ p'.written
  targets : p.targets ⊆ p'.targets
  quiet : c.config.fallback = false → p'.targets ⊆ p.targets
  placed : ∀ n ∈ p'.placed, n ∈ p.placed ∨ n ∈ labels
  begun : Settled c p' → ∀ n, starts n → n ∈ p'.written ∨ out n
  leads : Settled c p' → ∀ n ∈ p'.written, n ∉ p.written → ∀ m ∈ c.graph.successors n,
    m ∈ p'.written ∨ out m

namespace Covered

variable {c : Context} {labels : List Nat} {out out' starts starts' : Nat → Prop}
  {p p₁ p' : Progress}

/-- Nothing has been written. -/
theorem refl (h : ∀ n, starts n → out n) : Covered c labels out starts p p where
  written := List.Subset.refl _
  targets := List.Subset.refl _
  quiet _ := List.Subset.refl _
  placed _ hn := .inl hn
  begun _ n hn := .inr (h n hn)
  leads _ _ hn hnot := absurd hn hnot

/-- Code behind code: what the first piece leads to is where the second one begins. -/
theorem trans (h : Covered c labels out starts p p₁) (h' : Covered c labels out' starts' p₁ p')
    (hout : ∀ n, out n → out' n ∨ starts' n) :
    Covered c labels out' (fun n => starts n ∨ starts' n) p p' := by
  -- what the first piece is settled with is settled behind the second one
  have hnext : Settled c p' → ∀ n, n ∈ p₁.written ∨ out n → n ∈ p'.written ∨ out' n := by
    intro hs n hn
    rcases hn with hn | hn
    · exact .inl (h'.written hn)
    · rcases hout n hn with hn | hn
      · exact .inr hn
      · exact h'.begun hs n hn
  refine ⟨List.Subset.trans h.written h'.written, List.Subset.trans h.targets h'.targets,
    fun hf => List.Subset.trans (h'.quiet hf) (h.quiet hf),
    fun n hn => (h'.placed n hn).elim (h.placed n) .inr, fun hs n hn => ?_,
    fun hs n hn hnot m hm => ?_⟩
  · rcases hn with hn | hn
    · exact hnext hs n (h.begun (hs.of_subset h'.targets) n hn)
    · exact h'.begun hs n hn
  -- a block was written by the first piece or by the second one
  · by_cases hn₁ : n ∈ p₁.written
    · exact hnext hs m (h.leads (hs.of_subset h'.targets) n hn₁ hnot m hm)
    · exact h'.leads hs n hn hn₁ m hm

/-- Some of the blocks that control leaves for have been written themselves. -/
theorem imp (h : Covered c labels out starts p p')
    (hout : Settled c p' → ∀ n, out n → n ∈ p'.written ∨ out' n)
    (hstarts : ∀ n, starts' n → starts n ∨ n ∈ p'.written ∨ out' n) :
    Covered c labels out' starts' p p' := by
  have hnext : Settled c p' → ∀ n, n ∈ p'.written ∨ out n → n ∈ p'.written ∨ out' n :=
    fun hs n hn => hn.elim .inl (hout hs n)
  refine ⟨h.written, h.targets, h.quiet, h.placed, fun hs n hn => ?_,
    fun hs n hn hnot m hm => ?_⟩
  · rcases hstarts n hn with hn | hn
    · exact hnext hs n (h.begun hs n hn)
    · exact hn
  · exact hnext hs m (h.leads hs n hn hnot m hm)

/-- Control may leave for more blocks. -/
theorem of_out (h : Covered c labels out starts p p') (hout : ∀ n, out n → out' n) :
    Covered c labels out' starts p p' :=
  h.imp (fun _ n hn => .inr (hout n hn)) fun _ hn => .inl hn

/-- Code behind code, told by where the first piece begins. -/
theorem andThen (h : Covered c labels out starts p p₁) (h' : Covered c labels out' starts' p₁ p')
    (hout : ∀ n, out n → out' n ∨ starts' n) : Covered c labels out' starts p p' :=
  (h.trans h' hout).imp (fun _ _ hn => .inr hn) fun _ hn => .inl (.inl hn)

/-- Only the written blocks and the targets count. -/
theorem of_eq (h : Covered c labels out starts p₁ p') (hwritten : p₁.written = p.written)
    (htargets : p₁.targets = p.targets) (hplaced : ∀ n ∈ p₁.placed, n ∈ p.placed ∨ n ∈ labels) :
    Covered c labels out starts p p' where
  written := hwritten ▸ h.written
  targets := htargets ▸ h.targets
  quiet := htargets ▸ h.quiet
  placed n hn := (h.placed n hn).elim (hplaced n) .inr
  begun := h.begun
  leads hs n hn hnot := h.leads hs n hn (hwritten ▸ hnot)

/-- Blocks that are marked as written together. -/
theorem markAll {ns : List Nat}
    (h : ∀ n ∈ ns, ∀ m ∈ c.graph.successors n, m ∈ ns ∨ out m) :
    Covered c labels out (· ∈ ns) p { p with written := ns ++ p.written } where
  written := List.subset_append_right _ _
  targets := List.Subset.refl _
  quiet _ := List.Subset.refl _
  placed _ hn := .inl hn
  begun _ n hn := .inl (List.mem_append_left _ hn)
  leads _ n hn hnot m hm := by
    rcases List.mem_append.1 hn with hn | hn
    · exact (h n hn m hm).imp_left (List.mem_append_left _)
    · exact absurd hn hnot

/-- A jump to a label. -/
theorem jump {n : Nat} (hf : c.config.fallback = true) :
    Covered c labels out starts p
      { p with targets := [n].foldl (fun ts n => Loop.insertAscending n ts) p.targets } := by
  have hmem : n ∈ Loop.insertAscending n p.targets := Loop.mem_insertAscending.2 (.inl rfl)
  have hnot : ¬Settled c
      { p with targets := [n].foldl (fun ts n => Loop.insertAscending n ts) p.targets } := by
    rintro (hfalse | hnil)
    · exact Bool.false_ne_true (hfalse.symm.trans hf)
    · have hnil : Loop.insertAscending n p.targets = [] := hnil
      rw [hnil] at hmem
      cases hmem
  exact ⟨List.Subset.refl _, fun m hm => Loop.mem_insertAscending.2 (.inr hm),
    fun hfalse => absurd (.inl hfalse) hnot, fun _ hm => .inl hm, fun hs => absurd hs hnot,
    fun hs => absurd hs hnot⟩

end Covered

/-! ### Where control may go -/

/-- Where control may go behind a piece of code that says which block comes next. -/
def Frames.OfferedOr (frames : Frames) (stop next : Option Nat) (n : Nat) : Prop :=
  frames.Offered stop n ∨ next = some n

variable {c : Context} {labels : List Nat} {frames : Frames} {p p' : Progress}

/-- Inside an arm control ends where the arms meet. -/
theorem Frames.offeredOr_of_merge {stop : Option Nat} {merge n : Nat}
    (h : frames.Offered (some merge) n) : frames.OfferedOr stop (some merge) n := by
  rcases h with h | h
  · exact .inr h
  · exact .inl (.inr h)

/-- The end of the region is the same in a guarded arm, or there is none. -/
theorem Position.offered_of_guarded (pos : Position) {n : Nat}
    (h : pos.frames.Offered pos.guarded.stop n) : pos.frames.Offered pos.stop n := by
  rcases h with h | h
  · unfold Position.guarded at h
    split at h
    · rename_i s hs
      split at h
      · cases h
      · exact .inl h
    · exact .inl h
  · exact .inr h

namespace Context

/-- The innermost construct is a loop. -/
theorem offered_loop_iff {header next n : Nat} {body : List Nat} {follow stop : Option Nat} :
    Frames.Offered (.loop header next body follow :: frames) stop n ↔
      stop = some n ∨ next = n ∨ follow = some n := by
  have hnext : Frames.nextRound? (.loop header next body follow :: frames) = some next := rfl
  have hfollow : Frames.follow? (.loop header next body follow :: frames) = follow := rfl
  rw [Frames.Offered, hnext, hfollow, Option.some.injEq]

/-- A transfer that writes nothing here and needs no label is offered. -/
theorem offered_of_jump {pos : Position} {n : Nat} {j : Jump} (hj : c.jump pos n = j)
    (henter : j ≠ .enter) (hinvalid : j ≠ .invalid) : pos.frames.Offered pos.stop n := by
  subst hj
  -- the three ways to write nothing and go on: the region ends, the next round, the block behind
  unfold jump at henter hinvalid
  split at henter
  · exact .inl ‹_›
  · split at henter
    · exact .inr (.inl ‹_›)
    · split at henter
      · exact .inr (.inr ‹_›)
      · simp_all

/-- Control leaves a switch for the next round, or for the block behind it. -/
theorem offeredOr_of_switch {stop own follow : Option Nat} {keep : Nat → Bool} {n : Nat}
    (hown : own = follow.filter keep)
    (h : Frames.nextRound? (.switch own :: frames) = some n ∨
      Frames.follow? (.switch own :: frames) = some n ∨ own = some n) :
    frames.OfferedOr stop follow n := by
  subst hown
  have hnext : Frames.nextRound? (.switch (follow.filter keep) :: frames) = frames.nextRound? := rfl
  have hfollow : Frames.follow? (.switch (follow.filter keep) :: frames) = follow.filter keep := rfl
  rw [hnext, hfollow, or_self] at h
  rcases h with hround | hleave
  · exact .inl (.inr (.inl hround))
  · exact .inr (Option.filter_eq_some_iff.1 hleave).1

/-! ### Blocks that are marked -/

/-- The blocks of a chain lead to each other and to the targets of the chain's test. -/
theorem covered_of_chained {scope : Scope} {eligible : Nat → Bool} {n : Nat} {test : BranchTest}
    {chain : List Nat} (h : Chained c scope eligible n test chain) :
    Covered c labels (fun m => m = test.taken ∨ m = test.fallthrough) (· ∈ chain) p
      { p with written := chain ++ p.written } :=
  .markAll fun k hk m hm => (h.leads k hk m hm).imp_left fun hin => hin.1

end Context

/-- Behind its label a block begins with the same written blocks and targets. -/
theorem Covered.of_labelling {out starts : Nat → Prop} {n : Nat} {m m₁ : Simulation}
    {p₁ : Progress} (hlabel : Labelling labels n m p m₁ p₁)
    (h : Covered c labels out starts p₁ p') : Covered c labels out starts p p' := by
  cases hlabel with
  | placed hlabel _ _ =>
    refine h.of_eq rfl rfl fun k hk => ?_
    rcases List.mem_cons.1 hk with rfl | hk
    · exact .inr (List.contains_iff_mem.1 hlabel)
    · exact .inl hk
  | none _ => exact h

/-- Where control leaves the only arm of a branch, it goes on with the other target, or it leaves
    the region. -/
theorem OneArm.offeredOr {n start other m : Nat} {stop armStop : Option Nat} {written : List Nat}
    {t : BranchTest} {isTaken : Bool}
    (h : OneArm c ⟨frames, written, stop⟩ n t isTaken start other armStop)
    (hm : frames.Offered armStop m) : frames.OfferedOr stop (some other) m := by
  cases h with
  | guard _ _ => exact .inl (Position.offered_of_guarded ⟨frames, written, stop⟩ hm)
  | meet _ _ _ => exact Frames.offeredOr_of_merge hm

/-- A block leads to the targets of its terminator. These are written, or control leaves for
    them. -/
theorem Covered.block {out : Nat → Prop} {n : Nat} {b : Block} (hb : c.graph.block? n = some b)
    (h : Covered c labels out (· ∈ b.exit.successors) { p with written := n :: p.written } p') :
    Covered c labels out (· = n) p p' ∧ n ∈ p'.written := by
  have hmark : Covered c labels (· ∈ b.exit.successors) (· = n) p
      { p with written := [n] ++ p.written } :=
    (Covered.markAll fun k hk m hm => by
      rw [List.mem_singleton.1 hk, FlowGraph.mem_successors_of_block hb] at hm
      exact .inr hm).imp (fun _ m hm => .inr hm) fun m hm => .inl (List.mem_singleton.2 hm)
  exact ⟨hmark.andThen h fun _ hm => .inr hm, h.written (List.mem_cons_self ..)⟩

/-- A loop that tests first offers its header, which has been written, and the block behind it. -/
theorem Covered.whileLoop {l : Loop} {written : List Nat} {scope : Scope} {t : LoopTest}
    {stop : Option Nat} (htest : c.loopTest? l written scope = some t)
    (h : Covered c labels
      (Frames.Offered (.loop l.header l.header l.body (some t.outside) :: frames) (some l.header))
      (· = t.inside) { p with written := t.chain ++ p.written } p') :
    Covered c labels (frames.OfferedOr stop (some t.outside)) (· = l.header) p p' := by
  obtain ⟨test, head, hhead, hfold, -, -, -, htargets⟩ := Context.loopTest_inv htest
  have hchain := BranchTest.fold_chained hfold fun m => Context.mem_successors_of_pureTest hhead
  have hheader := h.written (List.mem_append_left _ hchain.first_mem)
  -- the chain leads to itself, to the body and to the outside
  have hcode := (Context.covered_of_chained hchain).andThen
    (h.of_out fun n hn => Or.inl (b := n = t.outside) hn)
    fun n hn => ((htargets n).1 hn).elim .inr fun h => .inl (.inr h)
  refine hcode.imp (fun _ n hn => ?_) fun n hn => .inl (hn ▸ hchain.first_mem)
  rcases hn with hn | hn
  · rcases Context.offered_loop_iff.1 hn with hn | hn | hn
    · exact .inl (Option.some.inj hn ▸ hheader)
    · exact .inl (hn ▸ hheader)
    · exact .inr (.inr hn)
  · exact .inr (.inr (congrArg some hn.symm))

/-- An arm of a switch runs into the next one or leaves the switch. -/
theorem Covered.consArm {follow : Option Nat} {e : ArmEntry} {es : List ArmEntry} {p₁ : Progress}
    (h : Covered c labels
      (fun m => frames.Offered ((es.head?.map (·.start)).or follow) m ∨ follow = some m)
      (· = e.start) p p₁)
    (h' : Covered c labels (fun n => frames.nextRound? = some n ∨ frames.follow? = some n ∨
      follow = some n) (· ∈ es.map (·.start)) p₁ p') :
    Covered c labels (fun n => frames.nextRound? = some n ∨ frames.follow? = some n ∨
      follow = some n) (· ∈ (e :: es).map (·.start)) p p' := by
  refine (h.trans h' fun n hn => ?_).imp (fun _ n hn => .inr hn)
    fun n hn => .inl (List.mem_cons.1 hn)
  rcases hn with (hnext | hround | hleave) | hfollow
  · cases es with
    | nil => exact .inl (.inr (.inr hnext))
    | cons e' es => exact .inr (List.mem_cons.2 (.inl (Option.some.inj hnext).symm))
  · exact .inl (.inl hround)
  · exact .inl (.inr (.inl hleave))
  · exact .inl (.inr (.inr hfollow))

/-- The body of a `do` loop holds the header, the latch and what these lead to. -/
theorem Covered.doBody {n latch outside : Nat} {body : List Nat}
    (h : Covered c labels
      (Frames.Offered (.loop n latch body (some outside) :: frames) (some latch))
      (fun m => m = n ∧ latch ≠ n) p p')
    (hlatch : ∀ m, m ∈ c.graph.successors latch ↔ m = n ∨ m = outside) (hne : outside ≠ n) :
    Covered c labels (· = outside) (· = n) p
      { p' with written := [n, latch] ++ p'.written } := by
  refine ⟨fun k hk => List.mem_append_right _ (h.written hk), h.targets, h.quiet, h.placed,
    fun _ k hk => .inl (hk ▸ List.mem_cons_self ..), fun hs k hk hnot m hm => ?_⟩
  have hout : ∀ {m}, m ∈ p'.written ∨ Frames.Offered (.loop n latch body (some outside) :: frames)
      (some latch) m → m ∈ [n, latch] ++ p'.written ∨ m = outside := by
    rintro m (hm | hm)
    · exact .inl (List.mem_append_right _ hm)
    · rcases Context.offered_loop_iff.1 hm with hm | hm | hm
      · exact .inl (by simp [Option.some.inj hm])
      · exact .inl (by simp [hm])
      · exact .inr (Option.some.inj hm).symm
  by_cases hk₁ : k ∈ p'.written
  · exact hout (h.leads hs k hk₁ hnot m hm)
  · by_cases hkl : k = latch
    · rw [hkl, hlatch] at hm
      exact hm.imp_left fun heq => by simp [heq]
    · -- the header has been written on the way to the latch
      have hkn : k = n := by
        rcases List.mem_append.1 hk with hk | hk
        · exact (List.mem_pair.1 hk).resolve_right hkl
        · exact absurd hk hk₁
      subst hkn
      rcases h.begun hs k ⟨rfl, Ne.symm hkl⟩ with hin | hoffered
      · exact absurd hin hk₁
      · rcases Context.offered_loop_iff.1 hoffered with heq | heq | heq
        · exact absurd (Option.some.inj heq).symm hkl
        · exact absurd heq.symm hkl
        · exact absurd (Option.some.inj heq) hne

/-- Behind the arms of a switch control is where the switch leads. -/
theorem Covered.switch {own follow stop : Option Nat} {keep : Nat → Bool}
    {cases : List (Int × Nat)} {default : Nat}
    (h : Covered c labels (fun n => Frames.nextRound? (.switch own :: frames) = some n ∨
      Frames.follow? (.switch own :: frames) = some n ∨ own = some n)
      (· ∈ (groupCases cases default own).map (·.start)) p p')
    (hown : own = follow.filter keep) :
    Covered c labels (frames.OfferedOr stop follow)
      (· ∈ (Terminator.switch cases default).successors) p p' := by
  refine h.imp (fun _ k hk => .inr (Context.offeredOr_of_switch hown hk)) fun k hk => ?_
  rw [mem_groupCases_iff]
  rcases Terminator.mem_successors_switch.1 hk with hk | rfl
  · exact .inl (.inl hk)
  · by_cases hfollow : own = some k
    · exact .inr (.inr (Context.offeredOr_of_switch hown (.inr (.inr hfollow))))
    · exact .inl (.inr ⟨rfl, hfollow⟩)

/-! ### The walk -/

/-- Where the written blocks of a piece lead. -/
def Piece.Covers (c : Context) (labels : List Nat) (p p' : Progress) : Piece → Prop
  | .region frames n stop _ _ | .inner frames n stop _ _ | .arm frames n stop _ _ =>
    Covered c labels (frames.Offered stop) (· = n) p p'
  | .onward frames stop (next, _) _ =>
    Covered c labels (frames.Offered stop) (fun n => next = some n) p p'
  | .entered frames n stop _ (next, _) =>
    Covered c labels (frames.OfferedOr stop next) (· = n) p p'
  | .block frames n stop _ (next, _) =>
    Covered c labels (frames.OfferedOr stop next) (· = n) p p' ∧ n ∈ p'.written
  | .exit frames n stop t _ (next, _) => (∀ m, m ∈ c.graph.successors n ↔ m ∈ t.successors) →
    Covered c labels (frames.OfferedOr stop next) (· ∈ t.successors) p p'
  | .branch frames _ stop t _ _ (next, _) | .plain frames _ stop t _ (next, _) =>
    Covered c labels (frames.OfferedOr stop next) (fun n => n = t.taken ∨ n = t.fallthrough) p p'
  | .before frames header latch _ _ =>
    Covered c labels (frames.Offered (some latch)) (fun n => n = header ∧ latch ≠ header) p p'
  | .switchArm frames follow next _ n _ _ =>
    Covered c labels (fun m => frames.Offered next m ∨ follow = some m) (· = n) p p'
  -- each arm runs into the next one or leaves the switch
  | .arms frames follow _ es _ =>
    Covered c labels (fun n => frames.nextRound? = some n ∨ frames.follow? = some n ∨
      follow = some n) (· ∈ es.map (·.start)) p p'

namespace Context

/-- Every piece holds what its first blocks lead to. By induction on how it comes about: what a
    piece leaves for is where the next one begins, or offered by a construct around it. -/
theorem Derives.covers {piece : Piece} (h : c.Derives labels piece p p') :
    piece.Covers c labels p p' := by
  induction h with
  | stop hjump | nextRound hjump _ | leave hjump _ =>
    exact .refl fun k hk => hk ▸ offered_of_jump hjump nofun nofun
  -- a jump to a label is only written with fallbacks, and then nothing is claimed
  | goto _ hon _ _ => exact .jump hon
  | enter _ hlabel _ _ ihcode ihrest =>
    exact .of_labelling hlabel (ihcode.andThen ihrest fun _ h => h)
  | done => exact .refl fun _ h => by cases h
  | next _ ih => exact ih.imp (fun _ n hn => .inr hn) fun n hn => .inl (Option.some.inj hn).symm
  | here _ _ ih => exact ih.1
  | whileLoop hl _ _ _ htest _ _ _ ih =>
    obtain rfl := c.graph.header_of_loopAt hl
    exact ih.whileLoop htest
  -- the latch leads back to the header or out, and out is not the header
  | doLoop _ hl _ _ _ _ htest _ _ _ _ _ _ ih =>
    obtain rfl := c.graph.header_of_loopAt hl
    obtain ⟨-, hout, b, taken, fallthrough, hb, hexit, hchosen⟩ := latchTest_inv htest
    have hheader := List.contains_iff_mem.2 (c.graph.loopAt_natural hl).header_mem
    refine (ih.doBody (mem_successors_of_chosen hb hexit hchosen) ?_).of_out
      fun n hn => .inr (congrArg some hn.symm)
    rintro rfl
    exact Bool.false_ne_true (hout.symm.trans hheader)
  -- in an endless loop the next round begins with the header, which has been written
  | endless hl _ _ _ _ _ _ _ _ _ _ ihblock ihrest =>
    obtain rfl := c.graph.header_of_loopAt hl
    obtain ⟨hblock, hheader⟩ := ihblock
    refine (hblock.andThen ihrest fun n hn => hn).imp (fun _ n hn => ?_) fun n hn => .inl hn
    rcases offered_loop_iff.1 hn with hn | hn | hn
    · cases hn
    · exact .inl (hn ▸ ihrest.written hheader)
    · exact .inr (.inr hn)
  | block hb _ _ ih => exact (ih fun _ => FlowGraph.mem_successors_of_block hb).block hb
  | exitGoto => exact fun _ => .refl fun m hm => .inr (congrArg some (List.mem_singleton.1 hm).symm)
  | exitRet _ | exitValue _ _ | exitThrow _ _ =>
    exact fun _ => .refl fun m hm => absurd hm List.not_mem_nil
  | exitBranch _ hfold _ ih =>
    intro hn
    have hchain := BranchTest.fold_chained hfold fun m =>
      (hn m).trans Terminator.mem_successors_branch
    -- the chain leads within itself or to the targets of its test
    refine ((covered_of_chained hchain).trans ih fun _ hm => .inr hm).imp (fun _ m hm => .inr hm)
      fun m hm => .inl ?_
    exact (hchain.leads _ hchain.first_mem m ((hn m).2 hm)).imp_left fun hin => hin.1
  | exitSwitch _ hown _ _ ih => exact fun _ => ih.switch hown
  | collapsedValue _ hform | collapsedStmt _ hform _ =>
    obtain ⟨htargets, hleads⟩ := (ternary_inv hform).blocks
    exact (Covered.markAll fun k hk m hm => (hleads k hk m hm).imp_right .inr).imp
      (fun _ m hm => .inr hm) fun m hm => .inl (htargets m hm)
  | plain _ _ _ ih => exact ih
  | oneArm _ hside _ _ ih =>
    refine ih.imp (fun _ n hn => .inr (hside.offeredOr hn)) fun n hn => ?_
    exact (hside.chosen.eq_or_eq_iff.2 hn).imp_right fun heq => .inr (.inr (congrArg some heq.symm))
  -- both arms end where they meet, and there control goes on
  | twoArms _ _ _ _ _ _ _ iharm ihelse =>
    refine (iharm.trans ihelse fun n hn => .inl hn).imp
      (fun _ n hn => .inr (Frames.offeredOr_of_merge hn)) fun n hn => .inl hn.symm
  | jump _ _ hon _ => exact .jump hon
  | inner _ _ ih | arm _ _ ih => exact ih
  | latchOnly heq => exact .refl fun m hm => absurd heq hm.2
  | before _ _ ih => exact ih.imp (fun _ m hm => .inr hm) fun m hm => .inl hm.1
  | armEmpty hfollow _ => exact .refl fun n hn => .inr (hn ▸ hfollow)
  | armCode _ _ _ _ ih => exact ih.of_out fun _ hn => .inl hn
  | armsNil => exact .refl fun n hn => absurd hn List.not_mem_nil
  | armsCons _ _ iharm ihrest => exact iharm.consArm ihrest

/-! ### The code of a graph -/

/-- Nothing is offered to the code of a whole graph. -/
theorem not_offered (n : Nat) : ¬Frames.Offered [] none n := by
  rintro (h | h | h) <;> cases h

variable {m m' : Simulation}

/-- Only the labels that were asked for are placed. -/
theorem Derives.placed
    (h : c.Derives labels (.region [] FlowGraph.entry none m m') {} p') : p'.placed ⊆ labels :=
  fun n hn => (h.covers.placed n hn).resolve_left List.not_mem_nil

/-- Without fallbacks the code of the whole graph has no jumps to labels. -/
theorem Derives.quiet (hf : c.config.fallback = false)
    (h : c.Derives labels (.region [] FlowGraph.entry none m m') {} p') : p'.targets = [] :=
  List.subset_nil.1 (h.covers.quiet hf)

/-- Without jumps to labels the code of the whole graph holds every reachable block. -/
theorem Derives.written (hs : Settled c p')
    (h : c.Derives labels (.region [] FlowGraph.entry none m m') {} p') {n : Nat}
    (hn : c.graph.isReachable n = true) : n ∈ p'.written := by
  have hcovers := h.covers
  have hentry : FlowGraph.entry ∈ p'.written :=
    (hcovers.begun hs FlowGraph.entry rfl).resolve_right (not_offered _)
  obtain ⟨ns, hpath⟩ := c.graph.isReachable_iff.1 hn
  clear h hn
  -- along a path from the entry every block is written if the one before it is
  generalize FlowGraph.entry = k at hpath hentry
  induction hpath with
  | single => exact hentry
  | cons hk _ ih =>
    exact ih ((hcovers.leads hs _ hentry List.not_mem_nil _ hk).resolve_right (not_offered _))

end Context

end Restructure
