import Mathlib.Tactic.Tauto
import Restructure.Proofs.Flow.Graph
import Restructure.Region.Branch

namespace Restructure

/-!
# Zones — the blocks that code can reach before it is left

While code is written for an arm of a branch, control must not come to the end of the region around
it. So a set of blocks is carried along that is closed under the steps that the code can take.

* `Reached`, `Anchored` — blocks that the written blocks lead to.
* `Frames.Sound` — what is known of the targets of the innermost constructs.
* `Closed` — no step from a block that can be written here leaves the zone.
* `Room` — the zone in which one block is written, `Closed.exists_room`.
* `Closed.exists_within` — the zone of an arm that never comes back.
-/

namespace Context

variable {c : Context} {W W' : List Nat} {n m h t : Nat}

/-! ### Blocks that the written ones lead to -/

/-- Control comes to the block through written blocks alone. -/
inductive Reached (c : Context) (W : List Nat) : Nat → Prop
  | entry : Reached c W FlowGraph.entry
  | step {n m : Nat} (h : Reached c W n) (hn : n ∈ W) (hm : m ∈ c.graph.successors n) :
      Reached c W m

/-- A written block leads to the block, or the block comes behind all paths from one. -/
inductive Anchored (c : Context) (W : List Nat) : Nat → Prop
  | reached {n : Nat} (h : Reached c W n) : Anchored c W n
  | merge {n m : Nat} (h : Reached c W n) (hn : n ∈ W) (hm : c.graph.postDominator? n = some m) :
      Anchored c W m

/-- With more blocks written the block is still reached. -/
theorem Reached.mono (hr : Reached c W n) (hsub : W ⊆ W') : Reached c W' n := by
  induction hr with
  | entry => exact .entry
  | step _ hn hm ih => exact .step ih (hsub hn) hm

/-- With more blocks written the block is still anchored. -/
theorem Anchored.mono (ha : Anchored c W n) (hsub : W ⊆ W') : Anchored c W' n := by
  cases ha with
  | reached hr => exact .reached (hr.mono hsub)
  | merge hr hn hm => exact .merge (hr.mono hsub) (hsub hn) hm

/-- A reached block lies behind a path through written ones. -/
theorem Reached.exists_path (hr : Reached c W n) :
    ∃ ns, c.graph.graph.links.Path FlowGraph.entry n (ns ++ [n]) ∧ ns ⊆ W := by
  induction hr with
  | entry => exact ⟨[], .single _, by simp⟩
  | @step n m _ hn hm ih =>
    obtain ⟨ns, hp, hsub⟩ := ih
    refine ⟨ns ++ [n], hp.snoc hm, fun x hx => ?_⟩
    rcases List.mem_append.1 hx with hx | hx
    · exact hsub hx
    · rw [List.mem_singleton.1 hx]
      exact hn

/-- A reached block is reachable from the entry. -/
theorem Reached.reachable (hr : Reached c W n) :
    c.graph.graph.links.Reachable FlowGraph.entry n := by
  obtain ⟨_, hp, _⟩ := hr.exists_path
  exact ⟨_, hp⟩

/-- What has not been written does not dominate what the written blocks lead to. -/
theorem Anchored.not_dominates (ha : Anchored c W t) (hh : h ∉ W) (hne : h ≠ t) :
    ¬c.graph.graph.links.Dominates FlowGraph.entry h t := by
  intro hdom
  cases ha with
  | reached hr =>
    obtain ⟨ns, hp, hsub⟩ := hr.exists_path
    rcases List.mem_append.1 (hdom _ hp) with hmem | hmem
    · exact hh (hsub hmem)
    · exact hne (List.mem_singleton.1 hmem)
  | @merge n _ hr hn hm =>
    have hhn : h ≠ n := by
      rintro rfl
      exact hh hn
    obtain ⟨ns, hp, hsub⟩ := hr.exists_path
    obtain ⟨ms, hq, hms⟩ := c.graph.exists_avoiding_postDominator hm hne hhn
    rcases List.mem_append.1 (hdom _ (hp.trans hq)) with hmem | hmem
    · rcases List.mem_append.1 hmem with hmem | hmem
      · exact hh (hsub hmem)
      · exact hhn (List.mem_singleton.1 hmem)
    · exact hms (List.mem_of_mem_tail hmem)

/-- A private tail dominates what it reaches. -/
theorem dominates_of_isPrivateTail (hh : c.graph.graph.links.Reachable FlowGraph.entry h)
    (hp : c.isPrivateTail h = true) (hm : c.graph.graph.links.Reachable h m) :
    c.graph.graph.links.Dominates FlowGraph.entry h m := by
  have hlt : h < c.graph.size := hh.lt c.graph.links_lawful c.graph.nonempty
  have hmem := ((Links.postorder_numbered c.graph.links_lawful hlt).mem_iff m).2 hm
  exact (c.graph.tree_exact.dominates_iff h m (hh.trans hm)).1 (List.all_eq_true.1 hp m hmem)

end Context

/-! ### Constructs -/

namespace Frames

open Context

variable {c : Context} {W W' : List Nat} {frames : Frames} {n m t : Nat}

/-- What is known of the innermost loop and of the innermost construct: control has come to the
    header of the loop, its next round begins at the header or at a block that leaves or repeats
    it, and the block behind the construct is anchored or outside of the loop. -/
structure Sound (c : Context) (W : List Nat) (frames : Frames) : Prop where
  loop : ∀ header next body follow,
    frames.find? Frame.isLoop = some (.loop header next body follow) →
      Reached c W header ∧ NaturalLoop c.graph.graph.links FlowGraph.entry header body ∧
        (next = header ∨ ∀ k ∈ c.graph.successors next, k = header ∨ follow = some k)
  follow : ∀ t, frames.follow? = some t → Anchored c W t ∨ frames.inLoop t = false

/-- With more blocks written the frames are still sound. -/
theorem Sound.mono (hs : frames.Sound c W) (hsub : W ⊆ W') : frames.Sound c W' where
  loop header next body follow hf := by
    obtain ⟨hr, hrest⟩ := hs.loop header next body follow hf
    exact ⟨hr.mono hsub, hrest⟩
  follow t ht := (hs.follow t ht).imp_left fun ha => ha.mono hsub

/-- Without frames there is nothing to ask. -/
theorem sound_nil (c : Context) (W : List Nat) : Sound c W [] where
  loop _ _ _ _ hf := by cases hf
  follow _ ht := by cases ht

/-- Where there is an innermost loop, it is a loop. -/
theorem find_isLoop (frames : Frames) :
    frames.find? Frame.isLoop = none ∨ ∃ header next body follow,
      frames.find? Frame.isLoop = some (.loop header next body follow) := by
  cases hf : frames.find? Frame.isLoop with
  | none => exact .inl rfl
  | some f =>
    cases f with
    | loop header next body follow => exact .inr ⟨header, next, body, follow, rfl⟩
    | switch follow =>
      have := List.find?_some hf
      cases this

/-- The next round of the innermost loop and the way on behind the innermost construct are targets
    of enclosing constructs. -/
theorem isOuterTarget_of_nextRound (h : frames.nextRound? = some n) :
    frames.isOuterTarget n = true := by
  obtain ⟨f, hf, hn⟩ := Option.bind_eq_some_iff.1 h
  refine List.any_eq_true.2 ⟨f, List.mem_of_find?_eq_some hf, ?_⟩
  simp [hn]

/-- A block that begins no open loop is not the header of the innermost one. -/
theorem ne_header_of_isHeader {header next : Nat} {body : List Nat} {follow : Option Nat}
    (h : frames.isHeader n = false)
    (hf : frames.find? Frame.isLoop = some (.loop header next body follow)) : n ≠ header := by
  rintro rfl
  have := List.any_eq_false.1 h _ (List.mem_of_find?_eq_some hf)
  simp [Frame.isLoopAt] at this

/-- The block behind a frame is a target of jumps. -/
theorem isOuterTarget_of_follow (h : frames.follow? = some n) : frames.isOuterTarget n = true := by
  obtain ⟨f, hf, hn⟩ := Option.bind_eq_some_iff.1 h
  refine List.any_eq_true.2 ⟨f, List.mem_of_head? hf, ?_⟩
  simp [hn]

end Frames

/-! ### Jumps -/

namespace Context

variable {c : Context} {p : Position} {n : Nat}

/-- What it takes to write a block where control comes to it. -/
theorem jump_eq_enter :
    c.jump p n = .enter ↔ p.stop ≠ some n ∧ p.frames.nextRound? ≠ some n ∧
      p.frames.follow? ≠ some n ∧ p.frames.isOuterTarget n = false ∧
      (p.frames.inLoop n = true ∨ c.isPrivateTail n = true) ∧ n ∉ p.written := by
  have hor : (!p.frames.inLoop n && !c.isPrivateTail n) = false ↔
      (p.frames.inLoop n = true ∨ c.isPrivateTail n = true) := by
    cases p.frames.inLoop n <;> simp
  rw [← hor]
  unfold jump
  repeat' split
  all_goals simp_all

/-- Inside a loop whose latch is written by the loop itself, the header is written where control
    comes to it first. -/
theorem jump_header {h z outside : Nat} {l : Loop} {frames : Frames} {W : List Nat}
    (hl : c.graph.loopAt? h = some l) (hzh : z ≠ h) (hout : outside ∉ l.body)
    (hinner : frames.isOuterTarget h = false) (hfresh : h ∉ W) :
    c.jump ⟨.loop h z l.body (some outside) :: frames, W, some z⟩ h = .enter := by
  have hmem := (c.graph.loopAt_natural hl).header_mem
  have hne : outside ≠ h := fun heq => hout (heq ▸ hmem)
  refine jump_eq_enter.2 ⟨fun heq => hzh (Option.some.inj heq),
    fun heq => hzh (Option.some.inj heq),
    fun heq => hne (Option.some.inj heq), ?_, .inl (List.contains_iff_mem.2 hmem), hfresh⟩
  refine Bool.or_eq_false_iff.2 ⟨?_, hinner⟩
  simp [Frame.follow, Frame.next?, hne, hzh]

/-- What no construct around leads to is written or cannot be. -/
theorem jump_of_not_target (hstop : p.stop ≠ some n) (hnext : p.frames.nextRound? ≠ some n)
    (hfollow : p.frames.follow? ≠ some n) : c.jump p n = .enter ∨ c.jump p n = .invalid := by
  rw [jump, if_neg hstop, if_neg hnext, if_neg hfollow]
  repeat' split
  all_goals simp

/-! ### Closed zones -/

variable {Z : Nat → Prop} {frames : Frames} {W W' : List Nat} {m h z s : Nat}

/-- The block can be written within the innermost loop. -/
structure Free (c : Context) (frames : Frames) (W : List Nat) (n : Nat) : Prop where
  reachable : c.graph.graph.links.Reachable FlowGraph.entry n
  inner : frames.isOuterTarget n = false
  inLoop : frames.inLoop n = true
  fresh : n ∉ W

/-- A block that may be written could be written before, too. -/
theorem Free.of_subset (h : c.Free frames W' n) (hsub : W ⊆ W') : c.Free frames W n :=
  ⟨h.reachable, h.inner, h.inLoop, fun hmem => h.fresh (hsub hmem)⟩

/-- The block goes back to the header of the loop, and everywhere else it leaves it. -/
structure ExitLatch (c : Context) (l : Loop) (z : Nat) : Prop where
  mem : z ∈ l.body
  back : l.header ∈ c.graph.successors z
  exit : ∀ k ∈ c.graph.successors z, k = l.header ∨ k ∉ l.body

/-- The code of a block in the zone stays in it: the code of the block itself, what can be written
    as a tail of its own, and the latch of a `do` loop that begins in the zone. -/
structure Closed (c : Context) (Z : Nat → Prop) (frames : Frames) (W : List Nat) : Prop where
  enter : ∀ n, Z n → c.Free frames W n → ∀ m ∈ c.graph.successors n, Z m
  tail : ∀ n, Z n → c.graph.graph.links.Reachable FlowGraph.entry n → n ∉ W →
    c.isPrivateTail n = true → ∀ m, c.graph.graph.links.Reachable n m → Z m
  latch : ∀ h l z, c.graph.loopAt? h = some l → Z h → c.Free frames W h →
    frames.isHeader h = false → c.ExitLatch l z → z ≠ h → Z z → ∀ k ∈ c.graph.successors z, Z k

namespace Closed

/-- A set that no edge leaves is a closed zone everywhere. -/
theorem of_successors (hZ : ∀ n, Z n → ∀ m ∈ c.graph.successors n, Z m) (frames : Frames)
    (W : List Nat) : c.Closed Z frames W where
  enter n hn _ := hZ n hn
  tail n hn _ _ _ m hm := by
    obtain ⟨ns, hp⟩ := hm
    have hpath : ∀ {a b ns}, c.graph.graph.links.Path a b ns → Z a → Z b := fun hp => by
      induction hp with
      | single => exact id
      | cons hk _ ih => exact fun ha => ih (hZ _ ha _ hk)
    exact hpath hp hn
  latch _ _ z _ _ _ _ _ _ hz := hZ z hz

/-- With more blocks written the set is still closed. -/
theorem mono (hZ : c.Closed Z frames W) (hsub : W ⊆ W') : c.Closed Z frames W' where
  enter n hn hfree := hZ.enter n hn (hfree.of_subset hsub)
  tail n hn hr hfresh := hZ.tail n hn hr fun hmem => hfresh (hsub hmem)
  latch h l z hl hh hfree := hZ.latch h l z hl hh (hfree.of_subset hsub)

/-- Inside one more construct, if its blocks belong to the innermost loop around it. -/
theorem push (hZ : c.Closed Z frames W) {f : Frame}
    (hin : ∀ n, Frames.inLoop (f :: frames) n = true → frames.inLoop n = true) :
    c.Closed Z (f :: frames) W := by
  have hfree : ∀ n, c.Free (f :: frames) W n → c.Free frames W n := fun n hn =>
    ⟨hn.reachable, (Bool.or_eq_false_iff.1 hn.inner).2, hin n hn.inLoop, hn.fresh⟩
  refine ⟨fun n hn hn' => hZ.enter n hn (hfree n hn'), hZ.tail, fun h l z hl hh hh' hheader => ?_⟩
  exact hZ.latch h l z hl hh (hfree h hh') (Bool.or_eq_false_iff.1 hheader).2

/-- Inside a loop that is written as part of the innermost loop around it. -/
theorem push_loop (hZ : c.Closed Z frames W) (hs : frames.Sound c W) {l : Loop}
    (hl : c.graph.loopAt? h = some l) (hfree : c.Free frames W h)
    (hheader : frames.isHeader h = false)
    (next : Nat) (follow : Option Nat) : c.Closed Z (.loop h next l.body follow :: frames) W := by
  refine hZ.push fun n hn => ?_
  have hn : n ∈ l.body := List.contains_iff_mem.1 hn
  rcases frames.find_isLoop with hnone | ⟨header, next', body, follow', hf⟩
  · rw [Frames.inLoop, hnone]
  · obtain ⟨hr, hnatural, _⟩ := hs.loop header next' body follow' hf
    have hin := hfree.inLoop
    rw [Frames.inLoop, hf] at hin ⊢
    have hne : h ≠ header := Frames.ne_header_of_isHeader hheader hf
    -- the header of the outer loop was reached before this one was written
    have hdom := (Anchored.reached hr).not_dominates hfree.fresh hne
    have hsub := (c.graph.loopAt_natural hl).subset hnatural (List.contains_iff_mem.1 hin) hne hdom
    exact List.contains_iff_mem.2 (hsub hn)

end Closed

/-! ### The zone of one block -/

/-- The zone in which a block is written, on its own or as the header of a loop. -/
structure Room (c : Context) (Z : Nat → Prop) (frames : Frames) (W : List Nat) (n : Nat) :
    Prop where
  mem : Z n
  closed : c.Closed Z frames W
  successors : ∀ m ∈ c.graph.successors n, Z m
  push : ∀ l next follow, c.graph.loopAt? n = some l → frames.isHeader n = false →
    c.Closed Z (.loop n next l.body follow :: frames) W
  latch : ∀ l z, c.graph.loopAt? n = some l → frames.isHeader n = false → c.ExitLatch l z → Z z →
    ∀ k ∈ c.graph.successors z, Z k

/-- What is written as part of the innermost loop stays in the zone, and what is not is a tail of
    its own, with a zone of its own. -/
theorem Closed.exists_room (hZ : c.Closed Z frames W) (hs : frames.Sound c W) (hn : Z n)
    (hr : Reached c W n) {stop : Option Nat} (hjump : c.jump ⟨frames, W, stop⟩ n = .enter) :
    ∃ Z', (∀ m, Z' m → Z m) ∧ c.Room Z' frames W n := by
  obtain ⟨_, _, _, hinner, hin, hfresh⟩ := jump_eq_enter.1 hjump
  rcases hin with hin | hprivate
  · have hfree : c.Free frames W n := ⟨hr.reachable, hinner, hin, hfresh⟩
    refine ⟨Z, fun _ hm => hm, hn, hZ, hZ.enter n hn hfree, fun l next follow hl hheader => ?_,
      fun l z hl hheader hlatch hz => ?_⟩
    · exact hZ.push_loop hs hl hfree hheader next follow
    · by_cases hzn : z = n
      · rw [hzn]
        exact hZ.enter n hn hfree
      · exact hZ.latch n l z hl hn hfree hheader hlatch hzn hz
  · have hstep : ∀ k, c.graph.graph.links.Reachable n k → ∀ m ∈ c.graph.successors k,
        c.graph.graph.links.Reachable n m := fun k hk m hm => hk.step hm
    refine ⟨c.graph.graph.links.Reachable n, hZ.tail n hn hr.reachable hfresh hprivate, .refl _ n,
      .of_successors hstep _ _, hstep n (.refl _ n), fun l next follow _ _ => ?_,
      fun l z _ _ _ hz => hstep z hz⟩
    exact .of_successors hstep _ _

/-! ### Arms that never come back -/

/-- Blocks that an arm reaches until control leaves it by a jump. -/
structure Confined (c : Context) (p : Position) (S : Nat → Prop) : Prop where
  enter : ∀ n, S n → c.jump p n = .enter → ∀ m ∈ c.graph.successors n, S m
  stop : ∀ n, S n → p.stop ≠ some n
  invalid : ∀ n, S n → c.jump p n = .invalid → c.graph.isLoopHeader n = true

/-- An arm with a number of blocks is confined. -/
theorem exists_confined {arm other k : Nat} (hk : c.closedArmSize? p arm other = some k)
    (harm : arm < c.graph.size) : ∃ S, S arm ∧ c.Confined p S := by
  have hstop : c.jump p arm ≠ .stop → p.stop ≠ some arm := fun hne heq => hne (by simp [jump, heq])
  -- an arm that is a jump by itself reaches nothing more
  have hself : c.jump p arm = .nextRound ∨ c.jump p arm = .leave →
      ∃ S : Nat → Prop, S arm ∧ c.Confined p S := fun hjump => by
    refine ⟨fun n => n = arm, rfl, ?_, ?_, ?_⟩
    · rintro n rfl hn
      rcases hjump with h | h <;> cases hn.symm.trans h
    · rintro n rfl
      exact hstop (by rcases hjump with h | h <;> simp [h])
    · rintro n rfl hn
      rcases hjump with h | h <;> cases hn.symm.trans h
  unfold closedArmSize? at hk
  split at hk
  · cases hk
  · cases hjump : c.jump p arm with
    | nextRound => exact hself (.inl hjump)
    | leave => exact hself (.inr hjump)
    | stop | invalid =>
      rw [hjump] at hk
      cases hk
    | enter =>
      rw [hjump] at hk
      simp only at hk
      split at hk
      · cases hk
      · rename_i hopen
        -- any other arm is what the search has found
        have hfound := (search_searched c.graph.size
          (fun n => if c.jump p n == .enter then c.graph.successors n else []) [arm]).mem_iff
        have hclosed := fun n hn => by
          have := mt (fun h => List.any_eq_true.2 ⟨n, hn, h⟩) hopen
          simpa using this
        refine ⟨_, (hfound arm).2 (.start (List.mem_singleton_self arm) harm),
          fun n hn hjn m hm => ?_,
          fun n hn => ?_, fun n hn hjn => ?_⟩
        · refine (hfound m).2 (.step ((hfound n).1 hn) ?_ (c.graph.lt_of_successor hm))
          simpa [hjn] using hm
        · exact (hclosed n hn).1.2
        · exact ((hclosed n hn).2 hjn).1

/-- The latch of a loop that can be written as part of the innermost one around it is no target of
    the constructs around it. -/
theorem ExitLatch.not_target {l : Loop} (hz : c.ExitLatch l z) (hs : frames.Sound c W)
    (hl : c.graph.loopAt? h = some l) (hfree : c.Free frames W h)
    (hheader : frames.isHeader h = false) (hne : z ≠ h) :
    frames.nextRound? ≠ some z ∧ frames.follow? ≠ some z := by
  have hlh : l.header = h := c.graph.header_of_loopAt hl
  have hback : h ∈ c.graph.successors z := hlh ▸ hz.back
  have hdom := (c.graph.loopAt_natural hl).dominated z hz.mem
  have hanchored : ¬c.Anchored W z := fun ha => ha.not_dominates hfree.fresh (Ne.symm hne) hdom
  refine ⟨fun hnext => ?_, fun hfollow => ?_⟩
  -- the next round of the loop around begins at its header, which is anchored, or at its latch
  · obtain ⟨f, hf, hfn⟩ := Option.bind_eq_some_iff.1 hnext
    rcases frames.find_isLoop with hnone | ⟨header, next, body, follow, hf'⟩
    · rw [hnone] at hf
      cases hf
    · obtain rfl := Option.some.inj (hf'.symm.trans hf)
      obtain rfl : next = z := Option.some.inj hfn
      obtain ⟨hr, _, hnext | hexit⟩ := hs.loop header next body follow hf'
      · exact hanchored (.reached (hnext ▸ hr))
      · rcases hexit h hback with heq | heq
        · exact Frames.ne_header_of_isHeader hheader hf' heq
        · -- the loop begins behind the loop around it
          have hout := List.any_eq_false.1 hfree.inner _ (List.mem_of_find?_eq_some hf')
          simp [Frame.follow, heq] at hout
  · rcases hs.follow z hfollow with ha | hout
    · exact hanchored ha
    · have hin := hfree.inLoop
      rcases frames.find_isLoop with hnone | ⟨header, next, body, follow, hf⟩
      · rw [Frames.inLoop, hnone] at hout
        cases hout
      · obtain ⟨_, hnatural, _⟩ := hs.loop header next body follow hf
        rw [Frames.inLoop, hf] at hin hout
        have hmem := hnatural.closed h (List.contains_iff_mem.1 hin)
          (Frames.ne_header_of_isHeader hheader hf) z hback
        exact Bool.false_ne_true (hout.symm.trans (List.contains_iff_mem.2 hmem))

/-- The block lies behind a tail of the arm that has not been written. -/
def BehindTail (c : Context) (W : List Nat) (S : Nat → Prop) (m : Nat) : Prop :=
  ∃ h, S h ∧ c.graph.graph.links.Reachable FlowGraph.entry h ∧ h ∉ W ∧ c.isPrivateTail h = true ∧
    c.graph.graph.links.Reachable h m

/-- What is reached from behind the tail is behind it, too. -/
theorem BehindTail.trans {S : Nat → Prop} (h : c.BehindTail W S n)
    (hm : c.graph.graph.links.Reachable n m) : c.BehindTail W S m := by
  obtain ⟨k, hk, hr, hfresh, htail, hn⟩ := h
  exact ⟨k, hk, hr, hfresh, htail, hn.trans hm⟩

namespace Confined

variable {S : Nat → Prop}

/-- Where a free block of the arm leads, the arm goes. -/
theorem free (hS : c.Confined ⟨frames, W, some s⟩ S) (hn : S n) (hfree : c.Free frames W n) :
    ∀ k ∈ c.graph.successors n, S k := by
  have hnext : frames.nextRound? ≠ some n := fun hnext => by
    have := Frames.isOuterTarget_of_nextRound hnext
    simp [hfree.inner] at this
  have hfollow : frames.follow? ≠ some n := fun hfollow => by
    have := Frames.isOuterTarget_of_follow hfollow
    simp [hfree.inner] at this
  exact hS.enter n hn (jump_eq_enter.2
    ⟨hS.stop n hn, hnext, hfollow, hfree.inner, .inl hfree.inLoop, hfree.fresh⟩)

/-- Where a latch in the arm leads, the arm goes: it is no header, so it can be written. -/
theorem latch (hS : c.Confined ⟨frames, W, some s⟩ S) (hs : frames.Sound c W) {l : Loop}
    (hl : c.graph.loopAt? h = some l) (hfree : c.Free frames W h)
    (hheader : frames.isHeader h = false) (hlatch : c.ExitLatch l z) (hne : z ≠ h) (hz : S z) :
    ∀ k ∈ c.graph.successors z, S k := by
  obtain ⟨hnext, hfollow⟩ := hlatch.not_target hs hl hfree hheader hne
  have hlh : l.header = h := c.graph.header_of_loopAt hl
  have hexit := hlh ▸ hlatch.exit
  refine hS.enter z hz ?_
  refine (jump_of_not_target (hS.stop z hz) hnext hfollow).resolve_right fun hinvalid => ?_
  have hno := c.graph.not_isLoopHeader_of_exit hl hlatch.mem hne hexit
  rw [hS.invalid z hz hinvalid] at hno
  cases hno

end Confined

/-- The blocks that a confined arm can reach form a closed zone without the end of the region. -/
theorem Closed.exists_within (hZ : c.Closed Z frames W) (hs : frames.Sound c W)
    (ha : c.Anchored W s) {S : Nat → Prop} (hS : c.Confined ⟨frames, W, some s⟩ S) :
    ∃ Z', (∀ m, Z' m → Z m) ∧ (∀ m, Z m → S m → Z' m) ∧ c.Closed Z' frames W ∧ ¬Z' s := by
  refine ⟨fun m => Z m ∧ (S m ∨ c.BehindTail W S m), fun m hm => hm.1,
    fun m hm hSm => ⟨hm, .inl hSm⟩, ⟨?_, ?_, ?_⟩, ?_⟩
  · rintro n ⟨hn, hST⟩ hfree m hm
    refine ⟨hZ.enter n hn hfree m hm, ?_⟩
    rcases hST with hSn | hTn
    · exact .inl (hS.free hSn hfree m hm)
    · exact .inr (hTn.trans (.of_succ hm))
  · rintro n ⟨hn, hST⟩ hr hfresh hp m hm
    refine ⟨hZ.tail n hn hr hfresh hp m hm, .inr ?_⟩
    rcases hST with hSn | hTn
    · exact ⟨n, hSn, hr, hfresh, hp, hm⟩
    · exact hTn.trans hm
  · rintro h l z hl ⟨hh, _⟩ hfree hheader hlatch hne ⟨hz, hST⟩ k hk
    refine ⟨hZ.latch h l z hl hh hfree hheader hlatch hne hz k hk, ?_⟩
    rcases hST with hSz | hTz
    · exact .inl (hS.latch hs hl hfree hheader hlatch hne hSz k hk)
    · exact .inr (hTz.trans (.of_succ hk))
  · -- a tail dominates what lies behind it, and it has not been written, while `s` is anchored
    rintro ⟨_, hSs | ⟨h, hSh, hr, hfresh, hp, hs⟩⟩
    · exact hS.stop s hSs rfl
    · have hne : h ≠ s := by
        rintro rfl
        exact hS.stop h hSh rfl
      exact ha.not_dominates hfresh hne (dominates_of_isPrivateTail hr hp hs)

end Context

end Restructure
