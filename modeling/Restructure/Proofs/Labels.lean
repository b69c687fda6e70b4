import Restructure.Proofs.Flow.Graph
import Restructure.Proofs.Origins
import Restructure.Proofs.Region.Labels
import Restructure.Proofs.Region.Whole

namespace Restructure

/-!
# Labels of recovered code — every jump finds its label

* `Marks.Complete` — every jump has a label, and a label stands once, or twice if it is repeated at
  the beginning of the `do` loop behind it.
* `Context.structured_complete`, `Context.flatten_complete` — structured code and flat code.
* `Method.labels_of_recover` — the code of every method.
-/

/-- Every jump has its label, and only repeated labels stand twice. -/
structure Marks.Complete (k : Marks) : Prop where
  jumps : ∀ n, 0 < k.jumps n → 0 < k.labels n
  once : ∀ n, 0 < k.labels n → k.labels n = 1 + k.repeats n
  again : ∀ n, k.labels n = 0 → k.repeats n = 0
  twice : ∀ n, k.repeats n ≤ 1

/-- Code without marks is complete. -/
theorem Marks.Complete.zero : Marks.Complete 0 where
  jumps _ h := h
  once _ h := absurd h (Nat.lt_irrefl 0)
  again _ _ := rfl
  twice _ := Nat.zero_le _

namespace Context

variable {c : Context} {n : Nat}

/-! ### Flat code -/

/-- The statement stands for itself, or it is a jump to one of the targets. -/
def JumpsTo (targets : List Nat) (s : Stmt) : Prop :=
  s.isAtomic = true ∨ ∃ t ∈ targets, s = .goto t ∨ ∃ cond, s = .gotoIf cond t

/-- A block ends with jumps to its successors. -/
theorem jumpsTo_of_flatExit {exit : Terminator} {st st' : Operands} {jumps : List Stmt}
    (h : flatExit n exit st = .ok (jumps, st')) : ∀ s ∈ jumps, JumpsTo exit.successors s := by
  intro s hs
  cases exit with
  | goto t =>
    cases h
    obtain rfl := List.mem_singleton.1 hs
    exact .inr ⟨t, by simp [Terminator.successors], .inl rfl⟩
  | ret =>
    cases h
    obtain rfl := List.mem_singleton.1 hs
    exact .inl rfl
  | retValue | throw =>
    obtain ⟨⟨e, st₁⟩, _, h⟩ := Except.bind_eq_ok.1 h
    cases h
    obtain rfl := List.mem_singleton.1 hs
    exact .inl rfl
  | branch test taken fallthrough =>
    obtain ⟨⟨cond, st₁⟩, _, h⟩ := Except.bind_eq_ok.1 h
    cases h
    rcases List.mem_cons.1 hs with rfl | hs
    · exact .inr ⟨taken, by simp [Terminator.successors], .inr ⟨cond, rfl⟩⟩
    · obtain rfl := List.mem_singleton.1 hs
      exact .inr ⟨fallthrough, by simp [Terminator.successors], .inl rfl⟩
  | switch cases default =>
    obtain ⟨⟨key, st₁⟩, _, h⟩ := Except.bind_eq_ok.1 h
    simp only at h
    split at h
    · cases h
    · cases h
      -- a test for each key, and the jump to the default behind them
      rcases List.mem_append.1 hs with hs | hs
      · obtain ⟨k, hk, rfl⟩ := List.mem_map.1 hs
        refine .inr ⟨k.2, ?_, .inr ⟨_, rfl⟩⟩
        exact List.mem_append_left _ (List.mem_map_of_mem hk)
      · obtain rfl := List.mem_singleton.1 hs
        exact .inr ⟨default, by simp [Terminator.successors], .inl rfl⟩

/-- The marks of flat code: one label for each of the blocks, and jumps to the targets. -/
structure FlatMarks (ns targets : List Nat) (k : Marks) : Prop where
  labels : ∀ m, k.labels m = ns.count m
  repeats : ∀ m, k.repeats m = 0
  jumps : ∀ m, 0 < k.jumps m → m ∈ targets

/-- No blocks have no marks. -/
theorem FlatMarks.zero (targets : List Nat) : FlatMarks [] targets 0 where
  labels _ := rfl
  repeats _ := rfl
  jumps _ h := absurd h (Nat.lt_irrefl 0)

/-- The marks of flat blocks are added. -/
theorem FlatMarks.add {ns ms ts us : List Nat} {k k' : Marks} (h : FlatMarks ns ts k)
    (h' : FlatMarks ms us k') : FlatMarks (ns ++ ms) (ts ++ us) (k + k') where
  labels m := by rw [Marks.labels_add, h.labels, h'.labels, List.count_append]
  repeats m := by rw [Marks.repeats_add, h.repeats, h'.repeats]
  jumps m hm := by
    rw [Marks.jumps_add] at hm
    by_cases hk : 0 < k.jumps m
    · exact List.mem_append_left _ (h.jumps m hk)
    · exact List.mem_append_right _ (h'.jumps m (by omega))

/-- A jump marks its target. -/
theorem JumpsTo.flatMarks {targets : List Nat} {s : Stmt} (h : JumpsTo targets s) :
    FlatMarks [] targets s.mark := by
  rcases h with hs | ⟨t, ht, hs⟩
  · rw [Stmt.mark_of_isAtomic hs]
    exact .zero targets
  · have hmark : s.mark = (Stmt.goto t).mark := by
      rcases hs with rfl | ⟨cond, rfl⟩
      · rfl
      · exact Stmt.mark_gotoIf cond t
    rw [hmark]
    refine ⟨fun _ => rfl, fun _ => rfl, fun m hm => ?_⟩
    have hm : 0 < [t].count m := hm
    rw [List.mem_singleton.1 (List.count_pos_iff.1 hm)]
    exact ht

/-- Jumps behind a sequence of statements add no labels. -/
theorem marks_append_jumps {targets : List Nat} {js : List Stmt} (ss : List Stmt)
    (h : ∀ s ∈ js, JumpsTo targets s) :
    ∃ k, Stmt.marks (ss ++ js) = Stmt.marks ss + k ∧ FlatMarks [] targets k := by
  induction js generalizing ss with
  | nil => exact ⟨0, by simp, .zero targets⟩
  | cons s js ih =>
    obtain ⟨k, hk, hflat⟩ := ih (ss ++ [s]) fun t ht => h t (List.mem_cons_of_mem _ ht)
    have hs := h s (List.mem_cons_self ..)
    have hne : ∀ b d, s ≠ .doWhile b d := by
      rintro b d rfl
      rcases hs with hs | ⟨t, _, hs | ⟨cond, hs⟩⟩ <;> cases hs
    rw [Stmt.marks_concat_of_ne ss hne, List.append_assoc, List.singleton_append] at hk
    refine ⟨s.mark + k, by rw [hk, Marks.add_assoc], ?_⟩
    have hadd := hs.flatMarks.add hflat
    exact ⟨hadd.labels, hadd.repeats, fun m hm => by simpa using hadd.jumps m hm⟩

/-- What is written flat has a label for each of its blocks, and jumps to their successors. -/
theorem Flattens.marks {s s' : Scope} {ns targets : List Nat} (h : c.Flattens ns s s' targets) :
    (∃ k, Stmt.marks s'.stmts = Stmt.marks s.stmts + k ∧ FlatMarks ns targets k) ∧
      ∀ m ∈ targets, ∃ n ∈ ns, m ∈ c.graph.successors n := by
  induction h with
  | nil => exact ⟨⟨0, by simp, .zero []⟩, by simp⟩
  | @cons n ns targets b m jumps s s₁ s₂ s' hb hlabel hrun hexit hjumps _ ih =>
    have hedit : Edited s₁.stmts m.scope.stmts := Simulation.run_edited hrun
    have hmarks : Stmt.marks m.scope.stmts = Stmt.marks s.stmts + (Stmt.label n).mark := by
      rw [Stmt.marks_of_edited hedit, Scope.stmts_of_append hlabel,
        Stmt.marks_concat_of_ne _ (by simp)]
    have hself : FlatMarks [n] [] (Stmt.label n).mark :=
      ⟨fun _ => rfl, fun _ => rfl, fun _ hm => absurd hm (Nat.lt_irrefl 0)⟩
    -- the label and the jumps of the block are behind what was there, and the rest is behind them
    obtain ⟨k, hk, hflat⟩ := marks_append_jumps m.scope.stmts (jumpsTo_of_flatExit hexit)
    rw [← stmts_of_appendAll hjumps, hmarks, Marks.add_assoc] at hk
    obtain ⟨⟨k', hk', hrest⟩, htargets⟩ := ih
    refine ⟨⟨_, by rw [hk', hk, Marks.add_assoc], (hself.add hflat).add hrest⟩, fun t ht => ?_⟩
    rcases List.mem_append.1 ht with ht | ht
    · exact ⟨n, List.mem_cons_self .., (FlowGraph.mem_successors_of_block hb).2 ht⟩
    · obtain ⟨j, hj, ht⟩ := htargets t ht
      exact ⟨j, List.mem_cons_of_mem _ hj, ht⟩

/-- Flat code has one label for every reachable block, and jumps only to these. -/
theorem flatten_complete {scope scope' : Scope} (hs : scope.stmts = [])
    (h : c.flatten scope = .ok scope') : (Stmt.marks scope'.stmts).Complete := by
  obtain ⟨targets, hblocks⟩ := flattens_of_flatten h
  obtain ⟨⟨k, hk, hflat⟩, htargets⟩ := hblocks.marks
  rw [hs, Stmt.marks_nil, Marks.zero_add] at hk
  rw [hk]
  refine ⟨fun m hm => ?_, fun m hm => ?_, fun m _ => hflat.repeats m, fun m => ?_⟩
  · obtain ⟨n, hn, hm⟩ := htargets m (hflat.jumps m hm)
    rw [hflat.labels, List.count_pos_iff, mem_reachableBlocks]
    exact c.graph.isReachable_of_successor (mem_reachableBlocks.1 hn) hm
  · rw [hflat.labels] at hm ⊢
    rw [hflat.repeats, List.count_eq_one_of_mem reachableBlocks_nodup (List.count_pos_iff.1 hm)]
  · rw [hflat.repeats]
    exact Nat.zero_le 1

/-! ### Structured code -/

open Pass

/-- What only jumps lead to is labelled behind the code. -/
theorem Completes.marks {s s' : Scope} {p p' : Progress} (h : c.Completes s p s' p') :
    ∃ k, Stmt.marks s'.stmts = Stmt.marks s.stmts + k ∧ k.Placed [] p p' := by
  cases h with
  | dropped _ hdrop =>
    refine ⟨0, ?_, .refl [] p⟩
    rw [Stmt.marks_of_edited ((dropReturn_trimmed hdrop).edited rfl), Marks.add_zero]
  | flat _ _ hcode =>
    -- every block of the rest gets one label, and none had one before
    obtain ⟨⟨k, hk, hflat⟩, _⟩ := hcode.marks
    refine ⟨k, hk, fun m hm => List.mem_append_right _ hm,
      fun m hm => Loop.mem_foldl_insertAscending.2 (.inr hm),
      fun m hm => Loop.mem_foldl_insertAscending.2 (.inl (hflat.jumps m hm)), fun m => ?_,
      fun m hm => ?_, fun m hm => ?_, fun m _ => hflat.repeats m, fun m => ?_,
      fun m _ => hflat.repeats m⟩
    · show ((c.unwritten p).reverse ++ p.placed).count m = p.placed.count m + k.labels m
      rw [hflat.labels, List.count_append, List.count_reverse, Nat.add_comm]
    · rw [hflat.labels, List.count_pos_iff] at hm
      exact ⟨(mem_unwritten.1 hm).2, List.mem_append_left _ hm⟩
    · rw [hflat.labels] at hm ⊢
      rw [hflat.repeats, List.count_eq_one_of_mem unwritten_nodup (List.count_pos_iff.1 hm)]
    · rw [hflat.repeats]
      exact Nat.zero_le 1

/-- The whole code is labelled as its progress says. -/
theorem code_placed {labels : List Nat} {body : Scope} (hs : body.stmts = []) :
    Ensures (c.code labels body) {} fun s p' => (Stmt.marks s.stmts).Placed [] {} p' := by
  refine code_derives.imp fun s p' ⟨m, p, hregion, htail⟩ => ?_
  have hb : Behind body.stmts {} := hs ▸ .nil {}
  obtain ⟨hl, -⟩ := hregion.labelled hb
  have hl : Labelled [] body.stmts {} m.scope.stmts p := hl
  obtain ⟨k, hk, hp⟩ := htail.marks
  rw [hs] at hl
  rw [hk]
  exact hl.placed.trans hp

/-- A pass without unlabelled targets has every label that its jumps need. -/
theorem pass_complete {labels : List Nat} {body : Scope} {r : Result} (hs : body.stmts = [])
    (h : c.pass labels body = .ok r) (hr : r.unlabeled = []) :
    (Stmt.marks r.body.stmts).Complete := by
  obtain ⟨p, hcode, -, hmissing⟩ := pass_inv h
  have hp := code_placed hs r.body p hcode
  refine ⟨fun m hm => ?_, hp.once, hp.again, hp.twice⟩
  -- no target lacks its label
  have htarget := hp.jumps m hm
  have hplaced : m ∈ p.placed := by
    by_contra hnot
    have hmem : m ∈ r.unlabeled := by
      rw [hmissing, List.mem_filter]
      exact ⟨htarget, by simpa using hnot⟩
    rw [hr] at hmem
    cases hmem
  have := hp.placed m
  have := List.count_pos_iff.2 hplaced
  simp only [List.count_nil] at *
  omega

/-- Structured code that is accepted has every label that its jumps need. -/
theorem structured_complete {body : Scope} {r : Result} (hs : body.stmts = [])
    (h : c.structured body = .ok r) : (Stmt.marks r.body.stmts).Complete := by
  obtain ⟨labels, hpass, hr⟩ := exists_pass_of_passes h
  exact pass_complete hs hpass hr

end Context

namespace Method

variable {config : Config} {m : Method} {r : RecoveredBody}

/-- The labels and the jumps of recovered code are complete. -/
theorem recover_complete (h : m.recover config = .ok r) : (Stmt.marks r.body.stmts).Complete := by
  obtain ⟨body, _, horigin, hlock, _⟩ := recover_inv h
  rw [Scope.stmts_of_lock hlock]
  cases horigin with
  | bodyless _ _ => exact .zero
  | structured _ hcode => exact Context.structured_complete rfl hcode
  | flat _ hcode => exact Context.flatten_complete rfl hcode

/-- In the code of every method each jump has its label. A label stands once, but one that is
    repeated at the beginning of the `do` loop behind it stands twice; so all labels and jumps are
    unambiguous exactly when no label is repeated. -/
theorem labels_of_recover (h : m.recover config = .ok r) :
    (∀ n ∈ r.body.labels, r.body.labels.count n = 1 + r.body.relabels.count n) ∧
      r.body.relabels.Nodup ∧ r.body.relabels ⊆ r.body.labels ∧ r.body.jumps ⊆ r.body.labels ∧
      ((r.body.labels.Nodup ∧ ∀ n ∈ r.body.jumps, r.body.labels.count n = 1) ↔
        r.body.relabels = []) := by
  obtain ⟨hjumps, honce, hagain, htwice⟩ := recover_complete h
  simp only [← Scope.labels_count, ← Scope.jumps_count, ← Scope.relabels_count,
    List.count_pos_iff] at hjumps honce hagain htwice
  have hsub : r.body.relabels ⊆ r.body.labels := fun n hn => by
    by_contra hnot
    have := hagain n (List.count_eq_zero.2 hnot)
    exact List.count_eq_zero.1 this hn
  refine ⟨honce, List.nodup_iff_count_le_one.2 htwice, hsub, hjumps, fun ⟨hnodup, _⟩ => ?_,
    fun hnil => ?_⟩
  · rw [List.eq_nil_iff_forall_not_mem]
    intro n hn
    have h₁ := honce n (hsub hn)
    have h₂ := List.count_pos_iff.2 hn
    have h₃ := List.nodup_iff_count_le_one.1 hnodup n
    omega
  · have hone : ∀ n ∈ r.body.labels, r.body.labels.count n = 1 := fun n hn => by
      rw [honce n hn, hnil, List.count_nil]
    refine ⟨List.nodup_iff_count_le_one.2 fun n => ?_, fun n hn => hone n (hjumps n hn)⟩
    by_cases hn : n ∈ r.body.labels
    · rw [hone n hn]
    · rw [List.count_eq_zero.2 hn]
      exact Nat.zero_le 1

/-! ### Two methods with jumps -/

/-- What a computation that succeeds gives. -/
theorem exists_of_map_toOption {α β : Type} {x : Except Error α} {f : α → β} {b : β}
    (h : x.toOption.map f = some b) : ∃ a, x = .ok a ∧ f a = b := by
  cases x with
  | error e => cases h
  | ok a => exact ⟨a, rfl, Option.some.inj h⟩

/-- A method of no parameters with the given blocks. -/
def ofBlocks (blocks : List Block) : Method where
  owner := "T"
  name := "f"
  descriptor := "()V"
  access := 9
  maxLocals := 4
  locals := []
  blocks := blocks

/-- A cycle of two blocks that is entered at both. -/
def crossed : Method := ofBlocks
  [⟨[.load 0 "I"], .branch (.zero .eq) 1 2⟩, ⟨[.load 1 "I"], .branch (.zero .eq) 2 3⟩,
    ⟨[.load 2 "I"], .branch (.zero .eq) 1 3⟩, ⟨[], .ret⟩]

/-- The target of each jump has its label, and none is repeated. -/
theorem crossed_labels :
    ∃ r, crossed.recover {} = .ok r ∧ r.body.labels = [2, 1] ∧ r.body.jumps = [2, 1] ∧
      ((r.body.labels.Nodup ∧ ∀ n ∈ r.body.jumps, r.body.labels.count n = 1) ↔
        r.body.relabels = []) := by
  have heval : (crossed.recover {}).toOption.map (fun r => (r.body.labels, r.body.jumps))
      = some ([2, 1], [2, 1]) := by decide +kernel
  obtain ⟨r, hr, h⟩ := exists_of_map_toOption heval
  obtain ⟨hl, hj⟩ := Prod.mk.inj h
  exact ⟨r, hr, hl, hj, (labels_of_recover hr).2.2.2.2⟩

/-- A loop whose way back goes through the latch of a `do` loop that is entered at two places. -/
def tangled : Method := ofBlocks
  [⟨[.load 0 "I"], .branch (.zero .eq) 1 3⟩, ⟨[], .goto 3⟩,
    ⟨[.load 0 "I"], .branch (.zero .eq) 0 3⟩, ⟨[], .goto 2⟩]

/-- Labels are not always unambiguous: here the label of the `do` loop stands twice. -/
theorem tangled_label_repeated :
    ∃ r, tangled.recover {} = .ok r ∧ r.body.labels = [3, 3] ∧ r.body.jumps = [3] ∧
      ¬(r.body.labels.Nodup ∧ ∀ n ∈ r.body.jumps, r.body.labels.count n = 1) := by
  have heval : (tangled.recover {}).toOption.map (fun r => (r.body.labels, r.body.jumps))
      = some ([3, 3], [3]) := by decide +kernel
  obtain ⟨r, hr, h⟩ := exists_of_map_toOption heval
  obtain ⟨hl, hj⟩ := Prod.mk.inj h
  refine ⟨r, hr, hl, hj, fun ⟨hnodup, _⟩ => ?_⟩
  rw [hl] at hnodup
  revert hnodup
  decide

end Method

end Restructure
