import Restructure.Proofs.Region.Begun
import Restructure.Proofs.Region.Derivations
import Restructure.Proofs.Region.Tally
import Restructure.Proofs.Region.Zones

namespace Restructure

/-!
# Once — a call is written when its block is

A void static method that a single instruction calls is named once by the code as soon as the block
of that instruction is written, and not before. So its block must not be written twice: no loop is
entered behind its header, and the latch of a `do` loop is written by that loop alone.

* `Home` — the block of the call.
* `Once` — what a piece of code does to the tally of the call.
* `Context.chain_once`, `Context.CollapsesTo.once`, `Context.loopTest_once`, `Context.latch_fresh` —
  what follows for chains, collapsed branches and loops.
* `Piece.WritesOnce`, `Context.Derives.once` — and so for all that the walk writes.
-/

/-! ### The block of a call -/

/-- Block `b` holds the only instruction that calls the method, and every block is reachable. -/
structure Home (c : Context) (f : MethodRef) (b : Nat) : Prop where
  void : ∀ n k, c.graph.block? n = some k → VoidCalls f k.insns
  count : ∀ n k, c.graph.block? n = some k →
    k.insns.countP (·.callee? == some f) = if n = b then 1 else 0
  reachable : ∀ n < c.graph.size, c.graph.graph.links.Reachable FlowGraph.entry n

/-- The block is the latch of an enclosing `do` loop, which writes it itself. -/
def Frames.Latched (c : Context) (b : Nat) (frames : Frames) : Prop :=
  ∃ h body outside, .loop h b body (some outside) ∈ frames ∧ b ≠ h ∧
    ∀ m, m ∈ c.graph.successors b ↔ m = h ∨ m = outside

namespace Frames

variable {c : Context} {b : Nat} {frames : Frames} {g : Frame}

/-- One more frame. -/
theorem Latched.push (h : frames.Latched c b) : Latched c b (g :: frames) := by
  obtain ⟨header, body, outside, hmem, hrest⟩ := h
  exact ⟨header, body, outside, List.mem_cons_of_mem _ hmem, hrest⟩

/-- A latch that jumps lead to is a target of them. -/
theorem Latched.isOuterTarget (h : frames.Latched c b) : frames.isOuterTarget b = true := by
  obtain ⟨header, body, outside, hmem, _⟩ := h
  exact List.any_eq_true.2 ⟨_, hmem, by simp [Frame.next?]⟩

/-- A loop whose next round begins at its header has no latch of its own. -/
theorem Latched.of_loop {header : Nat} {body : List Nat} {follow : Option Nat}
    (h : Latched c b (.loop header header body follow :: frames)) : frames.Latched c b := by
  obtain ⟨header', body', outside, hmem, hne, hsucc⟩ := h
  rcases List.mem_cons.1 hmem with heq | hmem
  · cases heq
    exact absurd rfl hne
  · exact ⟨header', body', outside, hmem, hne, hsucc⟩

/-- Where a block is written, it is no latch of an enclosing `do` loop. -/
theorem ne_of_latched {n : Nat} (hinner : frames.isOuterTarget n = false)
    (h : frames.Latched c b) : n ≠ b := by
  rintro rfl
  rw [h.isOuterTarget] at hinner
  cases hinner

end Frames

/-! ### Pieces of code -/

/-- Code grows from the statements `ss` to `ts` while the written blocks grow from `W` to `W'`: the
    tally grows by one exactly if block `b` is written on the way. -/
structure Once (c : Context) (b : Nat) (P : Node → Bool) (frames : Frames) (ss : List Stmt)
    (W : List Nat) (ts : List Stmt) (W' : List Nat) : Prop where
  written : W ⊆ W'
  begun : c.LoopsBegun W'
  tally : Stmt.tally P ts + (if b ∈ W then 1 else 0) = Stmt.tally P ss + if b ∈ W' then 1 else 0
  latched : frames.Latched c b → b ∈ W' → b ∈ W

namespace Once

variable {c : Context} {f : MethodRef} {b : Nat} {P : Node → Bool} {frames : Frames} {g : Frame}
  {ss ts us : List Stmt} {W W₁ W' : List Nat}

/-- Nothing has been written. -/
theorem refl (ss : List Stmt) (hW : c.LoopsBegun W) : Once c b P frames ss W ss W :=
  ⟨List.Subset.refl _, hW, rfl, fun _ h => h⟩

/-- One piece of code behind another one. -/
theorem trans (h : Once c b P frames ss W ts W₁) (h' : Once c b P frames ts W₁ us W') :
    Once c b P frames ss W us W' := by
  refine ⟨List.Subset.trans h.written h'.written, h'.begun, ?_,
    fun hl hb => h.latched hl (h'.latched hl hb)⟩
  have := h.tally
  have := h'.tally
  omega

/-- A piece of code in a scope of its own. -/
theorem append (h : Once c b P frames ss W ts W₁) (h' : Once c b P frames [] W₁ us W') :
    Once c b P frames ss W (ts ++ us) W' := by
  refine ⟨List.Subset.trans h.written h'.written, h'.begun, ?_,
    fun hl hb => h.latched hl (h'.latched hl hb)⟩
  have h₁ := h.tally
  have h₂ := h'.tally
  rw [Stmt.tally_nil] at h₂
  rw [Stmt.tally_append]
  omega

/-- Only how often the statements name the method matters. -/
theorem of_tally (h : Once c b P frames ss W ts W') (heq : Stmt.tally P us = Stmt.tally P ts) :
    Once c b P frames ss W us W' := ⟨h.written, h.begun, heq ▸ h.tally, h.latched⟩

/-- Code within one more construct. -/
theorem outer (h : Once c b P (g :: frames) ss W ts W') : Once c b P frames ss W ts W' :=
  ⟨h.written, h.begun, h.tally, fun hl => h.latched hl.push⟩

/-- More blocks have been written that do not hold the call. -/
theorem markAll (h : Once c b P frames ss W ts W') {ns : List Nat}
    (hns : ∀ k ∈ ns, c.Begun (ns ++ W') k) (hb : b ∈ ns → b ∈ W') :
    Once c b P frames ss W ts (ns ++ W') := by
  have hmem : b ∈ ns ++ W' ↔ b ∈ W' := by
    rw [List.mem_append]
    exact ⟨fun h => h.elim hb id, .inr⟩
  refine ⟨fun k hk => List.mem_append_right _ (h.written hk), h.begun.append hns, ?_,
    fun hl hmem' => h.latched hl (hmem.1 hmem')⟩
  simp only [hmem]
  exact h.tally

/-- A block that is written where control comes to it, with the call if it is the block of the
    call. -/
theorem block {n : Nat} (hW : c.LoopsBegun W) (hn : c.Begun W n) (hfresh : n ∉ W)
    (hlatch : frames.Latched c b → n ≠ b)
    (htally : Stmt.tally P ts = Stmt.tally P ss + if n = b then 1 else 0) :
    Once c b P frames ss W ts (n :: W) where
  written := List.subset_cons_self _ _
  begun := by
    have hone : ∀ k ∈ [n], c.Begun ([n] ++ W) k := by
      intro k hk
      rw [List.mem_singleton.1 hk]
      exact hn.mono (List.subset_cons_self _ _)
    exact hW.append hone
  tally := by
    rw [htally]
    by_cases hnb : n = b
    · subst hnb
      simp [hfresh]
    · simp [hnb, Ne.symm hnb]
  latched hlat hb := (List.mem_cons.1 hb).resolve_left (Ne.symm (hlatch hlat))

/-- A `do` loop writes its latch behind everything else, and marks the header once more. -/
theorem latch {header latch : Nat} (h : Once c b P frames [] W ss W₁)
    (hbegun : ∀ k ∈ [header, latch], c.Begun ([header, latch] ++ W₁) k)
    (hin : latch ≠ header → header ∈ W₁)
    (hnot : latch = b → b ∉ W₁) (hne : frames.Latched c b → b ≠ header ∧ b ≠ latch)
    (htally : Stmt.tally P ts = Stmt.tally P ss + if latch = b then 1 else 0) :
    Once c b P frames [] W ts ([header, latch] ++ W₁) where
  written _ hk := List.mem_append_right _ (h.written hk)
  begun := h.begun.append hbegun
  tally := by
    have hcount := h.tally
    rw [htally]
    by_cases hlb : latch = b
    · have hb : b ∈ [header, latch] ++ W₁ := hlb ▸ (by simp)
      rw [if_pos hlb, if_pos hb]
      rw [if_neg (hnot hlb)] at hcount
      omega
    · -- the header counts where it has been written
      have hiff : b ∈ [header, latch] ++ W₁ ↔ b ∈ W₁ := by
        refine ⟨fun hmem => ?_, fun hmem => List.mem_append_right _ hmem⟩
        rcases List.mem_append.1 hmem with hmem | hmem
        · rcases List.mem_pair.1 hmem with heq | heq
          · rw [heq]
            exact hin fun hlh => hlb (hlh.trans heq.symm)
          · exact absurd heq.symm hlb
        · exact hmem
      simp only [hiff, if_neg hlb, Nat.add_zero]
      exact hcount
  latched hlat hmem := by
    obtain ⟨hheader, hlatch⟩ := hne hlat
    refine h.latched hlat ((List.mem_append.1 hmem).resolve_left fun hmem => ?_)
    exact (List.mem_pair.1 hmem).elim hheader hlatch

end Once

/-- A piece of code with the block that control goes on to. -/
structure OnceOnward (c : Context) (f : MethodRef) (b : Nat) (P : Node → Bool) (frames : Frames)
    (ss : List Stmt) (W : List Nat) (r : Onward) (W' : List Nat) : Prop where
  code : Once c b P frames ss W r.2.scope.stmts W'
  stack : r.2.stack.Avoids (Node.Names f)
  next : ∀ n, r.1 = some n → c.Begun W' n

/-- A piece of code in front of another one. -/
theorem Once.onward {c : Context} {f : MethodRef} {b : Nat} {P : Node → Bool} {frames : Frames}
    {ss ts : List Stmt} {W W₁ W' : List Nat} {r : Onward} (h : Once c b P frames ss W ts W₁)
    (h' : OnceOnward c f b P frames ts W₁ r W') : OnceOnward c f b P frames ss W r W' :=
  ⟨h.trans h'.code, h'.stack, h'.next⟩

/-- One more statement, which is counted, and a block to go on at. -/
theorem OnceOnward.added {c : Context} {f : MethodRef} {b : Nat} {P : Node → Bool} {frames : Frames}
    {ss ts : List Stmt} {W W' : List Nat} {s s' : Scope} {st : Operands} {t : Stmt}
    {next : Option Nat} (happend : s.append t = .ok s') (hst : st.Avoids (Node.Names f))
    (hcode : Once c b P frames ss W ts W')
    (htally : Stmt.tally P s.stmts + t.count P = Stmt.tally P ts)
    (hnext : ∀ n, next = some n → c.Begun W' n) :
    OnceOnward c f b P frames ss W (next, ⟨s', st⟩) W' := by
  refine ⟨hcode.of_tally ?_, hst, hnext⟩
  show Stmt.tally P s'.stmts = _
  rw [Scope.stmts_of_append happend, Stmt.tally_concat, htally]

/-- The same for a statement that does not name the method. -/
theorem OnceOnward.silent {c : Context} {f : MethodRef} {b : Nat} {P : Node → Bool}
    {frames : Frames} {W : List Nat} {s s' : Scope} {st : Operands} {t : Stmt} {next : Option Nat}
    (hP : Tracks f P) (hW : c.LoopsBegun W) (happend : s.append t = .ok s')
    (hst : st.Avoids (Node.Names f)) (ht : t.Avoids (Node.Names f))
    (hnext : ∀ n, next = some n → c.Begun W n) :
    OnceOnward c f b P frames s.stmts W (next, ⟨s', st⟩) W :=
  .added happend hst (.refl _ hW) (by rw [hP.count_of_avoids ht, Nat.add_zero]) hnext

/-- What a collapsed branch becomes does not name the method. -/
def Collapsed.Avoids (f : MethodRef) : Collapsed → Prop
  | .value _ e _ => e.Avoids (Node.Names f)
  | .stmt _ s _ => s.Avoids (Node.Names f)

/-! ### Simulated blocks -/

namespace Context

variable {c : Context} {f : MethodRef} {b n : Nat} {P : Node → Bool} {m : Simulation}
  {scope : Scope}

/-- A block that is simulated adds the call if it is the block of the call. -/
theorem block_tally (hH : Home c f b) (hP : Tracks f P) {k : Block} {m' : Simulation}
    (hk : c.graph.block? n = some k) (hrun : Simulation.run c.config m k.insns = .ok m')
    (hm : m.stack.Avoids (Node.Names f)) :
    m'.stack.Avoids (Node.Names f) ∧
      Stmt.tally P m'.scope.stmts = Stmt.tally P m.scope.stmts + if n = b then 1 else 0 := by
  obtain ⟨hst, htally⟩ := Simulation.run_tally hP (hH.void n k hk) hm hrun
  rw [hH.count n k hk] at htally
  exact ⟨hst, htally⟩

/-- A block over a scope of its own: it adds the call if it is the block of the call, and else
    nothing names the method. -/
theorem scratch_once (hH : Home c f b) (h : c.scratch? n scope = some m) :
    m.stack.Avoids (Node.Names f) ∧
      (∀ P, Tracks f P → Stmt.tally P m.scope.stmts = if n = b then 1 else 0) ∧
        (n ≠ b → ∀ s ∈ m.scope.stmts, s.Avoids (Node.Names f)) := by
  unfold scratch? at h
  split at h
  · rename_i k hk
    have hrun := Except.eq_ok_of_toOption h
    have hnil : (Simulation.start (scope.child .block)).stack.Avoids (Node.Names f) :=
      Operands.avoids_nil
    have htally : ∀ P, Tracks f P → Stmt.tally P m.scope.stmts = if n = b then 1 else 0 := by
      intro P hP
      rw [(Simulation.run_tally hP (hH.void n k hk) hnil hrun).2, hH.count n k hk]
      exact Nat.zero_add _
    refine ⟨(Simulation.run_tally (tracks_calls f) (hH.void n k hk) hnil hrun).1, htally,
      fun hne => ?_⟩
    have hcount := hH.count n k hk
    rw [if_neg hne, List.countP_eq_zero] at hcount
    -- no instruction of another block calls the method
    have hgrown := Simulation.run_grown Node.names_foreign hnil
      (fun i hi => Node.spares_of_callee (by simpa using hcount i hi)) hrun
    exact hgrown.stmts.avoids (fun s hs => by cases hs)
  · cases h

/-- A block that adds nothing which invokes the method is not the block of the call. -/
theorem ne_home_of_scratch (hH : Home c f b) (h : c.scratch? n scope = some m)
    (hnone : Stmt.tally (Node.invokes f) m.scope.stmts = 0) : n ≠ b := by
  rintro rfl
  have htally := (scratch_once hH h).2.1 _ (tracks_invokes f)
  rw [hnone, if_pos rfl] at htally
  exact Nat.zero_ne_one htally

/-- An empty scope has no statements. -/
theorem stmts_of_isEmpty {s : Scope} (h : s.isEmpty = true) : s.stmts = [] :=
  List.isEmpty_iff.1 h

/-- A block that only tests does not hold the call, and its condition does not name the method. -/
theorem pureTest_once (hH : Home c f b) {t : BranchTest} (h : c.pureTest n scope = some t) :
    n ≠ b ∧ t.cond.Avoids (Node.Names f) := by
  obtain ⟨k, _, h⟩ := Option.bind_eq_some_iff.1 h
  split at h
  · obtain ⟨m, hm, h⟩ := Option.bind_eq_some_iff.1 h
    split at h
    · rename_i hpure
      obtain ⟨⟨cond, st⟩, hcond, h⟩ := Option.bind_eq_some_iff.1 h
      cases h
      have hempty := stmts_of_isEmpty (Bool.and_eq_true_iff.1 hpure).1
      refine ⟨ne_home_of_scratch hH hm (by rw [hempty, Stmt.tally_nil]), ?_⟩
      exact (branchCondition_avoids Node.not_names_atomic Node.names_foreign.const
        (scratch_once hH hm).1 (Except.eq_ok_of_toOption hcond)).1
    · cases h
  · cases h

/-- The condition of a folded chain does not name the method if that of its first block does not. -/
theorem fold_avoids (hH : Home c f b) {eligible : Nat → Bool} {head test : BranchTest}
    {chain : List Nat} (hfold : head.fold c scope eligible n = (test, chain))
    (hhead : head.cond.Avoids (Node.Names f)) : test.cond.Avoids (Node.Names f) := by
  have hpair : ∀ {x y : Cond}, x.Avoids (Node.Names f) → y.Avoids (Node.Names f) →
      ∀ z ∈ [x, y], z.Avoids (Node.Names f) := fun hx hy z hz => by
    rcases List.mem_pair.1 hz with rfl | rfl
    · exact hx
    · exact hy
  exact BranchTest.fold_cond hfold hhead (fun k t ht => (pureTest_once hH ht).2)
    (Cond.negate_avoids Node.not_names_cond)
    (fun _ _ hx hy => Cond.any_avoids Node.not_names_cond (hpair hx hy))
    fun _ _ hx hy => Cond.all_avoids Node.not_names_cond (hpair hx hy)

/-- Behind its first block a chain does not hold the call. -/
theorem ne_home_of_chained (hH : Home c f b) {eligible : Nat → Bool} {test : BranchTest}
    {chain : List Nat} (h : Chained c scope eligible n test chain) {k : Nat} (hk : k ∈ chain)
    (hne : k ≠ n) : k ≠ b := by
  obtain ⟨t, ht⟩ := Option.isSome_iff_exists.1 (h.joined k hk hne).2
  exact (pureTest_once hH ht).1

/-- The arms of a conditional value do not hold the call, and their values do not name the
    method. -/
theorem built_once (hH : Home c f b) {pos : Position} {arm : ValueArm}
    (h : arm.Built c pos scope n) : b ∉ arm.blocks ∧ arm.value.Avoids (Node.Names f) := by
  induction h with
  | @leaf n merge k m e _ _ _ hm hempty hstack =>
    have hstmts := stmts_of_isEmpty hempty
    have hne := ne_home_of_scratch hH hm (by rw [hstmts, Stmt.tally_nil])
    have hst := (scratch_once hH hm).1
    rw [hstack] at hst
    exact ⟨by simpa using Ne.symm hne, hst e (List.mem_singleton_self _)⟩
  | @fork n head test inner taken fall _ hhead hfold _ _ _ iht ihf =>
    obtain ⟨hne, hcond⟩ := pureTest_once hH hhead
    have hchain := BranchTest.fold_chained hfold fun m => mem_successors_of_pureTest hhead
    refine ⟨fun hmem => ?_, BranchTest.choose_avoids (Node.names_foreign.expr _ rfl)
      (Cond.negate_avoids Node.not_names_cond _ (fold_avoids hH hfold hcond)) ihf.2 iht.2⟩
    simp only [List.mem_append] at hmem
    rcases hmem with (hmem | hmem) | hmem
    · exact iht.1 hmem
    · exact ihf.1 hmem
    · by_cases hbn : b = n
      · exact hne hbn.symm
      · exact ne_home_of_chained hH hchain hmem hbn rfl

/-- An arm that is a block alone does not hold the call, and what it assigns or returns does not
    name the method. -/
theorem shaped_once (hH : Home c f b) {shape : ArmShape} (h : c.Shaped scope n shape) :
    n ≠ b ∧ match shape with
      | .assign target value _ => target.Avoids (Node.Names f) ∧ value.Avoids (Node.Names f)
      | .ret value => value.Avoids (Node.Names f) := by
  cases h with
  | @assign k m target value merge _ _ hm hstmts _ =>
    have hne := ne_home_of_scratch hH hm (by rw [hstmts, Stmt.tally_assign])
    have hassign : (Stmt.assign target value).Avoids (Node.Names f) :=
      (scratch_once hH hm).2.2 hne _ (by simp [hstmts])
    have hparts : ∀ x ∈ Expr.allNodes target.operands ++ value.nodes, ¬x.Names f :=
      hassign.parts (by rw [Stmt.nodes])
    exact ⟨hne, Expr.allAvoid_iff.1 fun x hx => hparts x (List.mem_append_left _ hx),
      fun x hx => hparts x (List.mem_append_right _ hx)⟩
  | @ret k m value _ _ hm hstmts hstack =>
    have hst := (scratch_once hH hm).1
    rw [hstack] at hst
    exact ⟨ne_home_of_scratch hH hm (by rw [hstmts, Stmt.tally_nil]),
      hst value (List.mem_singleton_self _)⟩

/-- What a branch collapses into does not name the method. -/
theorem collapsed_avoids (hH : Home c f b) {pos : Position} {test : BranchTest} {form : Collapsed}
    (h : c.CollapsesTo pos scope test form) (ht : test.cond.Avoids (Node.Names f)) :
    b ∉ form.blocks ∧ form.Avoids f := by
  have hchoose := fun {x y : Expr} => BranchTest.choose_avoids (t := test) (a := x) (b := y)
    (Node.names_foreign.expr _ rfl) (Cond.negate_avoids Node.not_names_cond _ ht)
  have hpair : test.fallthrough ≠ b → test.taken ≠ b → b ∉ [test.fallthrough, test.taken] :=
    fun hf ht hmem => (List.mem_pair.1 hmem).elim (fun h => hf h.symm) fun h => ht h.symm
  cases h with
  | @value taken fall htaken hfall hmerge =>
    obtain ⟨hbt, hvt⟩ := built_once hH htaken
    obtain ⟨hbf, hvf⟩ := built_once hH hfall
    exact ⟨fun hmem => (List.mem_append.1 hmem).elim hbt hbf, hchoose hvf hvt⟩
  | assign _ _ hfall htaken =>
    obtain ⟨hnf, htarget, hvf⟩ := shaped_once hH hfall
    obtain ⟨hnt, _, hvt⟩ := shaped_once hH htaken
    exact ⟨hpair hnf hnt, Node.names_foreign.assign htarget (hchoose hvf hvt)⟩
  | ret _ hfall htaken =>
    obtain ⟨hnf, hvf⟩ := shaped_once hH hfall
    obtain ⟨hnt, hvt⟩ := shaped_once hH htaken
    exact ⟨hpair hnf hnt, Stmt.avoids_names (by simp) rfl (hchoose hvf hvt)⟩

end Context

/-! ### Chains, loops and arms -/

namespace Context

variable {c : Context} {f : MethodRef} {b : Nat} {P : Node → Bool} {frames : Frames}
  {W W₁ : List Nat}

/-- A condition that does not name the method, or its opposite. -/
theorem side_avoids {cond : Cond} (isTaken : Bool) (h : cond.Avoids (Node.Names f)) :
    (if isTaken then cond else cond.negate).Avoids (Node.Names f) := by
  cases isTaken with
  | true => exact h
  | false => exact Cond.negate_avoids Node.not_names_cond _ h

/-- A jump or a label does not name the method. -/
theorem plain_avoids {s : Stmt} (hs : ∀ e, s ≠ .eval e) (hnodes : s.nodes = [.stmt s]) :
    s.Avoids (Node.Names f) := Stmt.avoids_names hs hnodes fun _ h => by cases h

/-- The blocks of a chain can be marked together, and control comes to the targets of its test. -/
theorem chain_once (P : Node → Bool) (frames : Frames) (ss : List Stmt) (hH : Home c f b)
    {scope : Scope} {eligible : Nat → Bool} {n : Nat} {test : BranchTest} {chain : List Nat}
    (hchain : Chained c scope eligible n test chain) (hW : c.LoopsBegun W) (hn : c.Begun W n)
    (hb : b = n → b ∈ W) :
    Once c b P frames ss W ss (chain ++ W) ∧ c.Begun (chain ++ W) test.taken ∧
      c.Begun (chain ++ W) test.fallthrough := by
  have hbegun : ∀ k ∈ chain, c.Begun (chain ++ W) k :=
    hchain.spread (c.Begun (chain ++ W)) (hn.mono (List.subset_append_right _ _))
      fun k hk hbk m hm => hbk.of_successor (List.mem_append_left _ hk) hm
  have htarget : ∀ m, m = test.taken ∨ m = test.fallthrough → c.Begun (chain ++ W) m := by
    intro m hm
    obtain ⟨k, hk, hleads⟩ := hchain.left m hm
    exact (hbegun k hk).of_successor (List.mem_append_left _ hk) hleads
  -- only the first block of a chain may hold the call, and it has been written before
  refine ⟨(Once.refl _ hW).markAll hbegun fun hmem => ?_, htarget _ (.inl rfl),
    htarget _ (.inr rfl)⟩
  by_cases hbn : b = n
  · exact hb hbn
  · exact absurd rfl (ne_home_of_chained hH hchain hmem hbn)

/-- A collapsed branch does not hold the call, and control comes to the block behind it. -/
theorem CollapsesTo.once (ss : List Stmt) (hH : Home c f b) {pos : Position} {scope : Scope}
    {test : BranchTest} {form : Collapsed} (h : c.CollapsesTo pos scope test form)
    (hW : c.LoopsBegun W) (htaken : c.Begun W test.taken) (hfall : c.Begun W test.fallthrough)
    (hcond : test.cond.Avoids (Node.Names f)) :
    Once c b P frames ss W ss (form.blocks ++ W) ∧ form.Avoids f ∧
      ∀ n, form.merge? = some n → c.Begun (form.blocks ++ W) n := by
  obtain ⟨hb, havoids⟩ := collapsed_avoids hH h hcond
  -- the collapsed blocks have begun, from both targets on
  obtain ⟨hblocks, hmerge⟩ := h.spread (P := c.Begun (form.blocks ++ W))
    (fun n hn => by
      rcases hn with rfl | rfl
      · exact htaken.mono (List.subset_append_right _ _)
      · exact hfall.mono (List.subset_append_right _ _))
    fun k hk hbk m hm => hbk.of_successor (List.mem_append_left _ hk) hm
  exact ⟨(Once.refl _ hW).markAll hblocks fun hmem => absurd hmem hb, havoids, hmerge⟩

/-- A plain statement that is taken away at the end is not counted. -/
theorem tally_of_trimmed (hP : Tracks f P) {y : Stmt} {ss ts : List Stmt} (h : Trimmed y ss ts)
    (hy : y.nodes = [.stmt y]) (hne : ∀ e, y ≠ .eval e) : Stmt.tally P ts = Stmt.tally P ss := by
  cases h with
  | last =>
    have havoids : y.Avoids (Node.Names f) := plain_avoids hne hy
    rw [Stmt.tally_concat, hP.count_of_avoids havoids, Nat.add_zero]
  | same => rfl

/-- The statement for a loop takes its first and its last assignment from the scopes around. -/
theorem promoteFor_tally (hP : Tracks f P) {enabled : Bool} {scope scope' body : Scope}
    {cond : Cond} {s : Stmt} (hcond : cond.Avoids (Node.Names f))
    (h : promoteFor enabled scope cond body = .ok (s, scope')) :
    Stmt.tally P scope'.stmts + s.count P
      = Stmt.tally P scope.stmts + Stmt.tally P body.stmts := by
  cases promoteFor_inv h with
  | counting _ _ _ _ hstmts hbody _ =>
    -- both assignments move from the ends of the scopes into the head of the loop
    rw [hP.count_forLoop hcond, hstmts, hbody, Stmt.tally_concat, Stmt.tally_concat]
    omega
  | plain hbody hscope => rw [hP.count_whileLoop hcond, hbody, hscope]

/-- The chain of a loop's test begins with the header, does not hold the call, and leads into the
    loop and out of it. -/
theorem loopTest_once (P : Node → Bool) (frames : Frames) (ss : List Stmt) (hH : Home c f b)
    {l : Loop} {V : List Nat} {scope : Scope} {t : LoopTest}
    (htest : c.loopTest? l V scope = some t) (hW : c.LoopsBegun W) (hh : c.Begun W l.header) :
    Once c b P frames ss W ss (t.chain ++ W) ∧ t.cond.Avoids (Node.Names f) ∧
      l.header ∈ t.chain ∧ c.Begun (t.chain ++ W) t.inside ∧ c.Begun (t.chain ++ W) t.outside := by
  obtain ⟨test, head, hhead, hfold, -, -, hcond, htargets⟩ := loopTest_inv htest
  obtain ⟨hne, hheadcond⟩ := pureTest_once hH hhead
  have hchain := BranchTest.fold_chained hfold fun m => mem_successors_of_pureTest hhead
  obtain ⟨hcode, htaken, hfall⟩ := chain_once P frames ss hH hchain hW hh
    fun heq => absurd heq.symm hne
  have hbegun : ∀ k, k = t.inside ∨ k = t.outside → c.Begun (t.chain ++ W) k := by
    intro k hk
    rcases (htargets k).2 hk with rfl | rfl
    · exact htaken
    · exact hfall
  have htest := fold_avoids hH hfold hheadcond
  refine ⟨hcode, ?_, hchain.first_mem, hbegun _ (.inl rfl), hbegun _ (.inr rfl)⟩
  rcases hcond with heq | heq
  · exact heq ▸ htest
  · exact heq ▸ Cond.negate_avoids Node.not_names_cond _ htest

/-- The latch of a `do` loop is not that of a loop around. -/
theorem ne_of_latched_around {l : Loop} {latch outside : Nat}
    (hsucc : ∀ m, m ∈ c.graph.successors latch ↔ m = l.header ∨ m = outside)
    (hinner : frames.isOuterTarget l.header = false)
    (hheader : frames.isHeader l.header = false) (h : frames.Latched c b) : b ≠ latch := by
  rintro rfl
  obtain ⟨h', body', outside', hf, _, hsucc'⟩ := h
  -- the header would be the header of the loop around, or the block behind it
  rcases (hsucc' l.header).1 ((hsucc l.header).2 (.inl rfl)) with heq | heq
  · have := List.any_eq_false.1 hheader _ hf
    simp [Frame.isLoopAt, heq] at this
  · have := List.any_eq_false.1 hinner _ hf
    simp [Frame.follow, heq] at this

/-- Where the header of a `do` loop has been written, its latch has begun. -/
theorem latch_begun {l : Loop} {latch outside : Nat} (hl : c.graph.loopAt? l.header = some l)
    (hlatches : l.latches = [latch]) (hout : outside ∉ l.body)
    (hsucc : ∀ m, m ∈ c.graph.successors latch ↔ m = l.header ∨ m = outside)
    (hh : c.Begun W l.header) (hmem : l.header ∈ W) : c.Begun W latch := by
  obtain ⟨hlatch, hreach⟩ := mem_body_of_latch hl (hlatches ▸ List.mem_singleton_self latch)
  refine hh.of_latch hmem hl hreach hlatch fun k hk => ?_
  rcases (hsucc k).1 hk with heq | rfl
  · exact .inl heq
  · exact .inr hout

/-- The code in front of the latch of a `do` loop does not hold the latch: within the loop the latch
    is left to the loop, and before the loop it cannot have been written. -/
theorem latch_fresh {l : Loop} {latch outside : Nat} {ss ts : List Stmt}
    (hl : c.graph.loopAt? l.header = some l) (hlatches : l.latches = [latch])
    (hsucc : ∀ m, m ∈ c.graph.successors latch ↔ m = l.header ∨ m = outside)
    (hW : c.LoopsBegun W) (hfresh : l.header ∉ W)
    (hcode : Once c latch P (.loop l.header latch l.body (some outside) :: frames) ss W ts W₁)
    (honly : latch = l.header → W₁ = W) : latch ∉ W₁ := by
  obtain ⟨hlatch, -⟩ := mem_body_of_latch hl (hlatches ▸ List.mem_singleton_self latch)
  have hbefore : latch ∉ W := fun hmem => hfresh ((hW latch hmem).header_mem hmem hl hlatch)
  intro hmem
  by_cases hlh : latch = l.header
  · exact hbefore (honly hlh ▸ hmem)
  · have hlatched : Frames.Latched c latch (.loop l.header latch l.body (some outside) :: frames) :=
      ⟨l.header, l.body, outside, List.mem_cons_self .., hlh, hsucc⟩
    exact hbefore (hcode.latched hlatched hmem)

end Context

/-! ### The walk -/

/-- A label in front of a block adds nothing that is counted. -/
theorem Labelling.tally {f : MethodRef} {P : Node → Bool} {labels : List Nat} {n : Nat}
    {m m₁ : Simulation} {p p₁ : Progress} (hP : Tracks f P) (h : Labelling labels n m p m₁ p₁) :
    p₁.written = p.written ∧ m₁.stack = m.stack ∧
      Stmt.tally P m₁.scope.stmts = Stmt.tally P m.scope.stmts := by
  cases h with
  | none _ => exact ⟨rfl, rfl, rfl⟩
  | @placed s _ _ happend =>
    have hlabel : (Stmt.label n).Avoids (Node.Names f) := Context.plain_avoids (by simp) rfl
    refine ⟨rfl, rfl, ?_⟩
    show Stmt.tally P s.stmts = _
    rw [Scope.stmts_of_append happend, Stmt.tally_concat, hP.count_of_avoids hlabel, Nat.add_zero]

/-- Where the loops that hold the written blocks have been begun, a piece of the walk adds one to
    the tally exactly if it writes the block of the call, and it writes its first block unless
    control leaves at once. -/
def Piece.WritesOnce (c : Context) (f : MethodRef) (b : Nat) (P : Node → Bool) (p p' : Progress)
    (piece : Piece) : Prop :=
  c.LoopsBegun p.written → match piece with
  | .region frames n stop m m' => c.Begun p.written n → m.stack.Avoids (Node.Names f) →
    m'.stack.Avoids (Node.Names f) ∧
      Once c b P frames m.scope.stmts p.written m'.scope.stmts p'.written ∧
        (c.jump ⟨frames, p.written, stop⟩ n = .enter → n ∈ p'.written)
  | .onward frames _ r m' => (∀ n, r.1 = some n → c.Begun p.written n) →
    r.2.stack.Avoids (Node.Names f) → m'.stack.Avoids (Node.Names f) ∧
      Once c b P frames r.2.scope.stmts p.written m'.scope.stmts p'.written
  | .entered frames n _ m r => c.Begun p.written n → n ∉ p.written →
    frames.isOuterTarget n = false → m.stack.Avoids (Node.Names f) →
      OnceOnward c f b P frames m.scope.stmts p.written r p'.written ∧ n ∈ p'.written
  | .block frames n _ m r => c.Begun p.written n → n ∉ p.written →
    (frames.Latched c b → n ≠ b) → m.stack.Avoids (Node.Names f) →
      OnceOnward c f b P frames m.scope.stmts p.written r p'.written ∧ n ∈ p'.written
  | .exit frames n _ t m r => (∀ k, k ∈ c.graph.successors n ↔ k ∈ t.successors) →
    n ∈ p.written → m.stack.Avoids (Node.Names f) →
      OnceOnward c f b P frames m.scope.stmts p.written r p'.written
  | .branch frames n _ t _ m r | .plain frames n _ t m r => n ∈ p.written →
    c.Begun p.written t.taken → c.Begun p.written t.fallthrough → t.cond.Avoids (Node.Names f) →
      m.stack.Avoids (Node.Names f) →
        OnceOnward c f b P frames m.scope.stmts p.written r p'.written
  | .inner frames n stop s s' => c.Begun p.written n →
    Once c b P frames s.stmts p.written s'.stmts p'.written ∧
      (c.jump ⟨frames, p.written, stop⟩ n = .enter → n ∈ p'.written)
  | .before frames header latch s s' => c.Begun p.written header →
    Once c b P frames s.stmts p.written s'.stmts p'.written ∧
      (latch = header → p'.written = p.written) ∧
        (latch ≠ header → c.jump ⟨frames, p.written, some latch⟩ header = .enter →
          header ∈ p'.written)
  | .arm frames n _ _ s | .switchArm frames _ _ _ n _ s => c.Begun p.written n →
    Once c b P frames [] p.written s.stmts p'.written
  | .arms frames _ _ es code => (∀ e ∈ es, c.Begun p.written e.start) →
    Once c b P frames [] p.written (code.flatMap (·.body.stmts)) p'.written

namespace Context

variable {c : Context} {f : MethodRef} {b : Nat} {P : Node → Bool} {labels : List Nat}
  {p p' : Progress}

/-- Every piece of the walk adds the call exactly if it writes its block. By induction on how the
    piece comes about: control comes to blocks whose loops have been begun, so that nothing is
    written twice. -/
theorem Derives.once (hP : Tracks f P) (hH : Home c f b) {piece : Piece}
    (h : c.Derives labels piece p p') : piece.WritesOnce c f b P p p' := by
  induction h with
  | stop hjump => exact fun hW _ hm => ⟨hm, .refl _ hW, fun h => nomatch hjump.symm.trans h⟩
  | nextRound hjump happend | leave hjump happend | goto hjump _ _ happend =>
    refine fun hW _ hm => ⟨hm, ?_, fun h => nomatch hjump.symm.trans h⟩
    refine (Once.refl _ hW).of_tally ?_
    rw [Scope.stmts_of_append happend, Stmt.tally_concat,
      hP.count_of_avoids (plain_avoids (by simp) rfl), Nat.add_zero]
  -- the label is not counted, and the rest starts from what the block has written
  | enter hjump hlabel _ _ ihcode ihrest =>
    intro hW hn hm
    obtain ⟨_, _, _, hinner, _, hfresh⟩ := jump_eq_enter.1 hjump
    obtain ⟨hwritten, hstack, htally⟩ := hlabel.tally hP
    rw [← hwritten] at hW hn hfresh
    obtain ⟨hcode, hmem⟩ := ihcode hW hn hfresh hinner (hstack ▸ hm)
    obtain ⟨hst, hrest⟩ := ihrest hcode.code.begun hcode.next hcode.stack
    refine ⟨hst, ?_, fun _ => hrest.written hmem⟩
    rw [← hwritten]
    exact (((Once.refl _ hW).of_tally htally).trans hcode.code).trans hrest
  | done => exact fun hW _ hm => ⟨hm, .refl _ hW⟩
  | next _ ih =>
    intro hW hnext hm
    obtain ⟨hst, hcode, -⟩ := ih hW (hnext _ rfl) hm
    exact ⟨hst, hcode⟩
  | here _ _ ih =>
    exact fun hW hn hfresh hinner hm => ih hW hn hfresh (Frames.ne_of_latched hinner) hm
  | @whileLoop frames n stop l t body before s stmt m p p' hl _ _ _ htest _ hpromote happend ih =>
    intro hW hn _ _ hm
    obtain rfl := c.graph.header_of_loopAt hl
    obtain ⟨hchain, hcond, hfirst, hinside, houtside⟩ :=
      loopTest_once P frames m.scope.stmts hH htest hW hn
    obtain ⟨hbody, -⟩ := ih hchain.begun hinside
    refine ⟨.added happend hm (hchain.append hbody.outer) ?_ fun k hk => ?_,
      hbody.written (List.mem_append_left _ hfirst)⟩
    · rw [Stmt.tally_append, promoteFor_tally hP hcond hpromote]
    · exact Option.some.inj hk ▸ houtside.mono hbody.written
  | @doLoop frames n stop l latch outside test onTaken k cond before body s m m₁ p p' hl hframes _
      _ _ htest _ hk hrun hcond hlock happend ih =>
    intro hW hh hfresh hinner hm
    obtain rfl := c.graph.header_of_loopAt hl
    obtain ⟨hlatches, hcut, k', taken, fallthrough, hk', hexit, hchosen⟩ := latchTest_inv htest
    have hout := Loop.not_mem_body hcut
    have hsucc := mem_successors_of_chosen hk' hexit hchosen
    obtain ⟨hcode, honly, henter⟩ := ih hW hh
    obtain ⟨hst, htally⟩ := block_tally hH hP hk hrun Operands.avoids_nil
    have hcond := (branchCondition_avoids Node.not_names_atomic Node.names_foreign.const hst
      hcond).1
    -- the loop writes its latch, and marks the header once more
    have hhead : l.header ∈ [l.header, latch] ++ p'.written := by simp
    have hheadBegun := hh.mono (List.Subset.trans hcode.written
      (List.subset_append_right [l.header, latch] _))
    have hlatchBegun := latch_begun hl hlatches hout hsucc hheadBegun hhead
    have hbegun : ∀ j ∈ [l.header, latch], c.Begun ([l.header, latch] ++ p'.written) j := by
      intro j hj
      rcases List.mem_pair.1 hj with rfl | rfl
      · exact hheadBegun
      · exact hlatchBegun
    have hnot : latch = b → b ∉ p'.written := by
      rintro rfl
      exact latch_fresh hl hlatches hsucc hW hfresh hcode honly
    have hne : frames.Latched c b → b ≠ l.header ∧ b ≠ latch := fun hlat =>
      ⟨(Frames.ne_of_latched hinner hlat).symm, ne_of_latched_around hsucc hinner hframes hlat⟩
    have hbody := hcode.outer.latch hbegun
      (fun hlh => henter hlh (jump_header hl hlh hout hinner hfresh)) hnot hne htally
    refine ⟨.added happend hm ((Once.refl m.scope.stmts hW).append hbody) ?_ fun j hj => ?_, hhead⟩
    · rw [Stmt.tally_append, hP.count_doWhile (side_avoids onTaken hcond),
        Scope.stmts_of_lock hlock]
    · exact Option.some.inj hj ▸ hlatchBegun.of_successor (by simp) ((hsucc outside).2 (.inr rfl))
  | @endless frames n stop l dropped body s r m m₁ p p₁ p' hl _ _ _ _ _ _ _ hdrop hlock happend
      ihblock ihrest =>
    intro hW hh hfresh hinner hm
    obtain rfl := c.graph.header_of_loopAt hl
    obtain ⟨hblock, hheader⟩ := ihblock hW hh hfresh
      (fun hlat => Frames.ne_of_latched hinner hlat.of_loop) Operands.avoids_nil
    obtain ⟨-, hrest⟩ := ihrest hblock.code.begun hblock.next hblock.stack
    have hbody := hblock.code.trans hrest
    have hmem := hrest.written hheader
    refine ⟨.added happend hm ((Once.refl m.scope.stmts hW).append hbody.outer) ?_ fun k hk => ?_,
      hmem⟩
    · have halways : Cond.always.Avoids (Node.Names f) :=
        Cond.avoids_of_nodes rfl (Node.not_names_cond _) (Node.names_foreign.const _)
      rw [Stmt.tally_append, hP.count_whileLoop halways, Scope.stmts_of_lock hlock,
        tally_of_trimmed hP (dropContinue_trimmed hdrop) rfl (by simp)]
    · -- the loop is left for the target of an exit, from a block within it
      obtain ⟨j, hj, hleads, hout⟩ := exists_of_exitTarget hl (mem_of_loopFollow hk)
      have hreach := hH.reachable j (c.graph.graph.source_lt hleads)
      exact (hh.mono hbody.written).of_exitTarget hmem hl hreach hj hleads hout
  | block hk hrun _ ih =>
    intro hW hn hfresh hlatch hm
    obtain ⟨hst, htally⟩ := block_tally hH hP hk hrun hm
    have hblock := Once.block hW hn hfresh hlatch htally
    have hrest := ih hblock.begun (fun _ => FlowGraph.mem_successors_of_block hk)
      (List.mem_cons_self ..) hst
    exact ⟨hblock.onward hrest, hrest.code.written (List.mem_cons_self ..)⟩
  | exitGoto =>
    refine fun hW hsucc hn hm => ⟨.refl _ hW, hm, fun j hj => ?_⟩
    obtain rfl := Option.some.inj hj
    exact (hW _ hn).of_successor hn ((hsucc _).2 (List.mem_singleton_self _))
  | exitRet happend =>
    exact fun hW _ _ hm =>
      .silent hP hW happend hm (plain_avoids (by simp) rfl) fun _ h => nomatch h
  | exitValue hpop happend | exitThrow hpop happend =>
    intro hW _ _ hm
    obtain ⟨he, hst⟩ := Operands.pop_avoids hpop hm
    exact .silent hP hW happend hst (Stmt.avoids_names (by simp) rfl he) fun _ h => nomatch h
  | exitBranch hcond hfold _ ih =>
    intro hW hsucc hn hm
    obtain ⟨hcond, hst⟩ := branchCondition_avoids Node.not_names_atomic Node.names_foreign.const
      hm hcond
    -- the condition is marked together with the blocks of its chain
    have hchain := BranchTest.fold_chained hfold fun k => by
      rw [hsucc, Terminator.mem_successors_branch]
    obtain ⟨hcode, htaken, hfall⟩ := chain_once P _ _ hH hchain hW (hW _ hn) fun heq => heq ▸ hn
    exact hcode.onward (ih hcode.begun (List.mem_append_right _ hn) htaken hfall
      (fold_avoids hH hfold hcond) hst)
  | @exitSwitch frames n default stop own cases key arms m s p p' hpop _ _ happend ih =>
    intro hW hsucc hn hm
    obtain ⟨hkey, hst⟩ := Operands.pop_avoids hpop hm
    -- the arms begin at targets of the switch
    have harms := ih hW fun e he => by
      have hstart := mem_groupCases_iff.1 (List.mem_map_of_mem (f := (·.start)) he)
      refine (hW n hn).of_successor hn ((hsucc e.start).2 ?_)
      exact Terminator.mem_successors_switch.2 (hstart.imp_right And.left)
    refine .added happend hst ((Once.refl m.scope.stmts hW).append harms.outer) ?_ fun k hk => ?_
    · rw [Stmt.tally_append, hP.count_switch hkey]
    · exact ((hW n hn).of_postDominator hn hk).mono harms.written
  | collapsedValue _ hform =>
    intro hW _ htaken hfall hcond hm
    obtain ⟨hcode, havoids, hmerge⟩ :=
      (ternary_inv hform).once _ hH hW htaken hfall hcond
    exact ⟨hcode, hm.push havoids, hmerge⟩
  | collapsedStmt _ hform happend =>
    intro hW _ htaken hfall hcond hm
    obtain ⟨hcode, havoids, hmerge⟩ :=
      (ternary_inv hform).once _ hH hW htaken hfall hcond
    exact hcode.onward (.silent hP hcode.begun happend hm havoids hmerge)
  | plain _ _ _ ih => exact ih
  | oneArm isTaken hside _ happend ih =>
    intro hW _ htaken hfall hcond hm
    obtain ⟨hstart, hother⟩ := hside.chosen.both htaken hfall
    have harm := ih hW hstart
    refine .added happend hm ((Once.refl _ hW).append harm) ?_ fun k hk => ?_
    · rw [Stmt.tally_append, hP.count_ifElse_none (side_avoids isTaken hcond)]
    · exact Option.some.inj hk ▸ hother.mono harm.written
  | twoArms hmeet _ _ _ _ _ happend iharm ihelse =>
    intro hW hn htaken hfall hcond hm
    have harm := iharm hW hfall
    have helse := ihelse harm.begun (htaken.mono harm.written)
    refine .added happend hm (((Once.refl _ hW).append harm).append helse) ?_ fun k hk => ?_
    · rw [Stmt.tally_append, Stmt.tally_append, hP.count_ifElse_some
        (Cond.negate_avoids Node.not_names_cond _ hcond), Nat.add_assoc]
    · have hmerge := (hW _ hn).of_postDominator hn (postDominator_of_meeting hmeet)
      exact Option.some.inj hk ▸ (hmerge.mono harm.written).mono helse.written
  | jump _ _ _ happend =>
    intro hW _ _ hfall hcond hm
    exact .silent hP hW happend hm (Stmt.avoids_names (by simp) rfl hcond)
      fun k hk => Option.some.inj hk ▸ hfall
  | inner _ _ ih =>
    intro hW hn
    obtain ⟨-, hcode, henter⟩ := ih hW hn Operands.avoids_nil
    exact ⟨hcode, henter⟩
  | arm _ hlock ih =>
    intro hW hn
    rw [Scope.stmts_of_lock hlock]
    exact (ih hW hn).1
  | latchOnly hlatch =>
    exact fun hW _ => ⟨.refl _ hW, fun _ => rfl, fun hne => absurd hlatch hne⟩
  | before hlatch _ ih =>
    intro hW hn
    obtain ⟨hcode, henter⟩ := ih hW hn
    exact ⟨hcode, fun heq => absurd heq hlatch, fun _ => henter⟩
  | armEmpty _ hlock =>
    intro hW _
    rw [Scope.stmts_of_lock hlock]
    exact .refl _ hW
  | armCode _ _ hclose hlock ih =>
    intro hW hn
    rw [Scope.stmts_of_lock hlock]
    exact (ih hW hn).1.of_tally (tally_of_trimmed hP (closeArm_trimmed hclose) rfl (by simp))
  | armsNil => exact fun hW _ => .refl _ hW
  | armsCons _ _ iharm ihrest =>
    intro hW hes
    have harm := iharm hW (hes _ (List.mem_cons_self ..))
    have hrest := ihrest harm.begun fun e he =>
      (hes e (List.mem_cons_of_mem _ he)).mono harm.written
    exact harm.append hrest

end Context

end Restructure
