import Restructure.Proofs.Fallback
import Restructure.Proofs.Region.Once

namespace Restructure

/-!
# Single calls — no code is lost and none is written twice

A void static method that one instruction of a method calls is named by one call in the recovered
code, and that is a statement of its own. This holds of structured code, of code with jumps and of
flat code, if every block can be reached.

* `Context.Flattens.tally`, `Context.Completes.tally` — blocks written flat.
* `Context.structured_tally`, `Method.recoverGraph_tally` — the code of a graph.
* `Method.exists_home` — the block of the only call.
* `Method.recover_calls_once` — the code of every method.
-/

/-! ### Flat code -/

namespace Context

variable {c : Context} {f : MethodRef} {b : Nat} {P : Node → Bool} {scope scope' body : Scope}

/-- Statements that do not name the method. -/
theorem tally_of_avoid (hP : Tracks f P) {ss : List Stmt}
    (h : ∀ s ∈ ss, s.Avoids (Node.Names f)) : Stmt.tally P ss = 0 := by
  induction ss with
  | nil => rfl
  | cons s ss ih =>
    have hs := hP.count_of_avoids (h s (List.mem_cons_self ..))
    have hss := ih fun t ht => h t (List.mem_cons_of_mem _ ht)
    have hcons : Stmt.tally P (s :: ss) = s.count P + Stmt.tally P ss := List.countP_append
    rw [hcons, hs, hss]

/-- The jumps at the end of a block do not name the method. -/
theorem flatExit_avoids {n : Nat} {exit : Terminator} {st st' : Operands} {jumps : List Stmt}
    (hst : st.Avoids (Node.Names f)) (h : flatExit n exit st = .ok (jumps, st')) :
    ∀ s ∈ jumps, s.Avoids (Node.Names f) := by
  -- the jumps hold at most a value from the stack, and there the call never is
  have hplain : ∀ {s : Stmt}, (∀ e, s ≠ .eval e) → s.nodes = [.stmt s] →
      s.Avoids (Node.Names f) := fun hs hnodes =>
    Stmt.avoids_names hs hnodes fun _ h => by cases h
  intro s hs
  cases exit with
  | goto t | ret =>
    cases h
    obtain rfl := List.mem_singleton.1 hs
    exact hplain (by simp) rfl
  | retValue | throw =>
    obtain ⟨⟨e, st₁⟩, hpop, h⟩ := Except.bind_eq_ok.1 h
    cases h
    obtain rfl := List.mem_singleton.1 hs
    exact Stmt.avoids_names (by simp) rfl (Operands.pop_avoids hpop hst).1
  | branch test taken fallthrough =>
    obtain ⟨⟨cond, st₁⟩, hcond, h⟩ := Except.bind_eq_ok.1 h
    cases h
    have hcond := (branchCondition_avoids Node.not_names_atomic Node.names_foreign.const
      hst hcond).1
    rcases List.mem_pair.1 hs with rfl | rfl
    · exact Stmt.avoids_names (by simp) rfl hcond
    · exact hplain (by simp) rfl
  | switch cases default =>
    obtain ⟨⟨key, st₁⟩, hpop, h⟩ := Except.bind_eq_ok.1 h
    have hkey := (Operands.pop_avoids hpop hst).1
    simp only at h
    split at h
    · cases h
    · cases h
      rcases List.mem_append.1 hs with hs | hs
      · obtain ⟨k, _, rfl⟩ := List.mem_map.1 hs
        have htest : (Cond.compare key .eq (.int k.1)).Avoids (Node.Names f) :=
          Cond.compare_avoids Node.not_names_atomic hkey (Node.names_foreign.const _)
        exact Stmt.avoids_names (by simp) rfl htest
      · obtain rfl := List.mem_singleton.1 hs
        exact hplain (by simp) rfl

/-- Blocks that are written flat add the call as often as they hold its block. By induction on the
    flat code: only what the instructions write is counted. -/
theorem Flattens.tally (hP : Tracks f P) (hH : Home c f b) {ns targets : List Nat}
    (h : c.Flattens ns scope scope' targets) :
    Stmt.tally P scope'.stmts = Stmt.tally P scope.stmts + ns.count b := by
  induction h with
  | nil => rfl
  | @cons n ns targets k m jumps s s₁ s₂ s' hk hlabel hrun hexit hjumps _ ih =>
    have hm : Operands.Avoids (Node.Names f) [] := Operands.avoids_nil
    obtain ⟨hst, htally⟩ := block_tally (P := P) hH hP hk hrun hm
    have htally : Stmt.tally P m.scope.stmts = Stmt.tally P s₁.stmts + if n = b then 1 else 0 :=
      htally
    have hnone := tally_of_avoid hP (flatExit_avoids hst hexit)
    rw [ih, stmts_of_appendAll hjumps, Stmt.tally_append, hnone, htally,
      Scope.stmts_of_append hlabel, Stmt.tally_concat,
      hP.count_of_avoids (plain_avoids (by simp) rfl), List.count_cons]
    simp only [beq_iff_eq]
    omega

/-- Flat code of all reachable blocks names the method once. -/
theorem flatten_tally (hP : Tracks f P) (hH : Home c f b) (hscope : scope.stmts = [])
    (hb : c.graph.isReachable b = true) (h : c.flatten scope = .ok scope') :
    Stmt.tally P scope'.stmts = 1 := by
  obtain ⟨targets, hflat⟩ := flattens_of_flatten h
  rw [hflat.tally hP hH, hscope, Stmt.tally_nil,
    List.count_eq_one_of_mem reachableBlocks_nodup (mem_reachableBlocks.2 hb)]

/-! ### Structured code -/

/-- Behind the structured code the call is there, too, if its block was left out. -/
theorem Completes.tally (hP : Tracks f P) (hH : Home c f b) (hb : c.graph.isReachable b = true)
    {p p' : Progress} (h : c.Completes body p scope p') (hsettled : Settled c p → b ∈ p.written) :
    Stmt.tally P scope.stmts + (if b ∈ p.written then 1 else 0) = Stmt.tally P body.stmts + 1 := by
  cases h with
  | dropped hrest hdrop =>
    -- nothing is written behind the structured code, so the block is in it
    have hwritten : b ∈ p.written := by
      rcases hrest with hnil | hoff
      · by_contra hnot
        exact List.not_mem_nil (hnil ▸ mem_unwritten.2 ⟨hb, hnot⟩)
      · exact hsettled (.inl hoff)
    rw [tally_of_trimmed hP (dropReturn_trimmed hdrop) rfl (by simp), if_pos hwritten]
  | flat _ _ hcode =>
    -- the block is in the structured code or behind it, and not in both
    have hcount : (c.unwritten p).count b + (if b ∈ p.written then 1 else 0) = 1 := by
      by_cases hwritten : b ∈ p.written
      · have hnot : b ∉ c.unwritten p := fun h => (mem_unwritten.1 h).2 hwritten
        rw [if_pos hwritten, List.count_eq_zero.2 hnot]
      · rw [if_neg hwritten,
          List.count_eq_one_of_mem unwritten_nodup (mem_unwritten.2 ⟨hb, hwritten⟩)]
    have hflat := hcode.tally hP hH
    omega

/-- Only a loop that begins at the entry holds the entry. -/
theorem entry_begun : c.Begun [] FlowGraph.entry := fun h l hl hmem hne => by
  have hdom := (c.graph.loopAt_natural hl).dominated _ hmem
  exact absurd (List.mem_singleton.1 (hdom _ (.single _))).symm hne

/-- The structured code of a graph holds a reachable call once. -/
theorem structured_tally (hP : Tracks f P) (hH : Home c f b) (hb : c.graph.isReachable b = true)
    (hbody : body.stmts = []) {r : Result} (h : c.structured body = .ok r) :
    Stmt.tally P r.body.stmts = 1 := by
  obtain ⟨labels, m, p, p', hregion, htail⟩ := structured_derives h
  obtain ⟨-, hcode, -⟩ := hregion.once hP hH (fun k hk => absurd hk List.not_mem_nil) entry_begun
    Operands.avoids_nil
  have hwhole := htail.tally hP hH hb fun hs => hregion.written hs hb
  have hcode : Stmt.tally P m.scope.stmts + (if b ∈ ([] : List Nat) then 1 else 0)
      = Stmt.tally P body.stmts + (if b ∈ p.written then 1 else 0) := hcode.tally
  rw [hbody, Stmt.tally_nil, if_neg List.not_mem_nil] at hcode
  omega

end Context

/-! ### Methods -/

namespace Method

variable {config : Config} {m : Method} {r : RecoveredBody} {f : MethodRef} {P : Node → Bool}

/-- The code of a graph names the method once, in either form. -/
theorem recoverGraph_tally {c : Context} {b : Nat} (hP : Tracks f P) (hH : Home c f b)
    (hb : c.graph.isReachable b = true) {start body : Scope} {fallback : Bool}
    (hstart : start.stmts = []) (h : recoverGraph c start = .ok (body, fallback)) :
    Stmt.tally P body.stmts = 1 := by
  unfold recoverGraph at h
  split at h
  · rename_i r hr
    cases h
    exact Context.structured_tally hP hH hb hstart hr
  · split at h
    · obtain ⟨s, hflat, h⟩ := Except.map_eq_ok.1 h
      cases h
      exact Context.flatten_tally hP hH hstart hb hflat
    · cases h

/-- The instructions of a method, block by block. -/
def insns (m : Method) : List Insn := m.blocks.flatMap (·.insns)

/-- Control can come from the entry to every block. -/
def Connected (m : Method) : Prop :=
  ∀ g, FlowGraph.ofBlocks m.blocks = .ok g →
    ∀ n < m.blocks.length, g.graph.links.Reachable FlowGraph.entry n

/-- What holds of one instruction alone holds of one in a single block. -/
theorem exists_block_of_countP {Q : Insn → Bool} {blocks : List Block}
    (h : (blocks.flatMap (·.insns)).countP Q = 1) :
    ∃ b < blocks.length, ∀ n k, blocks[n]? = some k →
      k.insns.countP Q = if n = b then 1 else 0 := by
  induction blocks with
  | nil => cases h
  | cons k blocks ih =>
    rw [List.flatMap_cons, List.countP_append] at h
    by_cases hk : k.insns.countP Q = 1
    · -- it is in this block, and so in none behind it
      have hrest : (blocks.flatMap (·.insns)).countP Q = 0 := by omega
      refine ⟨0, Nat.zero_lt_succ _, fun n j hj => ?_⟩
      cases n with
      | zero =>
        cases hj
        exact hk
      | succ n =>
        have hmem : j ∈ blocks := List.mem_of_getElem? hj
        refine List.countP_eq_zero.2 fun i hi => ?_
        exact List.countP_eq_zero.1 hrest i (List.mem_flatMap.2 ⟨j, hmem, hi⟩)
    · obtain ⟨b, hb, hblocks⟩ := ih (by omega)
      refine ⟨b + 1, Nat.succ_lt_succ hb, fun n j hj => ?_⟩
      cases n with
      | zero =>
        cases hj
        rw [if_neg (Nat.succ_ne_zero b).symm]
        omega
      | succ n =>
        rw [hblocks n j hj]
        simp

/-- Two instructions are one if only one of all has a property. -/
theorem eq_of_countP_eq_one {α : Type} {Q : α → Bool} {xs : List α} {x y : α}
    (h : xs.countP Q = 1) (hx : x ∈ xs) (hQx : Q x = true) (hy : y ∈ xs) (hQy : Q y = true) :
    x = y := by
  rw [List.countP_eq_length_filter] at h
  obtain ⟨z, hz⟩ := List.length_eq_one_iff.1 h
  have hall : ∀ w ∈ xs, Q w = true → w = z := fun w hw hQ => by
    have hmem : w ∈ xs.filter Q := List.mem_filter.2 ⟨hw, hQ⟩
    rw [hz] at hmem
    exact List.mem_singleton.1 hmem
  rw [hall x hx hQx, hall y hy hQy]

/-- The only call of a void static method has a block. -/
theorem exists_home {c : Context} (hgraph : FlowGraph.ofBlocks m.blocks = .ok c.graph)
    (hconnected : m.Connected) (hvoid : ∀ t, f.parse = .ok t → t.returnsVoid = true)
    (hmem : .invoke .static f ∈ m.insns)
    (hone : m.insns.countP (·.callee? == some f) = 1) :
    ∃ b, Home c f b ∧ c.graph.isReachable b = true := by
  have hnodes : c.graph.graph.nodes = m.blocks := FlowGraph.nodes_of_ofBlocks hgraph
  obtain ⟨b, hb, hcount⟩ := exists_block_of_countP hone
  have hreach := hconnected c.graph hgraph
  -- what names the method is the one instruction, and it stands in the one block
  refine ⟨b, ⟨fun n k hk => ⟨hvoid, fun i hi hcall => ?_⟩, fun n k hk => ?_, fun n hn => ?_⟩, ?_⟩
  · have hk : k ∈ m.blocks := hnodes ▸ List.mem_of_getElem? hk
    have hi : i ∈ m.insns := List.mem_flatMap.2 ⟨k, hk, hi⟩
    exact eq_of_countP_eq_one hone hi (by simpa using hcall) hmem (by simp [Insn.callee?])
  · exact hcount n k (hnodes ▸ hk)
  · exact hreach n (hnodes ▸ hn)
  · exact (c.graph.isReachable_iff).2 (hreach b hb)

/-- A void static method that a single instruction calls is named by one call in the code, and one
    statement does nothing but invoke it. -/
theorem recover_calls_once (hcode : m.isBodyless = false) (hconnected : m.Connected)
    (hvoid : ∃ t, f.parse = .ok t ∧ t.returnsVoid = true) (hmem : .invoke .static f ∈ m.insns)
    (hone : m.insns.countP (·.callee? == some f) = 1) (h : m.recover config = .ok r) :
    r.body.nodes.countP (Node.calls f) = 1 ∧ r.body.nodes.countP (Node.invokes f) = 1 := by
  obtain ⟨_, _, h⟩ := Except.bind_eq_ok.1 h
  obtain ⟨locals, _, h⟩ := Except.bind_eq_ok.1 h
  rw [if_neg (by simp [hcode])] at h
  obtain ⟨graph, hgraph, h⟩ := Except.bind_eq_ok.1 h
  obtain ⟨⟨body, fallback⟩, hbody, h⟩ := Except.bind_eq_ok.1 h
  obtain ⟨body', hlock, h⟩ := Except.bind_eq_ok.1 h
  cases h
  obtain ⟨t, ht, hret⟩ := hvoid
  have hvoid : ∀ u, f.parse = .ok u → u.returnsVoid = true := fun u hu => by
    rw [ht] at hu
    cases hu
    exact hret
  obtain ⟨b, hH, hb⟩ := exists_home (c := ⟨config, graph⟩) hgraph hconnected hvoid hmem hone
  rw [Scope.nodes_eq, Scope.stmts_of_lock hlock]
  exact ⟨recoverGraph_tally (tracks_calls f) hH hb rfl hbody,
    recoverGraph_tally (tracks_invokes f) hH hb rfl hbody⟩

/-- A cycle that is entered at two blocks, each of which calls a method. -/
def marked : Method := ofBlocks
  [⟨[.load 0 "I"], .branch (.zero .eq) 2 1⟩,
    ⟨[.invoke .static ⟨"T", "first", "()V"⟩], .goto 2⟩,
    ⟨[.invoke .static ⟨"T", "second", "()V"⟩, .load 1 "I"], .branch (.zero .ne) 1 3⟩, ⟨[], .ret⟩]

/-- All blocks are reachable. -/
theorem marked_connected : marked.Connected := by
  intro g hg n hn
  have hnodes := FlowGraph.nodes_of_ofBlocks hg
  have hstep : ∀ {k j : Nat} {b : Block}, g.graph.links.Reachable FlowGraph.entry k →
      marked.blocks[k]? = some b → j ∈ b.exit.successors →
        g.graph.links.Reachable FlowGraph.entry j := fun hk hb hj =>
    hk.step ((FlowGraph.mem_successors_of_block (by rw [FlowGraph.block?, hnodes, hb])).2 hj)
  have h₀ : g.graph.links.Reachable FlowGraph.entry 0 := .refl _ _
  have h₂ : g.graph.links.Reachable FlowGraph.entry 2 :=
    hstep h₀ rfl (by simp [Terminator.successors])
  have hcases : n = 0 ∨ n = 1 ∨ n = 2 ∨ n = 3 := by
    have hlt : n < 4 := hn
    omega
  rcases hcases with rfl | rfl | rfl | rfl
  · exact h₀
  · exact hstep h₀ rfl (by simp [Terminator.successors])
  · exact h₂
  · exact hstep h₂ rfl (by simp [Terminator.successors])

/-- The call is written once, though the code has jumps to labels. -/
theorem marked_calls_once :
    marked.isBodyless = false ∧ marked.Connected ∧
      ∃ r, marked.recover {} = .ok r ∧ r.fallback = true ∧
        r.body.nodes.countP (Node.calls ⟨"T", "second", "()V"⟩) = 1 ∧
        r.body.nodes.countP (Node.invokes ⟨"T", "second", "()V"⟩) = 1 := by
  have heval : (marked.recover {}).toOption.map (·.fallback) = some true := by decide +kernel
  obtain ⟨r, hr, hfallback⟩ := exists_of_map_toOption heval
  have hparse : (MethodRef.parse ⟨"T", "second", "()V"⟩).toOption.map (·.returnsVoid)
      = some true := by decide +kernel
  have hvoid : ∃ t, MethodRef.parse ⟨"T", "second", "()V"⟩ = .ok t ∧ t.returnsVoid = true := by
    cases hp : MethodRef.parse ⟨"T", "second", "()V"⟩ with
    | error e =>
      rw [hp] at hparse
      cases hparse
    | ok t =>
      rw [hp] at hparse
      exact ⟨t, rfl, Option.some.inj hparse⟩
  exact ⟨rfl, marked_connected, r, hr, hfallback,
    recover_calls_once rfl marked_connected hvoid (by decide) (by decide) hr⟩

end Method

end Restructure
