import Restructure.Proofs.Calls.Arms
import Restructure.Proofs.Region.Finishes

namespace Restructure

/-!
# Switches — every key stays on its target

* `groupCases_ascending`, `groupCases_keys`, `groupCases_defaults` — the arms of a switch by their
  targets.
* `InTurn` — lists of which each element is related to one of the other list and to the one behind.
* `Serves` — an arm has the keys of one target.
* `Context.RunsOut` — the code of an arm, and where control goes at its end.
* `Context.switch_serves` — the code of a switch.
-/

/-! ### Groups -/

namespace ArmEntry

variable {f : ArmEntry → ArmEntry} {start : Nat} {es : List ArmEntry} {k : Int}

/-- Entries stay in the order of their targets. -/
theorem pairwise_update (hf : ∀ e, (f e).start = e.start)
    (h : es.Pairwise fun e e' => e.start < e'.start) :
    (update f start es).Pairwise fun e e' => e.start < e'.start := by
  induction es with
  | nil => simp [update]
  | cons e es ih =>
    obtain ⟨hhead, htail⟩ := List.pairwise_cons.1 h
    rw [update]
    split
    · rename_i hlt
      refine List.pairwise_cons.2 ⟨fun e' he' => ?_, h⟩
      rw [hf]
      rcases List.mem_cons.1 he' with rfl | he'
      · exact hlt
      · exact Nat.lt_trans hlt (hhead e' he')
    · split
      · refine List.pairwise_cons.2 ⟨fun e' he' => ?_, htail⟩
        rw [hf]
        exact hhead e' he'
      · rename_i hle hne
        refine List.pairwise_cons.2 ⟨fun e' he' => ?_, ih htail⟩
        -- an entry further behind was there before, or it is the one that is put in
        have hstart : e'.start ∈ (update f start es).map (·.start) := List.mem_map_of_mem he'
        rcases (mem_update_iff hf).1 hstart with heq | hmem
        · omega
        · obtain ⟨e₁, he₁, heq⟩ := List.mem_map.1 hmem
          have := hhead e₁ he₁
          omega

/-- A key is put into one entry. -/
theorem keys_update_addKey :
    ((update (addKey k) start es).flatMap (·.keys)).Perm (k :: es.flatMap (·.keys)) := by
  induction es with
  | nil => exact .refl _
  | cons e es ih =>
    rw [update]
    split
    · exact .refl _
    · split
      · rw [List.flatMap_cons, List.flatMap_cons, addKey, List.append_assoc]
        exact List.perm_middle
      · rw [List.flatMap_cons, List.flatMap_cons]
        exact (ih.append_left _).trans List.perm_middle

/-- The default has no key. -/
theorem keys_update_makeDefault :
    (update makeDefault start es).flatMap (·.keys) = es.flatMap (·.keys) := by
  induction es with
  | nil => rfl
  | cons e es ih =>
    rw [update]
    split
    · rfl
    · split
      · rfl
      · rw [List.flatMap_cons, List.flatMap_cons, ih]

/-- Nor does a key make its arm the default. -/
theorem defaults_update_addKey :
    (update (addKey k) start es).countP (·.isDefault) = es.countP (·.isDefault) := by
  induction es with
  | nil => rfl
  | cons e es ih =>
    rw [update]
    split
    · exact List.countP_cons_of_neg (by simp [addKey])
    · split
      · rw [List.countP_cons, List.countP_cons]
        rfl
      · rw [List.countP_cons, List.countP_cons, ih]

/-- One arm becomes the default. -/
theorem defaults_update_makeDefault (h : es.countP (·.isDefault) = 0) :
    (update makeDefault start es).countP (·.isDefault) = 1 := by
  induction es with
  | nil => rfl
  | cons e es ih =>
    have hparts := h
    rw [List.countP_cons] at hparts
    rw [update]
    split
    · rw [List.countP_cons, h]
      rfl
    · split
      · rw [List.countP_cons]
        simp only [makeDefault, if_true]
        omega
      · rw [List.countP_cons, ih (by omega)]
        omega

end ArmEntry

section Groups

variable {cases : List (Int × Nat)} {default : Nat} {follow : Option Nat}

/-- The arms before their keys are sorted: what is kept when a key or the default is put in holds of
    them. -/
theorem exists_groupCases_eq {P : List ArmEntry → Prop} (hnil : P [])
    (hkey : ∀ k start es, P es → P (ArmEntry.update (ArmEntry.addKey k) start es))
    (hdefault : ∀ es, P es → P (ArmEntry.update ArmEntry.makeDefault default es)) :
    ∃ es, groupCases cases default follow = es.map ArmEntry.sorted ∧ P es := by
  have hkeyed : ∀ es, P es →
      P (cases.foldl (fun es k => ArmEntry.update (ArmEntry.addKey k.1) k.2 es) es) := by
    induction cases with
    | nil => exact fun es hes => hes
    | cons k cases ih => exact fun es hes => ih _ (hkey k.1 k.2 es hes)
  refine ⟨_, rfl, ?_⟩
  split
  · exact hkeyed [] hnil
  · exact hdefault _ (hkeyed [] hnil)

/-- The arms are in the order of their targets, and no two of them have the same. -/
theorem groupCases_ascending :
    (groupCases cases default follow).Pairwise fun e e' => e.start < e'.start := by
  have hgroups : ∃ es : List ArmEntry, groupCases cases default follow = es.map ArmEntry.sorted ∧
      es.Pairwise fun e e' => e.start < e'.start :=
    exists_groupCases_eq List.Pairwise.nil
      (fun k _ _ h => ArmEntry.pairwise_update (ArmEntry.start_addKey k) h)
      (fun _ h => ArmEntry.pairwise_update ArmEntry.start_makeDefault h)
  obtain ⟨es, heq, hes⟩ := hgroups
  rw [heq, List.pairwise_map]
  exact hes

/-- The keys of the arms are the keys of the switch. -/
theorem groupCases_keys :
    ((groupCases cases default follow).flatMap (·.keys)).Perm (cases.map (·.1)) := by
  have hkeyed : ∀ es : List ArmEntry,
      ((cases.foldl (fun es k => ArmEntry.update (ArmEntry.addKey k.1) k.2 es) es).flatMap
        (·.keys)).Perm (cases.map (·.1) ++ es.flatMap (·.keys)) := by
    induction cases with
    | nil => exact fun es => .refl _
    | cons k cases ih =>
      intro es
      refine (ih _).trans ((ArmEntry.keys_update_addKey.append_left _).trans ?_)
      exact List.perm_middle
  have hsorted : ∀ es : List ArmEntry,
      ((es.map ArmEntry.sorted).flatMap (·.keys)).Perm (es.flatMap (·.keys)) := by
    intro es
    induction es with
    | nil => exact .refl _
    | cons e es ih => exact (List.mergeSort_perm e.keys _).append ih
  refine (hsorted _).trans ?_
  split
  · simpa using hkeyed []
  · rw [ArmEntry.keys_update_makeDefault]
    simpa using hkeyed []

/-- One arm is the default, unless that is the block behind the switch. -/
theorem groupCases_defaults : (groupCases cases default follow).countP (·.isDefault)
    = if follow = some default then 0 else 1 := by
  have hkeyed : ∀ es : List ArmEntry, es.countP (·.isDefault) = 0 →
      (cases.foldl (fun es k => ArmEntry.update (ArmEntry.addKey k.1) k.2 es) es).countP
        (·.isDefault) = 0 := by
    induction cases with
    | nil => exact fun es hes => hes
    | cons k cases ih => exact fun es hes => ih _ (ArmEntry.defaults_update_addKey.trans hes)
  unfold groupCases
  simp only
  rw [List.countP_map]
  show List.countP ArmEntry.isDefault _ = _
  split
  · exact hkeyed [] rfl
  · exact ArmEntry.defaults_update_makeDefault (hkeyed [] rfl)

/-- The keys of an arm are in ascending order. -/
theorem keys_ascending (hkeys : (cases.map (·.1)).Nodup) {e : ArmEntry}
    (he : e ∈ groupCases cases default follow) : e.keys.Pairwise (· < ·) := by
  have hsorted : e.keys.Pairwise (· ≤ ·) := by
    obtain ⟨e', _, rfl⟩ := List.mem_map.1 he
    have htrans : ∀ a b c : Int, decide (a ≤ b) = true → decide (b ≤ c) = true →
        decide (a ≤ c) = true := by
      intro a b c hab hbc
      simp only [decide_eq_true_eq] at hab hbc ⊢
      omega
    have htotal : ∀ a b : Int, (decide (a ≤ b) || decide (b ≤ a)) = true := by
      intro a b
      simp only [Bool.or_eq_true, decide_eq_true_eq]
      omega
    exact (List.pairwise_mergeSort htrans htotal e'.keys).imp fun h => of_decide_eq_true h
  have hall : ((groupCases cases default follow).flatMap (·.keys)).Nodup :=
    groupCases_keys.nodup_iff.2 hkeys
  have hnodup : e.keys.Nodup := (List.nodup_flatMap.1 hall).1 e he
  exact (hsorted.and hnodup).imp fun ⟨hle, hne⟩ => lt_of_le_of_ne hle hne

end Groups

/-! ### Arms -/

/-- Each element is related to the one at its place in the other list, with regard to the element
    behind it. -/
inductive InTurn {α β : Type} (R : α → Option α → β → Prop) : List α → List β → Prop
  | nil : InTurn R [] []
  | cons {x : α} {xs : List α} {y : β} {ys : List β} (h : R x xs.head? y) (hrest : InTurn R xs ys) :
      InTurn R (x :: xs) (y :: ys)

namespace InTurn

variable {α α' β : Type} {R : α → Option α → β → Prop} {xs : List α} {ys : List β}

/-- The elements are seen through a function. -/
theorem map {S : α' → Option α' → β → Prop} {f : α → α'} (h : InTurn R xs ys)
    (himp : ∀ x ∈ xs, ∀ next y, R x next y → S (f x) (next.map f) y) : InTurn S (xs.map f) ys := by
  induction h with
  | nil => exact .nil
  | @cons x xs y ys h _ ih =>
    refine .cons ?_ (ih fun x' hx' => himp x' (List.mem_cons_of_mem _ hx'))
    rw [List.head?_map]
    exact himp x (List.mem_cons_self ..) _ _ h

/-- Each element of the second list comes from one of the first. -/
theorem exists_left (h : InTurn R xs ys) {y : β} (hy : y ∈ ys) : ∃ x ∈ xs, ∃ next, R x next y := by
  induction h with
  | nil => cases hy
  | cons h _ ih =>
    rcases List.mem_cons.1 hy with rfl | hy
    · exact ⟨_, List.mem_cons_self .., _, h⟩
    · obtain ⟨x, hx, next, hR⟩ := ih hy
      exact ⟨x, List.mem_cons_of_mem _ hx, next, hR⟩

/-- What related elements have in common is the same in both lists. -/
theorem map_eq {γ : Type} {f : α → γ} {g : β → γ} (h : InTurn R xs ys)
    (hR : ∀ x next y, R x next y → g y = f x) : ys.map g = xs.map f := by
  induction h with
  | nil => rfl
  | cons h _ ih => rw [List.map_cons, List.map_cons, hR _ _ _ h, ih]

end InTurn

/-- The arm for the target `start` has the keys of this target, in ascending order, and it is the
    default if the default has this target and does not go on behind the switch. -/
structure Serves (cases : List (Int × Nat)) (default : Nat) (own : Option Nat) (start : Nat)
    (a : SwitchArm) : Prop where
  keys : ∀ k, k ∈ a.labels ↔ (k, start) ∈ cases
  ascending : a.labels.Pairwise (· < ·)
  isDefault : a.isDefault = true ↔ start = default ∧ own ≠ some default

/-- The code of an arm begins at `start`, and `next` is where the next arm begins. An arm at the
    block `own` behind the switch only breaks. Any other one is walked up to the next arm or to
    `own`; if the walk ends there, then this is `own` if the arm breaks, and otherwise it is where
    the next arm begins. -/
def Context.RunsOut (c : Context) (labels : List Nat) (fuel : Nat) (frames : Frames)
    (own : Option Nat) (scope : Scope) (start : Nat) (next : Option Nat) (a : SwitchArm) : Prop :=
  (own = some start ∧ a.breaks = true ∧ a.body.stmts = []) ∨
  (own ≠ some start ∧ ∃ m p p',
    (c.region labels fuel frames start (next.or own) (.start (scope.child .switch))).run p
      = .ok (m, p') ∧
    Trimmed .breakOut m.scope.stmts a.body.stmts ∧
    (c.Finishes labels fuel frames start (next.or own) (.start (scope.child .switch)) p .atStop m
        p' →
      ∃ t, next.or own = some t ∧ if a.breaks then own = some t else next = some t))

/-- Where control goes on behind the last statement of an arm, the arm breaks exactly if it runs
    into the block behind the switch. -/
theorem closeArm_of_continues {next follow : Option Nat} {s : Scope} {r : Bool × Scope}
    (hs : Continues s.stmts) (h : closeArm next follow s = .ok r) :
    r.1 = (next.isSome && next == follow) := by
  have hlast : ∀ t, s.last? = some t → t.isTerminal = false := fun t ht =>
    hs t (List.mem_of_getLast? ht)
  unfold closeArm at h
  split at h
  · rename_i hbreak
    exact absurd (hlast _ hbreak) (by decide)
  · cases h
    cases hend : s.last? with
    | none => simp
    | some t => simp [hlast t hend]

namespace Context

open Pass

variable {c : Context} {labels : List Nat} {fuel : Nat} {frames : Frames} {p : Progress}
  {scope : Scope} {own : Option Nat}

/-- The code of one arm. -/
theorem switchArm_runsOut {start : Nat} {next : Option Nat} (keys : List Int) (isDefault : Bool) :
    Ensures ((c.region labels fuel).switchArm frames own (next.or own) (scope.child .switch) start)
      p fun r _ => ∀ body, body.stmts = r.2.stmts →
        c.RunsOut labels fuel frames own scope start next ⟨keys, isDefault, body, r.1⟩ := by
  unfold Walk.switchArm
  split
  · rename_i hown
    exact ensures_pure fun body hbody => .inl ⟨hown, rfl, hbody⟩
  · rename_i hown
    refine ensures_bind (ensures_bind fun m p₁ hrun => ensures_bind (ensures_failIf fun _ =>
      ensures_pure (ensures_of fun ⟨breaks, s⟩ hclose body hbody => ?_)))
    refine .inr ⟨hown, m, p, p₁, hrun, ?_, fun hfinish => ?_⟩
    · show Trimmed .breakOut m.scope.stmts body.stmts
      rw [hbody]
      exact closeArm_trimmed hclose
    · -- control came to the end of the arm, so it goes on behind every statement of it
      have hcontinues : Continues m.scope.stmts := hfinish.continues .nil
      have hbreaks : breaks = ((next.or own).isSome && next.or own == own) :=
        closeArm_of_continues hcontinues hclose
      obtain ⟨t, ht⟩ := Option.isSome_iff_exists.1 hfinish.stop_isSome
      refine ⟨t, ht, ?_⟩
      show if breaks = true then own = some t else next = some t
      rw [ht] at hbreaks
      by_cases heq : own = some t
      · have hb : breaks = true := by simp [hbreaks, heq]
        rw [if_pos hb]
        exact heq
      · have hb : breaks ≠ true := by simpa [hbreaks] using fun h => heq h.symm
        rw [if_neg hb]
        cases next with
        | none => exact absurd ht heq
        | some u => exact ht

/-- The arms are written in turn. -/
theorem switchArms_runOut (es : List ArmEntry) :
    Ensures ((c.region labels fuel).switchArms frames own scope es) p fun arms _ =>
      InTurn (fun e next a => a.labels = e.keys ∧ a.isDefault = e.isDefault ∧
        c.RunsOut labels fuel frames own scope e.start (next.map ArmEntry.start) a) es arms := by
  induction es generalizing p with
  | nil => exact ensures_pure .nil
  | cons e es ih =>
    refine ensures_bind ((switchArm_runsOut e.keys e.isDefault).imp
      fun ⟨breaks, body⟩ p₁ hbody => ?_)
    refine ensures_bind (ensures_of fun body' hlock => ?_)
    exact ensures_bind (ih.imp fun arms p₂ harms => ensures_pure
      (.cons ⟨rfl, rfl, hbody body' (Scope.stmts_of_lock hlock)⟩ harms))

end Context

/-! ### Switches -/

section Keys

variable {cases : List (Int × Nat)} {default : Nat} {own : Option Nat}

/-- An arm with the keys of a group serves its target. -/
theorem serves_of_mem (hkeys : (cases.map (·.1)).Nodup) {e : ArmEntry}
    (he : e ∈ groupCases cases default own) {a : SwitchArm} (hlabels : a.labels = e.keys)
    (hdefault : a.isDefault = e.isDefault) : Serves cases default own e.start a := by
  -- no two groups have the same target
  have hstarts : ((groupCases cases default own).map (·.start)).Nodup := by
    have hlt : (groupCases cases default own).Pairwise fun e e' => e.start < e'.start :=
      groupCases_ascending
    exact List.pairwise_map.2 (hlt.imp fun h => Nat.ne_of_lt h)
  have hsame : ∀ e' ∈ groupCases cases default own, e'.start = e.start → e' = e :=
    fun e' he' heq => List.inj_on_of_nodup_map hstarts he' he heq
  constructor
  · intro k
    have hkey : (∃ e' ∈ groupCases cases default own, e'.start = e.start ∧ k ∈ e'.keys)
        ↔ (k, e.start) ∈ cases := exists_key_iff
    rw [hlabels, ← hkey]
    constructor
    · exact fun hk => ⟨e, he, rfl, hk⟩
    · rintro ⟨e', he', hstart, hk⟩
      exact hsame e' he' hstart ▸ hk
  · rw [hlabels]
    exact keys_ascending hkeys he
  · have hdefault' : (∃ e' ∈ groupCases cases default own, e'.start = e.start ∧
        e'.isDefault = true) ↔ e.start = default ∧ own ≠ some default := exists_default_iff
    rw [hdefault, ← hdefault']
    constructor
    · exact fun hd => ⟨e, he, rfl, hd⟩
    · rintro ⟨e', he', hstart, hd⟩
      exact hsame e' he' hstart ▸ hd

/-- Keys are in one arm exactly if they have the same target. -/
theorem shared_iff {R : Nat → Option Nat → SwitchArm → Prop} {starts : List Nat}
    {arms : List SwitchArm} (hkeys : (cases.map (·.1)).Nodup)
    (hall : ∀ k ∈ cases.map (·.1), ∃ a ∈ arms, k ∈ a.labels)
    (harms : InTurn (fun start next a => Serves cases default own start a ∧ R start next a)
      starts arms) {k k' : Int} {t t' : Nat} (hk : (k, t) ∈ cases) (hk' : (k', t') ∈ cases) :
    (∃ a ∈ arms, k ∈ a.labels ∧ k' ∈ a.labels) ↔ t = t' := by
  have htarget : ∀ {k t u}, (k, t) ∈ cases → (k, u) ∈ cases → t = u := fun h h' => by
    have := List.inj_on_of_nodup_map hkeys h h' rfl
    exact congrArg Prod.snd this
  constructor
  · rintro ⟨a, ha, hka, hka'⟩
    obtain ⟨start, _, next, hserves, _⟩ := harms.exists_left ha
    have hstart := htarget hk ((hserves.keys k).1 hka)
    have hstart' := htarget hk' ((hserves.keys k').1 hka')
    rw [hstart, hstart']
  · rintro rfl
    obtain ⟨a, ha, hka⟩ := hall k (List.mem_map_of_mem hk)
    obtain ⟨start, _, next, hserves, _⟩ := harms.exists_left ha
    have hstart := htarget hk ((hserves.keys k).1 hka)
    refine ⟨a, ha, hka, (hserves.keys k').2 ?_⟩
    rw [← hstart]
    exact hk'

end Keys

namespace Context

open Pass

/-- The arms of a switch are the groups of its keys in turn. -/
theorem switch_runsOut {c : Context} {labels : List Nat} {fuel : Nat} {frames : Frames}
    {n default : Nat} {cases : List (Int × Nat)} {stop : Option Nat} {m : Simulation}
    {p : Progress} :
    Ensures (c.switch (c.region labels fuel) frames n cases default stop m) p fun r _ =>
      ∃ own key arms, own = (c.graph.postDominator? n).filter (fun f => stop == some f ||
          (c.jump ⟨frames, p.written, stop⟩ f == .enter && frames.inLoop f)) ∧
        r.2.scope.stmts = m.scope.stmts ++ [.switch key arms] ∧
        InTurn (fun e next a => a.labels = e.keys ∧ a.isDefault = e.isDefault ∧
          c.RunsOut labels fuel (.switch own :: frames) own m.scope e.start
            (next.map ArmEntry.start) a) (groupCases cases default own) arms := by
  refine ensures_bind (ensures_of fun ⟨key, st⟩ _ => ensures_bind (ensures_failIf fun _ => ?_))
  refine ensures_bind (ensures_position ?_)
  refine ensures_bind ((switchArms_runOut _).imp fun arms p₁ harms => ?_)
  exact ensures_bind (ensures_added fun s happend => ensures_pure
    ⟨_, key, arms, rfl, Scope.stmts_of_append happend, harms⟩)

/-- The code of a switch with distinct keys keeps every key on its target. Its arms are in the order
    of their targets, each with the keys of its target in ascending order, each key is in one arm,
    and keys share an arm if they share the target. The arm of the default is marked as such, unless
    the default is the block `own` behind the switch that its own jumps lead to. An arm that is
    walked to its end runs into that block if it breaks, and into the next arm otherwise. -/
theorem switch_serves {c : Context} {labels : List Nat} {fuel : Nat} {frames : Frames}
    {n default : Nat} {cases : List (Int × Nat)} {stop next : Option Nat} {m m' : Simulation}
    {p p' : Progress} (hkeys : (cases.map (·.1)).Nodup)
    (hrun : (c.switch (c.region labels fuel) frames n cases default stop m).run p
      = .ok ((next, m'), p')) :
    ∃ own key starts arms,
      own = (c.graph.postDominator? n).filter (fun f => stop == some f ||
        (c.jump ⟨frames, p.written, stop⟩ f == .enter && frames.inLoop f)) ∧
      m'.scope.stmts = m.scope.stmts ++ [.switch key arms] ∧
      starts.Pairwise (· < ·) ∧
      InTurn (fun start next a => Serves cases default own start a ∧
        c.RunsOut labels fuel (.switch own :: frames) own m.scope start next a) starts arms ∧
      (arms.flatMap (·.labels)).Perm (cases.map (·.1)) ∧
      (∀ k t k' t', (k, t) ∈ cases → (k', t') ∈ cases →
        ((∃ a ∈ arms, k ∈ a.labels ∧ k' ∈ a.labels) ↔ t = t')) ∧
      arms.countP (·.isDefault) = if own = some default then 0 else 1 := by
  obtain ⟨own, key, arms, hown, hstmts, harms⟩ := switch_runsOut (next, m') p' hrun
  -- the arms are written group by group, so what is known of the groups holds of the arms
  have hlabels : arms.map (·.labels) = (groupCases cases default own).map (·.keys) :=
    harms.map_eq fun _ _ _ h => h.1
  have hdefaults : arms.map (·.isDefault) = (groupCases cases default own).map (·.isDefault) :=
    harms.map_eq fun _ _ _ h => h.2.1
  have hperm : (arms.flatMap (·.labels)).Perm (cases.map (·.1)) := by
    rw [List.flatMap_def, hlabels, ← List.flatMap_def]
    exact groupCases_keys
  have hserved : InTurn (fun start next a => Serves cases default own start a ∧
      c.RunsOut labels fuel (.switch own :: frames) own m.scope start next a)
        ((groupCases cases default own).map (·.start)) arms :=
    harms.map fun e he _ _ h => ⟨serves_of_mem hkeys he h.1 h.2.1, h.2.2⟩
  refine ⟨own, key, (groupCases cases default own).map (·.start), arms, hown, hstmts, ?_, hserved,
    hperm, fun k t k' t' hk hk' => ?_, ?_⟩
  · exact List.pairwise_map.2 groupCases_ascending
  · refine shared_iff hkeys (fun k hk => ?_) hserved hk hk'
    exact List.mem_flatMap.1 (hperm.mem_iff.2 hk)
  · have hcount : ∀ {α : Type} (f : α → Bool) (xs : List α),
        xs.countP f = (xs.map f).countP id := fun f xs => by
      rw [List.countP_map]
      rfl
    rw [hcount, hdefaults, ← hcount]
    exact groupCases_defaults

/-- The blocks of `switch (k) { case 1: case 2: a(); break; case 3: b(); default: c(); }`, the keys
    in another order. -/
def falling : List Block :=
  [⟨[.load 0 "I"], .switch [(2, 1), (3, 2), (1, 1)] 3⟩,
    ⟨[.invoke .static ⟨"T", "a", "()V"⟩], .goto 4⟩, ⟨[.invoke .static ⟨"T", "b", "()V"⟩], .goto 3⟩,
    ⟨[.invoke .static ⟨"T", "c", "()V"⟩], .goto 4⟩, ⟨[], .ret⟩]

/-- Whether the arms of a single switch are the default, and whether they break. -/
def armFlags : List Stmt → List (Bool × Bool)
  | [.switch _ arms] => arms.map fun a => (a.isDefault, a.breaks)
  | _ => []

/-- Two keys share an arm that breaks, and the arm of the other one runs into the default. -/
theorem falling_serves :
    ∃ g next m' p', FlowGraph.ofBlocks falling = .ok g ∧
      (switch ⟨{}, g⟩ (region ⟨{}, g⟩ [] 9) [] 0 [(2, 1), (3, 2), (1, 1)] 3 none
        ⟨.new .method, [.value (.const (.int 2))]⟩).run { written := [0] }
          = .ok ((next, m'), p') ∧
      armFlags m'.scope.stmts = [(false, true), (false, false), (true, true)] ∧
      ∃ key arms, m'.scope.stmts = [.switch key arms] ∧
        (arms.flatMap (·.labels)).Perm [2, 3, 1] ∧ ∃ a ∈ arms, 1 ∈ a.labels ∧ 2 ∈ a.labels := by
  have heval : (do
      let g ← FlowGraph.ofBlocks falling
      let r ← (switch ⟨{}, g⟩ (region ⟨{}, g⟩ [] 9) [] 0 [(2, 1), (3, 2), (1, 1)] 3 none
        ⟨.new .method, [.value (.const (.int 2))]⟩).run { written := [0] }
      return armFlags r.1.2.scope.stmts).toOption
        = some [(false, true), (false, false), (true, true)] := by decide +kernel
  obtain ⟨g, hg, h⟩ := Except.bind_eq_ok.1 (Except.eq_ok_of_toOption heval)
  obtain ⟨⟨⟨next, m'⟩, p'⟩, hrun, h⟩ := Except.bind_eq_ok.1 h
  have hkeys : (List.map Prod.fst [((2 : Int), 1), (3, 2), (1, 1)]).Nodup := by decide
  obtain ⟨own, key, starts, arms, _, hstmts, _, _, hperm, hshared, _⟩ := switch_serves hkeys hrun
  have hpair := (hshared 1 1 2 1 (by decide) (by decide)).2 rfl
  exact ⟨g, next, m', p', hg, hrun, Except.ok.inj h, key, arms, hstmts, hperm, hpair⟩

end Context

end Restructure
