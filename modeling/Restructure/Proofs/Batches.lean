import Mathlib.Data.List.Forall2
import Mathlib.Data.List.Sort
import Mathlib.Data.Prod.Lex
import Mathlib.Data.String.Basic
import Mathlib.Logic.Relation
import Restructure.Report

namespace Restructure

/-!
# Batches — the methods of many classes, recovered in any order

Workers take up the methods of a batch one by one.  The outcome of a method is kept at its place in
its class, and a failure is also put behind the failures that arrived before.  Which method is taken
up next is left open, unless there is only one worker.

* `Report.Accounts` — the report holds every method of a list of classes, as recovered or as failed.
* `Batch.Step` — a worker recovers one method.
* `Batch.Sound` — what a batch keeps after every step.
* `Batch.accounts_of_run` — every run comes to an end, its reports account for every method, and
  they are the same for all runs if the failures can be told apart.
-/

/-! ### The order of failures -/

namespace MethodFailure

/-- What failures are sorted by. -/
def key (f : MethodFailure) : String ×ₗ String ×ₗ String :=
  toLex (f.className, toLex (f.method, f.descriptor))

/-- The order of failures is the order of their keys. -/
theorem le_iff_key_le {a b : MethodFailure} : a.le b = true ↔ a.key ≤ b.key := by
  simp only [key, Prod.Lex.toLex_le_toLex, le]
  by_cases hclass : a.className = b.className
  · by_cases hmethod : a.method = b.method
    · simp [hclass, hmethod]
    · simp [hclass, hmethod, le_iff_lt_or_eq]
  · simp [hclass, le_iff_lt_or_eq]

/-- Sorted failures ascend. -/
theorem pairwise_mergeSort (fs : List MethodFailure) :
    (fs.mergeSort le).Pairwise fun a b => a.key ≤ b.key := by
  have htrans : ∀ a b c : MethodFailure, a.le b = true → b.le c = true → a.le c = true := by
    simp only [le_iff_key_le]
    exact fun _ _ _ => le_trans
  have htotal : ∀ a b : MethodFailure, (a.le b || b.le a) = true := by
    simp only [Bool.or_eq_true, le_iff_key_le]
    exact fun a b => le_total a.key b.key
  exact (List.pairwise_mergeSort htrans htotal fs).imp le_iff_key_le.1

/-- Failures with different keys can be sorted in one way only. -/
theorem mergeSort_eq_of_perm {fs gs : List MethodFailure} (h : fs.Perm gs)
    (hkeys : (fs.map key).Nodup) : fs.mergeSort le = gs.mergeSort le := by
  refine List.Perm.eq_of_pairwise (fun a b ha hb hab hba => ?_)
    (pairwise_mergeSort fs) (pairwise_mergeSort gs)
    ((List.mergeSort_perm fs le).trans (h.trans (List.mergeSort_perm gs le).symm))
  exact List.inj_on_of_nodup_map hkeys ((List.mergeSort_perm fs le).mem_iff.1 ha)
    (h.mem_iff.2 ((List.mergeSort_perm gs le).mem_iff.1 hb)) (le_antisymm hab hba)

end MethodFailure

/-! ### What a report has to hold -/

namespace Method

variable (config : Config)

/-- The code can be recovered. -/
def recovers (m : Method) : Bool := (m.recover config).isOk

/-- The code can be recovered with labels and jumps. -/
def recoversFlat (m : Method) : Bool :=
  match m.recover config with
  | .ok r => r.fallback
  | .error _ => false

variable {config} {m : Method}

/-- A method is recovered if its recovery succeeds. -/
theorem recovers_iff : m.recovers config = true ↔ ∃ r, m.recover config = .ok r := by
  cases h : m.recover config <;> simp [recovers, h, Except.toBool]

/-- A method is not recovered if its recovery fails. -/
theorem recovers_eq_false_iff : m.recovers config = false ↔ ∃ e, m.recover config = .error e := by
  cases h : m.recover config <;> simp [recovers, h, Except.toBool]

variable (config)

/-- The entry of a method that was recovered. -/
structure Recovered (m : Method) (r : RecoveredMethod) : Prop where
  name : r.name = m.name
  descriptor : r.descriptor = m.descriptor
  code : m.recover config = .ok ⟨r.body, r.fallback⟩

/-- The entry of a method that failed, where the method is given with the name of its class. -/
structure Failed (p : String × Method) (f : MethodFailure) : Prop where
  className : f.className = p.1
  method : f.method = p.2.name
  descriptor : f.descriptor = p.2.descriptor
  error : p.2.recover config = .error f.error

end Method

namespace ClassFile

variable (config : Config)

/-- The methods that cannot be recovered, with the name of the class. -/
def missing (k : ClassFile) : List (String × Method) :=
  (k.methods.filter fun m => !m.recovers config).map fun m => (k.name, m)

/-- The entry of a class: its own name, and its methods that can be recovered, as declared. -/
structure Recovered (k : ClassFile) (c : RecoveredClass) : Prop where
  name : c.name = k.name
  methods : List.Forall₂ (Method.Recovered config) (k.methods.filter (·.recovers config)) c.methods

end ClassFile

/-- The report holds every method of the classes: those that can be recovered in their classes, and
    the others, each one once, among the failures. -/
structure Report.Accounts (config : Config) (ks : List ClassFile) (r : Report) : Prop where
  classes : List.Forall₂ (ClassFile.Recovered config) ks r.classes
  failures : ∃ fs, fs.Perm r.failures ∧
    List.Forall₂ (Method.Failed config) (ks.flatMap (·.missing config)) fs
  ascending : r.failures.Pairwise fun a b => a.key ≤ b.key
  total : r.structuredCount + r.fallbackCount =
    (ks.flatMap (·.methods)).countP (·.recovers config)
  flat : r.fallbackCount = (ks.flatMap (·.methods)).countP (·.recoversFlat config)

/-! ### Reports from outcomes -/

/-- What is found for the elements with a property, in their order. -/
theorem forall₂_filter_filterMap {α β : Type} {R : α → β → Prop} {p : α → Bool} {f : α → Option β}
    (hsome : ∀ a, p a = true → ∃ b, f a = some b ∧ R a b) (hnone : ∀ a, p a = false → f a = none)
    (l : List α) : List.Forall₂ R (l.filter p) (l.filterMap f) := by
  induction l with
  | nil => exact .nil
  | cons a l ih =>
    cases hp : p a with
    | true =>
      obtain ⟨b, hb, hr⟩ := hsome a hp
      rw [List.filter_cons_of_pos hp, List.filterMap_cons_some hb]
      exact .cons hr ih
    | false =>
      rw [List.filter_cons_of_neg (by simp [hp]), List.filterMap_cons_none (hnone a hp)]
      exact ih

namespace ClassFile

variable (config : Config) (k : ClassFile)

/-- The class with its recovered methods. -/
def recovered : RecoveredClass := ⟨k.name, (k.attempts config).filterMap Attempt.recovered?⟩

/-- The failures of the class in the order of declaration. -/
def failures : List MethodFailure := (k.attempts config).filterMap (Attempt.failure? k.name)

/-- The bodies of a class are those of the methods that can be recovered. -/
theorem recovered_spec : k.Recovered config (k.recovered config) where
  name := rfl
  methods := by
    rw [recovered, attempts, List.filterMap_map]
    refine forall₂_filter_filterMap (fun m hm => ?_) (fun m hm => ?_) k.methods
    · obtain ⟨r, hr⟩ := Method.recovers_iff.1 hm
      exact ⟨⟨m.name, m.descriptor, r.body, r.fallback⟩, by simp [Attempt.recovered?, hr],
        rfl, rfl, hr⟩
    · obtain ⟨e, he⟩ := Method.recovers_eq_false_iff.1 hm
      simp [Attempt.recovered?, he]

/-- Every method that is not recovered has its failure, in the same place. -/
theorem forall₂_missing_failures :
    List.Forall₂ (Method.Failed config) (k.missing config) (k.failures config) := by
  rw [missing, failures, attempts, List.filterMap_map, List.forall₂_map_left_iff]
  refine forall₂_filter_filterMap (fun m hm => ?_) (fun m hm => ?_) k.methods
  · obtain ⟨e, he⟩ := Method.recovers_eq_false_iff.1 (by simpa using hm)
    exact ⟨⟨k.name, m.name, m.descriptor, e⟩, by simp [Attempt.failure?, he], rfl, rfl, rfl, he⟩
  · obtain ⟨r, hr⟩ := Method.recovers_iff.1 (by simpa using hm)
    simp [Attempt.failure?, hr]

end ClassFile

namespace Report

variable {config : Config} {ks : List ClassFile}

/-- The report of classes collects what they yield one by one. -/
theorem ofClasses_eq : ofClasses config ks =
    collect (ks.map (·.recovered config)) (ks.flatMap (·.failures config)) := by
  simp only [ofClasses, List.map_map, List.flatMap_map]
  rfl

/-- Over all classes, every method that is not recovered has its failure. -/
theorem forall₂_missing_failures : List.Forall₂ (Method.Failed config)
    (ks.flatMap (·.missing config)) (ks.flatMap (·.failures config)) := by
  induction ks with
  | nil => exact .nil
  | cons k ks ih => exact List.rel_append (k.forall₂_missing_failures config) ih

/-- The recovered methods of all classes come from the methods of all classes. -/
theorem methods_collect {arrivals : List MethodFailure} :
    (collect (ks.map (·.recovered config)) arrivals).methods =
      (ks.flatMap (·.methods)).filterMap fun m =>
        Attempt.recovered? ⟨m, m.recover config⟩ := by
  simp only [methods, collect, List.flatMap_map, ClassFile.recovered, ClassFile.attempts,
    List.filterMap_map, List.filterMap_flatMap]
  rfl

/-- The count of flat bodies is that of the methods whose recovery is flat. -/
theorem fallbackCount_collect {arrivals : List MethodFailure} :
    (collect (ks.map (·.recovered config)) arrivals).fallbackCount =
      (ks.flatMap (·.methods)).countP (·.recoversFlat config) := by
  rw [fallbackCount, methods_collect, List.countP_filterMap]
  refine List.countP_congr fun m _ => ?_
  cases h : m.recover config <;> simp [Method.recoversFlat, Attempt.recovered?, h]

/-- Both counts together are the number of the recovered methods. -/
theorem count_collect {arrivals : List MethodFailure} :
    (collect (ks.map (·.recovered config)) arrivals).structuredCount +
        (collect (ks.map (·.recovered config)) arrivals).fallbackCount =
      (ks.flatMap (·.methods)).countP (·.recovers config) := by
  have hsplit : ∀ r : Report, r.structuredCount + r.fallbackCount = r.methods.length := fun r => by
    rw [List.length_eq_countP_add_countP (·.fallback), Nat.add_comm]
    simp [structuredCount, fallbackCount]
  rw [hsplit, methods_collect, List.length_filterMap_eq_countP]
  refine List.countP_congr fun m _ => ?_
  cases h : m.recover config <;> simp [Method.recovers, Attempt.recovered?, Except.toBool, h]

/-- Whatever the order is in which the failures arrive, the report accounts for every method. -/
theorem accounts_collect {arrivals : List MethodFailure}
    (h : arrivals.Perm (ks.flatMap (·.failures config))) :
    (collect (ks.map (·.recovered config)) arrivals).Accounts config ks where
  classes := List.forall₂_map_right_iff.2 (List.forall₂_same.2 fun k _ =>
    k.recovered_spec config)
  failures := ⟨_, h.symm.trans (List.mergeSort_perm _ _).symm, forall₂_missing_failures⟩
  ascending := MethodFailure.pairwise_mergeSort arrivals
  total := count_collect
  flat := fallbackCount_collect

/-- If the failing methods differ in class, name or descriptor, so do the keys of the failures. -/
theorem nodup_keys
    (h : ((ks.flatMap (·.missing config)).map fun p =>
      (p.1, p.2.name, p.2.descriptor)).Nodup) :
    ((ks.flatMap (·.failures config)).map MethodFailure.key).Nodup := by
  have hkeys : ((ks.flatMap (·.missing config)).map fun p =>
      (p.1, p.2.name, p.2.descriptor)).map (fun t => toLex (t.1, toLex t.2)) =
      (ks.flatMap (·.failures config)).map MethodFailure.key := by
    rw [List.map_map, ← List.forall₂_eq_eq_eq, List.forall₂_map_left_iff,
      List.forall₂_map_right_iff]
    exact forall₂_missing_failures.imp fun p f hf => by
      simp [MethodFailure.key, hf.className, hf.method, hf.descriptor]
  rw [← hkeys]
  exact h.map fun t t' ht => by simpa [Prod.ext_iff] using ht

end Report

/-! ### Workers -/

/-- The first element without a property that not all elements have. -/
theorem exists_first_of_all_eq_false {α : Type} {p : α → Bool} {l : List α}
    (h : l.all p = false) :
    ∃ front a rest, l = front ++ a :: rest ∧ front.all p = true ∧ p a = false := by
  induction l with
  | nil => simp at h
  | cons a l ih =>
    cases hp : p a with
    | false => exact ⟨[], a, l, rfl, rfl, hp⟩
    | true =>
      obtain ⟨front, x, rest, rfl, hfront, hx⟩ := ih (by simpa [hp] using h)
      exact ⟨a :: front, x, rest, rfl, by simp [hp, hfront], hx⟩

/-- A method, with the outcome of its recovery as soon as there is one. -/
structure Task where
  method : Method
  outcome? : Option (Except Error RecoveredBody)

namespace Task

variable (t : Task)

/-- The method has been taken up. -/
def isDone : Bool := t.outcome?.isSome

/-- The method with its outcome, once there is one. -/
def attempt? : Option Attempt := t.outcome?.map fun o => ⟨t.method, o⟩

end Task

/-- A class with its tasks in the order of declaration. -/
structure ClassWork where
  name : String
  tasks : List Task

namespace ClassWork

variable (c : ClassWork)

/-- All methods of the class have been taken up. -/
def isDone : Bool := c.tasks.all Task.isDone

/-- The outcomes that are there, in the order of declaration. -/
def attempts : List Attempt := c.tasks.filterMap Task.attempt?

/-- The bodies that are there. -/
def recovered : RecoveredClass := ⟨c.name, c.attempts.filterMap Attempt.recovered?⟩

/-- The failures that are there. -/
def failures : List MethodFailure := c.attempts.filterMap (Attempt.failure? c.name)

variable {name : String} {front rest : List Task} {m : Method}

/-- A method that waits has no failure yet. -/
theorem failures_waiting : (⟨name, front ++ ⟨m, none⟩ :: rest⟩ : ClassWork).failures =
    (⟨name, front⟩ : ClassWork).failures ++ (⟨name, rest⟩ : ClassWork).failures := by
  have hnone : (⟨m, none⟩ : Task).attempt? = none := rfl
  simp [failures, attempts, List.filterMap_cons_none hnone]

/-- A method with an outcome adds its failure, if it failed. -/
theorem failures_done {o : Except Error RecoveredBody} :
    (⟨name, front ++ ⟨m, some o⟩ :: rest⟩ : ClassWork).failures =
      (⟨name, front⟩ : ClassWork).failures ++
        ((Attempt.failure? name ⟨m, o⟩).toList ++ (⟨name, rest⟩ : ClassWork).failures) := by
  cases h : Attempt.failure? name ⟨m, o⟩ <;> simp [failures, attempts, Task.attempt?, h]

end ClassWork

/-- The work on a list of classes, and the failures in the order in which they arrived. -/
structure Batch where
  classes : List ClassWork
  arrivals : List MethodFailure

namespace Batch

/-- No method has been taken up. -/
def start (ks : List ClassFile) : Batch :=
  ⟨ks.map fun k => ⟨k.name, k.methods.map fun m => ⟨m, none⟩⟩, []⟩

/-- All methods have been taken up. -/
def isDone (b : Batch) : Bool := b.classes.all ClassWork.isDone

/-- A worker recovers one method. A single worker takes the first one that is left. -/
inductive Step (config : Config) : Batch → Batch → Prop
  | recover {before after : List ClassWork} {name : String} {front rest : List Task} {m : Method}
      {arrivals : List MethodFailure}
      (inTurn : config.parallel = false → before.all ClassWork.isDone ∧ front.all Task.isDone) :
      Step config
        ⟨before ++ ⟨name, front ++ ⟨m, none⟩ :: rest⟩ :: after, arrivals⟩
        ⟨before ++ ⟨name, front ++ ⟨m, some (m.recover config)⟩ :: rest⟩ :: after,
          arrivals ++ (Attempt.failure? name ⟨m, m.recover config⟩).toList⟩

/-- A run of the workers. -/
abbrev Run (config : Config) : Batch → Batch → Prop := Relation.ReflTransGen (Step config)

/-- A report of the batch, with the failures read in any order. -/
def Yields (b : Batch) (r : Report) : Prop :=
  ∃ fs, fs.Perm b.arrivals ∧ r = .collect (b.classes.map ClassWork.recovered) fs

/-! ### What a step keeps -/

/-- Names and methods are those of the classes, every outcome is the one of its method, and the
    failures are those of the tasks, each one once. -/
structure Sound (config : Config) (ks : List ClassFile) (b : Batch) : Prop where
  declared : (b.classes.map fun c => (c.name, c.tasks.map Task.method)) =
    ks.map fun k => (k.name, k.methods)
  own : ∀ c ∈ b.classes, ∀ t ∈ c.tasks, ∀ o ∈ t.outcome?, o = t.method.recover config
  arrived : b.arrivals.Perm (b.classes.flatMap ClassWork.failures)

variable {config : Config} {ks : List ClassFile} {b b' : Batch}

/-- The invariant holds before any method is taken up. -/
theorem Sound.start : Sound config ks (start ks) where
  declared := by simp [Batch.start, Function.comp_def]
  own := by simp [Batch.start]
  arrived := by
    simp [Batch.start, ClassWork.failures, ClassWork.attempts, Task.attempt?]

/-- A worker that recovers a method keeps the invariant. -/
theorem Sound.step (h : Sound config ks b) (hstep : Step config b b') : Sound config ks b' := by
  cases hstep with
  | @recover before after name front rest m arrivals inTurn =>
    obtain ⟨hdeclared, hown, harrived⟩ := h
    refine ⟨?_, ?_, ?_⟩
    · simpa using hdeclared
    · simp only [List.mem_append, List.mem_cons, or_imp, forall_and, forall_eq] at hown ⊢
      obtain ⟨hbefore, ⟨hfront, -, hrest⟩, hafter⟩ := hown
      exact ⟨hbefore, ⟨hfront, fun o ho => (Option.some.inj ho).symm, hrest⟩, hafter⟩
    · simp only [List.flatMap_append, List.flatMap_cons, ClassWork.failures_waiting,
        ClassWork.failures_done, List.append_assoc] at harrived ⊢
      refine (harrived.append_right _).trans ?_
      -- the new failure passes those of the methods behind
      simp only [List.append_assoc]
      refine List.Perm.append_left _ (.append_left _ ?_)
      rw [← List.append_assoc]
      exact List.perm_append_comm

/-- The invariant holds at the end of every run. By induction on the steps. -/
theorem Sound.run (h : Sound config ks b) (hrun : Run config b b') : Sound config ks b' := by
  induction hrun with
  | refl => exact h
  | tail _ hstep ih => exact ih.step hstep

/-! ### Runs come to an end -/

/-- The number of methods that are left. -/
def waiting (b : Batch) : Nat := (b.classes.flatMap ClassWork.tasks).countP (!·.isDone)

/-- Every step leaves one method less to take up. -/
theorem Step.waiting_lt (h : Step config b b') : b'.waiting < b.waiting := by
  cases h with
  | recover => simp [waiting, Task.isDone]

/-- As long as a method is left, the first one can be recovered, by any number of workers. -/
theorem exists_step (config : Config) (h : b.isDone = false) : ∃ b', Step config b b' := by
  obtain ⟨classes, arrivals⟩ := b
  obtain ⟨before, ⟨name, tasks⟩, after, rfl, hbefore, hc⟩ := exists_first_of_all_eq_false h
  obtain ⟨front, ⟨m, outcome?⟩, rest, rfl, hfront, ht⟩ := exists_first_of_all_eq_false hc
  obtain rfl : outcome? = none := by simpa [Task.isDone] using ht
  exact ⟨_, .recover fun _ => ⟨hbefore, hfront⟩⟩

/-- Every run can be continued until no method is left. -/
theorem exists_run_isDone (config : Config) (b : Batch) :
    ∃ b', Run config b b' ∧ b'.isDone = true := by
  induction hn : b.waiting using Nat.strongRecOn generalizing b with
  | _ n ih =>
    cases hdone : b.isDone with
    | true => exact ⟨b, .refl, hdone⟩
    | false =>
      obtain ⟨b₁, hstep⟩ := exists_step config hdone
      obtain ⟨b₂, hrun, hdone₂⟩ := ih _ (hn ▸ hstep.waiting_lt) b₁ rfl
      exact ⟨b₂, .head hstep hrun, hdone₂⟩

/-! ### What a run reports -/

/-- When no method is left, all outcomes are those of the classes. -/
theorem Sound.attempts_eq (h : Sound config ks b) (hdone : b.isDone = true) :
    (b.classes.map fun c => (c.name, c.attempts)) =
      ks.map fun k => (k.name, k.attempts config) := by
  have hown : ∀ c ∈ b.classes,
      c.attempts = (c.tasks.map Task.method).map fun m => ⟨m, m.recover config⟩ := by
    intro c hc
    have hall : ∀ t ∈ c.tasks,
        t.attempt? = some ⟨t.method, t.method.recover config⟩ := fun t ht => by
      obtain ⟨o, ho⟩ : ∃ o, t.outcome? = some o :=
        Option.isSome_iff_exists.1 (List.all_eq_true.1 (List.all_eq_true.1 hdone c hc) t ht)
      simp [Task.attempt?, ho, h.own c hc t ht o ho]
    rw [ClassWork.attempts, List.map_map]
    exact List.filterMap_eq_map_iff_forall_eq_some.2 hall
  calc (b.classes.map fun c => (c.name, c.attempts))
      = (b.classes.map fun c => (c.name, c.tasks.map Task.method)).map fun p =>
          (p.1, p.2.map fun m => ⟨m, m.recover config⟩) := by
        rw [List.map_map]
        exact List.map_congr_left fun c hc => by simp [hown c hc]
    _ = ks.map fun k => (k.name, k.attempts config) := by
        rw [h.declared, List.map_map]
        rfl

/-- When no method is left, the reports are those of the classes, with the failures in some
    order. -/
theorem Sound.yields_iff (h : Sound config ks b) (hdone : b.isDone = true) {r : Report} :
    b.Yields r ↔ ∃ fs, fs.Perm (ks.flatMap (·.failures config)) ∧
      r = .collect (ks.map (·.recovered config)) fs := by
  have hattempts := h.attempts_eq hdone
  have hrecovered : b.classes.map ClassWork.recovered = ks.map (·.recovered config) := by
    have hmap := congrArg
      (List.map fun p => (⟨p.1, p.2.filterMap Attempt.recovered?⟩ : RecoveredClass)) hattempts
    rw [List.map_map, List.map_map] at hmap
    exact hmap
  have hfailures : b.classes.flatMap ClassWork.failures = ks.flatMap (·.failures config) := by
    have hflat := congrArg (List.flatMap fun p => p.2.filterMap (Attempt.failure? p.1)) hattempts
    rw [List.flatMap_map, List.flatMap_map] at hflat
    exact hflat
  simp only [Yields, hrecovered, ← hfailures]
  exact exists_congr fun fs => and_congr_left fun _ =>
    ⟨fun hfs => hfs.trans h.arrived, fun hfs => hfs.trans h.arrived.symm⟩

/-- **Every method is accounted for.** Every run can be continued until no method is left. Then the
    report of the classes is one of its reports, all its reports account for every method, and there
    is only this one if no two failing methods share class, name and descriptor. -/
theorem accounts_of_run (config : Config) (ks : List ClassFile) :
    (Report.ofClasses config ks).Accounts config ks ∧
      ∀ b, Run config (start ks) b →
        (∃ b', Run config b b' ∧ b'.isDone = true) ∧
          (b.isDone = true →
            b.Yields (.ofClasses config ks) ∧
              ∀ r, b.Yields r → r.Accounts config ks ∧
                (((ks.flatMap (·.missing config)).map fun p =>
                  (p.1, p.2.name, p.2.descriptor)).Nodup → r = .ofClasses config ks)) := by
  rw [Report.ofClasses_eq]
  refine ⟨Report.accounts_collect (.refl _), fun b hrun => ⟨exists_run_isDone config b,
    fun hdone => ?_⟩⟩
  have hyields := fun r => (Sound.start.run hrun).yields_iff hdone (r := r)
  refine ⟨(hyields _).2 ⟨_, .refl _, rfl⟩, fun r hr => ?_⟩
  obtain ⟨fs, hperm, rfl⟩ := (hyields r).1 hr
  refine ⟨Report.accounts_collect hperm, fun hdistinct => ?_⟩
  exact congrArg (Report.mk _) (MethodFailure.mergeSort_eq_of_perm hperm.symm
    (Report.nodup_keys hdistinct)).symm

/-! ### A run from the last method to the first -/

/-- A method whose descriptor cannot be read. -/
def unreadable (owner : String) : Method := ⟨owner, "f", "(", 9, 0, [], []⟩

/-- A native method. -/
def native : Method := ⟨"A", "g", "()V", 256, 0, [], []⟩

/-- Two classes with a method each that cannot be read, and a method without code. -/
def twoUnreadable : List ClassFile :=
  [⟨"A", none, [unreadable "A", native]⟩, ⟨"B", none, [unreadable "B"]⟩]

/-- The failures arrive in the wrong order, but the report is the same. -/
theorem backwards_accounts : ∃ b, Run {} (start twoUnreadable) b ∧ b.isDone = true ∧
    b.arrivals.map (·.className) = ["B", "A"] ∧
    ∃ r : Report, r = .collect (b.classes.map ClassWork.recovered) b.arrivals ∧
      r.Accounts {} twoUnreadable ∧ r.structuredCount + r.fallbackCount = 1 ∧
      r = .ofClasses {} twoUnreadable := by
  have hfirst : Run {} (start twoUnreadable) _ :=
    .single (@Step.recover {} [_] [] "B" [] [] (unreadable "B") [] nofun)
  have hsecond := hfirst.tail (@Step.recover {} [] [_] "A" [_] [] native _ nofun)
  have hthird := hsecond.tail (@Step.recover {} [] [_] "A" [] [_] (unreadable "A") _ nofun)
  obtain ⟨-, hall⟩ := accounts_of_run {} twoUnreadable
  obtain ⟨-, hreports⟩ := hall _ hthird
  obtain ⟨-, hreport⟩ := hreports rfl
  obtain ⟨haccounts, hsame⟩ := hreport _ ⟨_, .refl _, rfl⟩
  have hone : (twoUnreadable.flatMap (·.methods)).countP (·.recovers {}) = 1 := by decide +kernel
  exact ⟨_, hthird, rfl, by decide +kernel, _, rfl, haccounts, haccounts.total.trans hone,
    hsame (by decide +kernel)⟩

end Batch

end Restructure
