import DiiaApp.Steps
import Mathlib.Data.List.Nodup
import Mathlib.Data.List.Perm.Subperm

/-!
# Stages of concurrent tasks

Tasks run in stages. Those of one stage start at once and settle in any order, and a stage starts
when the one before it is over: when all of its tasks have settled, where the run goes on past
failures, and when all have succeeded, where it stops at them. There the first that fails ends the
run, while others of its stage may still settle. A run that goes on past failures gathers them when
their stage is over, and ends there with one that breaks it.

The log of a run tells that no stage starts before the ones before it are over (`Sound.ordered`). A
run comes to its end after so many steps (`length_le`), and has then started every task once, unless
it stopped.
-/

namespace Stages

open Steps

inductive Entry (ι : Type)
  | started (i : ι)
  | settled (i : ι)
  deriving DecidableEq

inductive Ending (ε : Type)
  | completed
  | stopped (err : ε)

/-- A run: the tasks of its stage, the stages to come, what has started and settled, the failures of
the stages that are over, in the order of their tasks, and how the run has ended. -/
structure State (ι ε : Type) where
  current : List ι
  rest : List (List ι)
  log : List (Entry ι)
  errors : List ε
  ending : Option (Ending ε)

inductive Event (ι : Type)
  | settle (i : ι)
  | next
  | stop

variable {ι ρ ε : Type}

def errorOf : Except ε ρ → Option ε
  | .ok _ => none
  | .error err => some err

def startedTask : Entry ι → Option ι
  | .started i => some i
  | .settled _ => none

def settledTask : Entry ι → Option ι
  | .started _ => none
  | .settled i => some i

theorem mem_settledTask {log : List (Entry ι)} {i : ι} :
    i ∈ log.filterMap settledTask ↔ .settled i ∈ log := by
  rw [List.mem_filterMap]
  constructor
  · rintro ⟨j | _, he, hj⟩
    · cases hj
    · exact Option.some.inj hj ▸ he
  · exact fun h => ⟨_, h, rfl⟩

theorem startedTask_map (stage : List ι) :
    (stage.map Entry.started).filterMap startedTask = stage := by
  rw [List.filterMap_map]
  exact List.filterMap_some

theorem count_started [DecidableEq ι] (log : List (Entry ι)) (i : ι) :
    log.count (.started i) = (log.filterMap startedTask).count i := by
  induction log with
  | nil => rfl
  | cons e log ih =>
    cases e with
    | started j => simp [startedTask, List.count_cons, ih]
    | settled j => simp [List.filterMap_cons, startedTask, ih]

theorem settledTask_map (stage : List ι) :
    (stage.map Entry.started).filterMap settledTask = [] := by
  induction stage with
  | nil => rfl
  | cons i stage ih => rw [List.map_cons, List.filterMap_cons_none rfl, ih]

variable (stops : Bool) (breaks : ε → Bool) (result : ι → Except ε ρ)

/-- Before the first stage. -/
def start (plan : List (List ι)) : State ι ε := ⟨[], plan, [], [], none⟩

/-- The failures of some tasks. -/
def failures (tasks : List ι) : List ε := tasks.filterMap fun i => errorOf (result i)

/-- Of some tasks there is one failure to each that fails. -/
theorem forall₂_failures (tasks : List ι) :
    List.Forall₂ (fun i err => result i = .error err)
      (tasks.filter fun i => (errorOf (result i)).isSome) (failures result tasks) := by
  induction tasks with
  | nil => exact .nil
  | cons i tasks ih =>
    rw [failures, List.filterMap_cons, List.filter_cons]
    cases hr : result i with
    | ok v => exact ih
    | error err => exact .cons hr ih

variable {result} in
theorem exists_of_mem_failures {tasks : List ι} {err : ε} (h : err ∈ failures result tasks) :
    ∃ i ∈ tasks, errorOf (result i) = some err := List.mem_filterMap.1 h

section Step

variable [DecidableEq ι]

/-- The stage is over. -/
def isOver (s : State ι ε) : Bool :=
  s.current.all fun i => Entry.settled i ∈ s.log ∧ (stops → (errorOf (result i)).isNone)

/-- The failure of the stage that came first. -/
def firstFailure (s : State ι ε) : Option ε :=
  ((s.log.filterMap settledTask).filter fun i => i ∈ s.current).findSome? fun i =>
    errorOf (result i)

def step (s : State ι ε) : Event ι → Option (State ι ε)
  | .settle i =>
    if i ∈ s.current ∧ Entry.settled i ∉ s.log then some { s with log := s.log ++ [.settled i] }
    else none
  | .next =>
    if s.ending.isNone ∧ isOver stops result s then
      match (failures result s.current).find? breaks with
      | some err => some { s with ending := some (.stopped err) }
      | none =>
        match s.rest with
        | [] => some
          { s with
            errors := s.errors ++ failures result s.current
            ending := some .completed }
        | stage :: rest => some
          { s with
            current := stage
            rest := rest
            log := s.log ++ stage.map .started
            errors := s.errors ++ failures result s.current }
    else none
  | .stop =>
    if s.ending.isNone ∧ stops then
      (firstFailure result s).map fun err => { s with ending := some (.stopped err) }
    else none

/-- The steps, each with what it needs and leaves. -/
inductive Moves (s : State ι ε) : Event ι → State ι ε → Prop
  | settle {i : ι} (hi : i ∈ s.current) (hs : .settled i ∉ s.log) :
      Moves s (.settle i) { s with log := s.log ++ [.settled i] }
  | break {err : ε} (hn : s.ending = none) (ho : isOver stops result s)
      (hb : (failures result s.current).find? breaks = some err) :
      Moves s .next { s with ending := some (.stopped err) }
  | complete (hn : s.ending = none) (ho : isOver stops result s)
      (hb : (failures result s.current).find? breaks = none) (hr : s.rest = []) :
      Moves s .next
        { s with errors := s.errors ++ failures result s.current, ending := some .completed }
  | next {stage : List ι} {rest : List (List ι)} (hn : s.ending = none)
      (ho : isOver stops result s) (hb : (failures result s.current).find? breaks = none)
      (hr : s.rest = stage :: rest) :
      Moves s .next
        { s with
          current := stage
          rest := rest
          log := s.log ++ stage.map .started
          errors := s.errors ++ failures result s.current }
  | stop {err : ε} (hn : s.ending = none) (hs : stops = true)
      (hf : firstFailure result s = some err) :
      Moves s .stop { s with ending := some (.stopped err) }

variable {stops breaks result}

theorem step_moves {s t : State ι ε} {e : Event ι} (h : step stops breaks result s e = some t) :
    Moves stops breaks result s e t := by
  cases e with
  | settle i =>
    rw [step] at h
    split_ifs at h with hc
    exact Option.some.inj h ▸ .settle hc.1 hc.2
  | next =>
    rw [step] at h
    split_ifs at h with hc
    rw [Option.isNone_iff_eq_none] at hc
    split at h
    · exact Option.some.inj h ▸ .break hc.1 hc.2 ‹_›
    · split at h
      · exact Option.some.inj h ▸ .complete hc.1 hc.2 ‹_› ‹_›
      · exact Option.some.inj h ▸ .next hc.1 hc.2 ‹_› ‹_›
  | stop =>
    rw [step] at h
    split_ifs at h with hc
    rw [Option.isNone_iff_eq_none] at hc
    obtain ⟨err, hf, rfl⟩ := Option.map_eq_some_iff.1 h
    exact .stop hc.1 hc.2 hf

theorem isOver_iff {s : State ι ε} : isOver stops result s = true ↔
    ∀ i ∈ s.current, .settled i ∈ s.log ∧ (stops = true → errorOf (result i) = none) := by
  simp only [isOver, List.all_eq_true, decide_eq_true_iff, Option.isNone_iff_eq_none]

theorem exists_of_firstFailure {s : State ι ε} {err : ε} (h : firstFailure result s = some err) :
    ∃ i ∈ s.current, .settled i ∈ s.log ∧ errorOf (result i) = some err := by
  obtain ⟨i, hi, he⟩ := List.exists_of_findSome?_eq_some h
  rw [List.mem_filter, mem_settledTask, decide_eq_true_iff] at hi
  exact ⟨i, hi.2, hi.1, he⟩

end Step

/-! ## What holds along a run -/

/-- The tasks of some stages have settled, and succeeded where the run stops at failures. None of
them broke it. -/
def AllOver (log : List (Entry ι)) (tasks : List ι) : Prop :=
  ∀ i ∈ tasks, .settled i ∈ log ∧ (stops = true → errorOf (result i) = none) ∧
    ∀ err, errorOf (result i) = some err → breaks err = false

/-- A run of `plan`, the stages of `done` being over. -/
structure Sound (plan : List (List ι)) (done : List (List ι)) (s : State ι ε) : Prop where
  split : [] :: plan = done ++ s.current :: s.rest
  ended : AllOver stops breaks result s.log done.flatten
  started : s.log.filterMap startedTask = (done ++ [s.current]).flatten
  nodup : (s.log.filterMap settledTask).Nodup
  settled : ∀ i, .settled i ∈ s.log → i ∈ (done ++ [s.current]).flatten
  /-- No task starts before the stages before its own are over. -/
  ordered : ∀ before i after, s.log = before ++ .started i :: after → ∃ pre stage post,
    plan = pre ++ stage :: post ∧ i ∈ stage ∧ AllOver stops breaks result before pre.flatten
  errors : s.ending ≠ some .completed → s.errors = failures result done.flatten
  completed : s.ending = some .completed → s.rest = [] ∧
    AllOver stops breaks result s.log s.current ∧
      s.errors = failures result (done ++ [s.current]).flatten
  stopped : ∀ err, s.ending = some (.stopped err) → (stops = true ∨ breaks err = true) ∧
    ∃ i ∈ s.current, .settled i ∈ s.log ∧ errorOf (result i) = some err

variable {stops breaks result}

theorem AllOver.mono {log log' : List (Entry ι)} {tasks : List ι}
    (h : AllOver stops breaks result log tasks) (hsub : log ⊆ log') :
    AllOver stops breaks result log' tasks :=
  fun i hi => ⟨hsub (h i hi).1, (h i hi).2⟩

theorem sound_start (plan : List (List ι)) :
    Sound stops breaks result plan [] (start plan : State ι ε) where
  split := rfl
  ended := by simp [AllOver]
  started := rfl
  nodup := List.nodup_nil
  settled := by simp [start]
  ordered := by simp [start]
  errors := fun _ => rfl
  completed := nofun
  stopped := nofun

/-- What comes last of a list with one more entry is that entry, or the rest is longer. -/
theorem append_eq_append_cons {α : Type} {l k before after : List α} {x : α}
    (h : l ++ k = before ++ x :: after) : (∃ t, l = before ++ x :: t ∧ after = t ++ k) ∨
      ∃ t, before = l ++ t ∧ k = t ++ x :: after := by
  rcases List.append_eq_append_iff.1 h with ⟨t, rfl, hk⟩ | ⟨t, rfl, hk⟩
  · exact .inr ⟨t, rfl, hk⟩
  · rcases List.cons_eq_append_iff.1 hk with ⟨rfl, rfl⟩ | ⟨t', rfl, rfl⟩
    · exact .inr ⟨[], by simp, rfl⟩
    · exact .inl ⟨t', rfl, rfl⟩

theorem Sound.settle {plan done : List (List ι)} {s : State ι ε} {i : ι}
    (h : Sound stops breaks result plan done s) (hi : i ∈ s.current) (hs : .settled i ∉ s.log) :
    Sound stops breaks result plan done { s with log := s.log ++ [.settled i] } where
  split := h.split
  ended := h.ended.mono (List.subset_append_left ..)
  started := by rw [List.filterMap_append, h.started]; simp [startedTask]
  nodup := by
    rw [List.filterMap_append, List.nodup_append]
    refine ⟨h.nodup, by simp [settledTask], ?_⟩
    intro a ha b hb hab
    rw [mem_settledTask] at ha hb
    have hb : b = i := by simpa using hb
    exact hs (hb ▸ hab ▸ ha)
  settled := fun j hj => by
    rcases List.mem_append.1 hj with hj | hj
    · exact h.settled j hj
    · obtain rfl : j = i := by simpa using hj
      simp [hi]
  ordered := fun before j after he => by
    rcases append_eq_append_cons he with ⟨t, hl, -⟩ | ⟨t, -, hk⟩
    · exact h.ordered before j t hl
    · simp [List.cons_eq_append_iff] at hk
  errors := h.errors
  completed := fun hc => by
    obtain ⟨hr, ho, he⟩ := h.completed hc
    exact ⟨hr, ho.mono (List.subset_append_left ..), he⟩
  stopped := fun err he => by
    obtain ⟨hst, j, hj, hl, hf⟩ := h.stopped err he
    exact ⟨hst, j, hj, List.mem_append_left _ hl, hf⟩

/-- With the stage that runs all stages so far are over. -/
theorem Sound.all_over {plan done : List (List ι)} {s : State ι ε}
    (h : Sound stops breaks result plan done s) (ho : AllOver stops breaks result s.log s.current) :
    AllOver stops breaks result s.log (done ++ [s.current]).flatten := by
  intro i hi
  rw [List.flatten_append, List.mem_append] at hi
  exact hi.elim (h.ended i) fun hi => ho i (by simpa using hi)

theorem Sound.next {plan done rest : List (List ι)} {stage : List ι} {s : State ι ε}
    (h : Sound stops breaks result plan done s) (hn : s.ending = none)
    (ho : AllOver stops breaks result s.log s.current) (hr : s.rest = stage :: rest) :
    Sound stops breaks result plan (done ++ [s.current])
      { s with
        current := stage
        rest := rest
        log := s.log ++ stage.map .started
        errors := s.errors ++ failures result s.current } where
  split := by rw [h.split, hr]; simp
  ended := (h.all_over ho).mono (List.subset_append_left ..)
  started := by
    rw [List.filterMap_append, h.started, startedTask_map]
    simp
  nodup := by
    rw [List.filterMap_append, settledTask_map, List.append_nil]
    exact h.nodup
  settled := fun i hi => by
    have hi : Entry.settled i ∈ s.log := by simpa using hi
    rw [List.flatten_append, List.mem_append]
    exact .inl (h.settled i hi)
  ordered := fun before i after he => by
    rcases append_eq_append_cons he with ⟨t, hl, -⟩ | ⟨t, hb, hk⟩
    · exact h.ordered before i t hl
    · have hi : i ∈ stage := by
        have hm : Entry.started i ∈ stage.map .started := by simp [hk]
        simpa using hm
      obtain ⟨first, pre, hpre⟩ := List.exists_cons_of_ne_nil
        (List.append_ne_nil_of_right_ne_nil done (List.cons_ne_nil s.current []))
      have hplan := h.split
      rw [hr, List.append_cons, hpre] at hplan
      have hover := (h.all_over ho).mono (hb ▸ List.subset_append_left s.log t)
      rw [hpre] at hover
      exact ⟨pre, stage, rest, (List.cons.inj hplan).2, hi, fun j hj => hover j (by simp [hj])⟩
  errors := fun _ => by
    rw [h.errors (by simp [hn])]
    simp [failures]
  completed := fun hc => by simp [hn] at hc
  stopped := fun err he => by simp [hn] at he

theorem Sound.complete {plan done : List (List ι)} {s : State ι ε}
    (h : Sound stops breaks result plan done s) (hn : s.ending = none)
    (ho : AllOver stops breaks result s.log s.current) (hr : s.rest = []) :
    Sound stops breaks result plan done
      { s with errors := s.errors ++ failures result s.current, ending := some .completed } where
  split := h.split
  ended := h.ended
  started := h.started
  nodup := h.nodup
  settled := h.settled
  ordered := h.ordered
  errors := fun hc => absurd rfl hc
  completed := fun _ => by
    refine ⟨hr, ho, ?_⟩
    rw [h.errors (by simp [hn])]
    simp [failures]
  stopped := nofun

theorem Sound.stop {plan done : List (List ι)} {s : State ι ε} {err : ε}
    (h : Sound stops breaks result plan done s) (hn : s.ending = none)
    (hs : stops = true ∨ breaks err = true)
    (hf : ∃ i ∈ s.current, .settled i ∈ s.log ∧ errorOf (result i) = some err) :
    Sound stops breaks result plan done { s with ending := some (.stopped err) } where
  split := h.split
  ended := h.ended
  started := h.started
  nodup := h.nodup
  settled := h.settled
  ordered := h.ordered
  errors := fun _ => h.errors (by simp [hn])
  completed := nofun
  stopped := fun err' he => by
    obtain rfl : err = err' := by simpa using he
    exact ⟨hs, hf⟩

/-- The stages so far are the first ones of the plan. -/
theorem Sound.flatten_plan {plan done : List (List ι)} {s : State ι ε}
    (h : Sound stops breaks result plan done s) :
    plan.flatten = (done ++ [s.current]).flatten ++ s.rest.flatten := by
  have := congrArg List.flatten h.split
  simpa using this

variable [DecidableEq ι]

theorem allOver_current {s : State ι ε} (ho : isOver stops result s = true)
    (hb : (failures result s.current).find? breaks = none) :
    AllOver stops breaks result s.log s.current := by
  intro i hi
  obtain ⟨hs, hst⟩ := isOver_iff.1 ho i hi
  refine ⟨hs, hst, fun err he => ?_⟩
  simpa using List.find?_eq_none.1 hb err (List.mem_filterMap.2 ⟨i, hi, he⟩)

theorem Sound.step {plan done : List (List ι)} {s t : State ι ε} {e : Event ι}
    (h : Sound stops breaks result plan done s) (hm : Moves stops breaks result s e t) :
    ∃ done', Sound stops breaks result plan done' t := by
  cases hm with
  | settle hi hs => exact ⟨_, h.settle hi hs⟩
  | «break» hn ho hb =>
    obtain ⟨i, hi, he⟩ := exists_of_mem_failures (List.mem_of_find?_eq_some hb)
    exact ⟨done, h.stop hn (.inr (List.find?_some hb)) ⟨i, hi, (isOver_iff.1 ho i hi).1, he⟩⟩
  | complete hn ho hb hr => exact ⟨done, h.complete hn (allOver_current ho hb) hr⟩
  | next hn ho hb hr => exact ⟨_, h.next hn (allOver_current ho hb) hr⟩
  | stop hn hs hf => exact ⟨done, h.stop hn (.inl hs) (exists_of_firstFailure hf)⟩

theorem exists_sound {plan : List (List ι)} {es : List (Event ι)} {s : State ι ε}
    (h : Runs (step stops breaks result) (start plan) es s) :
    ∃ done, Sound stops breaks result plan done s :=
  h.inv (fun s => ∃ done, Sound stops breaks result plan done s) ⟨[], sound_start plan⟩
    fun _ _ _ ⟨_, hd⟩ ht => hd.step (step_moves ht)

section Run

variable {plan : List (List ι)} {es : List (Event ι)} {s : State ι ε}

/-- Only tasks of the plan settle. -/
theorem mem_of_settled (h : Runs (step stops breaks result) (start plan) es s) {i : ι}
    (hi : .settled i ∈ s.log) : i ∈ plan.flatten := by
  obtain ⟨done, hd⟩ := exists_sound h
  rw [hd.flatten_plan]
  exact List.mem_append_left _ (hd.settled i hi)

/-- What has started are the first tasks of the plan. -/
theorem started_first (h : Runs (step stops breaks result) (start plan) es s) :
    s.log.filterMap startedTask <+: plan.flatten := by
  obtain ⟨done, hd⟩ := exists_sound h
  rw [hd.flatten_plan, hd.started]
  exact List.prefix_append ..

/-- No task starts twice. -/
theorem count_started_le (h : Runs (step stops breaks result) (start plan) es s)
    (hp : plan.flatten.Nodup) (i : ι) : s.log.count (.started i) ≤ 1 := by
  rw [count_started]
  exact List.nodup_iff_count_le_one.1 (hp.sublist (started_first h).sublist) i

/-- No task starts before the stages before its own are over. -/
theorem ordered (h : Runs (step stops breaks result) (start plan) es s)
    {before after : List (Entry ι)} {i : ι} (he : s.log = before ++ .started i :: after) :
    ∃ pre stage post, plan = pre ++ stage :: post ∧ i ∈ stage ∧
      AllOver stops breaks result before pre.flatten := by
  obtain ⟨done, hd⟩ := exists_sound h
  exact hd.ordered before i after he

/-! ## How a run ends -/

variable (stops breaks result) in
/-- Nothing can happen any more. -/
def Halted (s : State ι ε) : Prop := ∀ e, step stops breaks result s e = none

theorem halted_of_ended (hs : ∀ i ∈ s.current, .settled i ∈ s.log) (he : s.ending.isNone = false) :
    Halted stops breaks result s := by
  rintro (i | _ | _)
  · rw [step, if_neg fun h => h.2 (hs i h.1)]
  · rw [step, if_neg (by simp [he])]
  · rw [step, if_neg (by simp [he])]

theorem Halted.settled (h : Halted stops breaks result s) {i : ι} (hi : i ∈ s.current) :
    .settled i ∈ s.log := by
  by_contra hs
  have := h (.settle i)
  rw [step, if_pos ⟨hi, hs⟩] at this
  cases this

theorem Halted.ended (h : Halted stops breaks result s) : s.ending ≠ none := by
  intro hn
  by_cases ho : isOver stops result s = true
  · have hnext := h .next
    rw [step, if_pos ⟨by simp [hn], ho⟩] at hnext
    split at hnext
    · cases hnext
    · split at hnext <;> cases hnext
  · have hfail : ∃ i ∈ s.current, stops = true ∧ errorOf (result i) ≠ none := by
      by_contra hno
      refine ho (isOver_iff.2 fun i hi => ⟨h.settled hi, fun hst => ?_⟩)
      by_contra hf
      exact hno ⟨i, hi, hst, hf⟩
    obtain ⟨i, hi, hst, hf⟩ := hfail
    have hstop := h .stop
    rw [step, if_pos ⟨by simp [hn], hst⟩, Option.map_eq_none_iff, firstFailure,
      List.findSome?_eq_none_iff] at hstop
    refine hf (hstop i (List.mem_filter.2 ⟨mem_settledTask.2 (h.settled hi), ?_⟩))
    simpa using hi

/-- A run that is neither stopped nor broken by failures completes. -/
theorem completed_of_halted (h : Runs (step stops breaks result) (start plan) es s)
    (hh : Halted stops breaks result s) (hs : ∀ i ∈ plan.flatten, ∀ err,
      errorOf (result i) = some err → stops = false ∧ breaks err = false) :
    s.ending = some .completed := by
  obtain ⟨done, hd⟩ := exists_sound h
  rcases he : s.ending with _ | _ | err
  · exact absurd he hh.ended
  · rfl
  · obtain ⟨hst, i, hi, -, hf⟩ := hd.stopped err he
    have hplan : i ∈ plan.flatten := by
      rw [hd.flatten_plan]
      simp [hi]
    obtain ⟨h1, h2⟩ := hs i hplan err hf
    simp [h1, h2] at hst

/-- A completed run has started and seen settle every task, in the order of the plan, and has
gathered their failures. -/
theorem completed_spec (h : Runs (step stops breaks result) (start plan) es s)
    (hc : s.ending = some .completed) : s.log.filterMap startedTask = plan.flatten ∧
      AllOver stops breaks result s.log plan.flatten ∧ s.errors = failures result plan.flatten := by
  obtain ⟨done, hd⟩ := exists_sound h
  obtain ⟨hr, ho, he⟩ := hd.completed hc
  have hplan : plan.flatten = (done ++ [s.current]).flatten := by
    rw [hd.flatten_plan, hr, List.flatten_nil, List.append_nil]
  rw [hplan]
  exact ⟨hd.started, hd.all_over ho, he⟩

/-- A completed run has started every task once. -/
theorem count_started_of_completed (h : Runs (step stops breaks result) (start plan) es s)
    (hc : s.ending = some .completed) (hp : plan.flatten.Nodup) {i : ι} (hi : i ∈ plan.flatten) :
    s.log.count (.started i) = 1 := by
  rw [count_started, (completed_spec h hc).1]
  exact List.count_eq_one_of_mem hp hi

/-- A run that failures end has met one in its stage, and no later stage has started. -/
theorem stopped_spec (h : Runs (step stops breaks result) (start plan) es s) {err : ε}
    (he : s.ending = some (.stopped err)) : ∃ pre stage post, plan = pre ++ stage :: post ∧
      (stops = true ∨ breaks err = true) ∧ (∃ i ∈ stage, errorOf (result i) = some err) ∧
      s.log.filterMap startedTask = (pre ++ [stage]).flatten := by
  obtain ⟨done, hd⟩ := exists_sound h
  obtain ⟨hst, i, hi, -, hf⟩ := hd.stopped err he
  have hsplit := hd.split
  have hstarted := hd.started
  rcases done with _ | ⟨first, pre⟩
  · rw [List.nil_append, List.cons.injEq] at hsplit
    rw [← hsplit.1] at hi
    cases hi
  · rw [List.cons_append, List.cons.injEq] at hsplit
    obtain ⟨rfl, hplan⟩ := hsplit
    exact ⟨pre, s.current, s.rest, hplan, hst, ⟨i, hi, hf⟩, by simpa using hstarted⟩

/-- One step for each task that settles, for each stage that starts and for the end. -/
theorem length_eq (h : Runs (step stops breaks result) (start plan) es s) :
    es.length + s.rest.length + (if s.ending = none then 1 else 0) =
      (s.log.filterMap settledTask).length + plan.length + 1 := by
  refine h.hist (fun es s => es.length + s.rest.length + (if s.ending = none then 1 else 0) =
    (s.log.filterMap settledTask).length + plan.length + 1) ?_ fun es s e t _ ih ht => ?_
  · simp [start]
  · rw [List.length_append, List.length_singleton]
    cases step_moves ht with
    | settle hi hs =>
      have hone : [Entry.settled ‹ι›].filterMap settledTask = [‹ι›] := rfl
      rw [List.filterMap_append, List.length_append, hone, List.length_singleton]
      dsimp only
      omega
    | «break» hn ho hb =>
      rw [if_pos hn] at ih
      simp only [reduceCtorEq, if_false]
      omega
    | complete hn ho hb hr =>
      rw [if_pos hn] at ih
      simp only [reduceCtorEq, if_false]
      omega
    | next hn ho hb hr =>
      rw [if_pos hn, hr, List.length_cons] at ih
      rw [List.filterMap_append, settledTask_map, List.append_nil, if_pos hn]
      dsimp only
      omega
    | stop hn hs hf =>
      rw [if_pos hn] at ih
      simp only [reduceCtorEq, if_false]
      omega

/-- Every run ends. -/
theorem length_le (h : Runs (step stops breaks result) (start plan) es s) :
    es.length ≤ plan.flatten.length + plan.length + 1 := by
  obtain ⟨done, hd⟩ := exists_sound h
  have hsub : (s.log.filterMap settledTask).length ≤ plan.flatten.length := by
    exact (hd.nodup.subperm fun i hi => mem_of_settled h (mem_settledTask.1 hi)).length_le
  have := length_eq h
  omega

end Run

end Stages
