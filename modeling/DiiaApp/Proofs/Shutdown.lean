import DiiaApp.Proofs.StopHooks
import DiiaApp.Shutdown

/-!
# What a process has done when it exits

A call of `stop` comes to the flush of the tracer when all hooks have settled, and to its end in so
many steps (`length_le`). A process that has heard a signal exits, and not before a call of `stop`
for a signal is over.
-/

namespace DiiaApp

open Js Stages Steps

variable {N : Type}

/-- How many steps of a call come from its flush. -/
def Flush.steps : Flush → ℕ
  | notCalled => 0
  | pending => 1
  | settled => 2

namespace Stopping

variable {app : Application} {s s₀ t : Stopping N} {es : List (StopEvent N)}

theorem step_cases {e : StopEvent N} (h : s.step e = some t) :
    (∃ f st u, s.hooks = .ok st ∧ stopStep s.results st f = some u ∧
      t = { s with hooks := .ok u }) ∨
    (s.flush = .notCalled ∧ s.outcome.isSome ∧ t = { s with flush := .pending }) ∨
    ∃ err, s.flush = .pending ∧
      t = { s with flush := .settled, logs := s.logs ++ s.lastLogs err } := by
  cases e with
  | hook f =>
    rw [step] at h
    cases hs : s.hooks with
    | error err =>
      rw [hs] at h
      cases h
    | ok st =>
      rw [hs] at h
      obtain ⟨u, hu, rfl⟩ := Option.map_eq_some_iff.1 h
      exact .inl ⟨f, st, u, rfl, hu, rfl⟩
  | forceFlush =>
    rw [step] at h
    split_ifs at h with hc
    exact .inr (.inl ⟨hc.1, hc.2, (Option.some.inj h).symm⟩)
  | flushed err =>
    rw [step] at h
    split_ifs at h with hc
    exact .inr (.inr ⟨err, hc, (Option.some.inj h).symm⟩)

/-- A hook that settles when all is over changes nothing of how the hooks have ended. -/
theorem stopOutcome_step {results : HookCall → HookResult N} {st u : State HookCall (Reason N)}
    {f : Event HookCall} (h : stopStep results st f = some u) (ho : (stopOutcome st).isSome) :
    stopOutcome u = stopOutcome st := by
  have hn : st.ending ≠ none := by
    intro hn
    rw [stopOutcome, hn] at ho
    cases ho
  cases step_moves h with
  | settle hi hs => rfl
  | «break» hnone _ _ => exact absurd hnone hn
  | complete hnone _ _ _ => exact absurd hnone hn
  | next hnone _ _ _ => exact absurd hnone hn
  | stop hnone _ _ => exact absurd hnone hn

theorem isSome_outcome_ok {st : State HookCall (Reason N)} (h : s.hooks = .ok st) :
    s.outcome.isSome = (stopOutcome st).isSome := by
  rw [outcome, h]
  exact Option.isSome_map

theorem outcome_hook {st u : State HookCall (Reason N)} {f : Event HookCall}
    (hs : s.hooks = .ok st) (h : stopStep s.results st f = some u) (ho : s.outcome.isSome) :
    outcome { s with hooks := .ok u } = s.outcome := by
  rw [isSome_outcome_ok hs] at ho
  simp only [outcome, hs, stopOutcome_step h ho]

/-- The hooks of a call have come so far by the steps `fs`. -/
def HooksRun (app : Application) (s : Stopping N) (fs : List (Event HookCall)) : Prop :=
  match s.hooks with
  | .error _ => app.container = none ∧ fs = []
  | .ok st => ∃ r, app.container = some r ∧
    Runs (stopStep s.results) (Stages.start (r.stopStages app.asyncCommunicationClasses)) fs st

/-- The log of a call for a signal tells why it failed. -/
def Tells (s : Stopping N) : Prop :=
  ∀ signal err, s.caller = .onShutDown signal → s.outcome = some (.error err) →
    .error (js "Failed to stop service. Shutdown completed") err ∈ s.logs

/-- What a call has come to by the steps `es`. -/
structure Follows (app : Application) (es : List (StopEvent N)) (s : Stopping N) : Prop where
  ran : ∃ fs, HooksRun app s fs ∧ es.length = fs.length + s.flush.steps
  ended : s.flush ≠ .notCalled → s.outcome.isSome
  told : s.flush = .settled → s.Tells

theorem follows_start (caller : Caller) (results : HookCall → HookResult N) :
    Follows app [] (.start app caller results) where
  ran := by
    refine ⟨[], ?_, rfl⟩
    unfold HooksRun Stopping.start runOnStopHooks
    cases app.container with
    | none => exact ⟨rfl, rfl⟩
    | some r => exact ⟨r, rfl, runs_nil.2 rfl⟩
  ended := fun h => absurd rfl h
  told := nofun

theorem tells_lastLogs (err : Option (Thrown N)) :
    Tells { s with flush := .settled, logs := s.logs ++ s.lastLogs err } := by
  intro signal err' hc ho
  have hc : s.caller = .onShutDown signal := hc
  have ho : s.outcome = some (.error err') := ho
  simp [lastLogs, hc, ho]

theorem Follows.step {e : StopEvent N} (h : Follows app es s) (ht : s.step e = some t) :
    Follows app (es ++ [e]) t := by
  obtain ⟨fs, hr, hlen⟩ := h.ran
  rcases step_cases ht with ⟨f, st, u, hs, hu, rfl⟩ | ⟨hf, ho, rfl⟩ | ⟨err, hf, rfl⟩
  · refine ⟨⟨fs ++ [f], ?_, by simp [hlen]; omega⟩, fun hf => ?_, fun hf signal err hc ho => ?_⟩
    · rw [HooksRun, hs] at hr
      obtain ⟨r, hcon, hr⟩ := hr
      exact ⟨r, hcon, runs_snoc.2 ⟨st, hr, hu⟩⟩
    · rw [outcome_hook hs hu (h.ended hf)]
      exact h.ended hf
    · have hsome := h.ended (by rw [show s.flush = .settled from hf]; nofun)
      rw [outcome_hook hs hu hsome] at ho
      exact h.told hf signal err hc ho
  · refine ⟨⟨fs, hr, ?_⟩, fun _ => ho, nofun⟩
    rw [List.length_append, hlen, hf]
    rfl
  · refine ⟨⟨fs, hr, ?_⟩, fun _ => h.ended (by rw [hf]; nofun), fun _ => tells_lastLogs err⟩
    rw [List.length_append, hlen, hf]
    rfl

theorem follows {caller : Caller} {results : HookCall → HookResult N}
    (h : Runs Stopping.step (.start app caller results) es s) : Follows app es s :=
  h.hist (Follows app) (follows_start caller results) fun _ _ _ _ _ ih ht => ih.step ht

theorem Flush.steps_le (f : Flush) : f.steps ≤ 2 := by cases f <;> decide

/-- The most steps a call takes. -/
def bound (app : Application) : ℕ :=
  match app.container with
  | none => 2
  | some r =>
    let plan := r.stopStages app.asyncCommunicationClasses
    plan.flatten.length + plan.length + 1 + 2

theorem Follows.length_le (h : Follows app es s) : es.length ≤ bound app := by
  obtain ⟨fs, hr, hlen⟩ := h.ran
  have hflush := Flush.steps_le s.flush
  rw [HooksRun] at hr
  cases hs : s.hooks with
  | error err =>
    rw [hs] at hr
    obtain ⟨hcon, rfl⟩ := hr
    simp only [bound, hcon, hlen, List.length_nil]
    omega
  | ok st =>
    rw [hs] at hr
    obtain ⟨r, hcon, hr⟩ := hr
    have hhooks := Stages.length_le hr
    simp only [bound, hcon, hlen]
    omega

theorem Follows.exists_runs (h : Follows app es s) {r : Registrations}
    (hcon : app.container = some r) : ∃ fs st, s.hooks = .ok st ∧
      Runs (stopStep s.results) (Stages.start (r.stopStages app.asyncCommunicationClasses))
        fs st := by
  obtain ⟨fs, hr, -⟩ := h.ran
  rw [HooksRun] at hr
  cases hs : s.hooks with
  | error err =>
    rw [hs, hcon] at hr
    cases hr.1
  | ok st =>
    rw [hs] at hr
    obtain ⟨r', hcon', hr⟩ := hr
    obtain rfl := Option.some.inj (hcon.symm.trans hcon')
    exact ⟨fs, st, rfl, hr⟩

/-- Hooks that have ended have all been called and have settled, or one failed with no text. -/
theorem completed_or_thrown {r : Registrations} {async : List JsString} {fs : List (Event HookCall)}
    {st : State HookCall (Reason N)} (hs : s.hooks = .ok st)
    (hr : Runs (stopStep s.results) (Stages.start (r.stopStages async)) fs st)
    (ho : s.outcome.isSome) : st.ending = some .completed ∨
      ∃ c reason err, r.IsStopHook c ∧ (s.results c).settled = .error reason ∧
        ¬ reason.HasText ∧ s.outcome = some (.error (.hooks (.thrown err))) := by
  rw [isSome_outcome_ok hs, stopOutcome, Option.isSome_map] at ho
  obtain ⟨_ | reason, he⟩ := Option.isSome_iff_exists.1 ho
  · exact .inl he
  · obtain ⟨pre, stage, post, hplan, hbreaks, ⟨c, hc, herr⟩, -⟩ := stopped_spec hr he
    have hno : ¬ reason.HasText := by
      rw [← not_isOk_newError]
      simpa using hbreaks
    obtain ⟨err, hthrown⟩ := stopResult_of_not_hasText hno
    refine .inr ⟨c, reason, err, ?_, errorOf_settled.1 herr, hno, ?_⟩
    · have hstage : stage ∈ r.stopStages async := by simp [hplan]
      exact Registrations.mem_stopStages.1 (List.mem_flatten_of_mem hstage hc)
    · simp only [outcome, hs, stopOutcome, he, Option.map_some, hthrown]
      rfl

/-- A call that can take no more steps is over. -/
theorem Follows.settled_of_halted (h : Follows app es s) (hh : ∀ e, s.step e = none) :
    s.flush = .settled := by
  have ho : s.outcome.isSome := by
    obtain ⟨fs, hr, -⟩ := h.ran
    rw [HooksRun] at hr
    cases hs : s.hooks with
    | error err => rw [outcome, hs]; rfl
    | ok st =>
      rw [hs] at hr
      obtain ⟨r, -, hr⟩ := hr
      have hhalted : ∀ f, stopStep s.results st f = none := fun f => by
        have hf := hh (.hook f)
        rw [Stopping.step, hs] at hf
        exact Option.map_eq_none_iff.1 hf
      rw [isSome_outcome_ok hs, stopOutcome, Option.isSome_map]
      exact Option.isSome_iff_ne_none.2 (Halted.ended hhalted)
  cases hf : s.flush with
  | notCalled =>
    have hcall := hh .forceFlush
    rw [Stopping.step, if_pos ⟨hf, ho⟩] at hcall
    cases hcall
  | pending =>
    have hdone := hh (.flushed none)
    rw [Stopping.step, if_pos hf] at hdone
    cases hdone
  | settled => rfl

end Stopping

section Process

variable {app : Application} {es : List (ProcessEvent N)} {e : ProcessEvent N} {p q : Process N}

/-- The events among the calls of `stop`. -/
def callEvents (app : Application) (es : List (ProcessEvent N)) :
    List (Interleave.Event (Stopping N) (StopEvent N)) :=
  es.filterMap (ProcessEvent.interleaved app)

theorem interleaved_eq_none (h : e.interleaved app = none) : ∃ i, e = .exit i := by
  cases e with
  | exit i => exact ⟨i, rfl⟩
  | stop _ => cases h
  | signal _ _ => cases h
  | move _ _ => cases h

theorem Process.step_cases (h : p.step app e = some q) : p.exitCode = none ∧
    ((∃ i s, e = .exit i ∧ p.stops[i]? = some s ∧ s.exits = true ∧
      q = { p with exitCode := some 0 }) ∨
    ∃ f stops, e.interleaved app = some f ∧ Interleave.step Stopping.step p.stops f = some stops ∧
      q = { p with stops := stops }) := by
  rw [Process.step] at h
  split_ifs at h with hc
  refine ⟨Option.isNone_iff_eq_none.1 hc.1, ?_⟩
  split at h
  · obtain ⟨i, rfl⟩ := interleaved_eq_none ‹_›
    obtain ⟨s, hs, he⟩ := (Option.any_eq_true ..).1 hc.2
    exact .inl ⟨i, s, rfl, hs, he, (Option.some.inj h).symm⟩
  · obtain ⟨stops, hs, rfl⟩ := Option.map_eq_some_iff.1 h
    exact .inr ⟨_, stops, ‹_›, hs, rfl⟩

/-- What the process has come to by the events `es`. -/
structure Process.Follows (app : Application) (es : List (ProcessEvent N)) (p : Process N) :
    Prop where
  runs : Runs (Interleave.step Stopping.step) [] (callEvents app es) p.stops
  length : es.length = (callEvents app es).length + if p.exitCode = none then 0 else 1
  exited : ∀ n, p.exitCode = some n → n = 0 ∧ ∃ s ∈ p.stops, s.exits = true

theorem Process.Follows.step (h : p.Follows app es) (hq : p.step app e = some q) :
    q.Follows app (es ++ [e]) := by
  have hsnoc : callEvents app (es ++ [e]) = callEvents app es ++ (e.interleaved app).toList := by
    simp only [callEvents, List.filterMap_append]
    cases e <;> rfl
  have hlen := h.length
  obtain ⟨hnone, ⟨i, s, rfl, hs, he, rfl⟩ | ⟨f, stops, hf, hstops, rfl⟩⟩ := Process.step_cases hq
  · rw [if_pos hnone] at hlen
    refine ⟨?_, ?_, fun n hn => ⟨(Option.some.inj hn).symm, s, List.mem_of_getElem? hs, he⟩⟩
    · rw [hsnoc]
      exact (List.append_nil _).symm ▸ h.runs
    · rw [hsnoc, List.length_append, List.length_append, hlen]
      rfl
  · rw [if_pos hnone] at hlen
    rw [hf] at hsnoc
    refine ⟨?_, ?_, fun n hn => ?_⟩
    · rw [hsnoc]
      exact runs_snoc.2 ⟨p.stops, h.runs, hstops⟩
    · rw [hsnoc, if_pos hnone, List.length_append, List.length_append, hlen]
      rfl
    · rw [show p.exitCode = some n from hn] at hnone
      cases hnone

theorem Process.follows (h : Runs (Process.step app) Process.start es p) : p.Follows app es :=
  h.hist (fun es p => p.Follows app es) ⟨runs_nil.2 rfl, rfl, nofun⟩
    fun _ _ _ _ _ ih ht => ih.step ht

theorem exists_start {s : Stopping N} (h : s ∈ Interleave.spawned (callEvents app es)) :
    ∃ caller results, s = .start app caller results := by
  obtain ⟨f, hf, hs⟩ := List.mem_filterMap.1 h
  obtain ⟨e, -, he⟩ := List.mem_filterMap.1 hf
  cases e with
  | stop results =>
    obtain rfl := Option.some.inj he
    exact ⟨_, _, (Option.some.inj hs).symm⟩
  | signal name results =>
    obtain rfl := Option.some.inj he
    exact ⟨_, _, (Option.some.inj hs).symm⟩
  | move i e =>
    obtain rfl := Option.some.inj he
    cases hs
  | exit i => cases he

/-- Each call of `stop` is on its own way. -/
theorem Process.Follows.stops (h : p.Follows app es) {s : Stopping N} (hs : s ∈ p.stops) :
    ∃ fs, s.Follows app fs := by
  obtain ⟨s₀, hs₀, fs, hr⟩ := Interleave.runs_movesOf h.runs hs
  obtain ⟨caller, results, rfl⟩ := exists_start hs₀
  exact ⟨fs, Stopping.follows hr⟩

theorem Process.Follows.length_le (h : p.Follows app es) :
    es.length ≤ p.stops.length * (Stopping.bound app + 1) + 1 := by
  have hcalls : _ ≤ p.stops.length * (Stopping.bound app + 1) :=
    Interleave.length_le h.runs fun s hs fs t hr => by
      obtain ⟨caller, results, rfl⟩ := exists_start hs
      exact (Stopping.follows hr).length_le
  rw [h.length]
  split_ifs <;> omega

theorem Stopping.exits_iff {s : Stopping N} :
    s.exits = true ↔ ∃ signal, s.caller = .onShutDown signal ∧ s.flush = .settled := by
  rw [exits]
  cases s.caller with
  | operator => simp
  | onShutDown signal => simp

/-- Where no event but a new call can happen and a signal was heard, the process has exited. -/
theorem Process.Follows.exited_of_halted (h : p.Follows app es)
    (hh : ∀ e : ProcessEvent N, e.isCall = false → p.step app e = none) {s : Stopping N}
    (hs : s ∈ p.stops) {signal : Signal} (hc : s.caller = .onShutDown signal) :
    p.exitCode = some 0 := by
  cases hn : p.exitCode with
  | some n => rw [(h.exited n hn).1]
  | none =>
    obtain ⟨i, hi⟩ := List.getElem?_of_mem hs
    obtain ⟨fs, hf⟩ := h.stops hs
    have hsettled := hf.settled_of_halted fun e => by
      have hmove := hh (.move i e) rfl
      rw [Process.step, if_pos ⟨by rw [hn]; rfl, rfl⟩] at hmove
      simp only [ProcessEvent.interleaved, Interleave.step, hi, Option.bind_some,
        Option.map_eq_none_iff] at hmove
      exact hmove
    have hexit := hh (.exit i) rfl
    have hallows : p.allows app (.exit i : ProcessEvent N) = true := by
      rw [Process.allows, hi]
      exact Stopping.exits_iff.2 ⟨signal, hc, hsettled⟩
    rw [Process.step, if_pos ⟨by rw [hn]; rfl, hallows⟩] at hexit
    cases hexit

/-- In every call of `stop` each hook is called at most once, and the tracer is flushed only when
all of them have been called and have settled, or one has failed with no text. The process exits
with `0`, after a call for a signal is over and has logged what it failed with. Without new calls
every run comes to an end, where a process that has heard a signal has exited. -/
theorem shutdown_runs (h : Runs (Process.step app) Process.start es p) :
    (∀ r, app.container = some r → ∀ s ∈ p.stops, ∃ st, s.hooks = .ok st ∧
      (∀ c, st.log.count (.started c) ≤ 1) ∧
      (s.flush ≠ .notCalled →
        (∀ c, r.IsStopHook c → st.log.count (.started c) = 1 ∧ .settled c ∈ st.log) ∨
        ∃ c reason err, r.IsStopHook c ∧ (s.results c).settled = .error reason ∧
          ¬ reason.HasText ∧ s.outcome = some (.error (.hooks (.thrown err))))) ∧
    (∀ n, p.exitCode = some n → n = 0 ∧ ∃ s ∈ p.stops, ∃ signal,
      s.caller = .onShutDown signal ∧ s.flush = .settled ∧
      ∀ err, s.outcome = some (.error err) →
        .error (js "Failed to stop service. Shutdown completed") err ∈ s.logs) ∧
    (∃ bound, ∀ es (p : Process N), Runs (Process.step app) Process.start es p →
      es.length ≤ p.stops.length * bound + 1) ∧
    ((∀ e : ProcessEvent N, e.isCall = false → p.step app e = none) →
      ∀ s ∈ p.stops, ∀ signal, s.caller = .onShutDown signal → p.exitCode = some 0) := by
  have hp := Process.follows h
  refine ⟨fun r hcon s hs => ?_, fun n hn => ?_,
    ⟨_, fun _ _ hr => (Process.follows hr).length_le⟩,
    fun hh s hs signal hc => hp.exited_of_halted hh hs hc⟩
  · obtain ⟨fs, hf⟩ := hp.stops hs
    obtain ⟨gs, st, hst, hr⟩ := hf.exists_runs hcon
    refine ⟨st, hst, count_started_le hr Registrations.nodup_stopStages, fun hflush => ?_⟩
    refine (Stopping.completed_or_thrown hst hr (hf.ended hflush)).imp_left fun hc c hstop => ?_
    have hmem : c ∈ (r.stopStages app.asyncCommunicationClasses).flatten :=
      Registrations.mem_stopStages.2 hstop
    exact ⟨count_started_of_completed hr hc Registrations.nodup_stopStages hmem,
      ((completed_spec hr hc).2.1 c hmem).1⟩
  · obtain ⟨rfl, s, hs, he⟩ := hp.exited n hn
    obtain ⟨signal, hc, hsettled⟩ := Stopping.exits_iff.1 he
    obtain ⟨fs, hf⟩ := hp.stops hs
    exact ⟨rfl, s, hs, signal, hc, hsettled, fun err => hf.told hsettled signal err hc⟩

end Process

/-- The process hears two signals, and the call for the second one is over first. -/
def twoSignals : List (ProcessEvent ℤ) :=
  [.signal .SIGINT (failsToDestroy closedError), .signal .SIGTERM (failsToDestroy closedError),
    .move 0 (.hook .next)] ++
    stopEvents.map (fun e => .move 1 (.hook e)) ++
    [.move 1 .forceFlush, .move 1 (.flushed none), .exit 1]

theorem shutdown_runs_twoSignals : ∃ p,
    Runs (Process.step ⟨some twoInstances, [], none⟩) Process.start twoSignals p ∧
      p.exitCode = some 0 ∧
      ∀ s ∈ p.stops, ∃ st, s.hooks = .ok st ∧ ∀ c, st.log.count (.started c) ≤ 1 := by
  have h : Runs (Process.step ⟨some twoInstances, [], none⟩) Process.start twoSignals _ := rfl
  refine ⟨_, h, rfl, fun s hs => ?_⟩
  obtain ⟨st, hst, hcount, -⟩ := (shutdown_runs h).1 _ rfl s hs
  exact ⟨st, hst, hcount⟩

end DiiaApp
