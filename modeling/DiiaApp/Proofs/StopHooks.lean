import DiiaApp.Proofs.HookOrder

/-!
# What stopping calls

The stages of `runOnStopHooks` hold each `onDestroy` hook and each `onBeforeApplicationShutdown`
hook once (`nodup_stopStages`), those of a larger init order first. A run through them therefore
calls every hook once, whatever the others do, and fails with what the hooks that failed did.
-/

namespace DiiaApp

open Js Stages Steps

variable {N : Type}

namespace Registrations

variable (r : Registrations)

/-- A hook that stopping calls. -/
def IsStopHook (c : HookCall) : Prop :=
  (∃ i ∈ r.instances, i.hasOnDestroyHook = true ∧ ⟨.onDestroy, i.name⟩ = c) ∨
    ∃ i ∈ r.instances, i.hasOnBeforeApplicationShutdownHook = true ∧
      ⟨.onBeforeApplicationShutdown, i.name⟩ = c

variable {r} {async : List JsString}

theorem flatten_stopStages : (r.stopStages async).flatten.Perm
    (hooksOf .onDestroy (·.hasOnDestroyHook) r.instances ++
      hooksOf .onBeforeApplicationShutdown (·.hasOnBeforeApplicationShutdownHook) r.instances) := by
  rw [stopStages, List.flatten_append, List.flatten_singleton]
  exact (flatten_hooksInOrder r.instances []).append_right _

theorem mem_stopStages {c : HookCall} : c ∈ (r.stopStages async).flatten ↔ r.IsStopHook c := by
  rw [flatten_stopStages.mem_iff, List.mem_append, mem_hooksOf, mem_hooksOf]
  rfl

theorem nodup_stopStages : (r.stopStages async).flatten.Nodup := by
  rw [flatten_stopStages.nodup_iff]
  exact nodup_append_hooksOf r nofun

theorem getOnInitOrder_le (async : List JsString) (i : RegisteredInstance) :
    getOnInitOrder async i ≤ maxInitOrder := by
  unfold getOnInitOrder maxInitOrder
  split_ifs <;> omega

/-- Stopping takes the orders of starting the other way round. -/
theorem getOnDestroyOrder_lt {i j : RegisteredInstance}
    (h : getOnInitOrder async j < getOnInitOrder async i) :
    getOnDestroyOrder async i < getOnDestroyOrder async j := by
  have hi := getOnInitOrder_le async i
  unfold getOnDestroyOrder
  omega

/-- The stages before an `onDestroy` hook hold those of a larger init order. -/
theorem mem_before_onDestroy {pre post : List (List HookCall)} {stage : List HookCall}
    (h : r.stopStages async = pre ++ stage :: post) {i j : RegisteredInstance}
    (hj : j ∈ r.instances) (hjs : ⟨.onDestroy, j.name⟩ ∈ stage) (hi : i ∈ r.instances)
    (hhas : i.hasOnDestroyHook = true)
    (hlt : getOnInitOrder async j < getOnInitOrder async i) :
    ⟨.onDestroy, i.name⟩ ∈ pre.flatten := by
  rw [stopStages] at h
  rcases append_eq_append_cons h with ⟨t, ht, -⟩ | ⟨t, -, hk⟩
  · exact mem_of_smaller (by simp) ht hj hjs hi hhas (getOnDestroyOrder_lt hlt)
  · rcases List.singleton_eq_append_iff.1 hk with ⟨-, hk⟩ | ⟨-, hk⟩
    · rw [(List.cons.inj hk).1] at hjs
      exact absurd (hook_of_mem_hooksOf hjs) nofun
    · cases hk

/-- The stages before an `onBeforeApplicationShutdown` hook hold all `onDestroy` hooks. -/
theorem mem_before_shutdown {pre post : List (List HookCall)} {stage : List HookCall}
    (h : r.stopStages async = pre ++ stage :: post) {name : JsString}
    (hjs : ⟨.onBeforeApplicationShutdown, name⟩ ∈ stage) {i : RegisteredInstance}
    (hi : i ∈ r.instances) (hhas : i.hasOnDestroyHook = true) :
    ⟨.onDestroy, i.name⟩ ∈ pre.flatten := by
  rw [stopStages] at h
  rcases append_eq_append_cons h with ⟨t, ht, -⟩ | ⟨t, rfl, -⟩
  · have hmem : ⟨.onBeforeApplicationShutdown, name⟩ ∈ (r.onDestroyHooksInOrder async).flatten :=
      ht ▸ List.mem_flatten_of_mem (by simp) hjs
    exact absurd (hook_of_mem_hooksOf (mem_flatten_hooksInOrder.1 hmem)) nofun
  · rw [List.flatten_append, List.mem_append]
    exact .inl (mem_flatten_hooksInOrder.2 (mem_hooksOf.2 ⟨i, hi, hhas, rfl⟩))

end Registrations

/-- `String` gives a text of a reason. -/
def Reason.HasText : Reason N → Prop
  | error _ | undefined => True
  | other string => Succeeds string

theorem succeeds_newError {reason : Reason N} : Succeeds (newError reason) ↔ reason.HasText := by
  cases reason with
  | error err => cases err <;> exact iff_of_true ⟨_, rfl⟩ trivial
  | undefined => exact iff_of_true ⟨_, rfl⟩ trivial
  | other string => exact succeeds_map

theorem not_isOk_newError {reason : Reason N} :
    (!(newError reason).isOk) = false ↔ reason.HasText := by
  rw [← succeeds_newError]
  cases newError reason with
  | error err => simp [Except.isOk, Except.toBool]
  | ok e => simp [Except.isOk, Except.toBool]

theorem stopResult_of_hasText {reasons : List (Reason N)} (h : ∀ r ∈ reasons, r.HasText) :
    ∃ errors, List.Forall₂ (fun r e => newError r = .ok e) reasons errors ∧
      stopResult reasons = if reasons = [] then .ok ()
        else .error (.aggregate ⟨errors, js "Failed to stop service"⟩) := by
  obtain ⟨errors, he⟩ := succeeds_mapM.2 fun r hr => succeeds_newError.2 (h r hr)
  have hall := mapM_eq_ok.1 he
  refine ⟨errors, hall, ?_⟩
  rw [stopResult, he]
  cases hall with
  | nil => rfl
  | cons _ _ => rfl

theorem stopResult_of_not_hasText {reason : Reason N} (h : ¬ reason.HasText) :
    ∃ err, stopResult [reason] = .error (.thrown err) := by
  rw [← succeeds_newError] at h
  cases hr : newError reason with
  | error err => exact ⟨err, by simp [stopResult, hr, bind, Except.bind]⟩
  | ok e => exact absurd ⟨e, hr⟩ h

/-- All is done for the hooks of `r`: each has been called once, and there is an error just where
one has failed, with what is made of the reason of each that has. -/
def StopsAll (r : Registrations) (results : HookCall → HookResult N)
    (s : State HookCall (Reason N)) : Prop :=
  (∀ c, r.IsStopHook c → s.log.count (.started c) = 1) ∧
    ∃ failed errors, failed.Nodup ∧
      (∀ c, c ∈ failed ↔ r.IsStopHook c ∧ ∃ reason, (results c).settled = .error reason) ∧
      List.Forall₂ (fun c e => ∃ reason, (results c).settled = .error reason ∧
        ∀ err, newError reason = .ok err → e = err) failed errors ∧
      stopOutcome s = some (if failed = [] then .ok ()
        else .error (.aggregate ⟨errors, js "Failed to stop service"⟩))

theorem forall₂_trans {α β γ : Type} {R : α → β → Prop} {S : β → γ → Prop} {T : α → γ → Prop}
    (hT : ∀ a b c, R a b → S b c → T a c) {as : List α} {bs : List β} {cs : List γ}
    (h : List.Forall₂ R as bs) (h' : List.Forall₂ S bs cs) : List.Forall₂ T as cs := by
  induction h generalizing cs with
  | nil =>
    cases h'
    exact .nil
  | cons hab _ ih =>
    obtain _ | ⟨hbc, htail⟩ := h'
    exact .cons (hT _ _ _ hab hbc) (ih htail)

section Run

variable {r : Registrations} {async : List JsString} {results : HookCall → HookResult N}
  {es : List (Event HookCall)} {s : State HookCall (Reason N)}

theorem errorOf_settled {c : HookCall} {reason : Reason N} :
    errorOf (results c).settled = some reason ↔ (results c).settled = .error reason := by
  cases (results c).settled with
  | ok v => simp [errorOf]
  | error err => simp [errorOf]

/-- A run that gets to the end has met no reason without a text. -/
theorem hasText_of_completed (h : Runs (stopStep results) (start (r.stopStages async)) es s)
    (hc : s.ending = some .completed) {c : HookCall} (hstop : r.IsStopHook c) {reason : Reason N}
    (hr : (results c).settled = .error reason) : reason.HasText := by
  obtain ⟨-, -, hb⟩ := (completed_spec h hc).2.1 c (Registrations.mem_stopStages.2 hstop)
  exact not_isOk_newError.1 (hb reason (errorOf_settled.2 hr))

/-- In the end every hook has been called, where all reasons have a text. -/
theorem stopsAll_of_completed (h : Runs (stopStep results) (start (r.stopStages async)) es s)
    (hc : s.ending = some .completed) : StopsAll r results s := by
  obtain ⟨-, -, herrors⟩ := completed_spec h hc
  have hone := forall₂_failures (fun c => (results c).settled) (r.stopStages async).flatten
  rw [← herrors] at hone
  have hmem : ∀ c, c ∈ (r.stopStages async).flatten.filter
      (fun c => (errorOf (results c).settled).isSome) ↔
        r.IsStopHook c ∧ ∃ reason, (results c).settled = .error reason := fun c => by
    rw [List.mem_filter, Registrations.mem_stopStages, Option.isSome_iff_exists]
    simp only [errorOf_settled]
  have htext : ∀ reason ∈ s.errors, reason.HasText := fun reason hr => by
    rw [herrors] at hr
    obtain ⟨c, hc', he⟩ := exists_of_mem_failures hr
    exact hasText_of_completed h hc (Registrations.mem_stopStages.1 hc') (errorOf_settled.1 he)
  obtain ⟨errors, hall, hout⟩ := stopResult_of_hasText htext
  refine ⟨fun c hstop => ?_, _, errors, Registrations.nodup_stopStages.filter _, hmem, ?_, ?_⟩
  · exact count_started_of_completed h hc Registrations.nodup_stopStages
      (Registrations.mem_stopStages.2 hstop)
  · refine forall₂_trans (fun c reason e hf he => ⟨reason, hf, fun err herr => ?_⟩) hone hall
    exact Except.ok.inj (he.symm.trans herr)
  · rw [stopOutcome, hc, Option.map_some, hout]
    have hlen := hone.length_eq
    refine congrArg some (if_congr ?_ rfl rfl)
    rw [← List.length_eq_zero_iff, ← List.length_eq_zero_iff, hlen]

/-- In the end all is done for the hooks just where all reasons have a text. -/
theorem stopsAll_iff (h : Runs (stopStep results) (start (r.stopStages async)) es s)
    (hh : ∀ e, stopStep results s e = none) : StopsAll r results s ↔
      ∀ c, r.IsStopHook c → ∀ reason, (results c).settled = .error reason → reason.HasText := by
  constructor
  · rintro ⟨-, failed, errors, -, -, -, hout⟩
    rcases he : s.ending with _ | _ | reason
    · exact absurd he (Halted.ended hh)
    · exact fun c hstop reason hr => hasText_of_completed h he hstop hr
    · obtain ⟨-, -, -, -, hbreaks, -⟩ := stopped_spec h he
      have hno : ¬ reason.HasText := by
        rw [← not_isOk_newError]
        simpa using hbreaks
      obtain ⟨err, herr⟩ := stopResult_of_not_hasText hno
      simp only [stopOutcome, he, Option.map_some, herr] at hout
      split_ifs at hout <;> cases hout
  · intro htext
    refine stopsAll_of_completed h (completed_of_halted h hh fun c hc reason he => ⟨rfl, ?_⟩)
    exact not_isOk_newError.2
      (htext c (Registrations.mem_stopStages.1 hc) reason (errorOf_settled.1 he))

/-- Along every run of `runOnStopHooks` no hook is called twice, an `onDestroy` hook only after
those of a larger init order have settled, and an `onBeforeApplicationShutdown` hook only after all
`onDestroy` hooks have. Every run comes to an end, and there each hook has been called once, with
one error for each that failed, just where `String` gives a text of what each failed with. -/
theorem runOnStopHooks_runs {s₀ : State HookCall (Reason N)}
    (h₀ : runOnStopHooks (some r) async = .ok s₀) (h : Runs (stopStep results) s₀ es s) :
    (∀ c, s.log.count (.started c) ≤ 1) ∧
      (∀ before after, ∀ i ∈ r.instances, ∀ j ∈ r.instances, i.hasOnDestroyHook = true →
        getOnInitOrder async j < getOnInitOrder async i →
        s.log = before ++ .started ⟨.onDestroy, j.name⟩ :: after →
          .settled ⟨.onDestroy, i.name⟩ ∈ before) ∧
      (∀ before after name, ∀ i ∈ r.instances, i.hasOnDestroyHook = true →
        s.log = before ++ .started ⟨.onBeforeApplicationShutdown, name⟩ :: after →
          .settled ⟨.onDestroy, i.name⟩ ∈ before) ∧
      (∃ n, ∀ es s, Runs (stopStep results) s₀ es s → es.length ≤ n) ∧
      ((∀ e, stopStep results s e = none) →
        (StopsAll r results s ↔ ∀ c, r.IsStopHook c → ∀ reason,
          (results c).settled = .error reason → reason.HasText)) := by
  obtain rfl := Except.ok.inj h₀
  refine ⟨count_started_le h Registrations.nodup_stopStages, ?_, ?_,
    ⟨_, fun _ _ => length_le⟩, stopsAll_iff h⟩
  · intro before after i hi j hj hhas hlt he
    obtain ⟨pre, stage, post, hplan, hjs, hover⟩ := ordered h he
    exact (hover _ (Registrations.mem_before_onDestroy hplan hj hjs hi hhas hlt)).1
  · intro before after name i hi hhas he
    obtain ⟨pre, stage, post, hplan, hjs, hover⟩ := ordered h he
    exact (hover _ (Registrations.mem_before_shutdown hplan hjs hi hhas)).1

end Run

/-- All hooks resolve but `onDestroy` of the service. -/
def failsToDestroy (reason : Reason ℤ) (c : HookCall) : HookResult ℤ :=
  if c = ⟨.onDestroy, js "grpcService"⟩ then .throws reason else .resolves .undefined

def closedError : Reason ℤ := .error (.native ⟨.typeError, js "closed"⟩)

def stopEvents : List (Event HookCall) :=
  [.next, .next, .settle ⟨.onDestroy, js "grpcService"⟩, .next, .settle ⟨.onDestroy, js "db"⟩,
    .next, .next]

theorem runOnStopHooks_two : ∃ s₀ s, runOnStopHooks (some twoInstances) [] = .ok s₀ ∧
    Runs (stopStep (failsToDestroy closedError)) s₀ stopEvents s ∧
    stopOutcome s = some (.error
      (.aggregate ⟨[⟨.error, js "TypeError: closed"⟩], js "Failed to stop service"⟩)) ∧
    StopsAll twoInstances (failsToDestroy closedError) s := by
  have h : Runs (stopStep (failsToDestroy closedError)) (start (twoInstances.stopStages []))
    stopEvents _ := rfl
  refine ⟨_, _, rfl, h, rfl, ((runOnStopHooks_runs rfl h).2.2.2.2 ?_).2 ?_⟩
  · exact halted_of_ended (by decide) rfl
  · intro c _ reason hr
    rw [failsToDestroy] at hr
    split_ifs at hr <;> cases hr
    trivial

/-- What `String` throws of a symbol. -/
def symbolReason : Reason ℤ :=
  .other (.error (.native ⟨.typeError, js "Cannot convert a Symbol value to a string"⟩))

/-- Where `onDestroy` of the service fails with a symbol, that of the database is not called. -/
theorem runOnStopHooks_symbol : ∃ s₀ s es, runOnStopHooks (some twoInstances) [] = .ok s₀ ∧
    Runs (stopStep (failsToDestroy symbolReason)) s₀ es s ∧
    (∀ e, stopStep (failsToDestroy symbolReason) s e = none) ∧
    ¬ StopsAll twoInstances (failsToDestroy symbolReason) s ∧
    s.log.count (.started ⟨.onDestroy, js "db"⟩) = 0 ∧
    stopOutcome s = some (.error
      (.thrown (.native ⟨.typeError, js "Cannot convert a Symbol value to a string"⟩))) := by
  have h : Runs (stopStep (failsToDestroy symbolReason)) (start (twoInstances.stopStages []))
    [.next, .next, .settle ⟨.onDestroy, js "grpcService"⟩, .next] _ := rfl
  refine ⟨_, _, _, rfl, h, ?_, ?_, rfl, rfl⟩
  · exact halted_of_ended (by decide) rfl
  · rintro ⟨hone, -⟩
    exact Nat.zero_ne_one (hone ⟨.onDestroy, js "db"⟩ (.inl ⟨_, .head _, rfl, rfl⟩))

end DiiaApp
