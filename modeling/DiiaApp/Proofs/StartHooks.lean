import DiiaApp.Proofs.HookOrder

/-!
# What starting calls

The stages of `runOnStartHooks` are the `onRegistrationsFinished` hooks and then the `onInit` hooks
by their order (`nodup_startStages`). A run through them stops at the first stage with a hook that
fails. One that gets to the end has called every hook once, and has the value of the instance that
is registered as `grpcService` (`grpcService_eq`).
-/

namespace DiiaApp

open Js Stages Steps

variable {N : Type}

namespace Registrations

variable (r : Registrations)

/-- A hook that starting calls. -/
def IsStartHook (c : HookCall) : Prop :=
  (∃ i ∈ r.instances, i.hasOnRegistrationsFinishedHook = true ∧
    ⟨.onRegistrationsFinished, i.name⟩ = c) ∨
    ∃ i ∈ r.instances, i.hasOnInitHook = true ∧ ⟨.onInit, i.name⟩ = c

variable {r} {async : List JsString}

theorem flatten_startStages : (r.startStages async).flatten.Perm
    (hooksOf .onRegistrationsFinished (·.hasOnRegistrationsFinishedHook) r.instances ++
      hooksOf .onInit (·.hasOnInitHook) r.instances) := by
  rw [startStages, List.flatten_cons]
  exact (flatten_hooksInOrder r.instances _).append_left _

theorem mem_startStages {c : HookCall} : c ∈ (r.startStages async).flatten ↔ r.IsStartHook c := by
  rw [flatten_startStages.mem_iff, List.mem_append, mem_hooksOf, mem_hooksOf]
  rfl

theorem nodup_startStages : (r.startStages async).flatten.Nodup := by
  rw [flatten_startStages.nodup_iff]
  exact nodup_append_hooksOf r nofun

/-- The stage of an `onInit` hook comes after the `onRegistrationsFinished` hooks. -/
theorem split_startStages {pre post : List (List HookCall)} {stage : List HookCall}
    (h : r.startStages async = pre ++ stage :: post) {name : JsString}
    (hs : ⟨.onInit, name⟩ ∈ stage) : ∃ inits,
      pre = hooksOf .onRegistrationsFinished (·.hasOnRegistrationsFinishedHook) r.instances ::
        inits ∧ r.onInitHooksInOrder async = inits ++ stage :: post := by
  rw [startStages, List.cons_eq_append_iff] at h
  rcases h with ⟨-, h⟩ | ⟨inits, rfl, h⟩
  · rw [(List.cons.inj h).1] at hs
    exact absurd (hook_of_mem_hooksOf hs) nofun
  · exact ⟨inits, rfl, h⟩

end Registrations

/-- A hook has resolved. -/
def Resolved (results : HookCall → HookResult N) (log : List (Entry HookCall)) (c : HookCall) :
    Prop := .settled c ∈ log ∧ ∃ v, (results c).settled = .ok v

section Run

variable {r : Registrations} {async : List JsString} {results : HookCall → HookResult N}
  {es : List (Event HookCall)} {s s₀ : StartState N}

theorem startStep_eq {s t : StartState N} {e : Event HookCall} :
    startStep results s e = some t ↔
      Stages.step true (fun _ => false) (fun c => (results c).settled) s.stages e =
          some t.stages ∧
        t.grpcService = setGrpcService results s.grpcService e := by
  rw [startStep, Option.map_eq_some_iff]
  constructor
  · rintro ⟨stages, hs, rfl⟩
    exact ⟨hs, rfl⟩
  · rintro ⟨hs, hg⟩
    exact ⟨t.stages, hs, by rw [← hg]⟩

theorem runs_stages (h : Runs (startStep results) s₀ es s) :
    Runs (Stages.step true (fun _ => false) fun c => (results c).settled) s₀.stages es
      s.stages := by
  refine h.hist (fun es s => Runs
    (Stages.step true (fun _ => false) fun c => (results c).settled) s₀.stages es s.stages)
    (runs_nil.2 rfl) fun es s e t _ ih ht => ?_
  exact runs_snoc.2 ⟨s.stages, ih, (startStep_eq.1 ht).1⟩

theorem errorOf_eq_none {c : HookCall} (h : errorOf (results c).settled = none) :
    ∃ v, (results c).settled = .ok v := by
  cases hc : (results c).settled with
  | ok v => exact ⟨v, rfl⟩
  | error err =>
    rw [hc] at h
    cases h

/-- The result has what the `onInit` hook of `grpcService` resolved to, once it has. -/
theorem grpcService_eq {c : HookCall} (hc : c = ⟨.onInit, js "grpcService"⟩)
    (h : Runs (startStep results) ⟨start (r.startStages async), none⟩ es s) :
    s.grpcService = if .settled c ∈ s.stages.log then (results c).settled.toOption else none := by
  refine h.inv (fun s => s.grpcService =
    if .settled c ∈ s.stages.log then (results c).settled.toOption else none) rfl ?_
  intro s e t ih ht
  obtain ⟨hs, hg⟩ := startStep_eq.1 ht
  rw [hg]
  have hm := step_moves hs
  generalize t.stages = u at hm
  cases hm with
  | @settle d hi hn =>
    rw [setGrpcService]
    by_cases hd : d = c
    · subst hd
      rw [if_neg hn] at ih
      rw [if_pos (by simp), ih]
      cases (results d).settled with
      | ok v => exact if_pos hc
      | error err => rfl
    · have hlog : Entry.settled c ∈ s.stages.log ++ [Entry.settled d] ↔
          Entry.settled c ∈ s.stages.log := by
        simp [Ne.symm hd]
      rw [if_congr hlog rfl rfl, ← ih]
      cases (results d).settled with
      | ok v => exact if_neg fun h => hd (h.trans hc.symm)
      | error err => rfl
  | «break» hn ho hb => exact ih
  | complete hn ho hb hr => exact ih
  | next hn ho hb hr => simpa [setGrpcService] using ih
  | stop hn hst hf => exact ih

/-- What has started before an `onInit` hook of some order has resolved, where it is a hook of a
smaller order or one that comes before all of them. -/
theorem resolved_before (h : Runs (startStep results) ⟨start (r.startStages async), none⟩ es s)
    {before after : List (Entry HookCall)} {j : RegisteredInstance} (hj : j ∈ r.instances)
    (he : s.stages.log = before ++ .started ⟨.onInit, j.name⟩ :: after) :
    (∀ i ∈ r.instances, i.hasOnRegistrationsFinishedHook = true →
      Resolved results before ⟨.onRegistrationsFinished, i.name⟩) ∧
    ∀ i ∈ r.instances, i.hasOnInitHook = true → getOnInitOrder async i < getOnInitOrder async j →
      Resolved results before ⟨.onInit, i.name⟩ := by
  obtain ⟨pre, stage, post, hplan, hjs, hover⟩ := ordered (runs_stages h) he
  obtain ⟨inits, rfl, hinits⟩ := Registrations.split_startStages hplan hjs
  have hres : ∀ c ∈ (hooksOf .onRegistrationsFinished (·.hasOnRegistrationsFinishedHook)
      r.instances :: inits).flatten, Resolved results before c := fun c hc =>
    ⟨(hover c hc).1, errorOf_eq_none ((hover c hc).2.1 rfl)⟩
  refine ⟨fun i hi hhas => hres _ ?_, fun i hi hhas hlt => hres _ ?_⟩
  · rw [List.flatten_cons, List.mem_append, mem_hooksOf]
    exact .inl ⟨i, hi, hhas, rfl⟩
  · rw [List.flatten_cons, List.mem_append]
    refine .inr (mem_of_smaller (fun n => ?_) hinits hj hjs hi hhas hlt)
    rcases n with _ | _ | _ | _ | _ | n <;> rfl

theorem startOutcome_ok {result : Option (Value N)} (h : startOutcome s = some (.ok result)) :
    s.stages.ending = some .completed ∧ s.grpcService = result := by
  obtain ⟨ending, he, hr⟩ := Option.map_eq_some_iff.1 h
  cases ending with
  | completed => exact ⟨he, Except.ok.inj hr⟩
  | stopped err => cases hr

/-- In the end `runOnStartHooks` has resolved just where no hook fails, and otherwise rejects with
the error of one that does. -/
theorem outcome_of_halted (h : Runs (startStep results) ⟨start (r.startStages async), none⟩ es s)
    (hh : ∀ e, startStep results s e = none) :
    ((∀ c, r.IsStartHook c → ∃ v, (results c).settled = .ok v) ∧
      startOutcome s = some (.ok s.grpcService)) ∨
    ∃ c err, r.IsStartHook c ∧ (results c).settled = .error err ∧
      startOutcome s = some (.error err) := by
  have hruns := runs_stages h
  have hhalt : Halted true (fun _ => false) (fun c => (results c).settled) s.stages := fun e =>
    Option.map_eq_none_iff.1 (hh e)
  rcases he : s.stages.ending with _ | _ | err
  · exact absurd he hhalt.ended
  · obtain ⟨-, hover, -⟩ := completed_spec hruns he
    refine .inl ⟨fun c hc => ?_, by rw [startOutcome, he]; rfl⟩
    exact errorOf_eq_none ((hover c (Registrations.mem_startStages.2 hc)).2.1 rfl)
  · obtain ⟨pre, stage, post, hplan, -, ⟨c, hc, herr⟩, -⟩ := stopped_spec hruns he
    refine .inr ⟨c, err, ?_, ?_, by rw [startOutcome, he]; rfl⟩
    · have hstage : stage ∈ r.startStages async := by simp [hplan]
      exact Registrations.mem_startStages.1 (List.mem_flatten_of_mem hstage hc)
    · cases hr : (results c).settled with
      | ok v => simp [hr, errorOf] at herr
      | error err' => simpa [hr, errorOf] using herr

/-- Along every run of `runOnStartHooks` an `onInit` hook is called only after all
`onRegistrationsFinished` hooks and all `onInit` hooks of a smaller order have resolved; where one
of these fails it is not called. Every run comes to an end. It rejects where a hook fails, with the
error of one that does, and resolves where none does, having called each `onInit` hook once, to what
the one of `grpcService` resolved to. -/
theorem runOnStartHooks_runs (h₀ : runOnStartHooks (some r) async = .ok s₀)
    (h : Runs (startStep results) s₀ es s) :
    (∀ before after, ∀ j ∈ r.instances,
      s.stages.log = before ++ .started ⟨.onInit, j.name⟩ :: after →
        (∀ i ∈ r.instances, i.hasOnRegistrationsFinishedHook = true →
          Resolved results before ⟨.onRegistrationsFinished, i.name⟩) ∧
        ∀ i ∈ r.instances, i.hasOnInitHook = true →
          getOnInitOrder async i < getOnInitOrder async j →
            Resolved results before ⟨.onInit, i.name⟩) ∧
      (∀ i ∈ r.instances, ∀ j ∈ r.instances, ∀ err,
        (i.hasOnRegistrationsFinishedHook = true ∧
          (results ⟨.onRegistrationsFinished, i.name⟩).settled = .error err) ∨
        (i.hasOnInitHook = true ∧ getOnInitOrder async i < getOnInitOrder async j ∧
          (results ⟨.onInit, i.name⟩).settled = .error err) →
        .started ⟨.onInit, j.name⟩ ∉ s.stages.log) ∧
      (∃ n, ∀ es s, Runs (startStep results) s₀ es s → es.length ≤ n) ∧
      ((∀ e, startStep results s e = none) →
        ((∀ c, r.IsStartHook c → ∃ v, (results c).settled = .ok v) ∧
          ∃ result, startOutcome s = some (.ok result)) ∨
        ∃ c err, r.IsStartHook c ∧ (results c).settled = .error err ∧
          startOutcome s = some (.error err)) ∧
      ∀ result, startOutcome s = some (.ok result) →
        (∀ i ∈ r.instances, i.hasOnInitHook = true →
          s.stages.log.count (.started ⟨.onInit, i.name⟩) = 1) ∧
        (∀ i ∈ r.instances, i.hasOnInitHook = true → i.name = js "grpcService" →
          ∃ v, (results ⟨.onInit, i.name⟩).settled = .ok v ∧ result = some v) ∧
        ((∀ i ∈ r.instances, i.hasOnInitHook = true → i.name ≠ js "grpcService") →
          result = none) := by
  obtain rfl := Except.ok.inj h₀
  have hruns := runs_stages h
  refine ⟨fun before after j hj => resolved_before h hj, ?_,
    ⟨_, fun es s hr => length_le (runs_stages hr)⟩, fun hh => ?_, fun result hout => ?_⟩
  · intro i hi j hj err hfail hstarted
    obtain ⟨before, after, he⟩ := List.append_of_mem hstarted
    obtain ⟨hregs, hinits⟩ := resolved_before h hj he
    rcases hfail with ⟨hhas, hf⟩ | ⟨hhas, hlt, hf⟩
    · obtain ⟨-, v, hv⟩ := hregs i hi hhas
      cases hf.symm.trans hv
    · obtain ⟨-, v, hv⟩ := hinits i hi hhas hlt
      cases hf.symm.trans hv
  · exact (outcome_of_halted h hh).imp_left fun ⟨hok, hout⟩ => ⟨hok, _, hout⟩
  · obtain ⟨hcompleted, rfl⟩ := startOutcome_ok hout
    obtain ⟨-, hover, -⟩ := completed_spec hruns hcompleted
    refine ⟨fun i hi hhas => ?_, fun i hi hhas hname => ?_, fun hno => ?_⟩
    · exact count_started_of_completed hruns hcompleted Registrations.nodup_startStages
        (Registrations.mem_startStages.2 (.inr ⟨i, hi, hhas, rfl⟩))
    · obtain ⟨hs, hok, -⟩ := hover _ (Registrations.mem_startStages.2 (.inr ⟨i, hi, hhas, rfl⟩))
      obtain ⟨v, hv⟩ := errorOf_eq_none (hok rfl)
      refine ⟨v, hv, ?_⟩
      have hc : (⟨.onInit, i.name⟩ : HookCall) = ⟨.onInit, js "grpcService"⟩ := by rw [hname]
      rw [grpcService_eq hc h, if_pos hs, hv]
      rfl
    · rw [grpcService_eq rfl h, if_neg fun hs => ?_]
      rcases Registrations.mem_startStages.1 (mem_of_settled hruns hs) with
        ⟨i, -, -, hi⟩ | ⟨i, hi, hhas, hname⟩
      · cases hi
      · exact hno i hi hhas (HookCall.mk.inj hname).2

end Run

/-- Every hook resolves to the name of its instance. -/
def ownName (c : HookCall) : HookResult ℤ := .resolves (.str c.name)

def startEvents : List (Event HookCall) :=
  [.next, .settle ⟨.onRegistrationsFinished, js "grpcService"⟩,
    .settle ⟨.onRegistrationsFinished, js "db"⟩, .next, .next, .next,
    .settle ⟨.onInit, js "db"⟩, .next, .settle ⟨.onInit, js "grpcService"⟩, .next, .next]

theorem runOnStartHooks_two : ∃ s₀ s, runOnStartHooks (some twoInstances) [] = .ok s₀ ∧
    Runs (startStep ownName) s₀ startEvents s ∧
    startOutcome s = some (.ok (some (.str (js "grpcService")))) ∧
    ∀ i ∈ twoInstances.instances, i.hasOnInitHook = true →
      s.stages.log.count (.started ⟨.onInit, i.name⟩) = 1 := by
  have h : Runs (startStep ownName) ⟨start (twoInstances.startStages []), none⟩ startEvents _ := rfl
  exact ⟨_, _, rfl, h, rfl, ((runOnStartHooks_runs rfl h).2.2.2.2 _ rfl).1⟩

end DiiaApp
