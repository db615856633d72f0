import DiiaApp.ExecuteAction
import DiiaApp.StandIn

/-!
# What comes of an execution

An execution that gets past its log data and the resource of its lock tries the action and finishes
(`execute_tried`). It settles as the validation and the handler did unless the release of its lock
fails (`outcomeKept_iff`), and it ends its span and observes its time once, with the status that
fits, unless it never comes to the `try` or such a release fails after a success (`balanced_iff`).
-/

namespace DiiaApp

open Js

namespace ActionExecutor

variable {N : Type} {p : Packages N} {x : Deps N} {action : AppAction N} {args : Arguments N}
  {params : ExecuteActionParams N}

/-! ## Trying and finishing -/

/-- How trying an action goes, by what it comes to. -/
inductive Attempted : Report N → Option (Except (Thrown N) (Value N)) → Prop
  | invalid (err : Thrown N) : Attempted ⟨[.validated (.error err)], .error err⟩ (some (.error err))
  | uncoded (err : Thrown N) : Attempted ⟨[.validated (.ok ())], .error err⟩ none
  | handled (res : Except (Thrown N) (Value N)) :
      Attempted ⟨[.validated (.ok ()), .handled res], res⟩ (some res)

theorem Attempted.result {r : Report N} {res : Except (Thrown N) (Value N)}
    (h : Attempted r (some res)) : r.result = res := by
  cases h <;> rfl

theorem Attempted.resolves {r : Report N} {o : Option (Except (Thrown N) (Value N))}
    (h : Attempted r o) {v : Value N} : r.result = .ok v ↔ o = some (.ok v) := by
  cases h <;> simp

theorem Attempted.of_handled {r : Report N} {o : Option (Except (Thrown N) (Value N))}
    (h : Attempted r o) {res : Except (Thrown N) (Value N)} (hm : .handled res ∈ r.doings) :
    o = some res := by
  cases h with
  | invalid err => simp at hm
  | uncoded err => simp at hm
  | handled res' =>
    obtain rfl : res = res' := by simpa using hm
    rfl

theorem Attempted.of_invalid {r : Report N} {o : Option (Except (Thrown N) (Value N))}
    (h : Attempted r o) {err : Thrown N} (hm : .validated (.error err) ∈ r.doings) :
    o = some (.error err) := by
  cases h with
  | invalid err' =>
    obtain rfl : err = err' := by simpa using hm
    rfl
  | uncoded err' => simp at hm
  | handled res => simp at hm

theorem finish_doings (lock : Option (Except (Thrown N) Unit)) (r : Report N) :
    (finish lock r).doings = r.doings ++ .endSpan :: lock.toList.map .released := by
  rcases lock with _ | _ | _ <;> rfl

/-- An execution settles as its handler or, where the arguments are not valid, its validation. -/
structure OutcomeKept (r : Report N) : Prop where
  handled : ∀ res, .handled res ∈ r.doings → r.result = res
  invalid : ∀ err, .validated (.error err) ∈ r.doings → r.result = .error err

/-- The doings of an execution besides those of the action tried and of the release. -/
def Doing.IsTold : Doing N → Prop
  | .validated _ => False
  | .handled _ => False
  | _ => True

theorem isTold_opening : ∀ d ∈ opening x params, d.IsTold := by
  simp [opening, Doing.IsTold]

theorem isTold_told {labels : Labels} {res : Except (Thrown N) (Value N)} :
    ∀ d ∈ told p labels res, d.IsTold := by
  rcases res with err | v <;> simp [told, Doing.IsTold]

theorem outcomeKept_opening {res : Except (Thrown N) (Value N)} :
    OutcomeKept ⟨opening x params, res⟩ :=
  ⟨fun _ h => absurd (isTold_opening _ h) id, fun _ h => absurd (isTold_opening _ h) id⟩

/-- Of an action that was tried, the outcome is kept where the execution settles as what it came
to. -/
theorem outcomeKept_finish {tried : Report N} {o : Option (Except (Thrown N) (Value N))}
    (h : Attempted tried o) {lock : Option (Except (Thrown N) Unit)} {labels : Labels}
    {r : Report N} (hr : r = finish lock
      ⟨opening x params ++ tried.doings ++ told p labels tried.result, tried.result⟩) :
    OutcomeKept r ↔ ∀ res, o = some res → r.result = res := by
  have hmem : ∀ d : Doing N, ¬ d.IsTold → (d ∈ r.doings ↔ d ∈ tried.doings) := by
    intro d hd
    have h1 : d ∉ opening x params := fun h => hd (isTold_opening d h)
    have h2 : d ∉ told p labels tried.result := fun h => hd (isTold_told d h)
    have h3 : d ∉ (.endSpan :: lock.toList.map .released : List (Doing N)) := by
      rw [List.mem_cons, List.mem_map, not_or]
      refine ⟨fun he => hd (he ▸ trivial), ?_⟩
      rintro ⟨_, -, rfl⟩
      exact hd trivial
    rw [hr, finish_doings]
    simp [h1, h2, h3]
  have hhandled : ∀ res, .handled res ∈ r.doings ↔ .handled res ∈ tried.doings :=
    fun res => hmem _ id
  have hinvalid : ∀ err, .validated (.error err) ∈ r.doings ↔
    .validated (.error err) ∈ tried.doings := fun err => hmem _ id
  constructor
  · rintro ⟨h1, h2⟩ res rfl
    cases h with
    | invalid err => exact h2 err ((hinvalid err).2 List.mem_cons_self)
    | handled res => exact h1 res ((hhandled res).2 (by simp))
  · intro ho
    exact ⟨fun res hm => ho res (h.of_handled ((hhandled res).1 hm)),
      fun err hm => ho _ (h.of_invalid ((hinvalid err).1 hm))⟩

def Doing.isStart : Doing N → Bool
  | .startSpan _ _ _ => true
  | _ => false

def Doing.isEnd : Doing N → Bool
  | .endSpan => true
  | _ => false

def Doing.observation : Doing N → Option Labels
  | .observeSeconds labels => some labels
  | _ => none

/-- An execution starts one span and ends it once, and makes one observation, of a success just
where it resolves. -/
structure Balanced (r : Report N) : Prop where
  started : r.doings.countP Doing.isStart = 1
  ended : r.doings.countP Doing.isEnd = 1
  observed : ∃ labels, r.doings.filterMap Doing.observation = [labels] ∧
    (labels.status = .successful ↔ ∃ v, r.result = .ok v)

theorem not_balanced_opening {res : Except (Thrown N) (Value N)} :
    ¬ Balanced ⟨opening x params, res⟩ := by
  intro h
  have hend : (opening x params).countP Doing.isEnd = 0 := by simp [opening, Doing.isEnd]
  exact absurd (hend.symm.trans h.ended) (by decide)

/-- Trying an action neither starts nor ends a span and observes nothing. -/
theorem Attempted.silent {r : Report N} {o : Option (Except (Thrown N) (Value N))}
    (h : Attempted r o) : r.doings.countP Doing.isStart = 0 ∧ r.doings.countP Doing.isEnd = 0 ∧
      r.doings.filterMap Doing.observation = [] := by
  cases h <;> exact ⟨rfl, rfl, rfl⟩

theorem told_observes {labels : Labels} (hs : labels.status = .successful)
    (res : Except (Thrown N) (Value N)) :
    (told p labels res).countP Doing.isStart = 0 ∧ (told p labels res).countP Doing.isEnd = 0 ∧
      ∃ labels', (told p labels res).filterMap Doing.observation = [labels'] ∧
        (labels'.status = .successful ↔ ∃ v, res = .ok v) := by
  rcases res with err | v
  · exact ⟨rfl, rfl, _, rfl, by simp⟩
  · exact ⟨rfl, rfl, _, rfl, by simp [hs]⟩

/-- An action that was tried is balanced where its execution resolves just if the action did. -/
theorem balanced_finish {tried : Report N} {o : Option (Except (Thrown N) (Value N))}
    (h : Attempted tried o) {lock : Option (Except (Thrown N) Unit)} {r : Report N}
    (hr : r = finish lock ⟨opening x params ++ tried.doings ++
      told p (defaultLabels x params) tried.result, tried.result⟩) :
    Balanced r ↔ ((∃ v, tried.result = .ok v) ↔ ∃ v, r.result = .ok v) := by
  obtain ⟨ht1, ht2, ht3⟩ := h.silent
  obtain ⟨hs1, hs2, labels, hs3, hs⟩ := told_observes (p := p)
    (rfl : (defaultLabels x params).status = .successful) tried.result
  have hdoings : r.doings = opening x params ++ tried.doings ++
      told p (defaultLabels x params) tried.result ++ .endSpan :: lock.toList.map .released := by
    rw [hr, finish_doings]
  have hstart : r.doings.countP Doing.isStart = 1 := by
    rw [hdoings, List.countP_append, List.countP_append, List.countP_append, ht1, hs1]
    rcases lock with _ | _ <;> rfl
  have hend : r.doings.countP Doing.isEnd = 1 := by
    rw [hdoings, List.countP_append, List.countP_append, List.countP_append, ht2, hs2]
    rcases lock with _ | _ <;> rfl
  have hobs : r.doings.filterMap Doing.observation = [labels] := by
    rw [hdoings, List.filterMap_append, List.filterMap_append, List.filterMap_append, ht3, hs3]
    rcases lock with _ | _ <;> rfl
  rw [← hs]
  constructor
  · rintro ⟨-, -, labels', hl, hiff⟩
    rw [hobs, List.cons.injEq] at hl
    rw [hl.1]
    exact hiff
  · exact fun hiff => ⟨hstart, hend, labels, hobs, hiff⟩

/-! ## Under the lock -/

open Steps

/-- A request that is not answered in time has a timeout. -/
def LateAnswers (x : Deps N) (action : AppAction N) (resource : JsString) : Prop :=
  ∀ lock, x.redlock = some lock →
    lock (action.name ++ js "." ++ resource) actionLockTtl action.tryLockTimeout = .late →
      action.tryLockTimeout.isSome

/-- The execution of an action, when it asks for its lock. -/
def locking (x : Deps N) (action : AppAction N) (resource : JsString) : Execution N :=
  .start x.redlock.isSome ⟨action.name, some resource, action.tryLockTimeout⟩

section Steps

variable {e : Execution N}

theorem runs_answer (hp : e.phase = .acquiring) (hq : e.request = .pending) (answer : LockAnswer N)
    (hlate : answer = .late → e.tryLockTimeout.isSome) :
    ∃ es t, Runs Execution.next e es t ∧ t.phase = .validating answer.release.isSome := by
  have hrefused : ∃ es t, Runs Execution.next e es t ∧ t.phase = .validating false := by
    refine ⟨[.refuse, .answer],
      { e with request := .refused, phase := .validating false }, ?_, rfl⟩
    simp [Runs, Execution.next, Execution.refuse, Execution.answer, hp, hq]
  rcases answer with release | err | _ | err
  case granted =>
    refine ⟨[.grant, .answer], { e with
      request := .granted
      held := true
      grantedInTime := true
      phase := .validating true }, ?_, rfl⟩
    simp [Runs, Execution.next, Execution.grant, Execution.answer, hp, hq, Phase.isAcquiring]
  case late =>
    obtain ⟨timeout, ht⟩ := Option.isSome_iff_exists.1 (hlate rfl)
    refine ⟨[.timeout], { e with phase := .validating false }, ?_, rfl⟩
    simp [Runs, Execution.next, Execution.timeout, hp, ht]
  all_goals exact hrefused

theorem runs_attempt {lock : Bool} (he : e.phase = .validating lock) {tried : Report N}
    {o : Option (Except (Thrown N) (Value N))} (h : Attempted tried o) :
    ∃ es t, Runs Execution.next e es t ∧ t.phase = .finishing lock tried.result := by
  have hfails : ∀ err : Thrown N, ∃ es t, Runs Execution.next e es t ∧
      t.phase = .finishing lock (.error err) := by
    intro err
    refine ⟨[.validate (.error err)], { e with phase := .finishing lock (.error err) }, ?_, rfl⟩
    simp [Runs, Execution.next, Execution.validate, he]
  cases h with
  | invalid err => exact hfails err
  | uncoded err => exact hfails err
  | handled res =>
    refine ⟨[.validate (.ok ()), .handle res], { e with phase := .finishing lock res }, ?_, rfl⟩
    simp [Runs, Execution.next, Execution.validate, Execution.handle, he]

theorem runs_finish {lock : Option (Except (Thrown N) Unit)} {r : Report N}
    (he : e.phase = .finishing lock.isSome r.result) :
    ∃ es t, Runs Execution.next e es t ∧ t.phase = .settled (finish lock r).result := by
  rcases lock with _ | released
  · refine ⟨[.finish], { e with phase := .settled r.result }, ?_, rfl⟩
    simp [Runs, Execution.next, Execution.finish, he]
  · refine ⟨[.finish, .released released],
      { e with phase := .settled (finish (some released) r).result, releases := e.releases + 1 },
      ?_, rfl⟩
    rcases released with err | _ <;>
      simp [Runs, Execution.next, Execution.finish, Execution.released, he, ActionExecutor.finish]

end Steps

/-- An execution comes to validate, with a lock where one is granted in time. -/
theorem runs_acquire {resource : JsString} (hlate : LateAnswers x action resource) :
    ∃ es t, Runs Execution.next (locking x action resource) es t ∧
      t.phase = .validating (acquire x action resource).isSome := by
  unfold locking acquire
  rcases hx : x.redlock with _ | lock
  · exact ⟨[], _, rfl, by simp [Execution.start]⟩
  dsimp only
  split_ifs with hr
  · refine runs_answer ?_ ?_ _ fun ha => ?_
    · simp [Execution.start, hr]
    · simp [Execution.start, hr]
    · exact hlate lock hx ha
  · exact ⟨[], _, rfl, by simp [Execution.start, hr]⟩

/-! ## Log data -/

theorem not_nullish_of_prop {v : Value N} {k : JsString} (h : ¬ (v.prop k).isNullish) :
    ¬ v.isNullish := by
  rcases v with _ | _ | _ | _ | _ | _ | _ | es | _
  case obj => simp [Value.isNullish]
  all_goals exact absurd rfl h

variable [JsNumber N]

/-- The log can show a session: one of a type that it knows has an owner with an id, which has a
text where the text is shown, and one of another type has a type that has a text. -/
def Loggable (x : Deps N) (session : Value N) : Prop :=
  match SessionType.cases.find? (isSessionType x (sessionTypeOf x session)) with
  | some t => ∀ o, t.sessionOwner = some o → ¬ (session.prop o.owner).isNullish ∧
      (o.asText → ¬ ((session.prop o.owner).prop o.id).isNullish ∧
        ((session.prop o.owner).prop o.id).toText ≠ none)
  | none => (sessionTypeOf x session).toText ≠ none

theorem toStringOf_map {α : Type} {v : Value N} {f : JsString → α} :
    (∃ a, (toStringOf v).map f = .ok a) ↔ v.toText ≠ none := by
  rw [toStringOf]
  rcases v.toText with _ | text <;> simp [throwNative, Except.map]

theorem loggedOwner_ok {o : SessionOwner} {session : Value N} :
    (∃ v, loggedOwner o session = .ok v) ↔ ¬ (session.prop o.owner).isNullish ∧
      (o.asText → ¬ ((session.prop o.owner).prop o.id).isNullish ∧
        ((session.prop o.owner).prop o.id).toText ≠ none) := by
  simp only [loggedOwner, bind_eq_ok, getProp_ok, and_assoc, exists_and_left, exists_eq_left]
  constructor
  · rintro ⟨-, hown, hid⟩
    refine ⟨hown, fun ha => ?_⟩
    rw [if_pos ha] at hid
    split_ifs at hid with hn
    · simp [throwNative] at hid
    · exact ⟨hn, toStringOf_map.1 hid⟩
  · rintro ⟨hown, hid⟩
    refine ⟨not_nullish_of_prop hown, hown, ?_⟩
    split_ifs with ha hn
    · exact absurd hn (hid ha).1
    · exact toStringOf_map.2 (hid ha).2
    · exact ⟨_, rfl⟩

theorem buildLogData_ok :
    (∃ logData, buildLogData x args = .ok logData) ↔ Loggable x args.session := by
  unfold buildLogData Loggable
  dsimp only
  rcases SessionType.cases.find? (isSessionType x (sessionTypeOf x args.session)) with _ | t
  · exact toStringOf_map
  · dsimp only
    rcases t.sessionOwner with _ | o
    · simp
    · simp only [Option.some.injEq, forall_eq', ← loggedOwner_ok]
      rcases loggedOwner o args.session with err | v <;> simp [Except.map]

/-! ## The action tried -/

/-- What the validation and the handler come to, where the service code lets the handler run. -/
def outcome (x : Deps N) (action : AppAction N) (logData : Value N) (args : Arguments N) :
    Option (Except (Thrown N) (Value N)) :=
  match x.validate args action.validationRules
    (if isSessionType x (args.session.prop (js "sessionType")) .partner then some x.operated
      else none) with
  | .error err => some (.error err)
  | .ok args =>
    match setServiceCode action args with
    | .error _ => none
    | .ok args =>
      some (action.handler ⟨x.prepareContext logData, args.session, args.headers⟩ args)

theorem attempt_attempted (logData : Value N) :
    Attempted (attempt x action logData args) (outcome x action logData args) := by
  unfold attempt outcome
  dsimp only
  rcases x.validate args action.validationRules _ with err | args
  · exact .invalid err
  · dsimp only
    rcases setServiceCode action args with err | args
    · exact .uncoded err
    · exact .handled _

/-! ## The whole execution -/

section Cases

variable {logData : Value N} {resource : JsString} {err : Thrown N}

theorem execute_unlogged (hl : buildLogData x params.actionArguments = .error err) :
    execute p x params = ⟨opening x params, .error err⟩ := by
  rw [execute, hl]

theorem execute_unlocked (hl : buildLogData x params.actionArguments = .ok logData)
    (hr : params.action.lockResource params.actionArguments = .error err) :
    execute p x params = ⟨opening x params, .error err⟩ := by
  rw [execute, hl]
  dsimp only
  rw [hr]

theorem execute_tried (hl : buildLogData x params.actionArguments = .ok logData)
    (hr : params.action.lockResource params.actionArguments = .ok resource) :
    execute p x params =
      let tried := attempt x params.action logData params.actionArguments
      finish (acquire x params.action resource)
        ⟨opening x params ++ tried.doings ++ told p (defaultLabels x params) tried.result,
          tried.result⟩ := by
  rw [execute, hl]
  dsimp only
  rw [hr]

end Cases

/-- An execution settles as its validation and its handler did, just where the release of its lock
does not fail, or fails with the error that they failed with. -/
theorem outcomeKept_iff (p : Packages N) (x : Deps N) (params : ExecuteActionParams N) :
    OutcomeKept (execute p x params) ↔
      ∀ logData, buildLogData x params.actionArguments = .ok logData →
      ∀ resource, params.action.lockResource params.actionArguments = .ok resource →
      ∀ err, acquire x params.action resource = some (.error err) →
      ∀ res, outcome x params.action logData params.actionArguments = some res →
        res = .error err := by
  rcases hl : buildLogData x params.actionArguments with err | logData
  · rw [execute_unlogged hl]
    exact iff_of_true outcomeKept_opening (by simp)
  rcases hr : params.action.lockResource params.actionArguments with err | resource
  · rw [execute_unlocked hl hr]
    exact iff_of_true outcomeKept_opening (by simp)
  have htried : Attempted (attempt x params.action logData params.actionArguments)
      (outcome x params.action logData params.actionArguments) := attempt_attempted logData
  simp only [Except.ok.injEq, forall_eq']
  rw [outcomeKept_finish htried (execute_tried hl hr), execute_tried hl hr]
  rcases acquire x params.action resource with _ | err | _
  · exact iff_of_true (fun res ho => (ho ▸ htried).result) (by simp)
  · simp [finish, eq_comm]
  · exact iff_of_true (fun res ho => (ho ▸ htried).result) (by simp)

/-- An executor whose `redlock` grants every lock, and how the release of one settles. -/
def granting (release : Except (Thrown ℤ) Unit) : Deps ℤ where
  systemServiceName := js "service"
  prepareContext := id
  validate args _ _ := .ok args
  redlock := some fun _ _ _ => .granted release
  sessionTypes
    | .user => js "User"
    | .none => js "None"
    | _ => js "Other"
  operated := js "Operated"
  grpc := js "grpc"

/-- An action under the lock of one resource, for a session. -/
def lockedParams (session : Value ℤ) : ExecuteActionParams ℤ where
  action :=
    ⟨js "act", none, .undefined, none, some fun _ => .ok (js "r"), none, fun _ _ => .ok .null⟩
  transport := js "grpc"
  sentFrom := none
  actionArguments := ⟨.obj [], session, .undefined⟩

/-- The lock of an action is gone before it is released: the handler has resolved, the execution
rejects. -/
theorem not_outcomeKept : ¬ ∀ (p : Packages ℤ) (x : Deps ℤ) (params : ExecuteActionParams ℤ),
    (∃ resource, params.action.lockResource params.actionArguments = .ok resource) →
    (∀ getServiceCode, params.action.getServiceCode = some getServiceCode →
      ∀ args, ∃ serviceCode, getServiceCode args = .ok serviceCode) →
    OutcomeKept (execute p x params) := by
  intro h
  have hk := h standIn (granting (throwNative .error (js "The lock has expired")))
    (lockedParams .undefined) ⟨_, rfl⟩ (fun _ hc => by cases hc)
  have hresult : (execute standIn (granting (throwNative .error (js "The lock has expired")))
      (lockedParams .undefined)).result = throwNative .error (js "The lock has expired") := rfl
  have hhandled := hk.handled (.ok .null) (.tail _ (.tail _ (.tail _ (.head _))))
  rw [hresult] at hhandled
  cases hhandled

/-- An execution is balanced just where the log can show the session, the resource of the lock does
not throw, and no lock fails to be released after the handler has resolved. -/
theorem balanced_iff (p : Packages N) (x : Deps N) (params : ExecuteActionParams N) :
    Balanced (execute p x params) ↔ Loggable x params.actionArguments.session ∧
      ∃ resource, params.action.lockResource params.actionArguments = .ok resource ∧
        ∀ err, acquire x params.action resource = some (.error err) →
        ∀ logData, buildLogData x params.actionArguments = .ok logData →
        ∀ v, outcome x params.action logData params.actionArguments ≠ some (.ok v) := by
  rw [← buildLogData_ok]
  rcases hl : buildLogData x params.actionArguments with err | logData
  · rw [execute_unlogged hl]
    exact iff_of_false not_balanced_opening (by simp)
  rcases hr : params.action.lockResource params.actionArguments with err | resource
  · rw [execute_unlocked hl hr]
    exact iff_of_false not_balanced_opening (by simp)
  have htried : Attempted (attempt x params.action logData params.actionArguments)
      (outcome x params.action logData params.actionArguments) := attempt_attempted logData
  simp only [Except.ok.injEq, exists_eq', true_and, exists_eq_left', forall_eq']
  rw [balanced_finish htried (execute_tried hl hr), execute_tried hl hr]
  rcases acquire x params.action resource with _ | err | _
  · exact iff_of_true Iff.rfl (by simp)
  · simp only [finish, Option.some.injEq, Except.error.injEq, forall_eq', reduceCtorEq,
      exists_false, iff_false, not_exists]
    exact forall_congr' fun v => not_congr htried.resolves
  · exact iff_of_true Iff.rfl (by simp)

/-- A session of a user that has no user leaves the span open and observes nothing. -/
theorem not_balanced :
    ¬ ∀ (p : Packages ℤ) (x : Deps ℤ) (params : ExecuteActionParams ℤ),
      Balanced (execute p x params) := by
  intro h
  have hb := h standIn (granting (.ok ()))
    (lockedParams (.obj [(js "sessionType", .str (js "User"))]))
  exact absurd hb.ended (by decide)

/-- An execution that comes to ask for its lock is a run of the steps of one. -/
theorem execute_runs {logData : Value N} {resource : JsString}
    (hl : buildLogData x params.actionArguments = .ok logData)
    (hr : params.action.lockResource params.actionArguments = .ok resource)
    (hlate : LateAnswers x params.action resource) :
    ∃ es e, Runs Execution.next (locking x params.action resource) es e ∧
      e.phase = .settled (execute p x params).result := by
  obtain ⟨es₁, e₁, h₁, hp₁⟩ := runs_acquire hlate
  have htried : Attempted (attempt x params.action logData params.actionArguments)
      (outcome x params.action logData params.actionArguments) := attempt_attempted logData
  obtain ⟨es₂, e₂, h₂, hp₂⟩ := runs_attempt hp₁ htried
  obtain ⟨es₃, e₃, h₃, hp₃⟩ : ∃ es t, Runs Execution.next e₂ es t ∧
      t.phase = .settled (execute p x params).result := by
    rw [execute_tried hl hr]
    exact runs_finish hp₂
  exact ⟨es₁ ++ (es₂ ++ es₃), e₃, runs_append.2 ⟨e₁, h₁, runs_append.2 ⟨e₂, h₂, h₃⟩⟩, hp₃⟩

end ActionExecutor

end DiiaApp
