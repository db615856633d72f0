import DiiaApp.ReflectionCall

/-!
# Which event settles a reflection call

Until an event settles the promise the timer runs and the call keeps what was received
(`FetchInv`), so that the first such event settles it, for good.
-/

namespace DiiaApp

open Js ReflectionCall Steps

variable {β : Type}

namespace ReflectionEvent

/-- The descriptors that come with an event. -/
def descriptors : ReflectionEvent β → List β
  | .data ⟨some descriptors, none⟩ => descriptors
  | _ => []

/-- An error response, an error, the end or the timer. -/
def settles : ReflectionEvent β → Bool
  | .data response => response.error_response.isSome
  | _ => true

end ReflectionEvent

/-- All descriptors that come with events. -/
def received (es : List (ReflectionEvent β)) : List β := es.flatMap ReflectionEvent.descriptors

theorem received_snoc (es : List (ReflectionEvent β)) (e : ReflectionEvent β) :
    received (es ++ [e]) = received es ++ e.descriptors := by
  simp [received]

namespace ReflectionRequest

variable (request : ReflectionRequest)

/-- What an event settles the promise with, where it does, after `descriptors` were received. -/
def outcome (descriptors : List β) : ReflectionEvent β → Option (Except NativeError (List β))
  | .data response =>
    response.error_response.map fun err => .error ⟨.error, errorMessage err⟩
  | .error err => some (.error err)
  | .end =>
    some (if descriptors = [] then .error ⟨.error, request.emptyMessage⟩ else .ok descriptors)
  | .timeout => some (.error ⟨.error, request.timeoutMessage⟩)

/-- The first event that settles the promise settles it with `result`. -/
def FirstSettled (es : List (ReflectionEvent β)) (result : Except NativeError (List β)) : Prop :=
  ∃ before e after, es = before ++ e :: after ∧ (∀ x ∈ before, x.settles = false) ∧
    request.outcome (received before) e = some result

variable {request}

variable (request) in
theorem outcome_isSome (descriptors : List β) (e : ReflectionEvent β) :
    (request.outcome descriptors e).isSome = e.settles := by
  cases e <;> simp [outcome, ReflectionEvent.settles]

theorem FirstSettled.append {es fs : List (ReflectionEvent β)}
    {result : Except NativeError (List β)} (h : request.FirstSettled es result) :
    request.FirstSettled (es ++ fs) result := by
  obtain ⟨before, e, after, rfl, hb, he⟩ := h
  exact ⟨before, e, after ++ fs, by simp, hb, he⟩

/-- One event leaves a promise that has settled, and else settles it with its outcome. -/
theorem fetchStep_promise {call next : ReflectionCall β} {e : ReflectionEvent β}
    (h : request.fetchStep call e = some next) :
    next.promise = call.promise.or (request.outcome call.fileDescriptors e) := by
  cases e with
  | data response =>
    obtain rfl := Option.some.inj h
    rcases response with ⟨_ | descriptors, _ | err⟩ <;>
      simp [onData, outcome, rejectWith, settle, clearTimeout, endCall]
  | error err =>
    obtain rfl := Option.some.inj h
    simp [onError, outcome, settle, clearTimeout]
  | «end» =>
    obtain rfl := Option.some.inj h
    by_cases hd : call.fileDescriptors = [] <;>
      simp [onEnd, outcome, rejectWith, settle, clearTimeout, hd]
  | timeout =>
    simp only [fetchStep] at h
    split_ifs at h
    obtain rfl := Option.some.inj h
    simp [onTimeout, outcome, rejectWith, settle, endCall]

/-- One event keeps what came before it, and the timer where it settles nothing. -/
theorem fetchStep_keeps {call next : ReflectionCall β} {e : ReflectionEvent β}
    (h : request.fetchStep call e = some next) :
    next.fileDescriptors = call.fileDescriptors ++ e.descriptors ∧
      (e.settles = false → next.timeout = call.timeout) := by
  cases e with
  | data response =>
    obtain rfl := Option.some.inj h
    rcases response with ⟨_ | descriptors, _ | err⟩ <;>
      simp [onData, ReflectionEvent.descriptors, ReflectionEvent.settles, rejectWith, settle,
        clearTimeout, endCall]
  | error err =>
    obtain rfl := Option.some.inj h
    simp [onError, ReflectionEvent.descriptors, ReflectionEvent.settles, settle, clearTimeout]
  | «end» =>
    obtain rfl := Option.some.inj h
    by_cases hd : call.fileDescriptors = [] <;>
      simp [onEnd, ReflectionEvent.descriptors, ReflectionEvent.settles, rejectWith, settle,
        clearTimeout, hd]
  | timeout =>
    simp only [fetchStep] at h
    split_ifs at h
    obtain rfl := Option.some.inj h
    simp [onTimeout, ReflectionEvent.descriptors, ReflectionEvent.settles, rejectWith, settle,
      endCall]

variable (request) in
/-- What events have made of a call: while nothing has settled its promise, the timer runs and no
event was one that settles; what settled it was the first such event. -/
structure FetchInv (es : List (ReflectionEvent β)) (call : ReflectionCall β) : Prop where
  fileDescriptors : call.fileDescriptors = received es
  pending : call.promise = none → call.timeout = true ∧ ∀ x ∈ es, x.settles = false
  settled : ∀ result, call.promise = some result → request.FirstSettled es result

theorem FetchInv.step {es : List (ReflectionEvent β)} {call next : ReflectionCall β}
    {e : ReflectionEvent β} (hi : request.FetchInv es call)
    (h : request.fetchStep call e = some next) : request.FetchInv (es ++ [e]) next := by
  have hp := fetchStep_promise h
  obtain ⟨hd, ht⟩ := fetchStep_keeps h
  refine ⟨by rw [hd, hi.fileDescriptors, received_snoc], fun hn => ?_, fun result hr => ?_⟩
  · rw [hp, Option.or_eq_none_iff] at hn
    obtain ⟨htimeout, hes⟩ := hi.pending hn.1
    have he : e.settles = false := by rw [← outcome_isSome request, hn.2]; rfl
    refine ⟨(ht he).trans htimeout, ?_⟩
    simp only [List.forall_mem_append, List.forall_mem_singleton]
    exact ⟨hes, he⟩
  · rw [hp] at hr
    rcases hc : call.promise with _ | r
    · rw [hc, Option.none_or, hi.fileDescriptors] at hr
      exact ⟨es, e, [], rfl, (hi.pending hc).2, hr⟩
    · rw [hc, Option.some_or] at hr
      obtain rfl := Option.some.inj hr
      exact (hi.settled r hc).append

theorem fetch_inv {es : List (ReflectionEvent β)} {call : ReflectionCall β}
    (h : Runs request.fetchStep start es call) : request.FetchInv es call := by
  refine Runs.hist request.FetchInv ?_ (fun es s e t _ hi ht => hi.step ht) h
  exact ⟨rfl, fun _ => ⟨rfl, by simp⟩, fun _ hr => nomatch hr⟩

/-- No later event changes a promise that has settled. -/
theorem promise_stays {fs : List (ReflectionEvent β)} {call later : ReflectionCall β}
    {result : Except NativeError (List β)} (hc : call.promise = some result)
    (h : Runs request.fetchStep call fs later) : later.promise = some result := by
  refine Runs.inv (fun call => call.promise = some result) hc (fun s e t hs ht => ?_) h
  rw [fetchStep_promise ht, hs, Option.some_or]

/-- Only one event can settle a promise first. -/
theorem FirstSettled.unique {es : List (ReflectionEvent β)}
    {result result' : Except NativeError (List β)} (h : request.FirstSettled es result)
    (h' : request.FirstSettled es result') : result = result' := by
  obtain ⟨before, e, after, rfl, hb, he⟩ := h
  obtain ⟨before', e', after', heq, hb', he'⟩ := h'
  have hs : e.settles = true := by
    rw [← outcome_isSome request (received before), he]
    rfl
  have hs' : e'.settles = true := by
    rw [← outcome_isSome request (received before'), he']
    rfl
  rcases List.append_eq_append_iff.1 heq with ⟨m, rfl, hm⟩ | ⟨m, rfl, hm⟩
  · rcases m with _ | ⟨x, m⟩
    · obtain ⟨rfl, -⟩ := List.cons.inj hm
      rw [List.append_nil] at he'
      exact Option.some.inj (he.symm.trans he')
    · obtain ⟨rfl, -⟩ := List.cons.inj hm
      simp [hb' e (by simp)] at hs
  · rcases m with _ | ⟨x, m⟩
    · obtain ⟨rfl, -⟩ := List.cons.inj hm
      rw [List.append_nil] at he
      exact Option.some.inj (he.symm.trans he')
    · obtain ⟨rfl, -⟩ := List.cons.inj hm
      simp [hb e' (by simp)] at hs'

/-- A promise is kept with what was received before an end that nothing else came before. -/
theorem FirstSettled.ok {es : List (ReflectionEvent β)} {descriptors : List β}
    (h : request.FirstSettled es (.ok descriptors)) :
    ∃ before after, es = before ++ .end :: after ∧ descriptors = received before ∧
      descriptors ≠ [] ∧ ∀ x ∈ before, x.settles = false := by
  obtain ⟨before, e, after, rfl, hb, he⟩ := h
  cases e with
  | data response => simp [outcome] at he
  | error err => simp [outcome] at he
  | timeout => simp [outcome] at he
  | «end» =>
    rw [outcome, Option.some.injEq] at he
    split_ifs at he with hd
    obtain rfl := Except.ok.inj he
    exact ⟨before, after, rfl, rfl, hd, hb⟩

/-- After any events the promise has settled as the first of them that settles it says, and will
stay so, or the timer runs; and it has resolved only with all that came before the end, which is
something, with no error response, error or timeout before. -/
theorem fetchFileDescriptors_settles {es : List (ReflectionEvent β)} {call : ReflectionCall β}
    (h : Runs request.fetchStep start es call) :
    (∀ result, call.promise = some result ↔ request.FirstSettled es result) ∧
      (∀ result fs later, call.promise = some result → Runs request.fetchStep call fs later →
        later.promise = some result) ∧
      (call.promise.isSome ∨ call.timeout) ∧
      ∀ descriptors, call.promise = some (.ok descriptors) →
        ∃ before after, es = before ++ .end :: after ∧ descriptors = received before ∧
          descriptors ≠ [] ∧ ∀ x ∈ before, x.settles = false := by
  have hi := fetch_inv h
  refine ⟨fun result => ⟨hi.settled result, fun hf => ?_⟩,
    fun result fs later hc hr => promise_stays hc hr, ?_,
    fun descriptors hd => (hi.settled _ hd).ok⟩
  · rcases hc : call.promise with _ | r
    · obtain ⟨before, e, after, rfl, -, he⟩ := hf
      have hs := (hi.pending hc).2 e (by simp)
      rw [← outcome_isSome request (received before), he] at hs
      simp at hs
    · rw [(hi.settled r hc).unique hf]
  · rcases hc : call.promise with _ | r
    · exact .inr (hi.pending hc).1
    · exact .inl rfl

/-- The files of a symbol in two responses, and an error too late. -/
def lateError : List (ReflectionEvent ℕ) :=
  [.data ⟨some [1, 2], none⟩, .data ⟨none, none⟩, .data ⟨some [3], none⟩, .end,
    .error ⟨.error, js "cancelled"⟩]

theorem fetchFileDescriptors_settles_lateError :
    ∃ call, Runs (fetchStep ⟨js "app.Orders", 5000⟩) start lateError call ∧
      call.promise = some (.ok [1, 2, 3]) ∧ (call.promise.isSome ∨ call.timeout) := by
  refine ⟨⟨[1, 2, 3], false, true, some (.ok [1, 2, 3])⟩, rfl, rfl, ?_⟩
  have h : Runs (fetchStep ⟨js "app.Orders", 5000⟩) start lateError _ := rfl
  exact (fetchFileDescriptors_settles h).2.2.1

end ReflectionRequest

end DiiaApp
