import DiiaApp.ClientMiddleware

/-!
# What a client makes of a call

The three generators around a call relay its replies, so that a client gives the responses of the
call as they come, and for the error that the call ends with what `errorHandlerMiddleware` makes of
it with the last trailer (`clientCall_answers`). The span of a call is started and ended, and the
metrics are told of the call, as the call itself comes to its end (`clientCall_told`).
-/

namespace DiiaApp

open Js Generator

/-- What the span and the metrics are told of. -/
def CallDoing.isTold : CallDoing → Bool
  | .startSpan _ _ => true
  | .observeSeconds _ => true
  | .recordException _ _ _ => true
  | .setStatus _ _ => true
  | .endSpan => true
  | _ => false

/-- Neither a header nor a trailer. -/
def CallDoing.isQuiet : CallDoing → Bool
  | .callback _ => false
  | _ => true

namespace GrpcClientFactory

variable {κ N σ υ ρ : Type} (p : Packages N) [JsNumber N] (x : GrpcClientFactory κ N)
  (method : CalledMethod) (call : ClientCall N)

/-- The last trailer that a call tells of, after `trailer`. -/
def lastTrailer : Option Metadata → List Callback → Option Metadata
  | trailer, [] => trailer
  | _, .onTrailer received :: es => lastTrailer (some received) es
  | trailer, .onHeader _ :: es => lastTrailer trailer es

/-- The last destination that the headers of a call name, after `destination`. -/
def lastDestination : Option JsString → List Callback → Option JsString
  | destination, [] => destination
  | destination, .onTrailer _ :: es => lastDestination destination es
  | destination, .onHeader header :: es => lastDestination (destinationOf p destination header) es

/-- What the caller is told of the callbacks of a call: the trailers. -/
def passedOn (es : List Callback) : List CallDoing :=
  es.filterMap fun
    | .onTrailer received => some (.callback (.onTrailer received))
    | .onHeader _ => none

/-- The answers of a call, the error of its end replaced. -/
def handledAnswers : Option Metadata → List (Reply Callback υ ρ (Thrown N)) →
    List (Generator.Answer υ ρ (Thrown N))
  | _, [] => []
  | trailer, r :: rs =>
    let trailer := if r.ran then lastTrailer trailer r.events else trailer
    (match r.ran, r.answer with
      | true, .fail err => .fail (thrownBy (DiiaApp.errorHandlerMiddleware p err trailer))
      | _, answer => answer) :: handledAnswers trailer rs

/-- What they are told of the end of a call, nothing of one that is closed but that it is over. -/
def toldEnd (destination : Option JsString) (r : Reply Callback υ ρ (Thrown N)) :
    List CallDoing :=
  match r.answer with
  | .yield _ => []
  | .done _ => if r.request.isClose then [.endSpan] else x.toldSuccess method destination
  | .fail err => x.toldFailure p method destination err

variable {p x method call}

omit [JsNumber N] in
theorem through_logging :
    ∀ es : List Callback,
      (loggingMiddleware method : Wrapper κ _ _ _ _ _ ρ (Thrown N)).through () es
        = ((), es.map .callback)
  | [] => rfl
  | e :: es => by
    show (_, [CallDoing.callback e]
      ++ ((loggingMiddleware method : Wrapper κ _ _ _ _ _ ρ (Thrown N)).through () es).2) = _
    rw [through_logging es]
    rfl

theorem through_metadata :
    ∀ (es : List Callback) (destination : Option JsString),
      (x.metadataMiddleware p method call : Wrapper κ _ _ _ _ _ ρ _).through destination
          (es.map .callback)
        = (lastDestination p destination es, passedOn es)
  | [], _ => rfl
  | .onHeader header :: es, destination => through_metadata es (destinationOf p destination header)
  | .onTrailer received :: es, destination => by
    show (((x.metadataMiddleware p method call : Wrapper κ _ _ _ _ _ ρ _).through destination
        (es.map .callback)).1, [CallDoing.callback (.onTrailer received)]
      ++ ((x.metadataMiddleware p method call : Wrapper κ _ _ _ _ _ ρ _).through destination
        (es.map .callback)).2) = _
    rw [through_metadata es destination]
    rfl

theorem through_errorHandler :
    ∀ (es : List Callback) (trailer : Option Metadata),
      (errorHandlerMiddleware p method : Wrapper κ _ _ _ _ _ ρ _).through trailer (passedOn es)
        = (lastTrailer trailer es, passedOn es)
  | [], _ => rfl
  | .onHeader header :: es, trailer => through_errorHandler es trailer
  | .onTrailer received :: es, trailer => by
    show (((errorHandlerMiddleware p method : Wrapper κ _ _ _ _ _ ρ _).through (some received)
        (passedOn es)).1, [CallDoing.callback (.onTrailer received)]
      ++ ((errorHandlerMiddleware p method : Wrapper κ _ _ _ _ _ ρ _).through (some received)
        (passedOn es)).2) = _
    rw [through_errorHandler es (some received)]
    rfl

theorem through_metadata_quiet {told : List CallDoing} (h : ∀ e ∈ told, e.isQuiet)
    (destination : Option JsString) :
    (x.metadataMiddleware p method call : Wrapper κ _ _ _ _ _ ρ _).through destination told
      = (destination, told) := by
  refine Wrapper.through_eq_self fun e he => ?_
  have hquiet := h e he
  cases e with
  | callback => cases hquiet
  | _ => rfl

theorem through_errorHandler_quiet {told : List CallDoing} (h : ∀ e ∈ told, e.isQuiet)
    (trailer : Option Metadata) :
    (errorHandlerMiddleware p method : Wrapper κ _ _ _ _ _ ρ _).through trailer told
      = (trailer, told) := by
  refine Wrapper.through_eq_self fun e he => ?_
  have hquiet := h e he
  cases e with
  | callback => cases hquiet
  | _ => rfl

theorem through_metadata_append {es : List Callback} {told : List CallDoing}
    (h : ∀ e ∈ told, e.isQuiet) (destination : Option JsString) :
    (x.metadataMiddleware p method call : Wrapper κ _ _ _ _ _ ρ _).through destination
        (es.map .callback ++ told)
      = (lastDestination p destination es, passedOn es ++ told) := by
  rw [Wrapper.through_append, through_metadata, through_metadata_quiet h]

theorem through_errorHandler_append {es : List Callback} {told : List CallDoing}
    (h : ∀ e ∈ told, e.isQuiet) (trailer : Option Metadata) :
    (errorHandlerMiddleware p method : Wrapper κ _ _ _ _ _ ρ _).through trailer
        (passedOn es ++ told)
      = (lastTrailer trailer es, passedOn es ++ told) := by
  rw [Wrapper.through_append, through_errorHandler, through_errorHandler_quiet h]

variable (p x method call)

/-- The replies of a call as its client gives them, up to what precedes the first. -/
def relayed (trailer : Option Metadata) (destination : Option JsString)
    (rs : List (Reply Callback υ ρ (Thrown N))) : List (Reply CallDoing υ ρ (Thrown N)) :=
  (errorHandlerMiddleware p method : Wrapper κ _ _ _ _ _ ρ _).relay trailer
    ((x.metadataMiddleware p method call).relay destination
      ((loggingMiddleware method : Wrapper κ _ _ _ _ _ ρ _).relay () rs))

/-- What is logged of a call that ends well. -/
def loggedEnd (closing : Bool) : List CallDoing :=
  if closing then [] else [.log (js "ACT OUT RESULT: " ++ method.path)]

def toldDone (destination : Option JsString) (closing : Bool) : List CallDoing :=
  if closing then [.endSpan] else x.toldSuccess method destination

variable {p x method call} {trailer : Option Metadata} {destination : Option JsString}
  {request : Request ρ (Thrown N)} {es : List Callback}
  {rs : List (Reply Callback υ ρ (Thrown N))}

theorem relayed_yield {value : υ} :
    relayed p x method call trailer destination (⟨request, .yield value, es, true⟩ :: rs)
      = ⟨request, .yield value, passedOn es, true⟩
        :: relayed p x method call (lastTrailer trailer es) (lastDestination p destination es)
          rs := by
  simp only [relayed, Wrapper.relay, Wrapper.relayOne, if_true, through_logging,
    through_metadata, through_errorHandler]

theorem isQuiet_loggedEnd {closing : Bool} : ∀ e ∈ loggedEnd method closing, e.isQuiet := by
  unfold loggedEnd
  split_ifs <;> simp [CallDoing.isQuiet]

omit [JsNumber N] in
theorem isQuiet_toldDone {closing : Bool} :
    ∀ e ∈ x.toldDone method destination closing, e.isQuiet := by
  unfold toldDone
  split_ifs <;> simp [toldSuccess, CallDoing.isQuiet]

omit [JsNumber N] in
theorem isQuiet_toldFailure {err : Thrown N} :
    ∀ e ∈ x.toldFailure p method destination err, e.isQuiet := by
  simp [toldFailure, CallDoing.isQuiet]

theorem relayed_done {value : ρ} :
    relayed p x method call trailer destination (⟨request, .done value, es, true⟩ :: rs)
      = ⟨request, .done value, passedOn es ++ (loggedEnd method request.isClose
            ++ x.toldDone method (lastDestination p destination es) request.isClose), true⟩
        :: relayed p x method call (lastTrailer trailer es) (lastDestination p destination es)
          rs := by
  have hlog : (loggingMiddleware method : Wrapper κ _ _ _ _ _ ρ (Thrown N)).onEnd ()
      request.isClose value = loggedEnd method request.isClose := by
    cases request.isClose <;> rfl
  have htold : ∀ d, (x.metadataMiddleware p method call : Wrapper κ _ _ _ _ _ ρ _).onEnd d
      request.isClose value = x.toldDone method d request.isClose := fun d => by
    cases request.isClose <;> rfl
  have hnone : ∀ t, (errorHandlerMiddleware p method : Wrapper κ _ _ _ _ _ ρ _).onEnd t
      request.isClose value = [] := fun t => by
    cases request.isClose <;> rfl
  have hquiet : ∀ e ∈ loggedEnd method request.isClose
      ++ x.toldDone method (lastDestination p destination es) request.isClose, e.isQuiet := by
    intro e he
    rcases List.mem_append.1 he with h | h
    · exact isQuiet_loggedEnd e h
    · exact isQuiet_toldDone e h
  simp only [relayed, Wrapper.relay, Wrapper.relayOne, if_true, through_logging, hlog,
    through_metadata_append isQuiet_loggedEnd, htold, List.append_assoc,
    through_errorHandler_append hquiet, hnone, List.append_nil]

theorem relayed_fail {err : Thrown N} :
    relayed p x method call trailer destination (⟨request, .fail err, es, true⟩ :: rs)
      = ⟨request, .fail (handledFailure p method (lastTrailer trailer es) err).1,
          passedOn es ++ (x.toldFailure p method (lastDestination p destination es) err
            ++ (handledFailure p method (lastTrailer trailer es) err).2), true⟩
        :: relayed p x method call (lastTrailer trailer es) (lastDestination p destination es)
          rs := by
  have hlog : ∀ v, (loggingMiddleware method : Wrapper κ _ _ _ _ _ ρ (Thrown N)).onFail v err
      = (err, []) := fun _ => rfl
  have htold : ∀ d, (x.metadataMiddleware p method call : Wrapper κ _ _ _ _ _ ρ _).onFail d err
      = (err, x.toldFailure p method d err) := fun _ => rfl
  have hhandled : ∀ t, (errorHandlerMiddleware p method : Wrapper κ _ _ _ _ _ ρ _).onFail t err
      = handledFailure p method t err := fun _ => rfl
  simp only [relayed, Wrapper.relay, Wrapper.relayOne, if_true, through_logging, hlog,
    List.append_nil, through_metadata, htold, through_errorHandler_append isQuiet_toldFailure,
    hhandled, List.append_assoc]

theorem relayed_idle {answer : Generator.Answer υ ρ (Thrown N)} :
    relayed p x method call trailer destination (⟨request, answer, es, false⟩ :: rs)
      = ⟨request, answer, [], false⟩ :: relayed p x method call trailer destination rs := by
  simp only [relayed, Wrapper.relay, Wrapper.relayOne, Bool.false_eq_true, if_false]

theorem relayed_bare {undefined : ρ} (requests : List (κ × Request ρ (Thrown N))) :
    relayed (υ := υ) p x method call trailer destination
        (requests.map fun r => Body.bare undefined r.2)
      = requests.map fun r => Body.bare undefined r.2 := by
  simp only [relayed, Wrapper.relay_bare]

omit [JsNumber N] in
theorem handledFailure_thrown [JsNumber N] {err : Thrown N} :
    (handledFailure p method trailer err).1
      = thrownBy (DiiaApp.errorHandlerMiddleware p err trailer) := by
  unfold handledFailure
  rcases DiiaApp.errorHandlerMiddleware p err trailer with e | e <;> rfl

theorem relayed_answers :
    ∀ (rs : List (Reply Callback υ ρ (Thrown N))) (trailer : Option Metadata)
      (destination : Option JsString),
      (relayed p x method call trailer destination rs).map Reply.answer
        = handledAnswers p trailer rs
  | [], _, _ => rfl
  | ⟨request, .yield value, es, true⟩ :: rs, _, _ => by
    rw [relayed_yield, List.map_cons, relayed_answers rs]
    rfl
  | ⟨request, .done value, es, true⟩ :: rs, _, _ => by
    rw [relayed_done, List.map_cons, relayed_answers rs]
    rfl
  | ⟨request, .fail err, es, true⟩ :: rs, _, _ => by
    rw [relayed_fail, List.map_cons, relayed_answers rs, handledFailure_thrown]
    rfl
  | ⟨request, answer, es, false⟩ :: rs, _, _ => by
    rw [relayed_idle, List.map_cons, relayed_answers rs]
    rfl

theorem filter_passedOn : ∀ es : List Callback, (passedOn es).filter CallDoing.isTold = []
  | [] => rfl
  | .onHeader _ :: es => filter_passedOn es
  | .onTrailer _ :: es => filter_passedOn es

theorem filter_loggedEnd {closing : Bool} :
    (loggedEnd method closing).filter CallDoing.isTold = [] := by
  cases closing <;> rfl

omit [JsNumber N] in
theorem filter_toldDone {closing : Bool} :
    (x.toldDone method destination closing).filter CallDoing.isTold
      = x.toldDone method destination closing := by
  cases closing <;> rfl

theorem filter_handledFailure {err : Thrown N} :
    (handledFailure p method trailer err).2.filter CallDoing.isTold = [] := by
  unfold handledFailure
  rcases DiiaApp.errorHandlerMiddleware p err trailer with e | e <;> rfl

omit [JsNumber N] in
theorem lastDestination_append :
    ∀ (es fs : List Callback) (destination : Option JsString),
      lastDestination p destination (es ++ fs)
        = lastDestination p (lastDestination p destination es) fs
  | [], _, _ => rfl
  | .onHeader _ :: es, fs, _ => lastDestination_append es fs _
  | .onTrailer _ :: es, fs, destination => lastDestination_append es fs destination

variable {b : Body κ (Option Metadata) σ Callback υ ρ (Thrown N)} {undefined : ρ}

/-- What is told of a call is told of its end, with the destination known by then. -/
theorem filter_relayed :
    ∀ (requests : List (κ × Request ρ (Thrown N))) (phase : Generator.Phase (Option Metadata) σ)
      (trailer : Option Metadata) (destination : Option JsString),
      ((relayed p x method call trailer destination
          (b.replies undefined phase requests)).flatMap Reply.events).filter CallDoing.isTold
        = (ending (b.replies undefined phase requests)).elim [] (toldEnd p x method
            (lastDestination p destination
              ((b.replies undefined phase requests).flatMap Reply.events)))
  | [], _, _, _ => rfl
  | (c, request) :: requests, phase, trailer, destination => by
    rcases b.reply_cases undefined c phase request with hbare | hran
    · have hall : b.replies undefined phase ((c, request) :: requests)
          = ((c, request) :: requests).map fun r => Body.bare undefined r.2 := by
        simp only [Body.replies, hbare, Body.replies_finished, List.map_cons]
      rw [hall, relayed_bare, events_bare, ending_bare]
      rfl
    rcases hreply : b.reply undefined c phase request with ⟨⟨request, answer, es, ran⟩, phase'⟩
    rw [hreply] at hran
    cases hran
    cases answer with
    | yield value =>
      simp only [Body.replies, hreply]
      rw [relayed_yield, List.flatMap_cons, List.filter_append, filter_passedOn, List.nil_append,
        filter_relayed requests, List.flatMap_cons, lastDestination_append]
      rfl
    | done value =>
      rw [Body.replies_of_last hreply rfl, relayed_done, relayed_bare]
      simp only [List.flatMap_cons, events_bare, List.append_nil, List.filter_append,
        filter_passedOn, filter_loggedEnd, filter_toldDone, List.nil_append]
      cases request <;> rfl
    | fail err =>
      rw [Body.replies_of_last hreply rfl, relayed_fail, relayed_bare]
      simp only [List.flatMap_cons, events_bare, List.append_nil, List.filter_append,
        filter_passedOn, filter_handledFailure, List.nil_append]
      rfl

variable {metadata : Option Metadata} {c : κ}

/-- What the span is told of a call whose metadata cannot be written. -/
def startedSpan (x : GrpcClientFactory κ N) (method : CalledMethod)
    (call : ClientCall N) (metadata : Option Metadata) : List CallDoing :=
  match (setLogData x.rules call.logData (metadata.getD Js.Map.empty)).1 with
  | .ok () => [startCallSpan method]
  | .error _ => []

theorem enter_error {err : Thrown N} {written : Metadata}
    (h : writeMetadata p x.systemServiceName x.rules call (metadata.getD Js.Map.empty)
      = (.error err, written)) :
    (x.metadataMiddleware p method call : Wrapper κ _ _ _ _ _ ρ _).enter c metadata
      = (.error err, startedSpan x method call metadata) := by
  unfold writeMetadata at h
  simp only [metadataMiddleware, startedSpan]
  rcases hset : setLogData x.rules call.logData (metadata.getD Js.Map.empty) with ⟨err' | ⟨⟩, m⟩ <;>
    rw [hset] at h
  · cases h
    rfl
  · simp only at h ⊢
    rw [h]

theorem enter_ok {written : Metadata}
    (h : writeMetadata p x.systemServiceName x.rules call (metadata.getD Js.Map.empty)
      = (.ok (), written)) :
    (x.metadataMiddleware p method call : Wrapper κ _ _ _ _ _ ρ _).enter c metadata
      = (.ok ⟨fun _ => x.withSpan c, none, some written⟩,
          startCallSpan method :: requestAttributes written) := by
  unfold writeMetadata at h
  simp only [metadataMiddleware]
  rcases hset : setLogData x.rules call.logData (metadata.getD Js.Map.empty) with ⟨err' | ⟨⟩, m⟩ <;>
    rw [hset] at h
  · cases h
  · simp only at h ⊢
    rw [h]

/-- What is put out before the call itself is asked. -/
def preamble (method : CalledMethod) (written : Metadata) : List CallDoing :=
  startCallSpan method :: (requestAttributes written
    ++ [.log (js "ACT OUT: " ++ method.path)])

theorem isQuiet_preamble {written : Metadata} : ∀ e ∈ preamble method written, e.isQuiet := by
  intro e he
  simp only [preamble, List.mem_cons, List.mem_append, requestAttributes, List.mem_filterMap,
    List.not_mem_nil, or_false] at he
  rcases he with rfl | ⟨entry, -, hentry⟩ | rfl
  · rfl
  · split_ifs at hentry
    cases hentry
    rfl
  · rfl

theorem filter_preamble {written : Metadata} :
    (preamble method written).filter CallDoing.isTold = [startCallSpan method] := by
  have hattributes : (requestAttributes written).filter CallDoing.isTold = [] := by
    rw [List.filter_eq_nil_iff]
    intro e he
    obtain ⟨entry, -, hentry⟩ := List.mem_filterMap.1 he
    split_ifs at hentry
    cases hentry
    exact Bool.false_ne_true
  rw [preamble, List.filter_cons_of_pos rfl, List.filter_append, hattributes]
  rfl

theorem filter_startedSpan :
    (startedSpan x method call metadata).filter CallDoing.isTold
      = startedSpan x method call metadata := by
  unfold startedSpan
  split <;> rfl

/-- A call whose metadata is written is made, with that metadata and in the context of its span, and
its replies are relayed. -/
theorem replies_clientCall {written : Metadata}
    (h : writeMetadata p x.systemServiceName x.rules call (metadata.getD Js.Map.empty)
      = (.ok (), written)) (requests : List (κ × Request ρ (Thrown N))) :
    (clientCall p x method call b).replies undefined (.fresh metadata) ((c, .next) :: requests)
      = precede (preamble method written) (relayed p x method call none none
          (b.replies undefined (.fresh (some written))
            (within (fun _ => x.withSpan c) ((c, .next) :: requests)))) := by
  have hlog : (loggingMiddleware method : Wrapper κ _ _ _ _ _ ρ (Thrown N)).enter (x.withSpan c)
      (some written) = (.ok ⟨id, (), some written⟩, [.log (js "ACT OUT: " ++ method.path)]) := rfl
  have hhandler : (errorHandlerMiddleware p method : Wrapper κ _ _ _ _ _ ρ _).enter c metadata
      = (.ok ⟨id, none, metadata⟩, []) := rfl
  have hlogged : ∀ e ∈ [CallDoing.log (js "ACT OUT: " ++ method.path)], e.isQuiet :=
    List.forall_mem_singleton.2 rfl
  rw [clientCall, replies_wrap hhandler, within_id, replies_wrap (enter_ok h), within,
    List.map_cons, replies_wrap hlog, within_id,
    relay_precede (through_metadata_quiet hlogged none) (begins_relay begins_replies),
    precede_precede, precede_nil]
  exact relay_precede (through_errorHandler_quiet isQuiet_preamble none)
    (begins_relay (begins_relay begins_replies))

/-- A call whose metadata cannot be written is not made. -/
theorem replies_clientCall_error {err : Thrown N} {written : Metadata}
    (h : writeMetadata p x.systemServiceName x.rules call (metadata.getD Js.Map.empty)
      = (.error err, written)) (requests : List (κ × Request ρ (Thrown N))) :
    (clientCall p x method call b).replies undefined (.fresh metadata) ((c, .next) :: requests)
      = ⟨.next, .fail (handledFailure p method none err).1,
          startedSpan x method call metadata ++ (handledFailure p method none err).2, true⟩
        :: requests.map fun r => Body.bare undefined r.2 := by
  have hhandler : (errorHandlerMiddleware p method : Wrapper κ _ _ _ _ _ ρ _).enter c metadata
      = (.ok ⟨id, none, metadata⟩, []) := rfl
  have hquiet : ∀ e ∈ startedSpan x method call metadata, e.isQuiet := by
    unfold startedSpan
    split <;> simp [startCallSpan, CallDoing.isQuiet]
  have hhandled : ∀ t, (errorHandlerMiddleware p method : Wrapper κ _ _ _ _ _ ρ _).onFail t err
      = handledFailure p method t err := fun _ => rfl
  rw [clientCall, replies_wrap hhandler, within_id, replies_wrap_error (enter_error h),
    precede_nil, Wrapper.relay, Wrapper.relay_bare]
  simp only [Wrapper.relayOne, if_true, through_errorHandler_quiet hquiet, hhandled]

variable (p x method call b undefined)

/-- A client passes the responses of a call on as they come and asks the call for no more than it is
asked itself. Of an error that the call ends with it throws what `errorHandlerMiddleware` makes with
the trailer that has come, and so it does where the metadata cannot be written and the call is not
made. -/
theorem clientCall_answers (metadata : Option Metadata)
    (requests : List (κ × Request ρ (Thrown N))) :
    ((clientCall p x method call b).replies undefined (.fresh metadata) requests).map Reply.answer
      = match requests with
        | (c, .next) :: rest =>
          match writeMetadata p x.systemServiceName x.rules call
              (metadata.getD Js.Map.empty) with
          | (.ok (), written) =>
            handledAnswers p none (b.replies undefined (.fresh (some written))
              (requests.map fun r => (x.withSpan c, r.2)))
          | (.error err, _) =>
            .fail (thrownBy (DiiaApp.errorHandlerMiddleware p err none))
              :: rest.map fun r => (Body.bare undefined r.2 : Reply Callback υ ρ _).answer
        | _ => requests.map fun r => (Body.bare undefined r.2 : Reply Callback υ ρ _).answer := by
  have hbare : ∀ requests : List (κ × Request ρ (Thrown N)),
      (requests.map fun r => (Body.bare undefined r.2 : Reply CallDoing υ ρ _)).map Reply.answer
        = requests.map fun r => (Body.bare undefined r.2 : Reply Callback υ ρ _).answer := by
    intro requests
    rw [List.map_map]
    refine List.map_congr_left fun r _ => ?_
    rcases r with ⟨_, _ | _ | _⟩ <;> rfl
  rcases requests with _ | ⟨⟨c, request⟩, rest⟩
  · rfl
  · cases request with
    | next =>
      rcases hw : writeMetadata p x.systemServiceName x.rules call
        (metadata.getD Js.Map.empty) with ⟨err | ⟨⟩, written⟩
      · simp only [replies_clientCall_error hw, List.map_cons, hbare, handledFailure_thrown]
      · simp only [replies_clientCall hw]
        rw [map_precede (fun _ => rfl), relayed_answers]
        rfl
    | close value =>
      have hne : (Request.close value : Request ρ (Thrown N)) ≠ .next := nofun
      rw [Body.replies_closed hne, hbare]
    | raise err =>
      have hne : (Request.raise err : Request ρ (Thrown N)) ≠ .next := nofun
      rw [Body.replies_closed hne, hbare]

/-- The span of a call starts once and ends once with the call, and the metrics are told of the call
once, unless it is closed before its end: then the span ends and they are told nothing. A call whose
metadata cannot be written is told of to neither, but for its span where that has been started. -/
theorem clientCall_told (metadata : Option Metadata)
    (requests : List (κ × Request ρ (Thrown N))) :
    (((clientCall p x method call b).replies undefined (.fresh metadata) requests).flatMap
        Reply.events).filter CallDoing.isTold
      = match requests with
        | (c, .next) :: _ =>
          match writeMetadata p x.systemServiceName x.rules call
              (metadata.getD Js.Map.empty) with
          | (.ok (), written) =>
            let replies := b.replies undefined (.fresh (some written))
              (requests.map fun r => (x.withSpan c, r.2))
            startCallSpan method :: (ending replies).elim []
              (toldEnd p x method (lastDestination p none (replies.flatMap Reply.events)))
          | (.error _, _) => startedSpan x method call metadata
        | _ => [] := by
  rcases requests with _ | ⟨⟨c, request⟩, rest⟩
  · rfl
  · cases request with
    | next =>
      rcases hw : writeMetadata p x.systemServiceName x.rules call
        (metadata.getD Js.Map.empty) with ⟨err | ⟨⟩, written⟩
      · simp only [replies_clientCall_error hw, List.flatMap_cons, events_bare, List.append_nil,
          List.filter_append, filter_handledFailure, filter_startedSpan]
      · simp only [replies_clientCall hw]
        have hne : relayed p x method call none none
            (b.replies undefined (.fresh (some written))
              (within (fun _ => x.withSpan c) ((c, .next) :: rest))) ≠ [] :=
          List.cons_ne_nil _ _
        rw [events_precede hne, List.filter_append, filter_preamble, filter_relayed]
        rfl
    | close value =>
      have hne : (Request.close value : Request ρ (Thrown N)) ≠ .next := nofun
      rw [Body.replies_closed hne, events_bare, List.filter_nil]
    | raise err =>
      have hne : (Request.raise err : Request ρ (Thrown N)) ≠ .next := nofun
      rw [Body.replies_closed hne, events_bare, List.filter_nil]

end GrpcClientFactory

end DiiaApp
