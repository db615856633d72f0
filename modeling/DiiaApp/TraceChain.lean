import DiiaApp.GrpcClient
import DiiaApp.Steps

/-!
# Traces over several services

A call of another service starts a span and sends along where it stands in its trace: over gRPC in
the metadata of the call, over Moleculer in its `meta`. The called service reads that, and
`ActionExecutor.execute` starts its span either below what is active in the service already, where
that is of the same trace, or below the caller's span. What its handler calls comes below its span
in turn.

`OpenTelemetry` is known by what it writes for a span and what it reads back (`Telemetry`).
-/

namespace DiiaApp

open Js

/-- A lower-case hexadecimal digit. -/
def isHexDigit (u : CodeUnit) : Bool := isDigit u ∨ (97 ≤ u.toNat ∧ u.toNat ≤ 102)

/-- An id of `n` digits, not all of them zero. -/
def IsHexId (n : ℕ) (s : JsString) : Prop :=
  s.length = n ∧ (∀ u ∈ s, isHexDigit u) ∧ ∃ u ∈ s, u ≠ 48

instance (n : ℕ) (s : JsString) : Decidable (IsHexId n s) :=
  decidable_of_iff (s.length = n ∧ s.all isHexDigit ∧ s.any (· != 48)) (by simp [IsHexId])

abbrev TraceId := { s : JsString // IsHexId 32 s }

abbrev SpanId := { s : JsString // IsHexId 16 s }

structure SpanContext where
  traceId : TraceId
  spanId : SpanId
  deriving DecidableEq

/-- The span of a context, where there is one. -/
abbrev TraceContext := Option SpanContext

/-- What a span is started for; `entry` is `grpc start`, which has its place in no trace but that of
the context it is started in. -/
inductive SpanRole
  | send
  | entry
  | stream
  | onData
  | handle
  deriving DecidableEq

structure StartedSpan where
  role : SpanRole
  name : JsString
  context : SpanContext
  parent : TraceContext

structure Telemetry (N : Type) where
  /-- The `traceparent` and the `tracestate` that `propagation.inject` writes for a span. -/
  traceparent : SpanContext → JsString
  tracestate : SpanContext → Option JsString
  /-- `propagation.extract`, of a context and the two entries of a carrier. -/
  extract : TraceContext → Value N → Value N → TraceContext

/-- `tracer.startSpan`, `ids` being those of a root span: a child is in the trace of its parent. -/
def startSpan (role : SpanRole) (name : JsString) (ids : SpanContext) (parent : TraceContext) :
    StartedSpan :=
  ⟨role, name, ⟨(parent.map SpanContext.traceId).getD ids.traceId, ids.spanId⟩, parent⟩

def compareSpanContext (active custom : TraceContext) : TraceContext :=
  match custom with
  | some customSpanContext =>
    if active.map SpanContext.traceId = some customSpanContext.traceId then active else custom
  | none => active

/-- How an action of another service is reached. -/
inductive Transport
  | unary
  | stream
  | moleculer
  deriving DecidableEq

/-- A call from one service to an action of another: the caller's side, and what is active in the
called service when the call comes in. -/
structure Link (N : Type) where
  transport : Transport
  /-- The path of the method, or the name of the action with its version. -/
  callName : JsString
  /-- The `actionName` of `execute`. -/
  actionName : JsString
  systemServiceName : JsString
  metadata : Metadata
  logData : List (JsString × Value N)
  actVersions : List ActionVersion
  traceId : JsString
  active : TraceContext
  /-- Ids for the spans of the call. -/
  ids : SpanRole → SpanContext

namespace Telemetry

variable {N : Type} (t : Telemetry N)

def inject (span : SpanContext) : List (JsString × JsString) :=
  (js "traceparent", t.traceparent span)
    :: ((t.tracestate span).map fun text => (js "tracestate", text)).toList

section Calls

variable (p : Packages N) (rules : MetadataRules N) [JsNumber N]

/-- A property of the `tracing` of a Moleculer call. -/
def tracingValue (tracing : List (JsString × JsString)) (key : String) : Value N :=
  ((Js.Map.find (js key) tracing).map Value.str).getD .undefined

/-- The `traceparent` and the `tracestate` of the tracing metadata that reach the called action,
nothing where the call cannot be sent or its `tracing` cannot be read. -/
def carried (link : Link N) (send : SpanContext) : Option (Value N × Value N) :=
  let tracing := t.inject send
  match link.transport with
  | .moleculer => some (tracingValue tracing "traceparent", tracingValue tracing "tracestate")
  | _ => do
    let sent ← sentMetadata p link.systemServiceName rules ⟨0, link.logData, tracing⟩ link.metadata
    let headers := prepareActHeadersFromGrpcInput p sent link.actVersions link.traceId
    let tracing ← (parseTracing p headers).toOption
    let headers := headers.withTracing tracing
    return (headers.traceparent, headers.tracestate)

omit [JsNumber N] in
/-- The span that `execute` starts. -/
def handleSpan (link : Link N) (active : TraceContext) (carrier : Value N × Value N) :
    StartedSpan :=
  startSpan .handle (js "handle " ++ link.actionName) (link.ids .handle)
    (compareSpanContext active (t.extract active carrier.1 carrier.2))

/-- The spans of the called service, the last one that of `execute`. -/
def calledSpans (link : Link N) (carrier : Value N × Value N) : List StartedSpan × StartedSpan :=
  match link.transport with
  | .unary =>
    let entry := startSpan .entry (js "grpc start") (link.ids .entry) link.active
    ([entry], t.handleSpan link (some entry.context) carrier)
  | .stream =>
    let stream := startSpan .stream (js "grpc stream " ++ link.actionName) (link.ids .stream)
      (t.extract link.active carrier.1 carrier.2)
    let onData := startSpan .onData (js "onData " ++ link.actionName) (link.ids .onData)
      (some stream.context)
    ([stream, onData], t.handleSpan link (some onData.context) carrier)
  | .moleculer => ([], t.handleSpan link link.active carrier)

/-- The span active in the handler at the end of a chain, and the spans of the chain so far. -/
structure Traced where
  active : TraceContext
  spans : List StartedSpan

/-- One call more, nothing where it does not reach its action. -/
def callStep (s : Traced) (link : Link N) : Option Traced :=
  let send := startSpan .send (js "send " ++ link.callName) (link.ids .send) s.active
  (t.carried p rules link send.context).map fun carrier =>
    let called := t.calledSpans link carrier
    { active := some called.2.context
      spans := s.spans ++ send :: (called.1 ++ [called.2]) }

end Calls

end Telemetry

end DiiaApp
