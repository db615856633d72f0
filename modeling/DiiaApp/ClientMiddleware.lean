import DiiaApp.ErrorRelay
import DiiaApp.ExecuteAction
import DiiaApp.Generator
import DiiaApp.GrpcClient

/-!
# The middleware of the client

`GrpcClientFactory` wraps each call of a client in three generators: one that logs, within one that
writes the metadata of the call and tells the metrics and the span how it went, within one that
throws what `errorHandlerMiddleware` makes of an error. The call itself yields responses and tells
of headers and trailers that come; it runs in the context of its span (`bindAsyncGenerator`).
-/

namespace DiiaApp

open Js Generator
open ActionExecutor (RequestStatus)

/-- What a call tells of besides its answers: calls of `onHeader` and `onTrailer`. -/
inductive Callback
  | onHeader (header : Metadata)
  | onTrailer (trailer : Metadata)

/-- The labels of an observation on `totalTimerMetric`. -/
structure CallLabels where
  mechanism : JsString
  source : JsString
  route : JsString
  destination : Option JsString
  status : RequestStatus
  errorType : Option JsString
  statusCode : Option ℤ
  deriving DecidableEq

/-- What is done for a call of the client. -/
inductive CallDoing
  | log (text : JsString)
  | startSpan (name destinationServiceName : JsString)
  | setAttribute (key : JsString) (values : List JsString)
  | observeSeconds (labels : CallLabels)
  | recordException (message : JsString) (code : ℤ) (name : JsString)
  | setStatus (isOk : Bool) (message : Option JsString)
  | endSpan
  | callback (x : Callback)

/-- What a factory works with; `withSpan` is the active context with the span of the call. -/
structure GrpcClientFactory (κ N : Type) where
  systemServiceName : JsString
  /-- `RequestMechanism.Grpc` -/
  grpc : JsString
  rules : MetadataRules N
  withSpan : κ → κ

/-- A method of a service that is called. -/
structure CalledMethod where
  path : JsString
  destinationServiceName : JsString

namespace GrpcClientFactory

variable {κ N σ υ ρ : Type} (p : Packages N) [JsNumber N] (x : GrpcClientFactory κ N)
  (method : CalledMethod) (call : ClientCall N)

def loggingMiddleware :
    Wrapper κ (Option Metadata) (Option Metadata) Unit Callback CallDoing ρ (Thrown N) where
  enter _ metadata := (.ok ⟨id, (), metadata⟩, [.log (js "ACT OUT: " ++ method.path)])
  onEvent _ e := ((), [.callback e])
  onDone _ _ := [.log (js "ACT OUT RESULT: " ++ method.path)]
  onFail _ err := (err, [])
  onClose _ := []

/-- The attributes for the metadata of a request, those of the session left out. -/
def requestAttributes (metadata : Metadata) : List CallDoing :=
  metadata.entries.filterMap fun e =>
    if e.1 = js "session" ∨ e.2 = [] then none
    else some (.setAttribute (js "rpc.grpc.request.metadata." ++ e.1) e.2)

/-- The labels of a call that went well. -/
def successLabels (destination : Option JsString) : CallLabels where
  mechanism := x.grpc
  source := x.systemServiceName
  route := method.path
  destination := destination
  status := .successful
  errorType := none
  statusCode := some 0

def failureLabels (destination : Option JsString) (apiError : ApiError N) : CallLabels where
  mechanism := x.grpc
  source := x.systemServiceName
  route := method.path
  destination := destination
  status := .failed
  errorType := some apiError.type
  statusCode := some apiError.code

/-- The destination that a header names, or the one known before. -/
def destinationOf (destination : Option JsString) (header : Metadata) : Option JsString :=
  (nonEmpty (metadataProperty p header .handledBy)).or destination

def startCallSpan : CallDoing :=
  .startSpan (js "send " ++ method.path) method.destinationServiceName

/-- What the metrics and the span are told of a call that went well. -/
def toldSuccess (destination : Option JsString) : List CallDoing :=
  [.observeSeconds (x.successLabels method destination), .setStatus true none, .endSpan]

def toldFailure (destination : Option JsString) (err : Thrown N) : List CallDoing :=
  let apiError := handleError p err
  [.observeSeconds (x.failureLabels method destination apiError),
    .recordException apiError.message apiError.code apiError.name,
    .setStatus false (some apiError.message), .endSpan]

/-- The locals are the destination, once it is known. The caller's own `onHeader` is replaced. -/
def metadataMiddleware : Wrapper κ (Option Metadata) (Option Metadata) (Option JsString) CallDoing
    CallDoing ρ (Thrown N) where
  enter context metadata :=
    match setLogData x.rules call.logData (metadata.getD Js.Map.empty) with
    | (.error err, _) => (.error err, [])
    | (.ok (), written) =>
      match setAll x.rules (ownEntries p x.systemServiceName call) written with
      | (.error err, _) => (.error err, [startCallSpan method])
      | (.ok (), written) =>
        (.ok ⟨fun _ => x.withSpan context, none, some written⟩,
          startCallSpan method :: requestAttributes written)
  onEvent destination e :=
    match e with
    | .callback (.onHeader header) => (destinationOf p destination header, [])
    | e => (destination, [e])
  onDone destination _ := x.toldSuccess method destination
  onFail destination err := (err, x.toldFailure p method destination err)
  onClose _ := [.endSpan]

/-- What is thrown for an error of a call, and what is logged of it. -/
def handledFailure (trailer : Option Metadata) (err : Thrown N) : Thrown N × List CallDoing :=
  match DiiaApp.errorHandlerMiddleware p err trailer with
  | .ok handledError => (.api handledError, [.log (js "ACT OUT FAILED: " ++ method.path)])
  | .error err => (err, [])

/-- The local is the trailer, once it has come. -/
def errorHandlerMiddleware : Wrapper κ (Option Metadata) (Option Metadata) (Option Metadata)
    CallDoing CallDoing ρ (Thrown N) where
  enter _ metadata := (.ok ⟨id, none, metadata⟩, [])
  onEvent trailer e :=
    match e with
    | .callback (.onTrailer received) => (some received, [e])
    | e => (trailer, [e])
  onDone _ _ := []
  onFail := handledFailure p method
  onClose _ := []

/-- A call of a client: the middleware attached first is the innermost. -/
def clientCall (b : Body κ (Option Metadata) σ Callback υ ρ (Thrown N)) :=
  wrap (errorHandlerMiddleware p method)
    (wrap (x.metadataMiddleware p method call) (wrap (loggingMiddleware method) b))

end GrpcClientFactory

end DiiaApp
