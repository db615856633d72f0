import DiiaApp.RpcError
import DiiaApp.StreamAction
import DiiaApp.Steps
import Mathlib.Logic.Function.Basic

/-!
# Streams of the gRPC service

The state of a service with its stream calls: what was sent on each call, the actions in flight on
it, the calls in `streamConnections` and the state of the action. The handler of a stream call runs
to its end without a pause (`openStream`), and so does each listener and each continuation of an
action, so a run is a sequence of these.

An action in flight carries what it will settle with. The hooks of an action are known by what they
publish and whether they throw; what `onConnectionClosed` publishes comes as events after the close.
-/

namespace DiiaApp

open Js

/-- What the server sends on a stream. -/
inductive Sent (N : Type)
  | write (data : Value N)
  | end
  | error (err : ServerErrorResponse)

/-- An action started by a message: whether streams end on an error of theirs, and what it settles
with. -/
structure InFlight (N : Type) where
  endOnError : Bool
  outcome : Except (Thrown N) (Value N)

structure Call (N : Type) where
  streamId : JsString
  mobileUid : Option JsString
  /-- The listeners of the service are attached. -/
  listening : Bool
  inFlight : List (InFlight N)
  sent : List (Sent N)

structure Server (σ N : Type) where
  calls : CallRef → Call N
  opened : ℕ
  streamConnections : Js.Map JsString CallRef
  action : σ

/-- A new stream call, with what its hook and the action on its request do. -/
structure Opening (N : Type) where
  streamId : JsString
  traceId : JsString
  metadata : Metadata
  request : Value N
  hookPublishes : List (Publication N)
  hookThrows : Option (Thrown N)
  onRequest : InFlight N

variable {σ N : Type}

/-- The server has called `end` on the stream. -/
def Call.Ended (c : Call N) : Prop := Sent.end ∈ c.sent

namespace Server

def update (s : Server σ N) (c : CallRef) (f : Call N → Call N) : Server σ N :=
  { s with calls := Function.update s.calls c (f (s.calls c)) }

def send (s : Server σ N) (c : CallRef) (x : Sent N) : Server σ N :=
  s.update c fun call => { call with sent := call.sent ++ [x] }

/-- The writes of a publication. -/
def sendAll (s : Server σ N) (writes : List (CallRef × Value N)) : Server σ N :=
  writes.foldl (fun s w => s.send w.1 (.write w.2)) s

end Server

section Open

variable (p : Packages N)

/-- The connection of a stream id that an error names. -/
def connectionOf (s : Server σ N) : Value N → Option (JsString × CallRef)
  | .str streamId => (s.streamConnections.get streamId).map fun c => (streamId, c)
  | _ => none

/-- What `for (const x of v ?? [])` goes through. -/
def iterate : Value N → Except (Thrown N) (List (Value N))
  | .undefined => .ok []
  | .null => .ok []
  | .arr xs => .ok xs
  | .str s => .ok ((codePoints s).map fun cp => .str (utf16 cp))
  | _ => throwNative .typeError (js "subscriptions is not iterable")

/-- The streams an error names are unsubscribed and ended. -/
def closeExisting (a : StreamAction σ N) (mobileUid : JsString) :
    List (Value N) → Server σ N → Except (Thrown N) Unit × Server σ N
  | [], s => (.ok (), s)
  | id :: ids, s =>
    match connectionOf s id with
    | none => closeExisting a mobileUid ids s
    | some (streamId, connection) =>
      match a.unsubscribeChannel with
      | none => (throwNative .typeError (js "unsubscribeChannel is not a function"), s)
      | some unsubscribe =>
        match unsubscribe ⟨mobileUid, streamId⟩ s.action with
        | (.error err, st) => (.error err, { s with action := st })
        | (.ok (), st) =>
          closeExisting a mobileUid ids ({ s with action := st }.send connection .end)

variable [JsNumber N]

/-- The error of a failed subscription handled: the streams in its way are closed and the
subscription made again, or the call is ended. -/
def resubscribe (a : StreamAction σ N) (subscribe : σ → Except (Thrown N) Unit × σ)
    (mobileUid : JsString) (c : CallRef) (error : ApiError N) (s : Server σ N) :
    Except (Thrown N) Unit × Server σ N :=
  if error.code = subscriptionsExists then
    match (getProp error.data (js "subscriptions")).bind iterate with
    | .error err => (.error err, s)
    | .ok ids =>
      match closeExisting a mobileUid ids s with
      | (.error err, s') => (.error err, s')
      | (.ok (), s') =>
        let (result, st) := subscribe s'.action
        (result, { s' with action := st })
  else (.ok (), s.send c .end)

def subscribeStream (a : StreamAction σ N) (mobileUid : Option JsString) (streamId : JsString)
    (c : CallRef) (s : Server σ N) : Except (Thrown N) Unit × Server σ N :=
  match a.subscribeChannel, nonEmpty mobileUid with
  | some subscribeChannel, some mobileUid =>
    let subscribe := subscribeChannel ⟨mobileUid, streamId⟩ c
    match subscribe s.action with
    | (.ok (), st) => (.ok (), { s with action := st })
    | (.error err, st) =>
      resubscribe a subscribe mobileUid c (handleError p err) { s with action := st }
  | _, _ => (.ok (), s)

/-- A publication of the action. -/
def publish (a : StreamAction σ N) (s : Server σ N) (x : Publication N) : Server σ N :=
  s.sendAll (a.published x s.action)

/-- The hook of a new connection, the call being ended where it throws. -/
def connectionOpened (a : StreamAction σ N) (o : Opening N) (c : CallRef) (s : Server σ N) :
    Server σ N :=
  if a.hasOnConnectionOpened then
    let s := o.hookPublishes.foldl (publish a) s
    if o.hookThrows.isSome then s.send c .end else s
  else s

/-- A message received: its action is started. -/
def startAction (s : Server σ N) (c : CallRef) (x : InFlight N) : Server σ N :=
  s.update c fun call => { call with inFlight := call.inFlight ++ [x] }

/-- The listeners attached and the request, where there is one, taken as the first message. -/
def attachListeners (o : Opening N) (c : CallRef) (s : Server σ N) : Server σ N :=
  let s := s.update c fun call => { call with listening := true }
  if o.request.truthy then startAction s c o.onRequest else s

/-- The headers and the action of a new call, before anything is registered. -/
def setupStream (actions : Js.Map ActionVersion (StreamAction σ N)) (o : Opening N) :
    Except (Thrown N) (ActHeaders N × StreamAction σ N) := do
  let metadata := o.metadata.set (p.grpcMetadataKeys .streamId) [o.streamId]
  let headers := prepareActHeadersFromGrpcInput p metadata actions.keys o.traceId
  let action ← getActionInstance p (·.actionVersion)
    ((nonEmpty headers.actionVersion).getD v1) actions
  let tracing ← parseTracing p headers
  return (headers.withTracing tracing, action)

/-- A new call, opened from the device `mobileUid`. -/
def accept (s : Server σ N) (o : Opening N) (mobileUid : Option JsString) : Server σ N :=
  { s with
    calls := Function.update s.calls s.opened ⟨o.streamId, mobileUid, false, [], []⟩
    opened := s.opened + 1 }

/-- A new call registered in `streamConnections`. -/
def register (s : Server σ N) (o : Opening N) (mobileUid : Option JsString) : Server σ N :=
  { accept s o mobileUid with
    streamConnections := s.streamConnections.set o.streamId s.opened }

/-- The handler of a stream call, and whether it throws. -/
def openStream (actions : Js.Map ActionVersion (StreamAction σ N)) (s : Server σ N)
    (o : Opening N) : Except (Thrown N) Unit × Server σ N :=
  match setupStream p actions o with
  | .error err => (.error err, accept s o none)
  | .ok (headers, a) =>
    match subscribeStream p a headers.mobileUid o.streamId s.opened
        (register s o headers.mobileUid) with
    | (.error err, s') => (.error err, s')
    | (.ok (), s') =>
      (.ok (), attachListeners o s.opened (connectionOpened a o s.opened s'))

/-- What the service sends for an error of an action. -/
def sendError (endOnError : Bool) (err : Thrown N) : List (Sent N) :=
  if endOnError then
    match prepareServerErrorResponse p (handleError p err) with
    | .ok rpcError => [.error rpcError]
    | .error _ => []
  else []

/-- What the service sends once an action in flight has settled. -/
def settleAction (x : InFlight N) : List (Sent N) :=
  match x.outcome with
  | .ok response =>
    let error := response.prop (js "error")
    if response.hasProp (js "error") ∧ error.truthy ∧ x.endOnError then
      let errorMessage := match error with
        | .str message => message
        | _ => js "Internal server error"
      match prepareServerErrorResponse p (p.newApiError errorMessage 500 (.obj []) .undefined) with
      | .ok rpcError => [.error rpcError]
      | .error err => sendError p x.endOnError err
    else if response.truthy then [.write response]
    else []
  | .error err => sendError p x.endOnError err

/-- The `i`-th action in flight settles. -/
def settle (s : Server σ N) (c : CallRef) (i : ℕ) (x : InFlight N) : Server σ N :=
  s.update c fun call =>
    { call with inFlight := call.inFlight.eraseIdx i, sent := call.sent ++ settleAction p x }

/-- The `close` listener. -/
def closeStream (a : StreamAction σ N) (s : Server σ N) (c : CallRef) : Server σ N :=
  let call := s.calls c
  match a.unsubscribeChannel, nonEmpty call.mobileUid with
  | some unsubscribe, some mobileUid =>
    match unsubscribe ⟨mobileUid, call.streamId⟩ s.action with
    | (.error _, st) => { s with action := st }
    | (.ok (), st) =>
      { s with action := st, streamConnections := s.streamConnections.delete call.streamId }
  | _, _ => { s with streamConnections := s.streamConnections.delete call.streamId }

def onDestroy (s : Server σ N) : Server σ N :=
  { s.streamConnections.values.foldl (fun s c => s.send c .end) s with
    streamConnections := Js.Map.empty }

end Open

inductive StreamEvent (N : Type)
  | open (o : Opening N)
  | data (c : CallRef) (x : InFlight N)
  | settled (c : CallRef) (i : ℕ)
  | halfClose (c : CallRef)
  | close (c : CallRef)
  | publish (x : Publication N)
  | destroy

variable (p : Packages N) [JsNumber N]

/-- The actions `provideAppActions` makes of one action. -/
def soleAction (a : StreamAction σ N) : Js.Map ActionVersion (StreamAction σ N) :=
  Js.Map.empty.set (a.actionVersion.getD v1) a

/-- The device a call to the one action `a` is opened from, where its setup does not throw. -/
def openedFrom (a : StreamAction σ N) (o : Opening N) : Option JsString :=
  match setupStream p (soleAction a) o with
  | .ok (headers, _) => nonEmpty headers.mobileUid
  | .error _ => none

/-- One event of a service with the one action `a`. A stream id is used once, and only a call whose
listeners are attached has events. -/
def streamStep (a : StreamAction σ N) (s : Server σ N) : StreamEvent N → Option (Server σ N)
  | .open o =>
    if ∀ c < s.opened, (s.calls c).streamId ≠ o.streamId then
      some (openStream p (soleAction a) s o).2
    else none
  | .data c x =>
    if c < s.opened ∧ (s.calls c).listening then some (startAction s c x) else none
  | .settled c i =>
    if c < s.opened then (s.calls c).inFlight[i]?.map fun x => settle p s c i x else none
  | .halfClose c =>
    if c < s.opened ∧ (s.calls c).listening then some (s.send c .end) else none
  | .close c =>
    if c < s.opened ∧ (s.calls c).listening then some (closeStream a s c) else none
  | .publish x => some (publish a s x)
  | .destroy => some (onDestroy s)

/-- What the service has the action do for a call. -/
inductive Work (N : Type)
  | onConnectionOpened
  | message (x : InFlight N)

/-- The work for a new call, none where its setup or its subscription throws. -/
def openWork (actions : Js.Map ActionVersion (StreamAction σ N)) (s : Server σ N)
    (o : Opening N) : List (Work N) :=
  match setupStream p actions o with
  | .error _ => []
  | .ok (headers, a) =>
    match (subscribeStream p a headers.mobileUid o.streamId s.opened
        (register s o headers.mobileUid)).1 with
    | .error _ => []
    | .ok () => (if a.hasOnConnectionOpened then [.onConnectionOpened] else []) ++
        if o.request.truthy then [.message o.onRequest] else []

def stepWork (a : StreamAction σ N) (s : Server σ N) : StreamEvent N → List (CallRef × Work N)
  | .open o => (openWork p (soleAction a) s o).map fun w => (s.opened, w)
  | .data c x => [(c, .message x)]
  | _ => []

/-- The work of a run, for all its calls. -/
def runWork (a : StreamAction σ N) : Server σ N → List (StreamEvent N) → List (CallRef × Work N)
  | _, [] => []
  | s, e :: es => stepWork p a s e ++ (streamStep p a s e).elim [] fun t => runWork a t es

/-- A service no stream has been opened on. -/
def Server.start (st : σ) : Server σ N where
  calls := fun _ => ⟨[], none, false, [], []⟩
  opened := 0
  streamConnections := Js.Map.empty
  action := st

end DiiaApp
