import DiiaApp.Errors

/-!
# Stream actions

A stream action as `GrpcService` sees it, and `GrpcServerStreamAction`: for each device the streams
subscribed to its channel, each with the handler that writes to it. A handler is known by the call
it writes to. Which second connection of a device is let in is the action's
`DeviceMultipleConnectionPolicy`.
-/

namespace DiiaApp

open Js

/-- A call, by the place it was opened at. -/
abbrev CallRef := ℕ

structure StreamKey where
  mobileUid : JsString
  streamId : JsString
  deriving DecidableEq

/-- What code of the action publishes. -/
inductive Publication (N : Type)
  | publishToChannel (mobileUid : JsString) (data : Value N)
  | broadcast (data : Value N)

/-- An action with state `σ` behind a stream method, the methods it may lack optional. A method that
throws may have changed the state before. -/
structure StreamAction (σ N : Type) where
  actionVersion : Option JsString
  subscribeChannel : Option (StreamKey → CallRef → σ → Except (Thrown N) Unit × σ)
  unsubscribeChannel : Option (StreamKey → σ → Except (Thrown N) Unit × σ)
  hasOnConnectionOpened : Bool
  /-- The handlers a publication calls in turn, and what with. -/
  published : Publication N → σ → List (CallRef × Value N)

inductive DeviceMultipleConnectionPolicy
  | allowMultipleConnections
  | forbidRejectNewConnection
  | forbidClosePreviousConnection
  deriving DecidableEq

/-- `ErrorCode.SubscriptionsExists` -/
def subscriptionsExists : ℤ := 9000

/-- The error of a second connection under `FORBID_CLOSE_PREVIOUS_CONNECTION` has the code and the
data it was built with. -/
structure Packages.KeepsBadRequest {N : Type} (p : Packages N) : Prop where
  code : ∀ m d, (p.newBadRequestError m d subscriptionsExists).code = subscriptionsExists
  data : ∀ m d, (p.newBadRequestError m d subscriptionsExists).data = d

namespace GrpcServerStreamAction

structure Subscription where
  streamId : JsString
  handler : CallRef
  deriving DecidableEq

abbrev DeviceSubscriptions := Js.Map JsString (List Subscription)

/-- The subscriptions of a device. -/
def subscriptionsOf (d : DeviceSubscriptions) (mobileUid : JsString) : List Subscription :=
  (d.get mobileUid).getD []

variable {N : Type} (p : Packages N) (policy : DeviceMultipleConnectionPolicy)

/-- The error of a second connection that the policy forbids. -/
def subscribeError (mobileUid : JsString) (subscriptions : List Subscription) :
    Option (Thrown N) :=
  match policy with
  | .forbidRejectNewConnection =>
    if 0 < subscriptions.length then
      some (.native ⟨.error, js "Unable to open new connection for " ++ mobileUid
        ++ js ", please close previous connection"⟩)
    else none
  | .forbidClosePreviousConnection =>
    if 0 < subscriptions.length then
      some (.api (p.newBadRequestError (js "Unable to open new connection as existed conne")
        (.obj [(js "subscriptions", .arr (subscriptions.map fun sub => .str sub.streamId))])
        subscriptionsExists))
    else none
  | .allowMultipleConnections => none

def subscribeChannel (streamKey : StreamKey) (handler : CallRef) (d : DeviceSubscriptions) :
    Except (Thrown N) Unit × DeviceSubscriptions :=
  let subscriptions := subscriptionsOf d streamKey.mobileUid
  match subscribeError p policy streamKey.mobileUid subscriptions with
  | some err => (.error err, d)
  | none => (.ok (), d.set streamKey.mobileUid (subscriptions ++ [⟨streamKey.streamId, handler⟩]))

def unsubscribeChannel (streamKey : StreamKey) (d : DeviceSubscriptions) : DeviceSubscriptions :=
  match d.get streamKey.mobileUid with
  | none => d
  | some subscriptions =>
    match subscriptions.findIdx? fun sub => sub.streamId = streamKey.streamId with
    | none => d
    | some i => d.set streamKey.mobileUid (subscriptions.eraseIdx i)

def publishToChannel (mobileUid : JsString) (data : Value N) (d : DeviceSubscriptions) :
    List (CallRef × Value N) :=
  (subscriptionsOf d mobileUid).map fun subscription => (subscription.handler, data)

def broadcast (data : Value N) (d : DeviceSubscriptions) : List (CallRef × Value N) :=
  d.values.flatMap fun subscriptions =>
    subscriptions.map fun subscription => (subscription.handler, data)

def published : Publication N → DeviceSubscriptions → List (CallRef × Value N)
  | .publishToChannel mobileUid data => publishToChannel mobileUid data
  | .broadcast data => broadcast data

/-- The action as the service sees it. -/
def action (actionVersion : Option JsString) : StreamAction DeviceSubscriptions N where
  actionVersion := actionVersion
  subscribeChannel := some (subscribeChannel p policy)
  unsubscribeChannel := some fun streamKey d => (.ok (), unsubscribeChannel streamKey d)
  hasOnConnectionOpened := true
  published := published

inductive ChannelEvent
  | subscribe (streamKey : StreamKey) (handler : CallRef)
  | unsubscribe (streamKey : StreamKey)

def ChannelEvent.mobileUid : ChannelEvent → JsString
  | subscribe streamKey _ => streamKey.mobileUid
  | unsubscribe streamKey => streamKey.mobileUid

/-- The state of the action, with the ids of the streams it has let in so far and the streams that
are live: let in and not unsubscribed since. -/
structure Channels where
  deviceSubscriptions : DeviceSubscriptions
  letIn : List JsString
  live : List StreamKey

def Channels.start : Channels := ⟨Map.empty, [], []⟩

/-- A stream that was let in does not subscribe again. -/
def channelStep (s : Channels) : ChannelEvent → Option Channels
  | .subscribe streamKey handler =>
    if streamKey.streamId ∈ s.letIn then none
    else
      match subscribeChannel p policy streamKey handler s.deviceSubscriptions with
      | (.ok (), d) => some ⟨d, streamKey.streamId :: s.letIn, streamKey :: s.live⟩
      | (.error _, d) => some { s with deviceSubscriptions := d }
  | .unsubscribe streamKey =>
    some
      { s with
        deviceSubscriptions := unsubscribeChannel streamKey s.deviceSubscriptions
        live := s.live.filter (· ≠ streamKey) }

end GrpcServerStreamAction

end DiiaApp
