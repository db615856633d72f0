import DiiaApp.Errors

/-!
# Call metadata and the headers of an action

`Metadata` holds the values under each key of a call. `GrpcService` reads the headers of an action
from it: those sent, with the newest action version and a fresh trace id where none is sent, and
`traceparent` and `tracestate` taken from the `tracing` text where they are not sent alone.
-/

namespace DiiaApp

open Js

abbrev Metadata := Js.Map JsString (List JsString)

namespace Metadata

/-- The values under `key`. -/
def getAll (m : Metadata) (key : JsString) : List JsString := (m.get key).getD []

/-- The printable ASCII texts, which are the values `set` takes. -/
def isLegal (value : JsString) : Bool := value.all fun u => 32 ≤ u.toNat ∧ u.toNat ≤ 126

variable {N : Type}

def setChecked (m : Metadata) (key value : JsString) : Except (Thrown N) Metadata :=
  if isLegal value then .ok (m.set key [value])
  else throwNative .error (js "Metadata string value contains illegal characters")

end Metadata

abbrev ActionVersion := JsString

def v1 : ActionVersion := js "v1"

structure ActHeaders (N : Type) where
  actionVersion : Option ActionVersion
  traceId : JsString
  acceptLanguage : Option JsString
  platformType : Option JsString
  mobileUid : Option JsString
  appVersion : Option JsString
  platformVersion : Option JsString
  serviceCode : Option JsString
  tracing : Option JsString
  traceparent : Value N
  tracestate : Value N
  contentType : Option JsString
  sentFrom : Option JsString
  token : Option JsString

variable {N : Type} (p : Packages N)

/-- A header that is set and not empty, as `if (header)` tests it. -/
def nonEmpty : Option JsString → Option JsString
  | some s => if s = [] then none else some s
  | none => none

/-- The place of a version in `Object.values(ActionVersion)`, `-1` where it is not there. -/
def versionIndex (v : ActionVersion) : ℤ :=
  if v ∈ p.actionVersions then p.actionVersions.idxOf v else -1

def getDefaultActionVersion (actVersions : List ActionVersion) : Option ActionVersion :=
  if 1 < actVersions.length then
    (actVersions.mergeSort fun a b => versionIndex p b - versionIndex p a ≤ 0).head?
  else actVersions.head?

/-- The first value of a key, where it has one. -/
def metadataProperty (m : Metadata) (key : MetadataKey) : Option JsString :=
  (m.getAll (p.grpcMetadataKeys key)).head?

def prepareActHeadersFromGrpcInput (metadata : Metadata) (actVersions : List ActionVersion)
    (traceId : JsString) : ActHeaders N where
  actionVersion :=
    (metadataProperty p metadata .actionVersion).or (getDefaultActionVersion p actVersions)
  traceId := (metadataProperty p metadata .traceId).getD traceId
  acceptLanguage := metadataProperty p metadata .acceptLanguage
  platformType := metadataProperty p metadata .platformType
  mobileUid := metadataProperty p metadata .mobileUid
  appVersion := metadataProperty p metadata .appVersion
  platformVersion := metadataProperty p metadata .platformVersion
  serviceCode := metadataProperty p metadata .serviceCode
  tracing := metadataProperty p metadata .tracing
  traceparent := ((metadataProperty p metadata .traceParent).map Value.str).getD .undefined
  tracestate := ((metadataProperty p metadata .traceState).map Value.str).getD .undefined
  contentType := metadataProperty p metadata .contentType
  sentFrom := metadataProperty p metadata .sentFrom
  token := metadataProperty p metadata .token

/-- The action of a version, or the one without a version where there is none of it. -/
def getActionInstance {α : Type} (versionOf : α → Option ActionVersion)
    (actionVersion : ActionVersion) (actions : Js.Map ActionVersion α) : Except (Thrown N) α :=
  match actions.get actionVersion with
  | some action => .ok action
  | none =>
    match actions.get v1 with
    | some action =>
      if (nonEmpty (versionOf action)).isSome then
        .error (.api (p.newHttpError (js "action not found for version " ++ actionVersion) 501))
      else .ok action
    | none =>
      .error (.api (p.newHttpError (js "action not found for version " ++ actionVersion) 501))

/-- The actions of a method by their versions, of the list of all actions with their names. -/
def provideAppActions {α : Type} (versionOf : α → Option ActionVersion)
    (actionList : List (JsString × α)) (actionName : JsString) :
    Except (Thrown N) (Js.Map ActionVersion α) :=
  let actionInstances := (actionList.filter fun action => action.1 = actionName).map Prod.snd
  if actionInstances.length = 0 then
    throwNative .error (js "Unable to find any action for " ++ actionName)
  else
    .ok (actionInstances.foldl (fun actions actionInstance =>
      actions.set ((versionOf actionInstance).getD v1) actionInstance) Js.Map.empty)

variable [JsNumber N]

/-- The parsed `tracing` header, `undefined` where none is sent. -/
def parseTracing (headers : ActHeaders N) : Except (Thrown N) (Value N) :=
  match nonEmpty headers.tracing with
  | some text => parseJson p text
  | none => .ok .undefined

/-- `traceparent` and `tracestate` taken from the `tracing` header where they are not set. -/
def ActHeaders.withTracing (headers : ActHeaders N) (tracing : Value N) : ActHeaders N :=
  { headers with
    traceparent := if headers.traceparent.truthy then headers.traceparent
      else tracing.prop (js "traceparent")
    tracestate := if headers.tracestate.truthy then headers.tracestate
      else tracing.prop (js "tracestate") }

end DiiaApp
