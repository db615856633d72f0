import DiiaApp.Js.Integer
import DiiaApp.StreamService

/-!
# A stand-in for the packages

The packages over the integers, as far as the concrete runs of the development use them: errors keep
what they are built with, and the iterators are the URI component codec leaf by leaf.
-/

namespace DiiaApp

open Js

def standInKey : MetadataKey → JsString
  | .session => js "session"
  | .actionVersion => js "actionversion"
  | .traceId => js "traceid"
  | .acceptLanguage => js "acceptlanguage"
  | .platformType => js "platformtype"
  | .mobileUid => js "mobileuid"
  | .appVersion => js "appversion"
  | .platformVersion => js "platformversion"
  | .serviceCode => js "servicecode"
  | .tracing => js "tracing"
  | .traceParent => js "traceparent"
  | .traceState => js "tracestate"
  | .contentType => js "contenttype"
  | .sentFrom => js "sentfrom"
  | .token => js "token"
  | .streamId => js "streamid"
  | .handledBy => js "handledby"
  | .processCode => js "processcode"
  | .originalError => js "original-error"

def leaves (f : JsString → Option JsString) (v : Value ℤ) : Except (Thrown ℤ) (Value ℤ) :=
  match v.mapStrings f with
  | some w => .ok w
  | none => throwNative .uriError (js "URI malformed")

def standIn : Packages ℤ where
  grpcMetadataKeys := standInKey
  actionVersions := [js "v0", js "v1", js "v2"]
  wrapNative e := ⟨js "InternalServerError", e.message, 500, js "Unoperated", .obj []⟩
  newApiError message code data processCode :=
    ⟨js "ApiError", message, code, js "Unoperated",
      if processCode.truthy then data.setProp (js "processCode") processCode else data⟩
  setProcessCode e n := { e with data := e.data.setProp (js "processCode") (.num n) }
  newHttpError message code := ⟨js "HttpError", message, code, js "Unoperated", .obj []⟩
  newBadRequestError message data code :=
    ⟨js "BadRequestError", message, code, js "Unoperated", data⟩
  getHttpStatusCodeByGrpcCode code := if code = 3 then 400 else 500
  encodeValuesWithIterator := leaves encodeURIComponent
  decodeValuesWithIterator := leaves decodeURIComponent
  fromBase64 text := text
  syntaxErrorMessage _ := js "Unexpected token in JSON"

theorem standIn_keepsBadRequest : standIn.KeepsBadRequest := ⟨fun _ _ => rfl, fun _ _ => rfl⟩

/-- The stand-in with the `BadRequestError` of the package: an error of code 400, whose third
argument is the process code in its data. -/
def badRequests : Packages ℤ :=
  { standIn with
    newBadRequestError := fun message data processCode =>
      ⟨js "BadRequestError", message, 400, js "Unoperated",
        data.setProp (js "processCode") (.num processCode)⟩ }

theorem toOption_leaves (f : JsString → Option JsString) (v : Value ℤ) :
    (leaves f v).toOption = v.mapStrings f := by
  unfold leaves
  rcases v.mapStrings f with _ | w <;> rfl

theorem standIn_appliesCodec : standIn.AppliesCodec := by
  constructor <;> funext s
  · simp only [Packages.encodeLeaf, standIn, leaves, Value.mapStrings]
    rcases encodeURIComponent s with _ | t <;> rfl
  · simp only [Packages.decodeLeaf, standIn, leaves, Value.mapStrings]
    rcases decodeURIComponent s with _ | t <;> rfl

theorem standIn_leafwise : standIn.Leafwise := by
  have hc := standIn_appliesCodec
  refine ⟨?_, ?_, fun h => by rw [hc.encode, h], fun h => by rw [hc.decode, h], fun v err h => ?_⟩
  · rw [hc.encode]
    exact toOption_leaves _
  · rw [hc.decode]
    exact toOption_leaves _
  · simp only [standIn, leaves] at h
    split at h
    · simp at h
    · exact ⟨_, (Except.error.inj h).symm⟩

theorem standIn_keepsData : standIn.KeepsData := fun _ _ _ _ => rfl

/-- A call with the metadata `entries`, no request and a hook that does nothing. -/
def plainOpening (streamId : JsString) (entries : List (MetadataKey × JsString)) : Opening ℤ where
  streamId := streamId
  traceId := js "t"
  metadata := entries.foldl (fun m e => m.set (standInKey e.1) [e.2]) Js.Map.empty
  request := .undefined
  hookPublishes := []
  hookThrows := none
  onRequest := ⟨false, .ok .undefined⟩

end DiiaApp
