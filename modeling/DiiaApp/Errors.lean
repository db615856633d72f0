import DiiaApp.Js.Value
import DiiaApp.Results

/-!
# Errors

An `ApiError` carries a name, a message, an HTTP code, an `ErrorType` word and a data object; code
may also throw one of the errors of the language. `utils.handleError` hands its callback an
`ApiError`: the one thrown, or what it makes of any other error.

What the packages of the organisation do that the code relies on is gathered in `Packages`; the
results name the laws of it they need.
-/

namespace DiiaApp

open Js

inductive NativeKind
  | error
  | typeError
  | rangeError
  | syntaxError
  | uriError
  deriving DecidableEq

/-- An error of the language. -/
structure NativeError where
  kind : NativeKind
  message : JsString
  deriving DecidableEq

structure ApiError (N : Type) where
  name : JsString
  message : JsString
  code : ℤ
  type : JsString
  data : Value N

/-- What a `throw` can throw. -/
inductive Thrown (N : Type)
  | api (e : ApiError N)
  | native (e : NativeError)

/-- The keys of `grpcMetadataKeys`. -/
inductive MetadataKey
  | session
  | actionVersion
  | traceId
  | acceptLanguage
  | platformType
  | mobileUid
  | appVersion
  | platformVersion
  | serviceCode
  | tracing
  | traceParent
  | traceState
  | contentType
  | sentFrom
  | token
  | streamId
  | handledBy
  | processCode
  | originalError
  deriving DecidableEq

/-- What the code takes from the packages around it and from the engine. -/
structure Packages (N : Type) where
  grpcMetadataKeys : MetadataKey → JsString
  /-- `Object.values(ActionVersion)` -/
  actionVersions : List JsString
  /-- What `utils.handleError` makes of an error that is no `ApiError`. -/
  wrapNative : NativeError → ApiError N
  /-- `new ApiError(message, code, data, processCode)` -/
  newApiError : JsString → ℤ → Value N → Value N → ApiError N
  /-- `apiError.setProcessCode(processCode)` -/
  setProcessCode : ApiError N → ℤ → ApiError N
  /-- `new HttpError(message, code)` -/
  newHttpError : JsString → ℤ → ApiError N
  /-- `new BadRequestError(message, data, code)` -/
  newBadRequestError : JsString → Value N → ℤ → ApiError N
  /-- `NetworkUtils.getHttpStatusCodeByGrpcCode` -/
  getHttpStatusCodeByGrpcCode : ℤ → ℤ
  encodeValuesWithIterator : Value N → Except (Thrown N) (Value N)
  decodeValuesWithIterator : Value N → Except (Thrown N) (Value N)
  /-- `Buffer.from(text, 'base64').toString()` -/
  fromBase64 : JsString → JsString
  /-- The message of the `SyntaxError` that `JSON.parse` throws on a text. -/
  syntaxErrorMessage : JsString → JsString

variable {N : Type} (p : Packages N)

namespace Packages

/-- What `encodeValuesWithIterator` makes of a string leaf. -/
def encodeLeaf (s : JsString) : Option JsString :=
  match p.encodeValuesWithIterator (.str s) with
  | .ok (.str t) => some t
  | _ => none

def decodeLeaf (s : JsString) : Option JsString :=
  match p.decodeValuesWithIterator (.str s) with
  | .ok (.str t) => some t
  | _ => none

/-- The two iterators change a value leaf by leaf, a leaf that the URI component codec takes as the
codec does. What becomes of one that it refuses is left open. -/
structure Leafwise : Prop where
  encode : ∀ v, (p.encodeValuesWithIterator v).toOption = v.mapStrings p.encodeLeaf
  decode : ∀ v, (p.decodeValuesWithIterator v).toOption = v.mapStrings p.decodeLeaf
  encodes : ∀ {s t}, encodeURIComponent s = some t → p.encodeLeaf s = some t
  decodes : ∀ {s t}, decodeURIComponent s = some t → p.decodeLeaf s = some t
  native : ∀ v err, p.decodeValuesWithIterator v = .error err → ∃ e, err = .native e

/-- Decoding a leaf undoes encoding it. -/
def Inverse : Prop := ∀ {s t}, p.encodeLeaf s = some t → p.decodeLeaf t = some s

/-- The iterators apply the URI component codec to every leaf. -/
structure AppliesCodec : Prop where
  encode : p.encodeLeaf = encodeURIComponent
  decode : p.decodeLeaf = decodeURIComponent

end Packages

/-- The error `utils.handleError` hands its callback. -/
def handleError : Thrown N → ApiError N
  | .api e => e
  | .native e => p.wrapNative e

def throwNative {α : Type} (kind : NativeKind) (message : JsString) : Except (Thrown N) α :=
  .error (.native ⟨kind, message⟩)

variable [JsNumber N]

/-- The constructor of `ApiError` keeps the data, adding a process code it is given. -/
def Packages.KeepsData : Prop := ∀ m c d processCode, (p.newApiError m c d processCode).data
  = if processCode.truthy then d.setProp (js "processCode") processCode else d

def parseJson (s : JsString) : Except (Thrown N) (Value N) :=
  match Json.parse s with
  | some j => .ok (.ofJson j)
  | none => throwNative .syntaxError (p.syntaxErrorMessage s)

/-- `v.k`, which throws on `null` and `undefined`. -/
def getProp (v : Value N) (k : JsString) : Except (Thrown N) (Value N) :=
  if v.isNullish then throwNative .typeError (js "Cannot read properties of undefined")
  else .ok (v.prop k)

omit [JsNumber N] in
theorem getProp_ok {v w : Value N} {k : JsString} :
    getProp v k = .ok w ↔ ¬ v.isNullish ∧ w = v.prop k := by
  unfold getProp
  split_ifs with h <;> simp [h, throwNative, eq_comm]

def stringify (v : Value N) : Except (Thrown N) JsString :=
  match v.stringify with
  | some (some s) => .ok s
  | some none => .ok (js "undefined")
  | none => throwNative .typeError (js "Converting value to JSON")

end DiiaApp
