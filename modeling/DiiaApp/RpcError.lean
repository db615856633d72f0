import DiiaApp.Metadata

/-!
# An error on its way to the caller

On the server `mapApiErrorToRpcError` writes an `ApiError` into the trailer of a gRPC call as JSON
text, its strings encoded leaf by leaf. `errorHandlerMiddleware` reads the trailer back on the
client and throws an `ApiError` of its own, `MoleculerService.act` does the same with the error its
broker rejects with, and `GrpcExecutor` reads the trailer in a way of its own.
-/

namespace DiiaApp

open Js

variable {N : Type} (p : Packages N)

inductive GrpcStatusCode
  | ok
  | unknown
  | invalidArgument
  | deadlineExceeded
  | notFound
  | permissionDenied
  | resourceExhausted
  | unimplemented
  | internal
  | unavailable
  | unauthenticated
  deriving DecidableEq

/-- The HTTP codes with a gRPC code of their own; `0` stands for no code. -/
def httpCodeToGrpcCode : List (ℤ × GrpcStatusCode) :=
  [(102, .ok), (200, .ok), (201, .ok), (202, .ok), (204, .ok), (206, .ok),
    (400, .invalidArgument), (422, .invalidArgument), (401, .unauthenticated),
    (403, .permissionDenied), (404, .notFound), (408, .deadlineExceeded),
    (429, .resourceExhausted), (500, .internal), (501, .unimplemented), (502, .unavailable),
    (503, .unavailable), (504, .deadlineExceeded), (0, .unknown)]

/-- The gRPC code under a property name. -/
def grpcCodeOfName (name : JsString) : Option GrpcStatusCode :=
  Js.Map.find name (httpCodeToGrpcCode.map fun e => (intText e.1, e.2))

structure ServerErrorResponse where
  code : Option GrpcStatusCode
  details : JsString
  metadata : Metadata

variable [JsNumber N]

/-- `v.toString()`. -/
def toStringOf (v : Value N) : Except (Thrown N) JsString :=
  match v.toText with
  | some s => .ok s
  | none => throwNative .typeError (js "toString is not a function")

theorem toStringOf_ok {v : Value N} {text : JsString} :
    toStringOf v = .ok text ↔ v.toText = some text := by
  unfold toStringOf
  rcases v.toText with _ | s <;> simp [throwNative]

def serializeApiError (apiError : ApiError N) : Except (Thrown N) JsString := do
  let message ← p.encodeValuesWithIterator (.str apiError.message)
  let data ← p.encodeValuesWithIterator apiError.data
  stringify (.obj [(js "name", .str apiError.name), (js "message", message),
    (js "code", .num (JsNumber.ofInt apiError.code)), (js "type", .str apiError.type),
    (js "data", data)])

/-- `metadata` with the process code of an error that has one. -/
def setProcessCodeTrailer (processCode : Value N) (metadata : Metadata) :
    Except (Thrown N) Metadata :=
  if processCode.truthy then do
    metadata.setChecked (p.grpcMetadataKeys .processCode) (← toStringOf processCode)
  else .ok metadata

/-- `httpCodeToGrpcCode[code] ?? httpCodeToGrpcCode[dataCode ?? 0]`. -/
def rpcErrorCode (code : ℤ) (dataCode : Value N) : Except (Thrown N) (Option GrpcStatusCode) :=
  match Js.Map.find code httpCodeToGrpcCode with
  | some c => .ok (some c)
  | none =>
    if dataCode.isNullish then .ok (some .unknown)
    else (toStringOf dataCode).map grpcCodeOfName

def mapApiErrorToRpcError (apiError : ApiError N) (metadata : Metadata) :
    Except (Thrown N) ServerErrorResponse := do
  let processCode ← getProp apiError.data (js "processCode")
  let metadata ← setProcessCodeTrailer p processCode metadata
  let text ← serializeApiError p apiError
  let metadata ← metadata.setChecked (p.grpcMetadataKeys .originalError) text
  let code ← rpcErrorCode apiError.code (apiError.data.prop (js "code"))
  return { code, details := apiError.message, metadata }

def prepareServerErrorResponse (apiError : ApiError N) : Except (Thrown N) ServerErrorResponse :=
  mapApiErrorToRpcError p apiError Js.Map.empty

/-- `v[k] ||= w`, which throws on what holds no properties. -/
def orAssign (v : Value N) (k : JsString) (w : Value N) : Except (Thrown N) (Value N) :=
  match v with
  | .obj es => .ok (if (v.prop k).truthy then v else .obj (Js.Map.put k w es))
  | .arr _ => .ok v
  | .cycle => .ok v
  | _ => throwNative .typeError (js "Cannot create property")

/-- `Number.parseInt(text, 10)`, `none` standing for `NaN`. -/
def parseInt (text : JsString) : Option ℤ :=
  let s := text.dropWhile Json.isSpace
  let digits := (dropSign s).takeWhile isDigit
  let n := digits.foldl (fun (n : ℕ) u => 10 * n + (u.toNat - 48)) 0
  if digits = [] then none else some (if s.head? = some 45 then -n else n)

/-- The first value of a key of a trailer. -/
def trailerValue (trailer : Option Metadata) (key : MetadataKey) : Option JsString :=
  trailer.bind fun t => metadataProperty p t key

/-- The original error of a trailer, `null` where it has none. -/
def originalErrorOf (trailer : Option Metadata) : Except (Thrown N) (Value N) :=
  match nonEmpty (trailerValue p trailer .originalError) with
  | some raw => do p.decodeValuesWithIterator (← parseJson p raw)
  | none => .ok .null

/-- The error `errorHandlerMiddleware` throws for one that `call.next` threw. -/
def errorHandlerMiddleware (err : Thrown N) (trailer : Option Metadata) :
    Except (Thrown N) (ApiError N) := do
  let apiError := handleError p err
  let originalError ← originalErrorOf p trailer
  if originalError.truthy then
    let originalError ← orAssign originalError (js "data") (.obj [])
    let data ← orAssign (originalError.prop (js "data")) (js "opOriginalError")
      (.obj [(js "type", originalError.prop (js "type"))])
    return p.newApiError apiError.message (p.getHttpStatusCodeByGrpcCode apiError.code) data
      (data.prop (js "processCode"))
  else
    match (nonEmpty (trailerValue p trailer .processCode)).bind parseInt with
    | some processCode =>
      return if processCode ≠ 0 then p.setProcessCode apiError processCode else apiError
    | none => return apiError

/-- The error `MoleculerService.act` throws for one that the broker rejects with. -/
def actCatch (err : Thrown N) : Except (Thrown N) (ApiError N) := do
  let apiErr := handleError p err
  let data ← orAssign apiErr.data (js "opOriginalError") (.obj [(js "type", .str apiErr.type)])
  return p.newApiError apiErr.message apiErr.code data .undefined

/-- What `GrpcExecutor.execute` reports for the text of the original error. -/
def executorOriginalError (value : JsString) : Value N :=
  match (decodeURIComponent value).bind Json.parse with
  | some j => .ofJson j
  | none => .str value

/-- The `errorMetadata` of `GrpcExecutor.execute`. -/
def executorErrorMetadata (metadata : Metadata) : List (JsString × Value N) :=
  metadata.entries.filterMap fun e => e.2.head?.map fun value =>
    (e.1, if e.1 = js "original-error" then executorOriginalError value else .str value)

end DiiaApp
