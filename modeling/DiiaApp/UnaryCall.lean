import DiiaApp.RpcError

/-!
# Unary calls

`GrpcService` finds the action of a unary call by its version header, hands it the params without
the fields that decoding adds for proto3-optional oneofs, and answers by the callback of the call:
with the response, or with the error that reached the handler.
-/

namespace DiiaApp

open Js

variable {N : Type}

/-- The properties every object inherits. -/
def objectPrototype : List JsString :=
  [js "constructor", js "__defineGetter__", js "__defineSetter__", js "hasOwnProperty",
    js "__lookupGetter__", js "__lookupSetter__", js "isPrototypeOf", js "propertyIsEnumerable",
    js "toString", js "valueOf", js "__proto__", js "toLocaleString"]

/-- `value in obj` for the own and the inherited properties of an object. -/
def inObject (value : JsString) (es : List (JsString × Value N)) : Bool :=
  (Js.Map.find value es).isSome || objectPrototype.contains value

/-- The key of a field that decoding adds: an underscore and the field it names. -/
def isSynthetic (key : JsString) (value : Value N) (es : List (JsString × Value N)) : Bool :=
  match value with
  | .str s => key = 95 :: s ∧ inObject s es
  | _ => false

def isArray : Value N → Bool
  | .arr _ => true
  | _ => false

mutual

/-- What becomes of a property. A value that refers back to itself overflows the stack. -/
def stripValue : Value N → Except (Thrown N) (Value N)
  | .obj es => (stripEntries [] es).map .obj
  | .arr xs => (stripItems xs).map .arr
  | .cycle => throwNative .rangeError (js "Maximum call stack size exceeded")
  | v => .ok v

/-- The elements of an array, those that are arrays left as they are. -/
def stripItems : List (Value N) → Except (Thrown N) (List (Value N))
  | [] => .ok []
  | x :: xs => (if isArray x then .ok x else stripValue x).bind fun y =>
      (stripItems xs).map (y :: ·)

/-- The properties after `done`, which are those already looked at that stay. -/
def stripEntries (done : List (JsString × Value N)) :
    List (JsString × Value N) → Except (Thrown N) (List (JsString × Value N))
  | [] => .ok done
  | (key, value) :: es =>
    if isSynthetic key value (done ++ (key, value) :: es) then stripEntries done es
    else (stripValue value).bind fun value' => stripEntries (done ++ [(key, value')]) es

end

/-- An array has its elements for properties, and `null` and `undefined` have none to ask for. -/
def stripSyntheticOneofFields : Value N → Except (Thrown N) (Value N)
  | .arr xs => (xs.mapM stripValue).map .arr
  | .undefined => throwNative .typeError (js "Cannot convert undefined or null to object")
  | .null => throwNative .typeError (js "Cannot convert undefined or null to object")
  | v => stripValue v

structure ActionArguments (N : Type) where
  session : Value N
  headers : ActHeaders N
  params : Value N

/-- An action behind a unary method, and what `ActionExecutor.execute` makes of its arguments. -/
structure UnaryAction (N : Type) where
  actionVersion : Option ActionVersion
  execute : ActionArguments N → Except (Thrown N) (Value N)

/-- A unary call; `traceId` is the id a call without one is given. -/
structure UnaryInput (N : Type) where
  metadata : Metadata
  request : Value N
  traceId : JsString

/-- A call of the callback. -/
inductive Answer (N : Type)
  | response (v : Value N)
  | error (e : ServerErrorResponse)

variable (p : Packages N) [JsNumber N]

/-- `{ sessionType: SessionType.None }` -/
def noSession : Value N := .obj [(js "sessionType", .str (js "None"))]

def prepareActSessionFromGrpcInput (metadata : Metadata) : Except (Thrown N) (Value N) :=
  match metadataProperty p metadata .session with
  | some text => parseJson p (p.fromBase64 text)
  | none => .ok .undefined

def executeAction (action : UnaryAction N) (metadata : Metadata) (headers : ActHeaders N)
    (params : Value N) : Except (Thrown N) (Value N) := do
  let params ← stripSyntheticOneofFields params
  let session ← prepareActSessionFromGrpcInput p metadata
  action.execute ⟨if session.truthy then session else noSession, headers, params⟩

/-- The response of a call, up to the first error. -/
def unaryResponse (actions : Js.Map ActionVersion (UnaryAction N)) (input : UnaryInput N) :
    Except (Thrown N) (Value N) := do
  let headers := prepareActHeadersFromGrpcInput p input.metadata actions.keys input.traceId
  let action ← getActionInstance p (·.actionVersion)
    ((nonEmpty headers.actionVersion).getD v1) actions
  let tracing ← parseTracing p headers
  executeAction p action input.metadata (headers.withTracing tracing) input.request

/-- The calls of the callback, in order, and how the handler itself ends. -/
def provideGrpcMethodImplementation (systemServiceName : JsString)
    (actions : Js.Map ActionVersion (UnaryAction N)) (input : UnaryInput N) :
    List (Answer N) × Except (Thrown N) Unit :=
  match Metadata.setChecked Js.Map.empty (p.grpcMetadataKeys .handledBy) systemServiceName with
  | .error err => ([], .error err)
  | .ok responseMetadata =>
    match unaryResponse p actions input with
    | .ok response => ([.response response], .ok ())
    | .error err =>
      match mapApiErrorToRpcError p (handleError p err) responseMetadata with
      | .ok rpcError => ([.error rpcError], .ok ())
      | .error err => ([], .error err)

end DiiaApp
