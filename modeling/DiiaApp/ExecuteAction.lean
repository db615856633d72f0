import DiiaApp.ActionExecutor
import DiiaApp.RpcError

/-!
# One execution of an action

`ActionExecutor.execute` starts a span, collects what the log shows of the caller, asks for the lock
of the action and tries the action. Whatever comes of it, it ends the span at last and releases the
lock. A report tells what it does, in order, and how its promise settles.

The action, the validator and `redlock` may throw; the logger, the metrics and the span do not.
-/

namespace DiiaApp

open Js

inductive SessionType
  | portalUser
  | eResidentApplicant
  | eResident
  | user
  | serviceUser
  | partner
  | acquirer
  | temporary
  | serviceEntrance
  | none

/-- Where a session has its owner, what the log shows of the owner, whether as a text, and under
which name. -/
structure SessionOwner where
  owner : JsString
  id : JsString
  asText : Bool
  logged : JsString

def SessionType.sessionOwner : SessionType → Option SessionOwner
  | .portalUser => some ⟨js "user", js "identifier", false, js "userIdentifier"⟩
  | .eResidentApplicant => some ⟨js "user", js "identifier", false, js "userIdentifier"⟩
  | .eResident => some ⟨js "user", js "identifier", false, js "userIdentifier"⟩
  | .user => some ⟨js "user", js "identifier", false, js "userIdentifier"⟩
  | .serviceUser => some ⟨js "serviceUser", js "login", false, js "sessionOwnerId"⟩
  | .partner => some ⟨js "partner", js "_id", true, js "sessionOwnerId"⟩
  | .acquirer => some ⟨js "acquirer", js "_id", true, js "sessionOwnerId"⟩
  | .temporary => some ⟨js "temporary", js "mobileUid", false, js "sessionOwnerId"⟩
  | .serviceEntrance => some ⟨js "entrance", js "acquirerId", true, js "sessionOwnerId"⟩
  | .none => Option.none

/-- The cases of the `switch` of `buildLogData`. -/
def SessionType.cases : List SessionType :=
  [portalUser, eResidentApplicant, eResident, user, serviceUser, partner, acquirer, temporary,
    serviceEntrance, none]

/-- What `redlock` answers to a request for a lock, and how the release of one that it grants
settles. -/
inductive LockAnswer (N : Type)
  | granted (release : Except (Thrown N) Unit)
  | refused (err : Thrown N)
  /-- No answer before the timeout. -/
  | late
  /-- The request itself throws. -/
  | thrown (err : Thrown N)

/-- How the release settles of a lock that is granted in time. -/
def LockAnswer.release {N : Type} : LockAnswer N → Option (Except (Thrown N) Unit)
  | granted release => some release
  | _ => none

namespace ActionExecutor

/-- A property that is not there is `undefined`. -/
structure Arguments (N : Type) where
  params : Value N
  session : Value N
  headers : Value N

structure AlsData (N : Type) where
  logData : Value N
  session : Value N
  headers : Value N

structure AppAction (N : Type) where
  name : JsString
  /-- `grpcMethod?.path`, of a gRPC action. -/
  grpcPath : Option JsString
  validationRules : Value N
  /-- In milliseconds, `none` being no limit. -/
  tryLockTimeout : Option ℕ
  getLockResource : Option (Arguments N → Except (Thrown N) JsString)
  getServiceCode : Option (Arguments N → Except (Thrown N) (Value N))
  handler : AlsData N → Arguments N → Except (Thrown N) (Value N)

structure ExecuteActionParams (N : Type) where
  action : AppAction N
  transport : JsString
  /-- `tracingMetadata?.sentFrom` -/
  sentFrom : Option JsString
  actionArguments : Arguments N

/-- What an executor works with. -/
structure Deps (N : Type) where
  systemServiceName : JsString
  prepareContext : Value N → Value N
  /-- `validator.validate`, of arguments, the rules of the params and an error type, with what it
  leaves of the arguments. -/
  validate : Arguments N → Value N → Option JsString → Except (Thrown N) (Arguments N)
  /-- `redlock.lock`, of a resource, the time to live and the timeout. -/
  redlock : Option (JsString → ℕ → Option ℕ → LockAnswer N)
  sessionTypes : SessionType → JsString
  /-- `ErrorType.Operated` -/
  operated : JsString
  /-- `RequestMechanism.Grpc` -/
  grpc : JsString

inductive RequestStatus
  | successful
  | failed
  deriving DecidableEq

/-- The labels of an observation on `responseTotalTimerMetric`. -/
structure Labels where
  mechanism : JsString
  source : JsString
  destination : JsString
  route : JsString
  status : RequestStatus
  errorType : Option JsString
  statusCode : Option ℤ

/-- What an execution does. -/
inductive Doing (N : Type)
  | startSpan (name messagingSystem : JsString) (caller : Option JsString)
  | addEvent (id : ℕ) (type : JsString)
  | validated (result : Except (Thrown N) Unit)
  | handled (result : Except (Thrown N) (Value N))
  | observeSeconds (labels : Labels)
  | recordException (message : JsString) (code : ℤ) (name : JsString)
  | setStatus (isOk : Bool) (message : Option JsString)
  | endSpan
  | released (result : Except (Thrown N) Unit)

structure Report (N : Type) where
  doings : List (Doing N)
  result : Except (Thrown N) (Value N)

variable {N : Type} (p : Packages N) (x : Deps N) [JsNumber N]

/-- The own enumerable properties of a value, which a spread copies. -/
def spread : Value N → List (JsString × Value N)
  | .obj es => es
  | .arr xs => xs.zipIdx.map fun item => (decimal item.2, item.1)
  | .str s => s.zipIdx.map fun u => (decimal u.2, .str [u.1])
  | _ => []

/-- `v === t` -/
def isSessionType (v : Value N) (t : SessionType) : Bool :=
  match v with
  | .str s => s = x.sessionTypes t
  | _ => false

/-- `session?.sessionType ?? SessionType.None` -/
def sessionTypeOf (session : Value N) : Value N :=
  let sessionType := session.prop (js "sessionType")
  if sessionType.isNullish then .str (x.sessionTypes .none) else sessionType

/-- What the log shows of the owner of a session. -/
def loggedOwner (o : SessionOwner) (session : Value N) : Except (Thrown N) (Value N) := do
  let owner ← getProp session o.owner
  let id ← getProp owner o.id
  if o.asText then
    if id.isNullish then throwNative .typeError (js "Cannot read properties of undefined")
    else (toStringOf id).map .str
  else .ok id

def buildLogData (args : Arguments N) : Except (Thrown N) (Value N) :=
  let sessionType := sessionTypeOf x args.session
  let logData := (spread args.headers).foldl (fun es e => Js.Map.put e.1 e.2 es)
    [(js "sessionType", sessionType)]
  match SessionType.cases.find? (isSessionType x sessionType) with
  | some t =>
    match t.sessionOwner with
    | some o => (loggedOwner o args.session).map fun v => .obj (Js.Map.put o.logged v logData)
    | none => .ok (.obj logData)
  | none =>
    -- the warning puts the unexpected type into a text
    (toStringOf sessionType).map fun _ => .obj logData

def actionLockTtl : ℕ := 30000

/-- `action.getLockResource?.(actionArguments)`, which is empty where there is none. -/
def AppAction.lockResource (action : AppAction N) (args : Arguments N) :
    Except (Thrown N) JsString :=
  action.getLockResource.elim (.ok []) fun getLockResource => getLockResource args

/-- How the release of the lock that is granted in time settles, where one is. -/
def acquire (action : AppAction N) (actionLockResource : JsString) :
    Option (Except (Thrown N) Unit) :=
  match x.redlock with
  | some lock =>
    if actionLockResource ≠ [] then
      (lock (action.name ++ js "." ++ actionLockResource) actionLockTtl
        action.tryLockTimeout).release
    else none
  | none => none

/-- The headers get the service code, where there are any. -/
def setServiceCode (action : AppAction N) (args : Arguments N) :
    Except (Thrown N) (Arguments N) :=
  if args.headers.truthy then do
    let serviceCode ← action.getServiceCode.elim (.ok .undefined) fun f => f args
    match args.headers with
    | .bool _ | .num _ | .bigint _ | .str _ =>
      throwNative .typeError (js "Cannot create property 'serviceCode'")
    | headers => .ok { args with headers := headers.setProp (js "serviceCode") serviceCode }
  else .ok args

/-- The arguments are validated and the action is handled. -/
def attempt (action : AppAction N) (logData : Value N) (args : Arguments N) : Report N :=
  let validationErrorType :=
    if isSessionType x (args.session.prop (js "sessionType")) .partner then some x.operated
    else none
  match x.validate args action.validationRules validationErrorType with
  | .error err => ⟨[.validated (.error err)], .error err⟩
  | .ok args =>
    match setServiceCode action args with
    | .error err => ⟨[.validated (.ok ())], .error err⟩
    | .ok args =>
      let res := action.handler ⟨x.prepareContext logData, args.session, args.headers⟩ args
      ⟨[.validated (.ok ()), .handled res], res⟩

/-- What is told of an action that was tried, to the metrics and to the span. -/
def told (labels : Labels) : Except (Thrown N) (Value N) → List (Doing N)
  | .ok _ => [.observeSeconds labels, .setStatus true none, .addEvent 2 (js "SENT")]
  | .error err =>
    let apiErr := handleError p err
    [.observeSeconds { labels with
        status := .failed, errorType := some apiErr.type, statusCode := some apiErr.code },
      .recordException apiErr.message apiErr.code apiErr.name,
      .setStatus false (some apiErr.message), .addEvent 2 (js "SENT")]

/-- The `finally` block, with how the release of the lock settles, where there is one. -/
def finish (lock : Option (Except (Thrown N) Unit)) (r : Report N) : Report N :=
  match lock with
  | none => ⟨r.doings ++ [.endSpan], r.result⟩
  | some (.ok ()) => ⟨r.doings ++ [.endSpan, .released (.ok ())], r.result⟩
  | some (.error err) => ⟨r.doings ++ [.endSpan, .released (.error err)], .error err⟩

def actionName (params : ExecuteActionParams N) : JsString :=
  if params.transport = x.grpc then (nonEmpty params.action.grpcPath).getD params.action.name
  else params.action.name

def source (params : ExecuteActionParams N) : JsString :=
  (nonEmpty params.sentFrom).getD (js "unknown")

/-- The labels of an observation, with those of a success. -/
def defaultLabels (params : ExecuteActionParams N) : Labels where
  mechanism := params.transport
  source := source params
  destination := x.systemServiceName
  route := actionName x params
  status := .successful
  errorType := none
  statusCode := none

/-- What an execution begins with. -/
def opening (params : ExecuteActionParams N) : List (Doing N) :=
  [.startSpan (js "handle " ++ actionName x params) params.transport
    (if source params ≠ js "unknown" then some (source params) else none),
    .addEvent 1 (js "RECEIVED")]

def execute (params : ExecuteActionParams N) : Report N :=
  match buildLogData x params.actionArguments with
  | .error err => ⟨opening x params, .error err⟩
  | .ok logData =>
    match params.action.lockResource params.actionArguments with
    | .error err => ⟨opening x params, .error err⟩
    | .ok actionLockResource =>
      let tried := attempt x params.action logData params.actionArguments
      let closed := told p (defaultLabels x params) tried.result
      finish (acquire x params.action actionLockResource)
        ⟨opening x params ++ tried.doings ++ closed, tried.result⟩

end ActionExecutor

end DiiaApp
