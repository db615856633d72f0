import DiiaApp.Errors
import DiiaApp.Stages

/-!
# Hooks of the application

When the application starts it calls the hooks of its instances in stages: `onRegistrationsFinished`
of all, then `onInit` by the order that the class of an instance has. When it stops it calls
`onDestroy` in the reverse order and at last `onBeforeApplicationShutdown`. The start fails with the
first hook that does, the stop calls all hooks and makes an error of what each fails with.
-/

namespace DiiaApp

open Js

variable {N : Type}

/-- An instance under its registration name, with the hooks that the guards find on it. -/
structure RegisteredInstance where
  name : JsString
  /-- `instance.constructor.name` -/
  constructorName : JsString
  hasOnRegistrationsFinishedHook : Bool
  hasOnInitHook : Bool
  hasOnBeforeApplicationShutdownHook : Bool
  hasOnDestroyHook : Bool

/-- The registrations of a container, one instance to a name, in the order of their keys. -/
structure Registrations where
  instances : List RegisteredInstance
  nodup : (instances.map RegisteredInstance.name).Nodup

inductive Hook
  | onRegistrationsFinished
  | onInit
  | onBeforeApplicationShutdown
  | onDestroy
  deriving DecidableEq

structure HookCall where
  hook : Hook
  name : JsString
  deriving DecidableEq

/-- What a hook fails with, which is not always an error. -/
inductive Reason (N : Type)
  | error (err : Thrown N)
  | undefined
  /-- Another value, with what `String` gives of it, or throws. -/
  | other (string : Except (Thrown N) JsString)

/-- What a hook does: its promise resolves or rejects, or it throws before there is one. -/
inductive HookResult (N : Type)
  | resolves (v : Value N)
  | rejects (reason : Reason N)
  | throws (reason : Reason N)

/-- What the `async` function around the call settles with. -/
def HookResult.settled : HookResult N → Except (Reason N) (Value N)
  | resolves v => .ok v
  | rejects reason => .error reason
  | throws reason => .error reason

def syncCommunicationClasses : List JsString := [js "MoleculerService", js "GrpcService"]

def getOnInitOrder (asyncCommunicationClasses : List JsString) (i : RegisteredInstance) : ℕ :=
  if i.constructorName = js "EnvService" then 0
  else if i.constructorName = js "MetricsService" then 1
  else if syncCommunicationClasses.contains i.constructorName then 3
  else if asyncCommunicationClasses.contains i.constructorName then 4
  else 2

def maxInitOrder : ℕ := 4

def getOnDestroyOrder (asyncCommunicationClasses : List JsString) (i : RegisteredInstance) : ℕ :=
  ((getOnInitOrder asyncCommunicationClasses i : ℤ) - maxInitOrder).natAbs

/-- `stages[order].push(x)`, the places before that are not there being empty. -/
def pushAt {α : Type} (x : α) : ℕ → List (List α) → List (List α)
  | 0, [] => [[x]]
  | 0, stage :: stages => (stage ++ [x]) :: stages
  | order + 1, [] => [] :: pushAt x order []
  | order + 1, stage :: stages => stage :: pushAt x order stages

/-- The loop over the registrations that puts a hook of each instance that has it in order. -/
def hooksInOrder (hook : Hook) (has : RegisteredInstance → Bool) (order : RegisteredInstance → ℕ)
    (stages : List (List HookCall)) (instances : List RegisteredInstance) : List (List HookCall) :=
  instances.foldl (fun stages i =>
    if has i then pushAt ⟨hook, i.name⟩ (order i) stages else stages) stages

/-- The loop that gathers a hook of all instances that have it. -/
def hooksOf (hook : Hook) (has : RegisteredInstance → Bool) (instances : List RegisteredInstance) :
    List HookCall := (instances.filter has).map fun i => ⟨hook, i.name⟩

namespace Registrations

variable (r : Registrations) (asyncCommunicationClasses : List JsString)

def onInitHooksInOrder : List (List HookCall) :=
  hooksInOrder .onInit (·.hasOnInitHook) (getOnInitOrder asyncCommunicationClasses)
    [[], [], [], [], []] r.instances

def onDestroyHooksInOrder : List (List HookCall) :=
  hooksInOrder .onDestroy (·.hasOnDestroyHook) (getOnDestroyOrder asyncCommunicationClasses) []
    r.instances

/-- What `runOnStartHooks` calls, one list after the other. -/
def startStages : List (List HookCall) :=
  hooksOf .onRegistrationsFinished (·.hasOnRegistrationsFinishedHook) r.instances ::
    r.onInitHooksInOrder asyncCommunicationClasses

/-- What `runOnStopHooks` calls, one list after the other. -/
def stopStages : List (List HookCall) :=
  r.onDestroyHooksInOrder asyncCommunicationClasses ++
    [hooksOf .onBeforeApplicationShutdown (·.hasOnBeforeApplicationShutdownHook) r.instances]

end Registrations

def NativeKind.text : NativeKind → JsString
  | error => js "Error"
  | typeError => js "TypeError"
  | rangeError => js "RangeError"
  | syntaxError => js "SyntaxError"
  | uriError => js "URIError"

/-- `String(err)` of an error with a name and a message. -/
def errorText (name message : JsString) : JsString :=
  if name = [] then message else if message = [] then name else name ++ js ": " ++ message

/-- `new Error(reason)`, which calls `String` on a reason that is not `undefined`. -/
def newError : Reason N → Except (Thrown N) NativeError
  | .error (.api e) => .ok ⟨.error, errorText e.name e.message⟩
  | .error (.native e) => .ok ⟨.error, errorText e.kind.text e.message⟩
  | .undefined => .ok ⟨.error, []⟩
  | .other string => string.map (⟨.error, ·⟩)

structure AggregateError where
  errors : List NativeError
  message : JsString

/-- What `runOnStopHooks` throws: all errors of the hooks, or what `allSettledHookTasks` met as it
made an error. -/
inductive StopFailure (N : Type)
  | aggregate (err : AggregateError)
  | thrown (err : Thrown N)

/-- The steps of `runOnStopHooks`: it waits for all hooks of a stage to settle, and goes on where
`allSettledHookTasks` can make an error of each failure. -/
def stopStep (results : HookCall → HookResult N) :
    Stages.State HookCall (Reason N) → Stages.Event HookCall →
      Option (Stages.State HookCall (Reason N)) :=
  Stages.step false (fun reason => !(newError reason).isOk) fun c => (results c).settled

def runOnStopHooks (container : Option Registrations) (asyncCommunicationClasses : List JsString) :
    Except NativeError (Stages.State HookCall (Reason N)) :=
  match container with
  | some r => .ok (Stages.start (r.stopStages asyncCommunicationClasses))
  | none => .error ⟨.error, js "Container should be initialized before stop hooks"⟩

/-- The errors of `allSettledHookTasks`, thrown as one where there are any. -/
def stopResult (reasons : List (Reason N)) : Except (StopFailure N) Unit :=
  match reasons.mapM newError with
  | .error err => .error (.thrown err)
  | .ok [] => .ok ()
  | .ok errors => .error (.aggregate ⟨errors, js "Failed to stop service"⟩)

/-- How `runOnStopHooks` has ended. -/
def stopOutcome (s : Stages.State HookCall (Reason N)) : Option (Except (StopFailure N) Unit) :=
  s.ending.map fun
    | .completed => stopResult s.errors
    | .stopped reason => stopResult [reason]

/-- `runOnStartHooks` on its way, with what its result has under `grpcService`. -/
structure StartState (N : Type) where
  stages : Stages.State HookCall (Reason N)
  grpcService : Option (Value N)

/-- What the result has under `grpcService` when one more hook has settled. -/
def setGrpcService (results : HookCall → HookResult N) (result : Option (Value N)) :
    Stages.Event HookCall → Option (Value N)
  | .settle c =>
    match (results c).settled with
    | .ok v => if c = ⟨.onInit, js "grpcService"⟩ then some v else result
    | .error _ => result
  | _ => result

/-- The steps of `runOnStartHooks`: it waits for all hooks of a stage to resolve, or for one that
does not. -/
def startStep (results : HookCall → HookResult N) (s : StartState N) (e : Stages.Event HookCall) :
    Option (StartState N) :=
  (Stages.step true (fun _ => false) (fun c => (results c).settled) s.stages e).map fun stages =>
    ⟨stages, setGrpcService results s.grpcService e⟩

def runOnStartHooks (container : Option Registrations) (asyncCommunicationClasses : List JsString) :
    Except NativeError (StartState N) :=
  match container with
  | some r => .ok ⟨Stages.start (r.startStages asyncCommunicationClasses), none⟩
  | none => .error ⟨.error, js "Container should be initialized before start hooks"⟩

def startOutcome (s : StartState N) : Option (Except (Reason N) (Option (Value N))) :=
  s.stages.ending.map fun
    | .completed => .ok s.grpcService
    | .stopped err => .error err

end DiiaApp
