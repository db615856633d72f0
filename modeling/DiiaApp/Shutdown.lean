import DiiaApp.ApplicationHooks
import DiiaApp.Interleave

/-!
# Shutting down

An application stops when its operator calls `stop` and on each termination signal. Every call runs
the stop hooks, then flushes the tracer, whatever the hooks did. Calls do not wait for each other.
After a call for a signal the process exits.
-/

namespace DiiaApp

open Js

variable {N : Type}

/-- What stopping reads of an application. -/
structure Application where
  container : Option Registrations
  asyncCommunicationClasses : List JsString
  /-- `config.listenTerminationSignals` -/
  listenTerminationSignals : Option Bool

inductive Signal
  | SIGINT
  | SIGQUIT
  | SIGTERM
  deriving DecidableEq

def Signal.text : Signal → JsString
  | SIGINT => js "SIGINT"
  | SIGQUIT => js "SIGQUIT"
  | SIGTERM => js "SIGTERM"

/-- Who calls `stop`. -/
inductive Caller
  | operator
  | onShutDown (signal : Signal)

/-- Where the call of `forceFlush` is. -/
inductive Flush
  | notCalled
  | pending
  | settled
  deriving DecidableEq

/-- What `stop` meets as errors: one at once, those of the hooks and one of `forceFlush`. -/
inductive StopError (N : Type)
  | notInitialized (err : NativeError)
  | hooks (err : StopFailure N)
  | flush (err : Thrown N)

inductive LogLine (N : Type)
  | warn (msg : JsString)
  | error (msg : JsString) (err : StopError N)

/-- A call of `stop` on its way, with what the hooks do when it calls them and what has been logged
for it. -/
structure Stopping (N : Type) where
  caller : Caller
  results : HookCall → HookResult N
  hooks : Except NativeError (Stages.State HookCall (Reason N))
  flush : Flush
  logs : List (LogLine N)

inductive StopEvent (N : Type)
  | hook (e : Stages.Event HookCall)
  | forceFlush
  /-- `forceFlush` resolves, or rejects with an error. -/
  | flushed (err : Option (Thrown N))

namespace Stopping

def start (app : Application) (caller : Caller) (results : HookCall → HookResult N) :
    Stopping N where
  caller := caller
  results := results
  hooks := runOnStopHooks app.container app.asyncCommunicationClasses
  flush := .notCalled
  logs := match caller with
    | .operator => []
    | .onShutDown signal => [.warn (js "On " ++ signal.text ++ js " shutdown")]

variable (s : Stopping N)

/-- How `runOnStopHooks` has ended, and `stop` will. -/
def outcome : Option (Except (StopError N) Unit) :=
  match s.hooks with
  | .error err => some (.error (.notInitialized err))
  | .ok st => (stopOutcome st).map (Except.mapError .hooks)

/-- What is logged when `forceFlush` has settled. -/
def lastLogs (err : Option (Thrown N)) : List (LogLine N) :=
  (err.map fun err => .error (js "Failed to flush tracer") (.flush err)).toList ++
    match s.caller, s.outcome with
    | .onShutDown _, some (.error err) =>
      [.error (js "Failed to stop service. Shutdown completed") err]
    | _, _ => []

def step : StopEvent N → Option (Stopping N)
  | .hook e =>
    match s.hooks with
    | .error _ => none
    | .ok st => (stopStep s.results st e).map fun st => { s with hooks := .ok st }
  -- the `finally`, which comes once `runOnStopHooks` has ended
  | .forceFlush =>
    if s.flush = .notCalled ∧ s.outcome.isSome then some { s with flush := .pending } else none
  | .flushed err =>
    if s.flush = .pending then
      some { s with flush := .settled, logs := s.logs ++ s.lastLogs err }
    else none

/-- Whether `process.exit` is due. -/
def exits : Bool :=
  match s.caller with
  | .operator => false
  | .onShutDown _ => s.flush = .settled

end Stopping

/-- The process, with the calls of `stop` so far. -/
structure Process (N : Type) where
  stops : List (Stopping N)
  exitCode : Option ℕ

inductive ProcessEvent (N : Type)
  | stop (results : HookCall → HookResult N)
  | signal (name : Signal) (results : HookCall → HookResult N)
  | move (i : ℕ) (e : StopEvent N)
  | exit (i : ℕ)

namespace ProcessEvent

/-- What an event is among the calls of `stop`. -/
def interleaved (app : Application) :
    ProcessEvent N → Option (Interleave.Event (Stopping N) (StopEvent N))
  | .stop results => some (.spawn (.start app .operator results))
  | .signal name results => some (.spawn (.start app (.onShutDown name) results))
  | .move i e => some (.move i e)
  | .exit _ => none

/-- Whether the event is a new call of `stop`. -/
def isCall : ProcessEvent N → Bool
  | .stop _ | .signal _ _ => true
  | .move _ _ | .exit _ => false

end ProcessEvent

namespace Process

def start : Process N := ⟨[], none⟩

/-- An event can happen in a process that has not exited. -/
def allows (app : Application) (p : Process N) : ProcessEvent N → Bool
  | .signal _ _ => app.listenTerminationSignals.getD true
  | .exit i => p.stops[i]?.any Stopping.exits
  | _ => true

/-- A step of the process: a signal is heard where it is listened to, and `process.exit` is called
with `0`, `onShutDown` having no error for a signal. -/
def step (app : Application) (p : Process N) (e : ProcessEvent N) : Option (Process N) :=
  if p.exitCode.isNone ∧ p.allows app e then
    match e.interleaved app with
    | none => some { p with exitCode := some 0 }
    | some e => (Interleave.step Stopping.step p.stops e).map fun stops => { p with stops := stops }
  else none

end Process

end DiiaApp
