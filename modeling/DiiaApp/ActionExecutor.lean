import DiiaApp.Errors
import Mathlib.Logic.Function.Basic

/-!
# Executions of actions under a lock

`ActionExecutor.execute` asks `redlock` for the lock of the action, waits for the answer no longer
than `tryLockTimeout`, validates the arguments, runs the handler and at last releases the lock where
it has one. Any number of executions run at once, each taking its next step at any time.

`redlock` grants no resource that is held, and an execution whose lock was granted while it waited
is over before the lock expires. Nothing else is assumed of the order of the steps: an answer may
come after the timeout, and may reach the execution long after it was given.
-/

namespace DiiaApp

open Js

/-- What the lock of an execution depends on. -/
structure LockedAction where
  name : JsString
  /-- The value of `getLockResource`, where the action has it. -/
  actionLockResource : Option JsString
  /-- In milliseconds, `none` being no limit. -/
  tryLockTimeout : Option ℕ

inductive Phase (N : Type)
  | acquiring
  | validating (lock : Bool)
  | handling (lock : Bool)
  | finishing (lock : Bool) (result : Except (Thrown N) (Value N))
  | releasing (result : Except (Thrown N) (Value N))
  | settled (result : Except (Thrown N) (Value N))

/-- A request at `redlock`. -/
inductive LockRequest
  | none
  | pending
  | granted
  | refused
  deriving DecidableEq

structure Execution (N : Type) where
  lockResource : Option JsString
  tryLockTimeout : Option ℕ
  phase : Phase N
  request : LockRequest
  /-- The lock was granted while the execution waited for it. -/
  grantedInTime : Bool
  /-- The lock is neither released nor expired at `redlock`. -/
  held : Bool
  /-- How often the execution has called `release`. -/
  releases : ℕ

/-- What may happen to one execution. -/
inductive Happening (N : Type)
  | grant
  | refuse
  | answer
  | timeout
  | validate (result : Except (Thrown N) Unit)
  | handle (result : Except (Thrown N) (Value N))
  | finish
  | unlock
  | released (result : Except (Thrown N) Unit)
  | expire

variable {N : Type}

def Phase.isAcquiring : Phase N → Bool
  | .acquiring => true
  | _ => false

/-- The handler runs. -/
def Phase.isHandling : Phase N → Bool
  | .handling _ => true
  | _ => false

/-- The execution has neither called `release` nor settled. -/
def Phase.isBusy : Phase N → Bool
  | .releasing _ => false
  | .settled _ => false
  | _ => true

def Phase.isSettled : Phase N → Bool
  | .settled _ => true
  | _ => false

/-- An execution that has asked for its lock, where it needs one. -/
def Execution.start (hasRedlock : Bool) (action : LockedAction) : Execution N :=
  let locked := hasRedlock ∧ action.actionLockResource.any fun r => r ≠ []
  { lockResource :=
      if locked then action.actionLockResource.map (action.name ++ js "." ++ ·) else none
    tryLockTimeout := action.tryLockTimeout
    phase := if locked then .acquiring else .validating false
    request := if locked then .pending else .none
    grantedInTime := false
    held := false
    releases := 0 }

namespace Execution

variable (e : Execution N)

/-- `redlock` grants the lock asked for. -/
def grant : Option (Execution N) :=
  match e.request with
  | .pending =>
    some { e with request := .granted, held := true, grantedInTime := e.phase.isAcquiring }
  | _ => none

/-- `redlock` refuses the lock asked for, which the execution logs and goes on. -/
def refuse : Option (Execution N) :=
  match e.request with
  | .pending => some { e with request := .refused }
  | _ => none

/-- The answer of `redlock` reaches an execution that waits for it. -/
def answer : Option (Execution N) :=
  match e.phase, e.request with
  | .acquiring, .granted => some { e with phase := .validating true }
  | .acquiring, .refused => some { e with phase := .validating false }
  | _, _ => none

/-- The timer fires first: the execution goes on without a lock and the request stands. -/
def timeout : Option (Execution N) :=
  match e.phase, e.tryLockTimeout with
  | .acquiring, some _ => some { e with phase := .validating false }
  | _, _ => none

/-- The arguments are validated and the handler is called where they are valid. -/
def validate (result : Except (Thrown N) Unit) : Option (Execution N) :=
  match e.phase, result with
  | .validating lock, .ok () => some { e with phase := .handling lock }
  | .validating lock, .error err => some { e with phase := .finishing lock (.error err) }
  | _, _ => none

/-- The handler settles. -/
def handle (result : Except (Thrown N) (Value N)) : Option (Execution N) :=
  match e.phase with
  | .handling lock => some { e with phase := .finishing lock result }
  | _ => none

/-- The `finally` block: the lock, where there is one, is released. -/
def finish : Option (Execution N) :=
  match e.phase with
  | .finishing true result =>
    some { e with phase := .releasing result, releases := e.releases + 1 }
  | .finishing false result => some { e with phase := .settled result }
  | _ => none

/-- `redlock` frees a lock that the execution releases. -/
def unlock : Option (Execution N) :=
  if 0 < e.releases then some { e with held := false } else none

/-- The release settles, and with it the execution. -/
def released (result : Except (Thrown N) Unit) : Option (Execution N) :=
  match e.phase, result with
  | .releasing res, .ok () => some { e with phase := .settled res }
  | .releasing _, .error err => some { e with phase := .settled (.error err) }
  | _, _ => none

/-- The lock expires, but not under an execution that was granted it in time. -/
def expire : Option (Execution N) :=
  if e.held ∧ ¬ (e.grantedInTime ∧ e.phase.isBusy) then some { e with held := false } else none

def next : Happening N → Option (Execution N)
  | .grant => e.grant
  | .refuse => e.refuse
  | .answer => e.answer
  | .timeout => e.timeout
  | .validate result => e.validate result
  | .handle result => e.handle result
  | .finish => e.finish
  | .unlock => e.unlock
  | .released result => e.released result
  | .expire => e.expire

end Execution

structure Executor (N : Type) where
  executions : ℕ → Execution N
  started : ℕ

inductive ExecutorEvent (N : Type)
  | execute (action : LockedAction)
  | step (i : ℕ) (x : Happening N)

def Happening.isGrant : Happening N → Bool
  | .grant => true
  | _ => false

/-- No execution holds the lock of the `i`-th one. -/
def Executor.Free (s : Executor N) (i : ℕ) : Prop :=
  ∀ j < s.started, (s.executions j).held →
    (s.executions j).lockResource ≠ (s.executions i).lockResource

instance (s : Executor N) (i : ℕ) : Decidable (s.Free i) := Nat.decidableBallLT _ _

def executorStep (hasRedlock : Bool) (s : Executor N) : ExecutorEvent N → Option (Executor N)
  | .execute action =>
    some
      { executions := Function.update s.executions s.started (Execution.start hasRedlock action)
        started := s.started + 1 }
  | .step i x =>
    if i < s.started ∧ (x.isGrant → s.Free i) then
      ((s.executions i).next x).map fun e =>
        { s with executions := Function.update s.executions i e }
    else none

/-- No execution has begun. -/
def Executor.start : Executor N where
  executions _ := Execution.start false ⟨[], none, none⟩
  started := 0

end DiiaApp
