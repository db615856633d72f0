import DiiaApp.ActionExecutor
import DiiaApp.Leases

/-!
# Locks that expire

Executions together with `redlock` and its clock. A lock is a lease for `actionLockTtl`: it is gone
when that time is up, even under an execution that is still busy.
-/

namespace DiiaApp

open Js

variable {N : Type}

/-- In milliseconds. -/
def actionLockTtl : ℕ := 30000

/-- Executions, and what `redlock` has leased to each. -/
structure TimedExecutor (N : Type) where
  executor : Executor N
  redlock : Leases.State ℕ (Option JsString)

inductive TimedEvent (N : Type)
  | tick (d : ℕ)
  | expire (i : ℕ)
  | happens (e : ExecutorEvent N)

namespace TimedExecutor

variable (s : TimedExecutor N)

/-- `redlock` after something happens to an execution. -/
def redlockAfter : ExecutorEvent N → Option (Leases.State ℕ (Option JsString))
  | .step i .grant => s.redlock.grant i (s.executor.executions i).lockResource
  | .step i .unlock => some (s.redlock.release i)
  -- a lock expires by the clock alone
  | .step _ .expire => none
  | _ => some s.redlock

/-- The lock of an execution is gone. -/
def loseLock (i : ℕ) : Executor N :=
  { s.executor with
    executions := Function.update s.executor.executions i
      { s.executor.executions i with held := false } }

def start : TimedExecutor N := ⟨Executor.start, Leases.start⟩

end TimedExecutor

def timedStep (hasRedlock : Bool) (s : TimedExecutor N) : TimedEvent N → Option (TimedExecutor N)
  | .tick d => some { s with redlock := s.redlock.tick d }
  | .expire i => (s.redlock.expire actionLockTtl i).map fun redlock => ⟨s.loseLock i, redlock⟩
  | .happens e =>
    (executorStep hasRedlock s.executor e).bind fun executor =>
      (s.redlockAfter e).map fun redlock => ⟨executor, redlock⟩

/-- The clock goes on no further than the time of each lock that was granted in time to an execution
that is still busy. -/
def TimedExecutor.InTime (s : TimedExecutor N) : TimedEvent N → Prop
  | .tick d => ∀ l ∈ s.redlock.leases, l.status = .kept →
      (s.executor.executions l.owner).grantedInTime →
      (s.executor.executions l.owner).phase.isBusy → s.redlock.clock + d < l.since + actionLockTtl
  | _ => True

/-- What an event is without the clock. -/
def TimedEvent.untimed : TimedEvent N → Option (ExecutorEvent N)
  | .tick _ => none
  | .expire i => some (.step i .expire)
  | .happens e => some e

/-- The clock and locks that expire, which executions have no part in. -/
def TimedEvent.isClock : TimedEvent N → Bool
  | .happens _ => false
  | _ => true

end DiiaApp
