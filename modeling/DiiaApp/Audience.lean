import DiiaApp.StreamService

/-!
# Who hears a channel

What a stream action is for, told from the events alone: a call opened from a device hears the
device's channel from its open, where it is let in, until its close or until it gives way to a newer
call of the device. Where the policy forbids a second call, the error that says so tells by its code
and its data what becomes of it.
-/

namespace DiiaApp

open Js GrpcServerStreamAction

/-- What becomes of a call that asks to hear a channel. -/
inductive Admission
  | free
  | refused
  /-- The error names nothing that can be gone through. -/
  | failed
  /-- The streams named give way. -/
  | replaces (streamIds : List JsString)

variable {N : Type}

/-- The stream id that a value is. -/
def streamIdOf : Value N → Option JsString
  | .str streamId => some streamId
  | _ => none

/-- What becomes of a call of the device `mobileUid` where `calls` hear the channel. -/
def admission (p : Packages N) (policy : DeviceMultipleConnectionPolicy) (mobileUid : JsString)
    (calls : List Subscription) : Admission :=
  match subscribeError p policy mobileUid calls with
  | none => .free
  | some err =>
    let error := handleError p err
    if error.code = subscriptionsExists then
      match (getProp error.data (js "subscriptions")).bind iterate with
      | .error _ => .failed
      | .ok ids => .replaces (ids.filterMap streamIdOf)
    else .refused

/-- The calls that hear a channel once the call `x` has asked to. Where others stay that a policy
forbids, it is not let in. -/
def letIn (x : Subscription) (calls : List Subscription) : Admission → List Subscription
  | .free => calls ++ [x]
  | .refused => calls
  | .failed => calls
  | .replaces streamIds =>
    let stay := calls.filter fun sub => sub.streamId ∉ streamIds
    if stay = [] then [x] else stay

/-- The number of calls opened so far, and those that hear each device's channel. -/
structure Audience where
  opened : ℕ
  hears : JsString → List Subscription

namespace Audience

def start : Audience := ⟨0, fun _ => []⟩

/-- The call `c` hears the channel of `m`. -/
def Hears (a : Audience) (m : JsString) (c : CallRef) : Prop :=
  ∃ sub ∈ a.hears m, sub.handler = c

variable [JsNumber N] (p : Packages N) (policy : DeviceMultipleConnectionPolicy)
  (version : Option ActionVersion)

/-- The audience after one more event. -/
def next (a : Audience) : StreamEvent N → Audience
  | .open o =>
    { opened := a.opened + 1
      hears := fun m =>
        if openedFrom p (action p policy version) o = some m then
          letIn ⟨o.streamId, a.opened⟩ (a.hears m) (admission p policy m (a.hears m))
        else a.hears m }
  | .close c => { a with hears := fun m => (a.hears m).filter fun sub => sub.handler ≠ c }
  | _ => a

/-- The audience after the events `es`. -/
def after (es : List (StreamEvent N)) : Audience := es.foldl (next p policy version) start

end Audience

end DiiaApp
