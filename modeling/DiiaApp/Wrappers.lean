import DiiaApp.Errors
import DiiaApp.Js.Date

/-!
# The wrapper of `google.protobuf.Timestamp`

A `Date`, and a text that `Date.parse` reads, become the `seconds` and `nanos` of a `Timestamp`;
anything else goes to the converter of the message type, to which the wrapper is bound.
-/

namespace DiiaApp

open Js

structure Timestamp where
  seconds : ℤ
  nanos : ℤ
  deriving DecidableEq

/-- What the wrapper is given. -/
inductive TimestampInput (N : Type)
  | text (s : JsString)
  | date (d : Date)
  | object (v : Value N)

/-- The message type the wrapper is bound to, and the arithmetic and `Date.parse` of the engine. -/
structure TimestampType (N : Type) where
  fromObject : Value N → Except (Thrown N) Timestamp
  create : ℤ → ℤ → Timestamp
  parseDate : JsString → Option Date
  round : ℚ → ℚ

variable {N : Type} (T : TimestampType N)

/-- The type keeps an `int64` in `seconds` and an `int32` in `nanos`. -/
structure TimestampType.Stores [JsNumber N] : Prop where
  fromObject : ∀ s n : ℤ, |s| < 2 ^ 63 → |n| < 2 ^ 31 → T.fromObject
    (.obj [(js "seconds", .num (JsNumber.ofInt s)), (js "nanos", .num (JsNumber.ofInt n))])
      = .ok ⟨s, n⟩
  create : ∀ s n, T.create s n = ⟨s, n⟩

namespace TimestampWrapper

def fromObject [JsNumber N] : TimestampInput N → Except (Thrown N) Timestamp
  | .date object => T.fromObject (.obj
      [(js "seconds", .num (JsNumber.ofInt ⌊T.round (object.time / 1000)⌋)),
        (js "nanos", .num (JsNumber.ofInt (object.time.tmod 1000 * 1000000)))])
  | .object object => T.fromObject object
  | .text object =>
    match T.parseDate object with
    | none => T.fromObject (.str object)
    | some dt => .ok (T.create ⌊T.round (dt.time / 1000)⌋ (dt.time.tmod 1000 * 1000000))

/-- The `Date` of a message, where it is a valid one. -/
def toObject (message : Timestamp) : Option Date :=
  Date.ofNumber
    (T.round (T.round (message.seconds * 1000) + T.round (message.nanos / 1000000)))

end TimestampWrapper

end DiiaApp
