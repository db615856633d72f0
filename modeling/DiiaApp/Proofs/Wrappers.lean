import DiiaApp.Js.Integer
import DiiaApp.Wrappers

/-!
# Dates through the `Timestamp` wrapper

The seconds of a time are rounded down and the rest is what `%` leaves, which has the sign of the
time: so a `Date` comes back from the message it is encoded as where its time is not negative or a
whole number of seconds, and nowhere else (`encodes_iff`).
-/

namespace DiiaApp

open Js TimestampWrapper

/-- The message denotes the time, its nanoseconds counted forward. -/
def Timestamp.Denotes (m : Timestamp) (t : ℤ) : Prop :=
  0 ≤ m.nanos ∧ m.nanos < 10 ^ 9 ∧ (m.seconds : ℚ) * 1000 + m.nanos / 10 ^ 6 = t

variable {N : Type} {T : TimestampType N}

/-- What both branches of the wrapper make of a time. -/
def timestampOf (t : ℤ) : Timestamp := ⟨t / 1000, t.tmod 1000 * 1000000⟩

theorem tmod_seconds (t : ℤ) :
    t.tmod 1000 = t % 1000 - if 0 ≤ t ∨ 1000 ∣ t then 0 else 1000 := by
  rw [Int.tmod_eq_emod]
  split_ifs <;> rfl

theorem tmod_seconds_lt (t : ℤ) : |t.tmod 1000| < 1000 := by
  rw [tmod_seconds, abs_lt]
  split_ifs <;> omega

theorem seconds_add (t : ℤ) : ((t / 1000 : ℤ) : ℚ) * 1000 + (t % 1000 : ℤ) = t := by
  have h : t / 1000 * 1000 + t % 1000 = t := Int.ediv_mul_add_emod t 1000
  exact_mod_cast h

/-- Where the rest of the division is not negative, the message is read back. -/
theorem toObject_timestampOf (hr : RoundsToDouble T.round) (d : Date)
    (h : 0 ≤ d.time ∨ 1000 ∣ d.time) : toObject T (timestampOf d.time) = some d := by
  have hd : |d.time| ≤ 8640000000000000 := d.inRange
  rw [abs_le] at hd
  have hs := hr.exact (d.time / 1000 * 1000) (abs_le.2 ⟨by omega, by omega⟩)
  have hn := hr.exact (d.time % 1000) (abs_le.2 ⟨by omega, by omega⟩)
  have hnanos : ((d.time % 1000 * 1000000 : ℤ) : ℚ) / 1000000 = (d.time % 1000 : ℤ) := by
    push_cast
    field_simp
  rw [Int.cast_mul, Int.cast_ofNat] at hs
  rw [toObject, timestampOf, tmod_seconds, if_pos h, sub_zero, hs, hnanos, hn, seconds_add,
    hr.exact _ (abs_le.2 ⟨by omega, by omega⟩)]
  exact d.ofNumber_time

variable [JsNumber N]

/-- The wrapper encodes the date: its message denotes the time, is read back as the date, and is
that of every text that parses to it. -/
def Encodes (T : TimestampType N) (d : Date) : Prop :=
  ∃ m, fromObject T (.date d) = .ok m ∧ m.Denotes d.time ∧ toObject T m = some d ∧
    ∀ s, T.parseDate s = some d → fromObject T (.text s) = .ok m

theorem fromObject_date (hT : T.Stores) (hr : RoundsToDouble T.round) (d : Date) :
    fromObject T (.date d) = .ok (timestampOf d.time) := by
  have h1 := floor_seconds hr d.inRange
  have h2 : |d.time| ≤ 8640000000000000 := d.inRange
  have h3 := abs_lt.1 (tmod_seconds_lt d.time)
  rw [abs_le] at h2
  rw [fromObject, h1]
  exact hT.fromObject _ _ (abs_lt.2 ⟨by omega, by omega⟩) (abs_lt.2 ⟨by omega, by omega⟩)

theorem fromObject_text (hT : T.Stores) (hr : RoundsToDouble T.round) {s : JsString} {d : Date}
    (h : T.parseDate s = some d) : fromObject T (.text s) = .ok (timestampOf d.time) := by
  simp only [fromObject, h, hT.create, floor_seconds hr d.inRange]
  rfl

/-- A date is encoded exactly where it is not before 1970 or is a whole number of seconds. -/
theorem encodes_iff (hT : T.Stores) (hr : RoundsToDouble T.round) (d : Date) :
    Encodes T d ↔ 0 ≤ d.time ∨ 1000 ∣ d.time := by
  constructor
  · rintro ⟨m, hm, hden, -⟩
    rw [fromObject_date hT hr, Except.ok.injEq] at hm
    subst hm
    by_contra hn
    have h0 : 0 ≤ d.time.tmod 1000 * 1000000 := hden.1
    rw [tmod_seconds, if_neg hn] at h0
    omega
  · intro h
    refine ⟨_, fromObject_date hT hr d, ⟨?_, ?_, ?_⟩, toObject_timestampOf hr d h,
      fun s hs => fromObject_text hT hr hs⟩ <;>
      simp only [timestampOf, tmod_seconds, if_pos h, sub_zero]
    · omega
    · omega
    · have hnanos : ((d.time % 1000 * 1000000 : ℤ) : ℚ) / 10 ^ 6 = (d.time % 1000 : ℤ) := by
        push_cast
        field_simp
        norm_num
      rw [hnanos, seconds_add]

/-- A message type that stores what it is given, with exact arithmetic and two texts of dates. -/
def plainTimestamp : TimestampType ℤ where
  fromObject v :=
    match v.prop (js "seconds"), v.prop (js "nanos") with
    | .num seconds, .num nanos => .ok ⟨seconds, nanos⟩
    | _, _ => .ok ⟨0, 0⟩
  create seconds nanos := ⟨seconds, nanos⟩
  parseDate s :=
    if s = js "1970-01-01T00:00:01.500Z" then some ⟨1500, by decide⟩
    else if s = js "1969-12-31T23:59:59.999Z" then some ⟨-1, by decide⟩
    else none
  round := id

theorem plainTimestamp_stores : plainTimestamp.Stores := ⟨fun _ _ _ _ => rfl, fun _ _ => rfl⟩

theorem plainTimestamp_rounds : RoundsToDouble plainTimestamp.round :=
  ⟨fun _ _ => rfl, fun q _ _ => by simpa [plainTimestamp] using by positivity⟩

theorem encodes_iff_recent : Encodes plainTimestamp ⟨1500, by decide⟩ :=
  (encodes_iff plainTimestamp_stores plainTimestamp_rounds ⟨1500, by decide⟩).2 (.inl (by decide))

/-- One millisecond before 1970 is encoded with negative nanoseconds. -/
theorem not_encoded : ¬ Encodes plainTimestamp ⟨-1, by decide⟩ := by
  rintro ⟨m, hm, hden, -⟩
  rw [fromObject_date plainTimestamp_stores plainTimestamp_rounds, Except.ok.injEq] at hm
  subst hm
  exact absurd hden.1 (by decide)

end DiiaApp
