import Mathlib.Data.Rat.Floor
import Mathlib.Tactic.Linarith
import Mathlib.Tactic.NormNum
import Mathlib.Tactic.Positivity
import Mathlib.Tactic.FieldSimp

/-!
# Dates and the numbers they are computed with

A valid `Date` is a whole number of milliseconds, from 1970, in the range the language gives it. The
arithmetic of the language rounds each result to a double; in that range the rounded quotient of a
time by 1000 still has the floor of the exact one (`floor_seconds`).
-/

namespace Js

/-- The times a `Date` can hold. -/
def maxTime : ℤ := 8640000000000000

structure Date where
  time : ℤ
  inRange : |time| ≤ maxTime
  deriving DecidableEq

/-- The integer part of a number. -/
def trunc (x : ℚ) : ℤ := if 0 ≤ x then ⌊x⌋ else ⌈x⌉

theorem abs_trunc_le {x : ℚ} {n : ℤ} (h : |x| ≤ n) : |trunc x| ≤ n := by
  obtain ⟨h1, h2⟩ := abs_le.1 h
  rw [abs_le]
  unfold trunc
  split_ifs with hx
  · exact ⟨Int.le_floor.2 (by push_cast; exact h1), Int.floor_le_iff.2 (by linarith)⟩
  · exact ⟨Int.le_ceil_iff.2 (by push_cast; linarith), Int.ceil_le.2 h2⟩

/-- `new Date(x)`, valid or not. -/
def Date.ofNumber (x : ℚ) : Option Date :=
  if h : |x| ≤ maxTime then some ⟨trunc x, abs_trunc_le h⟩ else none

theorem Date.ofNumber_time (d : Date) : Date.ofNumber d.time = some d := by
  have h : |(d.time : ℚ)| ≤ maxTime := by exact_mod_cast d.inRange
  rw [ofNumber, dif_pos h, Option.some.injEq]
  obtain ⟨t, ht⟩ := d
  simp [trunc]

/-- `fl` rounds to doubles: it keeps the integers that are doubles, and is off by half a unit in the
last place at most. -/
structure RoundsToDouble (fl : ℚ → ℚ) : Prop where
  exact : ∀ z : ℤ, |z| ≤ 2 ^ 53 → fl z = z
  close : ∀ q, 1 / 2 ^ 1022 ≤ |q| → |q| ≤ 2 ^ 1023 → |fl q - q| ≤ |q| / 2 ^ 53

/-- The quotient of a time by 1000 is rounded by less than a thousandth. -/
theorem round_seconds {fl : ℚ → ℚ} (hf : RoundsToDouble fl) {t : ℤ} (ht : |t| ≤ maxTime)
    (h0 : t ≠ 0) : |fl (t / 1000) - t / 1000| < 1 / 1000 := by
  have hle : |(t : ℚ)| ≤ 8640000000000000 := by exact_mod_cast ht
  have hge : 1 ≤ |(t : ℚ)| := by exact_mod_cast Int.one_le_abs h0
  have habs : |(t : ℚ) / 1000| = |(t : ℚ)| / 1000 := by rw [abs_div]; norm_num
  have hsmall : (1 : ℚ) / 2 ^ 1022 ≤ 1 / 1000 := by
    refine one_div_le_one_div_of_le (by norm_num) ?_
    exact le_trans (by norm_num : (1000 : ℚ) ≤ 2 ^ 10)
      (pow_le_pow_right₀ (by norm_num) (by norm_num))
  have hbig : (8640000000000000 : ℚ) / 1000 ≤ 2 ^ 1023 :=
    le_trans (by norm_num : _ ≤ (2 : ℚ) ^ 53) (pow_le_pow_right₀ (by norm_num) (by norm_num))
  have h := hf.close (t / 1000)
    (hsmall.trans (habs ▸ div_le_div_of_nonneg_right hge (by norm_num)))
    ((habs ▸ div_le_div_of_nonneg_right hle (by norm_num)).trans hbig)
  have hlt : |(t : ℚ) / 1000| / 2 ^ 53 < 1 / 1000 := by
    rw [habs, div_lt_iff₀ (by positivity)]
    norm_num
    linarith
  exact h.trans_lt hlt

/-- The seconds of a time, though the quotient is rounded. -/
theorem floor_seconds {fl : ℚ → ℚ} (hf : RoundsToDouble fl) {t : ℤ} (ht : |t| ≤ maxTime) :
    ⌊fl (t / 1000)⌋ = t / 1000 := by
  have hle : |t| ≤ 8640000000000000 := ht
  rw [abs_le] at hle
  by_cases hr : t % 1000 = 0
  · -- a whole number of seconds is a double
    have hq : ((t : ℚ) / 1000) = ((t / 1000 : ℤ) : ℚ) := by
      rw [eq_comm, Int.cast_div (Int.dvd_of_emod_eq_zero hr) (by norm_num)]
      norm_num
    have hbound : |t / 1000| ≤ 2 ^ 53 := abs_le.2 ⟨by omega, by omega⟩
    rw [hq, hf.exact _ hbound, Int.floor_intCast]
  · have h := abs_lt.1 (round_seconds hf ht fun h0 => hr (by rw [h0]; rfl))
    have hq : (t : ℚ) / 1000 = (t / 1000 : ℤ) + (t % 1000 : ℤ) / 1000 := by
      have : (t : ℚ) = 1000 * (t / 1000 : ℤ) + (t % 1000 : ℤ) := by
        exact_mod_cast (Int.mul_ediv_add_emod t 1000).symm
      rw [this]
      field_simp
    have h1 : (1 : ℚ) ≤ (t % 1000 : ℤ) := by exact_mod_cast (by omega : 1 ≤ t % 1000)
    have h2 : ((t % 1000 : ℤ) : ℚ) ≤ 999 := by exact_mod_cast (by omega : t % 1000 ≤ 999)
    rw [Int.floor_eq_iff]
    constructor <;> linarith

end Js
