import Mathlib.Algebra.Ring.Parity
import Mathlib.Data.Int.Log
import Mathlib.Data.Rat.Floor
import Mathlib.Tactic.Linarith
import Mathlib.Tactic.NormNum
import Mathlib.Tactic.Positivity
import Mathlib.Tactic.Ring

/-!
# Numbers of double precision

The finite numbers are the rationals with a significand of 53 bits and an exponent from -1074 to 971
(`IsDouble`). A rational is rounded to the nearest of them, of two the one with the even
significand, and to an infinity where there is none (`Number.round`). The sign of a zero is left out.
-/

namespace Js

/-- The rational is a finite number of double precision. -/
def IsDouble (q : ℚ) : Prop :=
  ∃ (m : ℕ) (e : ℤ), m < 2 ^ 53 ∧ -1074 ≤ e ∧ e ≤ 971 ∧ |q| = m * 2 ^ e

theorem IsDouble.neg {q : ℚ} (h : IsDouble q) : IsDouble (-q) := by
  rwa [IsDouble, abs_neg]

/-- Integers of up to 53 bits are doubles. -/
theorem isDouble_of_natAbs_le {n : ℤ} (h : n.natAbs ≤ 2 ^ 53) : IsDouble n := by
  have habs : |(n : ℚ)| = n.natAbs := by rw [Nat.cast_natAbs, Int.cast_abs]
  rcases h.lt_or_eq with h | h
  · exact ⟨n.natAbs, 0, h, by norm_num, by norm_num, by rw [habs, zpow_zero, mul_one]⟩
  · exact ⟨2 ^ 52, 1, by norm_num, by norm_num, by norm_num, by rw [habs, h]; norm_num⟩

/-- Past those, no odd integer is a double. -/
theorem not_isDouble_of_odd {n : ℤ} (ho : Odd n) (h : 2 ^ 53 ≤ n.natAbs) : ¬ IsDouble n := by
  rintro ⟨m, e, hm, -, -, hme⟩
  have habs : |(n : ℚ)| = n.natAbs := by rw [Nat.cast_natAbs, Int.cast_abs]
  rw [habs] at hme
  rcases le_or_gt e 0 with he | he
  · have hle : (2 : ℚ) ^ e ≤ 1 := zpow_le_one_of_nonpos₀ (by norm_num) he
    have hmul : (n.natAbs : ℚ) ≤ m := by
      rw [hme]
      exact mul_le_of_le_one_right (Nat.cast_nonneg m) hle
    have : n.natAbs ≤ m := by exact_mod_cast hmul
    omega
  · obtain ⟨k, rfl⟩ : ∃ k : ℕ, e = (k + 1 : ℕ) := ⟨e.toNat - 1, by omega⟩
    rw [zpow_natCast] at hme
    have hnat : n.natAbs = m * 2 ^ (k + 1) := by exact_mod_cast hme
    have heven : Even n.natAbs := ⟨m * 2 ^ k, by rw [hnat, pow_succ]; ring⟩
    rw [Int.natAbs_even] at heven
    exact (Int.not_even_iff_odd.2 ho) heven

/-- The value of a numeric string or computation that is a number. -/
inductive Number
  | finite (q : ℚ) (h : IsDouble q)
  | infinity (negative : Bool)

/-- The integer nearest to a rational that is not negative, of two the even one. -/
def roundEven (x : ℚ) : ℕ :=
  if 2 * (x - ⌊x⌋₊) < 1 ∨ 2 * (x - ⌊x⌋₊) = 1 ∧ Even ⌊x⌋₊ then ⌊x⌋₊ else ⌊x⌋₊ + 1

/-- The exponent of the last bit of the significand. -/
def unitExponent (a : ℚ) : ℤ := max (Int.log 2 a - 52) (-1074)

/-- The multiple of the unit that is nearest to a magnitude. -/
def roundMagnitude (a : ℚ) : ℚ := roundEven (a / 2 ^ unitExponent a) * 2 ^ unitExponent a

section RoundEven

variable {x : ℚ}

theorem roundEven_cases (x : ℚ) :
    (roundEven x = ⌊x⌋₊ ∧ 2 * (x - ⌊x⌋₊) ≤ 1) ∨
      (roundEven x = ⌊x⌋₊ + 1 ∧ 1 ≤ 2 * (x - ⌊x⌋₊)) := by
  unfold roundEven
  split_ifs with hr
  · refine .inl ⟨rfl, ?_⟩
    rcases hr with hr | hr
    · exact hr.le
    · exact hr.1.le
  · rw [not_or, not_lt] at hr
    exact .inr ⟨rfl, hr.1⟩

theorem roundEven_nearest (h : 0 ≤ x) (k : ℕ) : |x - roundEven x| ≤ |x - k| := by
  have hf : (⌊x⌋₊ : ℚ) ≤ x := Nat.floor_le h
  have hf' : x < ⌊x⌋₊ + 1 := Nat.lt_floor_add_one x
  have hk : (k : ℚ) ≤ ⌊x⌋₊ ∨ (⌊x⌋₊ : ℚ) + 1 ≤ k := by
    rcases Nat.lt_or_ge ⌊x⌋₊ k with hk | hk
    · exact .inr (by exact_mod_cast hk)
    · exact .inl (by exact_mod_cast hk)
  have hround : |x - roundEven x| ≤ x - ⌊x⌋₊ ∧ |x - roundEven x| ≤ ⌊x⌋₊ + 1 - x := by
    rcases roundEven_cases x with ⟨he, hr⟩ | ⟨he, hr⟩ <;> rw [he]
    · rw [abs_of_nonneg (by linarith)]
      exact ⟨le_rfl, by linarith⟩
    · push_cast
      rw [abs_of_nonpos (by linarith)]
      exact ⟨by linarith, by linarith⟩
  rcases hk with hk | hk
  · rw [abs_of_nonneg (show 0 ≤ x - k by linarith)]
    linarith [hround.1]
  · rw [abs_of_nonpos (show x - k ≤ 0 by linarith)]
    linarith [hround.2]

theorem roundEven_le {n : ℕ} (h : 0 ≤ x) (hx : x < n) : roundEven x ≤ n := by
  have hf : ⌊x⌋₊ < n := (Nat.floor_lt h).2 hx
  rcases roundEven_cases x with ⟨he, -⟩ | ⟨he, -⟩ <;> omega

theorem le_roundEven {n : ℕ} (hx : (n : ℚ) ≤ x) : n ≤ roundEven x := by
  have hf : n ≤ ⌊x⌋₊ := Nat.le_floor hx
  rcases roundEven_cases x with ⟨he, -⟩ | ⟨he, -⟩ <;> omega

end RoundEven

section Magnitude

variable {a : ℚ}

theorem unit_pos (a : ℚ) : (0 : ℚ) < 2 ^ unitExponent a := zpow_pos (by norm_num) _

theorem units_nonneg (ha : 0 ≤ a) : 0 ≤ a / 2 ^ unitExponent a := div_nonneg ha (unit_pos a).le

theorem pow_mul_zpow (n : ℕ) (e : ℤ) : ((2 ^ n : ℕ) : ℚ) * 2 ^ e = 2 ^ (n + e) := by
  rw [zpow_add₀ (by norm_num), zpow_natCast]
  norm_num

/-- A magnitude has less than `2 ^ 53` of its units, and at least `2 ^ 52` where they are not the
smallest. -/
theorem units_lt (a : ℚ) : a / 2 ^ unitExponent a < (2 ^ 53 : ℕ) := by
  rw [div_lt_iff₀ (unit_pos a), pow_mul_zpow]
  have hlog : a < 2 ^ (Int.log 2 a + 1) := by
    exact_mod_cast Int.lt_zpow_succ_log_self (by norm_num : 1 < 2) a
  refine hlog.trans_le (zpow_le_zpow_right₀ (by norm_num) ?_)
  unfold unitExponent
  omega

theorem le_units (ha : 0 < a) (hu : unitExponent a ≠ -1074) :
    ((2 ^ 52 : ℕ) : ℚ) ≤ a / 2 ^ unitExponent a := by
  rw [le_div_iff₀ (unit_pos a), pow_mul_zpow]
  have hlog : (2 : ℚ) ^ Int.log 2 a ≤ a := by
    exact_mod_cast Int.zpow_log_le_self (by norm_num : 1 < 2) ha
  refine le_trans (zpow_le_zpow_right₀ (by norm_num) ?_) hlog
  unfold unitExponent at hu ⊢
  omega

theorem roundMagnitude_nonneg (a : ℚ) : 0 ≤ roundMagnitude a :=
  mul_nonneg (Nat.cast_nonneg _) (unit_pos a).le

theorem roundMagnitude_zero : roundMagnitude 0 = 0 := by
  have h : roundEven 0 = 0 := by simp [roundEven]
  rw [roundMagnitude, zero_div, h, Nat.cast_zero, zero_mul]

/-- What a magnitude is rounded to is a double, unless it is too large. -/
theorem isDouble_roundMagnitude (ha : 0 ≤ a) (h : roundMagnitude a < 2 ^ (1024 : ℤ)) :
    IsDouble (roundMagnitude a) := by
  rcases ha.eq_or_lt with rfl | ha
  · rw [roundMagnitude_zero]
    exact ⟨0, 0, by norm_num, by norm_num, by norm_num, by simp⟩
  have hu : -1074 ≤ unitExponent a := le_max_right ..
  have hm : roundEven (a / 2 ^ unitExponent a) ≤ 2 ^ 53 :=
    roundEven_le (units_nonneg ha.le) (units_lt a)
  have hlarge : ∀ n : ℕ, 2 ^ n ≤ roundEven (a / 2 ^ unitExponent a) →
      (n : ℤ) + unitExponent a < 1024 := by
    intro n hn
    have hle : (2 : ℚ) ^ ((n : ℤ) + unitExponent a) ≤ roundMagnitude a := by
      rw [← pow_mul_zpow]
      exact mul_le_mul_of_nonneg_right (by exact_mod_cast hn) (unit_pos a).le
    exact (zpow_lt_zpow_iff_right₀ (by norm_num)).1 (hle.trans_lt h)
  rw [IsDouble, abs_of_nonneg (roundMagnitude_nonneg a)]
  rcases hm.lt_or_eq with hm | hm
  · refine ⟨_, _, hm, hu, ?_, rfl⟩
    by_contra hu'
    have := hlarge 52 (le_roundEven (le_units ha (by omega)))
    omega
  · -- a carry into a bit more
    have := hlarge 53 hm.ge
    refine ⟨2 ^ 52, unitExponent a + 1, by norm_num, by omega, by omega, ?_⟩
    rw [roundMagnitude, hm, pow_mul_zpow, pow_mul_zpow]
    congr 1
    push_cast
    ring

/-- No double is nearer to a magnitude than what it is rounded to. -/
theorem roundMagnitude_nearest (ha : 0 ≤ a) {d : ℚ} (hd : IsDouble d) :
    |a - roundMagnitude a| ≤ abs (a - |d|) := by
  rcases ha.eq_or_lt with rfl | ha
  · rw [roundMagnitude_zero, sub_zero, abs_zero]
    exact abs_nonneg _
  obtain ⟨m, e, hm, he, -, hme⟩ := hd
  have hunits : ∀ k : ℕ, |a - roundMagnitude a| ≤ |a - k * 2 ^ unitExponent a| := by
    intro k
    have hk := mul_le_mul_of_nonneg_right (roundEven_nearest (units_nonneg ha.le) k) (unit_pos a).le
    rw [← abs_of_pos (unit_pos a), ← abs_mul, ← abs_mul, abs_of_pos (unit_pos a), sub_mul, sub_mul,
      div_mul_cancel₀ _ (unit_pos a).ne'] at hk
    exact hk
  rw [hme]
  rcases le_or_gt (unitExponent a) e with hue | hue
  · -- a multiple of the unit
    obtain ⟨n, hn⟩ := Int.le.dest hue
    have hk := hunits (m * 2 ^ n)
    rwa [Nat.cast_mul, mul_assoc, pow_mul_zpow, add_comm, hn] at hk
  · -- a number of a lower binade, past the least number of the own one
    have hbelow : (m : ℚ) * 2 ^ e ≤ (2 ^ 52 : ℕ) * 2 ^ unitExponent a := by
      have hm' : (m : ℚ) ≤ (2 ^ 53 : ℕ) := by exact_mod_cast hm.le
      calc (m : ℚ) * 2 ^ e ≤ (2 ^ 53 : ℕ) * 2 ^ e :=
            mul_le_mul_of_nonneg_right hm' (zpow_pos (by norm_num) e).le
        _ = 2 ^ ((53 : ℕ) + e) := pow_mul_zpow 53 e
        _ ≤ 2 ^ ((52 : ℕ) + unitExponent a) := zpow_le_zpow_right₀ (by norm_num) (by omega)
        _ = (2 ^ 52 : ℕ) * 2 ^ unitExponent a := (pow_mul_zpow 52 _).symm
    have hleast : ((2 ^ 52 : ℕ) : ℚ) * 2 ^ unitExponent a ≤ a :=
      (le_div_iff₀ (unit_pos a)).1 (le_units ha (by omega))
    have hk := hunits (2 ^ 52)
    rw [abs_of_nonneg (sub_nonneg.2 hleast)] at hk
    rw [abs_of_nonneg (sub_nonneg.2 (hbelow.trans hleast))]
    linarith

end Magnitude

namespace Number

theorem isDouble_signed {q : ℚ} (h : roundMagnitude |q| < 2 ^ (1024 : ℤ)) :
    IsDouble (if q < 0 then -roundMagnitude |q| else roundMagnitude |q|) := by
  have hd := isDouble_roundMagnitude (abs_nonneg q) h
  split_ifs
  · exact hd.neg
  · exact hd

/-- The number nearest to a rational. -/
def round (q : ℚ) : Number :=
  if h : roundMagnitude |q| < 2 ^ (1024 : ℤ) then .finite _ (isDouble_signed h)
  else .infinity (q < 0)

variable {q : ℚ}

/-- A rational is rounded to a number with none nearer. -/
theorem round_nearest {r : ℚ} {h : IsDouble r} (hr : round q = .finite r h) {d : ℚ}
    (hd : IsDouble d) : |q - r| ≤ |q - d| := by
  have hsame : |q - r| = abs (|q| - roundMagnitude |q|) := by
    unfold round at hr
    split_ifs at hr with hlt hq
    · obtain rfl := Number.finite.inj hr
      rw [abs_of_neg hq, ← abs_neg]
      congr 1
      ring
    · obtain rfl := Number.finite.inj hr
      rw [abs_of_nonneg (not_lt.1 hq)]
  rw [hsame]
  exact (roundMagnitude_nearest (abs_nonneg q) hd).trans (abs_abs_sub_abs_le_abs_sub q d)

theorem lt_of_isDouble (h : IsDouble q) : |q| < 2 ^ (1024 : ℤ) := by
  obtain ⟨m, e, hm, -, he, hme⟩ := h
  have hm' : (m : ℚ) < (2 ^ 53 : ℕ) := by exact_mod_cast hm
  calc |q| = m * 2 ^ e := hme
    _ < (2 ^ 53 : ℕ) * 2 ^ e := mul_lt_mul_of_pos_right hm' (zpow_pos (by norm_num) e)
    _ = 2 ^ ((53 : ℕ) + e) := pow_mul_zpow 53 e
    _ ≤ 2 ^ (1024 : ℤ) := zpow_le_zpow_right₀ (by norm_num) (by omega)

/-- A double is rounded to itself, as nothing else is as near. -/
theorem round_of_isDouble (h : IsDouble q) : round q = .finite q h := by
  have hzero : roundMagnitude |q| = |q| := by
    have hn := roundMagnitude_nearest (abs_nonneg q) h
    rw [sub_self, abs_zero, abs_nonpos_iff, sub_eq_zero] at hn
    exact hn.symm
  unfold round
  simp only [hzero, lt_of_isDouble h, ↓reduceDIte]
  congr 1
  split_ifs with hq
  · rw [abs_of_neg hq, neg_neg]
  · rw [abs_of_nonneg (not_lt.1 hq)]

/-- Rounding gives a rational itself just where it is a double. -/
theorem round_eq_iff : (∃ h, round q = .finite q h) ↔ IsDouble q :=
  ⟨fun ⟨h, _⟩ => h, fun h => ⟨h, round_of_isDouble h⟩⟩

end Number

end Js
