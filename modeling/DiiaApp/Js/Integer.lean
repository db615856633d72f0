import DiiaApp.Js.Value
import DiiaApp.Proofs.Text
import Mathlib.Data.List.TakeWhile

/-!
# The integers as numbers

Integers are written in decimal and read back, so they are a `JsNumber`; a token with a fraction or
an exponent stands for its integer part. The concrete runs of the development use them.
-/

namespace Js

theorem unit_of_digit {c : Char} (h : c.isDigit) :
    isDigit (UInt16.ofNat c.toNat) ∧ (UInt16.ofNat c.toNat).toNat = c.toNat := by
  have hc : 48 ≤ c.toNat ∧ c.toNat ≤ 57 := Char.isDigit_iff_toNat.1 h
  have ht : (UInt16.ofNat c.toNat).toNat = c.toNat := toNat_ofNat (by omega)
  exact ⟨by simp only [isDigit, ht, decide_eq_true_eq]; exact hc, ht⟩

theorem isDigit_decimal {n : ℕ} : ∀ u ∈ decimal n, isDigit u := by
  intro u hu
  obtain ⟨c, hc, rfl⟩ := List.mem_map.1 hu
  exact (unit_of_digit (Nat.isDigit_of_mem_toDigits (by omega) (by omega) hc)).1

/-- A positive number does not start with a zero. -/
theorem decimal_head {n : ℕ} (h : 0 < n) : ∃ d rest, decimal n = d :: rest ∧ d ≠ 48 := by
  induction n using Nat.strongRecOn with
  | _ n ih =>
    by_cases hn : n < 10
    · refine ⟨UInt16.ofNat (n.digitChar).toNat, [], ?_, ?_⟩
      · simp [decimal, Nat.toDigits_of_lt_base hn]
      · rw [Nat.toNat_digitChar_of_lt_ten hn]
        intro he
        have := congrArg UInt16.toNat he
        rw [toNat_ofNat (by omega)] at this
        simp at this
        omega
    · obtain ⟨d, rest, h1, h2⟩ := ih (n / 10) (by omega) (by omega)
      refine ⟨d, rest ++ [UInt16.ofNat (n % 10).digitChar.toNat], ?_, h2⟩
      rw [decimal, Nat.toDigits_of_base_le (by omega) (by omega), List.map_append]
      show decimal (n / 10) ++ _ = _
      rw [h1]
      rfl

theorem isUnsigned_decimal (n : ℕ) : isUnsigned (decimal n) := by
  rcases Nat.eq_zero_or_pos n with rfl | h
  · decide
  · obtain ⟨d, rest, h1, h2⟩ := decimal_head h
    have hd := isDigit_decimal (n := n)
    rw [h1] at hd ⊢
    simp only [List.mem_cons, forall_eq_or_imp] at hd
    have hrest : rest.dropWhile isDigit = [] := by
      rw [List.dropWhile_eq_nil_iff]
      exact hd.2
    simp [isUnsigned, h2, hd.1, hrest, isFraction]

theorem decimal_ne_nil (n : ℕ) : decimal n ≠ [] := by simp [decimal]

theorem decimal_unsigned {n : ℕ} {d : CodeUnit} {rest : JsString} (h : decimal n = d :: rest) :
    d ≠ 45 := by
  rintro rfl
  have hd := isDigit_decimal (n := n) 45 (h ▸ List.mem_cons_self)
  exact absurd hd (by decide)

theorem isNumber_intText (n : ℤ) : isNumber (intText n) := by
  have h := isUnsigned_decimal n.natAbs
  unfold intText
  split_ifs
  · simpa [isNumber] using h
  · rcases hd : decimal n.natAbs with _ | ⟨d, rest⟩
    · exact absurd hd (decimal_ne_nil _)
    · have hne := decimal_unsigned hd
      rw [hd] at h
      simpa [isNumber, hne] using h

/-- The number the digits at the start of a text stand for. -/
def natOf (s : JsString) : ℕ :=
  Nat.ofDigitChars 10 ((s.takeWhile isDigit).map fun u => Char.ofNat u.toNat) 0

/-- The integer part of a number token. -/
def intOf : JsString → ℤ
  | [] => 0
  | u :: s => if u = 45 then -natOf s else natOf (u :: s)

theorem natOf_decimal (n : ℕ) : natOf (decimal n) = n := by
  have h : (decimal n).takeWhile isDigit = decimal n :=
    List.takeWhile_eq_self_iff.2 isDigit_decimal
  have hmap : (decimal n).map (fun u => Char.ofNat u.toNat) = Nat.toDigits 10 n := by
    unfold decimal
    rw [List.map_map, List.map_congr_left (g := id), List.map_id]
    intro c hc
    have := (unit_of_digit (Nat.isDigit_of_mem_toDigits (by omega) (by omega) hc)).2
    simp only [Function.comp_apply, this, id_eq]
    exact Char.ofNat_toNat c
  rw [natOf, h, hmap]
  exact Nat.ofDigitChars_toDigits (by omega) (by omega)

theorem intOf_intText (n : ℤ) : intOf (intText n) = n := by
  unfold intText
  split_ifs with h
  · simp only [intOf, if_true, natOf_decimal]
    omega
  · rcases hd : decimal n.natAbs with _ | ⟨d, rest⟩
    · exact absurd hd (decimal_ne_nil _)
    · have hne := decimal_unsigned hd
      rw [intOf, if_neg hne, ← hd, natOf_decimal]
      omega

instance : JsNumber ℤ where
  toText := intText
  ofText := intOf
  ofInt := id
  isZero := fun n => n = 0
  isNumber_toText := isNumber_intText
  ofText_toText := intOf_intText

end Js
