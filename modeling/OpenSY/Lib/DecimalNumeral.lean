import Mathlib.Algebra.Order.Field.Rat
import Mathlib.Data.List.DropRight
import Mathlib.Data.List.TakeWhile
import Mathlib.Tactic.NormNum
import OpenSY.Lib.DecimalText

/-!
# Decimal numerals

What a text of digits with a decimal point denotes, as a rational number.

* `fraction_trim`: zeros at the end of the digits behind the point do not count.
* `numeralValue_digits`, `numeralValue_point`: the value of a numeral without a point and with one.
-/

namespace OpenSY.DecimalText

/-- What digits behind a point denote. -/
def fraction (text : List UInt8) : ℚ := decimalValue text / 10 ^ text.length

/-- What a decimal numeral denotes: digits, or digits, a point and more digits. -/
def numeralValue (point : UInt8) (text : List UInt8) : Option ℚ :=
  match text.takeWhile isDigit, text.dropWhile isDigit with
  | [], _ => none
  | whole, [] => some (decimalValue whole)
  | whole, c :: frac =>
    if c = point ∧ frac ≠ [] ∧ frac.all isDigit = true then
      some (decimalValue whole + fraction frac) else none

/-! ### Fractions -/

theorem fraction_append_zeros (text : List UInt8) (k : ℕ) :
    fraction (text ++ List.replicate k zeroByte) = fraction text := by
  rw [fraction, fraction, decimalValue_append_zeros, List.length_append,
    List.length_replicate, pow_add]
  push_cast
  exact mul_div_mul_right _ _ (pow_ne_zero k (by norm_num))

theorem fraction_paddedText {w n : ℕ} (h : n < 10 ^ (w + 1)) :
    fraction (paddedText (w + 1) n) = n / 10 ^ (w + 1) := by
  rw [fraction, decimalValue_paddedText, paddedText_length h]

/-- Trimming takes zeros off the end and nothing else. -/
theorem exists_zeros_trim (text : List UInt8) :
    ∃ k, text = text.rdropWhile (· = zeroByte) ++ List.replicate k zeroByte := by
  induction text using List.reverseRecOn with
  | nil => exact ⟨0, rfl⟩
  | append_singleton text c ih =>
    by_cases hc : c = zeroByte
    · obtain ⟨k, hk⟩ := ih
      refine ⟨k + 1, ?_⟩
      have hdrop := List.rdropWhile_concat_pos (· = zeroByte) text c (decide_eq_true hc)
      rw [hdrop, List.replicate_succ', ← List.append_assoc, ← hk, hc]
    · refine ⟨0, ?_⟩
      have hkeep := List.rdropWhile_concat_neg (· = zeroByte) text c (by simpa using hc)
      rw [hkeep]
      exact (List.append_nil _).symm

/-- Without the zeros at its end a fraction is the same, also where a single zero is left of nothing
but zeros. -/
theorem fraction_trim (text : List UInt8) :
    fraction (if text.rdropWhile (· = zeroByte) = [] then [zeroByte]
      else text.rdropWhile (· = zeroByte)) =
      fraction text := by
  obtain ⟨k, hk⟩ := exists_zeros_trim text
  have hsame : fraction text = fraction (text.rdropWhile (· = zeroByte)) := by
    conv_lhs => rw [hk]
    exact fraction_append_zeros _ k
  rw [hsame]
  by_cases hnil : text.rdropWhile (· = zeroByte) = []
  · rw [if_pos hnil, hnil]
    exact fraction_append_zeros [] 1
  · rw [if_neg hnil]

/-! ### Numerals -/

section Numerals

variable {point : UInt8} {whole frac : List UInt8}

theorem numeralValue_digits (hwhole : ∀ c ∈ whole, isDigit c = true) (hne : whole ≠ []) :
    numeralValue point whole = some (decimalValue whole : ℚ) := by
  rw [numeralValue, List.takeWhile_eq_self_iff.mpr hwhole, List.dropWhile_eq_nil_iff.mpr hwhole]
  cases whole with
  | nil => exact absurd rfl hne
  | cons c whole => rfl

theorem numeralValue_point (hpoint : isDigit point = false) (hwhole : ∀ c ∈ whole, isDigit c = true)
    (hne : whole ≠ []) (hfrac : ∀ c ∈ frac, isDigit c = true) (hfrac_ne : frac ≠ []) :
    numeralValue point (whole ++ [point] ++ frac) = some (decimalValue whole + fraction frac) := by
  have htake : (whole ++ ([point] ++ frac)).takeWhile isDigit = whole := by
    rw [List.takeWhile_append_of_pos hwhole, List.cons_append,
      List.takeWhile_cons_of_neg (by simp [hpoint]),
      List.append_nil]
  have hdrop : (whole ++ ([point] ++ frac)).dropWhile isDigit = point :: frac := by
    rw [List.dropWhile_append_of_pos hwhole, List.cons_append,
      List.dropWhile_cons_of_neg (by simp [hpoint])]
    rfl
  rw [List.append_assoc, numeralValue, htake, hdrop]
  cases whole with
  | nil => exact absurd rfl hne
  | cons c whole => exact if_pos ⟨rfl, hfrac_ne, List.all_eq_true.mpr hfrac⟩

end Numerals

end OpenSY.DecimalText
