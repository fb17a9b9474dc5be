import Mathlib.Data.List.GetD
import OpenSY.Lib.DecimalNumeral
import OpenSY.Wallet.Tokens

/-!
# Amounts in the answers of the calls

`FormatWithDecimals` and `FormatBalance` of `rpc/tokens.cpp` print an amount with the decimals of
its token; the wallet prints amounts with a function of its own (`formatTokenBalance`).  The loops
are those of the source: the divisor in 64 bits, the zeros put in front one by one, the search for
the last byte that is not a zero.

* `divisorLoop_toNat`, `padLoop_eq`, `findLastNotOf_spec`: what the three loops compute.
* `formatDecimals_eq`: the calls and the wallet print the same.
* `numeralValue_formatTokenBalance`: the text denotes the amount divided by the power of ten.
* `amount_text_exact`: hence the texts are exact, and different amounts have different texts.
-/

namespace OpenSY.Rpc

open OpenSY.Chain OpenSY.Script OpenSY.Wallet OpenSY.DecimalText

/-! ### The formatters -/

/-- `for (int i = 0; i < decimals; ++i) divisor *= 10;`, the divisor after some rounds. -/
def divisorLoop : ℕ → UInt64
  | 0 => 1
  | i + 1 => divisorLoop i * 10

/-- `while (static_cast<int>(frac_str.size()) < decimals) frac_str = "0" + frac_str;` -/
def padLoop (decimals : ℤ) (fracStr : Bytes) : Bytes :=
  if (fracStr.length : ℤ) < decimals then padLoop decimals (zeroByte :: fracStr) else fracStr
termination_by (decimals - fracStr.length).toNat
decreasing_by
  rw [List.length_cons]
  omega

/-- `find_last_not_of`, among the first bytes of a text and from their end. -/
def findLastNotOf (c : UInt8) (text : Bytes) : ℕ → Option ℕ
  | 0 => none
  | i + 1 => if text.getD i 0 ≠ c then some i else findLastNotOf c text i

/-- The body that the formatters of the calls share. -/
def formatDecimals (value : UInt64) (decimals : ℤ) : Bytes :=
  let decimals := if 18 < decimals then 18 else decimals
  if decimals ≤ 0 then decimalText value.toNat
  else
    let divisor := divisorLoop decimals.toNat
    let whole := value / divisor
    let frac := value % divisor
    let fracStr := padLoop decimals (decimalText frac.toNat)
    let fracStr :=
      match findLastNotOf zeroByte fracStr fracStr.length with
      | some lastNonzero => fracStr.take (lastNonzero + 1)
      | none => [zeroByte]
    decimalText whole.toNat ++ [pointByte] ++ fracStr

/-- `FormatWithDecimals` of `TokenInfoToJSON` -/
def formatWithDecimals : UInt64 → ℤ → Bytes := formatDecimals

/-- `FormatBalance` of `TokenBalanceToJSON` -/
def formatBalance : UInt64 → ℤ → Bytes := formatDecimals

/-! ### The divisor -/

theorem pow_ten_lt {i : ℕ} (h : i ≤ 19) : 10 ^ i < 2 ^ 64 :=
  (Nat.pow_le_pow_right (by decide) h).trans_lt (by decide)

theorem divisorLoop_toNat {i : ℕ} (h : i ≤ 19) : (divisorLoop i).toNat = 10 ^ i := by
  induction i with
  | zero => rfl
  | succ i ih =>
    rw [divisorLoop, UInt64.toNat_mul, ih (Nat.le_of_succ_le h),
      show (10 : UInt64).toNat = 10 from rfl, ← pow_succ, Nat.mod_eq_of_lt (pow_ten_lt h)]

theorem decimalsDivisor_eq {i : ℕ} (h : i ≤ 19) : decimalsDivisor i = 10 ^ i := by
  induction i with
  | zero => rfl
  | succ i ih =>
    rw [decimalsDivisor, ih (Nat.le_of_succ_le h), ← pow_succ, Nat.mod_eq_of_lt (pow_ten_lt h)]

/-! ### The digits behind the point -/

theorem padLoop_eq (decimals : ℤ) (fracStr : Bytes) :
    padLoop decimals fracStr = List.replicate (decimals.toNat - fracStr.length) zeroByte ++
      fracStr := by
  induction fracStr using padLoop.induct decimals with
  | case1 fracStr h ih =>
    have hmore : decimals.toNat - fracStr.length =
        decimals.toNat - (zeroByte :: fracStr).length + 1 := by
      rw [List.length_cons]
      omega
    rw [padLoop, if_pos h, ih, hmore, List.replicate_succ', List.append_assoc]
    rfl
  | case2 fracStr h =>
    rw [padLoop, if_neg h, show decimals.toNat - fracStr.length = 0 by omega]
    rfl

/-- The search and the cut behind it drop the bytes at the end, or find nothing else. -/
theorem findLastNotOf_spec (c : UInt8) (text : Bytes) {i : ℕ} (hi : i ≤ text.length) :
    (match findLastNotOf c text i with
      | some last => text.take (last + 1)
      | none => [c]) =
      if (text.take i).rdropWhile (· = c) = [] then [c] else (text.take i).rdropWhile (· = c) := by
  induction i with
  | zero => rfl
  | succ i ih =>
    have hlt : i < text.length := hi
    have htake : text.take (i + 1) = text.take i ++ [text.getD i 0] := by
      rw [List.take_succ_eq_append_getElem hlt, List.getD_eq_getElem text 0 hlt]
    rw [findLastNotOf]
    by_cases hc : text.getD i 0 = c
    · have hdrop :=
        List.rdropWhile_concat_pos (· = c) (text.take i) (text.getD i 0) (decide_eq_true hc)
      rw [if_neg (not_not_intro hc), htake, hdrop]
      exact ih hlt.le
    · have hkeep :=
        List.rdropWhile_concat_neg (· = c) (text.take i) (text.getD i 0) (by simpa using hc)
      rw [if_pos hc, htake, hkeep, if_neg (by simp), ← htake]

/-! ### The whole text -/

/-- **The calls and the wallet print the same**, whatever the decimals. -/
theorem formatDecimals_eq (value : UInt64) (decimals : ℕ) :
    formatDecimals value decimals = formatTokenBalance value.toNat decimals := by
  -- both clamp to the same number of decimals
  obtain ⟨d, hd, hint, hnat⟩ : ∃ d : ℕ, d ≤ 18 ∧
      (if (18 : ℤ) < decimals then (18 : ℤ) else decimals) = d ∧
      (if 18 < decimals then 18 else decimals) = d := by
    by_cases h : 18 < decimals
    · exact ⟨18, le_refl 18, if_pos (by omega), if_pos h⟩
    · exact ⟨decimals, by omega, if_neg (by omega), if_neg h⟩
  rw [formatDecimals, formatTokenBalance, hint, hnat]
  by_cases hzero : d = 0
  · rw [if_pos hzero, if_pos (by omega)]
  have hdivisor : (divisorLoop d).toNat = decimalsDivisor d := by
    rw [divisorLoop_toNat (by omega), decimalsDivisor_eq (by omega)]
  have hpad : padLoop d (decimalText (value % divisorLoop d).toNat) =
      paddedText d (value.toNat % decimalsDivisor d) := by
    rw [padLoop_eq, UInt64.toNat_mod, hdivisor, Int.toNat_natCast]
    rfl
  have hcut := findLastNotOf_spec zeroByte (paddedText d (value.toNat % decimalsDivisor d)) le_rfl
  rw [List.take_length] at hcut
  rw [if_neg hzero, if_neg (by omega)]
  simp only [Int.toNat_natCast]
  rw [hpad, hcut, UInt64.toNat_div, hdivisor]

/-- **The text denotes the amount** divided by the power of ten. -/
theorem numeralValue_formatTokenBalance (value : ℕ) {decimals : ℕ} (h : decimals ≤ 18) :
    numeralValue pointByte (formatTokenBalance value decimals) =
      some ((value : ℚ) / 10 ^ decimals) := by
  rw [formatTokenBalance, if_neg (show ¬ 18 < decimals by omega)]
  cases decimals with
  | zero =>
    rw [if_pos rfl, numeralValue_digits isDigit_of_mem_decimalText (decimalText_ne_nil value),
      decimalValue_decimalText, pow_zero, div_one]
  | succ w =>
    rw [if_neg (Nat.succ_ne_zero w), decimalsDivisor_eq (by omega)]
    set frac := value % 10 ^ (w + 1)
    have hlt : frac < 10 ^ (w + 1) := Nat.mod_lt _ (by positivity)
    set text := paddedText (w + 1) frac with htext
    set shown :=
      if text.rdropWhile (· = zeroByte) = [] then [zeroByte]
      else text.rdropWhile (· = zeroByte) with hshown
    have hdigits : (∀ c ∈ shown, isDigit c = true) ∧ shown ≠ [] := by
      rw [hshown]
      split_ifs with hnil
      · exact ⟨fun c hc => by rw [List.mem_singleton.mp hc]; rfl, by simp⟩
      · refine ⟨fun c hc => isDigit_of_mem_paddedText c (?_ : c ∈ text), hnil⟩
        obtain ⟨k, hk⟩ := exists_zeros_trim text
        rw [hk]
        exact List.mem_append_left _ hc
    have hvalue : fraction shown = frac / 10 ^ (w + 1) := by
      rw [hshown, fraction_trim, htext, fraction_paddedText hlt]
    show numeralValue pointByte (decimalText (value / 10 ^ (w + 1)) ++ [pointByte] ++ shown) = _
    rw [numeralValue_point rfl isDigit_of_mem_decimalText (decimalText_ne_nil _) hdigits.1
      hdigits.2, decimalValue_decimalText, hvalue]
    have hpow : (10 : ℚ) ^ (w + 1) ≠ 0 := pow_ne_zero _ (by norm_num)
    have hsplit : ((value / 10 ^ (w + 1) : ℕ) : ℚ) * 10 ^ (w + 1) + frac = value := by
      exact_mod_cast Nat.div_add_mod' value (10 ^ (w + 1))
    rw [← hsplit, add_div, mul_div_cancel_right₀ _ hpow]

/-- **Amounts are printed exactly.**  For every 64-bit value and 0 to 18 decimals the formatters of
the calls and of the wallet give the same text; as a numeral it denotes the value divided by the
power of ten; different values have different texts; and in every round of the loop the product of
the divisor fits 64 bits. -/
theorem amount_text_exact (value : UInt64) (decimals : Fin 19) :
    formatWithDecimals value decimals = formatTokenBalance value.toNat decimals ∧
    formatBalance value decimals = formatTokenBalance value.toNat decimals ∧
    numeralValue pointByte (formatTokenBalance value.toNat decimals) =
      some ((value.toNat : ℚ) / 10 ^ (decimals : ℕ)) ∧
    (∀ value' : UInt64,
      formatTokenBalance value'.toNat decimals = formatTokenBalance value.toNat decimals →
      value' = value) ∧
    ∀ i < (decimals : ℕ), (divisorLoop i).toNat * 10 < 2 ^ 64 ∧
      decimalsDivisor i * 10 < 2 ^ 64 := by
  have hle : (decimals : ℕ) ≤ 18 := Nat.le_of_lt_succ decimals.isLt
  refine ⟨formatDecimals_eq value decimals, formatDecimals_eq value decimals,
    numeralValue_formatTokenBalance value.toNat hle, fun value' h => ?_, fun i hi => ?_⟩
  · have hvalues := congrArg (numeralValue pointByte) h
    rw [numeralValue_formatTokenBalance _ hle, numeralValue_formatTokenBalance _ hle] at hvalues
    have hpow : (10 : ℚ) ^ (decimals : ℕ) ≠ 0 := pow_ne_zero _ (by norm_num)
    have hcast := (div_left_inj' hpow).mp (Option.some.inj hvalues)
    exact UInt64.toNat_inj.mp (Nat.cast_injective hcast)
  · rw [divisorLoop_toNat (by omega), decimalsDivisor_eq (by omega), ← pow_succ]
    exact ⟨pow_ten_lt (by omega), pow_ten_lt (by omega)⟩

end OpenSY.Rpc
