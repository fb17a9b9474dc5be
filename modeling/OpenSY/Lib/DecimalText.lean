import Mathlib.Data.Nat.Basic
import Mathlib.Order.Basic
import Mathlib.Tactic.Ring

/-!
# Decimal numbers as ASCII text

Printing a number, with and without a fixed width, and the value of a string of digits.
-/

namespace OpenSY.DecimalText

/-- The ASCII byte of `0`. -/
def zeroByte : UInt8 := 48

/-- The ASCII byte of the decimal point. -/
def pointByte : UInt8 := 46

def digitByte (d : ℕ) : UInt8 := (48 + d).toUInt8

def isDigit (c : UInt8) : Bool := 48 ≤ c && c ≤ 57

def digitValue (c : UInt8) : ℕ := c.toNat - 48

/-- `%d` for a number that is not negative. -/
def decimalText (n : ℕ) : List UInt8 :=
  if n < 10 then [digitByte n] else decimalText (n / 10) ++ [digitByte (n % 10)]

/-- `%0wd` -/
def paddedText (w n : ℕ) : List UInt8 :=
  List.replicate (w - (decimalText n).length) zeroByte ++ decimalText n

/-- The number that digits spell, after `v`. -/
def decimalValueFrom (v : ℕ) (text : List UInt8) : ℕ :=
  text.foldl (fun v c => 10 * v + digitValue c) v

def decimalValue (text : List UInt8) : ℕ := decimalValueFrom 0 text

/-! ### Digits -/

theorem toNat_digitByte {d : ℕ} (h : d < 10) : (digitByte d).toNat = 48 + d := by
  show (48 + d) % 2 ^ 8 = 48 + d
  omega

theorem digitValue_digitByte {d : ℕ} (h : d < 10) : digitValue (digitByte d) = d := by
  rw [digitValue, toNat_digitByte h]
  omega

theorem isDigit_iff (c : UInt8) : isDigit c = true ↔ 48 ≤ c.toNat ∧ c.toNat ≤ 57 := by
  simp only [isDigit, Bool.and_eq_true, decide_eq_true_eq, UInt8.le_iff_toNat_le]
  rfl

theorem isDigit_digitByte {d : ℕ} (h : d < 10) : isDigit (digitByte d) = true := by
  rw [isDigit_iff, toNat_digitByte h]
  omega

theorem digitValue_lt {c : UInt8} (h : isDigit c = true) : digitValue c < 10 := by
  rw [isDigit_iff] at h
  rw [digitValue]
  omega

theorem ne_of_isDigit {c c' : UInt8} (h : isDigit c = true) (h' : isDigit c' = false) : c ≠ c' := by
  intro heq
  rw [heq, h'] at h
  cases h

/-! ### Values -/

theorem decimalValueFrom_append (v : ℕ) (text text' : List UInt8) :
    decimalValueFrom v (text ++ text') = decimalValueFrom (decimalValueFrom v text) text' :=
  List.foldl_append

theorem decimalValue_snoc (text : List UInt8) (c : UInt8) :
    decimalValue (text ++ [c]) = 10 * decimalValue text + digitValue c := by
  rw [decimalValue, decimalValueFrom_append]
  rfl

theorem decimalValueFrom_zeros (v k : ℕ) :
    decimalValueFrom v (List.replicate k zeroByte) = v * 10 ^ k := by
  induction k generalizing v with
  | zero => rw [pow_zero, Nat.mul_one]; rfl
  | succ k ih =>
    show decimalValueFrom (10 * v + 0) (List.replicate k zeroByte) = v * 10 ^ (k + 1)
    rw [ih]
    ring

theorem decimalValue_append_zeros (text : List UInt8) (k : ℕ) :
    decimalValue (text ++ List.replicate k zeroByte) = decimalValue text * 10 ^ k := by
  rw [decimalValue, decimalValueFrom_append, decimalValueFrom_zeros]
  rfl

theorem decimalValue_zeros_append (k : ℕ) (text : List UInt8) :
    decimalValue (List.replicate k zeroByte ++ text) = decimalValue text := by
  rw [decimalValue, decimalValueFrom_append, decimalValueFrom_zeros, Nat.zero_mul]
  rfl

/-- A digit moves what follows up by one place. -/
theorem decimalValueFrom_eq (v : ℕ) (text : List UInt8) :
    decimalValueFrom v text = v * 10 ^ text.length + decimalValue text := by
  induction text generalizing v with
  | nil => simp [decimalValueFrom, decimalValue]
  | cons c text ih =>
    show decimalValueFrom (10 * v + digitValue c) text = v * 10 ^ (text.length + 1) +
      decimalValueFrom (10 * 0 + digitValue c) text
    rw [ih, ih (10 * 0 + digitValue c)]
    ring

theorem decimalValue_cons (c : UInt8) (text : List UInt8) :
    decimalValue (c :: text) = digitValue c * 10 ^ text.length + decimalValue text := by
  show decimalValueFrom (10 * 0 + digitValue c) text = _
  rw [decimalValueFrom_eq, Nat.mul_zero, Nat.zero_add]

theorem decimalValue_lt {text : List UInt8} (h : ∀ c ∈ text, isDigit c = true) :
    decimalValue text < 10 ^ text.length := by
  induction text with
  | nil => exact Nat.one_pos
  | cons c text ih =>
    have hc := digitValue_lt (h c List.mem_cons_self)
    have htext := ih fun c hc => h c (List.mem_cons_of_mem _ hc)
    rw [decimalValue_cons, List.length_cons, pow_succ]
    have hmul : digitValue c * 10 ^ text.length ≤ 9 * 10 ^ text.length :=
      Nat.mul_le_mul_right _ (Nat.le_of_lt_succ hc)
    omega

/-! ### Printing -/

theorem decimalText_of_lt {n : ℕ} (h : n < 10) : decimalText n = [digitByte n] := by
  rw [decimalText, if_pos h]

theorem decimalText_of_ge {n : ℕ} (h : 10 ≤ n) :
    decimalText n = decimalText (n / 10) ++ [digitByte (n % 10)] := by
  rw [decimalText, if_neg (Nat.not_lt.mpr h)]

/-- Printed numbers, digit by digit. -/
theorem decimalText_induct {P : ℕ → Prop} (small : ∀ n, n < 10 → P n)
    (large : ∀ n, 10 ≤ n → P (n / 10) → P n) (n : ℕ) : P n := by
  induction n using Nat.strongRecOn with
  | _ n ih =>
    by_cases h : n < 10
    · exact small n h
    · exact large n (Nat.not_lt.mp h) (ih _ (by omega))

theorem decimalValue_decimalText (n : ℕ) : decimalValue (decimalText n) = n := by
  induction n using decimalText_induct with
  | small n h =>
    rw [decimalText_of_lt h]
    show 10 * 0 + digitValue (digitByte n) = n
    rw [digitValue_digitByte h]
    omega
  | large n h ih =>
    rw [decimalText_of_ge h, decimalValue_snoc, ih, digitValue_digitByte (Nat.mod_lt n (by decide))]
    omega

theorem isDigit_of_mem_decimalText {n : ℕ} : ∀ c ∈ decimalText n, isDigit c = true := by
  induction n using decimalText_induct with
  | small n h =>
    rw [decimalText_of_lt h]
    intro c hc
    rw [List.mem_singleton.mp hc]
    exact isDigit_digitByte h
  | large n h ih =>
    rw [decimalText_of_ge h]
    intro c hc
    cases List.mem_append.mp hc with
    | inl hc => exact ih c hc
    | inr hc =>
      rw [List.mem_singleton.mp hc]
      exact isDigit_digitByte (Nat.mod_lt n (by decide))

theorem decimalText_length_le_iff (n k : ℕ) :
    (decimalText n).length ≤ k + 1 ↔ n < 10 ^ (k + 1) := by
  induction n using decimalText_induct generalizing k with
  | small n h =>
    rw [decimalText_of_lt h]
    refine iff_of_true (Nat.le_add_left 1 k) (Nat.lt_of_lt_of_le h ?_)
    exact Nat.le_self_pow (Nat.succ_ne_zero k) 10
  | large n h ih =>
    rw [decimalText_of_ge h, List.length_append, List.length_singleton,
      Nat.add_le_add_iff_right, pow_succ]
    cases k with
    | zero =>
      have hpos : 0 < (decimalText (n / 10)).length := by
        rw [decimalText]
        split_ifs <;> simp
      exact iff_of_false (by omega) (by omega)
    | succ k =>
      rw [ih k, Nat.div_lt_iff_lt_mul (by decide)]

theorem decimalText_ne_nil (n : ℕ) : decimalText n ≠ [] := by
  rw [decimalText]
  split_ifs <;> simp

/-- A printed number starts with a zero only if it is zero. -/
theorem exists_head_decimalText {n : ℕ} (h : 0 < n) :
    ∃ c rest, decimalText n = c :: rest ∧ c ≠ zeroByte := by
  induction n using decimalText_induct with
  | small n hlt =>
    refine ⟨digitByte n, [], decimalText_of_lt hlt, fun heq => ?_⟩
    have hnat := congrArg UInt8.toNat heq
    rw [toNat_digitByte hlt, show zeroByte.toNat = 48 from rfl] at hnat
    omega
  | large n hge ih =>
    obtain ⟨c, rest, heq, hc⟩ := ih (by omega)
    exact ⟨c, rest ++ [digitByte (n % 10)],
      by rw [decimalText_of_ge hge, heq, List.cons_append], hc⟩

theorem paddedText_length {w n : ℕ} (h : n < 10 ^ (w + 1)) :
    (paddedText (w + 1) n).length = w + 1 := by
  have hle := (decimalText_length_le_iff n w).mpr h
  rw [paddedText, List.length_append, List.length_replicate]
  omega

theorem decimalValue_paddedText (w n : ℕ) : decimalValue (paddedText w n) = n := by
  rw [paddedText, decimalValue_zeros_append, decimalValue_decimalText]

theorem isDigit_of_mem_paddedText {w n : ℕ} : ∀ c ∈ paddedText w n, isDigit c = true := by
  intro c hc
  cases List.mem_append.mp hc with
  | inl hc =>
    rw [List.eq_of_mem_replicate hc]
    rfl
  | inr hc => exact isDigit_of_mem_decimalText c hc

end OpenSY.DecimalText
