import OpenSY.Util.MoneyStr

/-!
# Amounts in JSON

`ValueFromAmount` prints an amount as a JSON number with eight decimals, `AmountFromValue` reads a
number or a string through `ParseFixedPoint`.  The parser keeps a mantissa and the number of zeros
that were read after it, so that zeros at the end cost no digits, and refuses a mantissa above
`upperBound`.

* `mantissaDigits_eq_some`, `mantissaDigits_isSome` — the mantissa spells the digits read so far;
* `parseFixedPoint_coinText` — what is made of a printed amount;
* `money_text_round_trip` — which amounts survive.
-/

namespace OpenSY.Rpc

open OpenSY.Chain OpenSY.DecimalText OpenSY.Util

/-! ### The code -/

def upperBound : ℤ := 1000000000000000000 - 1

/-- `times` multiplications by ten, each after a check. -/
def scaleMantissa : ℕ → ℤ → Option ℤ
  | 0, mantissa => some mantissa
  | times + 1, mantissa =>
    if mantissa > upperBound / 10 then none else scaleMantissa times (mantissa * 10)

def processMantissaDigit (ch : UInt8) (mantissa : ℤ) (mantissaTzeros : ℕ) : Option (ℤ × ℕ) :=
  if ch = zeroByte then some (mantissa, mantissaTzeros + 1)
  else
    match scaleMantissa (mantissaTzeros + 1) mantissa with
    | none => none
    | some mantissa => some (mantissa + digitValue ch, 0)

/-- The loop over digits: mantissa, zeros after it, and what is left of the text. -/
def mantissaDigits : Bytes → ℤ → ℕ → Option (ℤ × ℕ × Bytes)
  | [], mantissa, tzeros => some (mantissa, tzeros, [])
  | c :: rest, mantissa, tzeros =>
    if isDigit c then
      match processMantissaDigit c mantissa tzeros with
      | none => none
      | some (mantissa, tzeros) => mantissaDigits rest mantissa tzeros
    else some (mantissa, tzeros, c :: rest)

/-- A single zero, or digits that do not start with one. -/
def parseInteger : Bytes → Option (ℤ × ℕ × Bytes)
  | [] => none
  | c :: rest =>
    if c = zeroByte then some (0, 0, rest)
    else if isDigit c then mantissaDigits (c :: rest) 0 0
    else none

/-- The digits after a point, if there is one; the last component but one counts them. -/
def parseFraction (mantissa : ℤ) (tzeros : ℕ) : Bytes → Option (ℤ × ℕ × ℕ × Bytes)
  | [] => some (mantissa, tzeros, 0, [])
  | c :: rest =>
    if c = pointByte then
      match rest with
      | [] => none
      | digit :: _ =>
        if isDigit digit then
          match mantissaDigits rest mantissa tzeros with
          | none => none
          | some (mantissa, tzeros, left) =>
            some (mantissa, tzeros, rest.length - left.length, left)
        else none
    else some (mantissa, tzeros, 0, c :: rest)

def exponentDigits : Bytes → ℤ → Option (ℤ × Bytes)
  | [], exponent => some (exponent, [])
  | c :: rest, exponent =>
    if isDigit c then
      if exponent > upperBound / 10 then none
      else exponentDigits rest (exponent * 10 + digitValue c)
    else some (exponent, c :: rest)

/-- An exponent with its sign, if there is one. -/
def parseExponent : Bytes → Option (ℤ × Bytes)
  | [] => some (0, [])
  | c :: rest =>
    if c = 0x65 ∨ c = 0x45 then
      let negative := rest.head? = some minusByte
      let digits := if rest.head? = some plusByte ∨ negative then rest.drop 1 else rest
      match digits with
      | [] => none
      | digit :: _ =>
        if isDigit digit then
          match exponentDigits digits 0 with
          | none => none
          | some (exponent, left) => some (if negative then -exponent else exponent, left)
        else none
    else some (0, c :: rest)

/-- The multiplications at the end, for a mantissa with its sign. -/
def scaleAmount : ℕ → ℤ → Option ℤ
  | 0, mantissa => some mantissa
  | times + 1, mantissa =>
    if mantissa > upperBound / 10 ∨ mantissa < -(upperBound / 10) then none
    else scaleAmount times (mantissa * 10)

/-- The value of a mantissa and an exponent, if it can be represented. -/
def finalize (mantissa exponent : ℤ) : Option ℤ :=
  if exponent < 0 then none
  else if exponent ≥ 18 then none
  else
    match scaleAmount exponent.toNat mantissa with
    | none => none
    | some mantissa =>
      if mantissa > upperBound ∨ mantissa < -upperBound then none else some mantissa

def parseFixedPoint (val : Bytes) (decimals : ℤ) : Option ℤ :=
  let mantissaSign := val.head? = some minusByte
  let val := if mantissaSign then val.drop 1 else val
  match parseInteger val with
  | none => none
  | some (mantissa, tzeros, val) =>
    match parseFraction mantissa tzeros val with
    | none => none
    | some (mantissa, tzeros, pointOfs, val) =>
      match parseExponent val with
      | none => none
      | some (exponent, val) =>
        if !val.isEmpty then none
        else finalize (if mantissaSign then -mantissa else mantissa)
          (exponent - pointOfs + tzeros + decimals)

/-- A JSON value by its type.  A number keeps its text; the members of arrays and objects are left
out. -/
inductive UniValue where
  | null
  | bool (b : Bool)
  | num (val : Bytes)
  | str (val : Bytes)
  | arr
  | obj
  deriving DecidableEq

/-- `RPC_TYPE_ERROR` -/
def rpcTypeError : ℤ := -3

structure JSONRPCError where
  code : ℤ
  message : String
  deriving DecidableEq

/-- The text of a number or a string. -/
def amountOfText (val : Bytes) (decimals : ℤ) : Except JSONRPCError CAmount :=
  match parseFixedPoint val decimals with
  | none => .error ⟨rpcTypeError, "Invalid amount"⟩
  | some amount =>
    if !moneyRange amount then .error ⟨rpcTypeError, "Amount out of range"⟩ else .ok amount

def amountFromValue (value : UniValue) (decimals : ℤ) : Except JSONRPCError CAmount :=
  match value with
  | .num val | .str val => amountOfText val decimals
  | _ => .error ⟨rpcTypeError, "Amount is not a number or string"⟩

def valueFromAmount (amount : CAmount) : UniValue :=
  .num (if amount < 0 then minusByte :: coinText amount else coinText amount)

/-! ### Multiplying by ten -/

theorem scaleMantissa_eq_some {times : ℕ} {mantissa result : ℤ}
    (h : scaleMantissa times mantissa = some result) : result = mantissa * 10 ^ times := by
  induction times generalizing mantissa with
  | zero =>
    rw [pow_zero, mul_one]
    exact (Option.some.inj h).symm
  | succ times ih =>
    rw [scaleMantissa, Option.ite_none_left_eq_some] at h
    rw [ih h.2]
    ring

theorem scaleMantissa_of_lt {times : ℕ} {mantissa : ℤ} (hnonneg : 0 ≤ mantissa)
    (h : mantissa * 10 ^ times < 10 ^ 18) :
    scaleMantissa times mantissa = some (mantissa * 10 ^ times) := by
  induction times generalizing mantissa with
  | zero => rw [pow_zero, mul_one]; rfl
  | succ times ih =>
    have hmul : mantissa * 10 ^ (times + 1) = mantissa * 10 * 10 ^ times := by ring
    have hle : mantissa * 10 ≤ mantissa * 10 * 10 ^ times :=
      le_mul_of_one_le_right (by omega) (one_le_pow₀ (by decide))
    rw [hmul] at h ⊢
    rw [scaleMantissa, if_neg (by unfold upperBound; omega), ih (by omega) h]

/-- For a mantissa that is not negative the second check is idle. -/
theorem scaleAmount_eq {times : ℕ} {mantissa : ℤ} (hnonneg : 0 ≤ mantissa) :
    scaleAmount times mantissa = scaleMantissa times mantissa := by
  induction times generalizing mantissa with
  | zero => rfl
  | succ times ih =>
    have hlow : ¬ mantissa < -(upperBound / 10) := by
      unfold upperBound
      omega
    simp only [scaleAmount, scaleMantissa, hlow, or_false, ih (show 0 ≤ mantissa * 10 by omega)]

/-! ### The mantissa -/

/-- Mantissa and zeros spell `value`. -/
structure Spells (mantissa : ℤ) (tzeros value : ℕ) : Prop where
  nonneg : 0 ≤ mantissa
  eq : mantissa * 10 ^ tzeros = value

theorem processMantissaDigit_spells {c : UInt8} {mantissa mantissa' : ℤ} {tzeros tzeros' value : ℕ}
    (h : Spells mantissa tzeros value)
    (hstep : processMantissaDigit c mantissa tzeros = some (mantissa', tzeros')) :
    Spells mantissa' tzeros' (10 * value + digitValue c) ∧ tzeros' ≤ tzeros + 1 := by
  obtain ⟨hnonneg, hvalue⟩ := h
  unfold processMantissaDigit at hstep
  split_ifs at hstep with hc
  · cases hstep
    refine ⟨⟨hnonneg, ?_⟩, le_refl _⟩
    rw [hc, show digitValue zeroByte = 0 from rfl, pow_succ, ← mul_assoc, hvalue]
    push_cast
    ring
  · cases hscale : scaleMantissa (tzeros + 1) mantissa with
    | none => simp [hscale] at hstep
    | some scaled =>
      simp only [hscale, Option.some.injEq, Prod.mk.injEq] at hstep
      obtain ⟨rfl, rfl⟩ := hstep
      have heq : scaled = 10 * value := by
        rw [scaleMantissa_eq_some hscale, pow_succ, ← mul_assoc, hvalue]
        ring
      refine ⟨⟨by omega, ?_⟩, Nat.zero_le _⟩
      rw [heq]
      push_cast
      ring

theorem processMantissaDigit_isSome {c : UInt8} {mantissa : ℤ} {tzeros value : ℕ}
    (h : Spells mantissa tzeros value) (hfit : 10 * value + digitValue c < 10 ^ 18) :
    ∃ result, processMantissaDigit c mantissa tzeros = some result := by
  obtain ⟨hnonneg, hvalue⟩ := h
  unfold processMantissaDigit
  split_ifs with hc
  · exact ⟨_, rfl⟩
  · have hscale : mantissa * 10 ^ (tzeros + 1) < 10 ^ 18 := by
      rw [pow_succ, ← mul_assoc, hvalue]
      omega
    exact ⟨_, by rw [scaleMantissa_of_lt hnonneg hscale]⟩

/-- **The mantissa spells the digits read so far.** -/
theorem mantissaDigits_eq_some {digits rest : Bytes} (hdigits : ∀ c ∈ digits, isDigit c = true)
    (hrest : ∀ c ∈ rest.head?, isDigit c = false) {mantissa mantissa' : ℤ}
    {tzeros tzeros' value : ℕ} {left : Bytes} (h : Spells mantissa tzeros value)
    (hread : mantissaDigits (digits ++ rest) mantissa tzeros = some (mantissa', tzeros', left)) :
    left = rest ∧ Spells mantissa' tzeros' (decimalValueFrom value digits) ∧
      tzeros' ≤ tzeros + digits.length := by
  induction digits generalizing mantissa tzeros value with
  | nil =>
    have hstop : mantissaDigits rest mantissa tzeros = some (mantissa, tzeros, rest) := by
      cases rest with
      | nil => rfl
      | cons c rest =>
        rw [mantissaDigits, hrest c rfl, if_neg Bool.false_ne_true]
    rw [List.nil_append, hstop] at hread
    cases hread
    exact ⟨rfl, h, le_refl _⟩
  | cons c digits ih =>
    rw [List.cons_append, mantissaDigits, hdigits c List.mem_cons_self, if_pos rfl] at hread
    cases hstep : processMantissaDigit c mantissa tzeros with
    | none => simp [hstep] at hread
    | some result =>
      obtain ⟨mantissa₁, tzeros₁⟩ := result
      simp only [hstep] at hread
      obtain ⟨hspells, hle⟩ := processMantissaDigit_spells h hstep
      obtain ⟨hleft, hspells', hle'⟩ :=
        ih (fun c hc => hdigits c (List.mem_cons_of_mem _ hc)) hspells hread
      refine ⟨hleft, hspells', ?_⟩
      rw [List.length_cons]
      omega

theorem mantissaDigits_isSome {digits rest : Bytes} (hdigits : ∀ c ∈ digits, isDigit c = true)
    (hrest : ∀ c ∈ rest.head?, isDigit c = false) {mantissa : ℤ} {tzeros value : ℕ}
    (h : Spells mantissa tzeros value) (hfit : decimalValueFrom value digits < 10 ^ 18) :
    ∃ result, mantissaDigits (digits ++ rest) mantissa tzeros = some result := by
  induction digits generalizing mantissa tzeros value with
  | nil =>
    cases rest with
    | nil => exact ⟨_, rfl⟩
    | cons c rest =>
      rw [List.nil_append, mantissaDigits, hrest c rfl, if_neg Bool.false_ne_true]
      exact ⟨_, rfl⟩
  | cons c digits ih =>
    have hle : 10 * value + digitValue c ≤ decimalValueFrom value (c :: digits) := by
      show _ ≤ decimalValueFrom (10 * value + digitValue c) digits
      rw [decimalValueFrom_eq]
      exact Nat.le_trans (Nat.le_mul_of_pos_right _ (Nat.pow_pos (by decide)))
        (Nat.le_add_right _ _)
    obtain ⟨⟨mantissa₁, tzeros₁⟩, hstep⟩ :=
      processMantissaDigit_isSome h (Nat.lt_of_le_of_lt hle hfit)
    obtain ⟨hspells, -⟩ := processMantissaDigit_spells h hstep
    rw [List.cons_append, mantissaDigits, hdigits c List.mem_cons_self, if_pos rfl, hstep]
    exact ih (fun c hc => hdigits c (List.mem_cons_of_mem _ hc)) hspells hfit

/-! ### Printed amounts -/

theorem spells_zero : Spells 0 0 0 := ⟨le_refl 0, rfl⟩

theorem parseInteger_eq {q : ℕ} (hpos : 0 < q) (rest : Bytes) :
    parseInteger (decimalText q ++ rest) = mantissaDigits (decimalText q ++ rest) 0 0 := by
  obtain ⟨c, text, heq, hc⟩ := exists_head_decimalText hpos
  have hdigit : isDigit c = true := isDigit_of_mem_decimalText c (heq ▸ List.mem_cons_self)
  rw [heq, List.cons_append, parseInteger, if_neg hc, hdigit, if_pos rfl]

theorem point_not_digit (fraction : Bytes) :
    ∀ c ∈ (pointByte :: fraction).head?, isDigit c = false := by
  intro c hc
  rw [← Option.some.inj hc]
  rfl

/-- The digits before the point. -/
theorem parseInteger_text (q : ℕ) (fraction : Bytes) :
    (∀ mantissa tzeros left,
      parseInteger (decimalText q ++ pointByte :: fraction) = some (mantissa, tzeros, left) →
      left = pointByte :: fraction ∧ Spells mantissa tzeros q ∧ (q = 0 → tzeros = 0)) ∧
    (q < 10 ^ 18 → ∃ result, parseInteger (decimalText q ++ pointByte :: fraction) =
      some result) := by
  cases Nat.eq_zero_or_pos q with
  | inl hzero =>
    subst hzero
    have hparse : parseInteger (decimalText 0 ++ pointByte :: fraction) =
        some (0, 0, pointByte :: fraction) := by
      rw [decimalText_of_lt (by decide)]
      rfl
    refine ⟨fun mantissa tzeros left h => ?_, fun _ => ⟨_, hparse⟩⟩
    rw [hparse] at h
    cases h
    exact ⟨rfl, spells_zero, fun _ => rfl⟩
  | inr hpos =>
    have hvalue : decimalValueFrom 0 (decimalText q) = q := decimalValue_decimalText q
    rw [parseInteger_eq hpos]
    constructor
    · intro mantissa tzeros left h
      obtain ⟨hleft, hspells, -⟩ :=
        mantissaDigits_eq_some isDigit_of_mem_decimalText (point_not_digit fraction) spells_zero h
      rw [hvalue] at hspells
      exact ⟨hleft, hspells, fun hzero => absurd hzero (Nat.ne_of_gt hpos)⟩
    · intro hfit
      exact mantissaDigits_isSome isDigit_of_mem_decimalText (point_not_digit fraction) spells_zero
        (by rwa [hvalue])

/-- The digits after the point. -/
theorem parseFraction_eq {fraction : Bytes} (hne : fraction ≠ [])
    (hdigits : ∀ c ∈ fraction, isDigit c = true) (mantissa : ℤ) (tzeros : ℕ) :
    parseFraction mantissa tzeros (pointByte :: fraction) =
      match mantissaDigits fraction mantissa tzeros with
      | none => none
      | some (mantissa, tzeros, left) =>
        some (mantissa, tzeros, fraction.length - left.length, left) := by
  obtain ⟨c, rest, rfl⟩ := List.exists_cons_of_ne_nil hne
  rw [parseFraction, if_pos rfl]
  simp only [hdigits c List.mem_cons_self, if_true]

theorem finalize_of_lt {mantissa : ℤ} {tzeros value : ℕ} (h : Spells mantissa tzeros value)
    (hfit : value < 10 ^ 18) (htzeros : value = 0 → tzeros < 18) :
    finalize mantissa tzeros = some value := by
  obtain ⟨hnonneg, hvalue⟩ := h
  have hlt : tzeros < 18 := by
    cases Nat.eq_zero_or_pos value with
    | inl hzero => exact htzeros hzero
    | inr hpos =>
      -- a mantissa other than zero counts at least `10 ^ tzeros`
      have hone : 1 ≤ mantissa := by
        rcases hnonneg.eq_or_lt with hzero | hlt
        · rw [← hzero, zero_mul] at hvalue
          omega
        · omega
      have hpow : (10 : ℤ) ^ tzeros ≤ value := by
        rw [← hvalue]
        exact le_mul_of_one_le_left (by positivity) hone
      have hpow' : 10 ^ tzeros < 10 ^ 18 := Nat.lt_of_le_of_lt (by exact_mod_cast hpow) hfit
      exact (Nat.pow_lt_pow_iff_right (by decide)).mp hpow'
  have hscale : scaleAmount tzeros mantissa = some (value : ℤ) := by
    rw [scaleAmount_eq hnonneg, scaleMantissa_of_lt hnonneg (by rw [hvalue]; exact_mod_cast hfit),
      hvalue]
  unfold finalize
  rw [if_neg (by omega), if_neg (by omega), Int.toNat_natCast, hscale]
  exact if_neg (by unfold upperBound; omega)

theorem finalize_eq_some {mantissa amount : ℤ} {tzeros value : ℕ} (h : Spells mantissa tzeros value)
    (hresult : finalize mantissa tzeros = some amount) : value < 10 ^ 18 := by
  obtain ⟨hnonneg, hvalue⟩ := h
  unfold finalize at hresult
  rw [if_neg (by omega), Option.ite_none_left_eq_some, Int.toNat_natCast] at hresult
  obtain ⟨-, hresult⟩ := hresult
  cases hscale : scaleAmount tzeros mantissa with
  | none => simp [hscale] at hresult
  | some scaled =>
    simp only [hscale, Option.ite_none_left_eq_some, not_or] at hresult
    rw [scaleAmount_eq hnonneg] at hscale
    have heq := scaleMantissa_eq_some hscale
    rw [hvalue] at heq
    have hle : ¬ scaled > upperBound := hresult.1.1
    unfold upperBound at hle
    omega

/-- **Of the printed amounts, exactly those below `10 ^ 18` are read**, and as what they were. -/
theorem parseFixedPoint_coinText (n : ℕ) :
    parseFixedPoint (coinText n) 8 = if n < 10 ^ 18 then some (n : ℤ) else none := by
  rw [coinText_eq (Int.natCast_nonneg n), Int.toNat_natCast]
  have hlen : (paddedText 8 (n % 100000000)).length = 8 :=
    paddedText_length (Nat.mod_lt n (by decide))
  have hdigits : ∀ c ∈ paddedText 8 (n % 100000000), isDigit c = true := isDigit_of_mem_paddedText
  have hvalue : decimalValueFrom (n / 100000000) (paddedText 8 (n % 100000000)) = n := by
    rw [decimalValueFrom_eq, decimalValue_paddedText, hlen]
    omega
  generalize paddedText 8 (n % 100000000) = fraction at hlen hdigits hvalue
  obtain ⟨hinteger, hinteger'⟩ := parseInteger_text (n / 100000000) fraction
  have hsign : ¬ (decimalText (n / 100000000) ++ pointByte :: fraction).head? = some minusByte := by
    obtain ⟨c, hc, hdigit⟩ := exists_head_of_digits (decimalText_ne_nil (n / 100000000))
      isDigit_of_mem_decimalText
    rw [List.head?_append, hc]
    exact fun h => ne_of_isDigit hdigit rfl (Option.some.inj h)
  simp only [parseFixedPoint, hsign, if_false]
  cases hread : parseInteger (decimalText (n / 100000000) ++ pointByte :: fraction) with
  | none =>
    have hbig : ¬ n < 10 ^ 18 := by
      intro hsmall
      obtain ⟨result, hresult⟩ := hinteger' (by omega)
      rw [hread] at hresult
      cases hresult
    rw [if_neg hbig]
  | some result =>
    obtain ⟨mantissa, tzeros, left⟩ := result
    obtain ⟨rfl, hspells, hzeros⟩ := hinteger _ _ _ hread
    simp only [parseFraction_eq (List.ne_nil_of_length_pos (by omega)) hdigits]
    have hnone : ∀ c ∈ ([] : Bytes).head?, isDigit c = false := fun c hc => nomatch hc
    cases hfraction : mantissaDigits fraction mantissa tzeros with
    | none =>
      have hbig : ¬ n < 10 ^ 18 := by
        intro hsmall
        obtain ⟨result, hresult⟩ := mantissaDigits_isSome hdigits hnone hspells (by rwa [hvalue])
        rw [List.append_nil, hfraction] at hresult
        cases hresult
      simp only [if_neg hbig]
    | some result =>
      obtain ⟨mantissa', tzeros', left⟩ := result
      rw [← List.append_nil fraction] at hfraction
      obtain ⟨rfl, hspells', hle⟩ := mantissaDigits_eq_some hdigits hnone hspells hfraction
      rw [hvalue] at hspells'
      have hexp : (0 : ℤ) - (fraction.length - ([] : Bytes).length : ℕ) + tzeros' + 8 =
          tzeros' := by
        rw [hlen]
        simp
      simp only [parseExponent, List.isEmpty_nil, Bool.not_true, Bool.false_eq_true, if_false, hexp]
      split_ifs with hsmall
      · refine finalize_of_lt hspells' hsmall fun hzero => ?_
        have htzeros := hzeros (by rw [hzero])
        omega
      · cases hfinal : finalize mantissa' tzeros' with
        | none => rfl
        | some amount => exact absurd (finalize_eq_some hspells' hfinal) hsmall

theorem amountFromValue_valueFromAmount {n : CAmount} (h : moneyRange n = true) :
    amountFromValue (valueFromAmount n) 8 =
      if n < 10 ^ 18 then .ok n else .error ⟨rpcTypeError, "Invalid amount"⟩ := by
  have hnonneg : 0 ≤ n := by
    simp only [moneyRange, Bool.and_eq_true, decide_eq_true_eq] at h
    exact h.1
  lift n to ℕ using hnonneg
  have hneg : ¬ (n : ℤ) < 0 := by omega
  simp only [valueFromAmount, hneg, if_false, amountFromValue, amountOfText,
    parseFixedPoint_coinText]
  by_cases hsmall : n < 10 ^ 18
  · rw [if_pos hsmall, if_pos (by exact_mod_cast hsmall)]
    simp only [h, Bool.not_true, Bool.false_eq_true, if_false]
  · rw [if_neg hsmall, if_neg (by exact_mod_cast hsmall)]

/-- **Of the amounts in the money range, exactly those below ten billion coins survive** printing
and parsing, in either way. -/
theorem money_text_round_trip (n : CAmount) (h : moneyRange n = true) :
    (parseMoney (formatMoney n) = some n ↔ n < 10 ^ 18) ∧
    (amountFromValue (valueFromAmount n) 8 = .ok n ↔ n < 10 ^ 18) := by
  rw [parseMoney_formatMoney h, amountFromValue_valueFromAmount h]
  split_ifs with hsmall
  · exact ⟨iff_of_true rfl hsmall, iff_of_true rfl hsmall⟩
  · exact ⟨iff_of_false (fun h => nomatch h) hsmall, iff_of_false (fun h => nomatch h) hsmall⟩

theorem money_text_round_trip_coin :
    parseMoney (formatMoney coin) = some coin ∧
      amountFromValue (valueFromAmount coin) 8 = .ok coin :=
  ⟨(money_text_round_trip coin (by decide)).1.mpr (by decide),
    (money_text_round_trip coin (by decide)).2.mpr (by decide)⟩

/-- Ten billion coins are in the money range and cannot be read back. -/
theorem money_text_lost :
    moneyRange (10 ^ 18) = true ∧ parseMoney (formatMoney (10 ^ 18)) = none ∧
    amountFromValue (valueFromAmount (10 ^ 18)) 8 = .error ⟨rpcTypeError, "Invalid amount"⟩ :=
  ⟨by decide, by rw [parseMoney_formatMoney (by decide)]; rfl,
    by rw [amountFromValue_valueFromAmount (by decide)]; rfl⟩

end OpenSY.Rpc
