import OpenSY.Chain.Primitives
import OpenSY.Lib.DecimalText
import Mathlib.Data.List.TakeWhile
import Mathlib.Tactic.Linarith
import Mathlib.Tactic.Positivity

/-!
# Amounts as text

`FormatMoney` prints an amount in coins with at least two decimals, `ParseMoney` reads one.  Strings
are the byte strings they are in the source; the loops over `str[i]` run over the list, the trimming
loop from its end.
-/

namespace OpenSY.Util

open OpenSY.Chain OpenSY.DecimalText

/-! ### Text helpers -/

def minusByte : UInt8 := 0x2d
def plusByte : UInt8 := 0x2b

/-- Space, form feed, newline, carriage return and the two tabs. -/
def isSpace (c : UInt8) : Bool :=
  c = 0x20 || c = 0x0c || c = 0x0a || c = 0x0d || c = 0x09 || c = 0x0b

def trimString (str : Bytes) : Bytes :=
  ((str.dropWhile isSpace).reverse.dropWhile isSpace).reverse

/-- `LocaleIndependentAtoi<int64_t>` -/
def localeIndependentAtoi (str : Bytes) : ℤ :=
  let s := trimString str
  if s.head? = some plusByte ∧ s[1]? = some minusByte then 0
  else
    let s := if s.head? = some plusByte then s.drop 1 else s
    let negative := s.head? = some minusByte
    let digits := (if negative then s.drop 1 else s).takeWhile isDigit
    if digits.isEmpty then 0
    else if negative then
      if 2 ^ 63 < decimalValue digits then -(2 ^ 63) else -(decimalValue digits : ℤ)
    else if int64Max < decimalValue digits then int64Max else decimalValue digits

/-- `%d.%08d` of the two parts of an amount, each without its sign. -/
def coinText (n : CAmount) : Bytes :=
  let quotient := n.tdiv coin
  let remainder := n.tmod coin
  let quotient := if n < 0 then -quotient else quotient
  let remainder := if n < 0 then -remainder else remainder
  decimalText quotient.toNat ++ pointByte :: paddedText 8 remainder.toNat

/-! ### Printing -/

/-- The trimming loop, on the text from its end: a zero goes if two places before it there is a
digit. -/
def trimZeros : Bytes → Bytes
  | c :: next :: before :: rest =>
    if c = zeroByte && isDigit before then trimZeros (next :: before :: rest)
    else c :: next :: before :: rest
  | text => text

def formatMoney (n : CAmount) : Bytes :=
  let str := (trimZeros (coinText n).reverse).reverse
  if n < 0 then minusByte :: str else str

/-! ### Parsing -/

/-- The digits after the point, as long as a unit is left for them. -/
def parseUnits (nUnits nMult : ℤ) : Bytes → ℤ × Bytes
  | c :: rest =>
    if isDigit c && 0 < nMult then parseUnits (nUnits + nMult * digitValue c) (nMult / 10) rest
    else (nUnits, c :: rest)
  | [] => (nUnits, [])

/-- The loop over the text: the digits before the point, the units after it and what is left. -/
def parseParts (strWhole : Bytes) : Bytes → Option (Bytes × ℤ × Bytes)
  | c :: rest =>
    if c = pointByte then
      let units := parseUnits 0 (coin / 10) rest
      some (strWhole, units.1, units.2)
    else if isSpace c then none
    else if !isDigit c then none
    else parseParts (strWhole ++ [c]) rest
  | [] => some (strWhole, 0, [])

def parseMoney (moneyString : Bytes) : Option CAmount :=
  if moneyString.contains 0 then none
  else
    let str := trimString moneyString
    if str.isEmpty then none
    else
      match parseParts [] str with
      | none => none
      | some (strWhole, nUnits, rest) =>
        if !rest.isEmpty then none
        else if strWhole.length > 10 then none
        else if nUnits < 0 ∨ coin < nUnits then none
        else
          let nWhole := localeIndependentAtoi strWhole
          let value := nWhole * coin + nUnits
          if !moneyRange value then none else some value

/-! ### Texts of digits -/

theorem not_isSpace_of_isDigit {c : UInt8} (h : isDigit c = true) : isSpace c = false := by
  rw [isDigit_iff] at h
  simp only [isSpace, Bool.or_eq_false_iff, decide_eq_false_iff_not, ← UInt8.toNat_inj]
  simp only [show (0x20 : UInt8).toNat = 32 from rfl, show (0x0c : UInt8).toNat = 12 from rfl,
    show (0x0a : UInt8).toNat = 10 from rfl, show (0x0d : UInt8).toNat = 13 from rfl,
    show (0x09 : UInt8).toNat = 9 from rfl, show (0x0b : UInt8).toNat = 11 from rfl]
  omega

theorem dropWhile_isSpace {c : UInt8} (h : isDigit c = true) (text : Bytes) :
    (c :: text).dropWhile isSpace = c :: text :=
  List.dropWhile_cons_of_neg (by rw [not_isSpace_of_isDigit h]; exact Bool.false_ne_true)

/-- A text that starts and ends with a digit has nothing to trim. -/
theorem trimString_eq {text : Bytes} {c c' : UInt8} (hfirst : text.head? = some c)
    (hlast : text.reverse.head? = some c') (hc : isDigit c = true) (hc' : isDigit c' = true) :
    trimString text = text := by
  obtain ⟨rest, hrest⟩ := List.head?_eq_some_iff.mp hfirst
  obtain ⟨before, hbefore⟩ := List.head?_eq_some_iff.mp hlast
  rw [trimString, hrest, dropWhile_isSpace hc, ← hrest, hbefore, dropWhile_isSpace hc', ← hbefore,
    List.reverse_reverse]

theorem exists_head_of_digits {text : Bytes} (hne : text ≠ [])
    (hdigits : ∀ c ∈ text, isDigit c = true) :
    ∃ c, text.head? = some c ∧ isDigit c = true := by
  cases text with
  | nil => exact absurd rfl hne
  | cons c rest => exact ⟨c, rfl, hdigits c List.mem_cons_self⟩

theorem exists_last_of_digits {text : Bytes} (hne : text ≠ [])
    (hdigits : ∀ c ∈ text, isDigit c = true) :
    ∃ c, text.reverse.head? = some c ∧ isDigit c = true :=
  exists_head_of_digits (List.reverse_ne_nil_iff.mpr hne) fun c hc =>
    hdigits c (List.mem_reverse.mp hc)

theorem localeIndependentAtoi_digits {text : Bytes} (hne : text ≠ [])
    (hdigits : ∀ c ∈ text, isDigit c = true) (hfit : decimalValue text ≤ int64Max) :
    localeIndependentAtoi text = decimalValue text := by
  obtain ⟨c, hc, hdigit⟩ := exists_head_of_digits hne hdigits
  obtain ⟨c', hc', hdigit'⟩ := exists_last_of_digits hne hdigits
  have hplus : ¬ text.head? = some plusByte := by
    rw [hc, Option.some.injEq]
    exact ne_of_isDigit hdigit rfl
  have hminus : ¬ text.head? = some minusByte := by
    rw [hc, Option.some.injEq]
    exact ne_of_isDigit hdigit rfl
  have htake : text.takeWhile isDigit = text := List.takeWhile_eq_self_iff.mpr hdigits
  simp only [localeIndependentAtoi, trimString_eq hc hc' hdigit hdigit', hplus, hminus,
    false_and, if_false, htake, List.isEmpty_iff, hne, Nat.not_lt.mpr hfit]

/-! ### What `FormatMoney` prints -/

theorem coinText_eq {n : CAmount} (h : 0 ≤ n) :
    coinText n = decimalText (n.toNat / 100000000) ++ pointByte ::
      paddedText 8 (n.toNat % 100000000) := by
  lift n to ℕ using h
  have hneg : ¬ (n : ℤ) < 0 := by omega
  simp only [coinText, hneg, if_false]
  rfl

theorem trimZeros_fraction {fraction : Bytes} (hdigits : ∀ c ∈ fraction, isDigit c = true)
    (hlen : 2 ≤ fraction.length) (whole : Bytes) :
    ∃ k kept, fraction = List.replicate k zeroByte ++ kept ∧ 2 ≤ kept.length ∧
      trimZeros (fraction ++ pointByte :: whole) = kept ++ pointByte :: whole := by
  induction fraction with
  | nil => simp at hlen
  | cons c fraction ih =>
    cases fraction with
    | nil => simp at hlen
    | cons next fraction =>
      cases fraction with
      | nil =>
        -- the point is two places before: the loop stops
        refine ⟨0, [c, next], rfl, le_refl 2, ?_⟩
        simp [trimZeros, show isDigit pointByte = false from rfl]
      | cons before fraction =>
        have hbefore : isDigit before = true := hdigits before (by simp)
        by_cases hc : c = zeroByte
        · obtain ⟨k, kept, heq, hkept, htrim⟩ :=
            ih (fun c hc => hdigits c (List.mem_cons_of_mem _ hc)) (by simp)
          refine ⟨k + 1, kept, ?_, hkept, ?_⟩
          · rw [hc, heq, List.replicate_succ, List.cons_append]
          · rw [← htrim]
            simp [trimZeros, hc, hbefore]
        · refine ⟨0, c :: next :: before :: fraction, rfl, by simp, ?_⟩
          simp [trimZeros, hc]

/-- **What `FormatMoney` prints**: the coins, the point, and the units without some of the zeros at
their end. -/
theorem formatMoney_eq {n : CAmount} (h : 0 ≤ n) :
    ∃ fraction k, paddedText 8 (n.toNat % 100000000) = fraction ++ List.replicate k zeroByte ∧
      2 ≤ fraction.length ∧
      formatMoney n = decimalText (n.toNat / 100000000) ++ pointByte :: fraction := by
  have hlen : (paddedText 8 (n.toNat % 100000000)).length = 8 :=
    paddedText_length (Nat.mod_lt _ (by decide))
  have hdigits : ∀ c ∈ (paddedText 8 (n.toNat % 100000000)).reverse, isDigit c = true :=
    fun c hc => isDigit_of_mem_paddedText c (List.mem_reverse.mp hc)
  obtain ⟨k, kept, heq, hkept, htrim⟩ :=
    trimZeros_fraction hdigits (by rw [List.length_reverse, hlen]; decide)
    (decimalText (n.toNat / 100000000)).reverse
  refine ⟨kept.reverse, k, ?_, by rwa [List.length_reverse], ?_⟩
  · rw [← List.reverse_reverse (paddedText 8 _), heq, List.reverse_append, List.reverse_replicate]
  · have hneg : ¬ n < 0 := not_lt.mpr h
    simp only [formatMoney, hneg, if_false, coinText_eq h]
    rw [List.reverse_append, List.reverse_cons, List.append_assoc, List.singleton_append, htrim]
    simp

/-! ### What `ParseMoney` reads -/

/-- With `places` decimals left, the next digit counts `10 ^ (places - 1)` units. -/
theorem parseUnits_digits {text : Bytes} (hdigits : ∀ c ∈ text, isDigit c = true) {places : ℕ}
    (hlen : text.length ≤ places) (nUnits : ℤ) :
    parseUnits nUnits (10 ^ places / 10) text =
      (nUnits + decimalValue text * 10 ^ (places - text.length), []) := by
  induction text generalizing places nUnits with
  | nil => simp [parseUnits, decimalValue, decimalValueFrom]
  | cons c text ih =>
    obtain ⟨places, rfl⟩ : ∃ k, places = k + 1 :=
      ⟨places - 1, by rw [List.length_cons] at hlen; omega⟩
    have hlen : text.length ≤ places := Nat.le_of_succ_le_succ hlen
    have hmult : (10 : ℤ) ^ (places + 1) / 10 = 10 ^ places := by
      rw [pow_succ, Int.mul_ediv_cancel _ (by decide)]
    have hpos : (0 : ℤ) < 10 ^ places := by positivity
    have hplaces : (10 : ℤ) ^ places = 10 ^ text.length * 10 ^ (places - text.length) := by
      rw [← pow_add, Nat.add_sub_cancel' hlen]
    rw [parseUnits, hmult, hdigits c List.mem_cons_self, decide_eq_true hpos, Bool.and_true,
      if_pos rfl, ih (fun c hc => hdigits c (List.mem_cons_of_mem _ hc)) hlen, decimalValue_cons,
      List.length_cons, Nat.add_sub_add_right, hplaces]
    push_cast
    congr 1
    ring

theorem parseParts_digits {digits : Bytes} (hdigits : ∀ c ∈ digits, isDigit c = true)
    (strWhole rest : Bytes) :
    parseParts strWhole (digits ++ pointByte :: rest) =
      some (strWhole ++ digits, parseUnits 0 (coin / 10) rest) := by
  induction digits generalizing strWhole with
  | nil => simp [parseParts]
  | cons c digits ih =>
    have hc : isDigit c = true := hdigits c List.mem_cons_self
    have hpoint : ¬ c = pointByte := ne_of_isDigit hc rfl
    rw [List.cons_append, parseParts, if_neg hpoint, not_isSpace_of_isDigit hc, hc,
      if_neg Bool.false_ne_true, if_neg (by simp),
        ih fun c hc => hdigits c (List.mem_cons_of_mem _ hc)]
    simp

theorem ne_zero_of_isDigit {c : UInt8} (h : isDigit c = true) : c ≠ 0 := ne_of_isDigit h rfl

/-- The units of at most eight decimals are less than a coin. -/
theorem units_lt {fraction : Bytes} (hlen : fraction.length ≤ 8)
    (hfraction : ∀ c ∈ fraction, isDigit c = true) :
    decimalValue fraction * 10 ^ (8 - fraction.length) < 100000000 := by
  calc decimalValue fraction * 10 ^ (8 - fraction.length)
      < 10 ^ fraction.length * 10 ^ (8 - fraction.length) :=
        Nat.mul_lt_mul_of_pos_right (decimalValue_lt hfraction) (Nat.pow_pos (by decide))
    _ = 100000000 := by rw [← pow_add, Nat.add_sub_cancel' hlen]; rfl

/-- The text of coins and units, as `ParseMoney` reads it. -/
theorem parseMoney_digits {whole fraction : Bytes} (hne : whole ≠ []) (hne' : fraction ≠ [])
    (hlen : fraction.length ≤ 8) (hwhole : ∀ c ∈ whole, isDigit c = true)
    (hfraction : ∀ c ∈ fraction, isDigit c = true) {value : ℤ}
    (hvalue : value = decimalValue whole * coin +
      decimalValue fraction * 10 ^ (8 - fraction.length))
    (hrange : moneyRange value = true) :
    parseMoney (whole ++ pointByte :: fraction) = if whole.length > 10 then none
      else some value := by
  have hnull : (whole ++ pointByte :: fraction).contains 0 = false := by
    rw [List.contains_eq_mem, decide_eq_false_iff_not, List.mem_append, List.mem_cons]
    intro hmem
    obtain hmem | hmem | hmem := hmem
    · exact ne_zero_of_isDigit (hwhole 0 hmem) rfl
    · exact absurd hmem (by decide)
    · exact ne_zero_of_isDigit (hfraction 0 hmem) rfl
  have htrim : trimString (whole ++ pointByte :: fraction) = whole ++ pointByte :: fraction := by
    obtain ⟨c, hc, hdigit⟩ := exists_head_of_digits hne hwhole
    obtain ⟨c', hc', hdigit'⟩ := exists_last_of_digits hne' hfraction
    refine trimString_eq ?_ ?_ hdigit hdigit'
    · rw [List.head?_append, hc]
      rfl
    · rw [List.reverse_append, List.reverse_cons, List.append_assoc, List.head?_append, hc']
      rfl
  have hunits := units_lt hlen hfraction
  have hparts : parseParts [] (whole ++ pointByte :: fraction) =
      some (whole, (decimalValue fraction * 10 ^ (8 - fraction.length) : ℤ), []) := by
    rw [parseParts_digits hwhole, show (coin / 10 : ℤ) = 10 ^ 8 / 10 from rfl,
      parseUnits_digits hfraction hlen, List.nil_append, zero_add]
  have hcoin : ¬ ((decimalValue fraction * 10 ^ (8 - fraction.length) : ℤ) < 0 ∨
      coin < (decimalValue fraction * 10 ^ (8 - fraction.length) : ℤ)) := by
    have hcast : ((decimalValue fraction * 10 ^ (8 - fraction.length) : ℕ) : ℤ) < 100000000 := by
      exact_mod_cast hunits
    push_cast at hcast
    rw [not_or, not_lt, not_lt]
    exact ⟨by positivity, hcast.le⟩
  have hempty : (whole ++ pointByte :: fraction).isEmpty = false := by simp
  simp only [parseMoney, hnull, htrim, hempty, hparts, hcoin, List.isEmpty_nil,
    Bool.not_true, if_false, Bool.false_eq_true]
  by_cases hlong : whole.length > 10
  · rw [if_pos hlong, if_pos hlong]
  · have hfit : decimalValue whole ≤ int64Max := by
      have hlt := decimalValue_lt hwhole
      have hpow : 10 ^ whole.length ≤ 10 ^ 10 :=
        Nat.pow_le_pow_right (by decide) (Nat.not_lt.mp hlong)
      exact Nat.le_trans hlt.le (Nat.le_trans hpow (by decide))
    rw [if_neg hlong, if_neg hlong, localeIndependentAtoi_digits hne hwhole hfit, ← hvalue, hrange]
    rfl

/-- **Amounts below ten billion coins are read back**; larger ones have too many digits. -/
theorem parseMoney_formatMoney {n : CAmount} (h : moneyRange n = true) :
    parseMoney (formatMoney n) = if n < 10 ^ 18 then some n else none := by
  have hnonneg : 0 ≤ n := by
    simp only [moneyRange, Bool.and_eq_true, decide_eq_true_eq] at h
    exact h.1
  obtain ⟨fraction, k, hpadded, hlen, hformat⟩ := formatMoney_eq hnonneg
  lift n to ℕ using hnonneg
  rw [Int.toNat_natCast] at hpadded hformat
  have hlength : 8 = (fraction ++ List.replicate k zeroByte).length := by
    rw [← hpadded]
    exact (paddedText_length (Nat.mod_lt n (by decide))).symm
  rw [List.length_append, List.length_replicate] at hlength
  have hdigits : ∀ c ∈ fraction, isDigit c = true := fun c hc =>
    isDigit_of_mem_paddedText c (hpadded ▸ List.mem_append_left _ hc)
  have hunits : decimalValue fraction * 10 ^ (8 - fraction.length) = n % 100000000 := by
    rw [← decimalValue_paddedText 8 (n % 100000000), hpadded, decimalValue_append_zeros,
      show 8 - fraction.length = k by omega]
  have hvalue : (n : ℤ) = decimalValue (decimalText (n / 100000000)) * coin +
      decimalValue fraction * 10 ^ (8 - fraction.length) := by
    have hcast : (decimalValue fraction * 10 ^ (8 - fraction.length) : ℤ) =
        (n % 100000000 : ℕ) := by
      exact_mod_cast hunits
    rw [decimalValue_decimalText, hcast]
    show (n : ℤ) = (n / 100000000 : ℕ) * 100000000 + (n % 100000000 : ℕ)
    omega
  rw [hformat,
    parseMoney_digits (decimalText_ne_nil _) (List.ne_nil_of_length_pos (by omega)) (by omega)
    isDigit_of_mem_decimalText hdigits hvalue h]
  have hiff := decimalText_length_le_iff (n / 100000000) 9
  by_cases hsmall : n < 10 ^ 18
  · have hle := hiff.mpr (by omega)
    rw [if_neg (Nat.not_lt.mpr hle), if_pos (by exact_mod_cast hsmall)]
  · have hlong : ¬ (decimalText (n / 100000000)).length ≤ 9 + 1 := fun hle => by
      have := hiff.mp hle
      omega
    rw [if_pos (Nat.not_le.mp hlong), if_neg (by exact_mod_cast hsmall)]

end OpenSY.Util
