import OpenSY.Chain.Primitives
import OpenSY.Lib.FloatTruncation

/-!
# Targets and their compact encoding

A 256-bit target is stored in 32 bits: a size in bytes and a signed mantissa of 23 bits, that is, in
a floating-point format to base 256.

* `setCompact_getCompact` — encoding and decoding rounds down to this format, with no flag raised;
* `deriveTarget_getCompact` — so a positive target within the limit is still one after encoding;
* `scale_eq` — the divide-first multiplication of the retarget is exact, up to the width of the
  integers.
-/

namespace OpenSY.Pow

open OpenSY.Chain OpenSY.FloatTruncation

/-- A decoded target and the two flags that decoding sets. -/
structure CompactValue where
  value : ℕ
  negative : Bool
  overflow : Bool
  deriving DecidableEq

/-- `arith_uint256::SetCompact`. -/
def setCompact (nCompact : BitVec 32) : CompactValue :=
  let nSize := nCompact.toNat / 2 ^ 24
  let mantissa := nCompact.toNat % 2 ^ 23
  let nWord := if nSize ≤ 3 then mantissa / 2 ^ (8 * (3 - nSize)) else mantissa
  { value := if nSize ≤ 3 then nWord else nWord * 2 ^ (8 * (nSize - 3)) % 2 ^ 256
    negative := nWord ≠ 0 && nCompact.toNat / 2 ^ 23 % 2 = 1
    overflow := nWord ≠ 0 &&
      (nSize > 34 || (nWord > 0xff && nSize > 33) || (nWord > 0xffff && nSize > 32)) }

/-- The position of the highest bit that is set, plus one. -/
def bits (x : ℕ) : ℕ := if x = 0 then 0 else x.log2 + 1

/-- `arith_uint256::GetCompact`, always called for a non-negative number. -/
def getCompact (x : ℕ) : BitVec 32 :=
  let nSize := (bits x + 7) / 8
  let nCompact := if nSize ≤ 3 then x * 2 ^ (8 * (3 - nSize)) else x / 2 ^ (8 * (nSize - 3))
  -- a mantissa that reaches the sign bit gives up its last byte
  if nCompact / 2 ^ 23 % 2 = 1 then BitVec.ofNat 32 (nCompact / 2 ^ 8 + (nSize + 1) * 2 ^ 24)
  else BitVec.ofNat 32 (nCompact + nSize * 2 ^ 24)

/-- The target of a header's `nBits`, unless it is out of range. -/
def deriveTarget (nBits : BitVec 32) (powLimit : Uint256) : Option ℕ :=
  let bnTarget := setCompact nBits
  if bnTarget.negative || bnTarget.value = 0 || bnTarget.overflow ||
      bnTarget.value > powLimit.toNat then none
  else some bnTarget.value

/-- `bnNew * ts / tgt` on 256-bit integers, dividing first. -/
def scale (bnNew ts tgt : ℕ) : ℕ :=
  let quotient := bnNew / tgt
  let remainder := bnNew - quotient * tgt
  (quotient * ts % 2 ^ 256 + remainder * ts % 2 ^ 256 / tgt) % 2 ^ 256

theorem setCompact_lt (nBits : BitVec 32) : (setCompact nBits).value < 2 ^ 256 := by
  simp only [setCompact]
  split_ifs
  · have hmantissa : nBits.toNat % 2 ^ 23 < 2 ^ 23 := Nat.mod_lt _ (by decide)
    exact lt_of_le_of_lt (Nat.div_le_self _ _) (hmantissa.trans (by decide))
  · exact Nat.mod_lt _ (by decide)

/-! ### The format -/

/-- Mantissas of 23 bits, exponents to base 256. -/
def compactFormat : Format where
  base := 256
  bound := 2 ^ 23
  one_lt_base := by decide
  bound_pos := by decide
  base_dvd_bound := ⟨2 ^ 15, by decide⟩

theorem two_pow_eight_mul (k : ℕ) : 2 ^ (8 * k) = 256 ^ k := by
  rw [pow_mul, show (2 : ℕ) ^ 8 = 256 from rfl]

/-- The number of bytes of `x`. -/
theorem byteLength_spec {x : ℕ} (hx : x ≠ 0) :
    1 ≤ (bits x + 7) / 8 ∧ 256 ^ ((bits x + 7) / 8 - 1) ≤ x ∧ x < 256 ^ ((bits x + 7) / 8) := by
  have hbits : bits x = x.log2 + 1 := if_neg hx
  have hlow : 2 ^ x.log2 ≤ x := Nat.log2_self_le hx
  have hhigh : x < 2 ^ (x.log2 + 1) := Nat.lt_log2_self
  refine ⟨by omega, ?_, ?_⟩
  · rw [← two_pow_eight_mul]
    exact (Nat.pow_le_pow_right (by decide) (by omega)).trans hlow
  · rw [← two_pow_eight_mul]
    exact hhigh.trans_le (Nat.pow_le_pow_right (by decide) (by omega))

/-- A mantissa and a size that fit are read back without a flag. -/
theorem setCompact_ofNat {m s v : ℕ} (hm : m < 2 ^ 23) (hsize : s ≤ 32 ∨ s = 33 ∧ m < 2 ^ 16)
    (hv : (if s ≤ 3 then m / 2 ^ (8 * (3 - s)) else m * 2 ^ (8 * (s - 3))) = v)
    (hlt : v < 2 ^ 256) :
    setCompact (BitVec.ofNat 32 (m + s * 2 ^ 24)) = ⟨v, false, false⟩ := by
  have hnat : (BitVec.ofNat 32 (m + s * 2 ^ 24)).toNat = m + s * 2 ^ 24 := by
    rw [BitVec.toNat_ofNat, Nat.mod_eq_of_lt (by omega)]
  have hs : (m + s * 2 ^ 24) / 2 ^ 24 = s := by omega
  have hword : (m + s * 2 ^ 24) % 2 ^ 23 = m := by omega
  have hsign : (m + s * 2 ^ 24) / 2 ^ 23 % 2 = 0 := by omega
  have h34 : ¬ s > 34 := by omega
  have h33 : ¬ s > 33 := by omega
  by_cases h : s ≤ 3
  · have h32 : ¬ s > 32 := by omega
    rw [if_pos h] at hv
    simp only [setCompact, hnat, hs, hword, hsign, if_pos h, hv]
    simp [h34, h33, h32]
  · have h32 : ¬ (m > 0xffff ∧ s > 32) := by omega
    rw [if_neg h] at hv
    simp only [setCompact, hnat, hs, hword, hsign, if_neg h, hv, Nat.mod_eq_of_lt hlt]
    simp [h34, h33, ← Bool.decide_and, h32]

/-- The mantissa and the size that encoding picks, from the leading three bytes. -/
theorem getCompact_eq {x n c : ℕ} (hn : (bits x + 7) / 8 = n)
    (hc : (if n ≤ 3 then x * 2 ^ (8 * (3 - n)) else x / 2 ^ (8 * (n - 3))) = c)
    (hlt : c < 2 ^ 24) :
    getCompact x = if 2 ^ 23 ≤ c then BitVec.ofNat 32 (c / 2 ^ 8 + (n + 1) * 2 ^ 24)
      else BitVec.ofNat 32 (c + n * 2 ^ 24) := by
  have hsign : c / 2 ^ 23 % 2 = 1 ↔ 2 ^ 23 ≤ c := by omega
  simp only [getCompact, hn, hc, hsign]

theorem trunc_eq_of_cut {x k : ℕ} (hfits : x < 2 ^ 23 * 256 ^ k)
    (hleast : ∀ j < k, 2 ^ 23 * 256 ^ j ≤ x) :
    compactFormat.trunc x = x / 256 ^ k * 256 ^ k := by
  have hcut : compactFormat.cut x = k := Format.cut_eq hfits hleast
  rw [Format.trunc, hcut]
  rfl

/-- Up to two bytes there is room for the whole number. -/
theorem setCompact_getCompact_short {x n : ℕ} (hn : (bits x + 7) / 8 = n) (hn2 : n ≤ 2)
    (hhigh : x < 256 ^ n) :
    setCompact (getCompact x) = ⟨compactFormat.trunc x, false, false⟩ := by
  have hbytes : x * 256 ^ (3 - n) < 2 ^ 24 := by
    calc x * 256 ^ (3 - n) < 256 ^ n * 256 ^ (3 - n) :=
          Nat.mul_lt_mul_of_pos_right hhigh (Nat.pow_pos (by decide))
      _ = 2 ^ 24 := by
          rw [← pow_add, show n + (3 - n) = 3 by omega]
          rfl
  have hx : x < 2 ^ 23 := by
    have hle : 256 ^ n ≤ 256 ^ 2 := Nat.pow_le_pow_right (by decide) hn2
    omega
  rw [getCompact_eq hn (by rw [if_pos (by omega), two_pow_eight_mul]) hbytes,
    Format.trunc_of_lt (show x < compactFormat.bound from hx)]
  split_ifs with hc
  · refine setCompact_ofNat (by omega) (by omega) ?_ (by omega)
    rw [if_pos (by omega), two_pow_eight_mul, show (2 : ℕ) ^ 8 = 256 ^ 1 from rfl,
      Nat.div_div_eq_div_mul, ← pow_add, show 1 + (3 - (n + 1)) = 3 - n by omega]
    exact Nat.mul_div_cancel x (Nat.pow_pos (by decide))
  · refine setCompact_ofNat (by omega) (by omega) ?_ (by omega)
    rw [if_pos (by omega), two_pow_eight_mul]
    exact Nat.mul_div_cancel x (Nat.pow_pos (by decide))

/-- From three bytes on the leading ones are kept: three, or two if the first reaches the sign bit.
-/
theorem setCompact_getCompact_long {x k : ℕ} (hx : x < 2 ^ 256) (hn : (bits x + 7) / 8 = k + 3)
    (hlow : 256 ^ (k + 2) ≤ x) (hhigh : x < 256 ^ (k + 3)) :
    setCompact (getCompact x) = ⟨compactFormat.trunc x, false, false⟩ := by
  have hpos : 0 < 256 ^ k := Nat.pow_pos (by decide)
  have hk : k ≤ 29 := by
    by_contra hk
    have hle : 256 ^ (30 + 2) ≤ 256 ^ (k + 2) := Nat.pow_le_pow_right (by decide) (by omega)
    omega
  have hbytes : x / 256 ^ k < 2 ^ 24 := by
    rw [Nat.div_lt_iff_lt_mul hpos]
    calc x < 256 ^ (k + 3) := hhigh
      _ = 2 ^ 24 * 256 ^ k := by ring
  have hc : (if k + 3 ≤ 3 then x * 2 ^ (8 * (3 - (k + 3))) else x / 2 ^ (8 * (k + 3 - 3))) =
      x / 256 ^ k := by
    rw [Nat.add_sub_cancel, two_pow_eight_mul, two_pow_eight_mul]
    split_ifs with h3
    · obtain rfl : k = 0 := by omega
      simp
    · rfl
  rw [getCompact_eq hn hc hbytes]
  split_ifs with hsign
  · -- the last of the three bytes goes as well
    have htrunc : compactFormat.trunc x = x / 256 ^ (k + 1) * 256 ^ (k + 1) := by
      refine trunc_eq_of_cut ?_ fun j hj => ?_
      · calc x < 256 ^ (k + 3) := hhigh
          _ = 2 ^ 16 * 256 ^ (k + 1) := by ring
          _ ≤ 2 ^ 23 * 256 ^ (k + 1) := Nat.mul_le_mul_right _ (by decide)
      · calc 2 ^ 23 * 256 ^ j ≤ 2 ^ 23 * 256 ^ k :=
              Nat.mul_le_mul_left _ (Nat.pow_le_pow_right (by decide) (by omega))
          _ ≤ x := (Nat.le_div_iff_mul_le hpos).mp hsign
    rw [htrunc]
    refine setCompact_ofNat (by omega) (by omega) ?_ ?_
    · rw [if_neg (by omega), show k + 3 + 1 - 3 = k + 1 by omega, two_pow_eight_mul,
        Nat.div_div_eq_div_mul, show (2 : ℕ) ^ 8 = 256 from rfl, ← pow_succ]
    · exact lt_of_le_of_lt (Nat.div_mul_le_self _ _) hx
  · have htrunc : compactFormat.trunc x = x / 256 ^ k * 256 ^ k := by
      refine trunc_eq_of_cut ?_ fun j hj => ?_
      · exact (Nat.div_lt_iff_lt_mul hpos).mp (not_le.mp hsign)
      · calc 2 ^ 23 * 256 ^ j ≤ 2 ^ 24 * 256 ^ j := Nat.mul_le_mul_right _ (by decide)
          _ = 256 ^ (j + 3) := by ring
          _ ≤ 256 ^ (k + 2) := Nat.pow_le_pow_right (by decide) (by omega)
          _ ≤ x := hlow
    rw [htrunc]
    refine setCompact_ofNat (by omega) (by omega) ?_ ?_
    · split_ifs with h3
      · obtain rfl : k = 0 := by omega
        simp
      · rw [Nat.add_sub_cancel, two_pow_eight_mul]
    · exact lt_of_le_of_lt (Nat.div_mul_le_self _ _) hx

/-- **Encoding and decoding rounds down**, and raises no flag. -/
theorem setCompact_getCompact {x : ℕ} (hx : x < 2 ^ 256) :
    setCompact (getCompact x) = ⟨compactFormat.trunc x, false, false⟩ := by
  by_cases hzero : x = 0
  · subst hzero
    exact setCompact_getCompact_short (n := 0) rfl (by decide) (by decide)
  obtain ⟨hn, hlow, hhigh⟩ := byteLength_spec hzero
  by_cases hshort : (bits x + 7) / 8 ≤ 2
  · exact setCompact_getCompact_short rfl hshort hhigh
  · obtain ⟨k, hk⟩ : ∃ k, (bits x + 7) / 8 = k + 3 := ⟨(bits x + 7) / 8 - 3, by omega⟩
    rw [hk] at hlow hhigh
    exact setCompact_getCompact_long hx hk hlow hhigh

/-- The sizes that pass the overflow test. -/
theorem mantissa_shift_lt {m s : ℕ} (hm : m < 2 ^ 23)
    (h : m = 0 ∨ s ≤ 34 ∧ (m ≤ 0xff ∨ s ≤ 33) ∧ (m ≤ 0xffff ∨ s ≤ 32)) :
    m * 2 ^ (8 * (s - 3)) < 2 ^ 256 := by
  have hbound : ∀ {w e : ℕ}, m < 2 ^ w → w + 8 * e ≤ 256 → s - 3 ≤ e →
      m * 2 ^ (8 * (s - 3)) < 2 ^ 256 := by
    intro w e hw he hs
    calc m * 2 ^ (8 * (s - 3)) < 2 ^ w * 2 ^ (8 * (s - 3)) :=
          Nat.mul_lt_mul_of_pos_right hw (Nat.two_pow_pos _)
      _ = 2 ^ (w + 8 * (s - 3)) := (pow_add _ _ _).symm
      _ ≤ 2 ^ 256 := Nat.pow_le_pow_right (by decide) (by omega)
  rcases h with rfl | ⟨h34, h33, h32⟩
  · simp
  · rcases h32 with h32 | h32
    · rcases h33 with h33 | h33
      · exact hbound (w := 8) (e := 31) (by omega) (by decide) (by omega)
      · exact hbound (w := 16) (e := 30) (by omega) (by decide) (by omega)
    · exact hbound (e := 29) hm (by decide) (by omega)

/-- Decoding without overflow gives a number of the format. -/
theorem representable_setCompact {nBits : BitVec 32} (h : (setCompact nBits).overflow = false) :
    compactFormat.Representable (setCompact nBits).value := by
  have hmantissa : nBits.toNat % 2 ^ 23 < 2 ^ 23 := Nat.mod_lt _ (by decide)
  by_cases hs : nBits.toNat / 2 ^ 24 ≤ 3
  · refine ⟨_, 0, lt_of_le_of_lt (Nat.div_le_self _ (2 ^ (8 * (3 - nBits.toNat / 2 ^ 24))))
      hmantissa, ?_⟩
    simp only [setCompact, if_pos hs, pow_zero, mul_one]
  · refine ⟨_, nBits.toNat / 2 ^ 24 - 3, hmantissa, ?_⟩
    have hrange : nBits.toNat % 2 ^ 23 * 2 ^ (8 * (nBits.toNat / 2 ^ 24 - 3)) < 2 ^ 256 := by
      simp only [setCompact, if_neg hs, Bool.and_eq_false_iff, Bool.or_eq_false_iff,
        decide_eq_false_iff_not] at h
      exact mantissa_shift_lt hmantissa (by omega)
    simp only [setCompact, if_neg hs]
    rw [Nat.mod_eq_of_lt hrange, two_pow_eight_mul]
    rfl

/-! ### Deriving a target -/

theorem deriveTarget_eq_some {nBits : BitVec 32} {powLimit : Uint256} {target : ℕ} :
    deriveTarget nBits powLimit = some target ↔
      setCompact nBits = ⟨target, false, false⟩ ∧ 0 < target ∧ target ≤ powLimit.toNat := by
  rcases hv : setCompact nBits with ⟨value, negative, overflow⟩
  simp only [deriveTarget, hv]
  cases negative <;> cases overflow <;> simp
  grind

/-- A larger limit lets every target through that a smaller one does. -/
theorem deriveTarget_mono {nBits : BitVec 32} {limit limit' : Uint256} {target : ℕ}
    (hle : limit ≤ limit') (h : deriveTarget nBits limit = some target) :
    deriveTarget nBits limit' = some target := by
  obtain ⟨hset, hpos, hmax⟩ := deriveTarget_eq_some.mp h
  exact deriveTarget_eq_some.mpr ⟨hset, hpos, hmax.trans hle⟩

/-- No target lies under the null limit. -/
theorem deriveTarget_zero (nBits : BitVec 32) : deriveTarget nBits 0 = none := by
  rw [Option.eq_none_iff_forall_ne_some]
  intro target h
  obtain ⟨-, hpos, hmax⟩ := deriveTarget_eq_some.mp h
  have hnull : (0 : Uint256).toNat = 0 := rfl
  omega

/-- **A positive target within the limit** is still one after encoding. -/
theorem deriveTarget_getCompact {x : ℕ} {powLimit : Uint256} (hpos : 0 < x)
    (hle : x ≤ powLimit.toNat) :
    deriveTarget (getCompact x) powLimit = some (compactFormat.trunc x) :=
  deriveTarget_eq_some.mpr ⟨setCompact_getCompact (lt_of_le_of_lt hle powLimit.isLt),
    Format.trunc_pos hpos, (Format.trunc_le x).trans hle⟩

theorem deriveTarget_getCompact_zero (powLimit : Uint256) :
    deriveTarget (getCompact 0) powLimit = none := by
  rw [Option.eq_none_iff_forall_ne_some]
  intro target h
  obtain ⟨hset, hpos, -⟩ := deriveTarget_eq_some.mp h
  rw [show setCompact (getCompact 0) = ⟨0, false, false⟩ from rfl] at hset
  obtain rfl : 0 = target := congrArg CompactValue.value hset
  omega

/-! ### Scaling -/

/-- Division first, with what it cut off added again. -/
theorem mul_div_split (a b : ℕ) {c : ℕ} (hc : 0 < c) : a * b / c = a / c * b + a % c * b / c := by
  calc a * b / c = (a / c * c + a % c) * b / c := by
        rw [Nat.div_add_mod']
    _ = (c * (a / c * b) + a % c * b) / c := by
        congr 1
        ring
    _ = a / c * b + a % c * b / c := Nat.mul_add_div hc _ _

/-- **Dividing first is exact**, up to the width of the integers. -/
theorem scale_eq (bnNew : ℕ) {ts tgt : ℕ} (hts : ts < 2 ^ 32) (htgt : 0 < tgt)
    (hlt : tgt < 2 ^ 32) : scale bnNew ts tgt = bnNew * ts / tgt % 2 ^ 256 := by
  have hrem : bnNew - bnNew / tgt * tgt = bnNew % tgt := by
    have hdiv := Nat.div_add_mod' bnNew tgt
    omega
  have hsmall : bnNew % tgt * ts < 2 ^ 256 := by
    calc bnNew % tgt * ts ≤ 2 ^ 32 * 2 ^ 32 :=
          Nat.mul_le_mul ((Nat.mod_lt _ htgt).le.trans hlt.le) hts.le
      _ < 2 ^ 256 := by decide
  simp only [scale, hrem, Nat.mod_eq_of_lt hsmall, mul_div_split bnNew ts htgt, Nat.mod_add_mod]

end OpenSY.Pow
