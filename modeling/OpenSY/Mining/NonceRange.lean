import OpenSY.Chain.BlockIndex
import OpenSY.Script.Bytes

/-!
# Headers and nonces

A mining thread serialises the header once and then writes each nonce over its last four bytes; the
nonces are divided among the threads, with the rest of the division for the last one.

* `patchNonce_serHeader` — patching gives the serialised header with the new nonce;
* `startNonce_eq`, `endNonce_eq` — no bound wraps;
* `nonces_divided` — every nonce but the greatest belongs to exactly one thread.
-/

namespace OpenSY.Mining

open OpenSY.Chain OpenSY.Src20

/-! ### The header in bytes -/

def serHeader (header : CBlockHeader) : Bytes :=
  writeLE 4 (header.nVersion % 2 ^ 32).toNat ++ uint256Bytes header.hashPrevBlock ++
    uint256Bytes header.hashMerkleRoot ++ writeLE 4 header.nTime ++ writeLE 4 header.nBits.toNat ++
    writeLE 4 header.nNonce.toNat

def withNonce (block : CBlockHeader) (nonce : ℕ) : CBlockHeader :=
  { block with nNonce := BitVec.ofNat 32 nonce }

/-- Write the nonce over the last four bytes. -/
def patchNonce (headerData : Bytes) (nonce : ℕ) : Bytes :=
  let nonceOffset := headerData.length - 4
  (((headerData.set nonceOffset (nonce % 256).toUInt8).set (nonceOffset + 1)
    (nonce / 2 ^ 8 % 256).toUInt8).set (nonceOffset + 2) (nonce / 2 ^ 16 % 256).toUInt8).set
    (nonceOffset + 3) (nonce / 2 ^ 24 % 256).toUInt8

theorem patchNonce_append (bytes : Bytes) (a b c d : UInt8) (nonce : ℕ) :
    patchNonce (bytes ++ [a, b, c, d]) nonce =
      bytes ++ [(nonce % 256).toUInt8, (nonce / 2 ^ 8 % 256).toUInt8,
        (nonce / 2 ^ 16 % 256).toUInt8,
        (nonce / 2 ^ 24 % 256).toUInt8] := by
  have hoffset : (bytes ++ [a, b, c, d]).length - 4 = bytes.length := by
    rw [List.length_append]
    rfl
  simp only [patchNonce, hoffset, List.set_append_right _ _ (Nat.le_refl _),
    List.set_append_right _ _ (Nat.le_add_right _ _), Nat.sub_self, Nat.add_sub_cancel_left,
    List.set_cons_zero, List.set_cons_succ]

theorem toUInt8_mod (n : ℕ) : (n % 256).toUInt8 = n.toUInt8 := by
  rw [← UInt8.toNat_inj]
  show n % 256 % 2 ^ 8 = n % 2 ^ 8
  omega

theorem writeLE_four (n : ℕ) :
    writeLE 4 n = [(n % 256).toUInt8, (n / 2 ^ 8 % 256).toUInt8, (n / 2 ^ 16 % 256).toUInt8,
      (n / 2 ^ 24 % 256).toUInt8] := by
  simp only [writeLE, toUInt8_mod, Nat.div_div_eq_div_mul]
  rfl

/-- **Only the nonce is new.** -/
theorem patchNonce_serHeader (block : CBlockHeader) (old : ℕ) {nonce : ℕ} (hlt : nonce < 2 ^ 32) :
    patchNonce (serHeader (withNonce block old)) nonce = serHeader (withNonce block nonce) := by
  have hnat : (BitVec.ofNat 32 nonce).toNat = nonce := by
    rw [BitVec.toNat_ofNat, Nat.mod_eq_of_lt hlt]
  show patchNonce (_ ++ writeLE 4 (BitVec.ofNat 32 old).toNat) nonce =
      _ ++ writeLE 4 (BitVec.ofNat 32 nonce).toNat
  rw [writeLE_four (BitVec.ofNat 32 old).toNat, patchNonce_append, hnat, writeLE_four nonce]
  rfl

/-! ### The intervals -/

/-- `std::numeric_limits<uint32_t>::max()` -/
def nonceMax : ℕ := 2 ^ 32 - 1

def nonceRange (numThreads : ℕ) : ℕ := nonceMax / numThreads

def startNonce (numThreads t : ℕ) : ℕ := t * nonceRange numThreads % 2 ^ 32

def endNonce (numThreads t : ℕ) : ℕ :=
  if t = numThreads - 1 then nonceMax else (t + 1) * nonceRange numThreads % 2 ^ 32

section Intervals

variable {n : ℕ}

theorem mul_nonceRange_le {t : ℕ} (ht : t ≤ n) : t * nonceRange n ≤ nonceMax :=
  (Nat.mul_le_mul_right _ ht).trans (Nat.mul_div_le nonceMax n)

/-- No bound wraps. -/
theorem startNonce_eq {t : ℕ} (ht : t < n) : startNonce n t = t * nonceRange n := by
  have hle := mul_nonceRange_le ht.le
  have hmax : nonceMax < 2 ^ 32 := by decide
  exact Nat.mod_eq_of_lt (by omega)

theorem endNonce_eq {t : ℕ} (ht : t + 1 < n) : endNonce n t = (t + 1) * nonceRange n := by
  have hle := mul_nonceRange_le ht.le
  have hmax : nonceMax < 2 ^ 32 := by decide
  rw [endNonce, if_neg (by omega)]
  exact Nat.mod_eq_of_lt (by omega)

theorem endNonce_last (n : ℕ) : endNonce n (n - 1) = nonceMax := if_pos rfl

theorem endNonce_le {t : ℕ} (ht : t < n) : endNonce n t ≤ nonceMax := by
  by_cases hlast : t = n - 1
  · rw [hlast, endNonce_last]
  · rw [endNonce_eq (by omega)]
    exact mul_nonceRange_le (by omega)

variable (hpos : 1 ≤ n) (hlt : n ≤ nonceMax)

include hpos hlt in
theorem nonceRange_pos : 0 < nonceRange n := Nat.div_pos hlt hpos

include hpos hlt in
/-- Every thread has some nonce. -/
theorem startNonce_lt_endNonce {t : ℕ} (ht : t < n) : startNonce n t < endNonce n t := by
  have hrange := nonceRange_pos hpos hlt
  rw [startNonce_eq ht]
  by_cases hlast : t = n - 1
  · rw [hlast, endNonce_last]
    have hle := mul_nonceRange_le (show n - 1 + 1 ≤ n by omega)
    rw [Nat.add_mul] at hle
    omega
  · rw [endNonce_eq (by omega), Nat.add_mul]
    omega

/-- A nonce of thread `t` comes before those of any later thread. -/
theorem lt_startNonce {t u x : ℕ} (htu : t < u) (hu : u < n)
    (hx : x < endNonce n t) : x < startNonce n u := by
  rw [endNonce_eq (by omega)] at hx
  rw [startNonce_eq hu]
  exact hx.trans_le (Nat.mul_le_mul_right _ htu)

include hpos hlt in
/-- **The nonces are divided up**: each one below the greatest belongs to exactly one thread. -/
theorem nonces_divided (x : ℕ) :
    x < nonceMax ↔ ∃! t, t < n ∧ startNonce n t ≤ x ∧ x < endNonce n t := by
  have hrange := nonceRange_pos hpos hlt
  constructor
  · intro hx
    -- the thread, or the last one if the division leaves a rest
    have hexists : ∃ t, t < n ∧ startNonce n t ≤ x ∧ x < endNonce n t := by
      have hquot : x / nonceRange n * nonceRange n ≤ x := Nat.div_mul_le_self _ _
      have hnext : x < (x / nonceRange n + 1) * nonceRange n := by
        rw [Nat.add_mul, Nat.one_mul]
        exact Nat.lt_div_mul_add hrange
      by_cases hlast : x / nonceRange n < n - 1
      · refine ⟨x / nonceRange n, by omega, ?_, ?_⟩
        · rw [startNonce_eq (by omega)]
          exact hquot
        · rw [endNonce_eq (by omega)]
          exact hnext
      · refine ⟨n - 1, by omega, ?_, ?_⟩
        · rw [startNonce_eq (by omega)]
          exact (Nat.mul_le_mul_right _ (not_lt.mp hlast)).trans hquot
        · rw [endNonce_last]
          exact hx
    obtain ⟨t, ht, hstart, hend⟩ := hexists
    refine ⟨t, ⟨ht, hstart, hend⟩, ?_⟩
    rintro u ⟨hu, hstart', hend'⟩
    rcases Nat.lt_trichotomy u t with hlt' | heq | hgt
    · exact absurd (lt_startNonce hlt' ht hend') (not_lt.mpr hstart)
    · exact heq
    · exact absurd (lt_startNonce hgt hu hend) (not_lt.mpr hstart')
  · rintro ⟨t, ⟨ht, -, hend⟩, -⟩
    exact hend.trans_le (endNonce_le ht)

end Intervals

end OpenSY.Mining
