import OpenSY.Script.Src20

/-!
# Byte strings of the payloads

Numbers, hashes and zero-padded texts against the bytes they are stored in: each reader undoes its
writer, and each writer gives back the bytes that were read.
-/

namespace OpenSY.Src20

open OpenSY.Chain

/-! ### Fields -/

/-- The first `n` bytes, as a field of their own. -/
theorem exists_field {n : ℕ} {bytes : Bytes} (h : n ≤ bytes.length) :
    ∃ field rest, bytes = field ++ rest ∧ field.length = n :=
  ⟨_, _, (List.take_append_drop n bytes).symm, List.length_take_of_le h⟩

theorem take_field {n : ℕ} {field : Bytes} (h : field.length = n) (rest : Bytes) :
    (field ++ rest).take n = field := by
  rw [← h, List.take_left]

theorem drop_field {n : ℕ} {field : Bytes} (h : field.length = n) (rest : Bytes) (k : ℕ) :
    (field ++ rest).drop (n + k) = rest.drop k := by
  rw [← h, ← List.drop_drop, List.drop_left]

/-! ### Little-endian numbers -/

@[simp] theorem writeLE_length (width n : ℕ) : (writeLE width n).length = width := by
  induction width generalizing n with
  | zero => rfl
  | succ width ih => rw [writeLE, List.length_cons, ih]

theorem readLE_lt (bytes : Bytes) : readLE bytes < 256 ^ bytes.length := by
  induction bytes with
  | nil => exact Nat.one_pos
  | cons b bytes ih =>
    have hb := b.toNat_lt
    rw [readLE, List.length_cons, pow_succ]
    omega

theorem readLE_writeLE {width n : ℕ} (h : n < 256 ^ width) : readLE (writeLE width n) = n := by
  induction width generalizing n with
  | zero =>
    have hn : n = 0 := by simpa using h
    rw [hn]
    rfl
  | succ width ih =>
    rw [pow_succ] at h
    rw [writeLE, readLE, ih (by omega)]
    show n % 2 ^ 8 + 256 * (n / 256) = n
    omega

theorem writeLE_readLE (bytes : Bytes) : writeLE bytes.length (readLE bytes) = bytes := by
  induction bytes with
  | nil => rfl
  | cons b bytes ih =>
    have hb := b.toNat_lt
    have hlow : (readLE (b :: bytes)).toUInt8 = b := by
      rw [← UInt8.toNat_inj]
      show (b.toNat + 256 * readLE bytes) % 2 ^ 8 = b.toNat
      omega
    have hhigh : readLE (b :: bytes) / 256 = readLE bytes := by
      rw [readLE]
      omega
    rw [List.length_cons, writeLE, hlow, hhigh, ih]

/-! ### Hashes -/

theorem readLE_eq_foldr (bytes : Bytes) :
    readLE bytes = bytes.foldr (fun b acc => acc * 256 + b.toNat) 0 := by
  induction bytes with
  | nil => rfl
  | cons b bytes ih =>
    rw [readLE, ih, List.foldr_cons]
    omega

/-- The memory order of a hash is big-endian. -/
theorem uint256OfBytes_eq (bytes : Bytes) :
    uint256OfBytes bytes = BitVec.ofNat 256 (readLE bytes.reverse) := by
  rw [readLE_eq_foldr, List.foldr_reverse]
  rfl

@[simp] theorem uint256Bytes_length (x : Uint256) : (uint256Bytes x).length = 32 := by
  rw [uint256Bytes, List.length_reverse, writeLE_length]

theorem uint256OfBytes_uint256Bytes (x : Uint256) : uint256OfBytes (uint256Bytes x) = x := by
  have hlt : x.toNat < 256 ^ 32 := x.isLt
  rw [uint256OfBytes_eq, uint256Bytes, List.reverse_reverse, readLE_writeLE hlt, BitVec.ofNat_toNat,
    BitVec.setWidth_eq]

theorem uint256Bytes_uint256OfBytes {bytes : Bytes} (h : bytes.length = 32) :
    uint256Bytes (uint256OfBytes bytes) = bytes := by
  have hlen : bytes.reverse.length = 32 := by rw [List.length_reverse, h]
  have hlt : readLE bytes.reverse < 2 ^ 256 := by
    have hlt := readLE_lt bytes.reverse
    rw [hlen] at hlt
    exact hlt
  have hback := writeLE_readLE bytes.reverse
  rw [hlen] at hback
  rw [uint256Bytes, uint256OfBytes_eq, BitVec.toNat_ofNat, Nat.mod_eq_of_lt hlt, hback,
    List.reverse_reverse]

/-! ### Zero-padded texts -/

/-- `slot` holds the text `bytes`: the text fills it, or a zero byte ends the text and anything
follows. -/
def Slot (width : ℕ) (bytes slot : Bytes) : Prop :=
  slot.length = width ∧ 0 ∉ bytes ∧ (slot = bytes ∨ ∃ junk, slot = bytes ++ 0 :: junk)

theorem untilNull_cons_zero (slot : Bytes) : untilNull (0 :: slot) = [] := rfl

theorem untilNull_cons {b : UInt8} (hb : b ≠ 0) (slot : Bytes) :
    untilNull (b :: slot) = b :: untilNull slot := by
  rw [untilNull, List.takeWhile_cons_of_pos (by simpa using hb)]
  rfl

theorem untilNull_slot (slot : Bytes) : Slot slot.length (untilNull slot) slot := by
  induction slot with
  | nil => exact ⟨rfl, List.not_mem_nil, .inl rfl⟩
  | cons b slot ih =>
    obtain ⟨-, hnull, hslot⟩ := ih
    refine ⟨rfl, ?_⟩
    by_cases hb : b = 0
    · rw [hb, untilNull_cons_zero]
      exact ⟨List.not_mem_nil, .inr ⟨slot, rfl⟩⟩
    · rw [untilNull_cons hb]
      refine ⟨List.not_mem_cons_of_ne_of_not_mem (Ne.symm hb) hnull, ?_⟩
      cases hslot with
      | inl hslot => exact .inl (congrArg (b :: ·) hslot)
      | inr hslot =>
        obtain ⟨junk, hslot⟩ := hslot
        exact .inr ⟨junk, congrArg (b :: ·) hslot⟩

theorem Slot.untilNull_eq {width : ℕ} {bytes slot : Bytes} (h : Slot width bytes slot) :
    untilNull slot = bytes := by
  obtain ⟨-, hnull, hslot⟩ := h
  clear width
  induction bytes generalizing slot with
  | nil =>
    cases hslot with
    | inl hslot => rw [hslot]; rfl
    | inr hslot => obtain ⟨junk, rfl⟩ := hslot; rfl
  | cons b bytes ih =>
    obtain ⟨hb, hnull⟩ := List.ne_and_not_mem_of_not_mem_cons hnull
    cases hslot with
    | inl hslot => rw [hslot, untilNull_cons hb.symm, ih hnull (.inl rfl)]
    | inr hslot =>
      obtain ⟨junk, rfl⟩ := hslot
      rw [List.cons_append, untilNull_cons hb.symm, ih hnull (.inr ⟨junk, rfl⟩)]

theorem padNull_eq {width : ℕ} {bytes : Bytes} (h : bytes.length ≤ width) :
    padNull width bytes = bytes ++ List.replicate (width - bytes.length) 0 := by
  refine List.ext_getElem (by simp [padNull, h]) fun i hi _ => ?_
  have hi : i < width := by simpa [padNull] using hi
  by_cases hlt : i < bytes.length
  · simp [padNull, List.getElem_append_left hlt, hlt]
  · simp [padNull, List.getElem_append_right (Nat.not_lt.mp hlt), hlt]

theorem padNull_slot {width : ℕ} {bytes : Bytes} (h : bytes.length ≤ width) (hnull : 0 ∉ bytes) :
    Slot width bytes (padNull width bytes) := by
  refine ⟨by simp [padNull], hnull, ?_⟩
  rw [padNull_eq h]
  cases width - bytes.length with
  | zero => exact .inl (List.append_nil bytes)
  | succ n => exact .inr ⟨List.replicate n 0, rfl⟩

end OpenSY.Src20
