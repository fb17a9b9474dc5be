import OpenSY.Lib.LazyBlocks
import OpenSY.Script.Bytes

/-!
# BLAKE2b

The hasher of `crypto/blake2b.cpp`: the compression function, the two constructors, and `Write`,
`Finalize` and `Reset` on the object with its partly filled buffer.

`Write` compresses lazily: a full buffer stays until more bytes arrive, so that `Finalize` has the
last block. The object is read as the pair of `CBlake2b.chain` (chaining words, byte counter, flags)
and `CBlake2b.pending` (the bytes of the buffer in use); `chain_write` says that `Write` drains the
pending and the new bytes into the chain.
-/

namespace OpenSY.Blake2b

open OpenSY.Chain OpenSY.LazyBlocks
open OpenSY.Src20 (writeLE)

/-! ### The compression function -/

/-- `BLAKE2B_IV` -/
def blake2bIV : Vector UInt64 8 :=
  #v[0x6a09e667f3bcc908, 0xbb67ae8584caa73b, 0x3c6ef372fe94f82b, 0xa54ff53a5f1d36f1,
    0x510e527fade682d1, 0x9b05688c2b3e6c1f, 0x1f83d9abfb41bd6b, 0x5be0cd19137e2179]

/-- `BLAKE2B_SIGMA` -/
def blake2bSigma : List (Vector (Fin 16) 16) :=
  [#v[0, 1, 2, 3, 4, 5, 6, 7, 8, 9, 10, 11, 12, 13, 14, 15],
    #v[14, 10, 4, 8, 9, 15, 13, 6, 1, 12, 0, 2, 11, 7, 5, 3],
    #v[11, 8, 12, 0, 5, 2, 15, 13, 10, 14, 3, 6, 7, 1, 9, 4],
    #v[7, 9, 3, 1, 13, 12, 11, 14, 2, 6, 5, 10, 4, 0, 15, 8],
    #v[9, 0, 5, 7, 2, 4, 10, 15, 14, 1, 11, 12, 6, 8, 3, 13],
    #v[2, 12, 6, 10, 0, 11, 8, 3, 4, 13, 7, 5, 15, 14, 1, 9],
    #v[12, 5, 1, 15, 14, 13, 4, 10, 0, 7, 6, 3, 9, 2, 8, 11],
    #v[13, 11, 7, 14, 12, 1, 3, 9, 5, 0, 15, 4, 8, 6, 2, 10],
    #v[6, 15, 14, 9, 11, 3, 0, 8, 12, 2, 13, 7, 1, 4, 10, 5],
    #v[10, 2, 8, 4, 7, 6, 1, 5, 15, 11, 9, 14, 3, 12, 13, 0],
    #v[0, 1, 2, 3, 4, 5, 6, 7, 8, 9, 10, 11, 12, 13, 14, 15],
    #v[14, 10, 4, 8, 9, 15, 13, 6, 1, 12, 0, 2, 11, 7, 5, 3]]

/-- `ROTR64` -/
def rotr64 (x n : UInt64) : UInt64 := (x >>> n) ||| (x <<< (64 - n))

/-- `G` on the words `v[a]`, `v[b]`, `v[c]` and `v[d]`. -/
def mixG (v : Vector UInt64 16) (a b c d : Fin 16) (x y : UInt64) : Vector UInt64 16 :=
  let va := v.get a + v.get b + x
  let vd := rotr64 (v.get d ^^^ va) 32
  let vc := v.get c + vd
  let vb := rotr64 (v.get b ^^^ vc) 24
  let va := va + vb + y
  let vd := rotr64 (vd ^^^ va) 16
  let vc := vc + vd
  let vb := rotr64 (vb ^^^ vc) 63
  (((v.set a va).set b vb).set c vc).set d vd

/-- One round: the columns, then the diagonals, with the message words in the order `s`. -/
def mixRound (m : Vector UInt64 16) (v : Vector UInt64 16)
    (s : Vector (Fin 16) 16) : Vector UInt64 16 :=
  let v := mixG v 0 4 8 12 (m.get (s.get 0)) (m.get (s.get 1))
  let v := mixG v 1 5 9 13 (m.get (s.get 2)) (m.get (s.get 3))
  let v := mixG v 2 6 10 14 (m.get (s.get 4)) (m.get (s.get 5))
  let v := mixG v 3 7 11 15 (m.get (s.get 6)) (m.get (s.get 7))
  let v := mixG v 0 5 10 15 (m.get (s.get 8)) (m.get (s.get 9))
  let v := mixG v 1 6 11 12 (m.get (s.get 10)) (m.get (s.get 11))
  let v := mixG v 2 7 8 13 (m.get (s.get 12)) (m.get (s.get 13))
  mixG v 3 4 9 14 (m.get (s.get 14)) (m.get (s.get 15))

/-- `load64`: the eight bytes at `src`, little-endian. -/
def load64 (src : Bytes) : UInt64 := (readLE (src.take 8)).toUInt64

/-- `store64` -/
def store64 (w : UInt64) : Bytes := writeLE 8 w.toNat

/-- What `Compress` makes of the chaining words `h`, with the counter `t` and the flags `f`. -/
def compress (h : Vector UInt64 8) (t f : UInt64 × UInt64) (block : Bytes) : Vector UInt64 8 :=
  let m : Vector UInt64 16 := Vector.ofFn fun i => load64 (block.drop (i * 8))
  let v : Vector UInt64 16 :=
    h ++ #v[blake2bIV.get 0, blake2bIV.get 1, blake2bIV.get 2, blake2bIV.get 3,
    blake2bIV.get 4 ^^^ t.1, blake2bIV.get 5 ^^^ t.2, blake2bIV.get 6 ^^^ f.1,
      blake2bIV.get 7 ^^^ f.2]
  let v := blake2bSigma.foldl (mixRound m) v
  Vector.ofFn fun i => h.get i ^^^ (v.get (i.castLE (by decide)) ^^^ v.get (i.natAdd 8))

/-! ### The object -/

/-- An output size the constructors accept; they `assert` that it is one. -/
structure OutputSize where
  size : ℕ
  pos : 0 < size
  le_max : size ≤ 64

/-- A key the constructor accepts. -/
structure HashKey where
  bytes : Bytes
  le_max : bytes.length ≤ 64

structure CBlake2b where
  /-- The chaining words. -/
  h : Vector UInt64 8
  /-- The count of bytes compressed, low word first. -/
  t : UInt64 × UInt64
  /-- The finalization flags. -/
  f : UInt64 × UInt64
  buf : Bytes
  buflen : ℕ
  outlen : ℕ
deriving DecidableEq

def blockSize : ℕ := 128

instance : NeZero blockSize := ⟨by decide⟩

/-- `t[0] += n; if (t[0] < n) t[1]++` -/
def addBytes (t : UInt64 × UInt64) (n : ℕ) : UInt64 × UInt64 :=
  let low := t.1 + n.toUInt64
  (low, if low < n.toUInt64 then t.2 + 1 else t.2)

/-- `memcpy(buf + offset, data, len)` -/
def copyInto (buf : Bytes) (offset : ℕ) (data : Bytes) : Bytes :=
  buf.take offset ++ data ++ buf.drop (offset + data.length)

namespace CBlake2b

/-- `Compress` -/
def compressBlock (s : CBlake2b) (block : Bytes) : CBlake2b :=
  { s with h := compress s.h s.t s.f block }

/-- Count a full block and compress it. -/
def absorb (s : CBlake2b) (block : Bytes) : CBlake2b :=
  { s with t := addBytes s.t blockSize }.compressBlock block

/-- The end of `Write`: the remaining bytes go behind those in the buffer. -/
def bufferRest (s : CBlake2b) (data : Bytes) : CBlake2b :=
  { s with buf := copyInto s.buf s.buflen data, buflen := s.buflen + data.length }

def write (s : CBlake2b) (data : Bytes) : CBlake2b :=
  if data.length = 0 then s
  else
    let fill := blockSize - s.buflen
    if fill < data.length then
      let s := { s with buf := copyInto s.buf s.buflen (data.take fill) }
      let s := { s.absorb s.buf with buflen := 0 }
      -- while (len > BLOCKSIZE)
      let p := drain blockSize absorb s (data.drop fill)
      p.1.bufferRest p.2
    else s.bufferRest data

/-- The object after `Finalize`, and the bytes written to `hash`. -/
def finalize (s : CBlake2b) : CBlake2b × Bytes :=
  let s := { s with t := addBytes s.t s.buflen }
  let s := { s with f := (~~~0, s.f.2) }
  let s := { s with buf := copyInto s.buf s.buflen (List.replicate (blockSize - s.buflen) 0) }
  let s := s.compressBlock s.buf
  (s, (s.h.toList.flatMap store64).take s.outlen)

/-- The state both constructors and `Reset` start from: the first word of the parameter block is
mixed into the first chaining word, everything else is zero. -/
def start (param : UInt64) (outlen : ℕ) : CBlake2b where
  h := blake2bIV.set 0 (blake2bIV.get 0 ^^^ param)
  t := (0, 0)
  f := (0, 0)
  buf := List.replicate blockSize 0
  buflen := 0
  outlen := outlen

/-- `CBlake2b(output_size)` -/
def new (size : OutputSize) : CBlake2b :=
  start (0x01010000 ^^^ size.size.toUInt64) size.size

/-- The key padded to a block. -/
def keyBlock (key : Bytes) : Bytes :=
  copyInto (List.replicate blockSize 0) 0 key

/-- `CBlake2b(key, key_len, output_size)` -/
def newKeyed (key : HashKey) (size : OutputSize) : CBlake2b :=
  let param := (0x01010000 : UInt64) ^^^ (key.bytes.length.toUInt64 <<< 8) ^^^ size.size.toUInt64
  let s := start param size.size
  if 0 < key.bytes.length then s.write (keyBlock key.bytes) else s

def reset (s : CBlake2b) : CBlake2b :=
  start (0x01010000 ^^^ s.outlen.toUInt64) s.outlen

end CBlake2b

/-- `Blake2b`: the digest in one call. -/
def blake2b (input : Bytes) (size : OutputSize) : Bytes :=
  ((CBlake2b.new size).write input).finalize.2

/-- `Blake2bKeyed` -/
def blake2bKeyed (input : Bytes) (key : HashKey) (size : OutputSize) : Bytes :=
  ((CBlake2b.newKeyed key size).write input).finalize.2

/-! ### The byte counter -/

/-- A number of bytes as the two words of the counter. -/
def countWords (n : ℕ) : UInt64 × UInt64 := (n.toUInt64, (n / 2 ^ 64).toUInt64)

theorem addBytes_countWords (c : ℕ) {n : ℕ} (h : n < 2 ^ 64) :
    addBytes (countWords c) n = countWords (c + n) := by
  have hlow : (c.toUInt64 + n.toUInt64).toNat = (c + n) % 2 ^ 64 := by
    rw [UInt64.toNat_add]
    show (c % 2 ^ 64 + n % 2 ^ 64) % 2 ^ 64 = (c + n) % 2 ^ 64
    omega
  have hcarry : c.toUInt64 + n.toUInt64 < n.toUInt64 ↔ (c + n) % 2 ^ 64 < n := by
    rw [UInt64.lt_iff_toNat_lt, hlow]
    show _ < n % 2 ^ 64 ↔ _
    rw [Nat.mod_eq_of_lt h]
  refine Prod.ext (UInt64.toNat_inj.mp hlow) (UInt64.toNat_inj.mp ?_)
  show (if c.toUInt64 + n.toUInt64 < n.toUInt64 then (c / 2 ^ 64).toUInt64 + 1
    else (c / 2 ^ 64).toUInt64).toNat = (c + n) / 2 ^ 64 % 2 ^ 64
  by_cases hover : (c + n) % 2 ^ 64 < n
  · rw [if_pos (hcarry.mpr hover), UInt64.toNat_add]
    show (c / 2 ^ 64 % 2 ^ 64 + 1) % 2 ^ 64 = (c + n) / 2 ^ 64 % 2 ^ 64
    omega
  · rw [if_neg (mt hcarry.mp hover)]
    show c / 2 ^ 64 % 2 ^ 64 = (c + n) / 2 ^ 64 % 2 ^ 64
    omega

/-! ### Chain and pending bytes -/

/-- What the compressions so far have made: the words, the counter and the flags. -/
structure Chain where
  h : Vector UInt64 8
  t : UInt64 × UInt64
  f : UInt64 × UInt64

/-- Count a full block and compress it. -/
def Chain.absorb (c : Chain) (block : Bytes) : Chain :=
  { c with t := addBytes c.t blockSize, h := compress c.h (addBytes c.t blockSize) c.f block }

namespace CBlake2b

def chain (s : CBlake2b) : Chain := ⟨s.h, s.t, s.f⟩

/-- The bytes of the buffer that are in use. -/
def pending (s : CBlake2b) : Bytes := s.buf.take s.buflen

/-- The buffer is a block, and no more of it is in use than there is. -/
structure WellFormed (s : CBlake2b) : Prop where
  buf_length : s.buf.length = blockSize
  buflen_le : s.buflen ≤ blockSize

theorem WellFormed.pending_length {s : CBlake2b} (h : s.WellFormed) : s.pending.length = s.buflen :=
  List.length_take_of_le (h.buf_length ▸ h.buflen_le)

theorem start_wellFormed (param : UInt64) (outlen : ℕ) : (start param outlen).WellFormed :=
  ⟨List.length_replicate, Nat.zero_le _⟩

@[simp] theorem chain_absorb (s : CBlake2b) (block : Bytes) :
    (s.absorb block).chain = s.chain.absorb block := rfl

/-- Copying behind the bytes in use, as far as there is room, leaves a block that starts with both.
-/
theorem WellFormed.copyInto_length {s : CBlake2b} (h : s.WellFormed) {data : Bytes}
    (hfit : s.buflen + data.length ≤ blockSize) :
    (copyInto s.buf s.buflen data).length = blockSize := by
  have hpending := h.pending_length
  rw [copyInto, List.length_append, List.length_append, ← pending, hpending, List.length_drop,
    h.buf_length]
  omega

theorem WellFormed.take_copyInto {s : CBlake2b} (h : s.WellFormed) (data : Bytes) :
    (copyInto s.buf s.buflen data).take (s.buflen + data.length) = s.pending ++ data := by
  have hlen : (s.pending ++ data).length = s.buflen + data.length := by
    rw [List.length_append, h.pending_length]
  exact List.take_left' hlen

/-- Copying exactly as much as there is room for. -/
theorem WellFormed.copyInto_fill {s : CBlake2b} (h : s.WellFormed) {data : Bytes}
    (hsum : s.buflen + data.length = blockSize) :
    copyInto s.buf s.buflen data = s.pending ++ data := by
  rw [← h.take_copyInto, hsum, List.take_of_length_le (h.copyInto_length hsum.le).le]

theorem WellFormed.bufferRest {s : CBlake2b} (h : s.WellFormed) {data : Bytes}
    (hfit : s.buflen + data.length ≤ blockSize) : (s.bufferRest data).WellFormed :=
  ⟨h.copyInto_length hfit, hfit⟩

theorem WellFormed.pending_bufferRest {s : CBlake2b} (h : s.WellFormed) (data : Bytes) :
    (s.bufferRest data).pending = s.pending ++ data :=
  h.take_copyInto data

/-- The loop over full blocks leaves the buffer and the output size alone. -/
theorem drain_absorb_frame (s : CBlake2b) (data : Bytes) :
    (drain blockSize absorb s data).1.buf = s.buf ∧
      (drain blockSize absorb s data).1.buflen = s.buflen ∧
      (drain blockSize absorb s data).1.outlen = s.outlen := by
  have hstep : ∀ (s' : CBlake2b) (block : Bytes),
      s'.buf = s.buf ∧ s'.buflen = s.buflen ∧ s'.outlen = s.outlen →
        (s'.absorb block).buf = s.buf ∧ (s'.absorb block).buflen = s.buflen ∧
          (s'.absorb block).outlen = s.outlen :=
    fun _ _ hs => hs
  exact drain_fst_induct hstep ⟨rfl, rfl, rfl⟩ data

/-- `Write` keeps the buffer in bounds and drains the bytes in use, followed by the new ones, into
the chain. -/
theorem WellFormed.write {s : CBlake2b} (h : s.WellFormed) (data : Bytes) :
    (s.write data).WellFormed ∧
      ((s.write data).chain, (s.write data).pending)
        = drain blockSize Chain.absorb s.chain (s.pending ++ data) := by
  have hle := h.buflen_le
  have hpending := h.pending_length
  rw [CBlake2b.write]
  by_cases hnil : data.length = 0
  · rw [if_pos hnil, List.eq_nil_of_length_eq_zero hnil, List.append_nil,
      drain_of_le _ (hpending ▸ hle)]
    exact ⟨h, rfl⟩
  rw [if_neg hnil]
  by_cases hfill : blockSize - s.buflen < data.length
  · rw [if_pos hfill]
    -- the buffer is filled to a block, and something follows it
    set fill := blockSize - s.buflen with hfilldef
    have htake : (data.take fill).length = fill := List.length_take_of_le hfill.le
    have hsum : s.buflen + (data.take fill).length = blockSize := by omega
    have hdrop : data.drop fill ≠ [] := by
      rw [Ne, List.drop_eq_nil_iff]
      omega
    set full : CBlake2b := { s with buf := copyInto s.buf s.buflen (data.take fill) } with hfull
    set s₁ : CBlake2b := { full.absorb full.buf with buflen := 0 } with hs₁
    have hchain : s₁.chain = s.chain.absorb (s.pending ++ data.take fill) := by
      rw [← h.copyInto_fill hsum]
      rfl
    obtain ⟨hbuf, hbuflen, -⟩ := drain_absorb_frame s₁ (data.drop fill)
    have hview := map_drain (b := blockSize) chain chain_absorb s₁ (data.drop fill)
    have hrest := drain_snd_length_le (b := blockSize) absorb s₁ (data.drop fill)
    set p := drain blockSize absorb s₁ (data.drop fill) with hp
    have hwf : p.1.WellFormed :=
      ⟨by rw [hbuf]; exact h.copyInto_length hsum.le, by rw [hbuflen]; exact Nat.zero_le _⟩
    have hempty : p.1.pending = [] := by
      rw [pending, hbuflen]
      rfl
    refine ⟨hwf.bufferRest (by rw [hbuflen, Nat.zero_add]; exact hrest), ?_⟩
    have hdata : s.pending ++ data = (s.pending ++ data.take fill) ++ data.drop fill := by
      rw [List.append_assoc, List.take_append_drop]
    rw [hdata, drain_block s.chain (by rw [List.length_append, hpending, hsum]) hdrop,
      ← hchain, hview, hwf.pending_bufferRest, hempty, List.nil_append]
    rfl
  · rw [if_neg hfill]
    have hfit : s.buflen + data.length ≤ blockSize := by omega
    refine ⟨h.bufferRest hfit, ?_⟩
    rw [h.pending_bufferRest, drain_of_le _ (by rw [List.length_append, hpending]; exact hfit)]
    rfl

@[simp] theorem outlen_write (s : CBlake2b) (data : Bytes) : (s.write data).outlen = s.outlen := by
  rw [CBlake2b.write]
  by_cases hnil : data.length = 0
  · rw [if_pos hnil]
  rw [if_neg hnil]
  by_cases hfill : blockSize - s.buflen < data.length
  · rw [if_pos hfill]
    exact (drain_absorb_frame _ _).2.2
  · rw [if_neg hfill]
    rfl

@[simp] theorem outlen_finalize (s : CBlake2b) : s.finalize.1.outlen = s.outlen := rfl

/-- `Finalize` compresses the bytes in use, padded with zeros, under the final flag. -/
theorem WellFormed.finalize {s : CBlake2b} (h : s.WellFormed) :
    s.finalize.2
      = ((compress s.h (addBytes s.t s.pending.length) (~~~0, s.f.2)
          (s.pending ++ List.replicate (blockSize - s.pending.length) 0)).toList.flatMap
            store64).take s.outlen := by
  have hle := h.buflen_le
  have hsum : s.buflen + (List.replicate (blockSize - s.buflen) (0 : UInt8)).length =
      blockSize := by
    rw [List.length_replicate]
    omega
  rw [h.pending_length, ← h.copyInto_fill hsum]
  rfl

end CBlake2b

end OpenSY.Blake2b
