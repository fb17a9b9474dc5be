import OpenSY.Crypto.Blake2b
import OpenSY.Wallet.Crypter
import Mathlib.Data.List.GetD

/-!
# Key derivation without libsodium

The fallback `Argon2idDerive` of `wallet/crypter.cpp`: it fills its memory with BLAKE2b of the
passphrase, the salt and the number of the block, mixes the blocks with each other, and hashes the
last one.

The input of a block has room for 56 bytes of passphrase and salt.

* `block_inputs_differ`: exactly those passphrases and salts fill the memory differently that
  differ, followed by zeros, within these bytes; the others give the same wallet key.
* `short_passphrases_differ`: passphrases of up to 48 bytes do, for every salt that is not all
  zeros.
-/

namespace OpenSY.Wallet.KeyDerivation

open OpenSY.Chain OpenSY.Blake2b OpenSY.Wallet.Crypter
open OpenSY.Src20 (writeLE writeLE_length)

/-! ### `Blake2bHash` -/

def maxOutputSize : OutputSize := ⟨64, by decide, by decide⟩

/-- The loop of the chained mode: each further block is the hash of the one before. -/
def chainBlocks (temp : Bytes) (remaining : ℕ) : Bytes :=
  if 0 < remaining then
    let temp := blake2b temp maxOutputSize
    temp.take (min remaining 64) ++ chainBlocks temp (remaining - 64)
  else []
termination_by remaining

/-- `Blake2bHash` to `outputLen` bytes, of which there is at least one: BLAKE2b asserts it. -/
def blake2bHash (input : Bytes) (outputLen : ℕ) (pos : 0 < outputLen) : Bytes :=
  if h : outputLen ≤ 64 then blake2b input ⟨outputLen, pos, h⟩
  else
    let temp := blake2b input maxOutputSize
    temp.take (min outputLen 64) ++ chainBlocks temp (outputLen - 64)

/-! ### `Argon2idDerive` -/

def memoryBlockSize : ℕ := 1024

/-- `num_blocks`, of at most 256 MB. -/
def numBlocks (memoryKb : ℕ) : ℕ := min (memoryKb * 1024) (256 * 1024 * 1024) / memoryBlockSize

/-- `block_input` of block `i`: as much of the initial data as there is room for, and the index. -/
def blockInput (initialData : Bytes) (i : ℕ) : Bytes :=
  let blockInput := List.replicate 64 0
  let copyLen := min initialData.length (64 - 8)
  let blockInput := copyInto blockInput 0 (initialData.take copyLen)
  copyInto blockInput 56 (writeLE 4 i)

/-- The memory as its blocks, after the first loop. -/
def fillMemory (password salt : Bytes) (n : ℕ) : List Bytes :=
  (List.range n).map fun i =>
    blake2bHash (blockInput (password ++ salt) i) memoryBlockSize (by decide)

/-- Block `i` is mixed with the block its own first bytes name. -/
def mixBlock (n : ℕ) (memory : List Bytes) (i : ℕ) : List Bytes :=
  let refIdx := readLE ((memory.getD i []).take 8) % n
  let temp := List.zipWith (· ^^^ ·) (memory.getD i []) (memory.getD refIdx [])
  memory.set i (blake2bHash temp memoryBlockSize (by decide))

/-- The memory-hard iterations. -/
def mixMemory (n iterations : ℕ) (memory : List Bytes) : List Bytes :=
  (fun memory => (List.range n).foldl (mixBlock n) memory)^[iterations] memory

/-- The fallback `Argon2idDerive`; `allocates` tells whether the memory can be had. -/
def argon2idDerive (allocates : Bool) : Derive :=
  fun password salt iterations memoryKb _parallelism outputLen =>
    let n := numBlocks memoryKb
    if n < 8 then none
    else if !allocates then none
    else if pos : 0 < outputLen then
      let memory := mixMemory n iterations (fillMemory password salt n)
      some (blake2bHash (memory.getD (n - 1) []) outputLen pos)
    else none

/-! ### What the block inputs depend on -/

/-- The bytes of the initial data that a block input has room for, filled up with zeros. -/
def roomBytes (initialData : Bytes) : Bytes :=
  initialData.take 56 ++ List.replicate (56 - initialData.length) 0

theorem roomBytes_length (initialData : Bytes) : (roomBytes initialData).length = 56 := by
  rw [roomBytes, List.length_append, List.length_take, List.length_replicate]
  omega

theorem roomBytes_getElem? (initialData : Bytes) {k : ℕ} (h : k < 56) :
    (roomBytes initialData)[k]? = some (initialData.getD k 0) := by
  rw [roomBytes, List.getD_eq_getElem?_getD]
  by_cases hk : k < initialData.length
  · have htake : k < (initialData.take 56).length := by
      rw [List.length_take]
      omega
    rw [List.getElem?_append_left htake, List.getElem?_take_of_lt h, List.getElem?_eq_getElem hk]
    rfl
  · have htake : (initialData.take 56).length = initialData.length := by
      rw [List.length_take]
      omega
    rw [List.getElem?_append_right (by omega), htake, List.getElem?_replicate_of_lt (by omega),
      List.getElem?_eq_none (Nat.not_lt.mp hk)]
    rfl

theorem roomBytes_eq_iff (initialData initialData' : Bytes) :
    roomBytes initialData = roomBytes initialData'
      ↔ ∀ k < 56, initialData.getD k 0 = initialData'.getD k 0 := by
  constructor
  · intro h k hk
    have hget := congrArg (fun bytes : Bytes => bytes[k]?) h
    simp only [roomBytes_getElem? _ hk] at hget
    exact Option.some.inj hget
  · intro h
    refine List.ext_getElem? fun k => ?_
    by_cases hk : k < 56
    · rw [roomBytes_getElem? _ hk, roomBytes_getElem? _ hk, h k hk]
    · rw [List.getElem?_eq_none (by rw [roomBytes_length]; omega),
        List.getElem?_eq_none (by rw [roomBytes_length]; omega)]

/-- A block input is the room for the data, the index, and four bytes that stay zero. -/
theorem blockInput_eq (initialData : Bytes) (i : ℕ) :
    blockInput initialData i = roomBytes initialData ++ (writeLE 4 i ++ List.replicate 4 0) := by
  have hcopied :
      copyInto (List.replicate 64 0) 0 (initialData.take (min initialData.length (64 - 8)))
      = roomBytes initialData ++ List.replicate 8 0 := by
    have hmin : initialData.take (min initialData.length (64 - 8)) = initialData.take 56 := by
      rw [Nat.min_comm, ← List.take_take, List.take_length]
    have hzeros : 64 - (initialData.take 56).length = (56 - initialData.length) + 8 := by
      rw [List.length_take]
      omega
    rw [copyInto, hmin, List.take_zero, List.nil_append, List.drop_replicate, Nat.zero_add, hzeros,
      List.replicate_add, roomBytes, List.append_assoc]
  have hlen := roomBytes_length initialData
  rw [blockInput, hcopied, copyInto, writeLE_length, List.take_left' hlen]
  show _ ++ _ ++ (roomBytes initialData ++ List.replicate 8 0).drop (56 + 4) = _
  rw [← List.drop_drop, List.drop_left' hlen, List.append_assoc]
  rfl

/-- Where two initial data fill some block differently. -/
theorem exists_blockInput_ne_iff {n : ℕ} (hn : 0 < n) (initialData initialData' : Bytes) :
    (∃ i < n, blockInput initialData i ≠ blockInput initialData' i)
      ↔ ∃ k < 56, initialData.getD k 0 ≠ initialData'.getD k 0 := by
  have hblock : ∀ i, blockInput initialData i = blockInput initialData' i
      ↔ roomBytes initialData = roomBytes initialData' := by
    intro i
    rw [blockInput_eq, blockInput_eq, List.append_left_inj]
  constructor
  · rintro ⟨i, -, hi⟩
    by_contra hsame
    push Not at hsame
    exact hi ((hblock i).mpr ((roomBytes_eq_iff _ _).mpr hsame))
  · rintro ⟨k, hk, hne⟩
    exact ⟨0, hn, fun h => hne ((roomBytes_eq_iff _ _).mp ((hblock 0).mp h) k hk)⟩

/-- Data that agree in the room of a block lead to one derivation. -/
theorem argon2idDerive_congr {password password' salt salt' : Bytes}
    (h : ∀ k < 56, (password ++ salt).getD k 0 = (password' ++ salt').getD k 0) (allocates : Bool)
    (iterations memoryKb parallelism outputLen : ℕ) :
    argon2idDerive allocates password salt iterations memoryKb parallelism outputLen
      = argon2idDerive allocates password' salt' iterations memoryKb parallelism outputLen := by
  have hinput : blockInput (password ++ salt) = blockInput (password' ++ salt') := by
    funext i
    rw [blockInput_eq, blockInput_eq, (roomBytes_eq_iff _ _).mpr h]
  rw [argon2idDerive, argon2idDerive, fillMemory, fillMemory, hinput]

/-! ### Passphrases and salts -/

theorem getD_append_right {front back : Bytes} (j : ℕ) :
    (front ++ back).getD (front.length + j) 0 = back.getD j 0 := by
  rw [List.getD_append_right _ _ _ _ (Nat.le_add_right _ _), Nat.add_sub_cancel_left]

/-- Behind a fixed passphrase, the salts have the room that it leaves. -/
theorem exists_salt_ne_iff (password salt salt' : Bytes) :
    (∃ k < 56, (password ++ salt).getD k 0 ≠ (password ++ salt').getD k 0)
      ↔ ∃ k < 56 - password.length, salt.getD k 0 ≠ salt'.getD k 0 := by
  constructor
  · rintro ⟨k, hk, hne⟩
    by_cases hpass : k < password.length
    · rw [List.getD_append _ _ _ _ hpass, List.getD_append _ _ _ _ hpass] at hne
      exact absurd rfl hne
    · obtain ⟨j, rfl⟩ := Nat.exists_eq_add_of_le (Nat.not_lt.mp hpass)
      rw [getD_append_right, getD_append_right] at hne
      exact ⟨j, by omega, hne⟩
  · rintro ⟨j, hj, hne⟩
    refine ⟨password.length + j, by omega, ?_⟩
    rw [getD_append_right, getD_append_right]
    exact hne

/-- In the build without libsodium, for a memory that is not refused: two passphrases under one salt
fill some block from different inputs exactly where a byte within the first 56 of passphrase and
salt, followed by zeros, differs; two salts under one passphrase exactly where they differ in the
bytes that the passphrase leaves of the 56.  Where nothing differs there, the wallet key is the
same. -/
theorem block_inputs_differ (memoryKb : ℕ) (hmemory : 8 ≤ numBlocks memoryKb)
    (password password' salt salt' : Bytes) :
    ((∃ i < numBlocks memoryKb,
      blockInput (password ++ salt) i ≠ blockInput (password' ++ salt) i) ↔
        ∃ k < 56, (password ++ salt).getD k 0 ≠ (password' ++ salt).getD k 0) ∧
      ((∃ i < numBlocks memoryKb,
        blockInput (password ++ salt) i ≠ blockInput (password ++ salt') i) ↔
        ∃ k < 56 - password.length, salt.getD k 0 ≠ salt'.getD k 0) ∧
      ((∀ k < 56, (password ++ salt).getD k 0 = (password' ++ salt').getD k 0) →
        ∀ allocates iterations parallelism,
          bytesToKeyArgon2id (argon2idDerive allocates) salt password iterations memoryKb
              parallelism =
            bytesToKeyArgon2id (argon2idDerive allocates) salt' password' iterations memoryKb
              parallelism) := by
  have hpos : 0 < numBlocks memoryKb := by omega
  refine ⟨exists_blockInput_ne_iff hpos _ _, ?_, fun h allocates iterations parallelism => ?_⟩
  · rw [exists_blockInput_ne_iff hpos, exists_salt_ne_iff]
  · rw [bytesToKeyArgon2id, bytesToKeyArgon2id, argon2idDerive_congr h]

/-- The memory the wallet asks for. -/
theorem block_inputs_differ_default :
    8 ≤ numBlocks defaultArgon2idMemoryKb ∧
      ((∃ i < numBlocks defaultArgon2idMemoryKb,
          blockInput ([1] ++ List.replicate 8 0) i ≠ blockInput ([2] ++ List.replicate 8 0) i) ↔
        ∃ k < 56, ([1] ++ List.replicate 8 (0 : UInt8)).getD k 0
          ≠ ([2] ++ List.replicate 8 (0 : UInt8)).getD k 0) :=
  ⟨by decide, (block_inputs_differ defaultArgon2idMemoryKb (by decide) [1] [2] (List.replicate 8 0)
    (List.replicate 8 0)).1⟩

/-- Two passphrases of 57 bytes that differ in the last one, and two salts behind a passphrase of 56
bytes: no block input differs, and the wallet key is the same. -/
theorem long_passphrases_collide :
    let front := List.replicate 56 97
    let salt := List.replicate 8 1
    let salt' := List.replicate 8 2
    front ++ [98] ≠ front ++ [99] ∧ salt ≠ salt' ∧
      (∀ i, blockInput (front ++ [98] ++ salt) i = blockInput (front ++ [99] ++ salt) i) ∧
      (∀ i, blockInput (front ++ salt) i = blockInput (front ++ salt') i) ∧
      ∀ allocates iterations,
        bytesToKeyArgon2id (argon2idDerive allocates) salt (front ++ [98]) iterations
            defaultArgon2idMemoryKb defaultArgon2idParallelism =
          bytesToKeyArgon2id (argon2idDerive allocates) salt (front ++ [99]) iterations
            defaultArgon2idMemoryKb defaultArgon2idParallelism := by
  intro front salt salt'
  have hroom : roomBytes (front ++ [98] ++ salt) = roomBytes (front ++ [99] ++ salt) := by
    decide +kernel
  have hroom' : roomBytes (front ++ salt) = roomBytes (front ++ salt') := by decide +kernel
  refine ⟨by decide +kernel, by decide +kernel, fun i => ?_, fun i => ?_,
    fun allocates iterations => ?_⟩
  · rw [blockInput_eq, blockInput_eq, hroom]
  · rw [blockInput_eq, blockInput_eq, hroom']
  · rw [bytesToKeyArgon2id, bytesToKeyArgon2id,
      argon2idDerive_congr ((roomBytes_eq_iff _ _).mp hroom)]

/-! ### Passphrases that fit -/

/-- A salt that goes over into itself when it is moved by some bytes, zeros following, is all zeros.
-/
theorem getD_eq_zero_of_shift {salt : Bytes} {d : ℕ} (hd : 0 < d)
    (h : ∀ j < salt.length, salt.getD j 0 = salt.getD (j + d) 0) (j : ℕ) : salt.getD j 0 = 0 := by
  -- by induction on how far the byte is from the end
  induction hm : salt.length - j using Nat.strong_induction_on generalizing j with
  | _ m ih =>
    by_cases hj : j < salt.length
    · rw [h j hj]
      exact ih (salt.length - (j + d)) (by omega) (j + d) rfl
    · exact List.getD_eq_default _ _ (Nat.not_lt.mp hj)

/-- If the longer of two passphrases and the salt fit, and nothing differs, then the passphrases
have one length or the salt is all zeros. -/
theorem salt_eq_zero_of_agree {password password' salt : Bytes}
    (hlt : password.length < password'.length) (hfit : password'.length + salt.length ≤ 56)
    (h : ∀ k < 56, (password ++ salt).getD k 0 = (password' ++ salt).getD k 0) (j : ℕ) :
    salt.getD j 0 = 0 := by
  obtain ⟨d, hd⟩ := Nat.exists_eq_add_of_lt hlt
  refine getD_eq_zero_of_shift (Nat.succ_pos d) (fun j hj => ?_) j
  have hk := h (password'.length + j) (by omega)
  rw [getD_append_right, show password'.length + j = password.length + (j + (d + 1)) by omega,
    getD_append_right] at hk
  exact hk.symm

/-- Distinct passphrases of at most 48 bytes fill some block differently, unless the salt is all
zeros. -/
theorem short_passphrases_differ {n : ℕ} (hn : 0 < n) {password password' salt : Bytes}
    (hsalt : salt.length = walletCryptoSaltSize) (hnonzero : ∃ b ∈ salt, b ≠ 0)
    (hfit : password.length ≤ 48) (hfit' : password'.length ≤ 48) (hne : password ≠ password') :
    ∃ i < n, blockInput (password ++ salt) i ≠ blockInput (password' ++ salt) i := by
  rw [exists_blockInput_ne_iff hn]
  by_contra hsame
  push Not at hsame
  obtain ⟨b, hb, hb0⟩ := hnonzero
  obtain ⟨j, hj, rfl⟩ := List.mem_iff_getElem.mp hb
  have hbyte : salt.getD j 0 ≠ 0 := by
    rw [List.getD_eq_getElem _ _ hj]
    exact hb0
  change salt.length = 8 at hsalt
  rcases Nat.lt_trichotomy password.length password'.length with hlt | heq | hgt
  · exact hbyte (salt_eq_zero_of_agree hlt (by omega) hsame j)
  · refine hne (List.ext_getElem heq fun k hk hk' => ?_)
    have hget := hsame k (by omega)
    rw [List.getD_append _ _ _ _ hk, List.getD_append _ _ _ _ hk', List.getD_eq_getElem _ _ hk,
      List.getD_eq_getElem _ _ hk'] at hget
    exact hget
  · exact hbyte (salt_eq_zero_of_agree hgt (by omega) (fun k hk => (hsame k hk).symm) j)

end OpenSY.Wallet.KeyDerivation
