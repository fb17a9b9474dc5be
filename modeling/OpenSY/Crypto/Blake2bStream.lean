import OpenSY.Crypto.Blake2b

/-!
# Streaming BLAKE2b

`rfc7693` is the hash as RFC 7693 defines it from the compression function: the padded key and the
message are cut into blocks; every block but the last is compressed with the count of bytes up to
its end, the last one, zero-padded, with the count of all bytes and the final flag.

* `finalize_writes`: however a message is split into calls of `Write`, `Finalize` gives that digest,
  which is also what the one-shot functions give.
* `reset_digest`: after `Reset` the object hashes as one built without a key, whatever it was built
  with.
-/

namespace OpenSY.Blake2b

open OpenSY.Chain OpenSY.LazyBlocks

/-! ### The hash of RFC 7693 -/

/-- The compression function `F`, with a byte count and a final flag. -/
def rfcF (h : Vector UInt64 8) (block : Bytes) (count : ℕ) (final : Bool) : Vector UInt64 8 :=
  compress h (countWords count) (if final then ~~~0 else 0, 0) block

def padBlock (bytes : Bytes) : Bytes := bytes ++ List.replicate (blockSize - bytes.length) 0

/-- The key as a block of its own, if there is one, and the message. -/
def rfcData (key message : Bytes) : Bytes := (if key = [] then [] else padBlock key) ++ message

/-- The block `d[i]`. -/
def rfcBlock (key message : Bytes) (i : ℕ) : Bytes :=
  padBlock (window blockSize (rfcData key message) i)

/-- The number `dd` of blocks: those of the key and of the message, rounded up.  No key and no
message make one block. -/
def rfcBlockCount (kk ll : ℕ) : ℕ :=
  if kk = 0 ∧ ll = 0 then 1
    else (kk + (blockSize - 1)) / blockSize + (ll + (blockSize - 1)) / blockSize

theorem zero_lt_words : 0 < 8 := by decide

/-- The chaining words for a key of `kk` and a digest of `nn` bytes. -/
def rfcInit (kk nn : ℕ) : Vector UInt64 8 :=
  let word := blake2bIV.get ⟨0, zero_lt_words⟩
  blake2bIV.set 0 (word ^^^ ((0x01010000 : UInt64) ^^^ (kk.toUInt64 <<< 8) ^^^ nn.toUInt64))
    zero_lt_words

/-- The digest of `nn` bytes of a message under a key, which may be empty. -/
def rfc7693 (key : Bytes) (nn : ℕ) (message : Bytes) : Bytes :=
  let dd := rfcBlockCount key.length message.length
  let total := if key.length = 0 then message.length else message.length + blockSize
  let h := (List.range (dd - 1)).foldl
    (fun h i => rfcF h (rfcBlock key message i) ((i + 1) * blockSize) false) (rfcInit key.length nn)
  let h := rfcF h (rfcBlock key message (dd - 1)) total true
  (h.toList.flatMap store64).take nn

theorem rfcData_length (key : HashKey) (message : Bytes) :
    (rfcData key.bytes message).length
      = if key.bytes.length = 0 then message.length else message.length + blockSize := by
  have hle := key.le_max
  by_cases hkey : key.bytes = []
  · rw [rfcData, if_pos hkey, if_pos (by rw [hkey]; rfl), List.nil_append]
  · have hpos := List.length_pos_of_ne_nil hkey
    rw [rfcData, if_neg hkey, if_neg (by omega), padBlock, List.length_append, List.length_append,
      List.length_replicate]
    show key.bytes.length + (128 - key.bytes.length) + message.length = message.length + 128
    omega

/-- The blocks before the last are those that `drain` hands on. -/
theorem rfcBlockCount_eq (key : HashKey) (message : Bytes) :
    rfcBlockCount key.bytes.length message.length =
      before blockSize (rfcData key.bytes message) + 1 := by
  have hle := key.le_max
  rw [before, rfcData_length, rfcBlockCount]
  show (if _ then 1 else (_ + (128 - 1)) / 128 + (_ + (128 - 1)) / 128) = (_ - 1) / 128 + 1
  by_cases hkey : key.bytes.length = 0
  · rw [if_pos hkey]
    by_cases hmessage : message.length = 0
    · rw [if_pos ⟨hkey, hmessage⟩, hmessage]
    · rw [if_neg (fun h => hmessage h.2)]
      omega
  · rw [if_neg (fun h => hkey h.1), if_neg hkey]
    show _ = (message.length + 128 - 1) / 128 + 1
    omega

/-- A window before the last is a whole block. -/
theorem padBlock_window {data : Bytes} {i : ℕ} (h : i < before blockSize data) :
    padBlock (window blockSize data i) = window blockSize data i := by
  have hle : (i + 1) * blockSize ≤ data.length - 1 :=
    (Nat.mul_le_mul_right _ h).trans (Nat.div_mul_le_self _ _)
  have hlen : (window blockSize data i).length = blockSize := by
    rw [window, List.length_take_of_le]
    rw [List.length_drop]
    rw [Nat.succ_mul] at hle
    omega
  rw [padBlock, hlen, Nat.sub_self, List.replicate_zero, List.append_nil]

/-! ### Absorbing blocks -/

/-- The chain from which hashing starts. -/
def Chain.init (h : Vector UInt64 8) : Chain := ⟨h, countWords 0, (0, 0)⟩

/-- Absorbing block after block runs `F` with the running byte count and no flag. -/
theorem Chain.foldl_absorb (h : Vector UInt64 8) (block : ℕ → Bytes) (n : ℕ) :
    (List.range n).foldl (fun c i => c.absorb (block i)) (Chain.init h)
      = ⟨(List.range n).foldl (fun h i => rfcF h (block i) ((i + 1) * blockSize) false) h,
          countWords (n * blockSize), (0, 0)⟩ := by
  induction n with
  | zero =>
    rw [List.range_zero, List.foldl_nil, List.foldl_nil, Nat.zero_mul]
    rfl
  | succ n ih =>
    have hcount : addBytes (countWords (n * blockSize)) blockSize =
        countWords ((n + 1) * blockSize) := by
      rw [addBytes_countWords _ (by decide), Nat.succ_mul]
    rw [List.range_succ, List.foldl_append, List.foldl_append, ih, List.foldl_cons, List.foldl_nil,
      List.foldl_cons, List.foldl_nil, Chain.absorb, hcount]
    rfl

/-- An object whose chain and pending bytes come from draining the data of a key and a message
finalizes to the digest of the two. -/
theorem CBlake2b.WellFormed.finalize_eq {s : CBlake2b} (h : s.WellFormed) {key : HashKey}
    {message : Bytes}
    (hdrain : (s.chain, s.pending) =
      drain blockSize Chain.absorb (Chain.init (rfcInit key.bytes.length s.outlen))
      (rfcData key.bytes message)) :
    s.finalize.2 = rfc7693 key.bytes s.outlen message := by
  set data := rfcData key.bytes message with hdata
  set n := before blockSize data with hn
  -- what was absorbed, and what is left
  rw [drain_eq, Chain.foldl_absorb] at hdrain
  obtain ⟨hchain, hpending⟩ := Prod.mk.inj hdrain
  have hwords : s.h = _ := congrArg Chain.h hchain
  have hcount : s.t = _ := congrArg Chain.t hchain
  have hflags : s.f = _ := congrArg Chain.f hchain
  have hle : n * blockSize ≤ data.length :=
    (Nat.div_mul_le_self _ _).trans (Nat.sub_le _ _)
  have hrest : s.pending.length = data.length - n * blockSize := by rw [hpending, List.length_drop]
  have hsmall : s.pending.length < 2 ^ 64 := by
    have hbound : blockSize < 2 ^ 64 := by decide
    rw [h.pending_length]
    exact h.buflen_le.trans_lt hbound
  have htotal : addBytes s.t s.pending.length = countWords data.length := by
    rw [hcount, addBytes_countWords _ hsmall, hrest, Nat.add_sub_cancel' hle]
  -- the last window is what is pending
  have hlast : window blockSize data n = s.pending := by
    rw [hpending, window, List.take_of_length_le]
    rw [← hpending, h.pending_length]
    exact h.buflen_le
  have hblocks : (List.range n).foldl
      (fun h i => rfcF h (rfcBlock key.bytes message i) ((i + 1) * blockSize) false)
        (rfcInit key.bytes.length s.outlen) = s.h := by
    rw [hwords]
    refine List.foldl_ext _ _ _ fun h i hi => ?_
    rw [rfcBlock, ← hdata, padBlock_window (List.mem_range.mp hi)]
  rw [h.finalize, htotal, rfc7693, rfcBlockCount_eq, ← hdata, Nat.add_sub_cancel,
    ← rfcData_length, ← hdata, hblocks, rfcBlock, ← hdata, hlast, hflags]
  rfl

/-! ### Constructors -/

/-- The two constructors with their arguments. -/
inductive Constructor where
  | plain (size : OutputSize)
  | keyed (key : HashKey) (size : OutputSize)

namespace Constructor

def noKey : HashKey := ⟨[], Nat.zero_le _⟩

def key : Constructor → HashKey
  | plain _ => noKey
  | keyed key _ => key

def size : Constructor → OutputSize
  | plain size => size
  | keyed _ size => size

def build : Constructor → CBlake2b
  | plain size => .new size
  | keyed key size => .newKeyed key size

/-- The one-shot function for the same arguments. -/
def oneShot (c : Constructor) (message : Bytes) : Bytes :=
  match c with
  | plain size => blake2b message size
  | keyed key size => blake2bKeyed message key size

theorem oneShot_eq (c : Constructor) (message : Bytes) :
    c.oneShot message = (c.build.write message).finalize.2 := by
  cases c with
  | plain size => rfl
  | keyed key size => rfl

end Constructor

theorem CBlake2b.keyBlock_eq {key : Bytes} : CBlake2b.keyBlock key = padBlock key := by
  rw [CBlake2b.keyBlock, copyInto, List.take_zero, List.nil_append, List.drop_replicate,
    Nat.zero_add, padBlock]

/-- Without key bytes the keyed constructor builds what the other one builds. -/
theorem CBlake2b.newKeyed_noKey {key : HashKey} (h : key.bytes = []) (size : OutputSize) :
    CBlake2b.newKeyed key size = CBlake2b.new size := by
  rw [CBlake2b.newKeyed, h, if_neg (by decide)]
  show CBlake2b.start ((0x01010000 : UInt64) ^^^ ((0 : UInt64) <<< 8) ^^^ size.size.toUInt64)
      size.size = _
  rw [show (0x01010000 : UInt64) ^^^ ((0 : UInt64) <<< 8) = 0x01010000 by decide]
  rfl

theorem CBlake2b.newKeyed_wellFormed (key : HashKey) (size : OutputSize) :
    (CBlake2b.newKeyed key size).WellFormed := by
  rw [CBlake2b.newKeyed]
  by_cases hkey : 0 < key.bytes.length
  · rw [if_pos hkey]
    exact ((CBlake2b.start_wellFormed _ _).write _).1
  · rw [if_neg hkey]
    exact CBlake2b.start_wellFormed _ _

/-- The keyed constructor leaves the key's block pending. -/
theorem CBlake2b.newKeyed_drain (key : HashKey) (size : OutputSize) :
    ((CBlake2b.newKeyed key size).chain, (CBlake2b.newKeyed key size).pending)
      = drain blockSize Chain.absorb (Chain.init (rfcInit key.bytes.length size.size))
          (rfcData key.bytes []) := by
  rw [CBlake2b.newKeyed, rfcData, List.append_nil]
  by_cases hkey : key.bytes = []
  · rw [if_pos hkey, if_neg (by rw [hkey]; decide), drain_of_le _ (Nat.zero_le _)]
    rfl
  · rw [if_neg hkey, if_pos (List.length_pos_of_ne_nil hkey)]
    exact ((CBlake2b.start_wellFormed _ _).write _).2.trans (by rw [CBlake2b.keyBlock_eq]; rfl)

@[simp] theorem CBlake2b.outlen_newKeyed (key : HashKey) (size : OutputSize) :
    (CBlake2b.newKeyed key size).outlen = size.size := by
  rw [CBlake2b.newKeyed]
  by_cases hkey : 0 < key.bytes.length
  · rw [if_pos hkey, CBlake2b.outlen_write]
    rfl
  · rw [if_neg hkey]
    rfl

/-- Both constructors build what the keyed one does, the first for an empty key. -/
theorem Constructor.build_eq (c : Constructor) : c.build = CBlake2b.newKeyed c.key c.size := by
  cases c with
  | plain size => exact (CBlake2b.newKeyed_noKey rfl size).symm
  | keyed key size => rfl

/-! ### A list of calls of `Write` -/

theorem CBlake2b.outlen_writes (s : CBlake2b) (pieces : List Bytes) :
    (pieces.foldl CBlake2b.write s).outlen = s.outlen := by
  induction pieces generalizing s with
  | nil => rfl
  | cons piece pieces ih => rw [List.foldl_cons, ih, CBlake2b.outlen_write]

/-- The calls drain the pieces one after another. -/
theorem CBlake2b.WellFormed.writes {s : CBlake2b} (h : s.WellFormed) (pieces : List Bytes) :
    (pieces.foldl CBlake2b.write s).WellFormed ∧
      ((pieces.foldl CBlake2b.write s).chain, (pieces.foldl CBlake2b.write s).pending)
        = pieces.foldl (fun p piece => drain blockSize Chain.absorb p.1 (p.2 ++ piece))
            (s.chain, s.pending) := by
  induction pieces generalizing s with
  | nil => exact ⟨h, rfl⟩
  | cons piece pieces ih =>
    obtain ⟨hwf, hdrain⟩ := h.write piece
    obtain ⟨hend, hview⟩ := ih hwf
    rw [List.foldl_cons, List.foldl_cons]
    exact ⟨hend, hview.trans (congrArg (pieces.foldl _) hdrain)⟩

theorem CBlake2b.newKeyed_writes (key : HashKey) (size : OutputSize) (pieces : List Bytes) :
    (pieces.foldl CBlake2b.write (CBlake2b.newKeyed key size)).WellFormed ∧
      (pieces.foldl CBlake2b.write (CBlake2b.newKeyed key size)).finalize.2
        = rfc7693 key.bytes size.size pieces.flatten := by
  obtain ⟨hwf, hview⟩ := (CBlake2b.newKeyed_wellFormed key size).writes pieces
  have houtlen : (pieces.foldl CBlake2b.write (CBlake2b.newKeyed key size)).outlen = size.size := by
    rw [CBlake2b.outlen_writes, CBlake2b.outlen_newKeyed]
  have hdata : rfcData key.bytes [] ++ pieces.flatten = rfcData key.bytes pieces.flatten := by
    rw [rfcData, List.append_nil, rfcData]
  rw [CBlake2b.newKeyed_drain, foldl_drain, hdata, ← houtlen] at hview
  refine ⟨hwf, ?_⟩
  rw [hwf.finalize_eq hview, houtlen]

/-- However a message is split into calls of `Write`, `Finalize` gives the digest that RFC 7693
defines for the key and the whole message, which is what the one-shot function gives, and the buffer
never holds more than a block. -/
theorem finalize_writes (c : Constructor) (pieces : List Bytes) :
    (pieces.foldl CBlake2b.write c.build).finalize.2 =
      rfc7693 c.key.bytes c.size.size pieces.flatten ∧
      c.oneShot pieces.flatten = rfc7693 c.key.bytes c.size.size pieces.flatten ∧
      (pieces.foldl CBlake2b.write c.build).buflen ≤ 128 := by
  rw [c.oneShot_eq, c.build_eq]
  obtain ⟨hwf, hdigest⟩ := CBlake2b.newKeyed_writes c.key c.size pieces
  have hone := (CBlake2b.newKeyed_writes c.key c.size [pieces.flatten]).2
  rw [List.flatten_singleton] at hone
  exact ⟨hdigest, hone, hwf.buflen_le⟩

-- BLAKE2b-512 of the empty message
example : (rfc7693 [] 64 []).take 8 = [0x78, 0x6a, 0x02, 0xf7, 0x42, 0x01, 0x59, 0x03] := by
  decide +kernel

/-! ### `Reset` -/

/-- A call between the construction and `Reset`. -/
inductive Call where
  | write (data : Bytes)
  | finalize

def CBlake2b.call (s : CBlake2b) : Call → CBlake2b
  | .write data => s.write data
  | .finalize => s.finalize.1

theorem CBlake2b.outlen_calls (s : CBlake2b) (calls : List Call) :
    (calls.foldl CBlake2b.call s).outlen = s.outlen := by
  induction calls generalizing s with
  | nil => rfl
  | cons c calls ih =>
    rw [List.foldl_cons, ih]
    cases c with
    | write data => exact s.outlen_write data
    | finalize => exact s.outlen_finalize

/-- The history and the key leave no trace: only the output size survives `Reset`. -/
theorem Constructor.reset_calls (c : Constructor) (calls : List Call) :
    (calls.foldl CBlake2b.call c.build).reset = CBlake2b.new c.size := by
  rw [CBlake2b.reset, CBlake2b.outlen_calls, c.build_eq, CBlake2b.outlen_newKeyed]
  rfl

theorem CBlake2b.newKeyed_ne_new {key : HashKey} (h : key.bytes ≠ []) (size : OutputSize) :
    CBlake2b.newKeyed key size ≠ CBlake2b.new size := by
  intro heq
  -- the key's block is pending after one constructor, nothing after the other
  have hview := congrArg Prod.snd (CBlake2b.newKeyed_drain key size)
  rw [rfcData, if_neg h, List.append_nil, drain_of_le, heq] at hview
  · have hpos := List.length_pos_of_ne_nil h
    have hlen := congrArg List.length hview
    rw [padBlock, List.length_append] at hlen
    change 0 = _ at hlen
    omega
  · have hle := key.le_max
    rw [padBlock, List.length_append, List.length_replicate]
    show key.bytes.length + (128 - key.bytes.length) ≤ 128
    omega

/-- After any calls and `Reset`, the digest of a further message is the digest without a key.  Where
the constructor got no key bytes that is the digest of a fresh object; the object itself is as fresh
as the constructor made it only then. -/
theorem reset_digest (c : Constructor) (calls : List Call) (pieces : List Bytes) :
    (pieces.foldl CBlake2b.write (calls.foldl CBlake2b.call c.build).reset).finalize.2
        = rfc7693 [] c.size.size pieces.flatten ∧
      (c.key.bytes = [] →
        (pieces.foldl CBlake2b.write (calls.foldl CBlake2b.call c.build).reset).finalize.2
          = (pieces.foldl CBlake2b.write c.build).finalize.2) ∧
      ((calls.foldl CBlake2b.call c.build).reset = c.build ↔ c.key.bytes = []) := by
  have hnew := CBlake2b.newKeyed_noKey (show Constructor.noKey.bytes = [] from rfl) c.size
  rw [c.reset_calls, c.build_eq]
  refine ⟨?_, fun hkey => ?_, fun heq => ?_, fun hkey => (CBlake2b.newKeyed_noKey hkey c.size).symm⟩
  · rw [← hnew]
    exact (CBlake2b.newKeyed_writes Constructor.noKey c.size pieces).2
  · rw [CBlake2b.newKeyed_noKey hkey]
  · by_contra hkey
    exact CBlake2b.newKeyed_ne_new hkey c.size heq.symm

/-- An object with a one-byte key: `Reset` right after construction changes the digest of the empty
message. -/
theorem reset_drops_key :
    let c := Constructor.keyed ⟨[1], by decide⟩ ⟨64, by decide, by decide⟩
    c.build.reset.finalize.2 ≠ c.build.finalize.2 := by
  decide +kernel

end OpenSY.Blake2b
