import OpenSY.Script.Bytes

/-!
# The signature hash

`SignatureHash` for legacy and segwit-v0 inputs, with the serialisers it writes through, the
precomputed hashes of a transaction and the cache of writers that each input has.  SHA256 is a
parameter.  A hash writer is the byte string written to it so far, which is all that a SHA256
midstate depends on.
-/

namespace OpenSY.Script

open OpenSY.Chain OpenSY.Src20

/-! ### Transactions and their serialisation -/

inductive SigVersion where
  | base
  | witnessV0
  deriving DecidableEq

/-- The parts of an input that signature hashing reads. -/
structure TxInput where
  prevout : COutPoint
  nSequence : UInt32
  /-- `!scriptWitness.IsNull()` -/
  hasWitness : Bool
  deriving DecidableEq

structure SpendingTx where
  version : UInt32
  vin : List TxInput
  vout : List CTxOut
  nLockTime : UInt32
  deriving DecidableEq

/-- `CTxOut()` -/
def nullTxOut : CTxOut := ⟨-1, []⟩

def SpendingTx.input (tx : SpendingTx) (i : ℕ) : TxInput :=
  tx.vin.getD i ⟨⟨0, 0xffffffff⟩, 0, false⟩

def SpendingTx.output (tx : SpendingTx) (i : ℕ) : CTxOut := tx.vout.getD i nullTxOut

def serUInt32 (x : UInt32) : Bytes := writeLE 4 x.toNat

/-- An `int64_t`, in two's complement. -/
def serAmount (x : CAmount) : Bytes := writeLE 8 (x % 2 ^ 64).toNat

def writeCompactSize (nSize : ℕ) : Bytes :=
  if nSize < 253 then writeLE 1 nSize
  else if nSize ≤ 0xffff then 253 :: writeLE 2 nSize
  else if nSize ≤ 0xffffffff then 254 :: writeLE 4 nSize
  else 255 :: writeLE 8 nSize

def serScript (script : CScript) : Bytes := writeCompactSize script.length ++ script

def serOutPoint (o : COutPoint) : Bytes := uint256Bytes o.hash ++ writeLE 4 o.n

def serTxOut (out : CTxOut) : Bytes := serAmount out.nValue ++ serScript out.scriptPubKey

/-! ### The hash type -/

/-- The three properties of a hash type that decide what is signed. -/
structure HashTypeFlags where
  fAnyoneCanPay : Bool
  fHashSingle : Bool
  fHashNone : Bool
  deriving DecidableEq

def sighashNone : UInt32 := 2
def sighashSingle : UInt32 := 3
def sighashAnyoneCanPay : UInt32 := 0x80

def hashTypeFlags (nHashType : UInt32) : HashTypeFlags where
  fAnyoneCanPay := nHashType &&& sighashAnyoneCanPay ≠ 0
  fHashSingle := nHashType &&& 0x1f = sighashSingle
  fHashNone := nHashType &&& 0x1f = sighashNone

/-! ### Legacy serialisation -/

def opCodeSeparator : UInt8 := 0xab

/-- `GetOp` as it moves its iterator: the opcode unless it fails, and where the iterator is left.  A
push that is cut off leaves it behind the part that was read. -/
def scanOp : CScript → Option UInt8 × CScript
  | [] => (none, [])
  | opcode :: rest =>
    if opcode ≤ opPushdata4 then
      match pushLength opcode rest with
      | none => (none, rest)
      | some (nSize, rest) =>
        if rest.length < nSize then (none, rest) else (some opcode, rest.drop nSize)
    else (some opcode, rest)

theorem pushLength_length_le {opcode : UInt8} {rest rest' : CScript} {nSize : ℕ}
    (h : pushLength opcode rest = some (nSize, rest')) : rest'.length ≤ rest.length := by
  unfold pushLength at h
  split_ifs at h
  all_goals
    cases h
    simp

theorem scanOp_length_lt {script rest : CScript} {opcode : UInt8}
    (h : scanOp script = (some opcode, rest)) :
    rest.length < script.length := by
  cases script with
  | nil => cases h
  | cons first tail =>
    rw [List.length_cons, Nat.lt_succ_iff]
    simp only [scanOp] at h
    split_ifs at h
    · split at h
      · cases h
      · rename_i nSize tail' hpush
        have hle := pushLength_length_le hpush
        split_ifs at h with hshort
        · cases h
        · have hrest : tail'.drop nSize = rest := congrArg Prod.snd h
          rw [← hrest, List.length_drop]
          omega
    · have hrest : tail = rest := congrArg Prod.snd h
      rw [hrest]

/-- The number of separators among the opcodes. -/
def countSeparators (it : CScript) : ℕ :=
  match h : scanOp it with
  | (none, _) => 0
  | (some opcode, rest) =>
    have := scanOp_length_lt h
    (if opcode = opCodeSeparator then 1 else 0) + countSeparators rest
termination_by it.length

/-- The bytes from one iterator to another. -/
def bytesBetween (first last : CScript) : Bytes := first.take (first.length - last.length)

/-- The bytes of a script without its separators, from `itBegin` on, where `it` is the next opcode.
-/
def writeWithoutSeparators (itBegin it : CScript) : Bytes :=
  match h : scanOp it with
  | (none, rest) => if itBegin.isEmpty then [] else bytesBetween itBegin rest
  | (some opcode, rest) =>
    have := scanOp_length_lt h
    if opcode = opCodeSeparator then
      (bytesBetween itBegin rest).dropLast ++ writeWithoutSeparators rest rest
    else writeWithoutSeparators itBegin rest
termination_by it.length

def serializeScriptCode (scriptCode : CScript) : Bytes :=
  writeCompactSize (scriptCode.length - countSeparators scriptCode) ++
    writeWithoutSeparators scriptCode scriptCode

section Serializer

variable (tx : SpendingTx) (scriptCode : CScript) (nIn : ℕ) (flags : HashTypeFlags)

def serializeInput (nInput : ℕ) : Bytes :=
  let nInput := if flags.fAnyoneCanPay then nIn else nInput
  serOutPoint (tx.input nInput).prevout ++
    (if nInput ≠ nIn then serScript [] else serializeScriptCode scriptCode) ++
    (if nInput ≠ nIn ∧ (flags.fHashSingle || flags.fHashNone) then serUInt32 0
      else serUInt32 (tx.input nInput).nSequence)

def serializeOutput (nOutput : ℕ) : Bytes :=
  if flags.fHashSingle ∧ nOutput ≠ nIn then serTxOut nullTxOut else serTxOut (tx.output nOutput)

/-- `CTransactionSignatureSerializer::Serialize` -/
def serializeForSignature : Bytes :=
  let nInputs := if flags.fAnyoneCanPay then 1 else tx.vin.length
  let nOutputs :=
    if flags.fHashNone then 0 else if flags.fHashSingle then nIn + 1 else tx.vout.length
  serUInt32 tx.version ++
    writeCompactSize nInputs ++
    (List.range nInputs).flatMap (serializeInput tx scriptCode nIn flags) ++
    writeCompactSize nOutputs ++ (List.range nOutputs).flatMap (serializeOutput tx nIn flags) ++
    serUInt32 tx.nLockTime

end Serializer

/-! ### Precomputed hashes -/

section Hashing

variable (sha256 : Bytes → Uint256)

/-- `GetHash`: SHA256 twice. -/
def getHash (bytes : Bytes) : Uint256 := sha256 (uint256Bytes (sha256 bytes))

def sha256Uint256 (x : Uint256) : Uint256 := sha256 (uint256Bytes x)

def getPrevoutsSHA256 (tx : SpendingTx) : Uint256 :=
  sha256 (tx.vin.flatMap fun txin => serOutPoint txin.prevout)

def getSequencesSHA256 (tx : SpendingTx) : Uint256 :=
  sha256 (tx.vin.flatMap fun txin => serUInt32 txin.nSequence)

def getOutputsSHA256 (tx : SpendingTx) : Uint256 := sha256 (tx.vout.flatMap serTxOut)

structure PrecomputedTransactionData where
  hashPrevouts : Uint256 := 0
  hashSequence : Uint256 := 0
  hashOutputs : Uint256 := 0
  bip143SegwitReady : Bool := false
  deriving DecidableEq

def op1 : UInt8 := 0x51
def witnessV1TaprootSize : ℕ := 32

/-- A spend that is taken for one of Taproot. -/
def looksLikeTaproot (spentOutputs : List CTxOut) (inpos : ℕ) : Bool :=
  match spentOutputs[inpos]? with
  | none => false
  | some out =>
    out.scriptPubKey.length = 2 + witnessV1TaprootSize && out.scriptPubKey.head? = some op1

/-- `PrecomputedTransactionData::Init`, as far as segwit-v0 is concerned; nothing if its assertion
fails. -/
def PrecomputedTransactionData.init (tx : SpendingTx) (spentOutputs : List CTxOut) (force : Bool) :
    Option PrecomputedTransactionData :=
  if !spentOutputs.isEmpty ∧ spentOutputs.length ≠ tx.vin.length then none
  else
    let usesBip143Segwit := force || (List.range tx.vin.length).any fun inpos =>
      (tx.input inpos).hasWitness && !looksLikeTaproot spentOutputs inpos
    if usesBip143Segwit then
      some {
        hashPrevouts := sha256Uint256 sha256 (getPrevoutsSHA256 sha256 tx)
        hashSequence := sha256Uint256 sha256 (getSequencesSHA256 sha256 tx)
        hashOutputs := sha256Uint256 sha256 (getOutputsSHA256 sha256 tx)
        bip143SegwitReady := true }
    else some {}

/-! ### The cache of one input -/

/-- Six slots, each with a script code and the writer just before the hash type. -/
abbrev SigHashCache : Type := ℕ → Option (CScript × Bytes)

def SigHashCache.empty : SigHashCache := fun _ => none

def cacheIndex (nHashType : UInt32) : ℕ :=
  let flags := hashTypeFlags nHashType
  3 * flags.fAnyoneCanPay.toNat + 2 * flags.fHashSingle.toNat + 1 * flags.fHashNone.toNat

def SigHashCache.load (cache : SigHashCache) (nHashType : UInt32)
    (scriptCode : CScript) : Option Bytes :=
  match cache (cacheIndex nHashType) with
  | none => none
  | some (script, writer) => if scriptCode = script then some writer else none

def SigHashCache.store (cache : SigHashCache) (nHashType : UInt32) (scriptCode : CScript)
    (writer : Bytes) :
    SigHashCache :=
  fun index => if index = cacheIndex nHashType then some (scriptCode, writer) else cache index

/-! ### `SignatureHash` -/

/-- `uint256::ONE`: the first byte is one. -/
def uint256One : Uint256 := BitVec.ofNat 256 (2 ^ 248)

def opensyGenesisHash : Uint256 :=
  0xd10f92276f79159d35e2392687efd9bfdf13c1f57da660aee5544fc9c4000000

/-- What is written for a segwit-v0 input. -/
def writeWitnessV0 (tx : SpendingTx) (scriptCode : CScript) (nIn : ℕ) (flags : HashTypeFlags)
    (amount : CAmount) (cache : Option PrecomputedTransactionData) : Bytes :=
  let ready := cache.filter PrecomputedTransactionData.bip143SegwitReady
  let hashPrevouts :=
    if !flags.fAnyoneCanPay then
      match ready with
      | some data => data.hashPrevouts
      | none => sha256Uint256 sha256 (getPrevoutsSHA256 sha256 tx)
    else 0
  let hashSequence :=
    if !flags.fAnyoneCanPay && !flags.fHashSingle && !flags.fHashNone then
      match ready with
      | some data => data.hashSequence
      | none => sha256Uint256 sha256 (getSequencesSHA256 sha256 tx)
    else 0
  let hashOutputs :=
    if !flags.fHashSingle && !flags.fHashNone then
      match ready with
      | some data => data.hashOutputs
      | none => sha256Uint256 sha256 (getOutputsSHA256 sha256 tx)
    else if flags.fHashSingle ∧ nIn < tx.vout.length then getHash sha256 (serTxOut (tx.output nIn))
    else 0
  serUInt32 tx.version ++ uint256Bytes hashPrevouts ++ uint256Bytes hashSequence ++
    serOutPoint (tx.input nIn).prevout ++ serScript scriptCode ++ serAmount amount ++
    serUInt32 (tx.input nIn).nSequence ++ uint256Bytes hashOutputs ++ serUInt32 tx.nLockTime

/-- What is written after the genesis hash when no midstate is found. -/
def writeSigned (tx : SpendingTx) (scriptCode : CScript) (nIn : ℕ) (flags : HashTypeFlags)
    (amount : CAmount) (cache : Option PrecomputedTransactionData) : SigVersion → Bytes
  | .witnessV0 => writeWitnessV0 sha256 tx scriptCode nIn flags amount cache
  | .base => serializeForSignature tx scriptCode nIn flags

/-- `SignatureHash`: the hash and the cache after it; nothing if the assertion on `nIn` fails. -/
def signatureHash (scriptCode : CScript) (tx : SpendingTx) (nIn : ℕ) (nHashType : UInt32)
    (amount : CAmount) (sigversion : SigVersion) (cache : Option PrecomputedTransactionData)
    (sighashCache : Option SigHashCache) :
    Option (Uint256 × Option SigHashCache) :=
  if ¬ nIn < tx.vin.length then none
  else if sigversion ≠ .witnessV0 ∧ (hashTypeFlags nHashType).fHashSingle ∧
    tx.vout.length ≤ nIn then
    some (uint256One, sighashCache)
  else
    let ss := uint256Bytes opensyGenesisHash
    match sighashCache.bind fun cache => cache.load nHashType scriptCode with
    | some ss => some (getHash sha256 (ss ++ serUInt32 nHashType), sighashCache)
    | none =>
      let ss :=
        ss ++ writeSigned sha256 tx scriptCode nIn (hashTypeFlags nHashType) amount cache sigversion
      some (getHash sha256 (ss ++ serUInt32 nHashType),
        sighashCache.map fun cache => cache.store nHashType scriptCode ss)

end Hashing

end OpenSY.Script
