import OpenSY.Script.SigHash

/-!
# Signature hashes are bound to the chain

What Bitcoin hashes for a signature, said without writers and caches: for a legacy input the
transaction with blanked scripts, sequence numbers and outputs; for a segwit-v0 input the nine
fields of its digest. `SignatureHash` hashes the same after the genesis hash, however the cache of
the input and the precomputed hashes have been used before — except where it returns early.

* `serializeForSignature_eq` — the serialiser against the blanked copy;
* `writeWitnessV0_eq` — the segwit writer against the fields;
* `CacheSound`, `cacheAfter_sound` — the cache holds what would be written;
* `sighash_cache_transparent` — so a digest does not depend on whether there is a cache;
* `signature_hash_bound_to_chain` — the digest, and when it can be Bitcoin's.
-/

namespace OpenSY.Script

open OpenSY.Chain OpenSY.Src20

/-! ### Bitcoin's preimages -/

/-- An input as it is signed: outpoint, script field and sequence number. -/
structure SignedInput where
  prevout : COutPoint
  scriptField : Bytes
  nSequence : UInt32

def SignedInput.serialize (x : SignedInput) : Bytes :=
  serOutPoint x.prevout ++ x.scriptField ++ serUInt32 x.nSequence

/-- The copy of a transaction that a legacy signature signs. -/
structure SignedCopy where
  version : UInt32
  vin : List SignedInput
  vout : List CTxOut
  nLockTime : UInt32

def SignedCopy.serialize (copy : SignedCopy) : Bytes :=
  serUInt32 copy.version ++ writeCompactSize copy.vin.length ++
    copy.vin.flatMap SignedInput.serialize ++
    writeCompactSize copy.vout.length ++ copy.vout.flatMap serTxOut ++ serUInt32 copy.nLockTime

section Preimages

variable (tx : SpendingTx) (scriptCode : CScript) (nIn : ℕ) (flags : HashTypeFlags)

/-- Scripts of other inputs are blanked, and their sequence numbers unless all outputs are signed.
-/
def blankedInput (i : ℕ) (txin : TxInput) : SignedInput where
  prevout := txin.prevout
  scriptField := if i = nIn then serializeScriptCode scriptCode else serScript []
  nSequence := if i ≠ nIn ∧ (flags.fHashSingle || flags.fHashNone) then 0 else txin.nSequence

def signedCopy : SignedCopy where
  version := tx.version
  vin :=
    if flags.fAnyoneCanPay then [blankedInput scriptCode nIn flags nIn (tx.input nIn)]
    else tx.vin.mapIdx (blankedInput scriptCode nIn flags)
  vout :=
    if flags.fHashNone then []
    else if flags.fHashSingle then List.replicate nIn nullTxOut ++ [tx.output nIn]
    else tx.vout
  nLockTime := tx.nLockTime

variable (sha256 : Bytes → Uint256) (amount : CAmount)

/-- The fields of a segwit-v0 digest up to the hash type. -/
def witnessV0Fields : Bytes :=
  let hashPrevouts :=
    if flags.fAnyoneCanPay then 0
      else getHash sha256 (tx.vin.flatMap fun txin => serOutPoint txin.prevout)
  let hashSequence :=
    if flags.fAnyoneCanPay || flags.fHashSingle || flags.fHashNone then 0
    else getHash sha256 (tx.vin.flatMap fun txin => serUInt32 txin.nSequence)
  let hashOutputs :=
    if flags.fHashSingle then
      if nIn < tx.vout.length then getHash sha256 (serTxOut (tx.output nIn)) else 0
    else if flags.fHashNone then 0
    else getHash sha256 (tx.vout.flatMap serTxOut)
  serUInt32 tx.version ++ uint256Bytes hashPrevouts ++ uint256Bytes hashSequence ++
    serOutPoint (tx.input nIn).prevout ++ serScript scriptCode ++ serAmount amount ++
    serUInt32 (tx.input nIn).nSequence ++ uint256Bytes hashOutputs ++ serUInt32 tx.nLockTime

/-- What is signed, up to the hash type. -/
def signedBytes (sigversion : SigVersion) : Bytes :=
  match sigversion with
  | .base => (signedCopy tx scriptCode nIn flags).serialize
  | .witnessV0 => witnessV0Fields tx scriptCode nIn flags sha256 amount

end Preimages

/-- Bitcoin's signature preimage. -/
def bitcoinPreimage (sha256 : Bytes → Uint256) (tx : SpendingTx) (scriptCode : CScript) (nIn : ℕ)
    (nHashType : UInt32) (amount : CAmount) (sigversion : SigVersion) : Bytes :=
  signedBytes tx scriptCode nIn (hashTypeFlags nHashType) sha256 amount sigversion ++
    serUInt32 nHashType

/-- A legacy `SIGHASH_SINGLE` without an output at the index of the input. -/
def SingleOutOfRange (tx : SpendingTx) (nIn : ℕ) (nHashType : UInt32)
    (sigversion : SigVersion) : Prop :=
  sigversion = .base ∧ (hashTypeFlags nHashType).fHashSingle = true ∧ tx.vout.length ≤ nIn

instance (tx : SpendingTx) (nIn : ℕ) (nHashType : UInt32) (sigversion : SigVersion) :
    Decidable (SingleOutOfRange tx nIn nHashType sigversion) :=
  inferInstanceAs (Decidable (_ ∧ _ ∧ _))

/-- Bitcoin's signature hash. -/
def bitcoinDigest (sha256 : Bytes → Uint256) (tx : SpendingTx) (scriptCode : CScript) (nIn : ℕ)
    (nHashType : UInt32) (amount : CAmount) (sigversion : SigVersion) : Uint256 :=
  if SingleOutOfRange tx nIn nHashType sigversion then uint256One
  else getHash sha256 (bitcoinPreimage sha256 tx scriptCode nIn nHashType amount sigversion)

/-! ### The legacy serialiser -/

/-- A list, visited by index. -/
theorem map_range_getD {α β : Type} (l : List α) (d : α) (f : ℕ → α → β) :
    (List.range l.length).map (fun i => f i (l.getD i d)) = l.mapIdx f := by
  refine List.ext_getElem (by simp) fun i hi hi' => ?_
  have hlt : i < l.length := by simpa using hi
  simp [List.getD_eq_getElem?_getD, List.getElem?_eq_getElem hlt]

theorem serializeInput_eq (tx : SpendingTx) (scriptCode : CScript) (nIn : ℕ) (flags : HashTypeFlags)
    (nInput : ℕ) :
    serializeInput tx scriptCode nIn flags nInput =
      (blankedInput scriptCode nIn flags (if flags.fAnyoneCanPay then nIn else nInput)
        (tx.input (if flags.fAnyoneCanPay then nIn else nInput))).serialize := by
  unfold serializeInput blankedInput SignedInput.serialize
  dsimp only
  generalize (if flags.fAnyoneCanPay = true then nIn else nInput) = i
  by_cases hi : i = nIn
  · simp [hi]
  · by_cases hblank : (flags.fHashSingle || flags.fHashNone) = true <;> simp [hi, hblank]

theorem serializeInputs_eq (tx : SpendingTx) (scriptCode : CScript) (nIn : ℕ)
    (flags : HashTypeFlags) :
    (List.range (if flags.fAnyoneCanPay then 1 else tx.vin.length)).flatMap
        (serializeInput tx scriptCode nIn flags) =
      (signedCopy tx scriptCode nIn flags).vin.flatMap SignedInput.serialize := by
  have hinput := serializeInput_eq tx scriptCode nIn flags
  unfold signedCopy
  cases hacp : flags.fAnyoneCanPay with
  | true =>
    simp only [hacp, if_true] at hinput ⊢
    rw [List.range_one, List.flatMap_singleton, List.flatMap_singleton, hinput]
  | false =>
    simp only [hacp, Bool.false_eq_true, if_false] at hinput ⊢
    rw [← map_range_getD tx.vin ⟨⟨0, 0xffffffff⟩, 0, false⟩, List.flatMap_map]
    exact List.flatMap_congr fun i _ => hinput i

theorem serializeOutputs_eq (tx : SpendingTx) (scriptCode : CScript) (nIn : ℕ)
    (flags : HashTypeFlags) :
    (List.range (if flags.fHashNone then 0 else if flags.fHashSingle then nIn + 1
      else tx.vout.length)).flatMap (serializeOutput tx nIn flags) =
      (signedCopy tx scriptCode nIn flags).vout.flatMap serTxOut := by
  unfold signedCopy
  cases hnone : flags.fHashNone with
  | true => simp
  | false =>
    cases hsingle : flags.fHashSingle with
    | true =>
      have hother : ∀ i ∈ List.range nIn, serializeOutput tx nIn flags i = serTxOut nullTxOut := by
        intro i hi
        simp [serializeOutput, hsingle, Nat.ne_of_lt (List.mem_range.mp hi)]
      have hown : serializeOutput tx nIn flags nIn = serTxOut (tx.output nIn) := by
        simp [serializeOutput]
      simp only [Bool.false_eq_true, if_false, if_true]
      rw [List.range_succ, List.flatMap_append, List.flatMap_append, List.flatMap_singleton,
        List.flatMap_singleton, hown, List.flatMap_congr hother]
      congr 1
      rw [List.flatMap_def, List.flatMap_def, List.map_replicate, List.map_const',
        List.length_range]
    | false =>
      simp only [Bool.false_eq_true, if_false]
      have hall : (tx.vout.mapIdx fun _ out => out) = tx.vout :=
        List.ext_getElem (by simp) (by simp)
      nth_rewrite 2 [← hall]
      rw [← map_range_getD tx.vout nullTxOut, List.flatMap_map]
      refine List.flatMap_congr fun i _ => ?_
      simp [serializeOutput, hsingle, SpendingTx.output]

theorem signedCopy_lengths (tx : SpendingTx) (scriptCode : CScript) (nIn : ℕ)
    (flags : HashTypeFlags) :
    (signedCopy tx scriptCode nIn flags).vin.length =
      (if flags.fAnyoneCanPay then 1 else tx.vin.length) ∧
    (signedCopy tx scriptCode nIn flags).vout.length =
      (if flags.fHashNone then 0 else if flags.fHashSingle then nIn + 1 else tx.vout.length) := by
  unfold signedCopy
  constructor
  · split_ifs <;> simp
  · split_ifs <;> simp

/-- **The serialiser writes the blanked copy.** -/
theorem serializeForSignature_eq (tx : SpendingTx) (scriptCode : CScript) (nIn : ℕ)
    (flags : HashTypeFlags) :
    serializeForSignature tx scriptCode nIn flags =
      (signedCopy tx scriptCode nIn flags).serialize := by
  obtain ⟨hvin, hvout⟩ := signedCopy_lengths tx scriptCode nIn flags
  rw [SignedCopy.serialize, hvin, hvout, ← serializeInputs_eq, ← serializeOutputs_eq]
  rfl

/-! ### The segwit writer -/

/-- Precomputed data that `SignatureHash` can be given: none, not initialised, or made from the
transaction. -/
inductive PrecomputedFor (sha256 : Bytes → Uint256) (tx : SpendingTx) :
    Option PrecomputedTransactionData → Prop
  | absent : PrecomputedFor sha256 tx none
  | blank : PrecomputedFor sha256 tx (some {})
  | init {spentOutputs : List CTxOut} {force : Bool} {data : PrecomputedTransactionData}
      (made : PrecomputedTransactionData.init sha256 tx spentOutputs force = some data) :
      PrecomputedFor sha256 tx (some data)

/-- Hashes that are ready are those of the transaction. -/
theorem PrecomputedFor.ready {sha256 : Bytes → Uint256} {tx : SpendingTx}
    {cache : Option PrecomputedTransactionData} (h : PrecomputedFor sha256 tx cache) :
    cache.filter PrecomputedTransactionData.bip143SegwitReady = none ∨
    cache.filter PrecomputedTransactionData.bip143SegwitReady = some {
      hashPrevouts := sha256Uint256 sha256 (getPrevoutsSHA256 sha256 tx)
      hashSequence := sha256Uint256 sha256 (getSequencesSHA256 sha256 tx)
      hashOutputs := sha256Uint256 sha256 (getOutputsSHA256 sha256 tx)
      bip143SegwitReady := true } := by
  cases h with
  | absent => exact .inl rfl
  | blank => exact .inl rfl
  | init made =>
    simp only [PrecomputedTransactionData.init, Option.ite_none_left_eq_some] at made
    obtain ⟨-, made⟩ := made
    split_ifs at made with huses
    · obtain rfl := Option.some.inj made
      exact .inr rfl
    · obtain rfl := Option.some.inj made
      exact .inl rfl

/-- **The segwit writer writes the fields**, with or without precomputed hashes. -/
theorem writeWitnessV0_eq {sha256 : Bytes → Uint256} {tx : SpendingTx}
    {cache : Option PrecomputedTransactionData} (h : PrecomputedFor sha256 tx cache)
    (scriptCode : CScript) (nIn : ℕ) {flags : HashTypeFlags}
    (hflags : ¬ (flags.fHashSingle = true ∧ flags.fHashNone = true)) (amount : CAmount) :
    writeWitnessV0 sha256 tx scriptCode nIn flags amount cache =
      witnessV0Fields tx scriptCode nIn flags sha256 amount := by
  obtain ⟨acp, single, none_⟩ := flags
  unfold writeWitnessV0 witnessV0Fields
  obtain hready | hready := h.ready
  · rw [hready]
    cases acp <;> cases single <;> cases none_ <;> simp_all [getHash, sha256Uint256,
      getPrevoutsSHA256, getSequencesSHA256, getOutputsSHA256]
  · rw [hready]
    cases acp <;> cases single <;> cases none_ <;> simp_all [getHash, sha256Uint256,
      getPrevoutsSHA256, getSequencesSHA256, getOutputsSHA256]

/-! ### The cache of an input -/

/-- `SIGHASH_SINGLE` and `SIGHASH_NONE` exclude each other. -/
theorem hashTypeFlags_exclusive (nHashType : UInt32) :
    ¬ ((hashTypeFlags nHashType).fHashSingle = true ∧
      (hashTypeFlags nHashType).fHashNone = true) := by
  intro ⟨hsingle, hnone⟩
  simp only [hashTypeFlags, decide_eq_true_eq] at hsingle hnone
  rw [hsingle] at hnone
  exact absurd hnone (by decide)

/-- A slot serves one set of flags. -/
theorem hashTypeFlags_of_cacheIndex {h h' : UInt32} (heq : cacheIndex h = cacheIndex h') :
    hashTypeFlags h = hashTypeFlags h' := by
  have hex := hashTypeFlags_exclusive h
  have hex' := hashTypeFlags_exclusive h'
  unfold cacheIndex at heq
  generalize hashTypeFlags h = f at *
  generalize hashTypeFlags h' = f' at *
  obtain ⟨acp, single, none_⟩ := f
  obtain ⟨acp', single', none_'⟩ := f'
  cases acp <;> cases single <;> cases none_ <;> cases acp' <;> cases single' <;> cases none_' <;>
    simp_all

section Input

variable (sha256 : Bytes → Uint256) (tx : SpendingTx) (nIn : ℕ) (amount : CAmount)
  (sigversion : SigVersion)

/-- The genesis hash and what is signed, up to the hash type. -/
def chainBytes (scriptCode : CScript) (nHashType : UInt32) : Bytes :=
  uint256Bytes opensyGenesisHash ++ signedBytes tx scriptCode nIn (hashTypeFlags nHashType) sha256
    amount sigversion

/-- Whatever the cache finds is what would be written. -/
def CacheSound (sighashCache : Option SigHashCache) : Prop :=
  ∀ cache ∈ sighashCache, ∀ nHashType scriptCode writer,
    cache.load nHashType scriptCode = some writer →
    writer = chainBytes sha256 tx nIn amount sigversion scriptCode nHashType

/-- The cache of an input before its first signature check: not used, or with no entry. -/
inductive FreshCache : Option SigHashCache → Prop
  | unused : FreshCache none
  | empty : FreshCache (some .empty)

/-- The cache after hashes of the same input for some script codes and hash types. -/
def cacheAfter (data : Option PrecomputedTransactionData) (sighashCache : Option SigHashCache)
    (uses : List (CScript × UInt32)) : Option SigHashCache :=
  uses.foldl (fun sighashCache use =>
    match signatureHash sha256 use.1 tx nIn use.2 amount sigversion data sighashCache with
    | some (_, sighashCache) => sighashCache
    | none => sighashCache) sighashCache

end Input

/-- Both writers, after the genesis hash. -/
theorem writeSigned_eq {sha256 : Bytes → Uint256} {tx : SpendingTx}
    {data : Option PrecomputedTransactionData} (hdata : PrecomputedFor sha256 tx data)
    (scriptCode : CScript) (nIn : ℕ) (nHashType : UInt32) (amount : CAmount)
    (sigversion : SigVersion) :
    uint256Bytes opensyGenesisHash ++
        writeSigned sha256 tx scriptCode nIn (hashTypeFlags nHashType) amount data sigversion =
      chainBytes sha256 tx nIn amount sigversion scriptCode nHashType := by
  cases sigversion with
  | base => rw [writeSigned, serializeForSignature_eq]; rfl
  | witnessV0 =>
    rw [writeSigned, writeWitnessV0_eq hdata scriptCode nIn (hashTypeFlags_exclusive nHashType)]
    rfl

section Binding

variable {sha256 : Bytes → Uint256} {tx : SpendingTx} {nIn : ℕ} {amount : CAmount}
  {sigversion : SigVersion} {data : Option PrecomputedTransactionData}

theorem FreshCache.sound {sighashCache : Option SigHashCache} (h : FreshCache sighashCache) :
    CacheSound sha256 tx nIn amount sigversion sighashCache := by
  cases h with
  | unused => exact fun _ hcache => absurd hcache (by simp)
  | empty =>
    intro cache hcache nHashType scriptCode writer hload
    obtain rfl := Option.some.inj hcache
    cases hload

theorem CacheSound.store {cache : SigHashCache}
    (h : CacheSound sha256 tx nIn amount sigversion (some cache)) (scriptCode : CScript)
    (nHashType : UInt32) :
    CacheSound sha256 tx nIn amount sigversion
      (some (cache.store nHashType scriptCode
        (chainBytes sha256 tx nIn amount sigversion scriptCode nHashType))) := by
  intro cache' hcache' nHashType' scriptCode' writer hload
  obtain rfl := Option.some.inj hcache'
  by_cases hindex : cacheIndex nHashType' = cacheIndex nHashType
  · -- the slot just written: it serves the same flags, and the script code is compared
    simp only [SigHashCache.load, SigHashCache.store, hindex, if_true,
      Option.ite_none_right_eq_some, Option.some.injEq] at hload
    obtain ⟨rfl, rfl⟩ := hload
    unfold chainBytes
    rw [hashTypeFlags_of_cacheIndex hindex]
  · refine h cache rfl nHashType' scriptCode' writer ?_
    simpa only [SigHashCache.load, SigHashCache.store, hindex, if_false] using hload

/-- **One signature hash**: with a sound cache it is that of the bytes, and the cache stays sound.
-/
theorem signatureHash_eq (hdata : PrecomputedFor sha256 tx data) (hIn : nIn < tx.vin.length)
    {sighashCache : Option SigHashCache}
    (h : CacheSound sha256 tx nIn amount sigversion sighashCache) (scriptCode : CScript)
    (nHashType : UInt32) :
    ∃ sighashCache', CacheSound sha256 tx nIn amount sigversion sighashCache' ∧
      signatureHash sha256 scriptCode tx nIn nHashType amount sigversion data sighashCache =
        some (if SingleOutOfRange tx nIn nHashType sigversion then uint256One
          else getHash sha256 (chainBytes sha256 tx nIn amount sigversion scriptCode nHashType ++
            serUInt32 nHashType), sighashCache') := by
  have hwritten := writeSigned_eq hdata scriptCode nIn nHashType amount sigversion
  have hearly : (sigversion ≠ .witnessV0 ∧ (hashTypeFlags nHashType).fHashSingle ∧
      tx.vout.length ≤ nIn) ↔
      SingleOutOfRange tx nIn nHashType sigversion := by
    cases sigversion <;> simp [SingleOutOfRange]
  unfold signatureHash
  rw [if_neg (not_not.mpr hIn), if_congr hearly rfl rfl]
  by_cases hsingle : SingleOutOfRange tx nIn nHashType sigversion
  · rw [if_pos hsingle, if_pos hsingle]
    exact ⟨_, h, rfl⟩
  · rw [if_neg hsingle, if_neg hsingle]
    dsimp only
    rw [hwritten]
    cases hload : sighashCache.bind fun cache => cache.load nHashType scriptCode with
    | some writer =>
      obtain ⟨cache, hcache, hwriter⟩ := Option.bind_eq_some_iff.mp hload
      rw [h cache hcache nHashType scriptCode writer hwriter]
      exact ⟨_, h, rfl⟩
    | none =>
      refine ⟨_, ?_, rfl⟩
      cases sighashCache with
      | none => exact h
      | some cache => exact h.store scriptCode nHashType

/-- **The cache stays sound along all uses of an input.** -/
theorem cacheAfter_sound (hdata : PrecomputedFor sha256 tx data) (hIn : nIn < tx.vin.length)
    (uses : List (CScript × UInt32)) :
    ∀ {sighashCache : Option SigHashCache},
      CacheSound sha256 tx nIn amount sigversion sighashCache →
      CacheSound sha256 tx nIn amount sigversion
        (cacheAfter sha256 tx nIn amount sigversion data sighashCache uses) := by
  induction uses with
  | nil => exact fun h => h
  | cons use uses ih =>
    intro sighashCache h
    obtain ⟨sighashCache', h', heq⟩ := signatureHash_eq hdata hIn h use.1 use.2
    show CacheSound sha256 tx nIn amount sigversion (cacheAfter sha256 tx nIn amount sigversion data
      (match signatureHash sha256 use.1 tx nIn use.2 amount sigversion data sighashCache with
        | some (_, sighashCache) => sighashCache
        | none => sighashCache) uses)
    rw [heq]
    exact ih h'

/-- The signature hash after any uses of the input. -/
theorem signatureHash_after (hdata : PrecomputedFor sha256 tx data) (hIn : nIn < tx.vin.length)
    {sighashCache : Option SigHashCache} (hfresh : FreshCache sighashCache)
    (uses : List (CScript × UInt32)) (scriptCode : CScript) (nHashType : UInt32) :
    (signatureHash sha256 scriptCode tx nIn nHashType amount sigversion data
        (cacheAfter sha256 tx nIn amount sigversion data sighashCache uses)).map Prod.fst =
      some (if SingleOutOfRange tx nIn nHashType sigversion then uint256One
        else getHash sha256 (chainBytes sha256 tx nIn amount sigversion scriptCode nHashType ++
          serUInt32 nHashType)) := by
  obtain ⟨sighashCache', -, heq⟩ :=
    signatureHash_eq hdata hIn (cacheAfter_sound hdata hIn uses hfresh.sound) scriptCode nHashType
  rw [heq]
  rfl

end Binding

/-! ### Calls that share a cache -/

/-- A call of `SignatureHash` for a given input. -/
structure HashCall where
  scriptCode : CScript
  nHashType : UInt32
  data : Option PrecomputedTransactionData

section Calls

variable (sha256 : Bytes → Uint256) (tx : SpendingTx) (nIn : ℕ) (amount : CAmount)
  (sigversion : SigVersion)

def HashCall.run (call : HashCall) (sighashCache : Option SigHashCache) :
    Option (Uint256 × Option SigHashCache) :=
  signatureHash sha256 call.scriptCode tx nIn call.nHashType amount sigversion call.data
    sighashCache

/-- The digests of a sequence of calls, each with the cache that the one before has left; a call
whose assertion fails has none. -/
def digests : List HashCall → Option SigHashCache → List (Option Uint256)
  | [], _ => []
  | call :: calls, sighashCache =>
    match call.run sha256 tx nIn amount sigversion sighashCache with
    | some (digest, sighashCache) => some digest :: digests calls sighashCache
    | none => none :: digests calls sighashCache

variable {sha256 tx nIn amount sigversion}

/-- From a sound cache on, every call gives what it gives without one. -/
theorem digests_of_sound (hIn : nIn < tx.vin.length) :
    ∀ {calls : List HashCall} {sighashCache : Option SigHashCache},
      (∀ call ∈ calls, PrecomputedFor sha256 tx call.data) →
      CacheSound sha256 tx nIn amount sigversion sighashCache →
      digests sha256 tx nIn amount sigversion calls sighashCache =
        calls.map fun call => (call.run sha256 tx nIn amount sigversion none).map Prod.fst := by
  intro calls
  induction calls with
  | nil => exact fun _ _ => rfl
  | cons call calls ih =>
    intro sighashCache hdata hsound
    have hcall := hdata call List.mem_cons_self
    obtain ⟨cache', hsound', heq⟩ :=
      signatureHash_eq hcall hIn hsound call.scriptCode call.nHashType
    obtain ⟨_, -, hplain⟩ := signatureHash_eq hcall hIn (FreshCache.sound .unused) call.scriptCode
      call.nHashType
    have hrest := ih (fun call h => hdata call (List.mem_cons_of_mem _ h)) hsound'
    rw [digests, HashCall.run, heq, List.map_cons, HashCall.run, hplain]
    exact congrArg _ hrest

/-- An input that is not there stops every call at the assertion. -/
theorem digests_of_le (hIn : ¬ nIn < tx.vin.length) (calls : List HashCall)
    (sighashCache : Option SigHashCache) :
    digests sha256 tx nIn amount sigversion calls sighashCache =
      calls.map fun call => (call.run sha256 tx nIn amount sigversion none).map Prod.fst := by
  have hrun : ∀ (call : HashCall) (cache : Option SigHashCache),
      call.run sha256 tx nIn amount sigversion cache = none := fun _ _ => if_pos hIn
  induction calls with
  | nil => rfl
  | cons call calls ih => rw [digests, hrun, List.map_cons, hrun, ih, Option.map_none]

end Calls

/-- **The cache is transparent**: calls for one input that share it return what they return without
it. -/
theorem sighash_cache_transparent (sha256 : Bytes → Uint256) (tx : SpendingTx) (nIn : ℕ)
    (amount : CAmount) (sigversion : SigVersion) (calls : List HashCall)
    (hdata : ∀ call ∈ calls, PrecomputedFor sha256 tx call.data) :
    digests sha256 tx nIn amount sigversion calls (some .empty) =
      calls.map fun call => (call.run sha256 tx nIn amount sigversion none).map Prod.fst := by
  by_cases hIn : nIn < tx.vin.length
  · exact digests_of_sound hIn hdata (FreshCache.sound .empty)
  · exact digests_of_le hIn calls _

/-- Three calls for one input: the second finds the first one's writer under another hash type. -/
theorem sighash_cache_transparent_repeat :
    let sha256 : Bytes → Uint256 := fun bytes => BitVec.ofNat 256 bytes.length
    let tx : SpendingTx := ⟨2, [⟨⟨1, 0⟩, 0xffffffff, true⟩], [⟨5000, [0x51]⟩], 0⟩
    let calls : List HashCall := [⟨[0xac], 1, none⟩, ⟨[0xac], 0x41, none⟩, ⟨[0xac], 0x83, none⟩]
    digests sha256 tx 0 7 .witnessV0 calls (some .empty) =
      calls.map fun call => (call.run sha256 tx 0 7 .witnessV0 none).map Prod.fst :=
  sighash_cache_transparent _ _ 0 7 .witnessV0 _ (by
    intro call hcall
    simp only [List.mem_cons, List.not_mem_nil, or_false] at hcall
    obtain rfl | rfl | rfl := hcall <;> exact .absent)

/-! ### The digest -/

theorem uint256Bytes_injective : Function.Injective uint256Bytes :=
  Function.LeftInverse.injective uint256OfBytes_uint256Bytes

/-- Two different messages with one hash. -/
def Collides (sha256 : Bytes → Uint256) (x y : Bytes) : Prop := x ≠ y ∧ sha256 x = sha256 y

/-- Messages with one double hash collide, or their hashes do. -/
theorem collides_of_getHash {sha256 : Bytes → Uint256} {x y : Bytes} (hne : x ≠ y)
    (h : getHash sha256 x = getHash sha256 y) :
    Collides sha256 x y ∨ Collides sha256 (uint256Bytes (sha256 x)) (uint256Bytes (sha256 y)) := by
  by_cases hinner : sha256 x = sha256 y
  · exact .inl ⟨hne, hinner⟩
  · exact .inr ⟨fun hbytes => hinner (uint256Bytes_injective hbytes), h⟩

/-- `digest` is that of the chain: the double hash of the genesis hash and Bitcoin's preimage `p`,
and it is not Bitcoin's digest unless the hash collides at the two messages. -/
def BoundToChain (sha256 : Bytes → Uint256) (p : Bytes) (digest bitcoin : Uint256) : Prop :=
  digest = getHash sha256 (uint256Bytes opensyGenesisHash ++ p) ∧
  (digest = bitcoin →
    Collides sha256 (uint256Bytes opensyGenesisHash ++ p) p ∨
    Collides sha256 (uint256Bytes (sha256 (uint256Bytes opensyGenesisHash ++ p)))
      (uint256Bytes (sha256 p)))

/-- **Signature hashes are bound to the chain** whatever the cache of the input and the precomputed
hashes were used for before, if and only if the hash is not that of a legacy `SIGHASH_SINGLE`
without its output; for such a hash the digest is Bitcoin's. -/
theorem signature_hash_bound_to_chain (tx : SpendingTx) (nIn : ℕ) (hIn : nIn < tx.vin.length)
    (scriptCode : CScript) (nHashType : UInt32) (amount : CAmount) (sigversion : SigVersion) :
    ((∀ (sha256 : Bytes → Uint256) (data : Option PrecomputedTransactionData)
        (sighashCache : Option SigHashCache) (uses : List (CScript × UInt32)),
        PrecomputedFor sha256 tx data → FreshCache sighashCache →
        ∃ digest,
          (signatureHash sha256 scriptCode tx nIn nHashType amount sigversion data
            (cacheAfter sha256 tx nIn amount sigversion data sighashCache uses)).map Prod.fst =
              some digest ∧
          BoundToChain sha256 (bitcoinPreimage sha256 tx scriptCode nIn nHashType amount sigversion)
            digest (bitcoinDigest sha256 tx scriptCode nIn nHashType amount sigversion)) ↔
      ¬ SingleOutOfRange tx nIn nHashType sigversion) ∧
    (SingleOutOfRange tx nIn nHashType sigversion →
      ∀ (sha256 : Bytes → Uint256) (data : Option PrecomputedTransactionData)
        (sighashCache : Option SigHashCache) (uses : List (CScript × UInt32)),
        PrecomputedFor sha256 tx data → FreshCache sighashCache →
        (signatureHash sha256 scriptCode tx nIn nHashType amount sigversion data
          (cacheAfter sha256 tx nIn amount sigversion data sighashCache uses)).map Prod.fst =
          some (bitcoinDigest sha256 tx scriptCode nIn nHashType amount sigversion)) := by
  refine ⟨⟨fun hbound hsingle => ?_, fun hsingle sha256 data sighashCache uses hdata hfresh => ?_⟩,
    fun hsingle sha256 data sighashCache uses hdata hfresh => ?_⟩
  · -- a hash that is never one tells the early return apart
    obtain ⟨digest, hdigest, hchain, -⟩ := hbound (fun _ => 0) none none [] .absent .unused
    rw [signatureHash_after .absent hIn .unused, if_pos hsingle] at hdigest
    rw [← Option.some.inj hdigest] at hchain
    have hzero : uint256One ≠ 0 := by decide
    exact hzero hchain
  · refine ⟨_, signatureHash_after hdata hIn hfresh uses scriptCode nHashType, ?_⟩
    unfold BoundToChain bitcoinDigest
    rw [if_neg hsingle, if_neg hsingle, chainBytes, List.append_assoc]
    refine ⟨rfl, fun hsame => collides_of_getHash ?_ hsame⟩
    intro heq
    have hlen := congrArg List.length heq
    rw [List.length_append, uint256Bytes_length] at hlen
    exact absurd hlen (by simp)
  · rw [signatureHash_after hdata hIn hfresh, if_pos hsingle, bitcoinDigest, if_pos hsingle]

/-- Two inputs and one output. -/
def twoToOne : SpendingTx where
  version := 2
  vin := [⟨⟨1, 0⟩, 0xffffffff, false⟩, ⟨⟨2, 0⟩, 0xffffffff, false⟩]
  vout := [⟨5000, [0x51]⟩]
  nLockTime := 0

/-- The second input with `SIGHASH_ALL`. -/
theorem signature_hash_bound_to_chain_all :
    1 < twoToOne.vin.length ∧ ¬ SingleOutOfRange twoToOne 1 1 .base ∧
    ∀ sha256 : Bytes → Uint256, ∃ digest,
      (signatureHash sha256 [0xac] twoToOne 1 1 0 .base none none).map Prod.fst = some digest ∧
      BoundToChain sha256 (bitcoinPreimage sha256 twoToOne [0xac] 1 1 0 .base) digest
        (bitcoinDigest sha256 twoToOne [0xac] 1 1 0 .base) :=
  ⟨by decide, by decide, fun sha256 =>
    (signature_hash_bound_to_chain twoToOne 1 (by decide) [0xac] 1 0 .base).1.mpr (by decide)
      sha256 none none [] .absent .unused⟩

/-- The second input with `SIGHASH_SINGLE` (3): the digest is one, as on Bitcoin, whatever the hash
function. -/
theorem single_without_output_unbound :
    (∀ sha256 : Bytes → Uint256,
      (signatureHash sha256 [0xac] twoToOne 1 3 0 .base none none).map Prod.fst = some uint256One ∧
      bitcoinDigest sha256 twoToOne [0xac] 1 3 0 .base = uint256One) ∧
    ¬ ∀ (sha256 : Bytes → Uint256), ∃ digest,
      (signatureHash sha256 [0xac] twoToOne 1 3 0 .base none none).map Prod.fst = some digest ∧
      BoundToChain sha256 (bitcoinPreimage sha256 twoToOne [0xac] 1 3 0 .base) digest
        (bitcoinDigest sha256 twoToOne [0xac] 1 3 0 .base) := by
  refine ⟨fun sha256 => ⟨rfl, rfl⟩, fun hbound => ?_⟩
  obtain ⟨digest, hdigest, hchain, -⟩ := hbound fun _ => 0
  have hone : uint256One = digest := Option.some.inj hdigest
  have hzero : uint256One ≠ 0 := by decide
  exact hzero (hone.trans hchain)

end OpenSY.Script
