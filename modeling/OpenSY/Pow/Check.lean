import OpenSY.Pow.Work

/-!
# The proof-of-work checks

Four checks look at a header's proof of work: the full one, made when a header is accepted at a
known height, the weaker one made when the block index is read back from disk, and two without a
height. The hash functions are parameters.

* `randomX_key_selection` — which block is the RandomX key of a height;
* `accepted_relays_and_reloads` — a header that passes the full check passes the weaker ones.
-/

namespace OpenSY.Pow

open OpenSY.Chain OpenSY.Consensus

/-- The three hash functions of a header.  RandomX takes a key, Argon2id its cost parameters. -/
structure PowHash where
  getHash : CBlockHeader → Uint256
  calculateRandomXHash : CBlockHeader → Uint256 → Uint256
  calculateArgon2Hash : CBlockHeader → ℕ → ℕ → ℕ → Uint256

section Checks

variable (hashes : PowHash) (params : Params)

/-- Whether a hash meets a target that could be derived. -/
def meetsTarget (hash : Uint256) : Option ℕ → Bool
  | none => false
  | some bnTarget => hash.toNat ≤ bnTarget

/-- The check without a height: the ordinary limit first, then the one of the bootstrap phase. -/
def checkProofOfWorkImpl (hash : Uint256) (nBits : BitVec 32) : Bool :=
  match deriveTarget nBits params.powLimit with
  | some bnTarget => meetsTarget hash (some bnTarget)
  | none =>
    if params.powLimitBootstrap ≠ 0 then
      meetsTarget hash (deriveTarget nBits params.powLimitBootstrap)
    else false

def checkProofOfWork (hash : Uint256) (nBits : BitVec 32) : Bool :=
  checkProofOfWorkImpl params hash nBits

/-- The limit that the check at a height applies. -/
def checkedPowLimit (height : ℤ) : Uint256 :=
  if params.nBootstrapEndHeight ≥ 0 ∧ height ≥ 0 ∧ height ≤ params.nBootstrapEndHeight then
    params.powLimitBootstrap
  else params.getRandomXPowLimit height

/-- The check at a height. -/
def checkProofOfWorkImplAt (hash : Uint256) (nBits : BitVec 32) (height : ℤ) : Bool :=
  meetsTarget hash (deriveTarget nBits (checkedPowLimit params height))

/-- Walk back to the key height; there may be no block that low. -/
def keyBlockWalk (keyHeight : ℤ) : CBlockIndex → Option CBlockIndex
  | .genesis header => if 0 > keyHeight then none else some (.genesis header)
  | .child header pprev =>
    if (pprev.nHeight : ℤ) + 1 > keyHeight then keyBlockWalk keyHeight pprev
    else some (.child header pprev)

/-- The RandomX key at a height, null if the key block is missing. -/
def getRandomXKeyBlockHash (height : ℤ) (pindex : CBlockIndex) : Uint256 :=
  let keyHeight := params.getRandomXKeyBlockHeight height
  let keyHeight := if keyHeight < 0 then 0 else keyHeight
  match keyBlockWalk keyHeight pindex with
  | none => 0
  | some keyBlock => if keyBlock.nHeight ≠ keyHeight then 0 else hashes.getHash keyBlock.header

/-- The full check. -/
def checkProofOfWorkAtHeight (header : CBlockHeader) (height : ℤ) (pindex : CBlockIndex) : Bool :=
  match params.getPowAlgorithm height with
  | .argon2id =>
    let argon2Hash := hashes.calculateArgon2Hash header params.nArgon2MemoryCost
      params.nArgon2TimeCost params.nArgon2Parallelism
    checkProofOfWorkImplAt params argon2Hash header.nBits height
  | .randomx =>
    let keyBlockHash := getRandomXKeyBlockHash hashes params height pindex
    if keyBlockHash = 0 then false
    else
      checkProofOfWorkImplAt params (hashes.calculateRandomXHash header keyBlockHash) header.nBits
        height
  | .sha256d => checkProofOfWork params (hashes.getHash header) header.nBits

/-- The check made when the block index is loaded: for the memory-hard algorithms the range of
`nBits` only. -/
def checkProofOfWorkForBlockIndex (header : CBlockHeader) (height : ℤ) : Bool :=
  match params.getPowAlgorithm height with
  | .argon2id | .randomx =>
    (deriveTarget header.nBits (if params.isBootstrap height then params.powLimitBootstrap
      else params.getActivePowLimit height)).isSome
  | .sha256d =>
    if params.isBootstrap height then
      meetsTarget (hashes.getHash header) (deriveTarget header.nBits params.powLimitBootstrap)
    else checkProofOfWork params (hashes.getHash header) header.nBits

/-- The check of a header received from a peer, whose height is not known. -/
def mayHaveProofOfWork (header : CBlockHeader) : Bool :=
  if checkProofOfWork params (hashes.getHash header) header.nBits then true
  else
    match deriveTarget header.nBits params.powLimitRandomX with
    | some _ => true
    | none =>
      if params.powLimitBootstrap ≠ 0 then
        (deriveTarget header.nBits params.powLimitBootstrap).isSome
      else false

def hasValidProofOfWork (headers : List CBlockHeader) : Bool :=
  headers.all (mayHaveProofOfWork hashes params)

end Checks

/-! ### The key block -/

section KeyBlock

variable {params : Params}

theorem keyBlockWalk_chainOf (f : ℕ → CBlockHeader) {k n : ℕ} (h : k ≤ n) :
    keyBlockWalk k (CBlockIndex.chainOf f n) = some (CBlockIndex.chainOf f k) := by
  induction n with
  | zero =>
    obtain rfl : k = 0 := Nat.le_zero.mp h
    rfl
  | succ n ih =>
    show (if ((CBlockIndex.chainOf f n).nHeight : ℤ) + 1 > k then _ else _) = _
    rw [CBlockIndex.nHeight_chainOf]
    by_cases hk : k ≤ n
    · rw [if_pos (by omega), ih hk]
    · rw [if_neg (by omega), show k = n + 1 by omega]
      rfl

/-- From the second interval on the key lies one to two intervals back; in the first two it is the
genesis block. -/
theorem getRandomXKeyBlockHeight_eq (params : Params) {h : ℤ} (hh : 0 ≤ h) :
    params.getRandomXKeyBlockHeight h = if params.nRandomXKeyBlockInterval ≤ h then
      h - h % params.nRandomXKeyBlockInterval - params.nRandomXKeyBlockInterval else 0 := by
  have hpos := params.interval_pos
  have hdiv := Int.mul_ediv_add_emod h params.nRandomXKeyBlockInterval
  have hmod := Int.emod_nonneg h hpos.ne'
  have hlt := Int.emod_lt_of_pos h hpos
  simp only [Params.getRandomXKeyBlockHeight]
  rw [Int.tdiv_eq_ediv_of_nonneg hh, Int.mul_comm,
    show params.nRandomXKeyBlockInterval * (h / params.nRandomXKeyBlockInterval) =
      h - h % params.nRandomXKeyBlockInterval by omega]
  by_cases hle : params.nRandomXKeyBlockInterval ≤ h
  · -- at least one whole interval fits below `h`
    have hfloor : params.nRandomXKeyBlockInterval ≤ h - h % params.nRandomXKeyBlockInterval := by
      have hq : 1 ≤ h / params.nRandomXKeyBlockInterval :=
        (Int.le_ediv_iff_mul_le hpos).mpr (by omega)
      have hmul : params.nRandomXKeyBlockInterval * 1 ≤
          params.nRandomXKeyBlockInterval * (h / params.nRandomXKeyBlockInterval) :=
        Int.mul_le_mul_of_nonneg_left hq hpos.le
      omega
    rw [if_pos hle, if_pos (by omega)]
  · rw [if_neg hle, Int.emod_eq_of_lt hh (by omega), if_neg (by omega)]

/-- Chains that share a block share what lies below it. -/
theorem getAncestor_of_shared {pindex pindex' : CBlockIndex} {j k : ℤ} (hj : 0 ≤ j) (hjk : j ≤ k)
    (hk : k ≤ pindex.nHeight ∧ k ≤ pindex'.nHeight)
    (hshare : pindex'.getAncestor k = pindex.getAncestor k) :
    pindex'.getAncestor j = pindex.getAncestor j := by
  obtain ⟨f, hf⟩ := CBlockIndex.exists_chainOf pindex
  obtain ⟨g, hg⟩ := CBlockIndex.exists_chainOf pindex'
  obtain ⟨i, rfl⟩ := Int.eq_ofNat_of_zero_le hj
  obtain ⟨l, rfl⟩ := Int.eq_ofNat_of_zero_le (hj.trans hjk)
  have hbase : CBlockIndex.chainOf g l = CBlockIndex.chainOf f l := by
    rw [hf, hg, CBlockIndex.getAncestor_chainOf _ (by omega),
      CBlockIndex.getAncestor_chainOf _ (by omega)] at hshare
    exact Option.some.inj hshare
  have hwalk : ∀ (e : ℕ → CBlockHeader) (n : ℕ), l ≤ n →
      (CBlockIndex.chainOf e n).getAncestor (i : ℤ) =
        (CBlockIndex.chainOf e l).getAncestor (i : ℤ) := by
    intro e n hn
    rw [CBlockIndex.getAncestor_chainOf _ (by omega), CBlockIndex.getAncestor_chainOf _ (by omega)]
  rw [hf, hg, hwalk g _ (by omega), hwalk f _ (by omega), hbase]

theorem getRandomXKeyBlockHeight_dvd (params : Params) {h : ℤ} (hh : 0 ≤ h) :
    params.nRandomXKeyBlockInterval ∣ params.getRandomXKeyBlockHeight h := by
  rw [getRandomXKeyBlockHeight_eq params hh]
  split_ifs
  · exact Int.dvd_sub Int.dvd_self_sub_emod (dvd_refl _)
  · exact dvd_zero _

theorem getRandomXKeyBlockHeight_bounds (params : Params) {h : ℤ} (hh : 1 ≤ h) :
    0 ≤ params.getRandomXKeyBlockHeight h ∧ params.getRandomXKeyBlockHeight h < h ∧
      (params.nRandomXKeyBlockInterval ≤ h →
        params.nRandomXKeyBlockInterval ≤ h - params.getRandomXKeyBlockHeight h ∧
        h - params.getRandomXKeyBlockHeight h ≤ 2 * params.nRandomXKeyBlockInterval - 1) := by
  have hpos := params.interval_pos
  have hmod := Int.emod_nonneg h hpos.ne'
  have hlt := Int.emod_lt_of_pos h hpos
  refine ⟨?_, ?_, fun hle => ?_⟩
  · simp only [Params.getRandomXKeyBlockHeight]
    split_ifs <;> omega
  · rw [getRandomXKeyBlockHeight_eq params (by omega)]
    split_ifs <;> omega
  · rw [getRandomXKeyBlockHeight_eq params (by omega), if_pos hle]
    omega

/-- The key height depends on the interval that a height lies in, only. -/
theorem getRandomXKeyBlockHeight_congr (params : Params) {h h' : ℤ} (hh : 0 ≤ h) (hh' : 0 ≤ h')
    (hsame : h' / params.nRandomXKeyBlockInterval = h / params.nRandomXKeyBlockInterval) :
    params.getRandomXKeyBlockHeight h' = params.getRandomXKeyBlockHeight h := by
  simp only [Params.getRandomXKeyBlockHeight, Int.tdiv_eq_ediv_of_nonneg hh,
    Int.tdiv_eq_ediv_of_nonneg hh', hsame]

/-- **The key of a height** is the hash of the block at the key height. -/
theorem getRandomXKeyBlockHash_eq (params : Params) (hashes : PowHash) {h : ℤ} (hh : 1 ≤ h)
    {parent : CBlockIndex} (hparent : (parent.nHeight : ℤ) = h - 1) :
    ∃ keyBlock, parent.getAncestor (params.getRandomXKeyBlockHeight h) = some keyBlock ∧
      getRandomXKeyBlockHash hashes params h parent = hashes.getHash keyBlock.header := by
  obtain ⟨hnonneg, hbelow, -⟩ := getRandomXKeyBlockHeight_bounds params hh
  obtain ⟨k, hk⟩ := Int.eq_ofNat_of_zero_le hnonneg
  obtain ⟨f, hf⟩ := CBlockIndex.exists_chainOf parent
  have hkn : k ≤ parent.nHeight := by omega
  refine ⟨CBlockIndex.chainOf f k, ?_, ?_⟩
  · rw [hk, hf]
    exact CBlockIndex.getAncestor_chainOf f hkn
  · have hwalk : keyBlockWalk (k : ℤ) parent = some (CBlockIndex.chainOf f k) := by
      rw [hf]
      exact keyBlockWalk_chainOf f hkn
    have hclamp : (if params.getRandomXKeyBlockHeight h < 0 then 0
        else params.getRandomXKeyBlockHeight h) = (k : ℤ) := by
      rw [if_neg (by omega), hk]
    simp only [getRandomXKeyBlockHash, hclamp, hwalk]
    rw [if_neg (by simp)]

end KeyBlock

/-- **Which block is the RandomX key.**  At every height above the genesis block the key is the hash
of the ancestor at the key height, a multiple of the interval below the height.  It is the same for
all heights of an aligned interval, from the second interval on it lies between one interval and two
back, and it only depends on the chain up to it. -/
theorem randomX_key_selection (hashes : PowHash) (params : Params) {h : ℤ} (hh : 1 ≤ h)
    {parent : CBlockIndex} (hparent : (parent.nHeight : ℤ) = h - 1) :
    (∃ keyBlock, parent.getAncestor (params.getRandomXKeyBlockHeight h) = some keyBlock ∧
      getRandomXKeyBlockHash hashes params h parent = hashes.getHash keyBlock.header) ∧
    params.nRandomXKeyBlockInterval ∣ params.getRandomXKeyBlockHeight h ∧
    0 ≤ params.getRandomXKeyBlockHeight h ∧ params.getRandomXKeyBlockHeight h < h ∧
    (∀ start i, params.nRandomXKeyBlockInterval ∣ start → 0 ≤ start → start ≤ h →
      h < start + params.nRandomXKeyBlockInterval → 0 ≤ i → i < params.nRandomXKeyBlockInterval →
      params.getRandomXKeyBlockHeight (start + i) = params.getRandomXKeyBlockHeight h) ∧
    (params.nRandomXKeyBlockInterval ≤ h →
      params.nRandomXKeyBlockInterval ≤ h - params.getRandomXKeyBlockHeight h ∧
      h - params.getRandomXKeyBlockHeight h ≤ 2 * params.nRandomXKeyBlockInterval - 1) ∧
    (∀ parent' : CBlockIndex, (parent'.nHeight : ℤ) = h - 1 →
      parent'.getAncestor (params.getRandomXKeyBlockHeight h) =
        parent.getAncestor (params.getRandomXKeyBlockHeight h) →
      getRandomXKeyBlockHash hashes params h parent' =
        getRandomXKeyBlockHash hashes params h parent) ∧
    (params.nRandomXKeyBlockInterval ≤ h → ∀ parent' : CBlockIndex,
      (parent'.nHeight : ℤ) = h - 1 →
      parent'.getAncestor (h - params.nRandomXKeyBlockInterval) =
        parent.getAncestor (h - params.nRandomXKeyBlockInterval) →
      getRandomXKeyBlockHash hashes params h parent' =
        getRandomXKeyBlockHash hashes params h parent) := by
  have hpos := params.interval_pos
  obtain ⟨hnonneg, hbelow, hback⟩ := getRandomXKeyBlockHeight_bounds params hh
  have hbranch : ∀ parent' : CBlockIndex, (parent'.nHeight : ℤ) = h - 1 →
      parent'.getAncestor (params.getRandomXKeyBlockHeight h) =
        parent.getAncestor (params.getRandomXKeyBlockHeight h) →
      getRandomXKeyBlockHash hashes params h parent' =
        getRandomXKeyBlockHash hashes params h parent := by
    intro parent' hparent' hshare
    obtain ⟨keyBlock, hkey, hhash⟩ := getRandomXKeyBlockHash_eq params hashes hh hparent
    obtain ⟨keyBlock', hkey', hhash'⟩ :=
      getRandomXKeyBlockHash_eq params hashes hh hparent'
    rw [hkey, hkey', Option.some.injEq] at hshare
    rw [hhash, hhash', hshare]
  refine ⟨getRandomXKeyBlockHash_eq params hashes hh hparent,
    getRandomXKeyBlockHeight_dvd params (by omega), hnonneg, hbelow, ?_, hback, hbranch, ?_⟩
  · intro start i hdvd hstart hle hlt hi hi'
    refine getRandomXKeyBlockHeight_congr params (by omega) (by omega) ?_
    obtain ⟨q, rfl⟩ := hdvd
    have haligned : ∀ j, 0 ≤ j → j < params.nRandomXKeyBlockInterval →
        (params.nRandomXKeyBlockInterval * q + j) / params.nRandomXKeyBlockInterval = q := by
      intro j hj hj'
      rw [add_comm, Int.add_mul_ediv_left _ _ hpos.ne', Int.ediv_eq_zero_of_lt hj hj', zero_add]
    have hheight := haligned (h - params.nRandomXKeyBlockInterval * q) (by omega) (by omega)
    rw [add_sub_cancel] at hheight
    rw [haligned i hi hi', hheight]
  · intro hle parent' hparent' hshare
    -- blocks that agree at one height agree below it
    obtain ⟨hlow, -⟩ := hback hle
    exact hbranch parent' hparent' (getAncestor_of_shared (by omega) (by omega) (by omega) hshare)

namespace Sample

/-- Headers with their height for a timestamp, and others above the height 64. -/
def numbered (k : ℕ) : CBlockHeader := ⟨4, 0, 0, k, 0x207fffff, 0⟩

def forked (k : ℕ) : CBlockHeader := if k ≤ 64 then numbered k else numbered (k + 1000)

/-- The hash of a header is its timestamp. -/
def timeHash : PowHash :=
  ⟨fun header => BitVec.ofNat 256 header.nTime, fun _ _ => 0, fun _ _ _ _ => 0⟩

end Sample

open Sample in
/-- At the height 100 of the main network the key is the block 64, on both sides of a fork above it.
-/
theorem randomX_key_hundred :
    (((CBlockIndex.chainOf numbered 99).nHeight : ℤ) = 100 - 1) ∧
    getRandomXKeyBlockHash timeHash mainParams 100 (CBlockIndex.chainOf numbered 99) = 64 ∧
    (∀ i, 0 ≤ i → i < 32 → mainParams.getRandomXKeyBlockHeight (96 + i) = 64) ∧
    CBlockIndex.chainOf forked 99 ≠ CBlockIndex.chainOf numbered 99 ∧
    getRandomXKeyBlockHash timeHash mainParams 100 (CBlockIndex.chainOf forked 99) = 64 := by
  have hheight : mainParams.getRandomXKeyBlockHeight 100 = (64 : ℕ) := by decide
  have hparent : ((CBlockIndex.chainOf numbered 99).nHeight : ℤ) = 100 - 1 := by
    rw [CBlockIndex.nHeight_chainOf]
    rfl
  have hparent' : ((CBlockIndex.chainOf forked 99).nHeight : ℤ) = 100 - 1 := by
    rw [CBlockIndex.nHeight_chainOf]
    rfl
  obtain ⟨⟨keyBlock, hancestor, hkey⟩, -, -, -, hsame, -, hbranch, -⟩ :=
    randomX_key_selection timeHash mainParams (h := 100) (by decide) hparent
  rw [hheight] at hancestor hsame hbranch
  rw [CBlockIndex.getAncestor_chainOf numbered (show 64 ≤ 99 by decide)] at hancestor
  obtain rfl := Option.some.inj hancestor
  have hshared : CBlockIndex.chainOf forked 64 = CBlockIndex.chainOf numbered 64 := rfl
  refine ⟨hparent, hkey, fun i hi hi' => ?_, fun heq => ?_, ?_⟩
  · exact hsame 96 i (by decide) (by decide) (by decide) (by decide) hi hi'
  · cases heq
  · rw [hbranch _ hparent' ?_, hkey]
    · rfl
    · rw [CBlockIndex.getAncestor_chainOf forked (show 64 ≤ 99 by decide),
        CBlockIndex.getAncestor_chainOf numbered (show 64 ≤ 99 by decide), hshared]

/-! ### Relaying and reloading -/

section Relay

variable {hashes : PowHash} {params : Params} {header : CBlockHeader} {h : ℤ}

theorem meetsTarget_isSome {hash : Uint256} {target : Option ℕ}
    (h : meetsTarget hash target = true) : target.isSome = true := by
  cases target with
  | none => simp [meetsTarget] at h
  | some target => rfl

/-- Above the genesis block the two ways to test for the bootstrap phase agree. -/
theorem checkedPowLimit_eq (hh : 1 ≤ h) : checkedPowLimit params h =
    if params.isBootstrap h then params.powLimitBootstrap else params.getActivePowLimit h := by
  have hnonneg : h ≥ 0 := by omega
  simp [checkedPowLimit, Params.isBootstrap, Params.getRandomXPowLimit, hnonneg]

/-- The check at a height passes only if `nBits` is in range there. -/
theorem deriveTarget_of_checkAt {hash : Uint256} {nBits : BitVec 32} (hh : 1 ≤ h)
    (hcheck : checkProofOfWorkImplAt params hash nBits h = true) :
    (deriveTarget nBits (if params.isBootstrap h then params.powLimitBootstrap
      else params.getActivePowLimit h)).isSome = true := by
  rw [checkProofOfWorkImplAt, checkedPowLimit_eq hh] at hcheck
  exact meetsTarget_isSome hcheck

/-- `nBits` in range of the bootstrap or the RandomX limit is enough for a header from a peer. -/
theorem mayHave_of_target {limit : Uint256}
    (hlimit : limit = params.powLimitBootstrap ∨ limit ≤ params.powLimitRandomX)
    (htarget : (deriveTarget header.nBits limit).isSome = true) :
    mayHaveProofOfWork hashes params header = true := by
  obtain ⟨target, htarget⟩ := Option.isSome_iff_exists.mp htarget
  rw [mayHaveProofOfWork]
  by_cases hsha : checkProofOfWork params (hashes.getHash header) header.nBits = true
  · rw [if_pos hsha]
  · rw [if_neg hsha]
    cases hrx : deriveTarget header.nBits params.powLimitRandomX with
    | some t => rfl
    | none =>
      rcases hlimit with rfl | hle
      · have hset : params.powLimitBootstrap ≠ 0 := by
          intro hnull
          rw [hnull, deriveTarget_zero] at htarget
          simp at htarget
        simp only [if_pos hset, htarget, Option.isSome_some]
      · rw [deriveTarget_mono hle htarget] at hrx
        simp at hrx

/-- Under the stated relations between the limits no phase has a limit above the RandomX limit
outside the bootstrap phase and the first algorithm. -/
theorem getActivePowLimit_le_randomX (hrx : params.powLimitRandomX ≠ 0)
    (hargon : params.powLimitArgon2 = 0 ∨ params.powLimitArgon2 ≤ params.powLimitRandomX)
    (halg : params.getPowAlgorithm h ≠ .sha256d) :
    params.getActivePowLimit h ≤ params.powLimitRandomX := by
  rw [Params.getActivePowLimit]
  cases hcase : params.getPowAlgorithm h with
  | argon2id =>
    show (if params.powLimitArgon2 ≠ 0 then _ else if params.powLimitRandomX ≠ 0 then _ else _) ≤ _
    rw [if_pos hrx]
    split_ifs with hset
    · exact hargon.resolve_left hset
    · exact le_rfl
  | randomx =>
    show (if params.powLimitRandomX = 0 then _ else _) ≤ _
    rw [if_neg hrx]
  | sha256d => exact absurd hcase halg

/-- The memory-hard algorithms: both weaker checks look at the range of `nBits` alone. -/
theorem relays_of_checkAt (hrx : params.powLimitRandomX ≠ 0)
    (hargon : params.powLimitArgon2 = 0 ∨ params.powLimitArgon2 ≤ params.powLimitRandomX)
    (halg : params.getPowAlgorithm h ≠ .sha256d) (hh : 1 ≤ h) {hash : Uint256}
    (hcheck : checkProofOfWorkImplAt params hash header.nBits h = true) :
    checkProofOfWorkForBlockIndex hashes params header h = true ∧
      mayHaveProofOfWork hashes params header = true := by
  have htarget := deriveTarget_of_checkAt hh hcheck
  refine ⟨?_, mayHave_of_target ?_ htarget⟩
  · rw [checkProofOfWorkForBlockIndex]
    cases hcase : params.getPowAlgorithm h with
    | argon2id => exact htarget
    | randomx => exact htarget
    | sha256d => exact absurd hcase halg
  · split_ifs
    · exact Or.inl rfl
    · exact Or.inr (getActivePowLimit_le_randomX hrx hargon halg)

/-- The first algorithm: the check is the same, save for the limit of the bootstrap phase. -/
theorem relays_of_sha256d
    (hboot : params.nBootstrapEndHeight ≥ 0 → params.powLimit ≤ params.powLimitBootstrap)
    (halg : params.getPowAlgorithm h = .sha256d)
    (hcheck : checkProofOfWork params (hashes.getHash header) header.nBits = true) :
    checkProofOfWorkForBlockIndex hashes params header h = true ∧
      mayHaveProofOfWork hashes params header = true := by
  refine ⟨?_, by rw [mayHaveProofOfWork, if_pos hcheck]⟩
  rw [checkProofOfWorkForBlockIndex, halg]
  show (if params.isBootstrap h then _ else _) = true
  split_ifs with hphase
  · have hle : params.powLimit ≤ params.powLimitBootstrap := by
      simp only [Params.isBootstrap, Bool.and_eq_true, decide_eq_true_eq] at hphase
      exact hboot hphase.1
    rw [checkProofOfWork, checkProofOfWorkImpl] at hcheck
    cases hordinary : deriveTarget header.nBits params.powLimit with
    | some target =>
      rw [hordinary] at hcheck
      rw [deriveTarget_mono hle hordinary]
      exact hcheck
    | none =>
      simp only [hordinary] at hcheck
      split_ifs at hcheck with hset
      exact hcheck
  · exact hcheck

end Relay

/-- **A header that was accepted can be reloaded and relayed.** -/
theorem accepted_relays_and_reloads (hashes : PowHash) {params : Params}
    (hrx : params.powLimitRandomX ≠ 0)
    (hboot : params.nBootstrapEndHeight ≥ 0 → params.powLimit ≤ params.powLimitBootstrap)
    (hargon : params.powLimitArgon2 = 0 ∨ params.powLimitArgon2 ≤ params.powLimitRandomX) :
    (∀ (header : CBlockHeader) (h : ℤ) (parent : CBlockIndex), 1 ≤ h →
      checkProofOfWorkAtHeight hashes params header h parent = true →
      checkProofOfWorkForBlockIndex hashes params header h = true) ∧
    (∀ headers : List CBlockHeader, (∀ header ∈ headers, ∃ (h : ℤ) (parent : CBlockIndex), 1 ≤ h ∧
      checkProofOfWorkAtHeight hashes params header h parent = true) →
      hasValidProofOfWork hashes params headers = true) := by
  have hboth : ∀ (header : CBlockHeader) (h : ℤ) (parent : CBlockIndex), 1 ≤ h →
      checkProofOfWorkAtHeight hashes params header h parent = true →
      checkProofOfWorkForBlockIndex hashes params header h = true ∧
        mayHaveProofOfWork hashes params header = true := by
    intro header h parent hh hcheck
    rw [checkProofOfWorkAtHeight] at hcheck
    cases halg : params.getPowAlgorithm h with
    | argon2id =>
      rw [halg] at hcheck
      exact relays_of_checkAt hrx hargon (by simp [halg]) hh hcheck
    | randomx =>
      rw [halg] at hcheck
      simp only at hcheck
      split_ifs at hcheck
      exact relays_of_checkAt hrx hargon (by simp [halg]) hh hcheck
    | sha256d =>
      rw [halg] at hcheck
      exact relays_of_sha256d hboot halg hcheck
  refine ⟨fun header h parent hh hcheck => (hboth header h parent hh hcheck).1, ?_⟩
  intro headers hall
  rw [hasValidProofOfWork, List.all_eq_true]
  intro header hmem
  obtain ⟨h, parent, hh, hcheck⟩ := hall header hmem
  exact (hboth header h parent hh hcheck).2

/-- A header of the bootstrap phase on the main network. -/
theorem accepted_relays_and_reloads_bootstrap :
    checkProofOfWorkAtHeight ⟨fun _ => 5, fun _ _ => 0, fun _ _ _ _ => 0⟩ mainParams
      ⟨1, 0, 0, 0, 0x207fffff, 0⟩ 1 (.genesis ⟨1, 0, 0, 0, 0x1e00ffff, 0⟩) = true ∧
    checkProofOfWorkForBlockIndex ⟨fun _ => 5, fun _ _ => 0, fun _ _ _ _ => 0⟩ mainParams
      ⟨1, 0, 0, 0, 0x207fffff, 0⟩ 1 = true ∧
    hasValidProofOfWork ⟨fun _ => 5, fun _ _ => 0, fun _ _ _ _ => 0⟩ mainParams
      [⟨1, 0, 0, 0, 0x207fffff, 0⟩] = true := by
  have hcheck : checkProofOfWorkAtHeight ⟨fun _ => 5, fun _ _ => 0, fun _ _ _ _ => 0⟩ mainParams
      ⟨1, 0, 0, 0, 0x207fffff, 0⟩ 1 (.genesis ⟨1, 0, 0, 0, 0x1e00ffff, 0⟩) = true := by
    decide +kernel
  obtain ⟨hreload, hrelay⟩ := @accepted_relays_and_reloads
    ⟨fun _ => 5, fun _ _ => 0, fun _ _ _ _ => 0⟩ mainParams (by decide) (by decide) (by decide)
  refine ⟨hcheck, hreload _ _ _ le_rfl hcheck, hrelay _ fun header hmem => ?_⟩
  obtain rfl := List.mem_singleton.mp hmem
  exact ⟨1, _, le_rfl, hcheck⟩

end OpenSY.Pow
