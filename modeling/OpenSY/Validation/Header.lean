import OpenSY.Pow.Check

/-!
# Header rules that depend on the chain

`contextualCheckBlockHeader` decides whether a header may follow its parent.  The part that looks at
`nBits` and the proof of work stands on its own in `checkHeaderWork`.

* `checkHeaderWork_ok_iff` — what a header that passes satisfies;
* `difficulty_enforced_iff` — after the bootstrap phase the difficulty rules bind every header
  exactly as long as the emergency algorithm is not active.
-/

namespace OpenSY.Validation

open OpenSY.Chain OpenSY.Consensus OpenSY.Pow

inductive HeaderReject where
  /-- `bad-diffbits` -/
  | badDiffbits
  /-- `high-hash-randomx` -/
  | highHashRandomX
  /-- `high-hash` -/
  | highHash
  /-- `time-too-old` -/
  | timeTooOld
  /-- `time-timewarp-attack` -/
  | timewarpAttack
  /-- `time-too-new` -/
  | timeTooNew
  /-- `bad-version` -/
  | badVersion (nVersion : ℤ)
  deriving DecidableEq

def maxTimewarp : ℤ := 120

def maxFutureBlockTime : ℤ := 2 * 60 * 60

section Rules

variable (hashes : PowHash) (params : Params)

/-- The rules on `nBits` and the proof of work.  Wrong `nBits` are let through where RandomX is not
active and in the bootstrap phase. -/
def checkHeaderWork (block : CBlockHeader) (pindexPrev : CBlockIndex) : Except HeaderReject Unit :=
  let nHeight : ℤ := pindexPrev.nHeight + 1
  if block.nBits ≠ getNextWorkRequired params pindexPrev block ∧
      params.isRandomXActive nHeight = true ∧ params.isBootstrap nHeight = false then
    .error .badDiffbits
  else if checkProofOfWorkAtHeight hashes params block nHeight pindexPrev then .ok ()
  else if params.isRandomXActive nHeight then .error .highHashRandomX
  else .error .highHash

/-- How far ahead of the clock a block may be. -/
def maxFutureTime (nHeight : ℤ) : ℤ :=
  if params.nBootstrapEndHeight ≥ 0 ∧ nHeight ≤ params.nBootstrapEndHeight + 2016 then
    365 * 24 * 60 * 60
  else maxFutureBlockTime

/-- The rules on the timestamp and the version. -/
def checkHeaderTime (now : ℤ) (block : CBlockHeader) (pindexPrev : CBlockIndex) :
    Except HeaderReject Unit :=
  let nHeight : ℤ := pindexPrev.nHeight + 1
  if (block.nTime : ℤ) ≤ pindexPrev.getMedianTimePast then .error .timeTooOld
  else if params.enforceBIP94 = true ∧ nHeight % params.difficultyAdjustmentInterval = 0 ∧
      (block.nTime : ℤ) < pindexPrev.getBlockTime - maxTimewarp then .error .timewarpAttack
  else if (block.nTime : ℤ) > now + maxFutureTime params nHeight then .error .timeTooNew
  else if (block.nVersion < 2 ∧ nHeight ≥ params.BIP34Height) ∨
      (block.nVersion < 3 ∧ nHeight ≥ params.BIP66Height) ∨
      (block.nVersion < 4 ∧ nHeight ≥ params.BIP65Height) then .error (.badVersion block.nVersion)
  else .ok ()

def contextualCheckBlockHeader (now : ℤ) (block : CBlockHeader) (pindexPrev : CBlockIndex)
    (checkPow : Bool) : Except HeaderReject Unit :=
  match if checkPow then checkHeaderWork hashes params block pindexPrev else .ok () with
  | .error reject => .error reject
  | .ok () => checkHeaderTime params now block pindexPrev

/-- The hash of a header under the algorithm of its height. -/
def powHashAt (block : CBlockHeader) (height : ℤ) (pindexPrev : CBlockIndex) : Uint256 :=
  match params.getPowAlgorithm height with
  | .argon2id => hashes.calculateArgon2Hash block params.nArgon2MemoryCost params.nArgon2TimeCost
      params.nArgon2Parallelism
  | .randomx =>
    hashes.calculateRandomXHash block (getRandomXKeyBlockHash hashes params height pindexPrev)
  | .sha256d => hashes.getHash block

end Rules

section Enforcement

variable {hashes : PowHash} {params : Params} {block : CBlockHeader} {pindexPrev : CBlockIndex}

theorem checkHeaderWork_ok_iff : checkHeaderWork hashes params block pindexPrev = .ok () ↔
    (params.isRandomXActive (pindexPrev.nHeight + 1) = true →
      params.isBootstrap (pindexPrev.nHeight + 1) = false →
      block.nBits = getNextWorkRequired params pindexPrev block) ∧
    checkProofOfWorkAtHeight hashes params block (pindexPrev.nHeight + 1) pindexPrev = true := by
  simp only [checkHeaderWork]
  split_ifs with hbits hpow hactive
  · simp only [false_iff]
    exact fun h => hbits.1 (h.1 hbits.2.1 hbits.2.2)
  · simp only [hpow, and_true, true_iff]
    intro hactive hphase
    by_contra hne
    exact hbits ⟨hne, hactive, hphase⟩
  · simp [hpow]
  · simp [hpow]

theorem contextualCheck_work {now : ℤ}
    (h : contextualCheckBlockHeader hashes params now block pindexPrev true = .ok ()) :
    checkHeaderWork hashes params block pindexPrev = .ok () := by
  rw [contextualCheckBlockHeader, if_pos rfl] at h
  cases hwork : checkHeaderWork hashes params block pindexPrev with
  | error reject => simp [hwork] at h
  | ok _ => rfl

/-- Past the bootstrap phase the check at a height uses the limit of the active algorithm. -/
theorem checkedPowLimit_of_lt {h : ℤ} (hboot : params.nBootstrapEndHeight < h) :
    checkedPowLimit params h = params.getActivePowLimit h := by
  rw [checkedPowLimit, if_neg (by omega)]
  rfl

theorem isBootstrap_of_lt {h : ℤ} (hboot : params.nBootstrapEndHeight < h) :
    params.isBootstrap h = false := by
  simp only [Params.isBootstrap, Bool.and_eq_false_iff, decide_eq_false_iff_not]
  omega

/-- Under RandomX a header that passes meets its target. -/
theorem powHashAt_le_of_randomx {h : ℤ} (halg : params.getPowAlgorithm h = .randomx)
    (hcheck : checkProofOfWorkAtHeight hashes params block h pindexPrev = true) :
    (powHashAt hashes params block h pindexPrev).toNat ≤ (setCompact block.nBits).value := by
  simp only [checkProofOfWorkAtHeight, halg] at hcheck
  split_ifs at hcheck with hkey
  simp only [powHashAt, halg]
  rw [checkProofOfWorkImplAt] at hcheck
  cases htarget : deriveTarget block.nBits (checkedPowLimit params h) with
  | none => simp [htarget, meetsTarget] at hcheck
  | some target =>
    rw [htarget] at hcheck
    have hset := (deriveTarget_eq_some.mp htarget).1
    rw [hset]
    simpa [meetsTarget] using hcheck

end Enforcement

/-! ### Headers of one's own difficulty

While Argon2id is active nobody compares `nBits` with the difficulty rules.  A target of one has two
encodings, and one of them is not what the rules ask for. -/

section OwnDifficulty

/-- A header at time zero. -/
def idleHeader : CBlockHeader := ⟨4, 0, 0, 0, 0, 0⟩

/-- A header one second later. -/
def ownHeader (nBits : BitVec 32) : CBlockHeader := ⟨4, 0, 0, 1, nBits, 0⟩

/-- Hash functions under which every header has proof of work. -/
def nullHashes : PowHash := ⟨fun _ => 0, fun _ _ => 0, fun _ _ _ _ => 0⟩

/-- An encoding of the target one other than `nBits`. -/
def otherUnit (nBits : BitVec 32) : BitVec 32 :=
  if nBits = 0x01010000 then 0x03000001 else 0x01010000

theorem otherUnit_ne (nBits : BitVec 32) : otherUnit nBits ≠ nBits := by
  rw [otherUnit]
  split_ifs with h
  · rw [h]
    decide
  · exact Ne.symm h

theorem deriveTarget_otherUnit (nBits : BitVec 32) {limit : Uint256} (hlimit : limit ≠ 0) :
    deriveTarget (otherUnit nBits) limit = some 1 := by
  have hone : 1 ≤ limit.toNat := by
    rw [Nat.one_le_iff_ne_zero]
    exact fun hzero => hlimit (BitVec.eq_of_toNat_eq hzero)
  refine deriveTarget_eq_some.mpr ⟨?_, Nat.one_pos, hone⟩
  rw [otherUnit]
  split_ifs <;> decide

theorem lastTimes_idle {k n : ℕ} {t : ℤ}
    (h : t ∈ (CBlockIndex.chainOf (fun _ => idleHeader) n).lastTimes k) : t = 0 := by
  induction n generalizing k with
  | zero =>
    cases k with
    | zero => simp [CBlockIndex.lastTimes] at h
    | succ k => simpa [CBlockIndex.chainOf, CBlockIndex.lastTimes, idleHeader] using h
  | succ n ih =>
    cases k with
    | zero => simp [CBlockIndex.lastTimes] at h
    | succ k =>
      rcases List.mem_cons.mp h with rfl | h
      · rfl
      · exact ih h

theorem getMedianTimePast_idle (n : ℕ) :
    (CBlockIndex.chainOf (fun _ => idleHeader) n).getMedianTimePast = 0 := by
  show List.getD _ _ 0 = 0
  rw [List.getD_eq_getElem?_getD]
  cases hget : ((CBlockIndex.chainOf (fun _ => idleHeader) n).lastTimes
      CBlockIndex.nMedianTimeSpan).mergeSort[(((CBlockIndex.chainOf (fun _ => idleHeader)
        n).lastTimes CBlockIndex.nMedianTimeSpan).mergeSort.length) / 2]? with
  | none => rfl
  | some t => exact lastTimes_idle (List.mem_mergeSort.mp (List.mem_of_getElem? hget))

/-- What the rules ask of a header depends on its time, not on its own `nBits`. -/
theorem getNextWorkRequired_ownHeader (params : Params) (pindexLast : CBlockIndex)
    (nBits nBits' : BitVec 32) :
    getNextWorkRequired params pindexLast (ownHeader nBits) =
      getNextWorkRequired params pindexLast (ownHeader nBits') := rfl

/-- **Under the emergency algorithm** a header passes with `nBits` of its own choice. -/
theorem ownHeader_accepted {params : Params} {n : ℕ}
    (hactive : params.isArgon2EmergencyActive (n + 1) = true)
    (hboot : params.nBootstrapEndHeight < n + 1) (hlimit : params.getActivePowLimit (n + 1) ≠ 0)
    (nBits : BitVec 32) :
    contextualCheckBlockHeader nullHashes params 0 (ownHeader (otherUnit nBits))
      (CBlockIndex.chainOf (fun _ => idleHeader) n) true = .ok () := by
  have hwork : checkHeaderWork nullHashes params (ownHeader (otherUnit nBits))
      (CBlockIndex.chainOf (fun _ => idleHeader) n) = .ok () := by
    rw [checkHeaderWork_ok_iff, CBlockIndex.nHeight_chainOf]
    refine ⟨fun hrandomx => ?_, ?_⟩
    · simp [Params.isRandomXActive, hactive] at hrandomx
    · simp only [checkProofOfWorkAtHeight, params.getPowAlgorithm_of_argon2 hactive,
        checkProofOfWorkImplAt, checkedPowLimit_of_lt hboot, ownHeader,
        deriveTarget_otherUnit nBits hlimit]
      rfl
  have hfuture : 0 < maxFutureTime params (n + 1) := by
    rw [maxFutureTime]
    split_ifs <;> decide
  rw [contextualCheckBlockHeader, if_pos rfl, hwork]
  simp only [checkHeaderTime, getMedianTimePast_idle, CBlockIndex.getBlockTime,
    CBlockIndex.header_chainOf, CBlockIndex.nHeight_chainOf, ownHeader, maxTimewarp]
  have hparent : (idleHeader.nTime : ℤ) = 0 := rfl
  rw [hparent, if_neg (by decide), if_neg (by omega), if_neg (by omega), if_neg (by omega)]

end OwnDifficulty

/-- **When the difficulty rules bind.**  At a height past the RandomX fork and the bootstrap phase,
every header that passes has the `nBits` that the rules demand and a hash within their target,
exactly if the emergency algorithm is not active there (or its limit leaves no target at all). -/
theorem difficulty_enforced_iff {params : Params} {h : ℤ} (hpos : 1 ≤ h)
    (hfork : params.nRandomXForkHeight ≤ h) (hboot : params.nBootstrapEndHeight < h) :
    (∀ (hashes : PowHash) (now : ℤ) (pindexPrev : CBlockIndex) (block : CBlockHeader),
      (pindexPrev.nHeight : ℤ) + 1 = h →
      contextualCheckBlockHeader hashes params now block pindexPrev true = .ok () →
      block.nBits = getNextWorkRequired params pindexPrev block ∧
        (powHashAt hashes params block h pindexPrev).toNat ≤ (setCompact block.nBits).value) ↔
    params.isArgon2EmergencyActive h = false ∨ params.getActivePowLimit h = 0 := by
  constructor
  · intro henforced
    by_contra hbad
    rw [not_or, Bool.not_eq_false] at hbad
    obtain ⟨n, hn⟩ := Int.eq_ofNat_of_zero_le (show 0 ≤ h - 1 by omega)
    obtain rfl : h = n + 1 := by omega
    have hpass := ownHeader_accepted hbad.1 hboot hbad.2 (getNextWorkRequired params
      (CBlockIndex.chainOf (fun _ => idleHeader) n) (ownHeader 0))
    have hbits := (henforced nullHashes 0 _ _ (by rw [CBlockIndex.nHeight_chainOf]) hpass).1
    rw [getNextWorkRequired_ownHeader params _ _ 0] at hbits
    exact otherUnit_ne _ hbits
  · intro hok hashes now pindexPrev block hheight hpass
    obtain ⟨hbits, hpow⟩ := checkHeaderWork_ok_iff.mp (contextualCheck_work hpass)
    rw [hheight] at hbits hpow
    by_cases hactive : params.isArgon2EmergencyActive h = true
    · -- the limit is null, so no header passes
      have hnull := hok.resolve_left (by simp [hactive])
      simp only [checkProofOfWorkAtHeight, params.getPowAlgorithm_of_argon2 hactive,
        checkProofOfWorkImplAt, checkedPowLimit_of_lt hboot, hnull, deriveTarget_zero,
        meetsTarget] at hpow
      simp at hpow
    · have hidle : params.isArgon2EmergencyActive h = false := by simpa using hactive
      have hrandomx : params.isRandomXActive h = true := by
        simp [Params.isRandomXActive, hidle, hfork]
      exact ⟨hbits hrandomx (isBootstrap_of_lt hboot),
        powHashAt_le_of_randomx (params.getPowAlgorithm_of_fork hidle hfork) hpow⟩

/-- The first height past the bootstrap phase of the main network. -/
theorem difficulty_enforced_main :
    (∀ (hashes : PowHash) (now : ℤ) (pindexPrev : CBlockIndex) (block : CBlockHeader),
      (pindexPrev.nHeight : ℤ) + 1 = 210521 →
      contextualCheckBlockHeader hashes mainParams now block pindexPrev true = .ok () →
      block.nBits = getNextWorkRequired mainParams pindexPrev block ∧
        (powHashAt hashes mainParams block 210521 pindexPrev).toNat ≤
          (setCompact block.nBits).value) ↔
    mainParams.isArgon2EmergencyActive 210521 = false ∨ mainParams.getActivePowLimit 210521 = 0 :=
  difficulty_enforced_iff (by decide) (by decide) (by decide)

/-- The main network with the emergency algorithm active from block 1 on and no bootstrap phase: a
header with the target one passes, though the rules demand the limit. -/
theorem difficulty_free_choice :
    ∃ (params : Params) (block : CBlockHeader) (pindexPrev : CBlockIndex),
      params.nRandomXForkHeight = 0 ∧ params.nBootstrapEndHeight = -1 ∧
      params.nArgon2EmergencyHeight = 1 ∧ pindexPrev.nHeight = 0 ∧
      contextualCheckBlockHeader nullHashes params 0 block pindexPrev true = .ok () ∧
      block.nBits = 0x01010000 ∧ getNextWorkRequired params pindexPrev block = 0x1f00ffff :=
  ⟨{ mainParams with
      nRandomXForkHeight := 0
      nBootstrapEndHeight := -1
      nArgon2EmergencyHeight := 1 }, ownHeader 0x01010000, .genesis idleHeader,
    rfl, rfl, rfl, rfl, by decide +kernel, rfl, by decide +kernel⟩

end OpenSY.Validation
