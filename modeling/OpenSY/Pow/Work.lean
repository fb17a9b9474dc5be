import OpenSY.Chain.BlockIndex
import OpenSY.Consensus.Params
import OpenSY.Pow.Target

/-!
# The difficulty rules

`getNextWorkRequired` demands the `nBits` of the next block.  It resets to the limit where a phase
begins, keeps the last value inside a period and retargets at the end of one; on the networks with
minimum-difficulty blocks it looks for the last ordinary value.  `permittedDifficultyTransition` is
the rule of thumb that header synchronisation uses before it knows the chain.

* `getNextWorkRequired_reset`, `getNextWorkRequired_keep`, `getNextWorkRequired_retarget` — the
  three answers;
* `retargetBase_eq`, `adjustTarget_eq` — what a retarget starts from and what it makes of it.
-/

namespace OpenSY.Pow

open OpenSY.Chain OpenSY.Consensus OpenSY.FloatTruncation

/-- The conversion to `uint32_t`. -/
def castUint32 (n : ℤ) : ℕ := (n % 2 ^ 32).toNat

section Rules

variable (params : Params)

/-- The timespan of a period, held within a factor of four. -/
def clampTimespan (nActualTimespan : ℤ) : ℤ :=
  let low := if nActualTimespan < params.nPowTargetTimespan / 4 then params.nPowTargetTimespan / 4
    else nActualTimespan
  if low > params.nPowTargetTimespan * 4 then params.nPowTargetTimespan * 4 else low

/-- Adjust a target by the timespan, within the limit. -/
def adjustTarget (bnNew : ℕ) (nActualTimespan : ℤ) (bnPowLimit : ℕ) : ℕ :=
  let bnNew := scale bnNew (castUint32 nActualTimespan) (castUint32 params.nPowTargetTimespan)
  if bnNew > bnPowLimit then bnPowLimit else bnNew

/-- The target that a retarget starts from.  With BIP94 this is the one of the first block of the
period, unless that block was mined with another algorithm. -/
def retargetBase (pindexLast : CBlockIndex) : Option ℕ :=
  let nextHeight : ℤ := pindexLast.nHeight + 1
  if params.enforceBIP94 then
    let nHeightFirst : ℤ := pindexLast.nHeight - (params.difficultyAdjustmentInterval - 1)
    if params.getPowAlgorithm nHeightFirst = params.getPowAlgorithm nextHeight then
      (pindexLast.getAncestor nHeightFirst).map fun pindexFirst =>
        (setCompact pindexFirst.nBits).value
    else none
  else some (setCompact pindexLast.nBits).value

def calculateNextWorkRequired (pindexLast : CBlockIndex) (nFirstBlockTime : ℤ) : BitVec 32 :=
  if params.fPowNoRetargeting then pindexLast.nBits
  else
    let nActualTimespan := clampTimespan params (pindexLast.getBlockTime - nFirstBlockTime)
    let bnPowLimit := (params.getRandomXPowLimit (pindexLast.nHeight + 1)).toNat
    match retargetBase params pindexLast with
    | none => getCompact bnPowLimit
    | some bnNew => getCompact (adjustTarget params bnNew nActualTimespan bnPowLimit)

/-- Walk back over the minimum-difficulty blocks of the period, not past a change of algorithm. -/
def lastOrdinary (nextHeight : ℤ) (nProofOfWorkLimit : BitVec 32) : CBlockIndex → CBlockIndex
  | .genesis header => .genesis header
  | .child header pprev =>
    if ((pprev.nHeight : ℤ) + 1) % params.difficultyAdjustmentInterval ≠ 0 ∧
        header.nBits = nProofOfWorkLimit then
      if params.getPowAlgorithm pprev.nHeight ≠ params.getPowAlgorithm nextHeight then
        .child header pprev
      else lastOrdinary nextHeight nProofOfWorkLimit pprev
    else .child header pprev

/-- The heights where a phase begins and the difficulty falls back to the limit. -/
def resetsAt (nextHeight : ℤ) : Bool :=
  (params.nBootstrapEndHeight ≥ 0 && nextHeight = params.nBootstrapEndHeight + 1) ||
  nextHeight = params.nRandomXForkHeight ||
  (params.nArgon2EmergencyHeight ≥ 0 && nextHeight = params.nArgon2EmergencyHeight)

def getNextWorkRequired (pindexLast : CBlockIndex) (pblock : CBlockHeader) : BitVec 32 :=
  let nextHeight : ℤ := pindexLast.nHeight + 1
  let nProofOfWorkLimit := getCompact (params.getRandomXPowLimit nextHeight).toNat
  if params.fPowNoRetargeting then nProofOfWorkLimit
  else if resetsAt params nextHeight then nProofOfWorkLimit
  else if nextHeight % params.difficultyAdjustmentInterval ≠ 0 then
    if params.fPowAllowMinDifficultyBlocks then
      if (pblock.nTime : ℤ) > pindexLast.getBlockTime + params.nPowTargetSpacing * 2 then
        nProofOfWorkLimit
      else (lastOrdinary params nextHeight nProofOfWorkLimit pindexLast).nBits
    else pindexLast.nBits
  else
    match pindexLast.getAncestor
      (pindexLast.nHeight - (params.difficultyAdjustmentInterval - 1)) with
    -- the assertion of the source; `getAncestor_first` rules it out
    | none => nProofOfWorkLimit
    | some pindexFirst => calculateNextWorkRequired params pindexLast pindexFirst.getBlockTime

/-- The extreme targets that header synchronisation allows after `old_nbits`. -/
def extremeTarget (oldNBits : BitVec 32) (timespan : ℤ) (powLimit : ℕ) : ℕ :=
  (setCompact
    (getCompact (adjustTarget params (setCompact oldNBits).value timespan powLimit))).value

def permittedDifficultyTransition (height : ℤ) (oldNBits newNBits : BitVec 32) : Bool :=
  if params.fPowAllowMinDifficultyBlocks then true
  else if height = params.nRandomXForkHeight then true
  else if params.nArgon2EmergencyHeight ≥ 0 ∧ height = params.nArgon2EmergencyHeight then true
  else if height % params.difficultyAdjustmentInterval = 0 then
    let powLimit := (params.getActivePowLimit height).toNat
    let observedNewTarget := (setCompact newNBits).value
    let oldTarget := (setCompact oldNBits).value
    if oldTarget = powLimit ∧ observedNewTarget = powLimit then true
    else if extremeTarget params oldNBits (params.nPowTargetTimespan * 4) powLimit <
        observedNewTarget then false
    else if extremeTarget params oldNBits (params.nPowTargetTimespan / 4) powLimit >
        observedNewTarget then false
    else true
  else if oldNBits ≠ newNBits then
    !params.isRandomXActive height || params.isBootstrap height
  else true

end Rules

/-! ### The next work, case by case -/

section Cases

variable {params : Params} (f : ℕ → CBlockHeader) {n : ℕ} (pblock : CBlockHeader)

/-- At the end of a period its first block is there. -/
theorem getAncestor_first (h : ((n : ℤ) + 1) % params.difficultyAdjustmentInterval = 0) :
    (CBlockIndex.chainOf f n).getAncestor
        ((CBlockIndex.chainOf f n).nHeight - (params.difficultyAdjustmentInterval - 1)) =
      some (CBlockIndex.chainOf f (n + 1 - params.difficultyAdjustmentInterval.toNat)) := by
  have hone := params.interval_ge_one
  have hle : params.difficultyAdjustmentInterval ≤ n + 1 :=
    Int.le_of_dvd (by omega) (Int.dvd_of_emod_eq_zero h)
  rw [CBlockIndex.nHeight_chainOf, show (n : ℤ) - (params.difficultyAdjustmentInterval - 1) =
    ((n + 1 - params.difficultyAdjustmentInterval.toNat : ℕ) : ℤ) by omega]
  exact CBlockIndex.getAncestor_chainOf f (by omega)

theorem getNextWorkRequired_reset
    (h : params.fPowNoRetargeting = true ∨ resetsAt params (n + 1) = true) :
    getNextWorkRequired params (CBlockIndex.chainOf f n) pblock =
      getCompact (params.getRandomXPowLimit (n + 1)).toNat := by
  simp only [getNextWorkRequired, CBlockIndex.nHeight_chainOf]
  rcases h with h | h
  · rw [if_pos h]
  · rw [if_pos h, ite_self]

/-- Inside a period, on a network without minimum-difficulty blocks. -/
theorem getNextWorkRequired_keep (hno : params.fPowNoRetargeting = false)
    (hmin : params.fPowAllowMinDifficultyBlocks = false) (hreset : resetsAt params (n + 1) = false)
    (h : ((n : ℤ) + 1) % params.difficultyAdjustmentInterval ≠ 0) :
    getNextWorkRequired params (CBlockIndex.chainOf f n) pblock = (f n).nBits := by
  simp [getNextWorkRequired, hno, hmin, hreset, h, CBlockIndex.nBits]

/-- The clamped timespan of the period that ends with block `n`. -/
def periodTimespan (params : Params) (f : ℕ → CBlockHeader) (n : ℕ) : ℤ :=
  clampTimespan params
    ((f n).nTime - (f (n + 1 - params.difficultyAdjustmentInterval.toNat)).nTime)

/-- At the end of a period. -/
theorem getNextWorkRequired_retarget (hno : params.fPowNoRetargeting = false)
    (hreset : resetsAt params (n + 1) = false)
    (h : ((n : ℤ) + 1) % params.difficultyAdjustmentInterval = 0) :
    getNextWorkRequired params (CBlockIndex.chainOf f n) pblock =
      match retargetBase params (CBlockIndex.chainOf f n) with
      | none => getCompact (params.getRandomXPowLimit (n + 1)).toNat
      | some bnNew => getCompact (adjustTarget params bnNew (periodTimespan params f n)
          (params.getRandomXPowLimit (n + 1)).toNat) := by
  simp only [getNextWorkRequired, getAncestor_first f h]
  simp only [CBlockIndex.nHeight_chainOf, hno, hreset, h, calculateNextWorkRequired, periodTimespan,
    CBlockIndex.getBlockTime, CBlockIndex.header_chainOf]
  simp

/-- With BIP94 the base is the target of the first block of the period. -/
theorem retargetBase_eq (hbip : params.enforceBIP94 = true)
    (h : ((n : ℤ) + 1) % params.difficultyAdjustmentInterval = 0) :
    retargetBase params (CBlockIndex.chainOf f n) =
      if params.getPowAlgorithm (n + 1 - params.difficultyAdjustmentInterval) =
          params.getPowAlgorithm (n + 1) then
        some (setCompact (f (n + 1 - params.difficultyAdjustmentInterval.toNat)).nBits).value
      else none := by
  simp only [retargetBase, hbip, if_true, getAncestor_first f h]
  rw [CBlockIndex.nHeight_chainOf, show (n : ℤ) - (params.difficultyAdjustmentInterval - 1) =
    n + 1 - params.difficultyAdjustmentInterval by omega]
  simp [CBlockIndex.nBits]

end Cases

/-! ### The arithmetic of a retarget -/

section Arithmetic

variable {params : Params}

theorem timespan_pos (params : Params) : 0 < params.nPowTargetTimespan :=
  lt_of_lt_of_le params.spacing_pos params.spacing_le

theorem clampTimespan_bounds (params : Params) (nActualTimespan : ℤ) :
    params.nPowTargetTimespan / 4 ≤ clampTimespan params nActualTimespan ∧
      clampTimespan params nActualTimespan ≤ params.nPowTargetTimespan * 4 := by
  have hpos := timespan_pos params
  simp only [clampTimespan]
  split_ifs <;> omega

theorem castUint32_of_lt {n : ℤ} (hn : 0 ≤ n) (hlt : n < 2 ^ 32) : castUint32 n = n.toNat := by
  rw [castUint32, Int.emod_eq_of_lt hn hlt]

/-- While the timespans fit 32 bits, adjusting is exact up to the width of the integers. -/
theorem adjustTarget_eq (hfit : params.nPowTargetTimespan * 4 < 2 ^ 32) (bnNew : ℕ) {ts : ℤ}
    (hlow : 0 ≤ ts) (hhigh : ts ≤ params.nPowTargetTimespan * 4) (bnPowLimit : ℕ) :
    adjustTarget params bnNew ts bnPowLimit =
      min (bnNew * ts.toNat / params.nPowTargetTimespan.toNat % 2 ^ 256) bnPowLimit := by
  have hpos := timespan_pos params
  rw [adjustTarget, castUint32_of_lt hlow (by omega), castUint32_of_lt hpos.le (by omega),
    scale_eq bnNew (by omega) (by omega) (by omega)]
  show (if _ > bnPowLimit then bnPowLimit else _) = _
  split_ifs with h
  · exact (min_eq_right h.le).symm
  · exact (min_eq_left (not_lt.mp h)).symm

end Arithmetic

end OpenSY.Pow
