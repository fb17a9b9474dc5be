import OpenSY.Chain.Primitives

/-!
# Consensus parameters

The parameters that the proof-of-work rules read, the schedule of the three algorithms and the
limits that go with it.
-/

namespace OpenSY.Consensus

open OpenSY.Chain

/-- The last four fields hold for every network: without them the difficulty code would divide by
zero or fail its assertions. -/
structure Params where
  BIP34Height : ℤ
  BIP65Height : ℤ
  BIP66Height : ℤ
  powLimit : Uint256
  fPowAllowMinDifficultyBlocks : Bool
  enforceBIP94 : Bool
  fPowNoRetargeting : Bool
  nPowTargetSpacing : ℤ
  nPowTargetTimespan : ℤ
  nRandomXForkHeight : ℤ
  nRandomXKeyBlockInterval : ℤ
  powLimitRandomX : Uint256
  nBootstrapEndHeight : ℤ
  powLimitBootstrap : Uint256
  nArgon2EmergencyHeight : ℤ
  nArgon2MemoryCost : ℕ
  nArgon2TimeCost : ℕ
  nArgon2Parallelism : ℕ
  powLimitArgon2 : Uint256
  spacing_pos : 0 < nPowTargetSpacing
  spacing_le : nPowTargetSpacing ≤ nPowTargetTimespan
  timespan_cast : nPowTargetTimespan % 2 ^ 32 ≠ 0
  interval_pos : 0 < nRandomXKeyBlockInterval

inductive PowAlgorithm where
  | sha256d
  | randomx
  | argon2id
  deriving DecidableEq

namespace Params

variable (params : Params)

def difficultyAdjustmentInterval : ℤ := params.nPowTargetTimespan / params.nPowTargetSpacing

theorem interval_ge_one : 1 ≤ params.difficultyAdjustmentInterval := by
  have hle := params.spacing_le
  exact (Int.le_ediv_iff_mul_le params.spacing_pos).mpr (by omega)

def isArgon2EmergencyActive (height : ℤ) : Bool :=
  params.nArgon2EmergencyHeight ≥ 0 && height ≥ params.nArgon2EmergencyHeight

def isRandomXActive (height : ℤ) : Bool :=
  height ≥ params.nRandomXForkHeight && !params.isArgon2EmergencyActive height

def getPowAlgorithm (height : ℤ) : PowAlgorithm :=
  if params.isArgon2EmergencyActive height then .argon2id
  else if params.isRandomXActive height then .randomx
  else .sha256d

/-- A limit that is not set is null; the next one in line takes its place. -/
def getActivePowLimit (height : ℤ) : Uint256 :=
  match params.getPowAlgorithm height with
  | .argon2id =>
    if params.powLimitArgon2 ≠ 0 then params.powLimitArgon2
    else if params.powLimitRandomX ≠ 0 then params.powLimitRandomX
    else params.powLimit
  | .randomx => if params.powLimitRandomX = 0 then params.powLimit else params.powLimitRandomX
  | .sha256d => params.powLimit

def getRandomXPowLimit (height : ℤ) : Uint256 := params.getActivePowLimit height

/-- The bootstrap phase, as the header rules test for it. -/
def isBootstrap (height : ℤ) : Bool :=
  params.nBootstrapEndHeight ≥ 0 && height ≤ params.nBootstrapEndHeight

/-- The height of the block whose hash is the RandomX key. -/
def getRandomXKeyBlockHeight (height : ℤ) : ℤ :=
  let keyHeight := height.tdiv params.nRandomXKeyBlockInterval * params.nRandomXKeyBlockInterval -
    params.nRandomXKeyBlockInterval
  if keyHeight ≥ 0 then keyHeight else 0

theorem getPowAlgorithm_of_argon2 {height : ℤ} (h : params.isArgon2EmergencyActive height = true) :
    params.getPowAlgorithm height = .argon2id := by
  rw [getPowAlgorithm, if_pos h]

theorem getPowAlgorithm_of_fork {height : ℤ} (h : params.isArgon2EmergencyActive height = false)
    (hfork : params.nRandomXForkHeight ≤ height) : params.getPowAlgorithm height = .randomx := by
  simp [getPowAlgorithm, isRandomXActive, h, hfork]

theorem getPowAlgorithm_of_lt {height : ℤ} (h : params.isArgon2EmergencyActive height = false)
    (hfork : height < params.nRandomXForkHeight) : params.getPowAlgorithm height = .sha256d := by
  simp [getPowAlgorithm, isRandomXActive, h, hfork]

end Params

/-- The main network. -/
def mainParams : Params where
  BIP34Height := 1
  BIP65Height := 1
  BIP66Height := 1
  powLimit := 0x000000ffff000000000000000000000000000000000000000000000000000000
  fPowAllowMinDifficultyBlocks := false
  enforceBIP94 := true
  fPowNoRetargeting := false
  nPowTargetSpacing := 2 * 60
  nPowTargetTimespan := 14 * 24 * 60 * 60
  nRandomXForkHeight := 210000
  nRandomXKeyBlockInterval := 32
  powLimitRandomX := 0x0000ffffffffffffffffffffffffffffffffffffffffffffffffffffffffffff
  nBootstrapEndHeight := 210520
  powLimitBootstrap := 0x7fffffffffffffffffffffffffffffffffffffffffffffffffffffffffffffff
  nArgon2EmergencyHeight := -1
  nArgon2MemoryCost := 2 ^ 21
  nArgon2TimeCost := 1
  nArgon2Parallelism := 1
  powLimitArgon2 := 0x0000ffffffffffffffffffffffffffffffffffffffffffffffffffffffffffff
  spacing_pos := by decide
  spacing_le := by decide
  timespan_cast := by decide
  interval_pos := by decide

/-- The main network with the emergency fallback set: its height, `-1` for never, and its limit. -/
def mainParamsWith (nArgon2EmergencyHeight : ℤ) (powLimitArgon2 : Uint256) : Params :=
  { mainParams with
    nArgon2EmergencyHeight := nArgon2EmergencyHeight
    powLimitArgon2 := powLimitArgon2 }

end OpenSY.Consensus
