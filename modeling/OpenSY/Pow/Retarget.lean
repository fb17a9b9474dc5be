import OpenSY.Pow.Work
import OpenSY.Lib.WordArithmetic

/-!
# Retargets: exact arithmetic, one algorithm

A retarget multiplies a target by a timespan and divides it by another.  The source divides first,
so that no product leaves the 256 bits, and adds what the division cut off.

* `scaleWith_checked` — none of the 256-bit operations wraps, and nothing is lost;
* `retarget_exact` — so a retarget is the compact form of the exact value, within the limit.  The
  one exception is deliberate: with BIP94, a period that began under another algorithm falls back to
  the limit.

The block whose `nBits` the rules start from is found in three ways: the last block, a walk back
over minimum-difficulty blocks, and the first block of the period.

* `getPowAlgorithm_succ` — where the algorithm changes, the difficulty is reset;
* `lastOrdinary_spec` — the walk stays on blocks of the algorithm of the next block;
* `work_within_algorithm` — hence no `nBits` are carried over from another algorithm.
-/

namespace OpenSY.Pow

open OpenSY.Chain OpenSY.Consensus OpenSY.WordArithmetic

/-! ### The arithmetic, operation by operation -/

/-- The block of `CalculateNextWorkRequired` that scales the target. -/
def scaleWith {m : Type → Type} [Monad m] (ops : WordOps m) (bnNew ts tgt : ℕ) : m ℕ := do
  let quotient := bnNew / tgt
  let product ← ops.mul quotient tgt
  let remainder ← ops.sub bnNew product
  let whole ← ops.mul quotient ts
  let rest ← ops.mul remainder ts
  ops.add whole (rest / tgt)

theorem scaled_le (bnNew : ℕ) {ts tgt : ℕ} (htgt : 0 < tgt) (hspan : ts ≤ 4 * tgt) :
    bnNew * ts / tgt ≤ 4 * bnNew := by
  calc bnNew * ts / tgt ≤ bnNew * (4 * tgt) / tgt :=
        Nat.div_le_div_right (Nat.mul_le_mul_left _ hspan)
    _ = 4 * bnNew * tgt / tgt := by
        congr 1
        ring
    _ = 4 * bnNew := Nat.mul_div_cancel _ htgt

/-- With timespans of 32 bits that differ by a factor of four at most, every operation fits. -/
theorem scaleWith_checked {bnNew ts tgt : ℕ} (hbase : bnNew < 2 ^ 254) (htgt : 0 < tgt)
    (hspan : ts ≤ 4 * tgt) (hfit : 4 * tgt < 2 ^ 32) :
    scaleWith (checked 256) bnNew ts tgt = some (bnNew * ts / tgt) := by
  have hle : bnNew / tgt * tgt ≤ bnNew := Nat.div_mul_le_self _ _
  have hrem : bnNew - bnNew / tgt * tgt = bnNew % tgt := by
    have hdiv := Nat.div_add_mod' bnNew tgt
    omega
  have hwhole : bnNew / tgt * ts ≤ 4 * bnNew := by
    calc bnNew / tgt * ts ≤ bnNew / tgt * (4 * tgt) := Nat.mul_le_mul_left _ hspan
      _ = 4 * (bnNew / tgt * tgt) := by ring
      _ ≤ 4 * bnNew := Nat.mul_le_mul_left _ hle
  have hrest : bnNew % tgt * ts < 2 ^ 256 := by
    calc bnNew % tgt * ts ≤ 2 ^ 32 * 2 ^ 32 :=
          Nat.mul_le_mul ((Nat.mod_lt _ htgt).le.trans (by omega)) (by omega)
      _ < 2 ^ 256 := by decide
  have hsum : bnNew / tgt * ts + bnNew % tgt * ts / tgt < 2 ^ 256 := by
    rw [← mul_div_split bnNew ts htgt]
    exact lt_of_le_of_lt (scaled_le bnNew htgt hspan) (by omega)
  rw [scaleWith, checked_mul (lt_of_le_of_lt hle (by omega)), Option.bind_eq_bind, Option.bind_some,
    checked_sub hle (by omega), Option.bind_some, hrem, checked_mul (by omega), Option.bind_some,
    checked_mul hrest, Option.bind_some, checked_add hsum, ← mul_div_split bnNew ts htgt]

/-! ### The base of a retarget -/

/-- The block whose target a retarget starts from. -/
inductive RetargetsFrom (params : Params) (pindexLast : CBlockIndex) : CBlockIndex → Prop
  | last : params.enforceBIP94 = false → RetargetsFrom params pindexLast pindexLast
  | first {pindexFirst : CBlockIndex} : params.enforceBIP94 = true →
      pindexLast.getAncestor (pindexLast.nHeight - (params.difficultyAdjustmentInterval - 1)) =
        some pindexFirst →
      params.getPowAlgorithm pindexFirst.nHeight = params.getPowAlgorithm (pindexLast.nHeight + 1) →
      RetargetsFrom params pindexLast pindexFirst

/-- The period of `pindexLast` began, under BIP94, with a block of another algorithm. -/
def CrossesAlgorithms (params : Params) (pindexLast : CBlockIndex) : Prop :=
  params.enforceBIP94 = true ∧
    params.getPowAlgorithm (pindexLast.nHeight - (params.difficultyAdjustmentInterval - 1)) ≠
      params.getPowAlgorithm (pindexLast.nHeight + 1)

/-- The actual timespan, within a factor of four of the target timespan. -/
def clamped (params : Params) (nActualTimespan : ℤ) : ℤ :=
  max (params.nPowTargetTimespan / 4) (min (4 * params.nPowTargetTimespan) nActualTimespan)

theorem clampTimespan_eq (params : Params) (nActualTimespan : ℤ) :
    clampTimespan params nActualTimespan = clamped params nActualTimespan := by
  have hpos := timespan_pos params
  simp only [clampTimespan, clamped]
  split_ifs <;> omega

theorem nHeight_getAncestor {pindex a : CBlockIndex} {height : ℤ}
    (h : pindex.getAncestor height = some a) :
    (a.nHeight : ℤ) = height := by
  obtain ⟨f, hf⟩ := pindex.exists_chainOf
  have hrange : ¬ (height > pindex.nHeight ∨ height < 0) := by
    intro hout
    rw [CBlockIndex.getAncestor, if_pos hout] at h
    cases h
  rw [hf, show height = (height.toNat : ℤ) by omega,
    CBlockIndex.getAncestor_chainOf f (by omega)] at h
  rw [← Option.some.inj h, CBlockIndex.nHeight_chainOf]
  omega

theorem retargetBase_of_from {params : Params} {pindexLast base : CBlockIndex}
    (h : RetargetsFrom params pindexLast base) :
    retargetBase params pindexLast = some (setCompact base.nBits).value := by
  cases h with
  | last hbip =>
    rw [retargetBase, hbip]
    rfl
  | first hbip hfirst halg =>
    rw [nHeight_getAncestor hfirst] at halg
    simp only [retargetBase, if_pos hbip, if_pos halg, hfirst, Option.map_some]

theorem retargetBase_of_crosses {params : Params} {pindexLast : CBlockIndex}
    (h : CrossesAlgorithms params pindexLast) : retargetBase params pindexLast = none := by
  obtain ⟨hbip, halg⟩ := h
  simp only [retargetBase, if_pos hbip, if_neg halg]

theorem clamped_bounds (params : Params) (nActualTimespan : ℤ) :
    0 ≤ clamped params nActualTimespan ∧
      (clamped params nActualTimespan).toNat ≤ 4 * params.nPowTargetTimespan.toNat := by
  have hpos := timespan_pos params
  have hbounds := clampTimespan_bounds params nActualTimespan
  rw [clampTimespan_eq] at hbounds
  omega

/-- From a base below `2 ^ 254` the adjusted target is the exact one, within the limit. -/
theorem adjustTarget_exact {params : Params} (hfit : 4 * params.nPowTargetTimespan < 2 ^ 32)
    {bnNew : ℕ} (hbase : bnNew < 2 ^ 254) (nActualTimespan : ℤ) (bnPowLimit : ℕ) :
    adjustTarget params bnNew (clampTimespan params nActualTimespan) bnPowLimit =
      min (bnNew * (clamped params nActualTimespan).toNat / params.nPowTargetTimespan.toNat)
        bnPowLimit := by
  have hpos := timespan_pos params
  have hbounds := clampTimespan_bounds params nActualTimespan
  obtain ⟨-, hspan⟩ := clamped_bounds params nActualTimespan
  rw [adjustTarget_eq (by omega) bnNew (by omega) hbounds.2, clampTimespan_eq]
  congr 1
  exact Nat.mod_eq_of_lt (lt_of_le_of_lt (scaled_le bnNew (by omega) hspan) (by omega))

section Calculate

variable {params : Params} {pindexLast : CBlockIndex} (hno : params.fPowNoRetargeting = false)

include hno

theorem calculateNextWorkRequired_none (hbase : retargetBase params pindexLast = none)
    (nFirstBlockTime : ℤ) : calculateNextWorkRequired params pindexLast nFirstBlockTime =
      getCompact (params.getRandomXPowLimit (pindexLast.nHeight + 1)).toNat := by
  rw [calculateNextWorkRequired, if_neg (by simp [hno])]
  simp only [hbase]

theorem calculateNextWorkRequired_some {bnNew : ℕ}
    (hbase : retargetBase params pindexLast = some bnNew) (nFirstBlockTime : ℤ) :
    calculateNextWorkRequired params pindexLast nFirstBlockTime =
      getCompact (adjustTarget params bnNew
        (clampTimespan params (pindexLast.getBlockTime - nFirstBlockTime))
        (params.getRandomXPowLimit (pindexLast.nHeight + 1)).toNat) := by
  rw [calculateNextWorkRequired, if_neg (by simp [hno])]
  simp only [hbase]

end Calculate

/-- **A retarget is exact.**  It is the compact form of the exact value, within the limit, and no
operation on the way wraps; a period that crosses algorithms, and a network without retargets, are
left out of the arithmetic. -/
theorem retarget_exact (params : Params) (hfit : 4 * params.nPowTargetTimespan < 2 ^ 32)
    (pindexLast : CBlockIndex) (nFirstBlockTime : ℤ) :
    let result := calculateNextWorkRequired params pindexLast nFirstBlockTime
    let limit := (params.getRandomXPowLimit (pindexLast.nHeight + 1)).toNat
    let s := (clamped params (pindexLast.getBlockTime - nFirstBlockTime)).toNat
    let T := params.nPowTargetTimespan.toNat
    (params.fPowNoRetargeting = true → result = pindexLast.nBits) ∧
    (params.fPowNoRetargeting = false →
      (CrossesAlgorithms params pindexLast → result = getCompact limit) ∧
      ∀ base, RetargetsFrom params pindexLast base → (setCompact base.nBits).value < 2 ^ 254 →
        result = getCompact (min ((setCompact base.nBits).value * s / T) limit) ∧
        scaleWith (checked 256) (setCompact base.nBits).value s T =
          some ((setCompact base.nBits).value * s / T)) := by
  intro result limit s T
  have hpos := timespan_pos params
  obtain ⟨-, hspan⟩ := clamped_bounds params (pindexLast.getBlockTime - nFirstBlockTime)
  refine ⟨fun hno => if_pos hno, fun hno => ⟨fun hcross => ?_, fun base hfrom hbase => ⟨?_, ?_⟩⟩⟩
  · exact calculateNextWorkRequired_none hno (retargetBase_of_crosses hcross) nFirstBlockTime
  · rw [← adjustTarget_exact hfit hbase]
    exact calculateNextWorkRequired_some hno (retargetBase_of_from hfrom) nFirstBlockTime
  · exact scaleWith_checked hbase (by omega) hspan (by omega)

theorem retarget_exact_main :
    let last := CBlockIndex.genesis ⟨4, 0, 0, 2, 0x1d00ffff, 0⟩
    calculateNextWorkRequired { mainParams with enforceBIP94 := false } last 0 = 0x1c3fffc0 := by
  intro last
  have hexact := retarget_exact { mainParams with enforceBIP94 := false } (by decide) last 0
  rw [((hexact.2 rfl).2 last (.last rfl) (by decide +kernel)).1]
  decide +kernel

/-- Periods of two blocks, the first of them under another algorithm. -/
def crossParams : Params :=
  { mainParams with
    nPowTargetSpacing := 4
    nPowTargetTimespan := 8
    nRandomXForkHeight := 1
    nBootstrapEndHeight := -1
    spacing_pos := by decide
    spacing_le := by decide
    timespan_cast := by decide }

/-- The block at the fork, at the limit of its algorithm. -/
def crossLast : CBlockIndex :=
  .child ⟨4, 0, 0, 2, 0x1f00ffff, 0⟩ (.genesis ⟨4, 0, 0, 0, 0x1e00ffff, 0⟩)

/-- In such a period the result is not computed from the last block, although its target is small.
-/
theorem crossing_period_falls_back :
    CrossesAlgorithms crossParams crossLast ∧ 4 ≤ crossParams.nPowTargetTimespan ∧
      4 * crossParams.nPowTargetTimespan < 2 ^ 32 ∧ (setCompact crossLast.nBits).value < 2 ^ 254 ∧
      calculateNextWorkRequired crossParams crossLast 0 ≠
        getCompact (min ((setCompact crossLast.nBits).value *
          (clamped crossParams crossLast.getBlockTime).toNat / crossParams.nPowTargetTimespan.toNat)
          (crossParams.getRandomXPowLimit 2).toNat) := by
  refine ⟨⟨rfl, by decide +kernel⟩, by decide, by decide, by decide +kernel, by decide +kernel⟩

/-! ### Blocks of one algorithm -/

/-- Where no reset is due, the algorithm stays the same. -/
theorem getPowAlgorithm_succ {params : Params} {h : ℤ} (hreset : resetsAt params (h + 1) = false) :
    params.getPowAlgorithm h = params.getPowAlgorithm (h + 1) := by
  have hplaces : h + 1 ≠ params.nRandomXForkHeight ∧
      ¬ (params.nArgon2EmergencyHeight ≥ 0 ∧ h + 1 = params.nArgon2EmergencyHeight) := by
    simp only [resetsAt, Bool.or_eq_false_iff, Bool.and_eq_false_iff,
      decide_eq_false_iff_not] at hreset
    omega
  have hargon : params.isArgon2EmergencyActive h = params.isArgon2EmergencyActive (h + 1) := by
    simp only [Params.isArgon2EmergencyActive, ← Bool.decide_and]
    exact decide_eq_decide.mpr (by omega)
  have hfork : decide (h ≥ params.nRandomXForkHeight) =
      decide (h + 1 ≥ params.nRandomXForkHeight) :=
    decide_eq_decide.mpr (by omega)
  have hrandomx : params.isRandomXActive h = params.isRandomXActive (h + 1) := by
    rw [Params.isRandomXActive, Params.isRandomXActive, hargon, hfork]
  rw [Params.getPowAlgorithm, Params.getPowAlgorithm, hargon, hrandomx]

/-- The walk back ends on a block of the algorithm of the next one, if it starts on one. -/
theorem lastOrdinary_spec {params : Params} (f : ℕ → CBlockHeader) {nextHeight : ℤ}
    (limit : BitVec 32) {n : ℕ}
    (halg : params.getPowAlgorithm n = params.getPowAlgorithm nextHeight) :
    ∃ k ≤ n, lastOrdinary params nextHeight limit (CBlockIndex.chainOf f n) =
      CBlockIndex.chainOf f k ∧
      params.getPowAlgorithm k = params.getPowAlgorithm nextHeight := by
  induction n with
  | zero => exact ⟨0, le_rfl, rfl, halg⟩
  | succ n ih =>
    rw [CBlockIndex.chainOf, lastOrdinary, CBlockIndex.nHeight_chainOf]
    split_ifs with hwalk hother
    · exact ⟨n + 1, le_rfl, rfl, halg⟩
    · -- the guard of the walk has looked at the parent before the step
      obtain ⟨k, hk, heq, hsame⟩ := ih (not_not.mp hother)
      exact ⟨k, Nat.le_succ_of_le hk, heq, hsame⟩
    · exact ⟨n + 1, le_rfl, rfl, halg⟩

/-- `a` is the block itself or lies on the chain below it. -/
def IsAncestor (pindex a : CBlockIndex) : Prop := pindex.getAncestor a.nHeight = some a

theorem isAncestor_chainOf (f : ℕ → CBlockHeader) {k n : ℕ} (h : k ≤ n) :
    IsAncestor (CBlockIndex.chainOf f n) (CBlockIndex.chainOf f k) := by
  rw [IsAncestor, CBlockIndex.nHeight_chainOf]
  exact CBlockIndex.getAncestor_chainOf f h

/-- A block on the chain of `pindexLast` whose height has the algorithm of the next block. -/
structure SameAlgorithm (params : Params) (pindexLast a : CBlockIndex) : Prop where
  ancestor : IsAncestor pindexLast a
  algorithm : params.getPowAlgorithm a.nHeight = params.getPowAlgorithm (pindexLast.nHeight + 1)

theorem sameAlgorithm_chainOf {params : Params} (f : ℕ → CBlockHeader) {k n : ℕ} (h : k ≤ n)
    (halg : params.getPowAlgorithm k = params.getPowAlgorithm (n + 1)) :
    SameAlgorithm params (CBlockIndex.chainOf f n) (CBlockIndex.chainOf f k) where
  ancestor := isAncestor_chainOf f h
  algorithm := by
    rw [CBlockIndex.nHeight_chainOf, CBlockIndex.nHeight_chainOf]
    exact halg

/-- The result of a retarget after `pindexLast` that starts from the `nBits` of `a`; the timespan is
always that of the period. -/
def retargetFrom (params : Params) (pindexLast a : CBlockIndex) : Option (BitVec 32) :=
  (pindexLast.getAncestor (pindexLast.nHeight - (params.difficultyAdjustmentInterval - 1))).map
    fun pindexFirst => getCompact (adjustTarget params (setCompact a.nBits).value
      (clampTimespan params (pindexLast.getBlockTime - pindexFirst.getBlockTime))
      (params.getRandomXPowLimit (pindexLast.nHeight + 1)).toNat)

section NextWork

variable {params : Params} (f : ℕ → CBlockHeader) {n : ℕ} (pblock : CBlockHeader)

/-- Inside a period: the limit, or the `nBits` of a block of the algorithm. -/
theorem nextWork_within (hno : params.fPowNoRetargeting = false)
    (hreset : resetsAt params (n + 1) = false)
    (h : ((n : ℤ) + 1) % params.difficultyAdjustmentInterval ≠ 0) :
    getNextWorkRequired params (CBlockIndex.chainOf f n) pblock =
        getCompact (params.getRandomXPowLimit (n + 1)).toNat ∨
      ∃ k ≤ n, params.getPowAlgorithm k = params.getPowAlgorithm (n + 1) ∧
        getNextWorkRequired params (CBlockIndex.chainOf f n) pblock = (f k).nBits := by
  have halg : params.getPowAlgorithm n = params.getPowAlgorithm (n + 1) :=
    getPowAlgorithm_succ hreset
  cases hmin : params.fPowAllowMinDifficultyBlocks with
  | false =>
    exact Or.inr ⟨n, le_rfl, halg, getNextWorkRequired_keep f pblock hno hmin hreset h⟩
  | true =>
    simp only [getNextWorkRequired, CBlockIndex.nHeight_chainOf, hno, hmin, hreset]
    by_cases hlate : (pblock.nTime : ℤ) >
        (CBlockIndex.chainOf f n).getBlockTime + params.nPowTargetSpacing * 2
    · exact Or.inl (by simp [h, hlate])
    · obtain ⟨k, hk, heq, hsame⟩ := lastOrdinary_spec f
        (getCompact (params.getRandomXPowLimit (n + 1)).toNat) halg
      refine Or.inr ⟨k, hk, hsame, ?_⟩
      simp [h, hlate, heq, CBlockIndex.nBits]

/-- At the end of a period: the limit, or a retarget from a block of the algorithm. -/
theorem nextWork_at_end (hno : params.fPowNoRetargeting = false)
    (hreset : resetsAt params (n + 1) = false)
    (h : ((n : ℤ) + 1) % params.difficultyAdjustmentInterval = 0) :
    getNextWorkRequired params (CBlockIndex.chainOf f n) pblock =
        getCompact (params.getRandomXPowLimit (n + 1)).toNat ∨
      ∃ k ≤ n, params.getPowAlgorithm k = params.getPowAlgorithm (n + 1) ∧
        getNextWorkRequired params (CBlockIndex.chainOf f n) pblock =
          getCompact (adjustTarget params (setCompact (f k).nBits).value (periodTimespan params f n)
            (params.getRandomXPowLimit (n + 1)).toNat) := by
  have halg : params.getPowAlgorithm n = params.getPowAlgorithm (n + 1) :=
    getPowAlgorithm_succ hreset
  have hone := params.interval_ge_one
  have hle : params.difficultyAdjustmentInterval ≤ n + 1 :=
    Int.le_of_dvd (by omega) (Int.dvd_of_emod_eq_zero h)
  rw [getNextWorkRequired_retarget f pblock hno hreset h]
  cases hbip : params.enforceBIP94 with
  | false =>
    have hbase : retargetBase params (CBlockIndex.chainOf f n) =
        some (setCompact (f n).nBits).value := by
      simp [retargetBase, hbip, CBlockIndex.nBits]
    rw [hbase]
    exact Or.inr ⟨n, le_rfl, halg, rfl⟩
  | true =>
    rw [retargetBase_eq f hbip h]
    by_cases hfirst : params.getPowAlgorithm (n + 1 - params.difficultyAdjustmentInterval) =
        params.getPowAlgorithm (n + 1)
    · rw [if_pos hfirst]
      refine Or.inr ⟨n + 1 - params.difficultyAdjustmentInterval.toNat, by omega, ?_, rfl⟩
      rw [show ((n + 1 - params.difficultyAdjustmentInterval.toNat : ℕ) : ℤ) =
        n + 1 - params.difficultyAdjustmentInterval by omega]
      exact hfirst
    · rw [if_neg hfirst]
      exact Or.inl rfl

theorem retargetFrom_chainOf {k : ℕ} (h : ((n : ℤ) + 1) % params.difficultyAdjustmentInterval = 0) :
    retargetFrom params (CBlockIndex.chainOf f n) (CBlockIndex.chainOf f k) =
      some (getCompact
        (adjustTarget params (setCompact (f k).nBits).value (periodTimespan params f n)
        (params.getRandomXPowLimit (n + 1)).toNat)) := by
  rw [retargetFrom, getAncestor_first f h, Option.map_some]
  simp [periodTimespan, CBlockIndex.nBits, CBlockIndex.getBlockTime]

end NextWork

/-- **No difficulty leaks from one algorithm to another.** -/
theorem work_within_algorithm (params : Params) (hno : params.fPowNoRetargeting = false)
    (pindexLast : CBlockIndex) (pblock : CBlockHeader) :
    let result := getNextWorkRequired params pindexLast pblock
    result = getCompact (params.getActivePowLimit (pindexLast.nHeight + 1)).toNat ∨
      ∃ a, SameAlgorithm params pindexLast a ∧
        (result = a.nBits ∨ retargetFrom params pindexLast a = some result) := by
  intro result
  obtain ⟨f, hf⟩ := pindexLast.exists_chainOf
  have hresult : result = getNextWorkRequired params pindexLast pblock := rfl
  generalize pindexLast.nHeight = n at hf
  subst hf
  cases hreset : resetsAt params (n + 1) with
  | true => exact Or.inl (getNextWorkRequired_reset f pblock (Or.inr hreset))
  | false =>
    by_cases hend : ((n : ℤ) + 1) % params.difficultyAdjustmentInterval = 0
    · obtain hlimit | ⟨k, hk, hsame, heq⟩ := nextWork_at_end f pblock hno hreset hend
      · exact Or.inl hlimit
      · refine Or.inr ⟨_, sameAlgorithm_chainOf f hk hsame, Or.inr ?_⟩
        rw [retargetFrom_chainOf f hend, hresult, heq]
    · obtain hlimit | ⟨k, hk, hsame, heq⟩ := nextWork_within f pblock hno hreset hend
      · exact Or.inl hlimit
      · refine Or.inr ⟨_, sameAlgorithm_chainOf f hk hsame, Or.inl ?_⟩
        rw [hresult, heq, CBlockIndex.nBits, CBlockIndex.header_chainOf]

theorem work_within_algorithm_cross :
    crossParams.fPowNoRetargeting = false ∧
      (getNextWorkRequired crossParams crossLast ⟨4, 0, 0, 4, 0, 0⟩ =
          getCompact (crossParams.getActivePowLimit 2).toNat ∨
        ∃ a, SameAlgorithm crossParams crossLast a ∧
          (getNextWorkRequired crossParams crossLast ⟨4, 0, 0, 4, 0, 0⟩ = a.nBits ∨
            retargetFrom crossParams crossLast a =
              some (getNextWorkRequired crossParams crossLast ⟨4, 0, 0, 4, 0, 0⟩))) :=
  ⟨rfl, work_within_algorithm crossParams rfl crossLast ⟨4, 0, 0, 4, 0, 0⟩⟩

end OpenSY.Pow
