import OpenSY.Pow.Extend
import OpenSY.Validation.Header

/-!
# Header synchronisation against the header rules

A new node first downloads headers without storing them and gives up on a peer as soon as
`permittedDifficultyTransition` is false.  Here the chains that the header rules of the main network
accept are compared with the transitions that it permits.

* `permitted_retarget_iff` — the range of targets that is permitted at the end of a period;
* `permitted_after_bootstrap` — every later transition of an accepted chain is permitted;
* `presync_accepts_iff` — what that leaves: the ends of the bootstrap-phase periods, where headers
  may choose their `nBits`, and the first block after the bootstrap phase, where the difficulty
  resets.
-/

namespace OpenSY.Validation

open OpenSY.Chain OpenSY.Consensus OpenSY.Pow OpenSY.FloatTruncation

/-- The targets that are permitted after the target `old` when a period ends: up to four times as
large, within the limit, and down to a fourth, as far as the compact encoding can tell. -/
def PermittedTarget (limit old new : ℕ) : Prop :=
  new ≤ compactFormat.trunc (min (4 * old % 2 ^ 256) limit) ∧
    compactFormat.trunc (min (old / 4) limit) ≤ new

theorem extremeTarget_main (oldNBits : BitVec 32) {ts : ℤ} (hlow : 0 ≤ ts) (hhigh : ts ≤ 4838400)
    {limit : ℕ} (hlimit : limit < 2 ^ 256) :
    extremeTarget mainParams oldNBits ts limit = compactFormat.trunc
      (min ((setCompact oldNBits).value * ts.toNat / 1209600 % 2 ^ 256) limit) := by
  have hfit : mainParams.nPowTargetTimespan * 4 < 2 ^ 32 := by decide
  have hadjust := adjustTarget_eq hfit (setCompact oldNBits).value hlow hhigh limit
  rw [extremeTarget, hadjust,
    setCompact_getCompact (lt_of_le_of_lt (min_le_right _ _) hlimit)]
  rfl

/-- **The end of a period**, away from the fork. -/
theorem permitted_retarget_iff {height : ℤ} (hperiod : height % 10080 = 0) (hfork : height ≠ 210000)
    (oldNBits newNBits : BitVec 32) :
    permittedDifficultyTransition mainParams height oldNBits newNBits = true ↔
      (setCompact oldNBits).value = (mainParams.getActivePowLimit height).toNat ∧
        (setCompact newNBits).value = (mainParams.getActivePowLimit height).toNat ∨
      PermittedTarget (mainParams.getActivePowLimit height).toNat (setCompact oldNBits).value
        (setCompact newNBits).value := by
  have hlimit := (mainParams.getActivePowLimit height).isLt
  have hlong : 0 ≤ mainParams.nPowTargetTimespan * 4 := by decide
  have hshort : 0 ≤ mainParams.nPowTargetTimespan / 4 := by decide
  have hmax := extremeTarget_main oldNBits hlong (by decide) hlimit
  have hmin := extremeTarget_main oldNBits hshort (by decide) hlimit
  have hfour : (setCompact oldNBits).value * (mainParams.nPowTargetTimespan * 4).toNat / 1209600 =
      4 * (setCompact oldNBits).value := by
    show _ * 4838400 / 1209600 = _
    omega
  have hfourth : (setCompact oldNBits).value * (mainParams.nPowTargetTimespan / 4).toNat / 1209600 =
      (setCompact oldNBits).value / 4 := by
    show _ * 302400 / 1209600 = _
    omega
  have hsmall : (setCompact oldNBits).value / 4 % 2 ^ 256 = (setCompact oldNBits).value / 4 := by
    refine Nat.mod_eq_of_lt (lt_of_le_of_lt (Nat.div_le_self _ _) ?_)
    exact setCompact_lt oldNBits
  rw [hfour] at hmax
  rw [hfourth, hsmall] at hmin
  simp only [permittedDifficultyTransition, PermittedTarget, ← hmax, ← hmin]
  rw [if_neg (by decide), if_neg (by exact hfork), if_neg fun h => absurd h.1 (by decide),
    if_pos (by exact hperiod)]
  split_ifs with hreset hupper hlower
  · exact iff_of_true rfl (Or.inl hreset)
  · refine iff_of_false (by simp) ?_
    rintro (h | ⟨h, -⟩)
    · exact hreset h
    · omega
  · refine iff_of_false (by simp) ?_
    rintro (h | ⟨-, h⟩)
    · exact hreset h
    · omega
  · exact iff_of_true rfl (Or.inr ⟨not_lt.mp hupper, not_lt.mp hlower⟩)

/-- Inside a period. -/
theorem permitted_keep_iff {height : ℤ} (hperiod : height % 10080 ≠ 0) (hfork : height ≠ 210000)
    (oldNBits newNBits : BitVec 32) :
    permittedDifficultyTransition mainParams height oldNBits newNBits = true ↔
      oldNBits = newNBits ∨ height ≤ 210520 := by
  simp only [permittedDifficultyTransition]
  rw [if_neg (by decide), if_neg (by exact hfork), if_neg fun h => absurd h.1 (by decide),
    if_neg (by exact hperiod)]
  have hphase : (!mainParams.isRandomXActive height || mainParams.isBootstrap height) = true ↔
      height ≤ 210520 := by
    show (!(decide (height ≥ 210000) && !(decide ((-1 : ℤ) ≥ 0) && decide (height ≥ -1))) ||
      decide ((210520 : ℤ) ≥ 0) && decide (height ≤ 210520)) = true ↔ _
    simp
    omega
  split_ifs with hsame
  · rw [hphase, or_iff_right hsame]
  · exact iff_of_true rfl (Or.inl (not_not.mp hsame))

/-! ### Accepted chains -/

/-- The headers up to height `n` were accepted one after another. -/
def AcceptedHeaders (hashes : PowHash) (f : ℕ → CBlockHeader) (n : ℕ) : Prop :=
  ∀ k < n, checkHeaderWork hashes mainParams (f (k + 1)) (CBlockIndex.chainOf f k) = .ok ()

section Accepted

variable {hashes : PowHash} {f : ℕ → CBlockHeader} {n : ℕ}
  (hacc : AcceptedHeaders hashes f n) {k : ℕ}
include hacc

/-- Past the bootstrap phase `nBits` are as demanded, with a target within the RandomX limit. -/
theorem AcceptedHeaders.enforced (hk : k < n) (hend : 210520 < k + 1) :
    (f (k + 1)).nBits =
        getNextWorkRequired mainParams (CBlockIndex.chainOf f k) (f (k + 1)) ∧
      (setCompact (f (k + 1)).nBits).value ≤ mainParams.powLimitRandomX.toNat := by
  obtain ⟨hbits, hpow⟩ := checkHeaderWork_ok_iff.mp (hacc k hk)
  rw [CBlockIndex.nHeight_chainOf] at hbits hpow
  have hidle : mainParams.isArgon2EmergencyActive (k + 1) = false := rfl
  have hfork : mainParams.nRandomXForkHeight ≤ (k : ℤ) + 1 := by
    show (210000 : ℤ) ≤ k + 1
    omega
  have hboot : mainParams.nBootstrapEndHeight < (k : ℤ) + 1 := by
    show (210520 : ℤ) < k + 1
    omega
  refine ⟨hbits (by simp [Params.isRandomXActive, hidle, hfork]) (isBootstrap_of_lt hboot), ?_⟩
  have halg := mainParams.getPowAlgorithm_of_fork hidle hfork
  simp only [checkProofOfWorkAtHeight, halg] at hpow
  split_ifs at hpow
  rw [checkProofOfWorkImplAt, checkedPowLimit_of_lt hboot] at hpow
  obtain ⟨target, htarget⟩ := Option.isSome_iff_exists.mp (meetsTarget_isSome hpow)
  obtain ⟨hset, -, hmax⟩ := deriveTarget_eq_some.mp htarget
  rw [Params.getActivePowLimit, halg] at hmax
  rw [hset]
  exact hmax

theorem AcceptedHeaders.nBits_keep (hk : k < n) (hend : 210521 < k + 1)
    (hperiod : (k + 1) % 10080 ≠ 0) :
    (f (k + 1)).nBits = (f k).nBits := by
  have hreset : resetsAt mainParams (k + 1) = false := by
    rw [Bool.eq_false_iff, Ne,
      show mainParams = mainParamsWith (-1) mainParams.powLimitArgon2 from rfl, resetsAt_main]
    omega
  rw [(hacc.enforced hk (by omega)).1]
  refine getNextWorkRequired_keep f _ rfl rfl hreset ?_
  show ((k : ℤ) + 1) % 10080 ≠ 0
  omega

/-- The first block after the bootstrap phase is back at the limit. -/
theorem AcceptedHeaders.nBits_reset (hn : 210520 < n) : (f 210521).nBits = 0x1f00ffff := by
  rw [(hacc.enforced hn (by decide)).1, getNextWorkRequired_reset f _ (Or.inr (by decide))]
  decide +kernel

/-- `nBits` stay the same from a height past the bootstrap phase to the end of its period. -/
theorem AcceptedHeaders.nBits_period {j : ℕ} (hj : 210521 ≤ j) (hk : j + k ≤ n)
    (hperiod : j % 10080 + k < 10080) : (f (j + k)).nBits = (f j).nBits := by
  induction k with
  | zero => rfl
  | succ k ih =>
    rw [← Nat.add_assoc, hacc.nBits_keep (by omega) (by omega) (by omega)]
    exact ih (by omega) (by omega)

end Accepted

/-! ### After the bootstrap phase -/

theorem getActivePowLimit_randomx {h : ℤ} (hh : 210000 ≤ h) :
    mainParams.getActivePowLimit h = mainParams.powLimitRandomX := by
  rw [Params.getActivePowLimit, mainParams.getPowAlgorithm_of_fork rfl hh]
  rfl

theorem getActivePowLimit_sha256d {h : ℤ} (hh : h < 210000) :
    mainParams.getActivePowLimit h = mainParams.powLimit := by
  rw [Params.getActivePowLimit, mainParams.getPowAlgorithm_of_lt rfl hh]

/-- The limit of RandomX is not a number of the compact format. -/
theorem trunc_powLimitRandomX :
    compactFormat.trunc mainParams.powLimitRandomX.toNat = (setCompact 0x1f00ffff).value := by
  have hround := setCompact_getCompact mainParams.powLimitRandomX.isLt
  rw [show getCompact mainParams.powLimitRandomX.toNat = 0x1f00ffff by decide +kernel] at hround
  rw [hround]

/-- From one period at the limit to the next. -/
theorem permittedTarget_limit :
    PermittedTarget mainParams.powLimitRandomX.toNat (setCompact 0x1f00ffff).value
      (setCompact 0x1f00ffff).value := by
  rw [PermittedTarget]
  have hmax : min (4 * (setCompact 0x1f00ffff).value % 2 ^ 256) mainParams.powLimitRandomX.toNat =
      mainParams.powLimitRandomX.toNat := by
    decide +kernel
  refine ⟨by rw [hmax, trunc_powLimitRandomX], ?_⟩
  rw [← trunc_powLimitRandomX]
  exact Format.trunc_mono (min_le_right _ _)

/-- A retarget stays in the permitted range. -/
theorem permittedTarget_adjusted {old limit : ℕ} (hold : old ≤ limit) (hlimit : limit < 2 ^ 254)
    {ts : ℤ} (hlow : 302400 ≤ ts) (hhigh : ts ≤ 4838400) :
    PermittedTarget limit old
      (setCompact (getCompact (adjustTarget mainParams old ts limit))).value := by
  have hfit : mainParams.nPowTargetTimespan * 4 < 2 ^ 32 := by decide
  have hnonneg : 0 ≤ ts := by omega
  have hadjust := adjustTarget_eq hfit old hnonneg hhigh limit
  have hupper : old * ts.toNat / 1209600 ≤ 4 * old := by
    refine Nat.div_le_of_le_mul ?_
    calc old * ts.toNat ≤ old * 4838400 := Nat.mul_le_mul_left _ (by omega)
      _ = 1209600 * (4 * old) := by ring
  have hlower : old / 4 ≤ old * ts.toNat / 1209600 := by
    calc old / 4 = old * 302400 / 1209600 := by omega
      _ ≤ old * ts.toNat / 1209600 :=
        Nat.div_le_div_right (Nat.mul_le_mul_left _ (by omega))
  have hexact : old * ts.toNat / mainParams.nPowTargetTimespan.toNat % 2 ^ 256 =
      old * ts.toNat / 1209600 := Nat.mod_eq_of_lt (by show _ / 1209600 < _; omega)
  rw [hexact] at hadjust
  rw [hadjust, setCompact_getCompact (lt_of_le_of_lt (min_le_right _ _) (by omega))]
  refine ⟨Format.trunc_mono (min_le_min_right _ ?_), Format.trunc_mono (min_le_min_right _ hlower)⟩
  rw [Nat.mod_eq_of_lt (by omega)]
  exact hupper

section Accepted

variable {hashes : PowHash} {f : ℕ → CBlockHeader} {n : ℕ}
  (hacc : AcceptedHeaders hashes f n) {k : ℕ}
include hacc

/-- The first period that ends under RandomX began under the first algorithm: the difficulty resets
once more. -/
theorem AcceptedHeaders.permitted_first (hn : 211679 < n) :
    PermittedTarget mainParams.powLimitRandomX.toNat (setCompact (f 211679).nBits).value
      (setCompact (f 211680).nBits).value := by
  have hold : (f 211679).nBits = 0x1f00ffff := by
    rw [← hacc.nBits_reset (by omega)]
    exact hacc.nBits_period (j := 210521) (k := 1158) le_rfl (by omega) (by decide)
  have hbase : retargetBase mainParams (CBlockIndex.chainOf f 211679) = none := by
    rw [retargetBase_eq f rfl (by decide)]
    exact if_neg (by decide)
  have hnew : (f 211680).nBits = 0x1f00ffff := by
    rw [(hacc.enforced hn (by decide)).1,
      getNextWorkRequired_retarget f _ rfl (by decide) (by decide), hbase]
    show getCompact (mainParams.getActivePowLimit (211679 + 1)).toNat = _
    decide +kernel
  rw [hold, hnew]
  exact permittedTarget_limit

/-- Every later period begins and ends under RandomX. -/
theorem AcceptedHeaders.permitted_later (hk : k < n) (hlater : 211680 < k + 1)
    (hperiod : (k + 1) % 10080 = 0) :
    PermittedTarget mainParams.powLimitRandomX.toNat (setCompact (f k).nBits).value
      (setCompact (f (k + 1)).nBits).value := by
  have hfirst : k + 1 - mainParams.difficultyAdjustmentInterval.toNat = k - 10079 := by
    show k + 1 - 10080 = _
    omega
  have hperiod' : ((k : ℤ) + 1) % mainParams.difficultyAdjustmentInterval = 0 := by
    show ((k : ℤ) + 1) % 10080 = 0
    omega
  have hkeep : (f k).nBits = (f (k - 10079)).nBits := by
    have hsame := hacc.nBits_period (j := k - 10079) (k := 10079) (by omega) (by omega) (by omega)
    rwa [Nat.sub_add_cancel (by omega)] at hsame
  have hbase : retargetBase mainParams (CBlockIndex.chainOf f k) =
      some (setCompact (f k).nBits).value := by
    rw [retargetBase_eq f rfl hperiod', hfirst, ← hkeep]
    refine if_pos ?_
    rw [mainParams.getPowAlgorithm_of_fork rfl, mainParams.getPowAlgorithm_of_fork rfl]
    · show (210000 : ℤ) ≤ k + 1
      omega
    · show (210000 : ℤ) ≤ k + 1 - 10080
      omega
  have hreset : resetsAt mainParams (k + 1) = false := by
    rw [Bool.eq_false_iff, Ne,
      show mainParams = mainParamsWith (-1) mainParams.powLimitArgon2 from rfl, resetsAt_main]
    omega
  have hdemand := (hacc.enforced hk (by omega)).1
  rw [getNextWorkRequired_retarget f _ rfl hreset hperiod', hbase] at hdemand
  simp only [Params.getRandomXPowLimit, getActivePowLimit_randomx (h := (k : ℤ) + 1) (by omega)]
    at hdemand
  have hold : (setCompact (f k).nBits).value ≤ mainParams.powLimitRandomX.toNat := by
    have hprev := (hacc.enforced (k := k - 1) (by omega) (by omega)).2
    rwa [Nat.sub_add_cancel (by omega)] at hprev
  rw [hdemand]
  exact permittedTarget_adjusted hold (by decide) (clampTimespan_bounds mainParams _).1
    (clampTimespan_bounds mainParams _).2

/-- **After the bootstrap phase** and its first block every transition is permitted. -/
theorem permitted_after_bootstrap (hk : k < n) (hend : 210521 < k + 1) :
    permittedDifficultyTransition mainParams (k + 1) (f k).nBits (f (k + 1)).nBits = true := by
  by_cases hperiod : (k + 1) % 10080 = 0
  · rw [permitted_retarget_iff (by omega) (by omega), getActivePowLimit_randomx (by omega)]
    right
    by_cases hfirst : k = 211679
    · subst hfirst
      exact hacc.permitted_first hk
    · exact hacc.permitted_later hk (by omega) hperiod
  · rw [permitted_keep_iff (by omega) (by omega)]
    exact Or.inl (hacc.nBits_keep hk hend hperiod).symm

end Accepted

/-! ### The bootstrap phase -/

/-- What the headers at the heights `k` and `k + 1` have to meet.  At the end of a bootstrap-phase
period the new target has to stay in the permitted range, under the ordinary limit; and the
bootstrap phase has to end at the limit that the difficulty is reset to. -/
def PresyncCondition (f : ℕ → CBlockHeader) (k : ℕ) : Prop :=
  ((k + 1) % 10080 = 0 → k + 1 ≤ 210520 →
    (setCompact (f (k + 1)).nBits).value ≤ 4 * (setCompact (f k).nBits).value % 2 ^ 256 ∧
    (setCompact (f (k + 1)).nBits).value ≤ mainParams.powLimit.toNat ∧
    compactFormat.trunc (min ((setCompact (f k).nBits).value / 4) mainParams.powLimit.toNat) ≤
      (setCompact (f (k + 1)).nBits).value) ∧
  (k + 1 = 210521 → (f k).nBits = 0x1f00ffff)

/-- Before the fork an accepted header has a target that the compact format can represent. -/
theorem AcceptedHeaders.representable {hashes : PowHash} {f : ℕ → CBlockHeader} {n : ℕ}
    (hacc : AcceptedHeaders hashes f n) {k : ℕ} (hk : k < n) (hfork : k + 1 < 210000) :
    compactFormat.Representable (setCompact (f (k + 1)).nBits).value := by
  have hpow := (checkHeaderWork_ok_iff.mp (hacc k hk)).2
  rw [CBlockIndex.nHeight_chainOf] at hpow
  have hfork' : (k : ℤ) + 1 < mainParams.nRandomXForkHeight := by
    show (k : ℤ) + 1 < 210000
    omega
  simp only [checkProofOfWorkAtHeight, mainParams.getPowAlgorithm_of_lt rfl hfork',
    checkProofOfWork, checkProofOfWorkImpl] at hpow
  have hflag : ∀ {limit : Uint256} {target : ℕ},
      deriveTarget (f (k + 1)).nBits limit = some target →
      (setCompact (f (k + 1)).nBits).overflow = false := by
    intro limit target htarget
    rw [(deriveTarget_eq_some.mp htarget).1]
  refine representable_setCompact ?_
  cases hordinary : deriveTarget (f (k + 1)).nBits mainParams.powLimit with
  | some target => exact hflag hordinary
  | none =>
    rw [hordinary] at hpow
    simp only [if_pos (show mainParams.powLimitBootstrap ≠ 0 by decide)] at hpow
    obtain ⟨target, htarget⟩ := Option.isSome_iff_exists.mp (meetsTarget_isSome hpow)
    exact hflag htarget

/-- The end of a period in the bootstrap phase. -/
theorem AcceptedHeaders.permitted_bootstrap_iff {hashes : PowHash} {f : ℕ → CBlockHeader} {n : ℕ}
    (hacc : AcceptedHeaders hashes f n) {k : ℕ} (hk : k < n) (hperiod : (k + 1) % 10080 = 0)
    (hend : k + 1 ≤ 210520) :
    permittedDifficultyTransition mainParams (k + 1) (f k).nBits (f (k + 1)).nBits = true ↔
      (setCompact (f (k + 1)).nBits).value ≤ 4 * (setCompact (f k).nBits).value % 2 ^ 256 ∧
      (setCompact (f (k + 1)).nBits).value ≤ mainParams.powLimit.toNat ∧
      compactFormat.trunc (min ((setCompact (f k).nBits).value / 4) mainParams.powLimit.toNat) ≤
        (setCompact (f (k + 1)).nBits).value := by
  rw [permitted_retarget_iff (by omega) (by omega), getActivePowLimit_sha256d (by omega),
    PermittedTarget, Format.le_trunc_iff (hacc.representable hk (by omega)), le_min_iff, and_assoc]
  refine or_iff_right_of_imp ?_
  rintro ⟨hold, hnew⟩
  rw [hold, hnew]
  refine ⟨by decide +kernel, le_rfl, (Format.trunc_le _).trans (min_le_right _ _)⟩

/-- **Which accepted chains header synchronisation lets through.** -/
theorem presync_accepts_iff {hashes : PowHash} {f : ℕ → CBlockHeader} {n : ℕ}
    (hacc : AcceptedHeaders hashes f n) :
    (∀ k < n,
      permittedDifficultyTransition mainParams (k + 1) (f k).nBits (f (k + 1)).nBits = true) ↔
      ∀ k < n, PresyncCondition f k := by
  refine forall₂_congr fun k hk => ?_
  rw [PresyncCondition]
  by_cases hafter : 210521 < k + 1
  · refine iff_of_true (permitted_after_bootstrap hacc hk hafter) ⟨fun _ hend => ?_, fun hend => ?_⟩
    · omega
    · omega
  by_cases hreset : k + 1 = 210521
  · -- the difficulty is reset, in the middle of a period
    obtain rfl : k = 210520 := by omega
    rw [permitted_keep_iff (by decide) (by decide), hacc.nBits_reset hk]
    simp
  · by_cases hperiod : (k + 1) % 10080 = 0
    · rw [hacc.permitted_bootstrap_iff hk hperiod (by omega)]
      simp [hperiod, hreset, show k + 1 ≤ 210520 by omega]
    · refine iff_of_true ?_ ⟨fun h => absurd h hperiod, fun h => absurd h hreset⟩
      by_cases hfork : (k : ℤ) + 1 = 210000
      · rw [hfork]
        simp [permittedDifficultyTransition, mainParams]
      · rw [permitted_keep_iff (by omega) hfork]
        exact Or.inr (by omega)

/-! ### The bootstrap chain -/

/-- The header that the bootstrap phase was mined with. -/
def bootstrapHeader : CBlockHeader := ⟨4, 0, 0, 0, 0x207fffff, 0⟩

theorem bootstrap_accepted : AcceptedHeaders nullHashes (fun _ => bootstrapHeader) 10080 := by
  intro k hk
  rw [checkHeaderWork_ok_iff, CBlockIndex.nHeight_chainOf]
  have hfork : (k : ℤ) + 1 < mainParams.nRandomXForkHeight := by
    show (k : ℤ) + 1 < 210000
    omega
  refine ⟨fun hactive => ?_, ?_⟩
  · simp only [Params.isRandomXActive, Bool.and_eq_true, decide_eq_true_eq] at hactive
    omega
  · simp only [checkProofOfWorkAtHeight, mainParams.getPowAlgorithm_of_lt rfl hfork]
    decide +kernel

theorem presync_accepts_bootstrap :
    AcceptedHeaders nullHashes (fun _ => bootstrapHeader) 10080 ∧
    ((∀ k : ℕ, k < 10080 → permittedDifficultyTransition mainParams (k + 1) bootstrapHeader.nBits
        bootstrapHeader.nBits = true) ↔
      ∀ k : ℕ, k < 10080 → PresyncCondition (fun _ => bootstrapHeader) k) :=
  ⟨bootstrap_accepted, presync_accepts_iff bootstrap_accepted⟩

/-- All headers at the bootstrap difficulty: accepted, but header synchronisation gives up at the
end of the first period. -/
theorem presync_rejects_bootstrap :
    AcceptedHeaders nullHashes (fun _ => bootstrapHeader) 10080 ∧
    permittedDifficultyTransition mainParams 10080 bootstrapHeader.nBits bootstrapHeader.nBits =
      false :=
  ⟨bootstrap_accepted, by decide +kernel⟩

end OpenSY.Validation
