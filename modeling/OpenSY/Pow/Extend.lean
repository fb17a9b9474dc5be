import OpenSY.Pow.Check

/-!
# Whether the chain can be extended

On the main network, with the emergency algorithm set to any height past the bootstrap phase and to
any limit, the difficulty rules demand some `nBits` of the next block.  No block can be mined if
these encode no target within the limit that the proof-of-work check applies.

* `derives_reset`, `derives_keep`, `derives_retarget` — the three answers of the rules; only the
  last can fail, when the product of the retarget overflows to zero;
* `chain_extendable_iff` — hence exactly which chains can be extended at every height;
* `extendable_of_limit_lt` — no product overflows under a limit below `2 ^ 254`.
-/

namespace OpenSY.Pow

open OpenSY.Chain OpenSY.Consensus

/-- The chain given by the headers up to height `n` follows the rules on `nBits`: in the bootstrap
phase any target will do, after it `nBits` are as demanded. -/
structure FollowsRules (params : Params) (f : ℕ → CBlockHeader) (n : ℕ) : Prop where
  bootstrap : ∀ k ≤ n, (k : ℤ) ≤ params.nBootstrapEndHeight →
    (deriveTarget (f k).nBits params.powLimitBootstrap).isSome = true
  enforced : ∀ k < n, params.nBootstrapEndHeight < (k : ℤ) + 1 →
    (f (k + 1)).nBits = getNextWorkRequired params (CBlockIndex.chainOf f k) (f (k + 1))

/-- Block `k` is the last of a period, and no phase begins after it. -/
def Retargets (params : Params) (k : ℕ) : Prop :=
  resetsAt params (k + 1) = false ∧ ((k : ℤ) + 1) % params.difficultyAdjustmentInterval = 0

/-- The next block after block `k` can be mined. -/
def Extendable (params : Params) (f : ℕ → CBlockHeader) (k : ℕ) : Prop :=
  ∀ block, (deriveTarget (getNextWorkRequired params (CBlockIndex.chainOf f k) block)
    (checkedPowLimit params (k + 1))).isSome = true

/-- The target that the retarget after block `k` works out, before it is cut to 256 bits. -/
def exactTarget (params : Params) (f : ℕ → CBlockHeader) (k base : ℕ) : ℕ :=
  base * (periodTimespan params f k).toNat / params.nPowTargetTimespan.toNat

/-- The retarget after block `k` overflows, and nothing is left of the target. -/
def Vanishes (params : Params) (f : ℕ → CBlockHeader) (k : ℕ) : Prop :=
  ∃ base, retargetBase params (CBlockIndex.chainOf f k) = some base ∧
    0 < exactTarget params f k base ∧ 2 ^ 256 ∣ exactTarget params f k base

section Main

variable {a : ℤ} {l : Uint256}

theorem mainParamsWith_interval (a : ℤ) (l : Uint256) :
    (mainParamsWith a l).difficultyAdjustmentInterval = 10080 := rfl

theorem mainParamsWith_timespan (a : ℤ) (l : Uint256) :
    (mainParamsWith a l).nPowTargetTimespan = 1209600 := rfl

theorem resetsAt_main (h : ℤ) :
    resetsAt (mainParamsWith a l) h = true ↔ h = 210521 ∨ h = 210000 ∨ h = a ∧ 0 ≤ a := by
  show (decide ((210520 : ℤ) ≥ 0) && decide (h = 210520 + 1) || decide (h = 210000) ||
    decide (a ≥ 0) && decide (h = a)) = true ↔ _
  simp only [Bool.or_eq_true, Bool.and_eq_true, decide_eq_true_eq]
  omega

theorem getActivePowLimit_main {h : ℤ} (hh : 210000 ≤ h) (hl : l ≠ 0) :
    (mainParamsWith a l).getActivePowLimit h = if 0 ≤ a ∧ a ≤ h then l
      else mainParams.powLimitRandomX := by
  by_cases hactive : 0 ≤ a ∧ a ≤ h
  · have halg : (mainParamsWith a l).getPowAlgorithm h = .argon2id := by
      refine Params.getPowAlgorithm_of_argon2 _ ?_
      simp [Params.isArgon2EmergencyActive, mainParamsWith, hactive]
    have hset : (mainParamsWith a l).powLimitArgon2 ≠ 0 := hl
    rw [if_pos hactive, Params.getActivePowLimit, halg]
    exact if_pos hset
  · have halg : (mainParamsWith a l).getPowAlgorithm h = .randomx := by
      refine Params.getPowAlgorithm_of_fork _ ?_ hh
      show (decide (a ≥ 0) && decide (h ≥ a)) = false
      rw [← Bool.decide_and, decide_eq_false_iff_not]
      omega
    rw [if_neg hactive, Params.getActivePowLimit, halg]
    rfl

theorem getActivePowLimit_ne_zero {h : ℤ} (hh : 210000 ≤ h) (hl : l ≠ 0) :
    (mainParamsWith a l).getActivePowLimit h ≠ 0 := by
  rw [getActivePowLimit_main hh hl]
  split_ifs
  · exact hl
  · decide

/-- Past the bootstrap phase the limit that demands a target is the limit that checks it. -/
theorem checkedPowLimit_main {h : ℤ} (hh : 210520 < h) :
    checkedPowLimit (mainParamsWith a l) h = (mainParamsWith a l).getActivePowLimit h := by
  have hend : ¬ ((mainParamsWith a l).nBootstrapEndHeight ≥ 0 ∧ h ≥ 0 ∧
      h ≤ (mainParamsWith a l).nBootstrapEndHeight) := by
    show ¬ ((210520 : ℤ) ≥ 0 ∧ h ≥ 0 ∧ h ≤ 210520)
    omega
  rw [checkedPowLimit, if_neg hend]
  rfl

/-- The limit changes where the emergency algorithm sets in, only. -/
theorem getActivePowLimit_succ {h : ℤ} (hh : 210000 ≤ h) (hl : l ≠ 0) (hne : h + 1 ≠ a) :
    (mainParamsWith a l).getActivePowLimit (h + 1) = (mainParamsWith a l).getActivePowLimit h := by
  rw [getActivePowLimit_main (by omega) hl, getActivePowLimit_main hh hl]
  have hiff : 0 ≤ a ∧ a ≤ h + 1 ↔ 0 ≤ a ∧ a ≤ h := by omega
  simp only [hiff]

theorem toNat_pos_of_ne_zero {x : Uint256} (hx : x ≠ 0) : 0 < x.toNat :=
  Nat.pos_of_ne_zero fun hzero => hx (BitVec.eq_of_toNat_eq hzero)

/-! ### The three answers -/

variable (f : ℕ → CBlockHeader) {k : ℕ}

/-- The limit itself is a target. -/
theorem derives_limit (hl : l ≠ 0) (hk : 210520 < (k : ℤ) + 1) :
    (deriveTarget (getCompact ((mainParamsWith a l).getRandomXPowLimit (k + 1)).toNat)
      (checkedPowLimit (mainParamsWith a l) (k + 1))).isSome = true := by
  rw [checkedPowLimit_main hk]
  show (deriveTarget (getCompact ((mainParamsWith a l).getActivePowLimit (k + 1)).toNat)
    ((mainParamsWith a l).getActivePowLimit (k + 1))).isSome = true
  rw [deriveTarget_getCompact (toNat_pos_of_ne_zero (getActivePowLimit_ne_zero (by omega) hl))
    le_rfl, Option.isSome_some]

theorem derives_reset (hl : l ≠ 0) (hk : 210520 < (k : ℤ) + 1)
    (hreset : resetsAt (mainParamsWith a l) (k + 1) = true) :
    Extendable (mainParamsWith a l) f k := by
  intro block
  rw [getNextWorkRequired_reset f block (Or.inr hreset)]
  exact derives_limit hl hk

/-- Inside a period the last target is kept, and so is its limit. -/
theorem derives_keep (hl : l ≠ 0) {n : ℕ}
    (hrules : FollowsRules (mainParamsWith a l) f n) (hkn : k + 1 ≤ n)
    (hk : 210520 < ((k : ℤ) + 1) + 1) (hreset : resetsAt (mainParamsWith a l) (k + 1 + 1) = false)
    (hkeep : ((k : ℤ) + 1 + 1) % 10080 ≠ 0) (hlast : 210520 < (k : ℤ) + 1 →
      Extendable (mainParamsWith a l) f k) :
    Extendable (mainParamsWith a l) f (k + 1) := by
  have hplaces := (resetsAt_main (a := a) (l := l) (k + 1 + 1)).not.mp (by simp [hreset])
  have hk' : 210520 < (k : ℤ) + 1 := by omega
  intro block
  rw [getNextWorkRequired_keep f block rfl rfl (by exact_mod_cast hreset)
    (by rw [mainParamsWith_interval]; exact_mod_cast hkeep),
    hrules.enforced k (by omega) hk', checkedPowLimit_main (by push_cast; omega)]
  have hold := hlast hk' (f (k + 1))
  rw [checkedPowLimit_main hk'] at hold
  push_cast
  rw [getActivePowLimit_succ (by omega) hl (by omega)]
  exact hold

theorem periodTimespan_bounds (a : ℤ) (l : Uint256) (k : ℕ) :
    302400 ≤ periodTimespan (mainParamsWith a l) f k ∧
      periodTimespan (mainParamsWith a l) f k ≤ 4838400 :=
  clampTimespan_bounds (mainParamsWith a l) _

/-- A base of at least four is never divided down to nothing. -/
theorem exactTarget_pos (a : ℤ) (l : Uint256) {base : ℕ} (hbase : 4 ≤ base) :
    0 < exactTarget (mainParamsWith a l) f k base := by
  obtain ⟨hlow, -⟩ := periodTimespan_bounds f a l k
  rw [exactTarget, mainParamsWith_timespan]
  refine Nat.div_pos ?_ (by decide)
  calc (1209600 : ℤ).toNat = 4 * 302400 := rfl
    _ ≤ base * (periodTimespan (mainParamsWith a l) f k).toNat :=
      Nat.mul_le_mul hbase (by omega)

/-- A base within a quarter of the range does not overflow. -/
theorem exactTarget_lt (a : ℤ) (l : Uint256) {base : ℕ} (hbase : base < 2 ^ 254) :
    exactTarget (mainParamsWith a l) f k base < 2 ^ 256 := by
  obtain ⟨-, hhigh⟩ := periodTimespan_bounds f a l k
  rw [exactTarget, mainParamsWith_timespan]
  refine (Nat.div_lt_iff_lt_mul (by decide)).mpr ?_
  calc base * (periodTimespan (mainParamsWith a l) f k).toNat
      ≤ base * 4838400 := Nat.mul_le_mul_left _ (by omega)
    _ < 2 ^ 254 * 4838400 := Nat.mul_lt_mul_of_pos_right hbase (by decide)
    _ = 2 ^ 256 * (1209600 : ℤ).toNat := by decide

/-- **A retarget** from a base of at least four fails exactly if its target vanishes. -/
theorem derives_retarget (hl : l ≠ 0) (hk : 210520 < (k : ℤ) + 1)
    (hretarget : Retargets (mainParamsWith a l) k)
    (hfour : ∀ base, retargetBase (mainParamsWith a l) (CBlockIndex.chainOf f k) = some base →
      4 ≤ base) :
    Extendable (mainParamsWith a l) f k ↔ ¬ Vanishes (mainParamsWith a l) f k := by
  have hdemand := fun block =>
    getNextWorkRequired_retarget f block (show (mainParamsWith a l).fPowNoRetargeting =
      false from rfl) hretarget.1 hretarget.2
  rw [Extendable, Vanishes]
  cases hbase : retargetBase (mainParamsWith a l) (CBlockIndex.chainOf f k) with
  | none =>
    simp only [hbase] at hdemand
    simp only [hdemand, derives_limit hl hk, reduceCtorEq, false_and, exists_false,
      not_false_eq_true, implies_true]
  | some base =>
    simp only [hbase] at hdemand
    obtain ⟨hlow, hhigh⟩ := periodTimespan_bounds f a l k
    have hfit : (mainParamsWith a l).nPowTargetTimespan * 4 < 2 ^ 32 := by
      rw [mainParamsWith_timespan]
      decide
    have hnonneg : 0 ≤ periodTimespan (mainParamsWith a l) f k := by omega
    have hadjust := adjustTarget_eq hfit base hnonneg hhigh
      ((mainParamsWith a l).getRandomXPowLimit (k + 1)).toNat
    rw [← exactTarget] at hadjust
    have hnonempty : Nonempty CBlockHeader := ⟨f 0⟩
    have hpositive := exactTarget_pos f (k := k) a l (hfour base hbase)
    simp only [hdemand, hadjust, Option.some.injEq, exists_eq_left', hpositive, true_and]
    rw [forall_const, checkedPowLimit_main hk, Nat.dvd_iff_mod_eq_zero]
    generalize exactTarget (mainParamsWith a l) f k base % 2 ^ 256 = product
    have hlimit :=
        toNat_pos_of_ne_zero (getActivePowLimit_ne_zero (a := a) (h := k + 1) (by omega) hl)
    rcases Nat.eq_zero_or_pos product with hzero | hpos
    · simp [hzero, deriveTarget_getCompact_zero]
    · have hsome := deriveTarget_getCompact (x := min product
        ((mainParamsWith a l).getActivePowLimit (k + 1)).toNat)
        (lt_min hpos hlimit) (min_le_right _ _)
      have hcheck : (deriveTarget (getCompact (min product
          ((mainParamsWith a l).getRandomXPowLimit (k + 1)).toNat))
          ((mainParamsWith a l).getActivePowLimit (k + 1))).isSome = true :=
        Option.isSome_iff_exists.mpr ⟨_, hsome⟩
      exact iff_of_true hcheck hpos.ne'

/-- **Step.**  If the chain could be extended at the height before, it can be extended here unless a
retarget vanishes. -/
theorem extendable_step (hl : l ≠ 0) {n : ℕ} (hrules : FollowsRules (mainParamsWith a l) f n)
    (hkn : k ≤ n) (hk : 210520 < (k : ℤ) + 1)
    (hretarget : Retargets (mainParamsWith a l) k → Extendable (mainParamsWith a l) f k)
    (hlast : ∀ j, k = j + 1 → 210520 < (j : ℤ) + 1 → Extendable (mainParamsWith a l) f j) :
    Extendable (mainParamsWith a l) f k := by
  by_cases hreset : resetsAt (mainParamsWith a l) (k + 1) = true
  · exact derives_reset f hl hk hreset
  have hreset' : resetsAt (mainParamsWith a l) (k + 1) = false := by simpa using hreset
  by_cases hkeep : ((k : ℤ) + 1) % 10080 = 0
  · exact hretarget ⟨hreset', hkeep⟩
  · obtain ⟨j, rfl⟩ : ∃ j, k = j + 1 := ⟨k - 1, by omega⟩
    push_cast at hk hreset' hkeep
    exact derives_keep f hl hrules hkn hk hreset' hkeep (hlast j rfl)

end Main

/-- **Which chains can be extended.**  Take the main network with the emergency algorithm set in any
way and a chain that follows the rules, all of whose retargets start from a target of at least four.
At every height past the bootstrap phase the next block can be mined, exactly if no retarget
overflows to a multiple of `2 ^ 256`. -/
theorem chain_extendable_iff {a : ℤ} {l : Uint256} (hl : l ≠ 0) {f : ℕ → CBlockHeader} {n : ℕ}
    (hrules : FollowsRules (mainParamsWith a l) f n)
    (hfour : ∀ k ≤ n, 210520 < (k : ℤ) + 1 → Retargets (mainParamsWith a l) k → ∀ base,
      retargetBase (mainParamsWith a l) (CBlockIndex.chainOf f k) = some base → 4 ≤ base) :
    (∀ k ≤ n, 210520 < (k : ℤ) + 1 → Extendable (mainParamsWith a l) f k) ↔
      ∀ k ≤ n, 210520 < (k : ℤ) + 1 → Retargets (mainParamsWith a l) k →
        ¬ Vanishes (mainParamsWith a l) f k := by
  constructor
  · intro hall k hkn hk hretarget
    exact (derives_retarget f hl hk hretarget (hfour k hkn hk hretarget)).mp (hall k hkn hk)
  · intro hvanish k
    induction k with
    | zero =>
      intro _ hk
      simp at hk
    | succ k ih =>
      intro hkn hk
      refine extendable_step f hl hrules hkn hk ?_ ?_
      · intro hretarget
        exact (derives_retarget f hl hk hretarget (hfour _ hkn hk hretarget)).mpr
          (hvanish _ hkn hk hretarget)
      · rintro j hj hj'
        obtain rfl : k = j := by omega
        exact ih (by omega) hj'

/-- The base of a retarget is the target of a block past the bootstrap phase. -/
theorem retargetBase_main {a : ℤ} {l : Uint256} (ha : a = -1 ∨ 210520 < a) {f : ℕ → CBlockHeader}
    {k base : ℕ} (hk : 210520 < (k : ℤ) + 1) (hretarget : Retargets (mainParamsWith a l) k)
    (hbase : retargetBase (mainParamsWith a l) (CBlockIndex.chainOf f k) = some base) :
    ∃ j, 210520 < j + 1 ∧ j < k ∧ base = (setCompact (f (j + 1)).nBits).value := by
  have hmultiple : ((k : ℤ) + 1) % 10080 = 0 := hretarget.2
  rw [retargetBase_eq f rfl hretarget.2, mainParamsWith_interval] at hbase
  split_ifs at hbase with halg
  obtain rfl := Option.some.inj hbase
  refine ⟨k - 10080, ?_, by omega, ?_⟩
  · by_contra hlow
    -- the period would begin under the first algorithm and end under a later one
    have hfirst : (k : ℤ) + 1 - 10080 = 201600 := by omega
    have hidle : (mainParamsWith a l).isArgon2EmergencyActive 201600 = false := by
      show (decide (a ≥ 0) && decide (201600 ≥ a)) = false
      rw [← Bool.decide_and, decide_eq_false_iff_not]
      omega
    rw [hfirst, Params.getPowAlgorithm_of_lt _ hidle (show (201600 : ℤ) < 210000 by decide)] at halg
    cases hactive : (mainParamsWith a l).isArgon2EmergencyActive (k + 1) with
    | true => simp [Params.getPowAlgorithm_of_argon2 _ hactive] at halg
    | false =>
      have hfork : (mainParamsWith a l).nRandomXForkHeight ≤ k + 1 := by
        show (210000 : ℤ) ≤ k + 1
        omega
      simp [Params.getPowAlgorithm_of_fork _ hactive hfork] at halg
  · rw [show k + 1 - (10080 : ℤ).toNat = k - 10080 + 1 from by
      show k + 1 - 10080 = _
      omega]

/-- **No retarget overflows under a limit below `2 ^ 254`**, so the chain can always be extended. -/
theorem extendable_of_limit_lt {a : ℤ} {l : Uint256} (ha : a = -1 ∨ 210520 < a) (hl : l ≠ 0)
    (hlt : l.toNat < 2 ^ 254) {f : ℕ → CBlockHeader} {n : ℕ}
    (hrules : FollowsRules (mainParamsWith a l) f n)
    (hfour : ∀ k ≤ n, 210520 < (k : ℤ) + 1 → Retargets (mainParamsWith a l) k → ∀ base,
      retargetBase (mainParamsWith a l) (CBlockIndex.chainOf f k) = some base → 4 ≤ base) (k : ℕ) :
    k ≤ n → 210520 < (k : ℤ) + 1 → Extendable (mainParamsWith a l) f k := by
  induction k using Nat.strong_induction_on with
  | _ k ih =>
    intro hkn hk
    refine extendable_step f hl hrules hkn hk (fun hretarget => ?_) fun j hj hj' =>
      ih j (by omega) (by omega) hj'
    refine (derives_retarget f hl hk hretarget (hfour k hkn hk hretarget)).mpr ?_
    rintro ⟨base, hbase, hpos, hdvd⟩
    -- the base was a target within the limit when its block was mined
    obtain ⟨j, hj, hjk, rfl⟩ := retargetBase_main ha hk hretarget hbase
    have hsome := ih j hjk (by omega) (by omega) (f (j + 1))
    rw [← hrules.enforced j (by omega) (show (210520 : ℤ) < j + 1 by omega),
      checkedPowLimit_main (by omega)] at hsome
    obtain ⟨target, htarget⟩ := Option.isSome_iff_exists.mp hsome
    obtain ⟨hset, -, hmax⟩ := deriveTarget_eq_some.mp htarget
    simp only [hset] at hpos hdvd
    have hsmall : target < 2 ^ 254 := by
      refine lt_of_le_of_lt hmax ?_
      rw [getActivePowLimit_main (by omega) hl]
      split_ifs
      · exact hlt
      · decide
    have hfits := exactTarget_lt f (k := k) a l hsmall
    exact absurd (Nat.le_of_dvd hpos hdvd) (by omega)

/-! ### Two chains with a retarget

The emergency algorithm sets in at height 211680 with the limit `2 ^ 254`, and the period that
begins there ends in the only retarget of the chain.  If its blocks come every 120 seconds, as they
should, the target stays what it is.  If they take four times as long, the target is multiplied by
four, and nothing is left of it. -/

def quarterLimit : Uint256 := 0x4000000000000000000000000000000000000000000000000000000000000000

abbrev stallParams : Params := mainParamsWith 211680 quarterLimit

/-- A block every `spacing` seconds. -/
def spacedHeader (spacing k : ℕ) : CBlockHeader :=
  ⟨4, 0, 0, spacing * k, if k < 211680 then 0x1f00ffff else 0x20400000, 0⟩

theorem spaced_followsRules (spacing : ℕ) :
    FollowsRules stallParams (spacedHeader spacing) 221759 := by
  refine ⟨fun k _ hk => ?_, fun k hk hend => ?_⟩
  · have hk' : (k : ℤ) ≤ 210520 := hk
    show (deriveTarget (if k < 211680 then 0x1f00ffff else 0x20400000) _).isSome = true
    rw [if_pos (by omega)]
    show (deriveTarget 0x1f00ffff mainParams.powLimitBootstrap).isSome = true
    decide +kernel
  · have hend' : (210520 : ℤ) < k + 1 := hend
    have hreset := resetsAt_main (a := 211680) (l := quarterLimit) (k + 1)
    show (if k + 1 < 211680 then 0x1f00ffff else 0x20400000) = _
    by_cases hfirst : k = 210520
    · subst hfirst
      rw [getNextWorkRequired_reset _ _ (Or.inr (by decide +kernel))]
      decide +kernel
    by_cases hargon : k = 211679
    · subst hargon
      rw [getNextWorkRequired_reset _ _ (Or.inr (by decide +kernel))]
      decide +kernel
    · rw [getNextWorkRequired_keep _ _ rfl rfl (by rw [Bool.eq_false_iff, Ne, hreset]; omega)
        (by rw [mainParamsWith_interval]; omega)]
      show _ = if k < 211680 then 0x1f00ffff else 0x20400000
      by_cases hk' : k < 211680
      · rw [if_pos hk', if_pos (by omega)]
      · rw [if_neg hk', if_neg (by omega)]

theorem spaced_retargetBase (spacing : ℕ) :
    retargetBase stallParams (CBlockIndex.chainOf (spacedHeader spacing) 221759) =
      some (2 ^ 254) := by
  rw [retargetBase_eq (spacedHeader spacing) rfl (by decide +kernel)]
  have hbits :
      (spacedHeader spacing (221759 + 1 - stallParams.difficultyAdjustmentInterval.toNat)).nBits =
      0x20400000 := rfl
  rw [hbits]
  decide +kernel

/-- The only retarget of such a chain is the last one. -/
theorem retargets_stallParams {k : ℕ} (hk : k ≤ 221759) (hend : 210520 < (k : ℤ) + 1)
    (hretarget : Retargets stallParams k) : k = 221759 := by
  have hmultiple : ((k : ℤ) + 1) % 10080 = 0 := hretarget.2
  have hreset :=
      (resetsAt_main (a := 211680) (l := quarterLimit) (k + 1)).not.mp (by simp [hretarget.1])
  omega

theorem spaced_base_le (spacing : ℕ) {k : ℕ} (hk : k ≤ 221759) (hend : 210520 < (k : ℤ) + 1)
    (hretarget : Retargets stallParams k) (base : ℕ)
    (hbase : retargetBase stallParams (CBlockIndex.chainOf (spacedHeader spacing) k) = some base) :
    4 ≤ base := by
  obtain rfl := retargets_stallParams hk hend hretarget
  rw [spaced_retargetBase] at hbase
  obtain rfl := Option.some.inj hbase
  decide

/-- Blocks that come in time: the chain can be extended at every height, the retarget included. -/
theorem chain_extendable_in_time :
    FollowsRules stallParams (spacedHeader 120) 221759 ∧ Retargets stallParams 221759 ∧
    ∀ k : ℕ, k ≤ 221759 → 210520 < (k : ℤ) + 1 → Extendable stallParams (spacedHeader 120) k := by
  refine ⟨spaced_followsRules 120, ⟨by decide +kernel, by decide +kernel⟩, ?_⟩
  refine (chain_extendable_iff (by decide) (spaced_followsRules 120) fun k hk hend hretarget =>
    spaced_base_le 120 hk hend hretarget).mpr fun k hk hend hretarget hvanish => ?_
  obtain rfl := retargets_stallParams hk hend hretarget
  obtain ⟨base, hbase, -, hdvd⟩ := hvanish
  rw [spaced_retargetBase] at hbase
  obtain rfl := Option.some.inj hbase
  have hnot : ¬ 2 ^ 256 ∣ exactTarget stallParams (spacedHeader 120) 221759 (2 ^ 254) := by
    decide +kernel
  exact hnot hdvd

theorem chain_stalls :
    FollowsRules stallParams (spacedHeader 500) 221759 ∧
    (∀ k : ℕ, k ≤ 221759 → 210520 < (k : ℤ) + 1 → Retargets stallParams k → ∀ base,
      retargetBase stallParams (CBlockIndex.chainOf (spacedHeader 500) k) =
        some base → 4 ≤ base) ∧
    ∀ block, deriveTarget (getNextWorkRequired stallParams
      (CBlockIndex.chainOf (spacedHeader 500) 221759) block)
      (checkedPowLimit stallParams 221760) = none := by
  refine ⟨spaced_followsRules 500, fun k hk hend => spaced_base_le 500 hk hend, fun block => ?_⟩
  rw [getNextWorkRequired_retarget (spacedHeader 500) block rfl (by decide +kernel)
    (by decide +kernel), spaced_retargetBase]
  have hzero : adjustTarget stallParams (2 ^ 254)
      (periodTimespan stallParams (spacedHeader 500) 221759)
      (stallParams.getRandomXPowLimit (221759 + 1)).toNat = 0 := by
    decide +kernel
  show deriveTarget (getCompact (adjustTarget _ _ _ _)) _ = none
  rw [show ((221759 : ℕ) : ℤ) = 221759 from rfl, hzero]
  exact deriveTarget_getCompact_zero _

end OpenSY.Pow
