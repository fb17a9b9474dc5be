import OpenSY.Chain.Primitives
import Mathlib.Algebra.BigOperators.Intervals
import Mathlib.Algebra.Order.BigOperators.Group.Finset
import Mathlib.Algebra.Order.Ring.GeomSum
import Mathlib.Data.Nat.Choose.Sum
import Mathlib.Tactic.Ring
import Mathlib.Tactic.Linarith

/-!
# The block subsidy

`GetBlockSubsidy` halves the reward once per interval by shifting it to the right, and stops
shifting when the shift would be undefined.  All subsidies together stay below twice what the first
interval pays.
-/

namespace OpenSY.Consensus

open OpenSY.Chain

/-- The reward of the first interval. -/
def initialSubsidy : CAmount := 10000 * coin

/-- The halving interval of the main network. -/
def mainSubsidyHalvingInterval : ℤ := 1050000

def getBlockSubsidy (nHeight nSubsidyHalvingInterval : ℤ) : CAmount :=
  let halvings := nHeight.tdiv nSubsidyHalvingInterval
  if halvings ≥ 64 then 0 else initialSubsidy >>> halvings.toNat

/-- A shift of a 64-bit value, undefined unless it is by 0 to 63 bits. -/
def checkedShift (value : CAmount) (bits : ℤ) : Option CAmount :=
  if 0 ≤ bits ∧ bits < 64 then some (value >>> bits.toNat) else none

/-- `getBlockSubsidy` with its shift checked. -/
def getBlockSubsidyChecked (nHeight nSubsidyHalvingInterval : ℤ) : Option CAmount :=
  let halvings := nHeight.tdiv nSubsidyHalvingInterval
  if halvings ≥ 64 then some 0 else checkedShift initialSubsidy halvings

/-! ### Halving -/

/-- One interval after the other: the `k`-th pays `interval` times the reward halved `k` times. -/
theorem sum_intervals (reward interval k : ℕ) (hpos : 0 < interval) :
    ∑ h ∈ Finset.range (interval * k), reward / 2 ^ (h / interval) =
      interval * ∑ i ∈ Finset.range k, reward / 2 ^ i := by
  induction k with
  | zero => simp
  | succ k ih =>
    have hlast : ∑ j ∈ Finset.range interval, reward / 2 ^ ((interval * k + j) / interval) =
        interval * (reward / 2 ^ k) := by
      rw [Finset.sum_const_nat fun j hj => by
        rw [Nat.mul_add_div hpos, Nat.div_eq_of_lt (Finset.mem_range.mp hj), Nat.add_zero],
        Finset.card_range]
    rw [Nat.mul_succ, Finset.sum_range_add, ih, hlast, Finset.sum_range_succ, Nat.mul_add]

/-- **A reward that is halved once per interval pays less than two intervals of it in all.** -/
theorem sum_halved_le (reward interval H : ℕ) (hpos : 0 < interval) :
    ∑ h ∈ Finset.range H, reward / 2 ^ (h / interval) ≤ 2 * reward * interval := by
  have hgeom : ∑ i ∈ Finset.range (H / interval + 1), reward / 2 ^ i ≤ reward * 2 := by
    have h := Nat.geom_sum_le (le_refl 2) reward (H / interval + 1)
    simpa using h
  calc ∑ h ∈ Finset.range H, reward / 2 ^ (h / interval)
      ≤ ∑ h ∈ Finset.range (interval * (H / interval + 1)), reward / 2 ^ (h / interval) := by
        refine Finset.sum_le_sum_of_subset (Finset.range_mono ?_)
        rw [Nat.mul_succ]
        exact (Nat.lt_mul_div_succ H hpos).le
    _ = interval * ∑ i ∈ Finset.range (H / interval + 1), reward / 2 ^ i :=
        sum_intervals reward interval _ hpos
    _ ≤ interval * (reward * 2) := Nat.mul_le_mul_left _ hgeom
    _ = 2 * reward * interval := by ring

/-! ### The subsidy -/

/-- Past 64 halvings nothing is left to shift. -/
theorem getBlockSubsidy_eq (nHeight interval : ℕ) :
    getBlockSubsidy nHeight interval =
      ((initialSubsidy.toNat / 2 ^ (nHeight / interval) : ℕ) : ℤ) := by
  have hdiv : (nHeight : ℤ).tdiv interval = ((nHeight / interval : ℕ) : ℤ) :=
    (Int.ofNat_tdiv _ _).symm
  simp only [getBlockSubsidy, hdiv, Int.toNat_natCast]
  generalize nHeight / interval = halvings
  split_ifs with hmany
  · have hlt : initialSubsidy.toNat < 2 ^ halvings :=
      Nat.lt_of_lt_of_le (show initialSubsidy.toNat < 2 ^ 64 by decide)
        (Nat.pow_le_pow_right (by decide) (by omega))
    rw [Nat.div_eq_of_lt hlt]
    rfl
  · rw [Int.shiftRight_eq_div_pow]
    rfl

theorem getBlockSubsidyChecked_eq {nHeight interval : ℤ} (hheight : 0 ≤ nHeight)
    (hpos : 1 ≤ interval) :
    getBlockSubsidyChecked nHeight interval = some (getBlockSubsidy nHeight interval) := by
  have hnonneg : 0 ≤ nHeight.tdiv interval := Int.tdiv_nonneg hheight (by omega)
  unfold getBlockSubsidyChecked getBlockSubsidy
  simp only []
  split_ifs with hmany
  · rfl
  · exact if_pos ⟨hnonneg, by omega⟩

theorem getBlockSubsidy_antitone {nHeight nHeight' interval : ℤ} (hheight : 0 ≤ nHeight)
    (hle : nHeight ≤ nHeight') (hpos : 1 ≤ interval) :
    getBlockSubsidy nHeight' interval ≤ getBlockSubsidy nHeight interval := by
  lift nHeight to ℕ using hheight
  lift nHeight' to ℕ using by omega
  lift interval to ℕ using by omega
  rw [getBlockSubsidy_eq, getBlockSubsidy_eq, Int.ofNat_le]
  exact Nat.div_le_div_left (Nat.pow_le_pow_right (by decide) (Nat.div_le_div_right (by omega)))
    (Nat.two_pow_pos _)

theorem sum_getBlockSubsidy_le {interval : ℤ} (hpos : 1 ≤ interval) (H : ℕ) :
    ∑ h ∈ Finset.range H, getBlockSubsidy h interval ≤ 2 * (10000 * coin) * interval := by
  lift interval to ℕ using by omega
  have hsum := sum_halved_le initialSubsidy.toNat interval H (by omega)
  calc ∑ h ∈ Finset.range H, getBlockSubsidy h interval
      = ((∑ h ∈ Finset.range H, initialSubsidy.toNat / 2 ^ (h / interval) : ℕ) : ℤ) := by
        rw [Nat.cast_sum]
        exact Finset.sum_congr rfl fun h _ => getBlockSubsidy_eq h interval
    _ ≤ ((2 * initialSubsidy.toNat * interval : ℕ) : ℤ) := Int.ofNat_le.mpr hsum
    _ = 2 * (10000 * coin) * interval := by
        rw [Nat.cast_mul]
        rfl

/-- **The money supply is bounded**, the subsidy is never negative and never grows, and its shift is
always defined. -/
theorem money_supply_bound (interval : ℤ) (hpos : 1 ≤ interval) :
    (∀ H : ℕ, ∑ h ∈ Finset.range H, getBlockSubsidy h interval ≤ 2 * 10000 * coin * interval) ∧
    (∀ H : ℕ, ∑ h ∈ Finset.range H, getBlockSubsidy h mainSubsidyHalvingInterval ≤ maxMoney) ∧
    (∀ nHeight, 0 ≤ nHeight → 0 ≤ getBlockSubsidy nHeight interval) ∧
    (∀ nHeight nHeight', 0 ≤ nHeight → nHeight ≤ nHeight' →
      getBlockSubsidy nHeight' interval ≤ getBlockSubsidy nHeight interval) ∧
    ∀ nHeight, 0 ≤ nHeight →
      getBlockSubsidyChecked nHeight interval = some (getBlockSubsidy nHeight interval) := by
  refine ⟨fun H => ?_, fun H => ?_, fun nHeight hheight => ?_,
    fun nHeight nHeight' hheight hle => getBlockSubsidy_antitone hheight hle hpos,
    fun nHeight hheight => getBlockSubsidyChecked_eq hheight hpos⟩
  · rw [show 2 * 10000 * coin * interval = 2 * (10000 * coin) * interval by ring]
    exact sum_getBlockSubsidy_le hpos H
  · exact sum_getBlockSubsidy_le (by decide) H
  · lift nHeight to ℕ using hheight
    lift interval to ℕ using by omega
    rw [getBlockSubsidy_eq]
    exact Int.natCast_nonneg _

theorem money_supply_bound_regtest :
    ∑ h ∈ Finset.range 450, getBlockSubsidy h 150 ≤ 2 * 10000 * coin * 150 :=
  (money_supply_bound 150 (by decide)).1 450

end OpenSY.Consensus
