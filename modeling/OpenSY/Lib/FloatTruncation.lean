import Mathlib.Algebra.Order.Ring.Nat
import Mathlib.Data.Nat.Find
import Mathlib.Tactic.Ring

/-!
# Rounding down to a floating-point format

A number is written as a mantissa below a bound times a power of the base.  `Format.trunc` keeps as
many leading digits as fit into the mantissa and replaces the others by zeros.  When the base
divides the bound, the first number that needs one digit more is itself representable, and rounding
down is what one expects: it is monotone (`trunc_mono`), never zero on a positive number
(`trunc_pos`), and the identity on representable numbers (`trunc_of_representable`), which makes it
the adjoint of the inclusion (`le_trunc_iff`).
-/

namespace OpenSY.FloatTruncation

/-- Mantissas below `bound`, exponents to `base`. -/
structure Format where
  base : ℕ
  bound : ℕ
  one_lt_base : 1 < base
  bound_pos : 0 < bound
  base_dvd_bound : base ∣ bound

namespace Format

variable (F : Format)

theorem exists_fits (x : ℕ) : ∃ k, x < F.bound * F.base ^ k := by
  refine ⟨x, ?_⟩
  calc x < F.base ^ x := Nat.lt_pow_self F.one_lt_base
    _ ≤ F.bound * F.base ^ x := Nat.le_mul_of_pos_left _ F.bound_pos

/-- How many digits of `x` have to go. -/
def cut (x : ℕ) : ℕ := Nat.find (F.exists_fits x)

/-- `x` with its last `F.cut x` digits replaced by zeros. -/
def trunc (x : ℕ) : ℕ := x / F.base ^ F.cut x * F.base ^ F.cut x

/-- The numbers that need no rounding. -/
def Representable (v : ℕ) : Prop := ∃ m e, m < F.bound ∧ v = m * F.base ^ e

variable {F} {x y k : ℕ}

theorem lt_of_cut (x : ℕ) : x < F.bound * F.base ^ F.cut x := Nat.find_spec (F.exists_fits x)

theorem le_of_lt_cut (h : k < F.cut x) : F.bound * F.base ^ k ≤ x :=
  not_lt.mp (Nat.find_min (F.exists_fits x) h)

theorem cut_le (h : x < F.bound * F.base ^ k) : F.cut x ≤ k := Nat.find_min' _ h

theorem cut_eq (hfits : x < F.bound * F.base ^ k) (hleast : ∀ j < k, F.bound * F.base ^ j ≤ x) :
    F.cut x = k := by
  refine le_antisymm (cut_le hfits) (not_lt.mp fun hlt => ?_)
  have hsmall := hleast _ hlt
  have hlarge := lt_of_cut (F := F) x
  omega

theorem base_pow_pos (k : ℕ) : 0 < F.base ^ k := Nat.pow_pos (Nat.zero_lt_of_lt F.one_lt_base)

theorem cut_mono (h : x ≤ y) : F.cut x ≤ F.cut y := cut_le (lt_of_le_of_lt h (lt_of_cut y))

theorem trunc_le (x : ℕ) : F.trunc x ≤ x := Nat.div_mul_le_self _ _

/-- Below the mantissa bound nothing is cut. -/
theorem trunc_of_lt (h : x < F.bound) : F.trunc x = x := by
  have hcut : F.cut x = 0 := Nat.le_zero.mp (cut_le (by simpa using h))
  simp [trunc, hcut]

/-- The first number that needs one digit more. -/
theorem bound_le_trunc (h : k < F.cut x) : F.bound * F.base ^ k ≤ F.trunc x := by
  obtain ⟨d, hd⟩ := F.base_dvd_bound
  obtain ⟨c, hc⟩ : ∃ c, F.cut x = c + 1 := ⟨F.cut x - 1, by omega⟩
  -- it is a multiple of the power that is cut off
  have hmultiple : F.bound * F.base ^ c = d * F.base ^ F.cut x := by
    rw [hd, hc, pow_succ]
    ring
  have hle : F.bound * F.base ^ c ≤ x := le_of_lt_cut (by omega)
  calc F.bound * F.base ^ k
      ≤ F.bound * F.base ^ c :=
        Nat.mul_le_mul_left _ (Nat.pow_le_pow_right (Nat.zero_lt_of_lt F.one_lt_base) (by omega))
    _ = d * F.base ^ F.cut x := hmultiple
    _ ≤ F.trunc x := by
        refine Nat.mul_le_mul_right _ ((Nat.le_div_iff_mul_le (base_pow_pos _)).mpr ?_)
        rw [← hmultiple]
        exact hle

/-- **Rounding down is monotone.** -/
theorem trunc_mono (h : x ≤ y) : F.trunc x ≤ F.trunc y := by
  rcases (cut_mono (F := F) h).eq_or_lt with heq | hlt
  · rw [trunc, trunc, heq]
    exact Nat.mul_le_mul_right _ (Nat.div_le_div_right h)
  · calc F.trunc x ≤ x := trunc_le x
      _ ≤ F.bound * F.base ^ F.cut x := (lt_of_cut x).le
      _ ≤ F.trunc y := bound_le_trunc hlt

theorem trunc_pos (h : 0 < x) : 0 < F.trunc x := by
  rcases Nat.eq_zero_or_pos (F.cut x) with hzero | hpos
  · have hx : F.trunc x = x := trunc_of_lt (by simpa [hzero] using lt_of_cut (F := F) x)
    rwa [hx]
  · calc 0 < F.bound * F.base ^ 0 := Nat.mul_pos F.bound_pos (base_pow_pos 0)
      _ ≤ F.trunc x := bound_le_trunc hpos

theorem trunc_of_representable (h : F.Representable x) : F.trunc x = x := by
  obtain ⟨m, e, hm, rfl⟩ := h
  have hcut : F.cut (m * F.base ^ e) ≤ e := cut_le (Nat.mul_lt_mul_of_pos_right hm (base_pow_pos e))
  exact Nat.div_mul_cancel (Dvd.dvd.mul_left (pow_dvd_pow _ hcut) m)

/-- **Rounding down is the adjoint of the inclusion** of the representable numbers. -/
theorem le_trunc_iff (h : F.Representable x) : x ≤ F.trunc y ↔ x ≤ y := by
  refine ⟨fun hle => hle.trans (trunc_le y), fun hle => ?_⟩
  rw [← trunc_of_representable h]
  exact trunc_mono hle

end Format

end OpenSY.FloatTruncation
