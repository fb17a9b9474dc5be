import Mathlib.Algebra.Group.Nat.Defs
import Mathlib.Data.Nat.Basic
import Mathlib.Order.Basic

/-!
# Unsigned word arithmetic, wrapping and checked

A program over unsigned words is written once, for any `WordOps`: run with `wrapping` it computes
what the machine computes, run with `checked` it stops at the first operation whose result does not
fit and at the first assertion that fails.  If the checked run gets to the end, both give the same
(`Refines`).
-/

namespace OpenSY.WordArithmetic

/-- Arithmetic on words that are represented by their values. -/
structure WordOps (m : Type → Type) where
  add : ℕ → ℕ → m ℕ
  sub : ℕ → ℕ → m ℕ
  mul : ℕ → ℕ → m ℕ
  require : Bool → m Unit

/-- Results are taken modulo `2 ^ w`, assertions are not looked at. -/
def wrapping (w : ℕ) : WordOps Id where
  add a b := (a + b) % 2 ^ w
  sub a b := (a + (2 ^ w - b)) % 2 ^ w
  mul a b := a * b % 2 ^ w
  require _ := ()

/-- `n`, if it fits into `w` bits. -/
def fit (w n : ℕ) : Option ℕ := if n < 2 ^ w then some n else none

def checked (w : ℕ) : WordOps Option where
  add a b := fit w (a + b)
  sub a b := if b ≤ a then fit w (a - b) else none
  mul a b := fit w (a * b)
  require p := if p then some () else none

/-- Where the checked run succeeds, the wrapping run gives the same. -/
def Refines {α : Type} (c : Option α) (w : Id α) : Prop := ∀ a, c = some a → w = a

section Rules

variable {α β : Type} {w : ℕ}

theorem Refines.pure (a : α) : Refines (pure a) (pure a) := fun _ h => Option.some.inj h

theorem Refines.bind {c : Option α} {i : Id α} {f : α → Option β} {g : α → Id β} (h : Refines c i)
    (hf : ∀ a, Refines (f a) (g a)) : Refines (c >>= f) (i >>= g) := by
  intro b hb
  obtain ⟨a, ha, hfa⟩ := Option.bind_eq_some_iff.mp hb
  obtain rfl := h a ha
  exact hf _ b hfa

theorem Refines.ite {p : Prop} [Decidable p] {c c' : Option α} {i i' : Id α} (h : Refines c i)
    (h' : Refines c' i') : Refines (if p then c else c') (if p then i else i') := by
  split_ifs
  · exact h
  · exact h'

theorem fit_eq_some {n a : ℕ} (h : fit w n = some a) : n < 2 ^ w ∧ n = a := by
  unfold fit at h
  split_ifs at h with hlt
  exact ⟨hlt, Option.some.inj h⟩

theorem Refines.add (a b : ℕ) : Refines ((checked w).add a b) ((wrapping w).add a b) := by
  intro r hr
  obtain ⟨hlt, rfl⟩ := fit_eq_some hr
  exact Nat.mod_eq_of_lt hlt

theorem Refines.mul (a b : ℕ) : Refines ((checked w).mul a b) ((wrapping w).mul a b) := by
  intro r hr
  obtain ⟨hlt, rfl⟩ := fit_eq_some hr
  exact Nat.mod_eq_of_lt hlt

theorem Refines.sub {a b : ℕ} (hb : b ≤ 2 ^ w) :
    Refines ((checked w).sub a b) ((wrapping w).sub a b) := by
  intro r hr
  simp only [checked, Option.ite_none_right_eq_some] at hr
  obtain ⟨hle, hr⟩ := hr
  obtain ⟨hlt, rfl⟩ := fit_eq_some hr
  show (a + (2 ^ w - b)) % 2 ^ w = a - b
  rw [show a + (2 ^ w - b) = (a - b) + 2 ^ w by omega, Nat.add_mod_right, Nat.mod_eq_of_lt hlt]

theorem Refines.require (p : Bool) : Refines ((checked w).require p) ((wrapping w).require p) :=
  fun _ _ => rfl

theorem fit_of_lt {n : ℕ} (h : n < 2 ^ w) : fit w n = some n := if_pos h

theorem checked_add {a b : ℕ} (h : a + b < 2 ^ w) : (checked w).add a b = some (a + b) :=
  fit_of_lt h

theorem checked_mul {a b : ℕ} (h : a * b < 2 ^ w) : (checked w).mul a b = some (a * b) :=
  fit_of_lt h

theorem checked_sub {a b : ℕ} (hle : b ≤ a) (h : a - b < 2 ^ w) :
    (checked w).sub a b = some (a - b) := by
  show (if b ≤ a then fit w (a - b) else none) = _
  rw [if_pos hle, fit_of_lt h]

theorem checked_require {p : Bool} (h : p = true) : (checked w).require p = some () := by
  rw [h]
  rfl

end Rules

end OpenSY.WordArithmetic
