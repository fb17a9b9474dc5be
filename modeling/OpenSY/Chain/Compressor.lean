import OpenSY.Chain.Primitives
import OpenSY.Lib.WordArithmetic
import Mathlib.Data.Nat.Bitwise
import Mathlib.Tactic.Ring
import Mathlib.Tactic.Linarith

/-!
# Compressed amounts

The coin database stores an amount as a decimal exponent, a last digit and the rest, packed into one
number; amounts above `compressThreshold` are stored as they are, with the top bit set.  The code is
written for any word arithmetic: with `wrapping 64` it is what the machine computes, with
`checked 64` no operation may overflow.  The loop of `DecompressAmount` has a budget of turns, to
say that it ends.

* `pack` — the packed form, between the two functions;
* `compressAmount_packed`, `decompressAmount_pack` — each function against it;
* `amount_compression_lossless` — the two together.
-/

namespace OpenSY.Chain

open OpenSY.WordArithmetic

/-! ### The code -/

def compressThreshold : ℕ := 100000000000000000

/-- The bit that marks amounts stored as they are. -/
def uncompressedMarker : ℕ := 2 ^ 63

/-- The loop that takes off zeros: `left` is `9 - e`. -/
def stripZeros : ℕ → ℕ → ℕ → ℕ × ℕ
  | 0, n, e => (n, e)
  | left + 1, n, e => if n % 10 = 0 then stripZeros left (n / 10) (e + 1) else (n, e)

section Code

variable {m : Type → Type} [Monad m] (ops : WordOps m)

def compressAmount (n : ℕ) : m ℕ :=
  if n = 0 then pure 0
  else if compressThreshold < n then pure (n ||| uncompressedMarker)
  else
    let (n, e) := stripZeros 9 n 0
    if e < 9 then do
      let d := n % 10
      ops.require (1 ≤ d && d ≤ 9)
      let n := n / 10
      let nine ← ops.mul n 9
      let sum ← ops.add nine d
      let less ← ops.sub sum 1
      let ten ← ops.mul less 10
      let one ← ops.add 1 ten
      ops.add one e
    else do
      let less ← ops.sub n 1
      let ten ← ops.mul less 10
      let one ← ops.add 1 ten
      ops.add one 9

/-- `while (e) { n *= 10; e--; }`, with at most `budget` turns. -/
def scaleUp : ℕ → ℕ → ℤ → m (Option ℕ)
  | 0, n, e => pure (if e = 0 then some n else none)
  | budget + 1, n, e =>
    if e = 0 then pure (some n)
    else do
      let n ← ops.mul n 10
      scaleUp budget n (e - 1)

def decompressAmount (budget x : ℕ) : m (Option ℕ) :=
  if x = 0 then pure (some 0)
  else if x &&& uncompressedMarker ≠ 0 then pure (some (x &&& (2 ^ 64 - 1 - uncompressedMarker)))
  else do
    let x ← ops.sub x 1
    let e := x % 10
    let x := x / 10
    if e < 9 then do
      let d := x % 9 + 1
      let x := x / 9
      let ten ← ops.mul x 10
      let n ← ops.add ten d
      scaleUp ops budget n e
    else do
      let n ← ops.add x 1
      scaleUp ops budget n e

end Code

/-- `CompressAmount`, as the machine computes it. -/
def compressWord (n : ℕ) : ℕ := Id.run (compressAmount (wrapping 64) n)

/-- `DecompressAmount`, as the machine computes it. -/
def decompressWord (budget x : ℕ) : Option ℕ := Id.run (decompressAmount (wrapping 64) budget x)

/-! ### Checked and wrapping runs -/

theorem compressAmount_refines (n : ℕ) :
    Refines (compressAmount (checked 64) n) (compressAmount (wrapping 64) n) := by
  unfold compressAmount
  refine .ite (.pure _) (.ite (.pure _) (.ite ?_ ?_))
  · exact .bind (.require _) fun _ => .bind (.mul _ _) fun _ => .bind (.add _ _) fun _ =>
      .bind (.sub (by decide)) fun _ => .bind (.mul _ _) fun _ => .bind (.add _ _) fun _ => .add _ _
  · exact .bind (.sub (by decide)) fun _ => .bind (.mul _ _) fun _ =>
      .bind (.add _ _) fun _ => .add _ _

theorem scaleUp_refines (budget n : ℕ) (e : ℤ) :
    Refines (scaleUp (checked 64) budget n e) (scaleUp (wrapping 64) budget n e) := by
  induction budget generalizing n e with
  | zero => exact .pure _
  | succ budget ih => exact .ite (.pure _) (.bind (.mul _ _) fun n => ih n (e - 1))

theorem decompressAmount_refines (budget x : ℕ) :
    Refines (decompressAmount (checked 64) budget x) (decompressAmount (wrapping 64) budget x) := by
  unfold decompressAmount
  refine .ite (.pure _) (.ite (.pure _) (.bind (.sub (by decide)) fun x => .ite ?_ ?_))
  · exact .bind (.mul _ _) fun _ => .bind (.add _ _) fun _ => scaleUp_refines _ _ _
  · exact .bind (.add _ _) fun _ => scaleUp_refines _ _ _

/-! ### The packed form -/

/-- An amount `n * 10 ^ e`, packed. -/
def pack (n e : ℕ) : ℕ :=
  if e < 9 then 1 + (n / 10 * 9 + n % 10 - 1) * 10 + e else 1 + (n - 1) * 10 + 9

/-- `n` and `e` as the compressor leaves them: no zero at the end that could still be taken off. -/
structure Stripped (n e : ℕ) : Prop where
  pos : 0 < n
  exponent_le : e ≤ 9
  last_digit : e < 9 → n % 10 ≠ 0

theorem stripZeros_spec {left n e : ℕ} (hpos : 0 < n) (hleft : e + left = 9) :
    Stripped (stripZeros left n e).1 (stripZeros left n e).2 ∧
      (stripZeros left n e).1 * 10 ^ (stripZeros left n e).2 = n * 10 ^ e := by
  induction left generalizing n e with
  | zero =>
    have he : e = 9 := hleft
    exact ⟨⟨hpos, he.le, fun hlt => absurd he hlt.ne⟩, rfl⟩
  | succ left ih =>
    unfold stripZeros
    split_ifs with hzero
    · have hn : n = n / 10 * 10 := by omega
      obtain ⟨hstripped, hvalue⟩ := ih (n := n / 10) (e := e + 1) (by omega) (by omega)
      refine ⟨hstripped, ?_⟩
      rw [hvalue, pow_succ]
      nth_rewrite 2 [hn]
      ring
    · exact ⟨⟨hpos, by omega, fun _ => hzero⟩, rfl⟩

/-- The packed form leaves the top bit free. -/
theorem pack_lt {n e : ℕ} (h : Stripped n e) (hle : n ≤ compressThreshold) : pack n e < 2 ^ 63 := by
  have he := h.exponent_le
  unfold pack
  unfold compressThreshold at hle
  split_ifs with hlt
  · omega
  · omega

theorem le_of_mul_pow {n e value : ℕ} (h : n * 10 ^ e = value) : n ≤ value := by
  rw [← h]
  exact Nat.le_mul_of_pos_right _ (Nat.pow_pos (by decide))

/-- **Amounts up to the threshold are packed**, without overflow. -/
theorem compressAmount_packed {value : ℕ} (hpos : 0 < value) (hle : value ≤ compressThreshold) :
    ∃ n e, Stripped n e ∧ n * 10 ^ e = value ∧
      compressAmount (checked 64) value = some (pack n e) := by
  obtain ⟨hstripped, hvalue⟩ := stripZeros_spec hpos (show 0 + 9 = 9 from rfl)
  rw [pow_zero, Nat.mul_one] at hvalue
  refine ⟨_, _, hstripped, hvalue, ?_⟩
  have hn := Nat.le_trans (le_of_mul_pow hvalue) hle
  unfold compressAmount
  rw [if_neg (by omega), if_neg (by omega)]
  generalize stripZeros 9 value 0 = stripped at hstripped hn
  obtain ⟨n, e⟩ := stripped
  obtain ⟨hn0, he, hdigit⟩ := hstripped
  simp only [compressThreshold] at hn0 he hdigit hn ⊢
  unfold pack
  split_ifs with hlt
  · have hd := hdigit hlt
    rw [checked_require (by simp; omega), checked_mul (by omega)]
    simp only [Option.bind_eq_bind, Option.bind_some]
    rw [checked_add (by omega), Option.bind_some, checked_sub (by omega) (by omega),
      Option.bind_some, checked_mul (by omega), Option.bind_some, checked_add (by omega),
      Option.bind_some, checked_add (by omega)]
  · rw [checked_sub (by omega) (by omega)]
    simp only [Option.bind_eq_bind, Option.bind_some]
    rw [checked_mul (by omega), Option.bind_some, checked_add (by omega), Option.bind_some,
      checked_add (by omega)]

/-- The loop of `DecompressAmount` ends within `e` turns, whatever the arithmetic does. -/
theorem scaleUp_wrapping_isSome {budget e : ℕ} (h : e ≤ budget) (n : ℕ) :
    (scaleUp (wrapping 64) budget n e : Option ℕ).isSome = true := by
  induction budget generalizing n e with
  | zero =>
    obtain rfl := Nat.le_zero.mp h
    rfl
  | succ budget ih =>
    unfold scaleUp
    cases e with
    | zero => rfl
    | succ e =>
      rw [if_neg (by omega), show ((e + 1 : ℕ) : ℤ) - 1 = e by omega]
      exact ih (by omega) _

theorem scaleUp_checked {budget e : ℕ} (h : e ≤ budget) {n : ℕ} (hfit : n * 10 ^ e < 2 ^ 64) :
    scaleUp (checked 64) budget n e = some (some (n * 10 ^ e)) := by
  induction budget generalizing n e with
  | zero =>
    obtain rfl := Nat.le_zero.mp h
    simp [scaleUp]
  | succ budget ih =>
    unfold scaleUp
    cases e with
    | zero => simp
    | succ e =>
      have hmul : n * 10 ^ (e + 1) = n * 10 * 10 ^ e := by ring
      rw [hmul] at hfit ⊢
      rw [if_neg (by omega), show ((e + 1 : ℕ) : ℤ) - 1 = e by omega,
        checked_mul (Nat.lt_of_le_of_lt (le_of_mul_pow rfl) hfit)]
      exact ih (by omega) hfit

theorem and_marker_eq_zero {x : ℕ} (h : x < 2 ^ 63) : x &&& uncompressedMarker = 0 := by
  unfold uncompressedMarker
  rw [Nat.and_two_pow, Nat.testBit_lt_two_pow h]
  rfl

/-- **A packed amount is unpacked**, without overflow and within nine turns of the loop. -/
theorem decompressAmount_pack {n e budget : ℕ} (h : Stripped n e) (hle : n ≤ compressThreshold)
    (hfit : n * 10 ^ e < 2 ^ 64) (hbudget : 9 ≤ budget) :
    decompressAmount (checked 64) budget (pack n e) = some (some (n * 10 ^ e)) := by
  have hlt := pack_lt h hle
  have hpos : 0 < pack n e := by
    unfold pack
    split_ifs <;> omega
  unfold decompressAmount
  rw [if_neg (by omega), if_neg (by rw [and_marker_eq_zero hlt]; simp),
    checked_sub (by omega) (by omega)]
  simp only [Option.bind_eq_bind, Option.bind_some]
  obtain ⟨hn0, he, hdigit⟩ := h
  unfold compressThreshold at hle
  by_cases hlt : e < 9
  · have hd := hdigit hlt
    have hmod : (pack n e - 1) % 10 = e := by
      unfold pack
      rw [if_pos hlt]
      omega
    have hdiv : (pack n e - 1) / 10 = n / 10 * 9 + n % 10 - 1 := by
      unfold pack
      rw [if_pos hlt]
      omega
    have hback : (n / 10 * 9 + n % 10 - 1) / 9 * 10 + ((n / 10 * 9 + n % 10 - 1) % 9 + 1) = n := by
      omega
    rw [hmod, hdiv, if_pos hlt, checked_mul (by omega), Option.bind_some, checked_add (by omega),
      Option.bind_some, hback]
    exact scaleUp_checked (by omega) hfit
  · obtain rfl : e = 9 := by omega
    have hmod : (pack n 9 - 1) % 10 = 9 := by
      unfold pack
      rw [if_neg hlt]
      omega
    have hdiv : (pack n 9 - 1) / 10 = n - 1 := by
      unfold pack
      rw [if_neg hlt]
      omega
    rw [hmod, hdiv, if_neg hlt, checked_add (by omega), Option.bind_some,
      show n - 1 + 1 = n by omega]
    exact scaleUp_checked hbudget hfit

/-! ### The marked form -/

theorem or_marker {n : ℕ} (h : n < 2 ^ 63) : n ||| uncompressedMarker = 2 ^ 63 + n := by
  have hor := Nat.two_pow_add_eq_or_of_lt h 1
  rw [Nat.mul_one] at hor
  rw [Nat.or_comm]
  exact hor.symm

theorem compressAmount_marked {n : ℕ} (hlt : compressThreshold < n) :
    compressAmount (checked 64) n = some (n ||| uncompressedMarker) := by
  unfold compressAmount
  rw [if_neg (by omega), if_pos hlt]
  rfl

theorem decompressAmount_marked {n : ℕ} (h : n < 2 ^ 63) (budget : ℕ) :
    decompressAmount (checked 64) budget (n ||| uncompressedMarker) = some (some n) := by
  have hmarked : (n ||| uncompressedMarker) &&& uncompressedMarker ≠ 0 := by
    rw [Nat.and_or_distrib_right, and_marker_eq_zero h, Nat.and_self, Nat.zero_or]
    decide
  have hback : (n ||| uncompressedMarker) &&& (2 ^ 64 - 1 - uncompressedMarker) = n := by
    rw [show 2 ^ 64 - 1 - uncompressedMarker = 2 ^ 63 - 1 from rfl, Nat.and_two_pow_sub_one_eq_mod,
      or_marker h, Nat.add_mod_left, Nat.mod_eq_of_lt h]
  unfold decompressAmount
  rw [if_neg (by rw [or_marker h]; omega), if_pos hmarked, hback]
  rfl

/-! ### Both functions -/

/-- Both functions in one, with checked arithmetic. -/
theorem round_trip_checked {n budget : ℕ} (h : n < 2 ^ 63) (hbudget : 9 ≤ budget) :
    ∃ x, compressAmount (checked 64) n = some x ∧ x < 2 ^ 64 ∧
      (2 ^ 63 ≤ x ↔ compressThreshold < n) ∧
      decompressAmount (checked 64) budget x = some (some n) := by
  by_cases hzero : n = 0
  · subst hzero
    exact ⟨0, rfl, by decide, by decide, rfl⟩
  by_cases hraw : compressThreshold < n
  · refine ⟨_, compressAmount_marked hraw, ?_, ?_, decompressAmount_marked h budget⟩
    · rw [or_marker h]
      omega
    · rw [or_marker h]
      exact iff_of_true (Nat.le_add_right _ _) hraw
  · obtain ⟨m, e, hstripped, hvalue, hcompress⟩ :=
      compressAmount_packed (Nat.pos_of_ne_zero hzero) (Nat.not_lt.mp hraw)
    have hle := Nat.le_trans (le_of_mul_pow hvalue) (Nat.not_lt.mp hraw)
    have hpack := pack_lt hstripped hle
    refine ⟨_, hcompress, by omega, iff_of_false (Nat.not_le.mpr hpack) hraw, ?_⟩
    rw [decompressAmount_pack hstripped hle (by omega) hbudget, hvalue]

theorem lt_of_moneyRange {n : ℕ} (h : moneyRange n = true) : n < 2 ^ 63 := by
  simp only [moneyRange, Bool.and_eq_true, decide_eq_true_eq] at h
  have hle : (n : ℤ) ≤ 21000000000 * 100000000 := h.2
  omega

theorem decompressWord_isSome (x : ℕ) {budget : ℕ} (hbudget : 9 ≤ budget) :
    (decompressWord budget x).isSome = true := by
  unfold decompressWord decompressAmount
  split_ifs
  · rfl
  · rfl
  · rw [Id.run_bind]
    generalize Id.run ((wrapping 64).sub x 1) = y
    have he : y % 10 ≤ budget := by omega
    dsimp only
    split_ifs
    · exact scaleUp_wrapping_isSome he _
    · exact scaleUp_wrapping_isSome he _

/-- **Amount compression loses nothing**: as the machine computes it, without overflow, with marked
and packed amounts apart, and with a loop that ends on every input. -/
theorem amount_compression_lossless :
    (∀ n, n < 2 ^ 63 → ∀ budget, 9 ≤ budget → decompressWord budget (compressWord n) = some n) ∧
    (∀ n : ℕ, moneyRange n = true → n < 2 ^ 63) ∧
    (∀ n, n < 2 ^ 63 → ∀ budget, 9 ≤ budget →
      compressAmount (checked 64) n = some (compressWord n) ∧
      decompressAmount (checked 64) budget (compressWord n) = some (some n)) ∧
    (∀ n, n < 2 ^ 63 → (2 ^ 63 ≤ compressWord n ↔ compressThreshold < n)) ∧
    (∀ n n', n < 2 ^ 63 → n' < 2 ^ 63 → compressWord n = compressWord n' → n = n') ∧
    ∀ x, x < 2 ^ 64 → ∀ budget, 9 ≤ budget → (decompressWord budget x).isSome = true := by
  have hchecked : ∀ n, n < 2 ^ 63 → ∀ budget, 9 ≤ budget →
      compressAmount (checked 64) n = some (compressWord n) ∧
      (2 ^ 63 ≤ compressWord n ↔ compressThreshold < n) ∧
      decompressAmount (checked 64) budget (compressWord n) = some (some n) := by
    intro n hn budget hbudget
    obtain ⟨x, hx, -, hmarked, hback⟩ := round_trip_checked hn hbudget
    have hword : compressWord n = x := compressAmount_refines n x hx
    rw [hword]
    exact ⟨hx, hmarked, hback⟩
  have hback : ∀ n, n < 2 ^ 63 → ∀ budget, 9 ≤ budget →
      decompressWord budget (compressWord n) = some n :=
    fun n hn budget hbudget => decompressAmount_refines _ _ _ (hchecked n hn budget hbudget).2.2
  refine ⟨hback, fun n => lt_of_moneyRange, fun n hn budget hbudget => ?_, fun n hn => ?_,
    fun n n' hn hn' heq => ?_, fun x _ budget hbudget => decompressWord_isSome x hbudget⟩
  · obtain ⟨hcompress, -, hdecompress⟩ := hchecked n hn budget hbudget
    exact ⟨hcompress, hdecompress⟩
  · exact (hchecked n hn 9 (le_refl 9)).2.1
  · have h := hback n hn 9 (le_refl 9)
    rw [heq, hback n' hn' 9 (le_refl 9)] at h
    exact (Option.some.inj h).symm

end OpenSY.Chain
