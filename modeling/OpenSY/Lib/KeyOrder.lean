import Mathlib.Algebra.Order.Ring.Nat
import Mathlib.Data.List.Lex

/-!
# Keys in byte order

Fields of fixed width, the most significant digit first, compare as the numbers they hold, and a key
made of such fields compares as the tuple of its fields.

* `bigEndian_lt_iff`, `bigEndian_inj`: one field.
* `append_lt_append_iff`: two keys with fronts of one length compare by the fronts, then by the
  rest.
* `front_of_between`: what lies between two keys with one front has that front.
* `eq_filter_append_filter`: a list that meets all elements of one kind first is cut at the last of
  them.
-/

namespace OpenSY.KeyOrder

/-- `width` digits in base 256, the most significant first. -/
def bigEndian : ℕ → ℕ → List ℕ
  | 0, _ => []
  | width + 1, n => bigEndian width (n / 256) ++ [n % 256]

/-- The number that digits in base 256 make, the most significant first. -/
def ofBigEndian (digits : List ℕ) : ℕ := digits.foldl (fun acc d => acc * 256 + d) 0

@[simp] theorem bigEndian_length (width n : ℕ) : (bigEndian width n).length = width := by
  induction width generalizing n with
  | zero => rfl
  | succ width ih => rw [bigEndian, List.length_append, ih, List.length_singleton]

theorem ofBigEndian_bigEndian {width n : ℕ} (h : n < 256 ^ width) :
    ofBigEndian (bigEndian width n) = n := by
  induction width generalizing n with
  | zero =>
    have hn : n = 0 := by simpa using h
    rw [hn]
    rfl
  | succ width ih =>
    rw [Nat.pow_succ] at h
    have hhigh : ofBigEndian (bigEndian width (n / 256)) = n / 256 := ih (by omega)
    rw [ofBigEndian] at hhigh ⊢
    rw [bigEndian, List.foldl_append, hhigh, List.foldl_cons, List.foldl_nil]
    omega

theorem bigEndian_inj {width n m : ℕ} (hn : n < 256 ^ width) (hm : m < 256 ^ width) :
    bigEndian width n = bigEndian width m ↔ n = m := by
  refine ⟨fun h => ?_, fun h => by rw [h]⟩
  rw [← ofBigEndian_bigEndian hn, h, ofBigEndian_bigEndian hm]

/-! ### Comparing -/

variable {α : Type} [LinearOrder α]

theorem append_lt_append_iff {front front' : List α} (h : front.length = front'.length)
    (rest rest' : List α) :
    front ++ rest < front' ++ rest' ↔ front < front' ∨ front = front' ∧ rest < rest' := by
  induction front generalizing front' with
  | nil =>
    obtain rfl := List.eq_nil_of_length_eq_zero h.symm
    simp
  | cons a front ih =>
    cases front' with
    | nil => cases h
    | cons a' front' =>
      rw [List.cons_append, List.cons_append, List.cons_lt_cons_iff, List.cons_lt_cons_iff,
        ih (Nat.succ.inj h), List.cons.injEq]
      tauto

theorem bigEndian_lt_iff {width n m : ℕ} (hn : n < 256 ^ width) (hm : m < 256 ^ width) :
    bigEndian width n < bigEndian width m ↔ n < m := by
  induction width generalizing n m with
  | zero =>
    have hn0 : n = 0 := by simpa using hn
    have hm0 : m = 0 := by simpa using hm
    rw [hn0, hm0]
    exact iff_of_false (lt_irrefl _) (lt_irrefl _)
  | succ width ih =>
    rw [Nat.pow_succ] at hn hm
    have hn' : n / 256 < 256 ^ width := by omega
    have hm' : m / 256 < 256 ^ width := by omega
    have hlast : [n % 256] < [m % 256] ↔ n % 256 < m % 256 := by
      rw [List.cons_lt_cons_iff]
      simp
    rw [bigEndian, bigEndian, append_lt_append_iff (by simp), ih hn' hm',
      bigEndian_inj hn' hm', hlast]
    omega

/-- What lies between two lists with one front has that front. -/
theorem front_of_between {front low high x : List α} (hlow : front ++ low ≤ x)
    (hhigh : x ≤ front ++ high) :
    front <+: x := by
  induction front generalizing x with
  | nil => exact List.nil_prefix
  | cons a front ih =>
    cases x with
    | nil => exact absurd (List.nil_lt_cons a (front ++ low)) (not_lt.mpr hlow)
    | cons b x =>
      rw [List.cons_append, ← not_lt, List.cons_lt_cons_iff, not_or] at hlow hhigh
      have hab : a = b := le_antisymm (not_lt.mp hlow.1) (not_lt.mp hhigh.1)
      subst hab
      have hlow' : front ++ low ≤ x := not_lt.mp fun hlt => hlow.2 ⟨rfl, hlt⟩
      have hhigh' : x ≤ front ++ high := not_lt.mp fun hlt => hhigh.2 ⟨rfl, hlt⟩
      exact List.cons_prefix_cons.mpr ⟨rfl, ih hlow' hhigh'⟩

/-! ### Lists in order -/

omit [LinearOrder α] in
/-- Where an element of one kind has only such elements before it, they come first. -/
theorem eq_filter_append_filter {p : α → Bool} {l : List α}
    (h : l.Pairwise fun x y => p y = true → p x = true) :
    l = l.filter p ++ l.filter fun x => !p x := by
  induction l with
  | nil => rfl
  | cons a l ih =>
    obtain ⟨ha, hl⟩ := List.pairwise_cons.mp h
    cases hpa : p a with
    | true =>
      rw [List.filter_cons_of_pos hpa, List.filter_cons_of_neg (by rw [hpa]; decide),
        List.cons_append, ← ih hl]
    | false =>
      -- nothing of the kind can follow
      have hnone : l.filter p = [] := by
        rw [List.filter_eq_nil_iff]
        intro x hx hpx
        rw [ha x hx hpx] at hpa
        cases hpa
      have hall : (l.filter fun x => !p x) = l := by
        rw [hnone, List.nil_append] at ih
        exact (ih hl).symm
      rw [List.filter_cons_of_neg (by rw [hpa]; decide),
        List.filter_cons_of_pos (by rw [hpa]; rfl), hnone,
        hall, List.nil_append]

/-- Two strictly ascending lists with the same elements are the same. -/
theorem eq_of_strictly_ascending {l l' : List α} (h : l.Pairwise (· < ·)) (h' : l'.Pairwise (· < ·))
    (hmem : ∀ x, x ∈ l ↔ x ∈ l') : l = l' := by
  have hle : l.Pairwise (· ≤ ·) := h.imp le_of_lt
  have hperm : l.Perm l' := (List.perm_ext_iff_of_nodup (h.imp ne_of_lt) (h'.imp ne_of_lt)).mpr hmem
  exact hperm.eq_of_pairwise (fun a b _ _ => le_antisymm) hle (h'.imp le_of_lt)

end OpenSY.KeyOrder
