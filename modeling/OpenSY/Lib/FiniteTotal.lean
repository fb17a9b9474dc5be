import Mathlib.Algebra.BigOperators.Finprod
import Mathlib.Data.Set.Card

/-!
# Totals of finitely supported functions

`HasTotal f n` says that `f : α → ℕ` vanishes outside a finite set and that its values add up to
`n`.  It is the form in which a ledger's books are kept while single entries change:
`HasTotal.update` re-books one entry, `HasTotal.move` carries an amount from one entry to another,
and `le`, `add_le` bound one or two entries by the total.  `finsum_eq` and `ncard_pos` hand the
result over to Mathlib's sums and cardinalities.
-/

namespace OpenSY.FiniteTotal

variable {α : Type} {f g : α → ℕ} {n m : ℕ}

/-- `f` is zero outside some finite set and its values add up to `n`. -/
def HasTotal (f : α → ℕ) (n : ℕ) : Prop :=
  ∃ S : Finset α, (∀ a, a ∉ S → f a = 0) ∧ ∑ a ∈ S, f a = n

theorem hasTotal_zero : HasTotal (fun _ : α => 0) 0 := ⟨∅, fun _ _ => rfl, rfl⟩

theorem HasTotal.congr (h : HasTotal f n) (hfg : ∀ a, g a = f a) : HasTotal g n := by
  rw [show g = f from funext hfg]
  exact h

/-- The support set may be enlarged at will. -/
theorem HasTotal.exists_superset [DecidableEq α] (h : HasTotal f n) (T : Finset α) :
    ∃ S : Finset α, T ⊆ S ∧ (∀ a, a ∉ S → f a = 0) ∧ ∑ a ∈ S, f a = n := by
  obtain ⟨S, hS, hsum⟩ := h
  refine ⟨T ∪ S, Finset.subset_union_left, fun a ha => hS a ?_, ?_⟩
  · exact fun haS => ha (Finset.mem_union_right _ haS)
  · rw [← hsum]
    refine (Finset.sum_subset Finset.subset_union_right ?_).symm
    exact fun a _ ha => hS a ha

/-- **One entry is re-booked.** -/
theorem HasTotal.update [DecidableEq α] (h : HasTotal f n) (a : α) (v : ℕ) :
    HasTotal (Function.update f a v) (n - f a + v) := by
  obtain ⟨S, hTS, hS, hsum⟩ := h.exists_superset {a}
  have haS : a ∈ S := hTS (Finset.mem_singleton_self a)
  refine ⟨S, ?_, ?_⟩
  · intro b hb
    have hba : b ≠ a := by
      rintro rfl
      exact hb haS
    rw [Function.update_of_ne hba]
    exact hS b hb
  · have hold : f a + ∑ b ∈ S.erase a, f b = n := by
      rw [Finset.add_sum_erase S f haS, hsum]
    have hrest : ∑ b ∈ S.erase a, Function.update f a v b = ∑ b ∈ S.erase a, f b :=
      Finset.sum_congr rfl fun b hb => Function.update_of_ne (Finset.ne_of_mem_erase hb) _ _
    rw [← Finset.add_sum_erase S _ haS, hrest, Function.update_self]
    omega

/-- Any finitely many entries together are at most the total. -/
theorem HasTotal.sum_le [DecidableEq α] (h : HasTotal f n) (T : Finset α) : ∑ a ∈ T, f a ≤ n := by
  obtain ⟨S, hTS, -, hsum⟩ := h.exists_superset T
  rw [← hsum]
  exact Finset.sum_le_sum_of_subset hTS

/-- Every entry is at most the total. -/
theorem HasTotal.le (h : HasTotal f n) (a : α) : f a ≤ n := by
  classical
  obtain ⟨S, hTS, -, hsum⟩ := h.exists_superset {a}
  rw [← hsum]
  exact Finset.single_le_sum (fun b _ => Nat.zero_le (f b)) (hTS (Finset.mem_singleton_self a))

/-- Two different entries together are at most the total. -/
theorem HasTotal.add_le (h : HasTotal f n) {a b : α} (hab : a ≠ b) : f a + f b ≤ n := by
  classical
  obtain ⟨S, hTS, -, hsum⟩ := h.exists_superset {a, b}
  rw [← hsum, ← Finset.sum_pair hab]
  exact Finset.sum_le_sum_of_subset hTS

/-- **An amount moves from one entry to another**, and the total stays. -/
theorem HasTotal.move [DecidableEq α] (h : HasTotal f n) {a b : α} (hab : a ≠ b) {v : ℕ}
    (hv : v ≤ f a) :
    HasTotal (Function.update (Function.update f a (f a - v)) b (f b + v)) n := by
  have hfit := h.add_le hab
  have hmoved := (h.update a (f a - v)).update b (f b + v)
  rw [Function.update_of_ne (Ne.symm hab)] at hmoved
  rwa [show n - f a + (f a - v) - f b + (f b + v) = n from by omega] at hmoved

theorem HasTotal.finite_support (h : HasTotal f n) : (Function.support f).Finite := by
  obtain ⟨S, hS, -⟩ := h
  refine S.finite_toSet.subset ?_
  intro a ha
  by_contra haS
  exact ha (hS a (by simpa using haS))

/-- The total as Mathlib's sum over the whole type. -/
theorem HasTotal.finsum_eq (h : HasTotal f n) : ∑ᶠ a, f a = n := by
  obtain ⟨S, hS, hsum⟩ := h
  rw [finsum_eq_sum_of_support_subset f (s := S) ?_, hsum]
  intro a ha
  by_contra haS
  exact ha (hS a (by simpa using haS))

/-- A total of `0`/`1` marks counts the marked entries. -/
theorem HasTotal.ncard_pos (h : HasTotal (fun a => if 0 < f a then 1 else 0) n) :
    {a | 0 < f a}.Finite ∧ {a | 0 < f a}.ncard = n := by
  classical
  obtain ⟨S, hS, hsum⟩ := h
  have hset : {a | 0 < f a} = (S.filter fun a => 0 < f a : Finset α) := by
    ext a
    simp only [Set.mem_ofPred_eq, Finset.coe_filter]
    refine ⟨fun ha => ⟨?_, ha⟩, fun ha => ha.2⟩
    by_contra haS
    have hzero : (if 0 < f a then 1 else 0) = 0 := hS a haS
    rw [if_pos ha] at hzero
    exact one_ne_zero hzero
  rw [hset]
  refine ⟨Finset.finite_toSet _, ?_⟩
  rw [Set.ncard_coe_finset, Finset.card_filter, hsum]

end OpenSY.FiniteTotal
