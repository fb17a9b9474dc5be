import Mathlib.Data.Finset.Sort
import Mathlib.Data.List.Sort

/-!
# In order, and the newest first

The elements of a finite set in ascending order (`ascending`, the way an iterator or a set goes
through them), by a recursion that can be evaluated; the same for a set that is filled one element
after the other and ordered by a key (`orderedSet`).

Duplicates by a key, of which the first one is kept (`keepFirst`).  Over a list that is collected
group by group, `mem_keepFirst_flatMap` says which group an element that was kept comes from.

A sort whose order among equals is not specified (`Sorting`), and what it means for a list to hold
the `n` newest elements of another (`Newest`).  A scan in ascending order that stops after `n`
elements holds the oldest ones, however they are sorted afterwards; `newest_take_iff` says when
these are the newest as well.
-/

namespace OpenSY.Selection

variable {α β : Type} [LinearOrder β]

/-! ### Sets in order -/

section Ascending

variable [LinearOrder α]

theorem insertionSort_of_perm {l l' : List α} (h : l.Perm l') :
    l.insertionSort (· ≤ ·) = l'.insertionSort (· ≤ ·) :=
  ((List.perm_insertionSort _ l).trans
    (h.trans (List.perm_insertionSort _ l').symm)).eq_of_pairwise' (List.pairwise_insertionSort _ l)
    (List.pairwise_insertionSort _ l')

/-- The elements of a finite set in ascending order. -/
def ascending (s : Finset α) : List α :=
  Quot.lift (fun l : List α => l.insertionSort (· ≤ ·)) (fun _ _ h => insertionSort_of_perm h) s.val

theorem ascending_perm (s : Finset α) : (ascending s : Multiset α) = s.val := by
  obtain ⟨m, hm⟩ := s
  induction m using Quot.inductionOn with
  | h l => exact Quot.sound (List.perm_insertionSort _ l)

theorem mem_ascending {s : Finset α} {x : α} : x ∈ ascending s ↔ x ∈ s := by
  rw [← Multiset.mem_coe, ascending_perm]
  rfl

theorem nodup_ascending (s : Finset α) : (ascending s).Nodup := by
  rw [← Multiset.coe_nodup, ascending_perm]
  exact s.nodup

theorem ascending_pairwise (s : Finset α) : (ascending s).Pairwise (· ≤ ·) := by
  obtain ⟨m, hm⟩ := s
  induction m using Quot.inductionOn with
  | h l => exact List.pairwise_insertionSort _ l

end Ascending

section OrderedSet

variable [DecidableEq α]

/-- A set ordered by a key, after the elements of a list were inserted. -/
def orderedSet (key : α → β) (l : List α) : List α := l.dedup.insertionSort fun x y => key x ≤ key y

theorem mem_orderedSet {key : α → β} {l : List α} {x : α} : x ∈ orderedSet key l ↔ x ∈ l := by
  rw [orderedSet, List.mem_insertionSort, List.mem_dedup]

theorem orderedSet_pairwise {key : α → β} (hkey : Function.Injective key) (l : List α) :
    (orderedSet key l).Pairwise fun x y => key x < key y := by
  have hle : (orderedSet key l).Pairwise fun x y => key x ≤ key y := List.pairwise_insertionSort _ _
  have hne : (orderedSet key l).Nodup :=
    (List.perm_insertionSort _ _).nodup_iff.mpr (List.nodup_dedup l)
  exact hle.and hne |>.imp fun ⟨h, hxy⟩ => lt_of_le_of_ne h (hkey.ne hxy)

end OrderedSet

/-! ### The first of each key -/

section KeepFirst

variable {κ : Type} [DecidableEq κ]

/-- The elements whose key was not seen before. -/
def keepFirst (key : α → κ) : List κ → List α → List α
  | _, [] => []
  | seen, x :: rest =>
    if key x ∈ seen then keepFirst key seen rest else x :: keepFirst key (key x :: seen) rest

variable {key : α → κ}

theorem mem_of_mem_keepFirst {x : α} {l : List α} : ∀ {seen : List κ}, x ∈ keepFirst key seen l →
    x ∈ l ∧ key x ∉ seen := by
  induction l with
  | nil => exact fun h => absurd h List.not_mem_nil
  | cons y rest ih =>
    intro seen h
    rw [keepFirst] at h
    split_ifs at h with hy
    · exact ⟨List.mem_cons_of_mem y (ih h).1, (ih h).2⟩
    · rcases List.mem_cons.mp h with rfl | h
      · exact ⟨List.mem_cons_self, hy⟩
      · exact ⟨List.mem_cons_of_mem y (ih h).1,
          fun hseen => (ih h).2 (List.mem_cons_of_mem _ hseen)⟩

/-- No key is kept twice. -/
theorem nodup_keepFirst (key : α → κ) (l : List α) :
    ∀ seen : List κ, ((keepFirst key seen l).map key).Nodup := by
  induction l with
  | nil => exact fun _ => List.nodup_nil
  | cons y rest ih =>
    intro seen
    rw [keepFirst]
    split_ifs with hy
    · exact ih seen
    · rw [List.map_cons, List.nodup_cons]
      refine ⟨fun hmem => ?_, ih _⟩
      obtain ⟨x, hx, hkey⟩ := List.mem_map.mp hmem
      exact (mem_of_mem_keepFirst hx).2 (hkey ▸ List.mem_cons_self)

/-- Every key is kept once, unless it was seen before. -/
theorem exists_mem_keepFirst {x : α} {l : List α} (hx : x ∈ l) : ∀ {seen : List κ}, key x ∉ seen →
    ∃ y ∈ keepFirst key seen l, key y = key x := by
  induction l with
  | nil => exact absurd hx List.not_mem_nil
  | cons z rest ih =>
    intro seen hseen
    rw [keepFirst]
    by_cases hz : key z ∈ seen
    · rw [if_pos hz]
      rcases List.mem_cons.mp hx with rfl | hx
      · exact absurd hz hseen
      · exact ih hx hseen
    · rw [if_neg hz]
      by_cases hkey : key z = key x
      · exact ⟨z, List.mem_cons_self, hkey⟩
      · rcases List.mem_cons.mp hx with rfl | hx
        · exact absurd rfl hkey
        have hfresh : key x ∉ key z :: seen := fun h =>
          (List.mem_cons.mp h).elim (fun heq => hkey heq.symm) hseen
        obtain ⟨y, hy, hyx⟩ := ih hx hfresh
        exact ⟨y, List.mem_cons_of_mem z hy, hyx⟩

theorem mem_keepFirst_of_subset {x : α} {l : List α} : ∀ {seen seen' : List κ}, seen ⊆ seen' →
    x ∈ keepFirst key seen' l → x ∈ keepFirst key seen l := by
  induction l with
  | nil => exact fun _ h => h
  | cons y rest ih =>
    intro seen seen' hsub h
    rw [keepFirst] at h ⊢
    by_cases hy : key y ∈ seen
    · rw [if_pos (hsub hy)] at h
      rw [if_pos hy]
      exact ih hsub h
    · rw [if_neg hy]
      split_ifs at h with hy'
      · exact List.mem_cons_of_mem y (ih (List.cons_subset.mpr ⟨hy', hsub⟩) h)
      · rcases List.mem_cons.mp h with rfl | h
        · exact List.mem_cons_self
        · exact List.mem_cons_of_mem y (ih (List.cons_subset_cons _ hsub) h)

/-- What comes later is kept only if its key did not come earlier. -/
theorem mem_keepFirst_append {x : α} {l l' : List α} :
    ∀ {seen : List κ}, x ∈ keepFirst key seen (l ++ l') →
    x ∈ l ∨ x ∈ keepFirst key seen l' ∧ ∀ y ∈ l, key y ≠ key x := by
  induction l with
  | nil => exact fun h => Or.inr ⟨h, fun y hy => absurd hy List.not_mem_nil⟩
  | cons z l ih =>
    intro seen h
    have hseen := (mem_of_mem_keepFirst h).2
    rw [List.cons_append, keepFirst] at h
    split_ifs at h with hz
    · refine (ih h).imp (List.mem_cons_of_mem z) fun ⟨hlater, hearlier⟩ => ⟨hlater, ?_⟩
      exact List.forall_mem_cons.mpr ⟨fun heq => hseen (heq ▸ hz), hearlier⟩
    · rcases List.mem_cons.mp h with rfl | h
      · exact Or.inl List.mem_cons_self
      have hfresh := (mem_of_mem_keepFirst h).2
      refine (ih h).imp (List.mem_cons_of_mem z) fun ⟨hlater, hearlier⟩ => ⟨?_, ?_⟩
      · exact mem_keepFirst_of_subset (List.subset_cons_self _ _) hlater
      · exact List.forall_mem_cons.mpr ⟨fun heq => hfresh (heq ▸ List.mem_cons_self), hearlier⟩

/-- **What is kept of a list collected group by group** comes from some group, and no earlier group
has its key. -/
theorem mem_keepFirst_flatMap {γ : Type} {rank : γ → β} {groups : List γ} {f : γ → List α} {x : α}
    (hsorted : groups.Pairwise fun g g' => rank g < rank g')
    (hx : x ∈ keepFirst key [] (groups.flatMap f)) :
    ∃ g ∈ groups, x ∈ f g ∧ ∀ g' ∈ groups, rank g' < rank g → ∀ y ∈ f g', key y ≠ key x := by
  induction groups with
  | nil => exact absurd hx List.not_mem_nil
  | cons a groups ih =>
    obtain ⟨hfirst, hrest⟩ := List.pairwise_cons.mp hsorted
    rw [List.flatMap_cons] at hx
    rcases mem_keepFirst_append hx with hx | ⟨hx, hearlier⟩
    · refine ⟨a, List.mem_cons_self, hx, fun g' hg' hlt => ?_⟩
      rcases List.mem_cons.mp hg' with rfl | hg'
      · exact absurd hlt (lt_irrefl _)
      · exact absurd hlt (hfirst g' hg').asymm
    · obtain ⟨g, hg, hxg, hno⟩ := ih hrest hx
      refine ⟨g, List.mem_cons_of_mem a hg, hxg, fun g' hg' hlt => ?_⟩
      rcases List.mem_cons.mp hg' with rfl | hg'
      · exact hearlier
      · exact hno g' hg' hlt

end KeepFirst

/-! ### Sorting -/

/-- A sort by a comparison: some permutation in which no element should come before an earlier one.
-/
structure Sorting (before : α → α → Bool) where
  run : List α → List α
  perm : ∀ l, (run l).Perm l
  sorted : ∀ l, (run l).Pairwise fun x y => before y x = false

/-- One that can be run. -/
def Sorting.insertion (key : α → β) : Sorting fun x y : α => decide (key y < key x) where
  run l := l.insertionSort fun x y => key y ≤ key x
  perm l := List.perm_insertionSort _ l
  sorted l := by
    have hpairs := List.pairwise_insertionSort (fun x y : α => key y ≤ key x) l
    exact hpairs.imp fun h => by simpa using h

/-- The `n` newest elements by a key, the newest first: all if there are no more, and none is left
out that is newer than one of them. -/
structure Newest (key : α → β) (n : ℕ) (all result : List α) : Prop where
  length : result.length = min n all.length
  sorted : result.Pairwise fun x y => key y ≤ key x
  newest : ∃ left, (result ++ left).Perm all ∧ ∀ x ∈ left, ∀ y ∈ result, key x ≤ key y

variable {key : α → β} {all : List α}

/-- What is left out when the first `n` are taken. -/
theorem left_of_take {n : ℕ} {result left : List α} (hresult : result.Perm (all.take n))
    (h : (result ++ left).Perm all) : left.Perm (all.drop n) := by
  have hsplit : (all.take n ++ left).Perm (all.take n ++ all.drop n) := by
    rw [List.take_append_drop]
    exact (hresult.symm.append_right left).trans h
  exact (List.perm_append_left_iff _).mp hsplit

/-- If the first `n` are the newest of an ascending list, those left out are as new as they are. -/
theorem Newest.key_eq {n : ℕ} {result : List α} (h : Newest key n all result)
    (hresult : result.Perm (all.take n)) (hasc : all.Pairwise fun x y => key x ≤ key y) {x y : α}
    (hx : x ∈ all.take n) (hy : y ∈ all.drop n) :
    key x = key y := by
  obtain ⟨left, hleft, hnewest⟩ := h.newest
  have hdrop := left_of_take hresult hleft
  rw [← List.take_append_drop n all] at hasc
  have hordered : key x ≤ key y := (List.pairwise_append.mp hasc).2.2 x hx y hy
  exact le_antisymm hordered (hnewest y (hdrop.mem_iff.mpr hy) x (hresult.mem_iff.mpr hx))

omit [LinearOrder β] in
/-- Two parts that agree with each other, neither of them empty, are constant. -/
theorem key_eq_of_split {front back : List α} (hfront : front ≠ []) (hback : back ≠ [])
    (h : ∀ x ∈ front, ∀ y ∈ back, key x = key y) :
    ∀ x ∈ front ++ back, ∀ y ∈ front ++ back, key x = key y := by
  obtain ⟨first, hfirst⟩ := List.exists_mem_of_ne_nil front hfront
  obtain ⟨last, hlast⟩ := List.exists_mem_of_ne_nil back hback
  have hall : ∀ x ∈ front ++ back, key x = key last := by
    intro x hx
    rcases List.mem_append.mp hx with hx | hx
    · exact h x hx last hlast
    · exact (h first hfirst x hx).symm.trans (h first hfirst last hlast)
  exact fun x hx y hy => (hall x hx).trans (hall y hy).symm

/-- **The first `n` of an ascending list are the newest** exactly if there are no more, or none was
wanted, or all are equally new. -/
theorem newest_take_iff (s : Sorting fun x y : α => decide (key y < key x))
    (hasc : all.Pairwise fun x y => key x ≤ key y) (n : ℕ) :
    Newest key n all (s.run (all.take n)) ↔
      n = 0 ∨ all.length ≤ n ∨ ∀ x ∈ all, ∀ y ∈ all, key x = key y := by
  have hperm := s.perm (all.take n)
  constructor
  · intro h
    by_cases hzero : n = 0
    · exact Or.inl hzero
    by_cases hlen : all.length ≤ n
    · exact Or.inr (Or.inl hlen)
    have hfront : all.take n ≠ [] := by
      rw [Ne, List.take_eq_nil_iff]
      rintro (h | h)
      · exact hzero h
      · rw [h] at hlen
        exact hlen (Nat.zero_le n)
    have hback : all.drop n ≠ [] := by
      rw [Ne, List.drop_eq_nil_iff]
      exact hlen
    have hsame := key_eq_of_split hfront hback fun x hx y hy => h.key_eq hperm hasc hx hy
    rw [List.take_append_drop] at hsame
    exact Or.inr (Or.inr hsame)
  · intro h
    refine ⟨?_, ?_, all.drop n, ?_, ?_⟩
    · rw [hperm.length_eq, List.length_take]
    · exact (s.sorted _).imp fun hno => by simpa using hno
    · have happend := hperm.append_right (all.drop n)
      rw [List.take_append_drop] at happend
      exact happend
    · intro x hx y hy
      have hy' := hperm.mem_iff.mp hy
      rcases h with rfl | hlen | hsame
      · simp at hy'
      · rw [List.drop_eq_nil_iff.mpr hlen] at hx
        simp at hx
      · exact (hsame x (List.mem_of_mem_drop hx) y (List.mem_of_mem_take hy')).le

end OpenSY.Selection
