import Mathlib.Order.Lattice
import Mathlib.Data.List.Basic

/-!
# Ordered maps as strictly sorted entry lists

The standard-library map: entries kept in strictly increasing key order, so that iteration visits
each key once and in order.  The order is a field of the structure, hence a key can never be entered
twice; `mem_entries_iff` says that iterating over the map and looking a key up see the same values.
-/

namespace OpenSY.Ordered

variable {K V : Type} [LinearOrder K]

/-- Put `(k, v)` at its place, replacing the entry of `k` if there is one. -/
def insertEntry (k : K) (v : V) : List (K × V) → List (K × V)
  | [] => [(k, v)]
  | p :: rest =>
    if k < p.1 then (k, v) :: p :: rest
    else if k = p.1 then (k, v) :: rest
    else p :: insertEntry k v rest

theorem mem_insertEntry {k : K} {v : V} {q : K × V} {l : List (K × V)}
    (h : q ∈ insertEntry k v l) : q = (k, v) ∨ q ∈ l := by
  induction l with
  | nil => simpa [insertEntry] using h
  | cons p rest ih =>
    rw [insertEntry] at h
    split_ifs at h with hlt heq
    · simpa using h
    · rcases List.mem_cons.mp h with h | h
      · exact Or.inl h
      · exact Or.inr (List.mem_cons_of_mem _ h)
    · rcases List.mem_cons.mp h with h | h
      · exact Or.inr (h ▸ List.mem_cons_self)
      · exact (ih h).imp id (List.mem_cons_of_mem _)

theorem insertEntry_sorted (k : K) (v : V) {l : List (K × V)}
    (h : l.Pairwise fun p q => p.1 < q.1) :
    (insertEntry k v l).Pairwise fun p q => p.1 < q.1 := by
  induction l with
  | nil => simp [insertEntry]
  | cons p rest ih =>
    obtain ⟨hp, hrest⟩ := List.pairwise_cons.mp h
    rw [insertEntry]
    split_ifs with hlt heq
    · refine List.pairwise_cons.mpr ⟨?_, h⟩
      intro q hq
      rcases List.mem_cons.mp hq with rfl | hq
      · exact hlt
      · exact lt_trans hlt (hp q hq)
    · refine List.pairwise_cons.mpr ⟨?_, hrest⟩
      intro q hq
      rw [heq]
      exact hp q hq
    · refine List.pairwise_cons.mpr ⟨?_, ih hrest⟩
      intro q hq
      rcases mem_insertEntry hq with rfl | hq
      · exact lt_of_le_of_ne (not_lt.mp hlt) (Ne.symm heq)
      · exact hp q hq

/-- A map from `K` to `V`: its entries in strictly increasing key order. -/
structure OrderedMap (K V : Type) [LinearOrder K] where
  entries : List (K × V)
  sorted : entries.Pairwise fun p q => p.1 < q.1

namespace OrderedMap

/-- The map without entries. -/
def empty : OrderedMap K V := ⟨[], List.Pairwise.nil⟩

/-- The value stored for a key. -/
def find (m : OrderedMap K V) (k : K) : Option V := m.entries.lookup k

/-- Store `v` for `k`. -/
def insert (m : OrderedMap K V) (k : K) (v : V) : OrderedMap K V :=
  ⟨insertEntry k v m.entries, insertEntry_sorted k v m.sorted⟩

@[simp] theorem find_empty (k : K) : (empty : OrderedMap K V).find k = none := rfl

@[simp] theorem find_insert_self (m : OrderedMap K V) (k : K) (v : V) :
    (m.insert k v).find k = some v := by
  show (insertEntry k v m.entries).lookup k = some v
  induction m.entries with
  | nil => simp [insertEntry]
  | cons p rest ih =>
    rw [insertEntry]
    split_ifs with hlt heq
    · simp
    · simp
    · rw [List.lookup_cons, beq_false_of_ne heq]
      exact ih

@[simp] theorem find_insert_of_ne (m : OrderedMap K V) {k k' : K} (v : V) (h : k' ≠ k) :
    (m.insert k v).find k' = m.find k' := by
  show (insertEntry k v m.entries).lookup k' = m.entries.lookup k'
  induction m.entries with
  | nil => rw [insertEntry, List.lookup_cons, beq_false_of_ne h]
  | cons p rest ih =>
    rw [insertEntry]
    split_ifs with hlt heq
    · rw [List.lookup_cons, beq_false_of_ne h]
    · have hp : (k' == p.1) = false := beq_false_of_ne (heq ▸ h)
      rw [List.lookup_cons, List.lookup_cons, beq_false_of_ne h, hp]
    · rw [List.lookup_cons, List.lookup_cons, ih]

/-- Iteration and lookup see the same entries. -/
theorem mem_entries_iff (m : OrderedMap K V) (k : K) (v : V) :
    (k, v) ∈ m.entries ↔ m.find k = some v := by
  obtain ⟨l, hl⟩ := m
  show (k, v) ∈ l ↔ l.lookup k = some v
  induction l with
  | nil => simp
  | cons p rest ih =>
    obtain ⟨hp, hrest⟩ := List.pairwise_cons.mp hl
    rw [List.mem_cons, ih hrest, List.lookup_cons]
    by_cases hk : k = p.1
    · -- the head carries the key, and no later entry can
      have hnone : rest.lookup k ≠ some v := fun hlook =>
        absurd (hp (k, v) ((ih hrest).mpr hlook)) (by simp [hk])
      simp only [hk, beq_self_eq_true]
      rw [← hk]
      simp only [hnone, or_false, Option.some.injEq]
      exact ⟨fun h => h ▸ rfl, fun h => Prod.ext hk h.symm⟩
    · rw [beq_false_of_ne hk]
      exact ⟨fun h => h.resolve_left (fun h' => hk (h' ▸ rfl)), Or.inr⟩

/-- Go through the entries, and erase those without a new value. -/
def filterMap {V' : Type} (m : OrderedMap K V) (f : V → Option V') : OrderedMap K V' where
  entries := m.entries.filterMap fun p => (f p.2).map (p.1, ·)
  sorted := by
    refine m.sorted.filterMap _ fun p q hlt p' hp q' hq => ?_
    obtain ⟨v, -, rfl⟩ := Option.map_eq_some_iff.mp hp
    obtain ⟨w, -, rfl⟩ := Option.map_eq_some_iff.mp hq
    exact hlt

theorem find_filterMap {V' : Type} (m : OrderedMap K V) (f : V → Option V') (k : K) :
    (m.filterMap f).find k = (m.find k).bind f := by
  ext v
  rw [← mem_entries_iff, Option.bind_eq_some_iff]
  show (k, v) ∈ m.entries.filterMap (fun p => (f p.2).map (p.1, ·)) ↔ _
  rw [List.mem_filterMap]
  constructor
  · rintro ⟨⟨k', w⟩, hmem, heq⟩
    obtain ⟨v', hv', hpair⟩ := Option.map_eq_some_iff.mp heq
    obtain ⟨rfl, rfl⟩ := Prod.mk.inj hpair
    exact ⟨w, (mem_entries_iff m _ w).mp hmem, hv'⟩
  · rintro ⟨w, hfind, hw⟩
    exact ⟨(k, w), (mem_entries_iff m k w).mpr hfind, by rw [hw]; rfl⟩

/-- Erase the `n` smallest keys. -/
def dropSmallest (m : OrderedMap K V) (n : ℕ) : OrderedMap K V where
  entries := m.entries.drop n
  sorted := m.sorted.sublist (List.drop_sublist n _)

theorem find_dropSmallest_of_mem (m : OrderedMap K V) {n : ℕ} {k : K} {v : V}
    (h : (k, v) ∈ m.entries.take n) : (m.dropSmallest n).find k = none := by
  rw [Option.eq_none_iff_forall_not_mem]
  intro w hw
  have hmem : (k, w) ∈ m.entries.drop n := (mem_entries_iff (m.dropSmallest n) k w).mpr hw
  have hsorted := m.sorted
  rw [← List.take_append_drop n m.entries, List.pairwise_append] at hsorted
  exact lt_irrefl k (hsorted.2.2 _ h _ hmem)

theorem find_dropSmallest_of_not_mem (m : OrderedMap K V) {n : ℕ} {k : K}
    (h : ∀ v, (k, v) ∉ m.entries.take n) : (m.dropSmallest n).find k = m.find k := by
  ext v
  rw [← mem_entries_iff, ← mem_entries_iff]
  show (k, v) ∈ m.entries.drop n ↔ _
  constructor
  · exact List.mem_of_mem_drop
  · intro hmem
    rw [← List.take_append_drop n m.entries, List.mem_append] at hmem
    exact hmem.resolve_left (h v)

end OrderedMap

end OpenSY.Ordered
