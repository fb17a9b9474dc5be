import Mathlib.Data.List.Nodup

/-!
# A bounded cache in order of last use

A least-recently-used cache as the list of its entries, most recently used first.  That no key
occurs twice is part of the structure.  The lemmas say which entries can be found in the cache after
each operation: a lookup only reorders them (`mem_get_snd`), an insertion leaves the new entry and
entries of other keys (`mem_insert`), an erasure leaves entries of other keys only (`mem_erase`).
-/

namespace OpenSY.RecencyCache

variable {K V : Type} [DecidableEq K]

/-- The entries, most recently used first, and the capacity. -/
structure LRUCache (K V : Type) where
  entries : List (K × V)
  maxSize : ℕ
  nodupKeys : (entries.map Prod.fst).Nodup

namespace LRUCache

/-- The entry list without key `k`. -/
def without (k : K) (l : List (K × V)) : List (K × V) := l.filter fun p => p.1 ≠ k

theorem mem_without {k : K} {l : List (K × V)} {p : K × V} :
    p ∈ without k l ↔ p ∈ l ∧ p.1 ≠ k := by
  simp [without]

theorem without_nodup {k : K} {l : List (K × V)} (h : (l.map Prod.fst).Nodup) :
    ((without k l).map Prod.fst).Nodup :=
  h.sublist (List.Sublist.map _ List.filter_sublist)

/-- Putting an entry of key `k` in front of a list that has none keeps the keys distinct. -/
theorem cons_without_nodup {k : K} (v : V) {l : List (K × V)} (h : (l.map Prod.fst).Nodup) :
    (((k, v) :: without k l).map Prod.fst).Nodup := by
  rw [List.map_cons, List.nodup_cons]
  refine ⟨fun hmem => ?_, without_nodup h⟩
  obtain ⟨p, hp, hpk⟩ := List.mem_map.mp hmem
  exact (mem_without.mp hp).2 hpk

/-- The empty cache. -/
def empty (maxSize : ℕ) : LRUCache K V := ⟨[], maxSize, List.nodup_nil⟩

/-- Whether the key is cached; the order of use does not change. -/
def contains (c : LRUCache K V) (k : K) : Bool := c.entries.any fun p => p.1 = k

/-- Look the key up without changing the order of use. -/
def peek (c : LRUCache K V) (k : K) : Option V := c.entries.lookup k

/-- Look the key up and, if it is there, make it the most recently used. -/
def get (c : LRUCache K V) (k : K) : Option V × LRUCache K V :=
  match c.peek k with
  | none => (none, c)
  | some v => (some v, ⟨(k, v) :: without k c.entries, c.maxSize, cons_without_nodup v c.nodupKeys⟩)

/-- Drop the least recently used entry. -/
def evictLru (c : LRUCache K V) : LRUCache K V :=
  ⟨c.entries.dropLast, c.maxSize,
    c.nodupKeys.sublist (List.Sublist.map _ (List.dropLast_sublist _))⟩

/-- Store `v` for `k` as the most recently used entry, evicting if a new key meets a full cache. -/
def insert (c : LRUCache K V) (k : K) (v : V) : LRUCache K V :=
  let room := if c.contains k then c else if c.entries.length ≥ c.maxSize then c.evictLru else c
  ⟨(k, v) :: without k room.entries, c.maxSize, cons_without_nodup v room.nodupKeys⟩

/-- Remove the key. -/
def erase (c : LRUCache K V) (k : K) : LRUCache K V :=
  ⟨without k c.entries, c.maxSize, without_nodup c.nodupKeys⟩

theorem peek_mem {c : LRUCache K V} {k : K} {v : V} (h : c.peek k = some v) :
    (k, v) ∈ c.entries := by
  unfold peek at h
  generalize c.entries = l at h
  induction l with
  | nil => simp at h
  | cons p rest ih =>
    rw [List.lookup_cons] at h
    by_cases hk : k = p.1
    · rw [hk, beq_self_eq_true] at h
      obtain rfl : p.2 = v := Option.some.inj h
      rw [hk]
      exact List.mem_cons_self
    · rw [beq_false_of_ne hk] at h
      exact List.mem_cons_of_mem _ (ih h)

theorem get_mem {c : LRUCache K V} {k : K} {v : V} (h : (c.get k).1 = some v) :
    (k, v) ∈ c.entries := by
  unfold get at h
  split at h
  · simp at h
  · rename_i w hw
    obtain rfl : w = v := Option.some.inj h
    exact peek_mem hw

theorem mem_get_snd {c : LRUCache K V} {k : K} {p : K × V} (h : p ∈ (c.get k).2.entries) :
    p ∈ c.entries := by
  unfold get at h
  split at h
  · exact h
  · rename_i v hv
    rcases List.mem_cons.mp h with rfl | h
    · exact peek_mem hv
    · exact (mem_without.mp h).1

theorem mem_insert {c : LRUCache K V} {k : K} {v : V} {p : K × V}
    (h : p ∈ (c.insert k v).entries) : p = (k, v) ∨ (p ∈ c.entries ∧ p.1 ≠ k) := by
  simp only [insert] at h
  rcases List.mem_cons.mp h with h | h
  · exact Or.inl h
  · obtain ⟨hroom, hk⟩ := mem_without.mp h
    refine Or.inr ⟨?_, hk⟩
    split_ifs at hroom
    · exact hroom
    · exact (List.dropLast_sublist _).subset hroom
    · exact hroom

/-- What was just stored is found. -/
theorem get_insert_self (c : LRUCache K V) (k : K) (v : V) : ((c.insert k v).get k).1 = some v := by
  have hpeek : (c.insert k v).peek k = some v := by
    show ((k, v) :: _).lookup k = some v
    rw [List.lookup_cons, beq_self_eq_true]
  unfold get
  rw [hpeek]

theorem mem_erase {c : LRUCache K V} {k : K} {p : K × V} (h : p ∈ (c.erase k).entries) :
    p ∈ c.entries ∧ p.1 ≠ k :=
  mem_without.mp h

omit [DecidableEq K] in
theorem ext_entries {c c' : LRUCache K V} (hentries : c.entries = c'.entries)
    (hsize : c.maxSize = c'.maxSize) :
    c = c' := by
  cases c
  cases c'
  subst hentries hsize
  rfl

/-- Erasing several keys keeps the entries of the others. -/
theorem foldl_erase_entries (c : LRUCache K V) (ks : List K) :
    (ks.foldl erase c).entries = c.entries.filter fun p => p.1 ∉ ks := by
  induction ks generalizing c with
  | nil => simp
  | cons k ks ih =>
    rw [List.foldl_cons, ih]
    simp only [erase, without, List.filter_filter, List.mem_cons, not_or, Bool.decide_and, ne_eq]
    exact List.filter_congr fun p _ => Bool.and_comm _ _

theorem foldl_erase_maxSize (c : LRUCache K V) (ks : List K) :
    (ks.foldl erase c).maxSize = c.maxSize := by
  induction ks generalizing c with
  | nil => rfl
  | cons k ks ih => exact ih (c.erase k)

/-- Neither the order of the keys nor repetitions matter. -/
theorem foldl_erase_congr (c : LRUCache K V) {ks ks' : List K} (h : ∀ k, k ∈ ks ↔ k ∈ ks') :
    ks.foldl erase c = ks'.foldl erase c := by
  have hentries : (ks.foldl erase c).entries = (ks'.foldl erase c).entries := by
    rw [foldl_erase_entries, foldl_erase_entries]
    exact List.filter_congr fun p _ => decide_eq_decide.mpr (not_congr (h p.1))
  have hsize : (ks.foldl erase c).maxSize = (ks'.foldl erase c).maxSize := by
    rw [foldl_erase_maxSize, foldl_erase_maxSize]
  exact ext_entries hentries hsize

theorem contains_iff {c : LRUCache K V} {k : K} :
    c.contains k = true ↔ ∃ v, (k, v) ∈ c.entries := by
  simp only [contains, List.any_eq_true, decide_eq_true_eq]
  constructor
  · rintro ⟨p, hp, rfl⟩
    exact ⟨p.2, hp⟩
  · rintro ⟨v, hv⟩
    exact ⟨(k, v), hv, rfl⟩

end LRUCache

end OpenSY.RecencyCache
