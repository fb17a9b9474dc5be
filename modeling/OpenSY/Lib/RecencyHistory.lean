import Mathlib.Data.PNat.Defs
import OpenSY.Lib.RecencyCache

/-!
# The history of a bounded cache

What was asked of a cache, the latest first, and the cache it leaves (`replay`).

* `apply_entries`: what one operation leaves: what it puts in front, and what it neither uses,
  erases nor evicts.
* `replay_ordered`: the entries stand in the order of their last use.
* `replay_peek`: a lookup finds the value that was inserted last, unless it was erased or evicted
  since.
* `replay_length_le`: there are never more entries than the capacity.
* `evicted_oldest`, `evicted_cause`: what is evicted was used longest ago, and when that happens.
-/

namespace OpenSY.RecencyCache

variable {K V : Type} [DecidableEq K]

/-- What can be asked of a cache; `use` is a lookup that changes the order, `look` one that does
not. -/
inductive Op (K V : Type) where
  | insert (k : K) (v : V)
  | use (k : K)
  | look (k : K)
  | erase (k : K)
  | clear
  | resize (maxSize : ℕ+)

namespace Op

/-- Whether the key is used. -/
def uses (k : K) : Op K V → Bool
  | .insert k' _ => k = k'
  | .use k' => k = k'
  | _ => false

def inserted (k : K) : Op K V → Option V
  | .insert k' v => if k = k' then some v else none
  | _ => none

/-- Whether the key is erased if it is there. -/
def erases (k : K) : Op K V → Bool
  | .erase k' => k = k'
  | .clear => true
  | _ => false

end Op

namespace LRUCache

def keys (c : LRUCache K V) : List K := c.entries.map Prod.fst

def clear (c : LRUCache K V) : LRUCache K V := ⟨[], c.maxSize, List.nodup_nil⟩

/-- Set the capacity and keep as many entries, the most recently used ones. -/
def resize (c : LRUCache K V) (maxSize : ℕ) : LRUCache K V :=
  ⟨c.entries.take maxSize, maxSize,
    c.nodupKeys.sublist (List.Sublist.map _ (List.take_sublist _ _))⟩

def apply (c : LRUCache K V) : Op K V → LRUCache K V
  | .insert k v => c.insert k v
  | .use k => (c.get k).2
  | .look _ => c
  | .erase k => c.erase k
  | .clear => c.clear
  | .resize maxSize => c.resize maxSize

/-- The keys that are evicted. -/
def evicted (c : LRUCache K V) : Op K V → List K
  | .insert k _ =>
    if c.contains k ∨ c.entries.length < c.maxSize then [] else c.keys.drop (c.keys.length - 1)
  | .resize maxSize => c.keys.drop maxSize
  | _ => []

/-! ### One operation -/

/-- What is put in front. -/
def front (c : LRUCache K V) : Op K V → List (K × V)
  | .insert k v => [(k, v)]
  | .use k => (c.peek k).toList.map fun v => (k, v)
  | _ => []

/-- Whether an entry stays where it is. -/
def stays (c : LRUCache K V) (op : Op K V) (k : K) : Bool :=
  !op.uses k && !op.erases k && k ∉ c.evicted op

theorem peek_eq_none_iff {c : LRUCache K V} {k : K} : c.peek k = none ↔ k ∉ c.keys := by
  rw [peek, List.lookup_eq_none_iff, keys, List.mem_map]
  constructor
  · rintro h ⟨p, hp, rfl⟩
    exact absurd (h p hp) (by simp)
  · intro h p hp
    exact bne_iff_ne.mpr fun heq => h ⟨p, hp, heq.symm⟩

/-- A lookup finds exactly what is stored. -/
theorem peek_eq_some_iff {c : LRUCache K V} {k : K} {v : V} :
    c.peek k = some v ↔ (k, v) ∈ c.entries := by
  refine ⟨peek_mem, fun h => ?_⟩
  cases hpeek : c.peek k with
  | none => exact absurd (List.mem_map_of_mem h) (peek_eq_none_iff.mp hpeek)
  | some w =>
    have hsame := List.inj_on_of_nodup_map c.nodupKeys (peek_mem hpeek) h rfl
    rw [(Prod.mk.inj hsame).2]

theorem contains_iff_mem_keys {c : LRUCache K V} {k : K} : c.contains k = true ↔ k ∈ c.keys := by
  rw [contains, keys, List.any_eq_true, List.mem_map]
  simp only [decide_eq_true_eq]

/-- Nothing is taken out with a key that is not there. -/
theorem without_of_notMem {c : LRUCache K V} {k : K} (h : k ∉ c.keys) :
    without k c.entries = c.entries := by
  refine List.filter_eq_self.mpr fun p hp => ?_
  have hne : p.1 ≠ k := fun heq => h (heq ▸ List.mem_map_of_mem hp)
  exact decide_eq_true hne

theorem contains_eq_isSome (c : LRUCache K V) (k : K) : c.contains k = (c.peek k).isSome := by
  rw [Bool.eq_iff_iff, contains_iff_mem_keys]
  cases hpeek : c.peek k with
  | none => exact iff_of_false (peek_eq_none_iff.mp hpeek) Bool.false_ne_true
  | some v => exact iff_of_true (List.mem_map_of_mem (peek_mem hpeek)) rfl

/-- Among distinct keys the first ones are those that are not among the others. -/
theorem take_eq_filter (c : LRUCache K V) (n : ℕ) :
    c.entries.take n = c.entries.filter fun p => p.1 ∉ c.keys.drop n := by
  have hsplit : c.entries.take n ++ c.entries.drop n = c.entries :=
    List.take_append_drop n c.entries
  have hnodup : ((c.entries.take n ++ c.entries.drop n).map Prod.fst).Nodup :=
    hsplit.symm ▸ c.nodupKeys
  rw [List.map_append, List.nodup_append] at hnodup
  have hdrop : c.keys.drop n = (c.entries.drop n).map Prod.fst := (List.map_drop ..).symm
  conv_rhs => rw [← hsplit]
  rw [hdrop, List.filter_append, List.filter_eq_self.mpr, List.filter_eq_nil_iff.mpr,
    List.append_nil]
  · intro p hp
    rw [decide_eq_true_eq, not_not]
    exact List.mem_map_of_mem hp
  · intro p hp
    refine decide_eq_true fun hmem => ?_
    exact hnodup.2.2 p.1 (List.mem_map_of_mem hp) p.1 hmem rfl

theorem stays_iff {c : LRUCache K V} {op : Op K V} {k : K} :
    c.stays op k = true ↔ op.uses k = false ∧ op.erases k = false ∧ k ∉ c.evicted op := by
  simp [stays, and_assoc]

/-- The entries that stay, from a filter that is spelled out. -/
theorem filter_stays {c : LRUCache K V} {op : Op K V} {stay : K × V → Bool}
    (h : ∀ p ∈ c.entries, stay p = true ↔ op.uses p.1 = false ∧ op.erases p.1 = false ∧
      p.1 ∉ c.evicted op) :
    c.entries.filter stay = c.entries.filter fun p => c.stays op p.1 := by
  refine List.filter_congr fun p hp => ?_
  rw [Bool.eq_iff_iff, h p hp, stays_iff]

theorem insert_entries (c : LRUCache K V) (k : K) (v : V) :
    (c.insert k v).entries = (k, v) :: c.entries.filter fun p => c.stays (.insert k v) p.1 := by
  show (k, v) :: without k _ = (k, v) :: _
  refine congrArg _ ?_
  by_cases hroom : c.contains k = true ∨ c.entries.length < c.maxSize
  · have hkeep : (if c.contains k then c else if c.entries.length ≥ c.maxSize then c.evictLru
        else c) = c := by
      split_ifs with hin hfull
      · rfl
      · exact absurd (hroom.resolve_left hin) (Nat.not_lt.mpr hfull)
      · rfl
    rw [hkeep]
    refine filter_stays fun p _ => ?_
    simp [Op.uses, Op.erases, evicted, hroom]
  · have hevict : (if c.contains k then c
        else if c.entries.length ≥ c.maxSize then c.evictLru else c) = c.evictLru := by
      rw [if_neg fun hin => hroom (Or.inl hin),
        if_pos (Nat.not_lt.mp fun hlt => hroom (Or.inr hlt))]
    rw [hevict]
    show without k c.entries.dropLast = _
    rw [List.dropLast_eq_take, take_eq_filter, without, List.filter_filter]
    refine filter_stays fun p _ => ?_
    have hlast : c.evicted (.insert k v) = c.keys.drop (c.entries.length - 1) := by
      rw [evicted, if_neg hroom, keys, List.length_map]
    rw [hlast, Bool.and_eq_true, decide_eq_true_eq, decide_eq_true_eq]
    simp [Op.uses, Op.erases]

/-- **What one operation leaves.** -/
theorem apply_entries (c : LRUCache K V) (op : Op K V) :
    (c.apply op).entries = c.front op ++ c.entries.filter fun p => c.stays op p.1 := by
  cases op with
  | insert k v => exact c.insert_entries k v
  | use k =>
    have hwithout : without k c.entries = c.entries.filter fun p => c.stays (.use k) p.1 :=
      filter_stays fun p _ => by simp [Op.uses, Op.erases, evicted]
    rw [← hwithout, apply, get, front]
    cases hpeek : c.peek k with
    | none => exact (without_of_notMem (peek_eq_none_iff.mp hpeek)).symm
    | some v => rfl
  | look k => exact (List.filter_eq_self.mpr fun p _ => rfl).symm
  | erase k => exact filter_stays fun p _ => by simp [Op.uses, Op.erases, evicted]
  | clear => exact (List.filter_eq_nil_iff.mpr fun p _ => by simp [stays, Op.erases]).symm
  | resize maxSize =>
    show c.entries.take maxSize = _
    rw [take_eq_filter]
    exact filter_stays fun p _ => by simp [Op.uses, Op.erases, evicted]

theorem uses_of_mem_front {c : LRUCache K V} {op : Op K V} {p : K × V}
    (h : p ∈ c.front op) : op.uses p.1 = true := by
  cases op with
  | insert k v =>
    rw [List.mem_singleton.mp h]
    exact decide_eq_true rfl
  | use k =>
    obtain ⟨v, -, rfl⟩ := List.mem_map.mp h
    exact decide_eq_true rfl
  | _ => cases h

/-- There is at most one. -/
theorem front_pairwise (c : LRUCache K V) (op : Op K V) (R : K → K → Prop) :
    ((c.front op).map Prod.fst).Pairwise R := by
  cases op with
  | insert k v => exact List.pairwise_singleton R k
  | use k =>
    rw [front]
    cases c.peek k with
    | none => exact List.Pairwise.nil
    | some v => exact List.pairwise_singleton R k
  | _ => exact List.Pairwise.nil

/-- A key that is there and is used is put in front. -/
theorem mem_front_of_uses {c : LRUCache K V} {op : Op K V} {k : K} (huses : op.uses k = true)
    (hk : k ∈ c.keys) :
    k ∈ (c.front op).map Prod.fst := by
  cases op with
  | insert k' v =>
    rw [of_decide_eq_true huses]
    exact List.mem_singleton.mpr rfl
  | use k' =>
    obtain rfl : k = k' := of_decide_eq_true huses
    rw [front]
    cases hpeek : c.peek k with
    | none => exact absurd hk (peek_eq_none_iff.mp hpeek)
    | some v => exact List.mem_singleton.mpr rfl
  | _ => cases huses

/-- The keys that are there afterwards. -/
theorem mem_keys_apply {c : LRUCache K V} {op : Op K V} {k : K} : k ∈ (c.apply op).keys ↔
    k ∈ (c.front op).map Prod.fst ∨ k ∈ c.keys ∧ c.stays op k = true := by
  rw [keys, apply_entries, List.map_append, List.mem_append, keys]
  refine or_congr_right ?_
  simp only [List.mem_map, List.mem_filter]
  constructor
  · rintro ⟨p, ⟨hp, hstay⟩, rfl⟩
    exact ⟨⟨p, hp, rfl⟩, hstay⟩
  · rintro ⟨⟨p, hp, rfl⟩, hstay⟩
    exact ⟨p, ⟨hp, hstay⟩, rfl⟩

/-! ### Lookups -/

theorem lookup_filter (l : List (K × V)) (stay : K → Bool) (k : K) :
    (l.filter fun p => stay p.1).lookup k = if stay k then l.lookup k else none := by
  induction l with
  | nil => simp
  | cons p l ih =>
    rw [List.filter_cons]
    by_cases hp : stay p.1 = true
    · rw [if_pos hp, List.lookup_cons, List.lookup_cons, ih]
      by_cases hk : k = p.1
      · simp only [hk, beq_self_eq_true, hp, if_true]
      · rw [beq_false_of_ne hk]
    · rw [if_neg hp, ih, List.lookup_cons]
      by_cases hk : k = p.1
      · rw [hk, if_neg hp, if_neg hp]
      · rw [beq_false_of_ne hk]

theorem lookup_singleton_of_ne {k k' : K} (h : k ≠ k') (v : V) : [(k', v)].lookup k = none := by
  rw [List.lookup_cons, beq_false_of_ne h]
  rfl

/-- **What a lookup finds after an operation.** -/
theorem peek_apply (c : LRUCache K V) (op : Op K V) (k : K) : (c.apply op).peek k =
    (op.inserted k).or (if op.erases k = true ∨ k ∈ c.evicted op then none else c.peek k) := by
  rw [peek, apply_entries, List.lookup_append, lookup_filter]
  simp only [stays_iff]
  cases op with
  | insert k' v =>
    by_cases hk : k = k'
    · simp [front, Op.inserted, hk]
    · simp [front, lookup_singleton_of_ne hk, Op.inserted, Op.uses, Op.erases, peek, hk]
  | use k' =>
    by_cases hk : k = k'
    · cases hpeek : c.peek k' <;> simp [front, Op.inserted, Op.uses, Op.erases, evicted, hk, hpeek]
    · cases hpeek : c.peek k' <;>
        simp [front, hpeek, lookup_singleton_of_ne hk, Op.inserted, Op.uses, Op.erases, evicted,
          hk] <;> rfl
  | _ => simp [front, Op.inserted, Op.uses, Op.erases, evicted, peek]

/-! ### Sizes -/

/-- An entry in front of those of other keys makes a list no longer than it was, if the key was
there. -/
theorem length_without_lt {c : LRUCache K V} {k : K} (h : k ∈ c.keys) :
    (without k c.entries).length < c.entries.length := by
  obtain ⟨p, hp, hk⟩ := List.mem_map.mp h
  exact List.length_filter_lt_length_iff_exists.mpr ⟨p, hp, by simpa using hk⟩

theorem get_length (c : LRUCache K V) (k : K) : (c.get k).2.entries.length ≤ c.entries.length := by
  rw [get]
  cases hpeek : c.peek k with
  | none => exact Nat.le_refl _
  | some v =>
    have hmem : k ∈ c.keys := List.mem_map_of_mem (peek_mem hpeek)
    exact length_without_lt hmem

/-- **The capacity is kept.** -/
theorem apply_length_le (c : LRUCache K V) (op : Op K V) (hcap : 0 < c.maxSize)
    (h : c.entries.length ≤ c.maxSize) :
    0 < (c.apply op).maxSize ∧ (c.apply op).entries.length ≤ (c.apply op).maxSize := by
  cases op with
  | insert k v =>
    refine ⟨hcap, ?_⟩
    show (without k _).length + 1 ≤ c.maxSize
    split_ifs with hin hfull
    · exact (length_without_lt (contains_iff_mem_keys.mp hin)).trans_le h
    · have hdrop : (without k c.evictLru.entries).length ≤ c.entries.length - 1 :=
        (List.length_filter_le _ _).trans (List.length_dropLast ..).le
      omega
    · have hfilter : (without k c.entries).length ≤ c.entries.length := List.length_filter_le _ _
      omega
  | use k =>
    have hsize : (c.get k).2.maxSize = c.maxSize := by
      rw [get]
      cases c.peek k <;> rfl
    show 0 < (c.get k).2.maxSize ∧ _ ≤ (c.get k).2.maxSize
    rw [hsize]
    exact ⟨hcap, (c.get_length k).trans h⟩
  | look k => exact ⟨hcap, h⟩
  | erase k => exact ⟨hcap, (List.length_filter_le _ _).trans h⟩
  | clear => exact ⟨hcap, Nat.zero_le _⟩
  | resize maxSize => exact ⟨maxSize.pos, List.length_take_le _ _⟩

/-! ### Evictions -/

theorem evicted_eq_drop (c : LRUCache K V) (op : Op K V) : ∃ n, c.evicted op = c.keys.drop n := by
  have hnone : c.keys.drop c.keys.length = [] := List.drop_length
  cases op with
  | insert k v =>
    rw [evicted]
    split_ifs
    · exact ⟨_, hnone.symm⟩
    · exact ⟨_, rfl⟩
  | resize maxSize => exact ⟨_, rfl⟩
  | _ => exact ⟨_, hnone.symm⟩

/-- **When something is evicted**: one key where a new key comes to a full cache, and what is too
much where the capacity is made smaller. -/
theorem evicted_cause {c : LRUCache K V} {op : Op K V} (h : c.evicted op ≠ []) :
    (∃ k v, op = .insert k v ∧ k ∉ c.keys ∧ c.maxSize ≤ c.entries.length ∧
      (c.evicted op).length = 1) ∨
      ∃ maxSize : ℕ+, op = .resize maxSize ∧ maxSize < c.entries.length ∧
        (c.evicted op).length = c.entries.length - maxSize := by
  cases op with
  | insert k v =>
    rw [evicted] at h ⊢
    split_ifs at h ⊢ with hroom
    · exact absurd rfl h
    rw [not_or] at hroom
    have hpos : 0 < c.keys.length := List.length_pos_of_ne_nil fun hnil => h (by rw [hnil]; rfl)
    refine Or.inl ⟨k, v, rfl, fun hmem => hroom.1 (contains_iff_mem_keys.mpr hmem),
      Nat.not_lt.mp hroom.2, ?_⟩
    rw [List.length_drop]
    omega
  | resize maxSize =>
    have hlen : (c.evicted (.resize maxSize)).length = c.entries.length - maxSize := by
      rw [evicted, List.length_drop, keys, List.length_map]
    have hpos := List.length_pos_of_ne_nil h
    exact Or.inr ⟨maxSize, rfl, by omega, hlen⟩
  | _ => exact absurd rfl h

theorem not_uses_of_mem_evicted {c : LRUCache K V} {op : Op K V} {k : K} (h : k ∈ c.evicted op) :
    op.uses k = false ∧ op.erases k = false := by
  obtain ⟨k', v, rfl, hnew, -⟩ | ⟨maxSize, rfl, -⟩ := evicted_cause (List.ne_nil_of_mem h)
  · obtain ⟨n, hn⟩ := c.evicted_eq_drop (.insert k' v)
    refine ⟨decide_eq_false fun heq => hnew ?_, rfl⟩
    rw [← heq]
    exact List.mem_of_mem_drop (hn ▸ h)
  · exact ⟨rfl, rfl⟩

/-- What is evicted is what leaves without being erased. -/
theorem mem_evicted_iff {c : LRUCache K V} {op : Op K V} {k : K} :
    k ∈ c.evicted op ↔ k ∈ c.keys ∧ k ∉ (c.apply op).keys ∧ op.erases k = false := by
  rw [mem_keys_apply, not_or]
  constructor
  · intro h
    obtain ⟨n, hn⟩ := c.evicted_eq_drop op
    have hk : k ∈ c.keys := List.mem_of_mem_drop (hn ▸ h)
    obtain ⟨huses, herases⟩ := not_uses_of_mem_evicted h
    refine ⟨hk, ⟨fun hfront => ?_, fun hstays => (stays_iff.mp hstays.2).2.2 h⟩, herases⟩
    obtain ⟨p, hp, rfl⟩ := List.mem_map.mp hfront
    exact Bool.false_ne_true (huses.symm.trans (uses_of_mem_front hp))
  · rintro ⟨hk, ⟨hfront, hstays⟩, herases⟩
    by_contra hnot
    refine hstays ⟨hk, stays_iff.mpr ⟨?_, herases, hnot⟩⟩
    exact Bool.eq_false_iff.mpr fun huses => hfront (mem_front_of_uses huses hk)

end LRUCache

/-! ### Histories -/

open LRUCache

/-- The cache that a history leaves, the latest operation first. -/
def replay (maxSize : ℕ+) : List (Op K V) → LRUCache K V
  | [] => LRUCache.empty maxSize
  | op :: past => (replay maxSize past).apply op

/-- How many operations ago a key was last used. -/
def age (past : List (Op K V)) (k : K) : ℕ := past.findIdx (Op.uses k)

/-- The value that was inserted last, unless the key was erased or evicted since. -/
def lastValue (maxSize : ℕ+) : List (Op K V) → K → Option V
  | [], _ => none
  | op :: past, k =>
    (op.inserted k).or (if op.erases k = true ∨ k ∈ (replay maxSize past).evicted op then none
      else lastValue maxSize past k)

section Replay

variable (maxSize : ℕ+) (past : List (Op K V))

theorem replay_length_le : 0 < (replay maxSize past).maxSize ∧
    (replay maxSize past).entries.length ≤ (replay maxSize past).maxSize := by
  induction past with
  | nil => exact ⟨maxSize.pos, Nat.zero_le _⟩
  | cons op past ih => exact apply_length_le _ op ih.1 ih.2

theorem replay_peek (k : K) : (replay maxSize past).peek k = lastValue maxSize past k := by
  induction past with
  | nil => rfl
  | cons op past ih => rw [replay, peek_apply, lastValue, ih]

/-- **The entries stand in the order of their last use**, and each was used. -/
theorem replay_ordered :
    ((replay maxSize past).keys.Pairwise fun k k' => age past k < age past k') ∧
    ∀ k ∈ (replay maxSize past).keys, age past k < past.length := by
  induction past with
  | nil => exact ⟨List.Pairwise.nil, fun k hk => absurd hk List.not_mem_nil⟩
  | cons op past ih =>
    set c := replay maxSize past with hc
    have hused : ∀ k, op.uses k = true → age (op :: past) k = 0 := fun k hk => by
      rw [age, List.findIdx_cons, hk, cond_true]
    have hother : ∀ k, op.uses k = false → age (op :: past) k = age past k + 1 := fun k hk => by
      rw [age, List.findIdx_cons, hk, cond_false]
      rfl
    have hkeys : (c.apply op).keys = (c.front op).map Prod.fst ++ c.keys.filter (c.stays op) := by
      rw [keys, apply_entries, List.map_append, keys, List.filter_map]
      rfl
    have hfront : ∀ k ∈ (c.front op).map Prod.fst, age (op :: past) k = 0 := by
      intro k hk
      obtain ⟨p, hp, rfl⟩ := List.mem_map.mp hk
      exact hused p.1 (uses_of_mem_front hp)
    have hstays : ∀ k ∈ c.keys.filter (c.stays op), age (op :: past) k = age past k + 1 :=
      fun k hk => hother k (stays_iff.mp (List.mem_filter.mp hk).2).1
    show ((c.apply op).keys.Pairwise _) ∧ ∀ k ∈ (c.apply op).keys, _
    rw [hkeys]
    constructor
    · -- at most one key is in front, and it has just been used
      refine List.pairwise_append.mpr ⟨?_, ?_, fun k hk k' hk' => ?_⟩
      · exact c.front_pairwise op _
      · refine (ih.1.sublist List.filter_sublist).imp_of_mem fun hk hk' hlt => ?_
        rw [hstays _ hk, hstays _ hk']
        exact Nat.succ_lt_succ hlt
      · rw [hfront k hk, hstays k' hk']
        exact Nat.succ_pos _
    · intro k hk
      rcases List.mem_append.mp hk with hk | hk
      · rw [hfront k hk]
        exact Nat.succ_pos _
      · rw [hstays k hk]
        exact Nat.succ_lt_succ (ih.2 k (List.mem_filter.mp hk).1)

/-- **What is evicted was used longest ago.** -/
theorem evicted_oldest {op : Op K V} {k k' : K} (hk : k ∈ (replay maxSize past).evicted op)
    (hk' : k' ∈ (replay maxSize past).keys) (hstays : k' ∉ (replay maxSize past).evicted op) :
    age past k' < age past k := by
  obtain ⟨n, hn⟩ := (replay maxSize past).evicted_eq_drop op
  have hordered := (replay_ordered maxSize past).1
  rw [← List.take_append_drop n (replay maxSize past).keys] at hordered hk'
  rw [hn] at hk hstays
  have htake := (List.mem_append.mp hk').resolve_right hstays
  exact (List.pairwise_append.mp hordered).2.2 k' htake k hk

end Replay

end OpenSY.RecencyCache
