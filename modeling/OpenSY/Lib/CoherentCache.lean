import Mathlib.Data.Set.Basic
import Mathlib.Logic.Relation
import OpenSY.Lib.RecencyCache

/-!
# A cache in front of a store that changes

Readers look a key up in the cache and on a miss read the store and fill the cache, in separate
steps, so a value may be filled in that the store no longer holds.  The writer changes the store
first and the cache afterwards, one key at a time.  Between the two, the keys whose cache entries
are still to be put right are **stale**.

* `Fresh` — whatever is cached or about to be filled in is what the store holds, stale keys apart;
* `Step` — what readers and writer do; the writer touches the cache only while nobody is filling it;
* `Step.fresh`, `Steps.fresh` — freshness survives every step, whatever the cache evicts;
* `Fresh.coherent` — when no key is stale, the cache agrees with the store.
-/

namespace OpenSY.CoherentCache

open OpenSY.RecencyCache

variable {K V : Type} [DecidableEq K]

structure Cached (K V : Type) where
  store : K → Option V
  cache : LRUCache K V
  /-- read from the store, not yet in the cache -/
  loaded : Option (K × V)
  /-- committed to the store, not yet put right in the cache -/
  stale : Set K

/-- Everything cached or loaded is current, or its key is stale. -/
structure Fresh (s : Cached K V) : Prop where
  cached : ∀ p ∈ s.cache.entries, p.1 ∈ s.stale ∨ s.store p.1 = some p.2
  loaded : ∀ p, s.loaded = some p → p.1 ∈ s.stale ∨ s.store p.1 = some p.2

inductive Step : Cached K V → Cached K V → Prop
  /-- a lookup that only changes the order of use -/
  | touch (s : Cached K V) (k : K) : Step s { s with cache := (s.cache.get k).2 }
  /-- after a miss, read the store -/
  | load (s : Cached K V) (k : K) (v : V) (current : s.store k = some v) :
      Step s { s with loaded := some (k, v) }
  /-- put what was loaded into the cache -/
  | fill (s : Cached K V) (k : K) (v : V) (held : s.loaded = some (k, v)) :
      Step s { s with cache := s.cache.insert k v, loaded := none }
  /-- read the store and fill the cache at once -/
  | install (s : Cached K V) (k : K) (v : V) (current : s.store k = some v) :
      Step s { s with cache := s.cache.insert k v }
  /-- forget an entry -/
  | evict (s : Cached K V) (k : K) : Step s { s with cache := s.cache.erase k }
  /-- change the store at some keys -/
  | commit (s : Cached K V) (store : K → Option V) (stale : Set K) (more : s.stale ⊆ stale)
      (frame : ∀ k, k ∉ stale → store k = s.store k) :
      Step s { s with store := store, stale := stale }
  /-- put a key right -/
  | update (s : Cached K V) (k : K) (v : V) (stale : Set K) (alone : s.loaded = none)
      (current : s.store k = some v) (rest : ∀ x ∈ s.stale, x ≠ k → x ∈ stale) :
      Step s { s with cache := s.cache.insert k v, stale := stale }
  /-- drop a key -/
  | drop (s : Cached K V) (k : K) (stale : Set K) (alone : s.loaded = none)
      (rest : ∀ x ∈ s.stale, x ≠ k → x ∈ stale) :
      Step s { s with cache := s.cache.erase k, stale := stale }

/-- An entry after an insertion is the new one or an old one of another key. -/
theorem Fresh.insert_current {s : Cached K V} (h : Fresh s) {k : K} {v : V}
    (hv : k ∈ s.stale ∨ s.store k = some v) :
    ∀ p ∈ (s.cache.insert k v).entries, p.1 ∈ s.stale ∨ s.store p.1 = some p.2 := by
  intro p hp
  rcases LRUCache.mem_insert hp with rfl | ⟨hp, -⟩
  · exact hv
  · exact h.cached p hp

/-- **Freshness survives every step.** -/
theorem Step.fresh {s s' : Cached K V} (hstep : Step s s') (h : Fresh s) : Fresh s' := by
  cases hstep with
  | touch k => exact ⟨fun p hp => h.cached p (LRUCache.mem_get_snd hp), h.loaded⟩
  | load k v current =>
    refine ⟨h.cached, fun p hp => ?_⟩
    obtain rfl : (k, v) = p := Option.some.inj hp
    exact .inr current
  | fill k v held =>
    refine ⟨h.insert_current (h.loaded (k, v) held), fun p hp => ?_⟩
    cases hp
  | install k v current => exact ⟨h.insert_current (.inr current), h.loaded⟩
  | evict k => exact ⟨fun p hp => h.cached p (LRUCache.mem_erase hp).1, h.loaded⟩
  | commit store stale more frame =>
    -- a key that is not stale has not changed
    have hkeep : ∀ p : K × V, p.1 ∈ s.stale ∨ s.store p.1 = some p.2 →
        p.1 ∈ stale ∨ store p.1 = some p.2 := by
      intro p hp
      by_cases hstale : p.1 ∈ stale
      · exact .inl hstale
      · right
        rw [frame p.1 hstale]
        exact hp.resolve_left fun hold => hstale (more hold)
    exact ⟨fun p hp => hkeep p (h.cached p hp), fun p hp => hkeep p (h.loaded p hp)⟩
  | update k v stale alone current rest =>
    refine ⟨fun p hp => ?_, fun p hp => ?_⟩
    · rcases LRUCache.mem_insert hp with rfl | ⟨hp, hne⟩
      · exact .inr current
      · exact (h.cached p hp).imp_left fun hold => rest p.1 hold hne
    · rw [show s.loaded = some p from hp] at alone
      cases alone
  | drop k stale alone rest =>
    refine ⟨fun p hp => ?_, fun p hp => ?_⟩
    · obtain ⟨hp, hne⟩ := LRUCache.mem_erase hp
      exact (h.cached p hp).imp_left fun hold => rest p.1 hold hne
    · rw [show s.loaded = some p from hp] at alone
      cases alone

/-- Any number of steps. -/
abbrev Steps : Cached K V → Cached K V → Prop := Relation.ReflTransGen Step

/-- **Freshness survives every run.** -/
theorem Steps.fresh {s s' : Cached K V} (hsteps : Steps s s') (h : Fresh s) : Fresh s' := by
  induction hsteps with
  | refl => exact h
  | tail _ last ih => exact last.fresh ih

omit [DecidableEq K] in
/-- **With nothing stale, the cache agrees with the store.** -/
theorem Fresh.coherent {s : Cached K V} (h : Fresh s) (hstale : s.stale = ∅) :
    ∀ p ∈ s.cache.entries, s.store p.1 = some p.2 := by
  intro p hp
  refine (h.cached p hp).resolve_left ?_
  rw [hstale]
  exact Set.notMem_empty p.1

end OpenSY.CoherentCache
