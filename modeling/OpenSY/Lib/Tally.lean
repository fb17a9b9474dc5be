import Mathlib.Data.List.AList
import Mathlib.Algebra.BigOperators.Group.List.Basic
import Mathlib.Tactic.Ring

/-!
# Tallies

A tally keeps a signed amount per key, where a key without an entry counts as zero.  `bump` adds to
one key and keeps the entry even at zero; `discharge` subtracts and removes the entry once it is
zero.  A tally can be taken off another one key by key, in either way (`revert`, `settle`).

Only `value` can be seen from outside, and the two ways of subtracting agree on it: `value_revert`
and `value_settle` do not depend on the order of the entries.

In a machine the amounts are words.  The checked forms (`bumpChecked`, `revertChecked`,
`settleChecked`) stop at the first result that does not fit; keys occur once in a tally, so each
result of a whole subtraction is a difference of the two values at its key.
-/

namespace OpenSY.Tallies

variable {K : Type} [DecidableEq K]

/-- A finite map from keys to signed amounts. -/
abbrev Tally (K : Type) : Type := AList fun _ : K => ℤ

/-- The amount at a key, zero without an entry. -/
def value (m : Tally K) (k : K) : ℤ := (m.lookup k).getD 0

/-- `m[k] += d` -/
def bump (m : Tally K) (k : K) (d : ℤ) : Tally K := m.insert k (value m k + d)

/-- `m[k] -= d`, and the entry goes once it is zero. -/
def discharge (m : Tally K) (k : K) (d : ℤ) : Tally K :=
  if value m k - d = 0 then m.erase k else m.insert k (value m k - d)

/-- Take every entry of `d` off, keeping entries that become zero. -/
def revert (m d : Tally K) : Tally K := d.entries.foldl (fun m e => bump m e.1 (-e.2)) m

/-- Take every entry of `d` off, dropping entries that become zero. -/
def settle (m d : Tally K) : Tally K := d.entries.foldl (fun m e => discharge m e.1 e.2) m

@[simp] theorem value_empty (k : K) : value (∅ : Tally K) k = 0 := rfl

theorem value_insert (m : Tally K) (k k' : K) (v : ℤ) :
    value (m.insert k v) k' = if k' = k then v else value m k' := by
  by_cases h : k' = k
  · subst h
    rw [if_pos rfl, value, AList.lookup_insert, Option.getD_some]
  · rw [if_neg h, value, AList.lookup_insert_ne h, value]

theorem value_erase (m : Tally K) (k k' : K) :
    value (m.erase k) k' = if k' = k then 0 else value m k' := by
  by_cases h : k' = k
  · subst h
    rw [if_pos rfl, value, AList.lookup_erase, Option.getD_none]
  · rw [if_neg h, value, AList.lookup_erase_ne h, value]

theorem value_bump (m : Tally K) (k k' : K) (d : ℤ) :
    value (bump m k d) k' = value m k' + if k' = k then d else 0 := by
  rw [bump, value_insert]
  by_cases h : k' = k
  · rw [if_pos h, if_pos h, h]
  · rw [if_neg h, if_neg h, add_zero]

theorem value_discharge (m : Tally K) (k k' : K) (d : ℤ) :
    value (discharge m k d) k' = value m k' - if k' = k then d else 0 := by
  rw [discharge]
  by_cases h : k' = k
  · subst h
    rw [if_pos rfl]
    split_ifs with hzero
    · rw [value_erase, if_pos rfl, hzero]
    · rw [value_insert, if_pos rfl]
  · rw [if_neg h, sub_zero]
    split_ifs
    · rw [value_erase, if_neg h]
    · rw [value_insert, if_neg h]

/-! ### Taking a whole tally off -/

/-- The amount at a key, added up over entries. -/
def entrySum (l : List (Sigma fun _ : K => ℤ)) (k : K) : ℤ :=
  (l.map fun e => if k = e.1 then e.2 else 0).sum

/-- Keys occur once, so the sum over the entries is the one entry of the key. -/
theorem entrySum_entries (d : Tally K) (k : K) : entrySum d.entries k = value d k := by
  obtain ⟨l, hl⟩ := d
  show entrySum l k = (l.dlookup k).getD 0
  induction l with
  | nil => rfl
  | cons e l ih =>
    obtain ⟨hfresh, hrest⟩ := List.nodupKeys_cons.mp hl
    have hsum : entrySum (e :: l) k = (if k = e.1 then e.2 else 0) + entrySum l k := rfl
    rw [hsum, ih hrest]
    by_cases h : k = e.1
    · -- no later entry carries the key of the head
      subst h
      have hnone : l.dlookup e.1 = none := List.dlookup_eq_none.mpr hfresh
      rw [if_pos rfl, hnone, List.dlookup_cons_eq]
      simp
    · rw [if_neg h, zero_add, List.dlookup_cons_ne _ _ h]

/-- Any way of subtracting one entry, repeated over a list of entries. -/
theorem value_foldl {f : Tally K → (Sigma fun _ : K => ℤ) → Tally K}
    (hf : ∀ m e k, value (f m e) k = value m k - if k = e.1 then e.2 else 0)
    (l : List (Sigma fun _ : K => ℤ)) (m : Tally K) (k : K) :
    value (l.foldl f m) k = value m k - entrySum l k := by
  induction l generalizing m with
  | nil => exact (sub_zero _).symm
  | cons e l ih =>
    have hsum : entrySum (e :: l) k = (if k = e.1 then e.2 else 0) + entrySum l k := rfl
    rw [List.foldl_cons, ih, hf, hsum]
    ring

@[simp] theorem value_revert (m d : Tally K) (k : K) :
    value (revert m d) k = value m k - value d k := by
  rw [revert, value_foldl, entrySum_entries]
  intro m e k'
  rw [value_bump]
  split_ifs <;> ring

@[simp] theorem value_settle (m d : Tally K) (k : K) :
    value (settle m d) k = value m k - value d k := by
  rw [settle, value_foldl, entrySum_entries]
  intro m e k'
  exact value_discharge m e.1 k' e.2

/-! ### Amounts of limited range -/

section Checked

variable (fits : ℤ → Bool)

/-- `m[k] += d`, if the result fits. -/
def bumpChecked (m : Tally K) (k : K) (d : ℤ) : Option (Tally K) :=
  if fits (value m k + d) then some (bump m k d) else none

/-- Take every entry of `d` off, as long as the results fit. -/
def revertChecked (m d : Tally K) : Option (Tally K) :=
  d.entries.foldlM
    (fun m e => if fits (value m e.1 - e.2) then some (bump m e.1 (-e.2)) else none) m

/-- Take every entry of `d` off and drop what becomes zero, as long as the results fit. -/
def settleChecked (m d : Tally K) : Option (Tally K) :=
  d.entries.foldlM
    (fun m e => if fits (value m e.1 - e.2) then some (discharge m e.1 e.2) else none) m

variable {fits}

/-- Each key is subtracted from once, so what has to fit is known before the first subtraction. -/
theorem foldlM_checked {f : Tally K → (Sigma fun _ : K => ℤ) → Tally K}
    (hf : ∀ m e k, value (f m e) k = value m k - if k = e.1 then e.2 else 0)
    {l : List (Sigma fun _ : K => ℤ)} (hl : l.NodupKeys) (m : Tally K)
    (hfits : ∀ e ∈ l, fits (value m e.1 - e.2) = true) :
    l.foldlM (fun m e => if fits (value m e.1 - e.2) then some (f m e) else none) m =
      some (l.foldl f m) := by
  induction l generalizing m with
  | nil => rfl
  | cons e l ih =>
    obtain ⟨hfresh, hrest⟩ := List.nodupKeys_cons.mp hl
    rw [List.foldlM_cons, if_pos (hfits e List.mem_cons_self)]
    refine ih hrest (f m e) fun e' he' => ?_
    have hkey : e'.1 ≠ e.1 := fun heq => hfresh (heq ▸ List.mem_map_of_mem he')
    rw [hf, if_neg hkey, sub_zero]
    exact hfits e' (List.mem_cons_of_mem e he')

/-- Conversely, a key whose difference does not fit stops the subtraction. -/
theorem fits_of_foldlM_checked {f : Tally K → (Sigma fun _ : K => ℤ) → Tally K}
    (hf : ∀ m e k, value (f m e) k = value m k - if k = e.1 then e.2 else 0)
    {l : List (Sigma fun _ : K => ℤ)} (hl : l.NodupKeys) {m m' : Tally K}
    (h : l.foldlM (fun m e => if fits (value m e.1 - e.2) then some (f m e) else none) m =
      some m') :
    ∀ e ∈ l, fits (value m e.1 - e.2) = true := by
  induction l generalizing m with
  | nil => simp
  | cons e l ih =>
    obtain ⟨hfresh, hrest⟩ := List.nodupKeys_cons.mp hl
    rw [List.foldlM_cons] at h
    obtain ⟨next, hhead, htail⟩ := Option.bind_eq_some_iff.mp h
    rw [Option.ite_none_right_eq_some] at hhead
    obtain ⟨hfit, hnext⟩ := hhead
    obtain rfl := Option.some.inj hnext
    intro e' he'
    rcases List.mem_cons.mp he' with rfl | he'
    · exact hfit
    · have hkey : e'.1 ≠ e.1 := fun heq => hfresh (heq ▸ List.mem_map_of_mem he')
      have hlater := ih hrest htail e' he'
      rw [hf, if_neg hkey, sub_zero] at hlater
      exact hlater

theorem mem_entries_value {d : Tally K} {e : Sigma fun _ : K => ℤ} (he : e ∈ d.entries) :
    value d e.1 = e.2 := by
  rw [value, AList.mem_lookup_iff.mpr he, Option.getD_some]

theorem revertChecked_eq {m d : Tally K} (hfits : ∀ k, fits (value m k - value d k) = true) :
    revertChecked fits m d = some (revert m d) := by
  refine foldlM_checked (fun m e k => ?_) d.nodupKeys m fun e he => ?_
  · rw [value_bump]
    split_ifs <;> ring
  · rw [← mem_entries_value he]
    exact hfits e.1

/-- **A checked removal succeeds exactly if every difference fits**, keys without an entry apart. -/
theorem settleChecked_eq_iff {m d : Tally K} (hfit : ∀ k, fits (value m k) = true) :
    settleChecked fits m d = some (settle m d) ↔ ∀ k, fits (value m k - value d k) = true := by
  constructor
  · intro h k
    cases hk : d.lookup k with
    | none =>
      rw [value, value, hk, Option.getD_none, sub_zero]
      exact hfit k
    | some v =>
      have he : (⟨k, v⟩ : Sigma fun _ : K => ℤ) ∈ d.entries := AList.mem_lookup_iff.mp hk
      have hentry :=
        fits_of_foldlM_checked (fun m e k => value_discharge m e.1 k e.2) d.nodupKeys h _ he
      rw [← mem_entries_value he] at hentry
      exact hentry
  · intro hfits
    refine foldlM_checked (fun m e k => value_discharge m e.1 k e.2) d.nodupKeys m fun e he => ?_
    rw [← mem_entries_value he]
    exact hfits e.1

end Checked

/-! ### Maps filled and cleared over a list of keys -/

section Keys

variable {V : Type}

/-- Any way of setting one key to the same entry, repeated over a list of keys. -/
theorem lookup_foldl_keys {f : (AList fun _ : K => V) → K → AList fun _ : K => V} {entry : Option V}
    (hself : ∀ m k, (f m k).lookup k = entry)
    (hother : ∀ m a k, k ≠ a → (f m a).lookup k = m.lookup k) (l : List K)
    (m : AList fun _ : K => V) (k : K) :
    (l.foldl f m).lookup k = if k ∈ l then entry else m.lookup k := by
  induction l generalizing m with
  | nil => rfl
  | cons a l ih =>
    rw [List.foldl_cons, ih]
    by_cases hl : k ∈ l
    · rw [if_pos hl, if_pos (List.mem_cons_of_mem a hl)]
    · rw [if_neg hl]
      by_cases hka : k = a
      · subst hka
        rw [if_pos List.mem_cons_self, hself]
      · rw [if_neg (by simp [hka, hl]), hother m a k hka]

theorem lookup_insert_keys (l : List K) (v : V) (m : AList fun _ : K => V) (k : K) :
    (l.foldl (fun m k => m.insert k v) m).lookup k = if k ∈ l then some v else m.lookup k :=
  lookup_foldl_keys (fun m _ => AList.lookup_insert m) (fun _ _ _ hka =>
    AList.lookup_insert_ne hka) l m k

theorem lookup_erase_keys (l : List K) (m : AList fun _ : K => V) (k : K) :
    (l.foldl (fun m k => m.erase k) m).lookup k = if k ∈ l then none else m.lookup k :=
  lookup_foldl_keys (fun m k => AList.lookup_erase k m) (fun _ _ _ hka =>
    AList.lookup_erase_ne hka) l m k

end Keys

end OpenSY.Tallies
