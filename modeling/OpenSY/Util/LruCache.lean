import Mathlib.Data.Finmap
import OpenSY.Lib.RecencyHistory

/-!
# The cache of recently used entries

`LRUCache` of `util/lru_cache.h`: a linked list of entries, the most recently used first, and an
index from keys to iterators into the list.  Iterators are the identities of the list's nodes;
moving a node within the list leaves them valid, erasing it does not.  What would read through an
iterator that is not in the list gives `none`, as does a failed assertion, and the loop of `resize`
runs on fuel.

* `Coupled`: the index holds exactly the nodes of the list.
* `insertValue_refines`, `get_refines`, …, `resize_refines`: each operation does what it does on the
  list of entries alone, which is how the token database uses its cache.
* `call_refines`: every call returns, with the answer of the list of entries.
* `lru_cache_refines`: along every run.
-/

namespace OpenSY.Util

open OpenSY.RecencyCache OpenSY.RecencyCache.LRUCache

variable {K V : Type} [DecidableEq K]

/-! ### The class -/

/-- A node of `m_list` and the iterator that points to it. -/
structure Node (K V : Type) where
  iter : ℕ
  entry : K × V

structure LRUCache (K V : Type) where
  mList : List (Node K V)
  mMap : Finmap fun _ : K => ℕ
  mMaxSize : ℕ
  /-- the iterator of the node that is made next -/
  nextIter : ℕ

namespace LRUCache

/-- The constructor. -/
def new (maxSize : ℕ) : Option (LRUCache K V) :=
  if 0 < maxSize then some ⟨[], ∅, maxSize, 0⟩ else none

def size (c : LRUCache K V) : ℕ := c.mMap.keys.card

/-- The node an iterator points to. -/
def deref (c : LRUCache K V) (it : ℕ) : Option (Node K V) :=
  c.mList.find? fun node => node.iter = it

/-- `it->second->second = value` -/
def assign (c : LRUCache K V) (it : ℕ) (value : V) : Option (LRUCache K V) :=
  (c.deref it).map fun _ =>
    { c with
      mList := c.mList.map fun node => if node.iter = it then ⟨it, node.entry.1, value⟩ else node }

/-- `m_list.splice(m_list.begin(), m_list, it)` -/
def splice (c : LRUCache K V) (it : ℕ) : Option (LRUCache K V) :=
  (c.deref it).map fun node => { c with mList := node :: c.mList.filter fun node => node.iter ≠ it }

def contains (c : LRUCache K V) (key : K) : Bool := (c.mMap.lookup key).isSome

def get (c : LRUCache K V) (key : K) : Option (Option V × LRUCache K V) :=
  match c.mMap.lookup key with
  | none => some (none, c)
  | some it => (c.splice it).bind fun c => (c.deref it).map fun node => (some node.entry.2, c)

/-- The pointer that is returned is that of the node. -/
def getPtr (c : LRUCache K V) (key : K) : Option (Option ℕ × LRUCache K V) :=
  match c.mMap.lookup key with
  | none => some (none, c)
  | some it => (c.splice it).bind fun c => (c.deref it).map fun node => (some node.iter, c)

def peek (c : LRUCache K V) (key : K) : Option (Option V) :=
  match c.mMap.lookup key with
  | none => some none
  | some it => (c.deref it).map fun node => some node.entry.2

def evictLru (c : LRUCache K V) : LRUCache K V :=
  match c.mList.getLast? with
  | none => c
  | some node => { c with mMap := c.mMap.erase node.entry.1, mList := c.mList.dropLast }

/-- `m_list.emplace_front(key, value)` -/
def emplaceFront (c : LRUCache K V) (key : K) (value : V) : LRUCache K V :=
  { c with mList := ⟨c.nextIter, key, value⟩ :: c.mList, nextIter := c.nextIter + 1 }

/-- The body that the two forms of `insert` share. -/
def insertValue (c : LRUCache K V) (key : K) (value : V) : Option (Bool × LRUCache K V) :=
  match c.mMap.lookup key with
  | some it => (c.assign it value).bind fun c => (c.splice it).map fun c => (true, c)
  | none =>
    let c := if c.mMaxSize ≤ c.size then c.evictLru else c
    let c := c.emplaceFront key value
    c.mList.head?.map fun begin => (false, { c with mMap := c.mMap.insert key begin.iter })

/-- `insert` with the value copied. -/
def insert : LRUCache K V → K → V → Option (Bool × LRUCache K V) := insertValue

/-- `insert` with the value moved. -/
def insertMove : LRUCache K V → K → V → Option (Bool × LRUCache K V) := insertValue

def erase (c : LRUCache K V) (key : K) : Option (Bool × LRUCache K V) :=
  match c.mMap.lookup key with
  | none => some (false, c)
  | some it => (c.deref it).map fun _ =>
    (true, { c with mList := c.mList.filter fun node => node.iter ≠ it, mMap := c.mMap.erase key })

def clear (c : LRUCache K V) : LRUCache K V := { c with mList := [], mMap := ∅ }

/-- `while (m_map.size() > m_max_size) evict_lru();` -/
def resizeLoop : ℕ → LRUCache K V → Option (LRUCache K V)
  | 0, _ => none
  | fuel + 1, c => if c.mMaxSize < c.size then resizeLoop fuel c.evictLru else some c

def resize (fuel : ℕ) (c : LRUCache K V) (newMaxSize : ℕ) : Option (LRUCache K V) :=
  if 0 < newMaxSize then resizeLoop fuel { c with mMaxSize := newMaxSize } else none

/-! ### The list and its index -/

/-- The entries, most recently used first. -/
def entries (c : LRUCache K V) : List (K × V) := c.mList.map Node.entry

def keys (c : LRUCache K V) : List K := c.entries.map Prod.fst

/-- The iterators of the nodes with their keys. -/
def tags (c : LRUCache K V) : List (ℕ × K) := c.mList.map fun node => (node.iter, node.entry.1)

/-- **The index and the list agree**: nodes differ, and the index leads from a key exactly to the
node with that key. -/
structure Coupled (c : LRUCache K V) : Prop where
  nodup : (c.tags.map Prod.fst).Nodup
  fresh : ∀ tag ∈ c.tags, tag.1 < c.nextIter
  index : ∀ k it, c.mMap.lookup k = some it ↔ (it, k) ∈ c.tags

/-- The cache stands for a list of entries with a capacity. -/
structure Refines (c : LRUCache K V) (a : RecencyCache.LRUCache K V) : Prop where
  coupled : c.Coupled
  entries : c.entries = a.entries
  maxSize : c.mMaxSize = a.maxSize

namespace Coupled

variable {c c' : LRUCache K V}

theorem of_empty (hlist : c.mList = []) (hmap : c.mMap = ∅) : c.Coupled := by
  have htags : c.tags = [] := by rw [tags, hlist, List.map_nil]
  refine ⟨by rw [htags]; exact List.nodup_nil,
    fun tag htag => absurd (htags ▸ htag) List.not_mem_nil, fun k it => ?_⟩
  rw [hmap, htags, Finmap.lookup_empty]
  exact iff_of_false (Option.some_ne_none _).symm List.not_mem_nil

/-- Neither the order of the nodes nor their values matter. -/
theorem of_perm (h : c.Coupled) (htags : c'.tags.Perm c.tags) (hmap : c'.mMap = c.mMap)
    (hnext : c'.nextIter = c.nextIter) : c'.Coupled where
  nodup := (htags.map Prod.fst).nodup_iff.mpr h.nodup
  fresh tag htag := hnext ▸ h.fresh tag (htags.mem_iff.mp htag)
  index k it := by rw [hmap, h.index, htags.mem_iff]

/-- Taking out a node and its key. -/
theorem remove {it : ℕ} {k : K} (h : c.Coupled) (htags : c.tags.Perm ((it, k) :: c'.tags))
    (hmap : c'.mMap = c.mMap.erase k) (hnext : c'.nextIter = c.nextIter) : c'.Coupled := by
  have hnodup := (htags.map Prod.fst).nodup_iff.mp h.nodup
  have hmem : ∀ tag ∈ c'.tags, tag ∈ c.tags :=
    fun tag htag => htags.mem_iff.mpr (List.mem_cons_of_mem _ htag)
  refine ⟨(List.nodup_cons.mp hnodup).2, fun tag htag => hnext ▸ h.fresh tag (hmem tag htag),
    fun k' it' => ?_⟩
  rw [hmap]
  by_cases hk : k' = k
  · rw [hk, Finmap.lookup_erase]
    refine iff_of_false (Option.some_ne_none _).symm fun htag => ?_
    have hsame : some it' = some it := by
      rw [← (h.index k it').mpr (hmem _ htag),
        ← (h.index k it).mpr (htags.mem_iff.mpr List.mem_cons_self)]
    exact (List.nodup_cons.mp hnodup).1 (Option.some.inj hsame ▸ List.mem_map_of_mem htag)
  · rw [Finmap.lookup_erase_ne hk, h.index, htags.mem_iff, List.mem_cons]
    refine or_iff_right fun heq => hk (Prod.mk.inj heq).2

/-- Adding a node for a new key. -/
theorem add {it : ℕ} {k : K} (h : c.Coupled) (hnew : c.mMap.lookup k = none) (hit : it = c.nextIter)
    (htags : c'.tags = (it, k) :: c.tags) (hmap : c'.mMap = c.mMap.insert k it)
    (hnext : c'.nextIter = c.nextIter + 1) : c'.Coupled := by
  refine ⟨?_, ?_, fun k' it' => ?_⟩
  · rw [htags, List.map_cons, List.nodup_cons]
    refine ⟨fun hmem => ?_, h.nodup⟩
    obtain ⟨tag, htag, heq⟩ := List.mem_map.mp hmem
    exact absurd (h.fresh tag htag) (by rw [heq, hit]; exact lt_irrefl _)
  · intro tag htag
    rw [htags] at htag
    rcases List.mem_cons.mp htag with rfl | htag
    · rw [hit, hnext]
      exact Nat.lt_succ_self _
    · rw [hnext]
      exact Nat.lt_succ_of_lt (h.fresh tag htag)
  · rw [hmap, htags, List.mem_cons]
    by_cases hk : k' = k
    · rw [hk, Finmap.lookup_insert, Option.some_inj]
      have hnot : (it', k) ∉ c.tags := fun hmem => by
        have := (h.index k it').mpr hmem
        rw [hnew] at this
        cases this
      rw [or_iff_left hnot]
      exact ⟨fun heq => by rw [heq], fun heq => (Prod.mk.inj heq).1.symm⟩
    · rw [Finmap.lookup_insert_of_ne _ hk, h.index]
      exact (or_iff_right fun heq => hk (Prod.mk.inj heq).2).symm

/-- The keys differ too, since the index has one iterator for each. -/
theorem keys_nodup (h : c.Coupled) : c.keys.Nodup := by
  have hkeys : c.keys = c.tags.map Prod.snd := by
    rw [LRUCache.keys, LRUCache.entries, tags, List.map_map, List.map_map]
    rfl
  rw [hkeys]
  refine List.pairwise_map.mpr ((List.pairwise_map.mp h.nodup).imp_of_mem fun {x y} hx hy hne heq =>
    hne ?_)
  have hfirst : c.mMap.lookup x.2 = some x.1 := (h.index x.2 x.1).mpr hx
  have hsecond : c.mMap.lookup y.2 = some y.1 := (h.index y.2 y.1).mpr hy
  rw [heq] at hfirst
  exact Option.some.inj (hfirst.symm.trans hsecond)

/-- **The index and the list hold the same keys.** -/
theorem keys_eq (h : c.Coupled) : c.mMap.keys = c.keys.toFinset := by
  ext k
  rw [LRUCache.keys, Finmap.mem_keys, ← Finmap.lookup_isSome, Option.isSome_iff_exists,
    List.mem_toFinset, List.mem_map]
  constructor
  · rintro ⟨it, hit⟩
    obtain ⟨node, hnode, htag⟩ := List.mem_map.mp ((h.index k it).mp hit)
    exact ⟨node.entry, List.mem_map_of_mem hnode, (Prod.mk.inj htag).2⟩
  · rintro ⟨p, hp, rfl⟩
    obtain ⟨node, hnode, rfl⟩ := List.mem_map.mp hp
    exact ⟨node.iter, (h.index _ _).mpr (List.mem_map_of_mem hnode)⟩

theorem size_eq (h : c.Coupled) : c.size = c.entries.length := by
  rw [size, h.keys_eq, List.toFinset_card_of_nodup h.keys_nodup, LRUCache.keys, List.length_map]

theorem iter_nodup (h : c.Coupled) : (c.mList.map Node.iter).Nodup := by
  have hnodup := h.nodup
  rwa [tags, List.map_map] at hnodup

/-- An iterator in the list can be read through. -/
theorem deref_eq (h : c.Coupled) {node : Node K V} (hnode : node ∈ c.mList) :
    c.deref node.iter = some node := by
  cases hfind : c.deref node.iter with
  | none => exact absurd (List.find?_eq_none.mp hfind node hnode) (by simp)
  | some found =>
    have hmem := List.mem_of_find?_eq_some hfind
    have hiter : found.iter = node.iter := by simpa using List.find?_some hfind
    rw [List.inj_on_of_nodup_map h.iter_nodup hmem hnode hiter]

/-- A node in front of the others is the list in another order. -/
theorem cons_filter_perm (h : c.Coupled) {node : Node K V} (hnode : node ∈ c.mList) :
    (node :: c.mList.filter fun other => other.iter ≠ node.iter).Perm c.mList := by
  have hlist : c.mList.Nodup := List.Nodup.of_map _ h.iter_nodup
  have hcons : (node :: c.mList.filter fun other => other.iter ≠ node.iter).Nodup := by
    refine List.nodup_cons.mpr ⟨fun hmem => ?_, hlist.filter _⟩
    exact of_decide_eq_true (List.mem_filter.mp hmem).2 rfl
  refine (List.perm_ext_iff_of_nodup hcons hlist).mpr fun other => ?_
  rw [List.mem_cons, List.mem_filter, decide_eq_true_eq]
  constructor
  · rintro (rfl | hother)
    · exact hnode
    · exact hother.1
  · intro hother
    by_cases hiter : other.iter = node.iter
    · exact Or.inl (List.inj_on_of_nodup_map h.iter_nodup hother hnode hiter)
    · exact Or.inr ⟨hother, hiter⟩

/-- Without a node the entries are those of the other keys. -/
theorem entries_filter (h : c.Coupled) {node : Node K V} (hnode : node ∈ c.mList) :
    (c.mList.filter fun other => other.iter ≠ node.iter).map Node.entry =
      without node.entry.1 c.entries := by
  rw [without, LRUCache.entries, List.filter_map]
  refine congrArg (List.map Node.entry) (List.filter_congr fun other hother =>
    decide_eq_decide.mpr (not_congr ?_))
  have hindex : ∀ n ∈ c.mList, c.mMap.lookup n.entry.1 = some n.iter := fun n hn =>
    (h.index _ _).mpr (List.mem_map_of_mem hn)
  constructor
  · intro hiter
    rw [List.inj_on_of_nodup_map h.iter_nodup hother hnode hiter]
  · intro hkey
    have hsame := hindex other hother
    rw [show other.entry.1 = node.entry.1 from hkey, hindex node hnode] at hsame
    exact (Option.some.inj hsame).symm

end Coupled

/-! ### The operations -/

section Operations

variable {c : LRUCache K V} {a : RecencyCache.LRUCache K V}

/-- What the index says of a key is what a lookup in the list of entries says. -/
theorem Refines.lookup (h : Refines c a) (k : K) :
    (c.mMap.lookup k = none ∧ a.peek k = none) ∨
      ∃ node ∈ c.mList, node.entry.1 = k ∧ c.mMap.lookup k = some node.iter ∧
        a.peek k = some node.entry.2 := by
  cases hlookup : c.mMap.lookup k with
  | none =>
    refine Or.inl ⟨rfl, peek_eq_none_iff.mpr fun hk => ?_⟩
    have hkeys : k ∈ c.mMap.keys := by
      rw [h.coupled.keys_eq, LRUCache.keys, h.entries]
      exact List.mem_toFinset.mpr hk
    rw [Finmap.mem_keys, ← Finmap.lookup_isSome, hlookup] at hkeys
    cases hkeys
  | some it =>
    obtain ⟨node, hnode, htag⟩ := List.mem_map.mp ((h.coupled.index k it).mp hlookup)
    obtain ⟨rfl, rfl⟩ := Prod.mk.inj htag
    refine Or.inr ⟨node, hnode, rfl, rfl, peek_eq_some_iff.mpr ?_⟩
    rw [← h.entries]
    exact List.mem_map_of_mem hnode

theorem Refines.contains_eq (h : Refines c a) (k : K) : c.contains k = (a.peek k).isSome := by
  rw [LRUCache.contains]
  obtain ⟨hlookup, hpeek⟩ | ⟨node, -, -, hlookup, hpeek⟩ := h.lookup k
  · rw [hlookup, hpeek]
    rfl
  · rw [hlookup, hpeek]
    rfl

theorem peek_refines (h : Refines c a) (k : K) : c.peek k = some (a.peek k) := by
  rw [LRUCache.peek]
  obtain ⟨hlookup, hpeek⟩ | ⟨node, hnode, -, hlookup, hpeek⟩ := h.lookup k
  · rw [hlookup, hpeek]
  · simp only [hlookup, hpeek, h.coupled.deref_eq hnode, Option.map_some]

/-- A node is put in front with any value for its key. -/
theorem Refines.front (h : Refines c a) {node : Node K V} (hnode : node ∈ c.mList) (v : V)
    {a' : RecencyCache.LRUCache K V}
    (hentries : a'.entries = (node.entry.1, v) :: without node.entry.1 a.entries)
    (hsize : a'.maxSize = a.maxSize) :
    Refines { c with
      mList := ⟨node.iter, node.entry.1, v⟩ :: c.mList.filter fun other =>
        other.iter ≠ node.iter } a' where
  coupled := by
    have hperm :=
      (h.coupled.cons_filter_perm hnode).map fun node : Node K V => (node.iter, node.entry.1)
    exact h.coupled.of_perm hperm rfl rfl
  entries := by
    rw [hentries, ← h.entries, ← h.coupled.entries_filter hnode]
    rfl
  maxSize := h.maxSize.trans hsize.symm

theorem splice_refines (h : Refines c a) {node : Node K V} (hnode : node ∈ c.mList)
    (hpeek : a.peek node.entry.1 = some node.entry.2) :
    ∃ c', c.splice node.iter = some c' ∧ c'.deref node.iter = some node ∧
      Refines c' (a.get node.entry.1).2 := by
  have hget : (a.get node.entry.1).2.entries = (node.entry.1, node.entry.2) ::
      without node.entry.1 a.entries ∧ (a.get node.entry.1).2.maxSize = a.maxSize := by
    rw [RecencyCache.LRUCache.get, hpeek]
    exact ⟨rfl, rfl⟩
  have hfront := h.front hnode node.entry.2 hget.1 hget.2
  refine ⟨_, ?_, hfront.coupled.deref_eq List.mem_cons_self, hfront⟩
  rw [splice, h.coupled.deref_eq hnode]
  rfl

theorem get_refines (h : Refines c a) (k : K) :
    ∃ c', c.get k = some (a.peek k, c') ∧ Refines c' (a.get k).2 := by
  rw [LRUCache.get]
  obtain ⟨hlookup, hpeek⟩ | ⟨node, hnode, rfl, hlookup, hpeek⟩ := h.lookup k
  · refine ⟨c, by rw [hlookup, hpeek], ?_⟩
    rwa [RecencyCache.LRUCache.get, hpeek]
  · obtain ⟨c', hsplice, hderef, href⟩ := splice_refines h hnode hpeek
    exact ⟨c',
      by simp only [hlookup, hsplice, Option.bind_some, hderef, Option.map_some, hpeek], href⟩

theorem getPtr_refines (h : Refines c a) (k : K) :
    ∃ ptr c', c.getPtr k = some (ptr, c') ∧
      (ptr.bind fun it => (c'.deref it).map fun node => node.entry.2) = a.peek k ∧
        Refines c' (a.get k).2 := by
  rw [getPtr]
  obtain ⟨hlookup, hpeek⟩ | ⟨node, hnode, rfl, hlookup, hpeek⟩ := h.lookup k
  · refine ⟨none, c, by rw [hlookup], by rw [hpeek]; rfl, ?_⟩
    rwa [RecencyCache.LRUCache.get, hpeek]
  · obtain ⟨c', hsplice, hderef, href⟩ := splice_refines h hnode hpeek
    refine ⟨some node.iter, c', ?_, ?_, href⟩
    · simp only [hlookup, hsplice, Option.bind_some, hderef, Option.map_some]
    · rw [Option.bind_some, hderef, hpeek]
      rfl

/-- Assigning a value and moving the node to the front. -/
theorem assign_splice (h : c.Coupled) {node : Node K V} (hnode : node ∈ c.mList) (v : V) :
    ((c.assign node.iter v).bind fun c => c.splice node.iter) = some { c with
      mList := ⟨node.iter, node.entry.1, v⟩ :: c.mList.filter fun other =>
        other.iter ≠ node.iter } := by
  set f : Node K V → Node K V :=
    fun other => if other.iter = node.iter then ⟨node.iter, other.entry.1, v⟩ else other with hf
  have hiter : ∀ other, (f other).iter = other.iter := by
    intro other
    rw [hf]
    show (if other.iter = node.iter then (⟨node.iter, other.entry.1, v⟩ : Node K V)
        else other).iter = other.iter
    split_ifs with heq
    · exact heq.symm
    · rfl
  have hnodeValue : f node = ⟨node.iter, node.entry.1, v⟩ := if_pos rfl
  have hassign : c.assign node.iter v = some { c with mList := c.mList.map f } := by
    rw [assign, h.deref_eq hnode]
    rfl
  have hderef : deref { c with mList := c.mList.map f } node.iter = some (f node) := by
    rw [deref, List.find?_map]
    simp only [Function.comp_def, hiter]
    exact congrArg (Option.map f) (h.deref_eq hnode)
  have hrest : (c.mList.map f).filter (fun other => other.iter ≠ node.iter) =
      c.mList.filter fun other => other.iter ≠ node.iter := by
    rw [List.filter_map]
    simp only [Function.comp_def, hiter]
    refine (List.map_congr_left fun other hother => ?_).trans (List.map_id _)
    exact if_neg (of_decide_eq_true (List.mem_filter.mp hother).2)
  rw [hassign, Option.bind_some, splice, hderef, Option.map_some, hrest, hnodeValue]

theorem evictLru_refines (h : Refines c a) : Refines c.evictLru a.evictLru := by
  have hlist : a.entries.dropLast = c.mList.dropLast.map Node.entry := by
    rw [← h.entries, LRUCache.entries, List.map_dropLast]
  rw [LRUCache.evictLru]
  cases hlast : c.mList.getLast? with
  | none =>
    refine ⟨h.coupled, ?_, h.maxSize⟩
    show c.entries = a.entries.dropLast
    rw [hlist, List.getLast?_eq_none_iff.mp hlast, LRUCache.entries,
      List.getLast?_eq_none_iff.mp hlast]
    rfl
  | some node =>
    have hsplit : c.mList.dropLast ++ [node] = c.mList := List.dropLast_append_getLast? node hlast
    have hperm : c.mList.Perm (node :: c.mList.dropLast) := by
      conv_lhs => rw [← hsplit]
      exact List.perm_append_singleton node c.mList.dropLast
    have htags := hperm.map fun node : Node K V => (node.iter, node.entry.1)
    rw [List.map_cons] at htags
    exact ⟨h.coupled.remove htags rfl rfl, hlist.symm, h.maxSize⟩

/-- Room for a new entry. -/
theorem room_refines (h : Refines c a) :
    Refines (if c.mMaxSize ≤ c.size then c.evictLru else c)
      (if a.entries.length ≥ a.maxSize then a.evictLru else a) := by
  rw [h.coupled.size_eq, h.entries, h.maxSize]
  by_cases hfull : a.maxSize ≤ a.entries.length
  · rw [if_pos hfull, if_pos hfull]
    exact evictLru_refines h
  · rw [if_neg hfull, if_neg hfull]
    exact h

/-- A new entry in front, with its key in the index. -/
theorem emplace_refines (h : Refines c a) {k : K} (hnew : k ∉ a.keys) (v : V)
    {a' : RecencyCache.LRUCache K V} (hentries : a'.entries = (k, v) :: a.entries)
    (hsize : a'.maxSize = a.maxSize) :
    Refines { c.emplaceFront k v with mMap := c.mMap.insert k c.nextIter } a' := by
  have hfree : c.mMap.lookup k = none := by
    obtain ⟨hnone, -⟩ | ⟨node, -, -, -, hsome⟩ := h.lookup k
    · exact hnone
    · exact absurd (hsome.symm.trans (peek_eq_none_iff.mpr hnew)) (Option.some_ne_none _)
  refine ⟨h.coupled.add hfree rfl rfl rfl rfl, ?_, h.maxSize.trans hsize.symm⟩
  rw [hentries, ← h.entries]
  rfl

/-- Both forms of `insert`. -/
theorem insertValue_refines (h : Refines c a) (k : K) (v : V) :
    ∃ c', c.insertValue k v = some ((a.peek k).isSome, c') ∧ Refines c' (a.insert k v) := by
  rw [insertValue]
  obtain ⟨hlookup, hpeek⟩ | ⟨node, hnode, rfl, hlookup, hpeek⟩ := h.lookup k
  · -- a new key: make room first
    set aroom := if a.entries.length ≥ a.maxSize then a.evictLru else a with haroom
    have hkey : k ∉ a.keys := peek_eq_none_iff.mp hpeek
    have hnotin : ¬ a.contains k = true := fun hin => hkey (contains_iff_mem_keys.mp hin)
    have hnew : k ∉ aroom.keys := by
      rw [haroom]
      split_ifs
      · exact fun hmem =>
          hkey (List.Sublist.subset (List.Sublist.map _ (List.dropLast_sublist _)) hmem)
      · exact hkey
    have hentries : (a.insert k v).entries = (k, v) :: aroom.entries := by
      show (k, v) :: without k _ = _
      rw [if_neg hnotin, ← haroom, without_of_notMem hnew]
    have hsize : (a.insert k v).maxSize = aroom.maxSize := by
      rw [haroom]
      split_ifs <;> rfl
    refine ⟨_, ?_, emplace_refines (room_refines h) hnew v hentries hsize⟩
    simp only [hlookup, hpeek]
    rfl
  · have hin : a.contains node.entry.1 = true := by
      rw [contains_eq_isSome, hpeek]
      rfl
    refine ⟨_, ?_, h.front hnode v ?_ rfl⟩
    · have hmoved := congrArg (Option.map fun c => (true, c)) (assign_splice h.coupled hnode v)
      rw [Option.map_bind] at hmoved
      simp only [hlookup, hpeek]
      exact hmoved
    · show (node.entry.1, v) :: without node.entry.1 _ = _
      rw [if_pos hin]

theorem erase_refines (h : Refines c a) (k : K) :
    ∃ c', c.erase k = some ((a.peek k).isSome, c') ∧ Refines c' (a.erase k) := by
  rw [LRUCache.erase]
  obtain ⟨hlookup, hpeek⟩ | ⟨node, hnode, rfl, hlookup, hpeek⟩ := h.lookup k
  · refine ⟨c, by rw [hlookup, hpeek]; rfl, h.coupled, ?_, h.maxSize⟩
    rw [h.entries]
    exact (without_of_notMem (peek_eq_none_iff.mp hpeek)).symm
  · have hperm :=
      (h.coupled.cons_filter_perm hnode).symm.map fun node : Node K V => (node.iter, node.entry.1)
    refine ⟨{ c with
      mList := c.mList.filter fun other => other.iter ≠ node.iter,
      mMap := c.mMap.erase node.entry.1 }, ?_, h.coupled.remove hperm rfl rfl, ?_, h.maxSize⟩
    · simp only [hlookup, h.coupled.deref_eq hnode, Option.map_some, hpeek, Option.isSome_some]
    · show (c.mList.filter fun other => other.iter ≠ node.iter).map Node.entry =
          without node.entry.1 a.entries
      rw [h.coupled.entries_filter hnode, h.entries]

theorem clear_refines (h : Refines c a) : Refines c.clear a.clear where
  coupled := Coupled.of_empty rfl rfl
  entries := rfl
  maxSize := h.maxSize

/-- **The loop of `resize` ends** when what is too much has been evicted. -/
theorem resizeLoop_refines (h : Refines c a) :
    ∃ c', (∀ fuel, a.entries.length < fuel → resizeLoop fuel c = some c') ∧
      Refines c' (a.resize a.maxSize) := by
  induction hlen : a.entries.length using Nat.strongRecOn generalizing c a with
  | _ n ih =>
    by_cases hbig : a.maxSize < n
    · have hevict : a.evictLru.entries.length = n - 1 := by
        rw [RecencyCache.LRUCache.evictLru, List.length_dropLast, hlen]
      obtain ⟨c', hrun, href⟩ := ih (n - 1) (by omega) (evictLru_refines h) hevict
      refine ⟨c', fun fuel hfuel => ?_, ?_⟩
      · obtain ⟨fuel, rfl⟩ : ∃ f, fuel = f + 1 := ⟨fuel - 1, by omega⟩
        rw [resizeLoop, h.coupled.size_eq, h.entries, h.maxSize, hlen, if_pos hbig]
        exact hrun fuel (by omega)
      · have hsame : a.evictLru.resize a.evictLru.maxSize = a.resize a.maxSize := by
          refine ext_entries ?_ rfl
          show a.entries.dropLast.take a.maxSize = a.entries.take a.maxSize
          rw [List.dropLast_eq_take, List.take_take, min_eq_left (by omega)]
        exact hsame ▸ href
    · refine ⟨c, fun fuel hfuel => ?_, h.coupled, ?_, h.maxSize⟩
      · obtain ⟨fuel, rfl⟩ : ∃ f, fuel = f + 1 := ⟨fuel - 1, by omega⟩
        rw [resizeLoop, h.coupled.size_eq, h.entries, h.maxSize, hlen, if_neg hbig]
      · rw [h.entries]
        exact (List.take_of_length_le (by omega)).symm

theorem resize_refines (h : Refines c a) (maxSize : ℕ+) :
    ∃ c', (∀ fuel, a.entries.length < fuel → resize fuel c maxSize = some c') ∧
      Refines c' (a.resize maxSize) := by
  have hset : Refines { c with mMaxSize := maxSize } ⟨a.entries, maxSize, a.nodupKeys⟩ :=
    ⟨h.coupled.of_perm (List.Perm.refl _) rfl rfl, h.entries, rfl⟩
  obtain ⟨c', hrun, href⟩ := resizeLoop_refines hset
  refine ⟨c', fun fuel hfuel => ?_, href⟩
  rw [LRUCache.resize, if_pos maxSize.pos]
  exact hrun fuel hfuel

end Operations

/-! ### Calls and runs -/

inductive Call (K V : Type) where
  | insert (key : K) (value : V)
  | insertMove (key : K) (value : V)
  | get (key : K)
  | getPtr (key : K)
  | peek (key : K)
  | contains (key : K)
  | erase (key : K)
  | clear
  | resize (newMaxSize : ℕ+)

inductive Answer (V : Type) where
  | done
  | flag (b : Bool)
  | value (v : Option V)

/-- One call, with fuel for the loop of `resize`.  What `get_ptr` returns is read at once. -/
def call (fuel : ℕ) (c : LRUCache K V) : Call K V → Option (Answer V × LRUCache K V)
  | .insert key value => (c.insert key value).map fun r => (.flag r.1, r.2)
  | .insertMove key value => (c.insertMove key value).map fun r => (.flag r.1, r.2)
  | .get key => (c.get key).map fun r => (.value r.1, r.2)
  | .getPtr key => (c.getPtr key).map fun r =>
    (.value (r.1.bind fun it => (r.2.deref it).map fun node => node.entry.2), r.2)
  | .peek key => (c.peek key).map fun v => (.value v, c)
  | .contains key => some (.flag (c.contains key), c)
  | .erase key => (c.erase key).map fun r => (.flag r.1, r.2)
  | .clear => some (.done, c.clear)
  | .resize newMaxSize => (resize fuel c newMaxSize).map fun c => (.done, c)

/-- What a call asks of the list of entries. -/
def Call.op : Call K V → Op K V
  | .insert key value => .insert key value
  | .insertMove key value => .insert key value
  | .get key => .use key
  | .getPtr key => .use key
  | .peek key => .look key
  | .contains key => .look key
  | .erase key => .erase key
  | .clear => .clear
  | .resize newMaxSize => .resize newMaxSize

/-- What a call answers where these values are stored. -/
def Call.answer (stored : K → Option V) : Call K V → Answer V
  | .insert key _ => .flag (stored key).isSome
  | .insertMove key _ => .flag (stored key).isSome
  | .get key => .value (stored key)
  | .getPtr key => .value (stored key)
  | .peek key => .value (stored key)
  | .contains key => .flag (stored key).isSome
  | .erase key => .flag (stored key).isSome
  | .clear => .done
  | .resize _ => .done

section Runs

variable {c : LRUCache K V} {a : RecencyCache.LRUCache K V}

/-- **Every call returns**, with the answer of the list of entries, and stands for it afterwards. -/
theorem call_refines (h : Refines c a) (call : Call K V) :
    ∃ c', (∀ fuel, a.entries.length < fuel → c.call fuel call = some (call.answer a.peek, c')) ∧
      Refines c' (a.apply call.op) := by
  cases call with
  | insert key value =>
    obtain ⟨c', hcall, href⟩ := insertValue_refines h key value
    exact ⟨c', fun _ _ => by rw [LRUCache.call, LRUCache.insert, hcall]; rfl, href⟩
  | insertMove key value =>
    obtain ⟨c', hcall, href⟩ := insertValue_refines h key value
    exact ⟨c', fun _ _ => by rw [LRUCache.call, insertMove, hcall]; rfl, href⟩
  | get key =>
    obtain ⟨c', hcall, href⟩ := get_refines h key
    exact ⟨c', fun _ _ => by rw [LRUCache.call, hcall]; rfl, href⟩
  | getPtr key =>
    obtain ⟨ptr, c', hcall, hread, href⟩ := getPtr_refines h key
    exact ⟨c', fun _ _ => by rw [LRUCache.call, hcall, Option.map_some, hread]; rfl, href⟩
  | peek key => exact ⟨c, fun _ _ => by rw [LRUCache.call, peek_refines h]; rfl, h⟩
  | contains key => exact ⟨c, fun _ _ => by rw [LRUCache.call, h.contains_eq]; rfl, h⟩
  | erase key =>
    obtain ⟨c', hcall, href⟩ := erase_refines h key
    exact ⟨c', fun _ _ => by rw [LRUCache.call, hcall]; rfl, href⟩
  | clear => exact ⟨c.clear, fun _ _ => rfl, clear_refines h⟩
  | resize newMaxSize =>
    obtain ⟨c', hcall, href⟩ := resize_refines h newMaxSize
    exact ⟨c', fun fuel hfuel => by rw [LRUCache.call, hcall fuel hfuel]; rfl, href⟩

/-- More fuel does not change a result. -/
theorem resizeLoop_of_le {fuel fuel' : ℕ} {c c' : LRUCache K V} (h : resizeLoop fuel c = some c')
    (hle : fuel ≤ fuel') : resizeLoop fuel' c = some c' := by
  induction fuel generalizing fuel' c with
  | zero => cases h
  | succ fuel ih =>
    obtain ⟨fuel', rfl⟩ : ∃ f, fuel' = f + 1 := ⟨fuel' - 1, by omega⟩
    rw [resizeLoop] at h ⊢
    split_ifs at h ⊢
    · exact ih h (by omega)
    · exact h

theorem call_of_le {fuel fuel' : ℕ} {call : Call K V} {result : Answer V × LRUCache K V}
    (h : c.call fuel call = some result) (hle : fuel ≤ fuel') :
    c.call fuel' call = some result := by
  cases call with
  | resize newMaxSize =>
    obtain ⟨c', hresize, rfl⟩ := Option.map_eq_some_iff.mp h
    rw [LRUCache.resize, if_pos newMaxSize.pos] at hresize
    rw [LRUCache.call, LRUCache.resize, if_pos newMaxSize.pos, resizeLoop_of_le hresize hle]
    rfl
  | _ => exact h

/-- The calls that were made, the latest first, and the cache they left. -/
inductive Run (maxSize : ℕ+) : List (Call K V) → LRUCache K V → Prop
  | new {c : LRUCache K V} (h : LRUCache.new maxSize = some c) : Run maxSize [] c
  | call {past : List (Call K V)} {c c' : LRUCache K V} {call : Call K V} {answer : Answer V}
      {fuel : ℕ} (before : Run maxSize past c) (returned : c.call fuel call = some (answer, c')) :
      Run maxSize (call :: past) c'

theorem Run.refines {maxSize : ℕ+} {past : List (Call K V)} {c : LRUCache K V}
    (h : Run maxSize past c) :
    Refines c (replay maxSize (past.map Call.op)) := by
  induction h with
  | new h =>
    rw [LRUCache.new, if_pos maxSize.pos] at h
    obtain rfl := Option.some.inj h
    exact ⟨Coupled.of_empty rfl rfl, rfl, rfl⟩
  | @call past c c' call answer fuel before returned ih =>
    obtain ⟨c₁, hrun, href⟩ := call_refines ih call
    -- with enough fuel both results are the same
    set enough := max fuel ((replay maxSize (past.map Call.op)).entries.length + 1)
    have hfirst := call_of_le returned (le_max_left fuel _ : fuel ≤ enough)
    have hsecond := hrun enough (Nat.lt_of_succ_le (le_max_right _ _))
    obtain ⟨-, rfl⟩ := Prod.mk.inj (Option.some.inj (hfirst.symm.trans hsecond))
    exact href

theorem exists_run (maxSize : ℕ+) (past : List (Call K V)) :
    ∃ c : LRUCache K V, Run maxSize past c := by
  induction past with
  | nil => exact ⟨_, .new (if_pos maxSize.pos)⟩
  | cons call past ih =>
    obtain ⟨c, hrun⟩ := ih
    obtain ⟨c', hcall, -⟩ := call_refines hrun.refines call
    exact ⟨c', .call hrun (hcall _ (Nat.lt_succ_self _))⟩

/-- **The cache is a bounded recency map.**  Whatever calls were made, the next one returns,
`resize` included, and its answer is that of the values inserted last and not erased or evicted
since.  The entries stand in the order of their last use, the index and the list hold the same keys,
each once, and there are never more than the capacity.  What a call evicts are the keys used longest
ago: one where a new key comes to a full cache, and what is too much where the capacity is made
smaller. -/
theorem lru_cache_refines (maxSize : ℕ+) (past : List (Call K V)) :
    (∃ c : LRUCache K V, Run maxSize past c) ∧ ∀ c : LRUCache K V, Run maxSize past c →
      let ops := past.map Call.op
      let list := replay maxSize ops
      (c.entries = list.entries ∧ c.mMaxSize = list.maxSize) ∧
      ((c.keys.Pairwise fun k k' => age ops k < age ops k') ∧ ∀ k ∈ c.keys,
        age ops k < ops.length) ∧
      (c.mMap.keys = c.keys.toFinset ∧ c.keys.Nodup) ∧
      c.size ≤ c.mMaxSize ∧
      ∀ call : Call K V, ∃ c' : LRUCache K V,
        (∃ enough, ∀ fuel, enough ≤ fuel →
          c.call fuel call = some (call.answer (lastValue maxSize ops), c')) ∧
        let gone := list.evicted call.op
        (∀ k, k ∈ gone ↔ k ∈ c.keys ∧ k ∉ c'.keys ∧ call.op.erases k = false) ∧
        (gone ≠ [] →
          (∃ k v, call.op = .insert k v ∧ k ∉ c.keys ∧ c.mMaxSize ≤ c.size ∧ gone.length = 1) ∨
            ∃ n : ℕ+, call.op = .resize n ∧ n < c.size ∧ gone.length = c.size - n) ∧
        ∀ k ∈ gone, ∀ k' ∈ c.keys, k' ∉ gone → age ops k' < age ops k := by
  refine ⟨exists_run maxSize past, fun c hrun => ?_⟩
  intro ops list
  have h : Refines c list := hrun.refines
  have hkeys : c.keys = list.keys := congrArg (List.map Prod.fst) h.entries
  have hsize : c.size = list.entries.length :=
    h.coupled.size_eq.trans (congrArg List.length h.entries)
  refine ⟨⟨h.entries, h.maxSize⟩, ?_, ⟨h.coupled.keys_eq, h.coupled.keys_nodup⟩, ?_, fun call => ?_⟩
  · rw [hkeys]
    exact replay_ordered maxSize ops
  · rw [hsize, h.maxSize]
    exact (replay_length_le maxSize ops).2
  · obtain ⟨c', hcall, href⟩ := call_refines h call
    have hkeys' : c'.keys = (list.apply call.op).keys := congrArg (List.map Prod.fst) href.entries
    have hstored : list.peek = lastValue maxSize ops := funext fun k => replay_peek maxSize ops k
    refine ⟨c', ⟨list.entries.length + 1, fun fuel hfuel => hstored ▸ hcall fuel hfuel⟩, ?_⟩
    rw [hkeys, hkeys', hsize, h.maxSize]
    exact ⟨fun k => mem_evicted_iff, evicted_cause,
      fun k hk k' hk' hstays => evicted_oldest maxSize ops hk hk' hstays⟩

end Runs

end LRUCache

end OpenSY.Util
