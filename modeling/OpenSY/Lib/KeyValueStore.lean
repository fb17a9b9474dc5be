import Mathlib.Data.Finmap
import Mathlib.Data.Set.Finite.Basic

/-!
# Typed key-value stores, write batches and agreement of stores

A database in the LevelDB style: finitely many keys, each carrying a value whose type is fixed by
the key, read one key at a time and changed by **write batches**, lists of writes and erasures that
are applied in order, so that the last operation on a key decides its value.

* `Store.writeBatch_append` — applying two batches one after the other is applying their
  concatenation, so a batch that is still pending can be read as the store it will produce;
* `read_writeBatch_of_forall_ne` — the frame rule: a batch leaves every key it does not name alone;
* `AgreeOn P` — two stores agree on the keys of `P`.  The same batch applied to both keeps the
  agreement, and a batch outside `P` is invisible to it;
* `Database.commit` — the same batch on a handle that may refuse the write as a whole.
-/

namespace OpenSY.KeyValueStore

variable {K : Type} [DecidableEq K] {V : K → Type}

/-- A store: a finite map in which key `k` holds a value of type `V k`. -/
abbrev Store (V : K → Type) : Type := Finmap V

/-- One entry of a write batch. -/
inductive BatchOp (V : K → Type) : Type where
  | write (k : K) (v : V k)
  | erase (k : K)

/-- A write batch, in the order in which its entries were added. -/
abbrev Batch (V : K → Type) : Type := List (BatchOp V)

/-- The key a batch entry acts on. -/
def BatchOp.key : BatchOp V → K
  | .write k _ => k
  | .erase k => k

/-- Look a key up. -/
def Store.read (s : Store V) (k : K) : Option (V k) := Finmap.lookup k s

/-- Whether a key is stored. -/
def Store.contains (s : Store V) (k : K) : Bool := (s.read k).isSome

/-- Apply one batch entry. -/
def Store.applyOp (s : Store V) : BatchOp V → Store V
  | .write k v => Finmap.insert k v s
  | .erase k => Finmap.erase k s

/-- Apply a batch, first entry first. -/
def Store.writeBatch (s : Store V) (b : Batch V) : Store V := b.foldl Store.applyOp s

/-! ### Reading after one entry -/

@[simp] theorem read_empty (k : K) : Store.read (∅ : Store V) k = none := Finmap.lookup_empty k

@[simp] theorem read_write_self (s : Store V) (k : K) (v : V k) :
    (s.applyOp (.write k v)).read k = some v := Finmap.lookup_insert s

@[simp] theorem read_write_of_ne (s : Store V) {k k' : K} (v : V k) (h : k' ≠ k) :
    (s.applyOp (.write k v)).read k' = s.read k' := Finmap.lookup_insert_of_ne s h

@[simp] theorem read_erase_self (s : Store V) (k : K) :
    (s.applyOp (.erase k)).read k = none := Finmap.lookup_erase k s

@[simp] theorem read_erase_of_ne (s : Store V) {k k' : K} (h : k' ≠ k) :
    (s.applyOp (.erase k)).read k' = s.read k' := Finmap.lookup_erase_ne h

theorem read_applyOp_of_ne (s : Store V) (op : BatchOp V) {k : K} (h : op.key ≠ k) :
    (s.applyOp op).read k = s.read k := by
  cases op with
  | write k' v => exact read_write_of_ne s v (Ne.symm h)
  | erase k' => exact read_erase_of_ne s (Ne.symm h)

/-- Stores are determined by what they answer. -/
theorem store_ext {s s' : Store V} (h : ∀ k, s.read k = s'.read k) : s = s' :=
  Finmap.ext_lookup h

theorem finite_stored (s : Store V) : {k | (s.read k).isSome}.Finite := by
  refine (Finmap.keys s).finite_toSet.subset ?_
  intro k hk
  obtain ⟨v, hv⟩ := Option.isSome_iff_exists.mp hk
  exact Finmap.mem_keys.mpr (Finmap.mem_of_lookup_eq_some hv)

/-- Writing what is stored already changes nothing. -/
theorem applyOp_write_of_read {s : Store V} {k : K} {v : V k} (h : s.read k = some v) :
    s.applyOp (.write k v) = s := by
  refine store_ext ?_
  intro k'
  by_cases hk : k' = k
  · subst hk
    rw [read_write_self, h]
  · exact read_write_of_ne s v hk

/-! ### Batches -/

@[simp] theorem writeBatch_nil (s : Store V) : s.writeBatch [] = s := rfl

@[simp] theorem writeBatch_cons (s : Store V) (op : BatchOp V) (b : Batch V) :
    s.writeBatch (op :: b) = (s.applyOp op).writeBatch b := rfl

@[simp] theorem writeBatch_append (s : Store V) (b b' : Batch V) :
    s.writeBatch (b ++ b') = (s.writeBatch b).writeBatch b' := by
  simp only [Store.writeBatch, List.foldl_append]

/-- **Frame rule.**  A batch that does not name `k` leaves the record at `k` alone. -/
theorem read_writeBatch_of_forall_ne (s : Store V) (b : Batch V) (k : K)
    (h : ∀ op ∈ b, op.key ≠ k) : (s.writeBatch b).read k = s.read k := by
  induction b generalizing s with
  | nil => rfl
  | cons op b ih =>
    rw [writeBatch_cons, ih (s.applyOp op) (fun o ho => h o (List.mem_cons_of_mem _ ho))]
    exact read_applyOp_of_ne s op (h op List.mem_cons_self)

/-! ### Agreement -/

/-- The two stores hold the same records at the keys of `P`. -/
def AgreeOn (P : K → Prop) (s s' : Store V) : Prop := ∀ k, P k → s.read k = s'.read k

theorem AgreeOn.refl (P : K → Prop) (s : Store V) : AgreeOn P s s := fun _ _ => rfl

theorem AgreeOn.symm {P : K → Prop} {s s' : Store V} (h : AgreeOn P s s') : AgreeOn P s' s :=
  fun k hk => (h k hk).symm

theorem AgreeOn.trans {P : K → Prop} {s s' s'' : Store V} (h : AgreeOn P s s')
    (h' : AgreeOn P s' s'') : AgreeOn P s s'' :=
  fun k hk => (h k hk).trans (h' k hk)

theorem AgreeOn.mono {P Q : K → Prop} {s s' : Store V} (h : AgreeOn P s s')
    (hQ : ∀ k, Q k → P k) : AgreeOn Q s s' :=
  fun k hk => h k (hQ k hk)

theorem AgreeOn.applyOp {P : K → Prop} {s s' : Store V} (h : AgreeOn P s s') (op : BatchOp V) :
    AgreeOn P (s.applyOp op) (s'.applyOp op) := by
  intro k hk
  by_cases hop : op.key = k
  · subst hop
    cases op with
    | write k v => simp [BatchOp.key]
    | erase k => simp [BatchOp.key]
  · rw [read_applyOp_of_ne s op hop, read_applyOp_of_ne s' op hop]
    exact h k hk

/-- **Agreement survives a common batch.** -/
theorem AgreeOn.writeBatch {P : K → Prop} {s s' : Store V} (h : AgreeOn P s s') (b : Batch V) :
    AgreeOn P (s.writeBatch b) (s'.writeBatch b) := by
  induction b generalizing s s' with
  | nil => exact h
  | cons op b ih => exact ih (h.applyOp op)

/-- A batch outside `P` cannot be seen on `P`. -/
theorem agreeOn_writeBatch_self {P : K → Prop} (s : Store V) (b : Batch V)
    (h : ∀ op ∈ b, ¬ P op.key) : AgreeOn P (s.writeBatch b) s := by
  intro k hk
  refine read_writeBatch_of_forall_ne s b k (fun op hop hkey => h op hop ?_)
  rw [hkey]
  exact hk

/-! ### Handles whose writes can fail -/

/-- The exception a refused write raises. -/
inductive DbwrapperError where
  | writeFailed
  deriving DecidableEq

/-- An open database: its records, and whether the storage refuses the next write. -/
structure Database (V : K → Type) where
  records : Store V
  writeFails : Bool

/-- Write a batch atomically: all of it, or an exception and none of it. -/
def Database.commit (d : Database V) (b : Batch V) : Except DbwrapperError (Database V) :=
  if d.writeFails then .error .writeFailed
  else .ok { d with records := d.records.writeBatch b }

theorem Database.commit_ok {d : Database V} (h : d.writeFails = false) (b : Batch V) :
    d.commit b = .ok ⟨d.records.writeBatch b, false⟩ := by
  simp [Database.commit, h]

/-- A commit that went through has written the batch. -/
theorem Database.records_of_commit {d d' : Database V} {b : Batch V} (h : d.commit b = .ok d') :
    d'.records = d.records.writeBatch b := by
  unfold Database.commit at h
  split_ifs at h
  obtain rfl := Except.ok.inj h
  rfl

theorem Database.commit_error {d : Database V} (h : d.writeFails = true) (b : Batch V) :
    d.commit b = .error .writeFailed := by
  simp [Database.commit, h]

end OpenSY.KeyValueStore
