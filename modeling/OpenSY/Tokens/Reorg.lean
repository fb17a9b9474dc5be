import OpenSY.Tokens.Invariants

/-!
# Reorganisations

* `disconnect_restores` — disconnecting what was connected since some database brings every record
  of that database back, except the best-block pointer;
* `bestBlock_on_tip` — the best-block pointer follows the tip as long as only blocks with a list of
  token transactions are disconnected, and no longer.
-/

namespace OpenSY.Tokens

open OpenSY.Chain OpenSY.Src20 OpenSY.KeyValueStore

/-- Disconnect the blocks of a list, tip first, as long as the calls succeed. -/
def disconnectBlocks (nHeight : Uint256 → ℕ) : List BlockEntry → TokenDB → Option TokenDB
  | [], db => some db
  | e :: l, db =>
    let call := disconnectBlock db e.block (nHeight e.block.hash)
    if call.2 then disconnectBlocks nHeight l call.1 else none

section Run

variable {nHeight : Uint256 → ℕ} {root : Uint256} {chain : List BlockEntry} {db : TokenDB}

/-- Disconnecting all blocks of a run succeeds and is a run itself. -/
theorem Run.disconnectBlocks {start : TokenDB} {r : Records} {rs : List Records}
    (hstart : Tracks nHeight root chain start r rs) {l : List BlockEntry} {db : TokenDB}
    (h : Run nHeight AnyBlock (tipHash root chain) start l db) :
    ∃ db', disconnectBlocks nHeight l db = some db' ∧
      Run nHeight AnyBlock (tipHash root chain) start [] db' := by
  induction l generalizing db with
  | nil => exact ⟨db, rfl, h⟩
  | cons e l ih =>
    obtain ⟨r', rs', htr, -⟩ := h.tracks hstart
    cases rs' with
    | nil => exact absurd htr.depth (by simp)
    | cons r₁ rs₁ =>
      have hpop := htr.disconnect false
      rw [withWriteFails_self htr.writable] at hpop
      rcases hpop with ⟨-, hfails, -⟩ | ⟨htrue, hflag, -⟩
      · simp at hfails
      · have hnext : Run nHeight AnyBlock (tipHash root chain) start l
            (disconnectBlock db e.block (nHeight e.block.hash)).1 := by
          rw [← withWriteFails_self hflag]
          refine Run.disconnect h trivial false ?_
          rw [withWriteFails_self htr.writable, ← htrue]
        obtain ⟨db', hdb', hrun⟩ := ih hnext
        exact ⟨db', by simp only [Tokens.disconnectBlocks, htrue, if_true, hdb'], hrun⟩

/-- A run that is back at its first block has the records it started with. -/
theorem Run.records_of_nil {start : TokenDB} {r : Records} {rs : List Records}
    (hstart : Tracks nHeight root chain start r rs) {db : TokenDB}
    (h : Run nHeight AnyBlock (tipHash root chain) start [] db) :
    AgreeOn (· ≠ .bestBlock) db.records start.records := by
  obtain ⟨r', rs', htr, hsuffix⟩ := h.tracks hstart
  have hsame : r :: rs = r' :: rs' := by
    refine hsuffix.eq_of_length ?_
    rw [List.length_cons, List.length_cons, htr.depth, hstart.depth, List.nil_append]
  obtain ⟨rfl, -⟩ := List.cons.inj hsame
  exact htr.records.trans hstart.records.symm

/-- **Reorg round trip.**  From every reachable database: connecting any next block and
disconnecting it again restores every record but the best-block pointer.  The same holds for any run
on top of the database, with failed calls and reorganisations of its own: disconnecting the blocks
it has left, last one first, restores the records of before. -/
theorem disconnect_restores (h : Reach nHeight root chain db) :
    (∀ (e : BlockEntry) (reserved : List Bytes) (db' : TokenDB) (n : ℕ),
      Extends nHeight (tipHash root chain) e.block →
      processBlock reserved db e.block (nHeight e.block.hash) e.blockundo = (db', .ok n) →
      (disconnectBlock db' e.block (nHeight e.block.hash)).2 = true ∧
      ∀ k, k ≠ .bestBlock →
        (disconnectBlock db' e.block (nHeight e.block.hash)).1.records.read k =
          db.records.read k) ∧
    (∀ (l : List BlockEntry) (db' : TokenDB), Run nHeight AnyBlock (tipHash root chain) db l db' →
      ∃ db'', disconnectBlocks nHeight l db' = some db'' ∧
        ∀ k, k ≠ .bestBlock → db''.records.read k = db.records.read k) := by
  obtain ⟨r, rs, htr⟩ := h.tracks
  have hruns : ∀ (l : List BlockEntry) (db' : TokenDB),
      Run nHeight AnyBlock (tipHash root chain) db l db' →
      ∃ db'', disconnectBlocks nHeight l db' = some db'' ∧
        ∀ k, k ≠ .bestBlock → db''.records.read k = db.records.read k := by
    intro l db' hrun
    obtain ⟨db'', hdb'', hback⟩ := hrun.disconnectBlocks htr
    exact ⟨db'', hdb'', hback.records_of_nil htr⟩
  refine ⟨fun e reserved db' n hext hcall => ?_, hruns⟩
  -- one block is a run of one step
  have hrun : Run nHeight AnyBlock (tipHash root chain) db [e] db' := by
    obtain ⟨m, r', hok, htr'⟩ := htr.connect hext reserved
    have hwritable : db'.mDb.writeFails = false := by
      rw [hcall] at htr'
      exact htr'.writable
    rw [← withWriteFails_self hwritable]
    refine Run.connect .start hext reserved false (n := n) ?_
    rwa [withWriteFails_self htr.writable]
  obtain ⟨db'', hdb'', hback⟩ := hruns [e] db' hrun
  simp only [disconnectBlocks] at hdb''
  split_ifs at hdb'' with htrue
  obtain rfl := Option.some.inj hdb''
  exact ⟨htrue, hback⟩

theorem disconnect_restores_sample :
    Sample.moved.getBalance Sample.bob 7 = 3 ∧
    ∃ db'', disconnectBlocks Sample.sampleHeight [Sample.moveEntry, Sample.issueEntry]
      Sample.moved =
        some db'' ∧
      ∀ k, k ≠ .bestBlock → db''.records.read k = TokenDB.empty.records.read k :=
  ⟨by decide +kernel, (disconnect_restores .start).2 _ _ Sample.reach_moved⟩

end Run

/-! ### The best-block pointer -/

theorem processBlock_bestBlock {reserved : List Bytes} {db db' : TokenDB} {block : CBlock}
    {height n : ℕ} {blockundo : CBlockUndo}
    (h : processBlock reserved db block height blockundo = (db', .ok n)) :
    db'.getBestBlock = block.hash := by
  unfold processBlock at h
  split_ifs at h with hbest
  · obtain ⟨rfl, -⟩ := Prod.mk.inj h
    exact hbest
  · simp only at h
    split at h
    · simp at h
    · rename_i mDb hcommit
      obtain ⟨rfl, -⟩ := Prod.mk.inj h
      have hrecords := Database.records_of_commit hcommit
      simp only [TokenDB.getBestBlock, TokenDB.records, flushInfos_mDb]
      simp [TokenDB.addCounts, hrecords]

theorem disconnectBlock_bestBlock {db db' : TokenDB} {block : CBlock} {height : ℕ}
    (h : disconnectBlock db block height = (db', true)) :
    db'.getBestBlock = block.hashPrevBlock ↔
      db.getBestBlock = block.hashPrevBlock ∨
        (db.records.read (.blockTokens height)).isSome := by
  unfold disconnectBlock at h
  split_ifs at h with hbest
  · obtain ⟨rfl, -⟩ := Prod.mk.inj h
    simp [hbest]
  · split at h
    · rename_i hnone
      obtain ⟨rfl, -⟩ := Prod.mk.inj h
      simp [hnone]
    · rename_i txids hsome
      simp only at h
      split at h
      · simp at h
      · rename_i mDb hcommit
        obtain ⟨rfl, -⟩ := Prod.mk.inj h
        have hrecords := Database.records_of_commit hcommit
        simp only [TokenDB.getBestBlock, TokenDB.records, subCounts_mDb, invalidateAll_mDb,
          hsome, hrecords]
        simp

/-- The block has a list of token transactions: operations of it were accepted. -/
def HasTokenList (nHeight : Uint256 → ℕ) (db : TokenDB) (e : BlockEntry) : Prop :=
  (db.records.read (.blockTokens (nHeight e.block.hash))).isSome

/-- **When the best-block pointer is on the tip.**  In every run in which only blocks with a list of
token transactions are disconnected, the pointer is on the tip in every state, once a call has
succeeded: before that, no block is connected and there is no pointer yet.  The condition is exact:
from such a state, disconnecting the tip block leaves the pointer on the new tip only if the block
has its list. -/
theorem bestBlock_on_tip {nHeight : Uint256 → ℕ} {root : Uint256} {chain : List BlockEntry}
    {db : TokenDB} (h : Run nHeight (HasTokenList nHeight) root TokenDB.empty chain db) :
    (db.getBestBlock = tipHash root chain ∨
      chain = [] ∧ db.records.read .bestBlock = none) ∧
    (∀ (e : BlockEntry) (rest : List BlockEntry) (fails : Bool) (db' : TokenDB),
      chain = e :: rest →
      disconnectBlock (db.withWriteFails fails) e.block (nHeight e.block.hash) = (db', true) →
      (db'.getBestBlock = tipHash root rest ↔ HasTokenList nHeight db e)) := by
  refine ⟨?_, ?_⟩
  · induction h with
    | start => exact Or.inr ⟨rfl, read_empty _⟩
    | connect _ _ _ _ hcall _ =>
      left
      rw [withWriteFails_getBestBlock, processBlock_bestBlock hcall]
      rfl
    | connectFailed hrun _ _ hcall ih =>
      obtain ⟨r, rs, htr⟩ := hrun.tracks_of_empty
      have hrecords := (htr.connectFailed hcall).1.records
      rwa [withWriteFails_getBestBlock, withWriteFails_records, TokenDB.getBestBlock, hrecords]
    | disconnect hrun hok _ hcall _ =>
      obtain ⟨r, rs, htr⟩ := hrun.tracks_of_empty
      left
      rw [withWriteFails_getBestBlock, (disconnectBlock_bestBlock hcall).mpr (Or.inr hok),
        htr.valid.1.prev]
    | disconnectFailed hrun _ hcall ih =>
      obtain ⟨r, rs, htr⟩ := hrun.tracks_of_empty
      have hrecords := (htr.disconnectFailed hcall).1.records
      rwa [withWriteFails_getBestBlock, withWriteFails_records, TokenDB.getBestBlock, hrecords]
    | lookup hrun t ih =>
      obtain ⟨r, rs, htr⟩ := hrun.tracks_of_empty
      have hrecords := (readTokenInfo_snd htr.cache t).1.records
      rwa [TokenDB.getTokenInfo, TokenDB.getBestBlock, hrecords]
  · rintro e rest fails db' rfl hcall
    obtain ⟨r, rs, htr⟩ := h.tracks_of_empty
    have hiff := disconnectBlock_bestBlock hcall
    have hne : (db.withWriteFails fails).getBestBlock ≠ e.block.hashPrevBlock := htr.best_ne_prev
    rw [or_iff_right hne, htr.valid.1.prev] at hiff
    exact hiff

theorem bestBlock_on_tip_sample :
    HasTokenList Sample.sampleHeight Sample.moved Sample.moveEntry ∧
    ((disconnectBlock Sample.moved Sample.moveEntry.block 2).1.getBestBlock = 101 ∨
      [Sample.issueEntry] = [] ∧
        (disconnectBlock Sample.moved Sample.moveEntry.block 2).1.records.read .bestBlock = none) :=
  have hlist : HasTokenList Sample.sampleHeight Sample.moved Sample.moveEntry := by
    unfold HasTokenList
    decide +kernel
  ⟨hlist, (bestBlock_on_tip ((Sample.run_moved (HasTokenList Sample.sampleHeight)).disconnectTip
    hlist)).1⟩

/-- A block without token operations is connected and disconnected again: the call succeeds, and the
pointer stays on the block that is gone. -/
theorem bestBlock_left_behind :
    Reach Sample.sampleHeight 100 [Sample.emptyEntry] Sample.idle ∧
    disconnectBlock Sample.idle Sample.emptyEntry.block 1 = (Sample.idle, true) ∧
    Sample.idle.getBestBlock = Sample.emptyEntry.block.hash ∧
    Sample.idle.getBestBlock ≠ Sample.emptyEntry.block.hashPrevBlock := by
  refine ⟨Sample.reach_idle, ?_, by decide +kernel, by decide +kernel⟩
  have hbest : Sample.idle.getBestBlock ≠ Sample.emptyEntry.block.hashPrevBlock := by
    decide +kernel
  have hnone : Sample.idle.records.read (.blockTokens 1) = none := by decide +kernel
  rw [disconnectBlock, if_neg hbest, hnone]

end OpenSY.Tokens
