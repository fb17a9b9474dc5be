import OpenSY.Tokens.RoundTrip

/-!
# The databases a node can reach

A run connects blocks to the tip and disconnects tip blocks again; calls may fail in the storage
layer, and lookups may come in between.  Below every database of a run lies a stack of stores, one
for each block of the chain (`Grown`): connecting pushes the next store, disconnecting pops one, and
the committed records agree with the top of the stack except for the best-block pointer (`Tracks`).

* `Tracks.connect`, `Tracks.disconnect` — one call;
* `Run.tracks` — a whole run, from any tracked database;
* `Reach.tracks` — a run from the empty database, with which every invariant of the token index is
  proved.
-/

namespace OpenSY.Tokens

open OpenSY.Chain OpenSY.Src20 OpenSY.KeyValueStore OpenSY.RecencyCache

/-! ### Runs -/

/-- A block as the node hands it to the token index, with the coins its transactions spend. -/
structure BlockEntry where
  block : CBlock
  blockundo : CBlockUndo

/-- The hash of the tip of a chain, listed tip first, that grows on the block `base`. -/
def tipHash (base : Uint256) : List BlockEntry → Uint256
  | [] => base
  | e :: _ => e.block.hash

/-- `block` can be connected on top of `tip`.  Heights are those of the block index, a function of
the hash.  Two transactions of one txid would spend the same coins, and such a block is turned down
before the token index sees it. -/
structure Extends (nHeight : Uint256 → ℕ) (tip : Uint256) (block : CBlock) : Prop where
  prev : block.hashPrevBlock = tip
  height : nHeight block.hash = nHeight tip + 1
  txids : (block.vtx.map CTransaction.hash).Nodup

/-- Every block of the chain extends the one before. -/
def ValidChain (nHeight : Uint256 → ℕ) (base : Uint256) : List BlockEntry → Prop
  | [] => True
  | e :: chain => Extends nHeight (tipHash base chain) e.block ∧ ValidChain nHeight base chain

/-- Whether the storage layer refuses to write. -/
def TokenDB.withWriteFails (db : TokenDB) (fails : Bool) : TokenDB :=
  { db with mDb := { db.mDb with writeFails := fails } }

/-- The runs from the database `start` with tip `base`: the blocks connected since and not
disconnected again, tip first, and the database.  Any call may meet a storage layer that fails.  In
front of a disconnection the database and the block meet the condition `allowed`. -/
inductive Run (nHeight : Uint256 → ℕ) (allowed : TokenDB → BlockEntry → Prop) (base : Uint256)
    (start : TokenDB) : List BlockEntry → TokenDB → Prop
  | start : Run nHeight allowed base start [] start
  | connect {chain : List BlockEntry} {db db' : TokenDB} {e : BlockEntry} {n : ℕ}
      (h : Run nHeight allowed base start chain db)
      (hext : Extends nHeight (tipHash base chain) e.block) (reserved : List Bytes) (fails : Bool)
      (hcall : processBlock reserved (db.withWriteFails fails) e.block (nHeight e.block.hash)
        e.blockundo = (db', .ok n)) :
      Run nHeight allowed base start (e :: chain) (db'.withWriteFails false)
  | connectFailed {chain : List BlockEntry} {db db' : TokenDB} {e : BlockEntry}
      {err : DbwrapperError} (h : Run nHeight allowed base start chain db) (reserved : List Bytes)
      (fails : Bool)
      (hcall : processBlock reserved (db.withWriteFails fails) e.block (nHeight e.block.hash)
        e.blockundo = (db', .error err)) :
      Run nHeight allowed base start chain (db'.withWriteFails false)
  | disconnect {chain : List BlockEntry} {db db' : TokenDB} {e : BlockEntry}
      (h : Run nHeight allowed base start (e :: chain) db) (hok : allowed db e) (fails : Bool)
      (hcall : disconnectBlock (db.withWriteFails fails) e.block (nHeight e.block.hash) =
        (db', true)) :
      Run nHeight allowed base start chain (db'.withWriteFails false)
  | disconnectFailed {chain : List BlockEntry} {db db' : TokenDB} {e : BlockEntry}
      (h : Run nHeight allowed base start (e :: chain) db) (fails : Bool)
      (hcall : disconnectBlock (db.withWriteFails fails) e.block (nHeight e.block.hash) =
        (db', false)) :
      Run nHeight allowed base start (e :: chain) (db'.withWriteFails false)
  | lookup {chain : List BlockEntry} {db : TokenDB} (h : Run nHeight allowed base start chain db)
      (t : TokenId) :
      Run nHeight allowed base start chain (db.getTokenInfo t).2

/-- The condition every disconnection meets. -/
abbrev AnyBlock (_ : TokenDB) (_ : BlockEntry) : Prop := True

/-- The databases reached from the empty one, created when `root` was the tip. -/
abbrev Reach (nHeight : Uint256 → ℕ) (root : Uint256) : List BlockEntry → TokenDB → Prop :=
  Run nHeight AnyBlock root TokenDB.empty

theorem tipHash_append (base : Uint256) (l chain : List BlockEntry) :
    tipHash (tipHash base chain) l = tipHash base (l ++ chain) := by
  cases l <;> rfl

theorem ValidChain.height {nHeight : Uint256 → ℕ} {base : Uint256} {chain : List BlockEntry}
    (h : ValidChain nHeight base chain) :
    nHeight (tipHash base chain) = nHeight base + chain.length := by
  induction chain with
  | nil => rfl
  | cons e chain ih =>
    have hprev := ih h.2
    have hext := h.1.height
    rw [List.length_cons]
    show nHeight e.block.hash = _
    omega

/-! ### The store of a chain -/

/-- The store `r'` comes from `r` by the accepted operations of one block and its list of token
transactions. -/
def BlockStep (height : ℕ) (r r' : Records) : Prop :=
  ∃ (time : ℤ) (groups : BlockGroups) (q : Records), GroupsOK groups ∧
    Applied r (blockLog height time groups) q ∧
    r' = q.writeBatch (blockTokensWrite height (groupTxids groups))

/-- A block without token transactions. -/
theorem BlockStep.skip (height : ℕ) (r : Records) : BlockStep height r r :=
  ⟨0, [], r, ⟨List.nodup_nil, by simp, by simp⟩, .nil r, rfl⟩

theorem agreeOn_blockTokensWrite (r : Records) (height : ℕ) (txids : List Uint256) :
    AgreeOn (· ≠ .blockTokens height) (r.writeBatch (blockTokensWrite height txids)) r := by
  refine agreeOn_writeBatch_self r _ ?_
  intro o ho
  rw [key_of_mem_blockTokensWrite ho]
  exact fun hne => hne rfl

theorem ledger_blockTokensWrite (r : Records) (height : ℕ) (txids : List Uint256) :
    Records.ledger (r.writeBatch (blockTokensWrite height txids)) = r.ledger := by
  refine ledger_congr ((agreeOn_blockTokensWrite r height txids).mono fun k hk => ?_)
  rintro rfl
  exact hk

theorem BlockStep.storeSound {height : ℕ} {r r' : Records} (h : BlockStep height r r')
    (hs : StoreSound r) : StoreSound r' := by
  obtain ⟨time, groups, q, -, happ, rfl⟩ := h
  refine (happ.storeSound hs).congr ((agreeOn_blockTokensWrite q height _).symm.mono fun k hk => ?_)
  rintro rfl
  exact hk

theorem BlockStep.historyComplete {height : ℕ} {r r' : Records} (h : BlockStep height r r')
    (hs : StoreSound r) (hh : HistoryComplete r.ledger) (hfresh : HeightFresh r height) :
    HistoryComplete r'.ledger := by
  obtain ⟨time, groups, q, hg, happ, rfl⟩ := h
  rw [ledger_blockTokensWrite]
  exact happ.historyComplete hs hh (hfresh.freshAt time groups)
    (blockLog_keys_nodup height time hg.nodup)

/-- A block leaves the records of other heights alone. -/
theorem BlockStep.heightFresh {height : ℕ} {r r' : Records} (h : BlockStep height r r')
    (hs : StoreSound r) {h' : ℕ} (hne : h' ≠ height) (hfresh : HeightFresh r h') :
    HeightFresh r' h' := by
  obtain ⟨time, groups, q, hg, happ, rfl⟩ := h
  have hag := agreeOn_blockTokensWrite q height (groupTxids groups)
  have hnot : ∀ x i, (h', x, i) ∉ OpLog.keys (blockLog height time groups) :=
    fun x i hk => hne (mem_keys_blockLog hk).1
  refine ⟨?_, ?_, ?_⟩
  · intro t x i
    rw [hag _ (by simp)]
    exact (happ.history_of_notMem hs t (hnot x i)).trans (hfresh.history t x i)
  · intro x i
    rw [hag _ (by simp)]
    exact (happ.undo_of_notMem (hnot x i)).trans (hfresh.undo x i)
  · rw [hag _ (by simpa using hne)]
    exact (happ.read_of_pointer (by exact not_false) (by simp)).trans hfresh.blockTokens

/-- The store `r` on top of the stores of the earlier blocks, in a database created at height
`h₀`. -/
inductive Grown (h₀ : ℕ) : Records → List Records → Prop
  | base : Grown h₀ ∅ []
  | step {r r' : Records} {rs : List Records} (h : Grown h₀ r rs)
      (hstep : BlockStep (h₀ + rs.length + 1) r r') : Grown h₀ r' (r :: rs)

namespace Grown

variable {h₀ : ℕ} {r : Records} {rs : List Records}

theorem storeSound (h : Grown h₀ r rs) : StoreSound r := by
  induction h with
  | base => exact storeSound_empty
  | step _ hstep ih => exact hstep.storeSound ih

/-- Nothing is stored for heights above the tip. -/
theorem heightFresh (h : Grown h₀ r rs) {height : ℕ} (hh : h₀ + rs.length < height) :
    HeightFresh r height := by
  induction h with
  | base => exact ⟨fun t x i => read_empty _, fun x i => read_empty _, read_empty _⟩
  | step h hstep ih =>
    rw [List.length_cons] at hh
    exact hstep.heightFresh h.storeSound (by omega) (ih (by omega))

theorem historyComplete (h : Grown h₀ r rs) : HistoryComplete r.ledger := by
  induction h with
  | base => rw [ledger_empty]; exact historyComplete_empty
  | step h hstep ih => exact hstep.historyComplete h.storeSound ih (h.heightFresh (by omega))

end Grown

/-! ### Stores that differ in the best-block pointer only -/

theorem undoOf_congr {r r' : Records} (h : AgreeOn IsTokenKey r r') (site : OpSite) (op : TokenOp) :
    undoOf r site op = undoOf r' site op := by
  have hinfo : ∀ t, r.info t = r'.info t := fun t => h (.tokenInfo t) trivial
  cases op with
  | issue issuance issuer => rfl
  | transfer t f d n => simp only [undoOf, hinfo, balance_congr h]
  | burn t f n => simp only [undoOf, hinfo, balance_congr h]

/-- The same log can be applied to a store with the same token records. -/
theorem Applied.congr {P : Key → Prop} (hP : ∀ k, IsTokenKey k → P k) {r r' : Records} {log : OpLog}
    (h : Applied r log r') {q : Records} (hag : AgreeOn P r q) :
    ∃ q', Applied q log q' ∧ AgreeOn P r' q' := by
  induction h generalizing q with
  | nil r => exact ⟨q, .nil q, hag⟩
  | @cons r r' site op w log hop hw rest ih =>
    have htoken : AgreeOn IsTokenKey r q := hag.mono hP
    have hundo := undoOf_congr htoken site op
    obtain ⟨q', hrest, hag'⟩ := ih (hag.writeBatch (w ++ [undoWrite site (undoOf r site op)]))
    rw [hundo] at hrest ⊢
    exact ⟨q', .cons hop ((opWrites_congr htoken site op).symm.trans hw) hrest, hag'⟩

theorem isTokenKey_ne_bestBlock : ∀ k, IsTokenKey k → k ≠ .bestBlock := by
  rintro k hk rfl
  exact hk

theorem read_blockStore_bestBlock (reserved : List Bytes) (r : Records) (block : CBlock)
    (height : ℕ) (blockundo : CBlockUndo) :
    (blockStore reserved r block height blockundo).read .bestBlock = some block.hash := by
  simp [blockStore]

/-- Off the best-block pointer, what a block commits is a block step. -/
theorem blockStore_blockStep (reserved : List Bytes) {r q : Records} {block : CBlock} (height : ℕ)
    (blockundo : CBlockUndo) (hnodup : (block.vtx.map CTransaction.hash).Nodup)
    (hag : AgreeOn (· ≠ .bestBlock) r q) :
    ∃ q', BlockStep height q q' ∧
      AgreeOn (· ≠ .bestBlock) (blockStore reserved r block height blockundo) q' := by
  obtain ⟨groups, hg, happ, htxs, -⟩ := walkBlock_log reserved height block blockundo hnodup r
  obtain ⟨q₁, happ', hag'⟩ := happ.congr isTokenKey_ne_bestBlock hag
  refine ⟨_, ⟨_, groups, q₁, hg, happ', rfl⟩, ?_⟩
  simp only [blockStore, htxs, writeBatch_append]
  refine AgreeOn.trans (agreeOn_writeBatch_self _ _ fun o ho => ?_) (hag'.writeBatch _)
  rw [List.mem_singleton.mp ho]
  simp [BatchOp.key]

/-! ### The invariant of a run -/

/-- The database has `chain` connected, and off the best-block pointer it holds the store `r`, with
the stores of the earlier blocks below.  The pointer may be stale, but only upwards. -/
structure Tracks (nHeight : Uint256 → ℕ) (root : Uint256) (chain : List BlockEntry) (db : TokenDB)
    (r : Records) (rs : List Records) : Prop where
  valid : ValidChain nHeight root chain
  depth : rs.length = chain.length
  grown : Grown (nHeight root) r rs
  records : AgreeOn (· ≠ .bestBlock) db.records r
  cache : CacheCoherent db
  writable : db.mDb.writeFails = false
  best : chain ≠ [] → nHeight (tipHash root chain) ≤ nHeight db.getBestBlock

theorem withWriteFails_self {db : TokenDB} {fails : Bool} (h : db.mDb.writeFails = fails) :
    db.withWriteFails fails = db := by
  subst h
  rfl

@[simp] theorem withWriteFails_getBestBlock (db : TokenDB) (fails : Bool) :
    (db.withWriteFails fails).getBestBlock = db.getBestBlock := rfl

@[simp] theorem withWriteFails_records (db : TokenDB) (fails : Bool) :
    (db.withWriteFails fails).records = db.records := rfl

theorem withWriteFails_idem (db : TokenDB) (b c : Bool) :
    (db.withWriteFails b).withWriteFails c = db.withWriteFails c := rfl

namespace Tracks

variable {nHeight : Uint256 → ℕ} {root : Uint256} {chain : List BlockEntry} {db : TokenDB}
  {r : Records} {rs : List Records}

theorem storeSound (h : Tracks nHeight root chain db r rs) : StoreSound db.records :=
  h.grown.storeSound.congr (h.records.symm.mono isTokenKey_ne_bestBlock)

theorem ledger (h : Tracks nHeight root chain db r rs) : db.records.ledger = r.ledger :=
  ledger_congr (h.records.mono isTokenKey_ne_bestBlock)

/-- Failed calls and lookups change nothing that is tracked. -/
theorem of_sameData (h : Tracks nHeight root chain db r rs) {db' : TokenDB} {fails : Bool}
    (hdata : SameData (db.withWriteFails fails) db') (hc : CacheCoherent db') :
    Tracks nHeight root chain (db'.withWriteFails false) r rs := by
  have hrecords : (db'.withWriteFails false).records = db.records := hdata.records
  refine ⟨h.valid, h.depth, h.grown, ?_, hc, rfl, ?_⟩
  · rw [hrecords]
    exact h.records
  · rw [TokenDB.getBestBlock, hrecords]
    exact h.best

/-- **Connecting a block** succeeds and pushes its store. -/
theorem connect (h : Tracks nHeight root chain db r rs) {e : BlockEntry}
    (hext : Extends nHeight (tipHash root chain) e.block) (reserved : List Bytes) :
    ∃ (n : ℕ) (r' : Records),
      (processBlock reserved db e.block (nHeight e.block.hash) e.blockundo).2 = .ok n ∧
      Tracks nHeight root (e :: chain)
        (processBlock reserved db e.block (nHeight e.block.hash) e.blockundo).1 r' (r :: rs) := by
  have hheight : nHeight e.block.hash = nHeight root + rs.length + 1 := by
    rw [hext.height, h.valid.height, h.depth]
  have hdepth : (r :: rs).length = (e :: chain).length := by simp [h.depth]
  by_cases hbest : db.getBestBlock = e.block.hash
  · -- the database claims to have the block already: nothing happens
    have hskip : processBlock reserved db e.block (nHeight e.block.hash) e.blockundo =
        (db, .ok 0) := by
      simp only [processBlock, if_pos hbest]
    rw [hskip]
    exact ⟨0, r, rfl, ⟨hext, h.valid⟩, hdepth, h.grown.step (.skip _ r), h.records, h.cache,
      h.writable, fun _ => (congrArg nHeight hbest).ge⟩
  · obtain ⟨hresult, hmDb, hcache⟩ := processBlock_spec h.cache h.storeSound h.writable reserved
      (nHeight e.block.hash) e.blockundo hbest
    obtain ⟨r', hstep, hag⟩ := blockStore_blockStep reserved (nHeight e.block.hash) e.blockundo
      hext.txids h.records
    have hpointer := read_blockStore_bestBlock reserved db.records e.block (nHeight e.block.hash)
      e.blockundo
    rw [hheight] at hstep
    refine ⟨_, r', hresult, ⟨hext, h.valid⟩, hdepth, h.grown.step hstep, ?_, hcache, ?_, ?_⟩
    · rw [TokenDB.records, hmDb]
      exact hag
    · rw [hmDb]
    · intro _
      rw [TokenDB.getBestBlock, TokenDB.records, hmDb, hpointer]
      exact le_rfl

/-- A call that went through would have gone through the same way with a storage layer that works:
with one that fails, only the block that is there already goes through. -/
theorem connectDone (h : Tracks nHeight root chain db r rs) {e : BlockEntry}
    (hext : Extends nHeight (tipHash root chain) e.block) {reserved : List Bytes} {fails : Bool}
    {db' : TokenDB} {n : ℕ}
    (hcall : processBlock reserved (db.withWriteFails fails) e.block (nHeight e.block.hash)
      e.blockundo = (db', .ok n)) :
    processBlock reserved db e.block (nHeight e.block.hash) e.blockundo =
      (db'.withWriteFails false, .ok n) := by
  cases fails with
  | false =>
    obtain ⟨m, r', -, htr⟩ := h.connect hext reserved
    rw [withWriteFails_self h.writable] at hcall
    rw [hcall] at htr ⊢
    rw [withWriteFails_self htr.writable]
  | true =>
    by_cases hbest : db.getBestBlock = e.block.hash
    · have hskip : ∀ d : TokenDB, d.getBestBlock = e.block.hash →
          processBlock reserved d e.block (nHeight e.block.hash) e.blockundo = (d, .ok 0) :=
        fun d hd => by simp only [processBlock, if_pos hd]
      rw [hskip (db.withWriteFails true) hbest] at hcall
      obtain ⟨rfl, hn⟩ := Prod.mk.inj hcall
      rw [hskip db hbest, hn, withWriteFails_idem, withWriteFails_self h.writable]
    · have hcache : CacheCoherent (db.withWriteFails true) := h.cache
      have herror := (processBlock_error hcache h.storeSound rfl reserved (nHeight e.block.hash)
        e.blockundo hbest).1
      rw [hcall] at herror
      simp at herror

/-- A block that could not be connected has been read, and nothing else. -/
theorem connectFailed (h : Tracks nHeight root chain db r rs) {block : CBlock} {height : ℕ}
    {blockundo : CBlockUndo} {reserved : List Bytes} {fails : Bool} {db' : TokenDB}
    {err : DbwrapperError}
    (hcall : processBlock reserved (db.withWriteFails fails) block height blockundo =
      (db', .error err)) :
    SameData (db.withWriteFails fails) db' ∧ CacheCoherent db' := by
  have hcoherent : CacheCoherent (db.withWriteFails fails) := h.cache
  have hbest : (db.withWriteFails fails).getBestBlock ≠ block.hash := by
    intro hbest
    rw [processBlock, if_pos hbest] at hcall
    simp at hcall
  cases fails with
  | false =>
    have hok := (processBlock_spec hcoherent h.storeSound rfl reserved height blockundo hbest).1
    rw [hcall] at hok
    simp at hok
  | true =>
    obtain ⟨-, hdata, hcache⟩ := processBlock_error hcoherent h.storeSound rfl reserved height
      blockundo hbest
    rw [hcall] at hdata hcache
    exact ⟨hdata, hcache⟩

/-- The pointer is never below the tip, so a disconnection is never taken for one done before. -/
theorem best_ne_prev {e : BlockEntry} (h : Tracks nHeight root (e :: chain) db r rs) :
    db.getBestBlock ≠ e.block.hashPrevBlock := by
  intro hbest
  have hle := h.best (List.cons_ne_nil _ _)
  have hext := h.valid.1.height
  rw [hbest, h.valid.1.prev] at hle
  change nHeight e.block.hash ≤ _ at hle
  omega

/-- The tip block's operations, between the two topmost stores. -/
theorem tipBlock {e : BlockEntry} {r' : Records}
    (h : Tracks nHeight root (e :: chain) db r' (r :: rs)) :
    Grown (nHeight root) r rs ∧ rs.length = chain.length ∧ HeightFresh r (nHeight e.block.hash) ∧
      BlockStep (nHeight e.block.hash) r r' := by
  obtain ⟨hext, hvalid⟩ := h.valid
  have hdepth : rs.length = chain.length := by simpa using h.depth
  have hheight : nHeight e.block.hash = nHeight root + rs.length + 1 := by
    rw [hext.height, hvalid.height, hdepth]
  rw [hheight]
  cases h.grown with
  | step hgrown hstep => exact ⟨hgrown, hdepth, hgrown.heightFresh (by omega), hstep⟩

/-- **Disconnecting the tip block** pops its store, unless the storage layer fails. -/
theorem disconnect {e : BlockEntry} {r' : Records}
    (h : Tracks nHeight root (e :: chain) db r' (r :: rs)) (fails : Bool) :
    let call := disconnectBlock (db.withWriteFails fails) e.block (nHeight e.block.hash)
    (call.2 = false ∧ fails = true ∧ SameData (db.withWriteFails fails) call.1 ∧
      Tracks nHeight root (e :: chain) (call.1.withWriteFails false) r' (r :: rs)) ∨
    (call.2 = true ∧ call.1.mDb.writeFails = fails ∧
      Tracks nHeight root chain (call.1.withWriteFails false) r rs) := by
  intro call
  obtain ⟨hext, hvalid⟩ := h.valid
  have htip : nHeight (tipHash root chain) ≤ nHeight (tipHash root (e :: chain)) := by
    show _ ≤ nHeight e.block.hash
    rw [hext.height]
    exact Nat.le_succ _
  obtain ⟨hgrown, hdepth, hfresh, time, groups, q, hg, happ, rfl⟩ := h.tipBlock
  have hspec := disconnectBlock_spec (show CacheCoherent (db.withWriteFails fails) from h.cache)
    hgrown.storeSound hfresh hg happ h.records h.best_ne_prev
  rcases hspec with ⟨hfalse, hfails, hdata, hcache⟩ | ⟨htrue, hag, hpointer, hflag, hcache⟩
  · exact Or.inl ⟨hfalse, hfails, hdata, h.of_sameData hdata hcache⟩
  · refine Or.inr ⟨htrue, hflag, hvalid, hdepth, hgrown, hag, hcache, rfl, fun _ => ?_⟩
    show _ ≤ nHeight ((Store.read call.1.records .bestBlock).getD 0)
    rw [hpointer]
    split_ifs
    · exact htip.trans (h.best (List.cons_ne_nil _ _))
    · rw [Option.getD_some, hext.prev]

/-- What is left of the stack when the tip block is gone. -/
theorem disconnectDone {e : BlockEntry} {r' : Records}
    (h : Tracks nHeight root (e :: chain) db r' (r :: rs)) {fails : Bool} {db' : TokenDB}
    (hcall : disconnectBlock (db.withWriteFails fails) e.block (nHeight e.block.hash) =
      (db', true)) :
    Tracks nHeight root chain (db'.withWriteFails false) r rs := by
  have hpop := h.disconnect fails
  simp only [hcall, Bool.true_eq_false, false_and, false_or, true_and] at hpop
  exact hpop.2

/-- A lookup touches the cache only. -/
theorem lookup (h : Tracks nHeight root chain db r rs) (t : TokenId) :
    Tracks nHeight root chain (db.getTokenInfo t).2 r rs := by
  obtain ⟨hdata, hcache⟩ := readTokenInfo_snd h.cache t
  have hself : (db.getTokenInfo t).2.withWriteFails false = (db.getTokenInfo t).2 :=
    withWriteFails_self (hdata.mDb ▸ h.writable)
  rw [← hself]
  have hsame : SameData (db.withWriteFails false) (db.getTokenInfo t).2 := by
    rw [withWriteFails_self h.writable]
    exact hdata
  exact h.of_sameData hsame hcache

/-- A block that could not be disconnected has been read, and nothing else. -/
theorem disconnectFailed {e : BlockEntry} (h : Tracks nHeight root (e :: chain) db r rs)
    {fails : Bool} {db' : TokenDB}
    (hcall : disconnectBlock (db.withWriteFails fails) e.block (nHeight e.block.hash) =
      (db', false)) :
    SameData (db.withWriteFails fails) db' ∧
      Tracks nHeight root (e :: chain) (db'.withWriteFails false) r rs := by
  cases rs with
  | nil => exact absurd h.depth (by simp)
  | cons r₁ rs₁ =>
    have hstay := h.disconnect fails
    simp only [hcall, true_and, Bool.false_eq_true, false_and, or_false] at hstay
    exact hstay.2

end Tracks

theorem tracks_empty (nHeight : Uint256 → ℕ) (root : Uint256) :
    Tracks nHeight root [] TokenDB.empty ∅ [] :=
  ⟨trivial, rfl, .base, .refl _ _, .empty, rfl, fun h => absurd rfl h⟩

/-- **A run keeps the stack.**  What lay there when it started still lies below. -/
theorem Run.tracks {nHeight : Uint256 → ℕ} {allowed : TokenDB → BlockEntry → Prop}
    {root : Uint256} {chain : List BlockEntry} {start : TokenDB} {r : Records} {rs : List Records}
    (hstart : Tracks nHeight root chain start r rs) {l : List BlockEntry} {db : TokenDB}
    (h : Run nHeight allowed (tipHash root chain) start l db) :
    ∃ (r' : Records) (rs' : List Records), Tracks nHeight root (l ++ chain) db r' rs' ∧
      r :: rs <:+ r' :: rs' := by
  induction h with
  | start => exact ⟨r, rs, hstart, List.suffix_rfl⟩
  | @connect l db db' e n _ hext reserved fails hcall ih =>
    obtain ⟨r₁, rs₁, htr, hsuffix⟩ := ih
    rw [tipHash_append] at hext
    obtain ⟨m, r₂, hok, htr₂⟩ := htr.connect hext reserved
    rw [htr.connectDone hext hcall] at htr₂
    exact ⟨r₂, r₁ :: rs₁, htr₂, hsuffix.trans (List.suffix_cons _ _)⟩
  | @connectFailed l db db' e err _ reserved fails hcall ih =>
    obtain ⟨r₁, rs₁, htr, hsuffix⟩ := ih
    refine ⟨r₁, rs₁, ?_, hsuffix⟩
    obtain ⟨hdata, hcache⟩ := htr.connectFailed hcall
    exact htr.of_sameData hdata hcache
  | @disconnect l db db' e _ _ fails hcall ih =>
    obtain ⟨r₁, rs₁, htr, hsuffix⟩ := ih
    cases rs₁ with
    | nil => exact absurd htr.depth (by simp)
    | cons r₂ rs₂ =>
      refine ⟨r₂, rs₂, htr.disconnectDone hcall, ?_⟩
      -- the stack is higher than at the start, so the old one is below its top
      rcases List.suffix_cons_iff.mp hsuffix with heq | hbelow
      · have hlen := congrArg List.length heq
        have hdepth := htr.depth
        have hdepth₀ := hstart.depth
        simp only [List.length_cons, List.length_append] at hlen hdepth
        omega
      · exact hbelow
  | @disconnectFailed l db db' e _ fails hcall ih =>
    obtain ⟨r₁, rs₁, htr, hsuffix⟩ := ih
    exact ⟨r₁, rs₁, (htr.disconnectFailed hcall).2, hsuffix⟩
  | @lookup l db _ t ih =>
    obtain ⟨r₁, rs₁, htr, hsuffix⟩ := ih
    exact ⟨r₁, rs₁, htr.lookup t, hsuffix⟩

theorem Run.tracks_of_empty {nHeight : Uint256 → ℕ} {allowed : TokenDB → BlockEntry → Prop}
    {root : Uint256} {chain : List BlockEntry} {db : TokenDB}
    (h : Run nHeight allowed root TokenDB.empty chain db) :
    ∃ (r : Records) (rs : List Records), Tracks nHeight root chain db r rs := by
  obtain ⟨r, rs, htr, -⟩ := Run.tracks (tracks_empty nHeight root) h
  rw [List.append_nil] at htr
  exact ⟨r, rs, htr⟩

/-- **Every database a node can reach is tracked.** -/
theorem Reach.tracks {nHeight : Uint256 → ℕ} {root : Uint256} {chain : List BlockEntry}
    {db : TokenDB} (h : Reach nHeight root chain db) :
    ∃ (r : Records) (rs : List Records), Tracks nHeight root chain db r rs :=
  Run.tracks_of_empty h

/-- While the storage layer works, the next block can always be connected. -/
theorem Run.connectNext {nHeight : Uint256 → ℕ} {allowed : TokenDB → BlockEntry → Prop}
    {root : Uint256} {chain : List BlockEntry} {db : TokenDB}
    (h : Run nHeight allowed root TokenDB.empty chain db) {e : BlockEntry}
    (hext : Extends nHeight (tipHash root chain) e.block) (reserved : List Bytes) :
    Run nHeight allowed root TokenDB.empty (e :: chain)
      (processBlock reserved db e.block (nHeight e.block.hash) e.blockundo).1 := by
  obtain ⟨r, rs, htr⟩ := h.tracks_of_empty
  obtain ⟨n, r', hok, htr'⟩ := htr.connect hext reserved
  rw [← withWriteFails_self htr'.writable]
  refine Run.connect h hext reserved false (n := n) ?_
  rw [withWriteFails_self htr.writable, ← hok]

/-- While the storage layer works, the tip block can always be disconnected. -/
theorem Run.disconnectTip {nHeight : Uint256 → ℕ} {allowed : TokenDB → BlockEntry → Prop}
    {root : Uint256} {chain : List BlockEntry} {db : TokenDB} {e : BlockEntry}
    (h : Run nHeight allowed root TokenDB.empty (e :: chain) db) (hok : allowed db e) :
    Run nHeight allowed root TokenDB.empty chain
      (disconnectBlock db e.block (nHeight e.block.hash)).1 := by
  obtain ⟨r', rs', htr⟩ := h.tracks_of_empty
  cases rs' with
  | nil => exact absurd htr.depth (by simp)
  | cons r rs =>
    have hpop := htr.disconnect false
    rw [withWriteFails_self htr.writable] at hpop
    rcases hpop with ⟨-, hfails, -⟩ | ⟨htrue, hflag, -⟩
    · simp at hfails
    · rw [← withWriteFails_self hflag]
      refine Run.disconnect h hok false ?_
      rw [withWriteFails_self htr.writable, ← htrue]

/-! ### A small chain

Three blocks on a block of hash 100: one issues ten units of a token, one on top of it moves three
of them, and one competes with the first and has no token operation. -/

namespace Sample

def sampleHeight (hash : Uint256) : ℕ := hash.toNat % 100

def alice : CScript := [1]

def bob : CScript := [2]

def coinbase (txid : Uint256) : CTransaction := ⟨txid, [⟨⟨0, 0xffffffff⟩⟩], [⟨0, [0x51]⟩]⟩

def issuance : TokenIssuance := ⟨[0x41, 0x42, 0x43], [0x41], 0, 10, 0⟩

def issueEntry : BlockEntry where
  block := ⟨101, 100, 0,
    [coinbase 1, ⟨7, [⟨⟨5, 0⟩⟩], [⟨0, buildIssuanceScript issuance⟩, ⟨0, alice⟩]⟩]⟩
  blockundo := ⟨[⟨[⟨⟨100 * coin, alice⟩⟩]⟩]⟩

def moveEntry : BlockEntry where
  block := ⟨102, 101, 0,
    [coinbase 2, ⟨8, [⟨⟨6, 0⟩⟩], [⟨0, buildTransferScript ⟨7, 3⟩⟩, ⟨0, bob⟩]⟩]⟩
  blockundo := ⟨[⟨[⟨⟨0, alice⟩⟩]⟩]⟩

def emptyEntry : BlockEntry := ⟨⟨201, 100, 0, [coinbase 3]⟩, ⟨[]⟩⟩

theorem issueEntry_extends : Extends sampleHeight 100 issueEntry.block :=
  ⟨rfl, by decide, by decide⟩

theorem moveEntry_extends : Extends sampleHeight 101 moveEntry.block :=
  ⟨rfl, by decide, by decide⟩

theorem emptyEntry_extends : Extends sampleHeight 100 emptyEntry.block :=
  ⟨rfl, by decide, by decide⟩

theorem valid_moved : ValidChain sampleHeight 100 [moveEntry, issueEntry] :=
  ⟨moveEntry_extends, issueEntry_extends, trivial⟩

/-- The database after the issuance. -/
def issued : TokenDB := (processBlock [] .empty issueEntry.block 1 issueEntry.blockundo).1

/-- The database after the issuance and the transfer. -/
def moved : TokenDB := (processBlock [] issued moveEntry.block 2 moveEntry.blockundo).1

/-- The database after the block without operations. -/
def idle : TokenDB := (processBlock [] .empty emptyEntry.block 1 emptyEntry.blockundo).1

theorem run_issued (allowed : TokenDB → BlockEntry → Prop) :
    Run sampleHeight allowed 100 .empty [issueEntry] issued :=
  Run.connectNext .start issueEntry_extends []

theorem run_moved (allowed : TokenDB → BlockEntry → Prop) :
    Run sampleHeight allowed 100 .empty [moveEntry, issueEntry] moved :=
  (run_issued allowed).connectNext moveEntry_extends []

theorem reach_issued : Reach sampleHeight 100 [issueEntry] issued := run_issued _

theorem reach_moved : Reach sampleHeight 100 [moveEntry, issueEntry] moved := run_moved _

theorem reach_idle : Reach sampleHeight 100 [emptyEntry] idle :=
  Run.connectNext .start emptyEntry_extends []

end Sample

end OpenSY.Tokens
