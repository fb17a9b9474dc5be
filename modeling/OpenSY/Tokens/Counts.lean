import Mathlib.Data.List.TakeWhile
import OpenSY.Tokens.RowCounts

/-!
# When the counts are first read

`GetTokenCount` and `GetTransferCount` scan the database when they are first asked, and from then on
follow the blocks.  Here a node runs along a chain, with queries in between, and its answers at the
end are compared with those of a node that made the same calls and never asked before.

The count of tokens is the number of infos either way.  The count of transfers is not the same
either way: the scan also finds the rows the issuances left, and the blocks do not count those.  So
the answer depends on how many tokens were registered when the count was first read
(`counts_by_first_read`).
-/

namespace OpenSY.Tokens

open OpenSY.Chain OpenSY.Src20 OpenSY.KeyValueStore OpenSY.RecencyCache

/-! ### Runs along a chain -/

/-- A block can be connected if it extends the tip, and only the tip can be disconnected. -/
inductive ChainCall where
  | connect (e : BlockEntry) (fails : Bool)
  | disconnect (fails : Bool)
  | query (q : Query)

/-- The connected blocks, tip first, and the token database. -/
structure Indexed where
  chain : List BlockEntry
  db : TokenDB

instance extends_decidable (nHeight : Uint256 → ℕ) (tip : Uint256) (block : CBlock) :
    Decidable (Extends nHeight tip block) :=
  decidable_of_iff (block.hashPrevBlock = tip ∧ nHeight block.hash = nHeight tip + 1 ∧
      (block.vtx.map CTransaction.hash).Nodup)
    ⟨fun h => ⟨h.1, h.2.1, h.2.2⟩, fun h => ⟨h.prev, h.height, h.txids⟩⟩

section Runs

variable (nHeight : Uint256 → ℕ) (root : Uint256) (reserved : List Bytes)

/-- A call the node would not make is left out. -/
def Indexed.call (s : Indexed) : ChainCall → Indexed
  | .connect e fails =>
    if Extends nHeight (tipHash root s.chain) e.block then
      let called :=
        processBlock reserved (s.db.withWriteFails fails) e.block (nHeight e.block.hash) e.blockundo
      ⟨match called.2 with
        | .ok _ => e :: s.chain
        | .error _ => s.chain, called.1.withWriteFails false⟩
    else s
  | .disconnect fails =>
    match s.chain with
    | [] => s
    | e :: chain =>
      let called := disconnectBlock (s.db.withWriteFails fails) e.block (nHeight e.block.hash)
      ⟨if called.2 then chain else e :: chain, called.1.withWriteFails false⟩
  | .query q => ⟨s.chain, (q.ask s.db).2⟩

def Indexed.calls (s : Indexed) (cs : List ChainCall) : Indexed :=
  cs.foldl (Indexed.call nHeight root reserved) s

/-- A run from the empty database. -/
def indexed (cs : List ChainCall) : Indexed := Indexed.calls nHeight root reserved ⟨[], .empty⟩ cs

end Runs

/-- The queries that start a count. -/
def ChainCall.readsCount : ChainCall → Bool
  | .query .getTokenCount => true
  | .query .getTransferCount => true
  | _ => false

def ChainCall.readsTransferCount : ChainCall → Bool
  | .query .getTransferCount => true
  | _ => false

/-- The scans of both families end before the limit. -/
def ScanFits (r : Records) : Prop :=
  r.rows Key.isTokenInfo ≤ maxTotalIterations ∧ r.rows Key.isTransfer ≤ maxTotalIterations

/-! ### The rows along a chain -/

theorem blockLog_length (height : ℕ) (time : ℤ) (groups : BlockGroups) :
    (blockLog height time groups).length = (groupTxids groups).length := by
  have htx : ∀ (txid : Uint256) (us : List TokenUndoRecord) (k : ℕ),
      (txLog height time txid k us).length = us.length := by
    intro txid us
    induction us with
    | nil => exact fun _ => rfl
    | cons u us ih => exact fun k => congrArg Nat.succ (ih (k + 1))
  induction groups with
  | nil => rfl
  | cons g groups ih =>
    rw [show blockLog height time (g :: groups) = txLog height time g.1 0 g.2 ++
      blockLog height time groups from rfl,
      show groupTxids (g :: groups) = List.replicate g.2.length g.1 ++ groupTxids groups from rfl,
      List.length_append, List.length_append, ih, htx, List.length_replicate]

theorem rows_blockTokensWrite (r : Records) (height : ℕ) (txids : List Uint256)
    {family : Key → Bool} (hfamily : ∀ k, family k → IsTokenKey k) :
    Records.rows (r.writeBatch (blockTokensWrite height txids)) family = r.rows family := by
  refine rows_of_agreeOn (agreeOn_blockTokensWrite r height txids) fun k hk heq => ?_
  rw [heq] at hk
  exact hfamily _ hk

/-- The rows a block adds, one for each operation of its log. -/
theorem blockStep_rows {r q : Records} (hs : StoreSound r) {height : ℕ}
    (hfresh : HeightFresh r height) {time : ℤ} {groups : BlockGroups} (hg : GroupsOK groups)
    (happ : Applied r (blockLog height time groups) q) :
    Records.rows (q.writeBatch (blockTokensWrite height (groupTxids groups))) Key.isTokenInfo =
        r.rows Key.isTokenInfo + (blockLog height time groups).issues ∧
      Records.rows (q.writeBatch (blockTokensWrite height (groupTxids groups))) Key.isTransfer =
        r.rows Key.isTransfer +
          ((blockLog height time groups).issues + (blockLog height time groups).moves) := by
  rw [rows_blockTokensWrite q height _ fun k => isTokenKey_of_isTokenInfo,
    rows_blockTokensWrite q height _ fun k => isTokenKey_of_isTransfer, ← OpLog.length_eq]
  exact ⟨happ.tokenRows hs, happ.transferRows hs (hfresh.freshAt time groups)
    (blockLog_keys_nodup height time hg.nodup)⟩

/-- Every token has the row of its issuance. -/
theorem Grown.tokenRows_le {h₀ : ℕ} {r : Records} {rs : List Records} (h : Grown h₀ r rs) :
    r.rows Key.isTokenInfo ≤ r.rows Key.isTransfer := by
  induction h with
  | base => exact le_rfl
  | step h hstep ih =>
    obtain ⟨time, groups, q, hg, happ, rfl⟩ := hstep
    obtain ⟨htokens, htransfers⟩ :=
      blockStep_rows h.storeSound (h.heightFresh (Nat.lt_add_one _)) hg happ
    omega

theorem Tracks.rows {nHeight : Uint256 → ℕ} {root : Uint256} {chain : List BlockEntry}
    {db : TokenDB} {r : Records} {rs : List Records} (h : Tracks nHeight root chain db r rs)
    {family : Key → Bool} (hfamily : ∀ k, family k → IsTokenKey k) :
    db.records.rows family = r.rows family :=
  rows_of_agreeOn h.records fun k hk => isTokenKey_ne_bestBlock k (hfamily k hk)

/-! ### The counters along a chain -/

/-- The count of tokens is the number of infos.  The count of transfers is the number of rows in the
history without the issuances since the count was started, when `k` tokens were registered. -/
structure Counted (db : TokenDB) (r : Records) (k : ℕ) : Prop where
  tokens : ∀ n, db.counters.1 = some n → n = r.rows Key.isTokenInfo
  transfers : ∀ n, db.counters.2 = some n → n + r.rows Key.isTokenInfo = r.rows Key.isTransfer + k

theorem Counted.congr {db db' : TokenDB} {r : Records} {k : ℕ} (h : Counted db r k)
    (heq : db'.counters = db.counters) : Counted db' r k :=
  ⟨fun n hn => h.tokens n (heq ▸ hn), fun n hn => h.transfers n (heq ▸ hn)⟩

/-- A block with `i` issuances and `m` other operations is connected. -/
theorem Counted.add {db db' : TokenDB} {r r' : Records} {k i m : ℕ} (h : Counted db r k)
    (hcounters : db'.counters = (db.counters.1.map (· + i), db.counters.2.map (· + m)))
    (htokens : r'.rows Key.isTokenInfo = r.rows Key.isTokenInfo + i)
    (htransfers : r'.rows Key.isTransfer = r.rows Key.isTransfer + (i + m)) : Counted db' r' k := by
  refine ⟨fun n hn => ?_, fun n hn => ?_⟩
  · rw [hcounters] at hn
    obtain ⟨n₀, hn₀, rfl⟩ := Option.map_eq_some_iff.mp hn
    rw [htokens, h.tokens n₀ hn₀]
  · rw [hcounters] at hn
    obtain ⟨n₀, hn₀, rfl⟩ := Option.map_eq_some_iff.mp hn
    have hbefore := h.transfers n₀ hn₀
    omega

/-- It is disconnected again; no count goes below zero. -/
theorem Counted.sub {db db' : TokenDB} {r r' : Records} {k i m : ℕ} (h : Counted db r' k)
    (hcounters : db'.counters = (db.counters.1.map (· - i), db.counters.2.map (· - m)))
    (htokens : r'.rows Key.isTokenInfo = r.rows Key.isTokenInfo + i)
    (htransfers : r'.rows Key.isTransfer = r.rows Key.isTransfer + (i + m))
    (hle : r.rows Key.isTokenInfo ≤ r.rows Key.isTransfer) : Counted db' r k := by
  refine ⟨fun n hn => ?_, fun n hn => ?_⟩
  · rw [hcounters] at hn
    obtain ⟨n₀, hn₀, rfl⟩ := Option.map_eq_some_iff.mp hn
    have hbefore := h.tokens n₀ hn₀
    omega
  · rw [hcounters] at hn
    obtain ⟨n₀, hn₀, rfl⟩ := Option.map_eq_some_iff.mp hn
    have hbefore := h.transfers n₀ hn₀
    omega

section Calls

variable {nHeight : Uint256 → ℕ} {root : Uint256} {chain : List BlockEntry} {db : TokenDB}
  {r : Records} {rs : List Records} {e : BlockEntry}

/-- Nothing is stored at the height of a block that extends the tip. -/
theorem Tracks.heightFresh (h : Tracks nHeight root chain db r rs)
    (hext : Extends nHeight (tipHash root chain) e.block) :
    HeightFresh db.records (nHeight e.block.hash) := by
  have hr : HeightFresh r (nHeight e.block.hash) := h.grown.heightFresh (by
    rw [hext.height, h.valid.height, h.depth]
    exact Nat.lt_add_one _)
  refine ⟨fun t x i => ?_, fun x i => ?_, ?_⟩
  · rw [h.records _ (by simp)]
    exact hr.history t x i
  · rw [h.records _ (by simp)]
    exact hr.undo x i
  · rw [h.records _ (by simp)]
    exact hr.blockTokens

/-- The rows a connected block adds, by the counters of its walk. -/
theorem Tracks.connect_rows (h : Tracks nHeight root chain db r rs)
    (hext : Extends nHeight (tipHash root chain) e.block) (reserved : List Bytes)
    (hbest : db.getBestBlock ≠ e.block.hash) {r' : Records}
    (htr : Tracks nHeight root (e :: chain)
      (processBlock reserved db e.block (nHeight e.block.hash) e.blockundo).1 r' (r :: rs)) :
    let w := walkBlock plainOp reserved (nHeight e.block.hash) e.block e.blockundo db.records
    r'.rows Key.isTokenInfo = r.rows Key.isTokenInfo + w.issueCount ∧
      r'.rows Key.isTransfer = r.rows Key.isTransfer + (w.issueCount + w.txfrCount) := by
  intro w
  have hcounts := walkBlock_counts h.storeSound reserved (nHeight e.block.hash) e.block e.blockundo
  have hmDb := (processBlock_spec h.cache h.storeSound h.writable reserved (nHeight e.block.hash)
    e.blockundo hbest).2.1
  have hag := agreeOn_blockStore reserved db.records e.block (nHeight e.block.hash) e.blockundo
  obtain ⟨groups, hg, happ, -, hops⟩ :=
    walkBlock_log reserved (nHeight e.block.hash) e.block e.blockundo hext.txids db.records
  have htransfers := happ.transferRows h.storeSound ((h.heightFresh hext).freshAt _ groups)
    (blockLog_keys_nodup _ _ hg.nodup)
  rw [blockLog_length, ← hops, hcounts.ops] at htransfers
  rw [← htr.rows fun _ => isTokenKey_of_isTokenInfo, ← htr.rows fun _ => isTokenKey_of_isTransfer,
    ← h.rows fun _ => isTokenKey_of_isTokenInfo, ← h.rows fun _ => isTokenKey_of_isTransfer,
    TokenDB.records, hmDb]
  rw [rows_of_agreeOn hag fun k => isTokenKey_of_isTokenInfo,
    rows_of_agreeOn hag fun k => isTokenKey_of_isTransfer]
  exact ⟨hcounts.tokens, htransfers⟩

/-- What a connected block adds to the counters, it has added to the rows, the issuances to the
history too. -/
theorem Tracks.connect_counters (h : Tracks nHeight root chain db r rs)
    (hext : Extends nHeight (tipHash root chain) e.block) (reserved : List Bytes) :
    ∃ (n : ℕ) (r' : Records) (i m : ℕ),
      (processBlock reserved db e.block (nHeight e.block.hash) e.blockundo).2 = .ok n ∧
      Tracks nHeight root (e :: chain)
        (processBlock reserved db e.block (nHeight e.block.hash) e.blockundo).1 r' (r :: rs) ∧
      (processBlock reserved db e.block (nHeight e.block.hash) e.blockundo).1.counters =
        (db.counters.1.map (· + i), db.counters.2.map (· + m)) ∧
      r'.rows Key.isTokenInfo = r.rows Key.isTokenInfo + i ∧
      r'.rows Key.isTransfer = r.rows Key.isTransfer + (i + m) := by
  obtain ⟨n, r', hok, htr⟩ := h.connect hext reserved
  by_cases hbest : db.getBestBlock = e.block.hash
  · have hskip : processBlock reserved db e.block (nHeight e.block.hash) e.blockundo =
        (db, .ok 0) := by
      simp only [processBlock, if_pos hbest]
    refine ⟨n, r', 0, 0, hok, htr, ?_, ?_, ?_⟩
    · rw [hskip]
      simp
    · rw [← htr.rows fun _ => isTokenKey_of_isTokenInfo, hskip,
        h.rows fun _ => isTokenKey_of_isTokenInfo, Nat.add_zero]
    · rw [← htr.rows fun _ => isTokenKey_of_isTransfer, hskip,
        h.rows fun _ => isTokenKey_of_isTransfer, Nat.add_zero]
  · exact ⟨n, r', _, _, hok, htr,
      processBlock_counters h.cache h.storeSound h.writable reserved _ _ hbest,
      h.connect_rows hext reserved hbest htr⟩

/-- What a connected block added, its disconnection takes away. -/
theorem Tracks.disconnect_counters {r' : Records}
    (h : Tracks nHeight root (e :: chain) db r' (r :: rs)) (fails : Bool)
    (hdone : (disconnectBlock (db.withWriteFails fails) e.block (nHeight e.block.hash)).2 = true) :
    ∃ i m : ℕ,
      (disconnectBlock (db.withWriteFails fails) e.block (nHeight e.block.hash)).1.counters =
        (db.counters.1.map (· - i), db.counters.2.map (· - m)) ∧
      r'.rows Key.isTokenInfo = r.rows Key.isTokenInfo + i ∧
      r'.rows Key.isTransfer = r.rows Key.isTransfer + (i + m) := by
  obtain ⟨hgrown, -, hfresh, time, groups, q, hg, happ, rfl⟩ := h.tipBlock
  obtain ⟨-, hcounters⟩ :=
    disconnectBlock_counters (show CacheCoherent (db.withWriteFails fails) from h.cache)
    hgrown.storeSound hfresh hg happ h.records h.best_ne_prev
  exact ⟨_, _, hcounters hdone, blockStep_rows hgrown.storeSound hfresh hg happ⟩

/-! ### Calls on two databases with the same records -/

/-- What `processBlock` commits is a matter of the records. -/
theorem processBlock_same {db' : TokenDB} (hc : CacheCoherent db) (hc' : CacheCoherent db')
    (hs : StoreSound db.records) (hsame : db'.mDb = db.mDb) (reserved : List Bytes) (block : CBlock)
    (height : ℕ) (blockundo : CBlockUndo) :
    (processBlock reserved db' block height blockundo).2 =
      (processBlock reserved db block height blockundo).2 ∧
      (processBlock reserved db' block height blockundo).1.mDb =
        (processBlock reserved db block height blockundo).1.mDb ∧
      CacheCoherent (processBlock reserved db' block height blockundo).1 := by
  have hrecords : db'.records = db.records := congrArg Database.records hsame
  have hbests : db'.getBestBlock = db.getBestBlock :=
    congrArg (fun r : Records => (r.read .bestBlock).getD 0) hrecords
  have hs' : StoreSound db'.records := hrecords ▸ hs
  by_cases hbest : db.getBestBlock = block.hash
  · simp only [processBlock, hbests, if_pos hbest]
    exact ⟨trivial, hsame, hc'⟩
  · have hbest' : db'.getBestBlock ≠ block.hash := hbests ▸ hbest
    cases hfails : db.mDb.writeFails with
    | false =>
      obtain ⟨hok, hmDb, -⟩ := processBlock_spec hc hs hfails reserved height blockundo hbest
      obtain ⟨hok', hmDb', hcache'⟩ :=
        processBlock_spec hc' hs' (hsame ▸ hfails) reserved height blockundo hbest'
      rw [hok, hok', hmDb, hmDb', hrecords]
      exact ⟨rfl, rfl, hcache'⟩
    | true =>
      obtain ⟨herr, hdata, -⟩ := processBlock_error hc hs hfails reserved height blockundo hbest
      obtain ⟨herr', hdata', hcache'⟩ :=
        processBlock_error hc' hs' (hsame ▸ hfails) reserved height blockundo hbest'
      rw [herr, herr', hdata.mDb, hdata'.mDb]
      exact ⟨rfl, hsame, hcache'⟩

/-- So is what `disconnectBlock` commits. -/
theorem Tracks.disconnect_same {r' : Records} (h : Tracks nHeight root (e :: chain) db r' (r :: rs))
    {db' : TokenDB} (hc' : CacheCoherent db') (hsame : db'.mDb = db.mDb) (fails : Bool) :
    let called := disconnectBlock (db.withWriteFails fails) e.block (nHeight e.block.hash)
    let called' := disconnectBlock (db'.withWriteFails fails) e.block (nHeight e.block.hash)
    called'.2 = called.2 ∧ called'.1.mDb = called.1.mDb ∧ CacheCoherent called'.1 := by
  intro called called'
  have hrecords : db'.records = db.records := congrArg Database.records hsame
  have hbest' : db'.getBestBlock ≠ e.block.hashPrevBlock := by
    rw [show db'.getBestBlock = db.getBestBlock from
      congrArg (fun r : Records => (r.read .bestBlock).getD 0) hrecords]
    exact h.best_ne_prev
  obtain ⟨hgrown, -, hfresh, time, groups, q, hg, happ, rfl⟩ := h.tipBlock
  have hc : CacheCoherent (db.withWriteFails fails) := h.cache
  have hc'' : CacheCoherent (db'.withWriteFails fails) := hc'
  have hdb' : AgreeOn (· ≠ .bestBlock) (db'.withWriteFails fails).records
      (q.writeBatch (blockTokensWrite (nHeight e.block.hash) (groupTxids groups))) := by
    rw [withWriteFails_records, hrecords]
    exact h.records
  have hspec := disconnectBlock_spec hc hgrown.storeSound hfresh hg happ h.records h.best_ne_prev
  have hspec' := disconnectBlock_spec hc'' hgrown.storeSound hfresh hg happ hdb' hbest'
  obtain ⟨hdone, -⟩ :=
    disconnectBlock_counters hc hgrown.storeSound hfresh hg happ h.records h.best_ne_prev
  obtain ⟨hdone', -⟩ := disconnectBlock_counters hc'' hgrown.storeSound hfresh hg happ hdb' hbest'
  have hresult : called'.2 = called.2 := Bool.eq_iff_iff.mpr (hdone'.trans hdone.symm)
  refine ⟨hresult, ?_⟩
  rcases hspec with ⟨hfalse, -, hdata, -⟩ | ⟨htrue, hag, hpointer, hflag, -⟩
  · rcases hspec' with ⟨-, -, hdata', hcache'⟩ | ⟨htrue', -⟩
    · refine ⟨?_, hcache'⟩
      rw [hdata'.mDb, hdata.mDb]
      exact congrArg (fun d : Database Value => { d with writeFails := fails }) hsame
    · exact absurd (hresult.symm.trans htrue') (by rw [hfalse]; simp)
  · rcases hspec' with ⟨hfalse', -⟩ | ⟨-, hag', hpointer', hflag', hcache'⟩
    · exact absurd (hresult.trans htrue) (by rw [hfalse']; simp)
    · refine ⟨?_, hcache'⟩
      have hstore : called'.1.records = called.1.records := by
        refine store_ext fun k => ?_
        by_cases hk : k = .bestBlock
        · rw [hk, hpointer, hpointer', withWriteFails_records, withWriteFails_records, hrecords]
        · rw [hag k hk, hag' k hk]
      show (⟨called'.1.records, called'.1.mDb.writeFails⟩ : Database Value) =
          ⟨called.1.records, called.1.mDb.writeFails⟩
      rw [hstore, hflag, hflag']
      rfl

end Calls

/-! ### One call -/

/-- A query that starts no count may fill the cache. -/
theorem Query.ask_sameData {db : TokenDB} (h : InOrder db) {q : Query}
    (hq : (ChainCall.query q).readsCount = false) :
    SameData db (q.ask db).2 ∧ CacheCoherent (q.ask db).2 := by
  refine ⟨?_, (h.ask q).cache⟩
  cases q with
  | getTokenInfo t => exact (h.getTokenInfo t).1
  | getTokenCount => exact absurd hq (by simp [ChainCall.readsCount])
  | getTransferCount => exact absurd hq (by simp [ChainCall.readsCount])
  | _ => exact .refl db

theorem Tracks.inOrder {nHeight : Uint256 → ℕ} {root : Uint256} {chain : List BlockEntry}
    {db : TokenDB} {r : Records} {rs : List Records}
    (h : Tracks nHeight root chain db r rs) : InOrder db :=
  ⟨h.cache, h.storeSound.infoWF⟩

/-- What is tracked are the records. -/
theorem Tracks.of_same {nHeight : Uint256 → ℕ} {root : Uint256} {chain : List BlockEntry}
    {db db' : TokenDB} {r : Records} {rs : List Records} (h : Tracks nHeight root chain db r rs)
    (hsame : db'.mDb = db.mDb) (hcache : CacheCoherent db') :
    Tracks nHeight root chain db' r rs := by
  have hrecords : db'.records = db.records := congrArg Database.records hsame
  refine ⟨h.valid, h.depth, h.grown, hrecords ▸ h.records, hcache, hsame ▸ h.writable, ?_⟩
  rw [TokenDB.getBestBlock, hrecords]
  exact h.best

section OneCall

variable {nHeight : Uint256 → ℕ} {root : Uint256} (reserved : List Bytes) {s : Indexed}
  {r : Records} {rs : List Records} {k : ℕ}

/-- What holds after a call that has only read. -/
theorem Counted.read (hc : Counted s.db r k) (h : Tracks nHeight root s.chain s.db r rs)
    {fails : Bool} {db' : TokenDB} (hdata : SameData (s.db.withWriteFails fails) db')
    (hcache : CacheCoherent db') :
    Tracks nHeight root s.chain (db'.withWriteFails false) r rs ∧
      Counted (db'.withWriteFails false) r k ∧
      (db'.withWriteFails false).counters = (s.db.counters.1.map id, s.db.counters.2.map id) := by
  have hcounters : (db'.withWriteFails false).counters = s.db.counters := hdata.counters
  refine ⟨h.of_sameData hdata hcache, hc.congr hcounters, ?_⟩
  rw [hcounters, Option.map_id]
  rfl

/-- **A call that starts no count** keeps the counts right; a count that is off stays off. -/
theorem Counted.call (hc : Counted s.db r k) (h : Tracks nHeight root s.chain s.db r rs)
    {c : ChainCall} (hno : c.readsCount = false) :
    ∃ (r' : Records) (rs' : List Records) (f g : ℕ → ℕ),
      Tracks nHeight root (s.call nHeight root reserved c).chain
        (s.call nHeight root reserved c).db r' rs' ∧
      Counted (s.call nHeight root reserved c).db r' k ∧
      (s.call nHeight root reserved c).db.counters =
        (s.db.counters.1.map f, s.db.counters.2.map g) := by
  have hid : s.db.counters = (s.db.counters.1.map id, s.db.counters.2.map id) := by simp
  cases c with
  | connect e fails =>
    simp only [Indexed.call]
    by_cases hext : Extends nHeight (tipHash root s.chain) e.block
    · rw [if_pos hext]
      generalize hcall : processBlock reserved (s.db.withWriteFails fails) e.block
        (nHeight e.block.hash) e.blockundo = called
      obtain ⟨db', result⟩ := called
      cases result with
      | ok n =>
        obtain ⟨-, r', i, m, -, htr, hcounters, htokens, htransfers⟩ :=
          h.connect_counters hext reserved
        rw [h.connectDone hext hcall] at htr hcounters
        exact ⟨r', r :: rs, _, _, htr, hc.add hcounters htokens htransfers, hcounters⟩
      | error err =>
        obtain ⟨hdata, hcache⟩ := h.connectFailed hcall
        exact ⟨r, rs, id, id, hc.read h hdata hcache⟩
    · rw [if_neg hext]
      exact ⟨r, rs, id, id, h, hc, hid⟩
  | disconnect fails =>
    simp only [Indexed.call]
    obtain ⟨chain, db⟩ := s
    cases chain with
    | nil => exact ⟨r, rs, id, id, h, hc, hid⟩
    | cons e chain =>
      cases rs with
      | nil => exact absurd h.depth (by simp)
      | cons r₀ rs₀ =>
        rcases h.disconnect fails with ⟨hfalse, -, hdata, htr⟩ | ⟨htrue, -, htr⟩
        · simp only [hfalse]
          exact ⟨r, r₀ :: rs₀, id, id, htr, (hc.read h hdata htr.cache).2⟩
        · obtain ⟨i, m, hcounters, htokens, htransfers⟩ := h.disconnect_counters fails htrue
          simp only [htrue]
          exact ⟨r₀, rs₀, _, _, htr,
            hc.sub hcounters htokens htransfers h.tipBlock.1.tokenRows_le, hcounters⟩
  | query q =>
    obtain ⟨hdata, hcache⟩ := Query.ask_sameData h.inOrder hno
    have hsame : SameData (s.db.withWriteFails false) (q.ask s.db).2 := by
      rw [withWriteFails_self h.writable]
      exact hdata
    have hself := withWriteFails_self (hdata.mDb ▸ h.writable)
    have hafter := hc.read h hsame hcache
    rw [hself] at hafter
    exact ⟨r, rs, id, id, hafter⟩

/-- **Calls on the same records** leave the same records, whatever the counters are. -/
theorem Tracks.call_same (h : Tracks nHeight root s.chain s.db r rs) {s' : Indexed}
    (hchain : s'.chain = s.chain) (hstore : s'.db.mDb = s.db.mDb) (hcache : CacheCoherent s'.db)
    {c : ChainCall} (hno : c.readsCount = false) :
    (s'.call nHeight root reserved c).chain = (s.call nHeight root reserved c).chain ∧
      (s'.call nHeight root reserved c).db.mDb = (s.call nHeight root reserved c).db.mDb ∧
      CacheCoherent (s'.call nHeight root reserved c).db := by
  have hrecords : s'.db.records = s.db.records := congrArg Database.records hstore
  have hrefused : ∀ {db db' : TokenDB}, db'.mDb = db.mDb →
      (db'.withWriteFails false).mDb = (db.withWriteFails false).mDb :=
    fun heq => congrArg (fun d : Database Value => { d with writeFails := false }) heq
  cases c with
  | connect e fails =>
    simp only [Indexed.call, hchain]
    by_cases hext : Extends nHeight (tipHash root s.chain) e.block
    · rw [if_pos hext, if_pos hext]
      obtain ⟨hresult, hmDb, hcoherent⟩ := processBlock_same
        (show CacheCoherent (s.db.withWriteFails fails) from h.cache)
        (show CacheCoherent (s'.db.withWriteFails fails) from hcache) h.storeSound
        (congrArg (fun d : Database Value => { d with writeFails := fails }) hstore)
        reserved e.block (nHeight e.block.hash) e.blockundo
      simp only [hresult]
      exact ⟨trivial, hrefused hmDb, hcoherent⟩
    · rw [if_neg hext, if_neg hext]
      exact ⟨hchain, hstore, hcache⟩
  | disconnect fails =>
    simp only [Indexed.call]
    obtain ⟨chain, db⟩ := s
    obtain ⟨chain', db'⟩ := s'
    replace hchain : chain' = chain := hchain
    subst hchain
    cases chain' with
    | nil => exact ⟨rfl, hstore, hcache⟩
    | cons e chain =>
      cases rs with
      | nil => exact absurd h.depth (by simp)
      | cons r₀ rs₀ =>
        obtain ⟨hresult, hmDb, hcoherent⟩ := h.disconnect_same hcache hstore fails
        simp only [hresult]
        exact ⟨trivial, hrefused hmDb, hcoherent⟩
  | query q =>
    have horder : InOrder s'.db := ⟨hcache, hrecords ▸ h.inOrder.filed⟩
    obtain ⟨hdata, -⟩ := Query.ask_sameData h.inOrder hno
    obtain ⟨hdata', hcoherent⟩ := Query.ask_sameData horder hno
    exact ⟨hchain, (hdata'.mDb.trans hstore).trans hdata.mDb.symm, hcoherent⟩

end OneCall

/-! ### With and without reads of the counts -/

/-- Two nodes after the same calls, of which the second has left out the reads of the counts. -/
structure Paired (nHeight : Uint256 → ℕ) (root : Uint256) (early late : Indexed) (r : Records)
    (rs : List Records) (k : ℕ) : Prop where
  tracks : Tracks nHeight root early.chain early.db r rs
  counted : Counted early.db r k
  chain : late.chain = early.chain
  store : late.db.mDb = early.db.mDb
  cache : CacheCoherent late.db
  unread : late.db.counters = (none, none)

theorem getTokenCount_eq (db : TokenDB) :
    db.getTokenCount.1 = db.counters.1.getD (db.records.scan Key.isTokenInfo) ∧
      db.getTokenCount.2.counters = (some db.getTokenCount.1, db.counters.2) := by
  cases hstarted : db.mTokenCountInitialized <;> simp [TokenDB.getTokenCount,
    TokenDB.counters, hstarted]

theorem getTransferCount_eq (db : TokenDB) :
    db.getTransferCount.1 = db.counters.2.getD (db.records.scan Key.isTransfer) ∧
      db.getTransferCount.2.counters = (db.counters.1, some db.getTransferCount.1) := by
  cases hstarted : db.mTransferCountInitialized <;> simp [TokenDB.getTransferCount,
    TokenDB.counters, hstarted]

/-- A scan that fits counts all rows. -/
theorem scan_eq_rows {r : Records} {family : Key → Bool} (h : r.rows family ≤ maxTotalIterations) :
    r.scan family = r.rows family := min_eq_left h

section Pairs

variable {nHeight : Uint256 → ℕ} {root : Uint256} {early late : Indexed} {r : Records}
  {rs : List Records} {k : ℕ}

theorem Paired.records (h : Paired nHeight root early late r rs k) :
    late.db.records = early.db.records :=
  congrArg Database.records h.store

/-- The answers of the first node. -/
theorem Paired.tokenCount (h : Paired nHeight root early late r rs k)
    (hfits : ScanFits early.db.records) :
    early.db.getTokenCount.1 = r.rows Key.isTokenInfo := by
  rw [(getTokenCount_eq early.db).1]
  cases hstarted : early.db.counters.1 with
  | none =>
    rw [Option.getD_none, scan_eq_rows hfits.1, h.tracks.rows fun _ => isTokenKey_of_isTokenInfo]
  | some n => rw [Option.getD_some, h.counted.tokens n hstarted]

theorem Paired.transferCount (h : Paired nHeight root early late r rs k)
    (hfits : ScanFits early.db.records)
    (hk : early.db.counters.2 = none → k = r.rows Key.isTokenInfo) :
    early.db.getTransferCount.1 + r.rows Key.isTokenInfo = r.rows Key.isTransfer + k := by
  rw [(getTransferCount_eq early.db).1]
  cases hstarted : early.db.counters.2 with
  | none =>
    rw [Option.getD_none, scan_eq_rows hfits.2, h.tracks.rows fun _ => isTokenKey_of_isTransfer,
      hk hstarted]
  | some n => rw [Option.getD_some, h.counted.transfers n hstarted]

theorem Paired.readTokens (h : Paired nHeight root early late r rs k)
    (hfits : ScanFits early.db.records) :
    Counted early.db.getTokenCount.2 r k := by
  refine ⟨fun n hn => ?_, fun n hn => ?_⟩
  · rw [(getTokenCount_eq early.db).2] at hn
    rw [← Option.some.inj hn]
    exact h.tokenCount hfits
  · rw [(getTokenCount_eq early.db).2] at hn
    exact h.counted.transfers n hn

theorem Paired.readTransfers (h : Paired nHeight root early late r rs k)
    (hfits : ScanFits early.db.records)
    (hk : early.db.counters.2 = none → k = r.rows Key.isTokenInfo) :
    Counted early.db.getTransferCount.2 r k := by
  refine ⟨fun n hn => ?_, fun n hn => ?_⟩
  · rw [(getTransferCount_eq early.db).2] at hn
    exact h.counted.tokens n hn
  · rw [(getTransferCount_eq early.db).2] at hn
    rw [← Option.some.inj hn]
    exact h.transferCount hfits hk

/-- The first node reads a count, the second does nothing. -/
theorem Paired.read (h : Paired nHeight root early late r rs k) (reserved : List Bytes)
    (hfits : ScanFits early.db.records) {c : ChainCall} (hreads : c.readsCount = true)
    (hk : c.readsTransferCount = true → early.db.counters.2 = none → k = r.rows Key.isTokenInfo) :
    Paired nHeight root (early.call nHeight root reserved c) late r rs k ∧
      (early.call nHeight root reserved c).db.counters.2.isSome =
        (early.db.counters.2.isSome || c.readsTransferCount) := by
  cases c with
  | connect e fails => simp [ChainCall.readsCount] at hreads
  | disconnect fails => simp [ChainCall.readsCount] at hreads
  | query q =>
    have hmDb := Query.ask_mDb early.db q
    have htracks' : Tracks nHeight root early.chain (q.ask early.db).2 r rs :=
      h.tracks.of_same hmDb (h.tracks.inOrder.ask q).cache
    cases q with
    | getTokenCount =>
      refine
        ⟨⟨htracks', h.readTokens hfits, h.chain, h.store.trans hmDb.symm, h.cache, h.unread⟩, ?_⟩
      show (early.db.getTokenCount.2.counters.2).isSome = _
      rw [(getTokenCount_eq early.db).2]
      simp [ChainCall.readsTransferCount]
    | getTransferCount =>
      refine ⟨⟨htracks', h.readTransfers hfits (hk rfl), h.chain, h.store.trans hmDb.symm, h.cache,
        h.unread⟩, ?_⟩
      show (early.db.getTransferCount.2.counters.2).isSome = _
      rw [(getTransferCount_eq early.db).2]
      simp [ChainCall.readsTransferCount]
    | _ => simp [ChainCall.readsCount] at hreads

/-- Both nodes take a call that reads no count. -/
theorem Paired.call (h : Paired nHeight root early late r rs k) (reserved : List Bytes)
    {c : ChainCall} (hno : c.readsCount = false) :
    ∃ (r' : Records) (rs' : List Records),
      Paired nHeight root (early.call nHeight root reserved c) (late.call nHeight root reserved c)
        r' rs' k ∧
      (early.call nHeight root reserved c).db.counters.2.isSome = early.db.counters.2.isSome := by
  obtain ⟨r', rs', f, g, htracks, hcounted, hcounters⟩ := h.counted.call reserved h.tracks hno
  obtain ⟨hchain, hstore, hcache⟩ := h.tracks.call_same reserved h.chain h.store h.cache hno
  refine ⟨r', rs', ⟨htracks, hcounted, hchain, hstore, hcache, ?_⟩, ?_⟩
  · -- the second node has nothing to count from
    have hnone : Counted late.db r 0 := ⟨by simp [h.unread], by simp [h.unread]⟩
    have hlate : Tracks nHeight root late.chain late.db r rs :=
      h.chain ▸ h.tracks.of_same h.store h.cache
    obtain ⟨-, -, f', g', -, -, hlater⟩ := hnone.call reserved hlate hno
    rw [hlater, h.unread]
    rfl
  · rw [hcounters, Option.isSome_map]

/-- **One more call.**  If it starts the count of transfers, `k` is the number of tokens there are.
-/
theorem Paired.step (h : Paired nHeight root early late r rs k) (reserved : List Bytes)
    (hfits : ScanFits early.db.records) (c : ChainCall)
    (hk : c.readsTransferCount = true → early.db.counters.2 = none → k = r.rows Key.isTokenInfo) :
    ∃ (r' : Records) (rs' : List Records),
      Paired nHeight root (early.call nHeight root reserved c)
        (if c.readsCount then late else late.call nHeight root reserved c) r' rs' k ∧
      (early.call nHeight root reserved c).db.counters.2.isSome =
        (early.db.counters.2.isSome || c.readsTransferCount) := by
  by_cases hreads : c.readsCount = true
  · rw [if_pos hreads]
    exact ⟨r, rs, h.read reserved hfits hreads hk⟩
  · rw [if_neg hreads]
    have hno : c.readsCount = false := Bool.eq_false_of_not_eq_true hreads
    have hnot : c.readsTransferCount = false := by
      cases c with
      | query q => cases q <;> simp_all [ChainCall.readsCount, ChainCall.readsTransferCount]
      | _ => rfl
    rw [hnot, Bool.or_false]
    exact h.call reserved hno

/-- As long as the count of transfers has not been started, any `k` will do. -/
theorem Paired.unstarted (h : Paired nHeight root early late r rs k)
    (hnone : early.db.counters.2 = none) (k' : ℕ) :
    Paired nHeight root early late r rs k' :=
  ⟨h.tracks, ⟨h.counted.tokens, by simp [hnone]⟩, h.chain, h.store, h.cache, h.unread⟩

end Pairs

/-! ### Whole runs -/

section WholeRuns

variable (nHeight : Uint256 → ℕ) (root : Uint256) (reserved : List Bytes)

theorem indexed_snoc (cs : List ChainCall) (c : ChainCall) :
    indexed nHeight root reserved (cs ++ [c]) = (indexed nHeight root reserved cs).call nHeight root
      reserved c := by
  unfold indexed Indexed.calls
  rw [List.foldl_append]
  rfl

theorem takeWhile_snoc_of_any {α : Type} {p : α → Bool} {l : List α} (h : l.any p = true) (x : α) :
    (l ++ [x]).takeWhile (fun y => !p y) = l.takeWhile fun y => !p y := by
  induction l with
  | nil => simp at h
  | cons y l ih =>
    rw [List.cons_append, List.takeWhile_cons, List.takeWhile_cons]
    cases hy : p y with
    | true => rfl
    | false =>
      rw [List.any_cons, hy, Bool.false_or] at h
      simp [ih h]

/-- The number of tokens when the count of transfers is first read, at the end if it never is. -/
def tokensAtFirstRead (cs : List ChainCall) : ℕ :=
  (indexed nHeight root reserved (cs.takeWhile fun c => !c.readsTransferCount)).db.records.rows
    Key.isTokenInfo

theorem tokensAtFirstRead_unread {cs : List ChainCall}
    (h : cs.any ChainCall.readsTransferCount = false) :
    tokensAtFirstRead nHeight root reserved cs =
      (indexed nHeight root reserved cs).db.records.rows Key.isTokenInfo := by
  have hall : cs.takeWhile (fun c => !c.readsTransferCount) = cs := by
    rw [List.takeWhile_eq_self_iff]
    exact fun c hc => by simpa using List.any_eq_false.mp h c hc
  rw [tokensAtFirstRead, hall]

/-- **The run invariant**: every list of calls keeps the two nodes paired. -/
theorem paired_run (cs : List ChainCall)
    (hfits : ∀ before, before <+: cs → ScanFits (indexed nHeight root reserved before).db.records) :
    ∃ (r : Records) (rs : List Records),
      Paired nHeight root (indexed nHeight root reserved cs)
        (indexed nHeight root reserved (cs.filter fun c => !c.readsCount)) r rs
        (tokensAtFirstRead nHeight root reserved cs) ∧
      (indexed nHeight root reserved cs).db.counters.2.isSome =
        cs.any ChainCall.readsTransferCount := by
  induction cs using List.reverseRecOn with
  | nil => exact ⟨∅, [], ⟨tracks_empty nHeight root, ⟨nofun, nofun⟩, rfl, rfl, .empty, rfl⟩, rfl⟩
  | append_singleton cs c ih =>
    obtain ⟨r, rs, hpaired, hstarted⟩ :=
      ih fun before hb => hfits before (hb.trans (List.prefix_append _ _))
    have hnow : ScanFits (indexed nHeight root reserved cs).db.records :=
      hfits cs (List.prefix_append _ _)
    have hready : Paired nHeight root (indexed nHeight root reserved cs)
          (indexed nHeight root reserved (cs.filter fun c => !c.readsCount)) r rs
          (tokensAtFirstRead nHeight root reserved (cs ++ [c])) ∧
        (c.readsTransferCount = true → (indexed nHeight root reserved cs).db.counters.2 = none →
          tokensAtFirstRead nHeight root reserved (cs ++ [c]) = r.rows Key.isTokenInfo) := by
      cases hany : cs.any ChainCall.readsTransferCount with
      | true =>
        -- the count was started before
        refine ⟨?_, fun _ hnone => by simp [hany, hnone] at hstarted⟩
        rw [tokensAtFirstRead, takeWhile_snoc_of_any hany]
        exact hpaired
      | false =>
        rw [hany, Option.isSome_eq_false_iff, Option.isNone_iff_eq_none] at hstarted
        refine ⟨hpaired.unstarted hstarted _, fun hreads _ => ?_⟩
        have hall : ∀ c' ∈ cs, (!c'.readsTransferCount) = true := fun c' hc' => by
          simpa using List.any_eq_false.mp hany c' hc'
        rw [tokensAtFirstRead, List.takeWhile_append_of_pos hall, List.takeWhile_cons, hreads]
        simp only [Bool.not_true, Bool.false_eq_true, if_false, List.append_nil]
        exact hpaired.tracks.rows fun _ => isTokenKey_of_isTokenInfo
    obtain ⟨r', rs', hstep, hstarted'⟩ := hready.1.step reserved hnow c hready.2
    refine ⟨r', rs', ?_, ?_⟩
    · rw [indexed_snoc, List.filter_append]
      cases hreads : c.readsCount with
      | true => simpa [hreads] using hstep
      | false => simpa [hreads, indexed_snoc] using hstep
    · rw [indexed_snoc, hstarted', hstarted, List.any_append, List.any_cons, List.any_nil,
        Bool.or_false]

/-- The counts at the end of a run with reads of them in between, against the same run without: the
count of tokens is the number of infos, and the count of transfers is the same exactly if there are
as many tokens at the end as when it was first read. -/
theorem counts_by_first_read (cs : List ChainCall)
    (hfits : ∀ before, before <+: cs → ScanFits (indexed nHeight root reserved before).db.records) :
    let early := (indexed nHeight root reserved cs).db
    let late := (indexed nHeight root reserved (cs.filter fun c => !c.readsCount)).db
    late.records = early.records ∧
      early.getTokenCount.1 = early.records.rows Key.isTokenInfo ∧
      late.getTokenCount.1 = early.records.rows Key.isTokenInfo ∧
      (early.getTransferCount.1 = late.getTransferCount.1 ↔
        tokensAtFirstRead nHeight root reserved cs = early.records.rows Key.isTokenInfo) := by
  intro early late
  obtain ⟨r, rs, h, hstarted⟩ := paired_run nHeight root reserved cs hfits
  have hnow : ScanFits early.records := hfits cs List.prefix_rfl
  have htokens : early.records.rows Key.isTokenInfo = r.rows Key.isTokenInfo :=
    h.tracks.rows fun _ => isTokenKey_of_isTokenInfo
  have htransfers : early.records.rows Key.isTransfer = r.rows Key.isTransfer :=
    h.tracks.rows fun _ => isTokenKey_of_isTransfer
  have hlateTokens : late.getTokenCount.1 = early.records.rows Key.isTokenInfo := by
    rw [(getTokenCount_eq late).1, h.unread, Option.getD_none, h.records, scan_eq_rows hnow.1]
  have hlateTransfers : late.getTransferCount.1 = early.records.rows Key.isTransfer := by
    rw [(getTransferCount_eq late).1, h.unread, Option.getD_none, h.records, scan_eq_rows hnow.2]
  have hearly := h.transferCount hnow fun hnone => by
    rw [hnone] at hstarted
    rw [tokensAtFirstRead_unread nHeight root reserved hstarted.symm]
    exact htokens
  refine ⟨h.records, (h.tokenCount hnow).trans htokens.symm, hlateTokens, ?_⟩
  rw [hlateTransfers, htransfers, htokens]
  show early.getTransferCount.1 = r.rows Key.isTransfer ↔ _
  replace hearly : early.getTransferCount.1 + r.rows Key.isTokenInfo =
    r.rows Key.isTransfer + tokensAtFirstRead nHeight root reserved cs := hearly
  omega

end WholeRuns

instance scanFits_decidable (r : Records) : Decidable (ScanFits r) :=
  inferInstanceAs (Decidable (_ ∧ _))

/-- The two blocks of the sample chain, with the counts read after the first. -/
def readBetween : List ChainCall :=
  [.connect Sample.issueEntry false, .query .getTransferCount, .query .getTokenCount,
    .connect Sample.moveEntry false]

theorem counts_by_first_read_between :
    (indexed Sample.sampleHeight 100 [] readBetween).db.getTransferCount.1 =
      (indexed Sample.sampleHeight 100 [] [.connect Sample.issueEntry false,
        .connect Sample.moveEntry false]).db.getTransferCount.1 :=
  (counts_by_first_read Sample.sampleHeight 100 [] readBetween fun before hb =>
    (by decide +kernel : ∀ b ∈ readBetween.inits,
      ScanFits (indexed Sample.sampleHeight 100 [] b).db.records) before
        (List.mem_inits _ _ |>.mpr hb)).2.2.2.mpr (by decide +kernel)

/-- A token is issued.  A count of transfers that was first read before it is 0, and one first read
after it is 1. -/
theorem issuance_counted_by_scan :
    (∀ b ∈ List.inits [ChainCall.query .getTransferCount, .connect Sample.issueEntry false],
      ScanFits (indexed Sample.sampleHeight 100 [] b).db.records) ∧
    (indexed Sample.sampleHeight 100 [] [.query .getTransferCount,
      .connect Sample.issueEntry false]).db.getTransferCount.1 = 0 ∧
    (indexed Sample.sampleHeight 100 [] [.connect Sample.issueEntry false]).db.getTransferCount.1 =
      1 :=
  ⟨by decide +kernel, by decide +kernel, by decide +kernel⟩

end OpenSY.Tokens
