import OpenSY.Tokens.UndoLog

/-!
# Disconnecting a block takes back what connecting it did

The undo records of a height are the log of the block that was connected there: each operation has
its own place, nothing else is stored at that height, and `disconnectBlock` collects them in order.

* `undoTxs_eq` — the transactions of a block are undone by undoing its log from the end;
* `disconnectBlock_spec` — hence `disconnectBlock` restores every record but the best-block pointer.
-/

namespace OpenSY.Tokens

open OpenSY.Chain OpenSY.Src20 OpenSY.KeyValueStore OpenSY.RecencyCache OpenSY.Ordered

/-! ### The places of a block -/

/-- Nothing is stored for a height yet. -/
structure HeightFresh (r : Records) (height : ℕ) : Prop where
  history : ∀ t x i, r.read (.transfer t height x i) = none
  undo : ∀ x i, r.read (.undo height x i) = none
  blockTokens : r.read (.blockTokens height) = none

theorem mem_txLog {height : ℕ} {time : ℤ} {txid : Uint256} {k : ℕ} {us : List TokenUndoRecord}
    {e : OpSite × TokenUndoRecord} (he : e ∈ txLog height time txid k us) :
    e.1.height = height ∧ e.1.txid = txid ∧ k ≤ e.1.opIndex ∧ e.1.opIndex < k + us.length := by
  induction us generalizing k with
  | nil => simp [txLog] at he
  | cons u us ih =>
    rw [List.length_cons]
    rcases List.mem_cons.mp he with rfl | he
    · exact ⟨rfl, rfl, le_rfl, Nat.lt_add_of_pos_right (Nat.succ_pos _)⟩
    · obtain ⟨hh, hx, hlo, hhi⟩ := ih he
      exact ⟨hh, hx, by omega, by omega⟩

theorem txLog_keys_nodup (height : ℕ) (time : ℤ) (txid : Uint256) (k : ℕ)
    (us : List TokenUndoRecord) : (OpLog.keys (txLog height time txid k us)).Nodup := by
  induction us generalizing k with
  | nil => exact List.nodup_nil
  | cons u us ih =>
    refine List.nodup_cons.mpr ⟨fun hmem => ?_, ih (k + 1)⟩
    obtain ⟨e, he, hkey⟩ := List.mem_map.mp hmem
    have hlo := (mem_txLog he).2.2.1
    simp only [OpSite.historyKey, Prod.mk.injEq] at hkey
    omega

theorem mem_keys_blockLog {height : ℕ} {time : ℤ} {groups : BlockGroups} {k : HistoryKey}
    (hk : k ∈ OpLog.keys (blockLog height time groups)) :
    k.1 = height ∧ ∃ g ∈ groups, k.2.1 = g.1 ∧ k.2.2 < g.2.length := by
  obtain ⟨e, he, rfl⟩ := List.mem_map.mp hk
  obtain ⟨g, hg, he⟩ := List.mem_flatMap.mp he
  obtain ⟨hh, hx, -, hi⟩ := mem_txLog he
  rw [Nat.zero_add] at hi
  exact ⟨hh, g, hg, hx, hi⟩

theorem blockLog_keys_nodup (height : ℕ) (time : ℤ) {groups : BlockGroups}
    (h : (groups.map Prod.fst).Nodup) : (OpLog.keys (blockLog height time groups)).Nodup := by
  induction groups with
  | nil => exact List.nodup_nil
  | cons g groups ih =>
    rw [List.map_cons, List.nodup_cons] at h
    rw [blockLog, List.flatMap_cons, keys_append]
    refine List.nodup_append'.mpr ⟨txLog_keys_nodup _ _ _ _ _, ih h.2, ?_⟩
    intro k hk hk'
    -- the same place would mean the same txid
    obtain ⟨e, he, rfl⟩ := List.mem_map.mp hk
    obtain ⟨-, g', hg', hx, -⟩ := mem_keys_blockLog hk'
    have hx' := (mem_txLog he).2.1
    exact h.1 (List.mem_map.mpr ⟨g', hg', hx.symm.trans hx'⟩)

theorem HeightFresh.freshAt {r : Records} {height : ℕ} (h : HeightFresh r height) (time : ℤ)
    (groups : BlockGroups) : FreshAt r (OpLog.keys (blockLog height time groups)) := by
  rintro ⟨h', x, i⟩ hk
  obtain ⟨rfl, -⟩ := mem_keys_blockLog hk
  exact ⟨fun t => h.history t x i, h.undo x i⟩

/-! ### The undo records hold the log -/

theorem collectUndos_eq {r : Records} {height : ℕ} {time : ℤ} {txid : Uint256}
    {us : List TokenUndoRecord} {n k : ℕ}
    (hread : ∀ e ∈ txLog height time txid k us, r.read (.undo height txid e.1.opIndex) = some e.2)
    (hend : r.read (.undo height txid (k + us.length)) = none) (hlen : us.length ≤ n) :
    collectUndos r height txid n k =
      (txLog height time txid k us).map fun e => (e.1.opIndex, e.2) := by
  induction us generalizing n k with
  | nil =>
    cases n with
    | zero => rfl
    | succ n =>
      rw [List.length_nil, Nat.add_zero] at hend
      rw [collectUndos, hend]
      rfl
  | cons u us ih =>
    cases n with
    | zero => simp at hlen
    | succ n =>
      have hfirst := hread _ List.mem_cons_self
      simp only at hfirst
      rw [collectUndos, hfirst, txLog, List.map_cons]
      rw [ih (fun e he => hread e (List.mem_cons_of_mem _ he)) ?_ (by simpa using hlen)]
      rw [List.length_cons] at hend
      rw [← hend]
      congr 2
      omega

theorem filter_ne_of_notMem {x : Uint256} {l : List Uint256} (hx : x ∉ l) :
    l.filter (· ≠ x) = l := by
  refine List.filter_eq_self.mpr fun y hy => decide_eq_true ?_
  rintro rfl
  exact hx hy

theorem dedupTxids_of_nodup {l : List Uint256} (h : l.Nodup) : dedupTxids l = l := by
  induction l with
  | nil => rfl
  | cons x l ih =>
    rw [List.nodup_cons] at h
    rw [dedupTxids, ih h.2, filter_ne_of_notMem h.1]

theorem dedupTxids_replicate {x : Uint256} {l : List Uint256} (hx : x ∉ dedupTxids l) (n : ℕ) :
    dedupTxids (List.replicate (n + 1) x ++ l) = x :: dedupTxids l := by
  induction n with
  | zero =>
    rw [Nat.zero_add, List.replicate_one, List.singleton_append, dedupTxids,
      filter_ne_of_notMem hx]
  | succ n ih =>
    rw [List.replicate_succ, List.cons_append, dedupTxids, ih,
      List.filter_cons_of_neg (by simp), filter_ne_of_notMem hx]

/-- The txids noted for a block, each once. -/
theorem dedupTxids_groupTxids {groups : BlockGroups} (h : GroupsOK groups) :
    dedupTxids (groupTxids groups) = groups.map Prod.fst := by
  obtain ⟨hnodup, hnonempty, -⟩ := h
  induction groups with
  | nil => rfl
  | cons g groups ih =>
    rw [List.map_cons, List.nodup_cons] at hnodup
    have hrest := ih hnodup.2 fun g' hg' => hnonempty g' (List.mem_cons_of_mem _ hg')
    obtain ⟨n, hn⟩ := Nat.exists_eq_succ_of_ne_zero
      (List.length_pos_of_ne_nil (hnonempty g List.mem_cons_self)).ne'
    have hnew : g.1 ∉ dedupTxids (groupTxids groups) := by
      rw [hrest]
      exact hnodup.1
    rw [List.map_cons, ← hrest, ← dedupTxids_replicate hnew n, ← Nat.succ_eq_add_one, ← hn]
    rfl

theorem undoTx_eq {s : Disconnect} {height : ℕ} {time : ℤ} {txid : Uint256}
    {us : List TokenUndoRecord}
    (h : collectUndos s.db.records height txid maxUndoOpsPerTx 0 =
      (txLog height time txid 0 us).map fun e => (e.1.opIndex, e.2)) :
    s.undoTx height txid = (txLog height time txid 0 us).reverse.foldl Disconnect.undoEntry s := by
  rw [Disconnect.undoTx, h, ← List.map_reverse, List.foldl_map]
  refine List.foldl_ext _ _ s ?_
  intro s' e he
  obtain ⟨hh, hx, -⟩ := mem_txLog (List.mem_reverse.mp he)
  rw [Disconnect.undoEntry, hh, hx]

/-- Undoing the transactions of a block is undoing its log. -/
theorem undoTxs_eq {s : Disconnect} {height : ℕ} {time : ℤ} {groups : BlockGroups}
    (h : ∀ g ∈ groups, collectUndos s.db.records height g.1 maxUndoOpsPerTx 0 =
      (txLog height time g.1 0 g.2).map fun e => (e.1.opIndex, e.2)) :
    (groups.map Prod.fst).reverse.foldl (Disconnect.undoTx height) s =
      (blockLog height time groups).reverse.foldl Disconnect.undoEntry s := by
  induction groups with
  | nil => rfl
  | cons g groups ih =>
    rw [List.map_cons, List.reverse_cons, List.foldl_append,
      ih fun g' hg' => h g' (List.mem_cons_of_mem _ hg'), List.foldl_cons, List.foldl_nil,
      show blockLog height time (g :: groups) = txLog height time g.1 0 g.2 ++
        blockLog height time groups from rfl, List.reverse_append, List.foldl_append]
    refine undoTx_eq ?_
    rw [TokenDB.records, undoLog_mDb]
    exact h g List.mem_cons_self

/-- The undo records of a block are exactly its log. -/
theorem Applied.collectUndos {r r' : Records} {height : ℕ} {time : ℤ} {groups : BlockGroups}
    (happ : Applied r (blockLog height time groups) r') (hfresh : HeightFresh r height)
    (hg : GroupsOK groups) {R : Records}
    (hR : ∀ x i, R.read (.undo height x i) = r'.read (.undo height x i))
    {g : Uint256 × List TokenUndoRecord} (hmem : g ∈ groups) :
    collectUndos R height g.1 maxUndoOpsPerTx 0 =
      (txLog height time g.1 0 g.2).map fun e => (e.1.opIndex, e.2) := by
  refine collectUndos_eq ?_ ?_ ?_
  · intro e he
    obtain ⟨hh, hx, -⟩ := mem_txLog he
    have hlog : e ∈ blockLog height time groups := List.mem_flatMap.mpr ⟨g, hmem, he⟩
    have hread := happ.undo_of_mem (blockLog_keys_nodup height time hg.nodup) (Prod.eta e ▸ hlog)
    rw [hh, hx] at hread
    rw [hR, hread]
  · rw [hR, Nat.zero_add]
    have hnot : (height, g.1, g.2.length) ∉ OpLog.keys (blockLog height time groups) := by
      intro hk
      obtain ⟨-, g', hg', hx, hlt⟩ := mem_keys_blockLog hk
      have hsame : g = g' := List.inj_on_of_nodup_map hg.nodup hmem hg' hx
      rw [hsame] at hlt
      exact lt_irrefl _ hlt
    exact (happ.undo_of_notMem hnot).trans (hfresh.undo _ _)
  · have hbound := hg.bounded g hmem
    simp only [maxUndoOpsPerTx]
    omega

/-! ### The whole disconnection -/

/-- Before anything is undone the disconnection stands for the committed records. -/
theorem disconnectSim_init {db : TokenDB} (hc : CacheCoherent db) {r : Records}
    (hs : StoreSound r) (hag : AgreeOn (fun k => ¬ IsPointerKey k) db.records r) :
    DisconnectSim db { db := db } r := by
  refine ⟨SameData.refl db, hc, ?_, hag, by simp, ?_, ?_⟩
  · intro t i hi
    exact hs.infoWF t i ((hag (.tokenInfo t) not_false).symm.trans hi)
  · intro a
    simp only [Disconnect.getAddrTokensForDisconnect, Finmap.lookup_empty, Records.addrTokens]
    rw [hag (.addrTokens a) not_false]
  · intro t i hi
    rw [Finmap.lookup_empty, Option.none_or]
    exact (hag (.tokenInfo t) not_false).trans hi

@[simp] theorem invalidateAll_mDb (toks : List TokenId) (db : TokenDB) :
    (toks.foldl TokenDB.invalidateCache db).mDb = db.mDb := by
  induction toks generalizing db with
  | nil => rfl
  | cons t toks ih => exact ih (db.invalidateCache t)

theorem mem_invalidateAll {toks : List TokenId} {db : TokenDB} {q : TokenId × TokenInfo}
    (hq : q ∈ (toks.foldl TokenDB.invalidateCache db).mTokenCache.entries) :
    q ∈ db.mTokenCache.entries ∧ q.1 ∉ toks := by
  induction toks generalizing db with
  | nil => exact ⟨hq, by simp⟩
  | cons t toks ih =>
    obtain ⟨hmem, hnot⟩ := ih hq
    obtain ⟨hold, hne⟩ := LRUCache.mem_erase hmem
    exact ⟨hold, by simp [hne, hnot]⟩

@[simp] theorem subCounts_mDb (db : TokenDB) (m n : ℕ) : (db.subCounts m n).mDb = db.mDb := rfl

/-- The records after the batch of a disconnection and the two closing writes. -/
theorem DisconnectSim.close {db₀ : TokenDB} {s : Disconnect} {r : Records}
    (h : DisconnectSim db₀ s r) {height : ℕ} (prev : Uint256)
    (hblock : r.read (.blockTokens height) = none)
    (hpointers : ∀ h, h ≠ height →
      s.db.records.read (.blockTokens h) = r.read (.blockTokens h)) :
    AgreeOn (· ≠ .bestBlock) (Store.writeBatch s.db.records (s.batch ++
      [.erase (.blockTokens height), .write .bestBlock prev])) r := by
  intro k hk
  simp only [writeBatch_append, writeBatch_cons, writeBatch_nil]
  rw [read_write_of_ne _ _ hk]
  by_cases hptr : IsPointerKey k
  · cases k with
    | blockTokens h' =>
      by_cases hh : h' = height
      · subst hh
        rw [read_erase_self, hblock]
      · rw [read_erase_of_ne _ (by simpa using hh), ← hpointers h' hh]
        exact read_writeBatch_of_forall_ne _ _ _ fun o ho hkey => h.pointers o ho (hkey ▸ trivial)
    | bestBlock => exact absurd rfl hk
    | _ => exact hptr.elim
  · rw [read_erase_of_ne _ (by rintro rfl; exact hptr trivial)]
    exact h.batch k hptr

theorem groupTxids_eq_nil {groups : BlockGroups} (hg : GroupsOK groups) :
    groupTxids groups = [] ↔ groups = [] := by
  refine ⟨fun hnil => ?_, fun hnil => by rw [hnil]; rfl⟩
  have hmap := dedupTxids_groupTxids hg
  rw [hnil] at hmap
  exact List.map_eq_nil_iff.mp hmap.symm

theorem blockLog_eq_nil {height : ℕ} {time : ℤ} {groups : BlockGroups} (hg : GroupsOK groups)
    (h : blockLog height time groups = []) : groups = [] := by
  by_contra hne
  obtain ⟨g, gs, rfl⟩ := List.exists_cons_of_ne_nil hne
  obtain ⟨u, us, hus⟩ := List.exists_cons_of_ne_nil (hg.nonempty g List.mem_cons_self)
  simp [blockLog, hus, txLog] at h

theorem blockTokensWrite_groupTxids (height : ℕ) {groups : BlockGroups} (hg : GroupsOK groups) :
    blockTokensWrite height (groupTxids groups) =
      if groups = [] then [] else [.write (.blockTokens height) (groups.map Prod.fst)] := by
  rw [blockTokensWrite, dedupTxids_groupTxids hg]
  exact if_congr (List.isEmpty_iff.trans (groupTxids_eq_nil hg)) rfl rfl

/-- What is read of a block with token transactions. -/
theorem reads_of_tipBlock {db : TokenDB} {r' : Records} {height : ℕ} {groups : BlockGroups}
    (hg : GroupsOK groups) (hne : groups ≠ [])
    (hdb : AgreeOn (· ≠ .bestBlock) db.records
      (r'.writeBatch (blockTokensWrite height (groupTxids groups)))) :
    db.records.read (.blockTokens height) = some (groups.map Prod.fst) ∧
      AgreeOn (fun k => ¬ IsPointerKey k) db.records r' ∧
      ∀ h, h ≠ height → db.records.read (.blockTokens h) = r'.read (.blockTokens h) := by
  rw [blockTokensWrite_groupTxids height hg, if_neg hne, writeBatch_cons, writeBatch_nil] at hdb
  refine ⟨?_, fun k hk => ?_, fun h hh => ?_⟩
  · rw [hdb (.blockTokens height) (by simp), read_write_self]
  · rw [hdb k (by rintro rfl; exact hk trivial),
      read_write_of_ne _ _ (by rintro rfl; exact hk trivial)]
  · rw [hdb (.blockTokens h) (by simp), read_write_of_ne _ _ (by simpa using hh)]

/-- A block without token transactions is not even noted. -/
theorem disconnectBlock_nil {db : TokenDB} {r : Records} {height : ℕ}
    (hfresh : HeightFresh r height) (hdb : AgreeOn (· ≠ .bestBlock) db.records r) {block : CBlock}
    (hbest : db.getBestBlock ≠ block.hashPrevBlock) :
    disconnectBlock db block height = (db, true) := by
  simp only [disconnectBlock, if_neg hbest]
  rw [hdb (.blockTokens height) (by simp), hfresh.blockTokens]

/-- The undo records `disconnectBlock` finds for a block are the block's log, and it goes through
them backwards. -/
theorem undone_of_tipBlock {db : TokenDB} {r r' : Records} {height : ℕ}
    (hfresh : HeightFresh r height) {time : ℤ} {groups : BlockGroups} (hg : GroupsOK groups)
    (hne : groups ≠ []) (happ : Applied r (blockLog height time groups) r')
    (hdb : AgreeOn (· ≠ .bestBlock) db.records
      (r'.writeBatch (blockTokensWrite height (groupTxids groups)))) :
    (dedupTxids (groups.map Prod.fst)).reverse.foldl (Disconnect.undoTx height) { db := db } =
      (blockLog height time groups).reverse.foldl Disconnect.undoEntry { db := db } := by
  obtain ⟨-, hag, -⟩ := reads_of_tipBlock hg hne hdb
  rw [dedupTxids_of_nodup hg.nodup]
  exact undoTxs_eq (s := { db := db }) fun g hmem =>
    happ.collectUndos hfresh hg (fun x i => hag (.undo height x i) not_false) hmem

/-- What `disconnectBlock` does on a block with token transactions: undo its log in memory, then
commit. -/
theorem disconnectBlock_eq {db : TokenDB} (hc : CacheCoherent db) {r r' : Records}
    (hs : StoreSound r) {height : ℕ} (hfresh : HeightFresh r height) {time : ℤ}
    {groups : BlockGroups} (hg : GroupsOK groups) (hne : groups ≠ [])
    (happ : Applied r (blockLog height time groups) r')
    (hdb : AgreeOn (· ≠ .bestBlock) db.records
      (r'.writeBatch (blockTokensWrite height (groupTxids groups))))
    {block : CBlock} (hbest : db.getBestBlock ≠ block.hashPrevBlock) :
    ∃ s : Disconnect,
      s = (blockLog height time groups).reverse.foldl Disconnect.undoEntry { db := db } ∧
      DisconnectSim db s r ∧
      (∀ t ∈ (blockLog height time groups).map (fun e => e.2.tokenId),
        t ∈ s.tokensToInvalidate) ∧
      disconnectBlock db block height =
        match s.db.mDb.commit (s.batch ++ [.erase (.blockTokens height),
          .write .bestBlock block.hashPrevBlock]) with
        | .error _ => (s.db, false)
        | .ok mDb => ((s.tokensToInvalidate.foldl TokenDB.invalidateCache
            { s.db with mDb := mDb }).subCounts s.issueUndoCount s.txfrUndoCount, true) := by
  obtain ⟨hread, hag, -⟩ := reads_of_tipBlock hg hne hdb
  have hinit := disconnectSim_init hc (happ.storeSound hs) hag
  have hnodup := blockLog_keys_nodup height time hg.nodup
  have hundone := undone_of_tipBlock hfresh hg hne happ hdb
  have hrestored := undoLog_restores happ hs (hfresh.freshAt time groups) hnodup hinit
  have htokens := undoLog_tokensToInvalidate { db := db } (blockLog height time groups).reverse
  generalize (blockLog height time groups).reverse.foldl Disconnect.undoEntry { db := db } = s
    at hundone hrestored htokens
  refine ⟨s, rfl, hrestored, ?_, ?_⟩
  · intro t ht
    rw [htokens]
    simpa using ht
  · cases hcommit : s.db.mDb.commit (s.batch ++ [.erase (.blockTokens height),
        .write .bestBlock block.hashPrevBlock]) <;>
      simp only [disconnectBlock, if_neg hbest, hread, hundone, hcommit]

/-- **Disconnecting a block restores every record but the best-block pointer**, which it moves to
the previous block, unless the block has no token transaction: then nothing is written at all. -/
theorem disconnectBlock_spec {db : TokenDB} (hc : CacheCoherent db) {r r' : Records}
    (hs : StoreSound r) {height : ℕ} (hfresh : HeightFresh r height) {time : ℤ}
    {groups : BlockGroups} (hg : GroupsOK groups)
    (happ : Applied r (blockLog height time groups) r')
    (hdb : AgreeOn (· ≠ .bestBlock) db.records
      (r'.writeBatch (blockTokensWrite height (groupTxids groups))))
    {block : CBlock} (hbest : db.getBestBlock ≠ block.hashPrevBlock) :
    ((disconnectBlock db block height).2 = false ∧ db.mDb.writeFails = true ∧
      SameData db (disconnectBlock db block height).1 ∧
      CacheCoherent (disconnectBlock db block height).1) ∨
    ((disconnectBlock db block height).2 = true ∧
      AgreeOn (· ≠ .bestBlock) (disconnectBlock db block height).1.records r ∧
      (disconnectBlock db block height).1.records.read .bestBlock =
        (if groups = [] then db.records.read .bestBlock else some block.hashPrevBlock) ∧
      (disconnectBlock db block height).1.mDb.writeFails = db.mDb.writeFails ∧
      CacheCoherent (disconnectBlock db block height).1) := by
  by_cases hnil : groups = []
  · subst hnil
    cases happ
    rw [disconnectBlock_nil hfresh hdb hbest]
    exact Or.inr ⟨rfl, hdb, by simp, rfl, hc⟩
  · obtain ⟨-, hag, hpointers⟩ := reads_of_tipBlock hg hnil hdb
    obtain ⟨s, -, hsim, htoks, heq⟩ := disconnectBlock_eq hc hs hfresh hg hnil happ hdb hbest
    rw [heq, if_neg hnil]
    cases hfails : db.mDb.writeFails with
    | true =>
      left
      rw [Database.commit_error (hsim.data.mDb ▸ hfails)]
      exact ⟨rfl, rfl, hsim.data, hsim.cache⟩
    | false =>
      right
      rw [Database.commit_ok (hsim.data.mDb ▸ hfails)]
      simp only [TokenDB.records, subCounts_mDb, invalidateAll_mDb]
      have hclose := hsim.close block.hashPrevBlock hfresh.blockTokens fun h hh => by
        rw [hsim.data.records, hpointers h hh]
        exact happ.read_of_pointer (by exact not_false) (by simp)
      refine ⟨trivial, hclose, by simp, trivial, ?_⟩
      intro q hq
      -- what is still cached was not touched by the block
      obtain ⟨hold, hnot⟩ := mem_invalidateAll hq
      have huntouched : r'.info q.1 = r.info q.1 :=
        happ.info_of_notMem hs fun hmem => hnot (htoks _ hmem)
      have hbase : s.db.records.info q.1 = r'.info q.1 := by
        rw [hsim.data.records]
        exact hag (.tokenInfo q.1) not_false
      rw [TokenDB.records, subCounts_mDb, invalidateAll_mDb]
      refine (hclose (.tokenInfo q.1) (by simp)).trans ?_
      show r.info q.1 = some q.2
      rw [← huntouched, ← hbase]
      exact hsim.cache q hold

end OpenSY.Tokens
