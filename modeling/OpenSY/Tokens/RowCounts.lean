import OpenSY.Tokens.Queries
import OpenSY.Tokens.Reachable

/-!
# Rows and counters

Two ways to count.  A scan counts the rows of a family; a block adds to a counter what its
operations are, and a disconnection takes it away again.  Here both are followed over one block.

Every operation leaves one row in the history, an issuance as well, and an issuance adds one info.
The counters of a block go by the kind of the operation: an issuance counts as a token, and only a
transfer or a burn counts as a transfer.

* `Applied.tokenRows`, `Applied.transferRows` — the rows after the operations of a log;
* `processBlock_counters`, `disconnectBlock_counters` — the counters after a block.
-/

namespace OpenSY.Tokens

open OpenSY.Chain OpenSY.Src20 OpenSY.KeyValueStore OpenSY.RecencyCache

/-! ### The rows of a family -/

theorem mem_rows {r : Records} {family : Key → Bool} {k : Key} :
    k ∈ r.keys.filter (fun k => family k) ↔ (r.read k).isSome ∧ family k := by
  rw [Finset.mem_filter, Finmap.mem_keys, ← Finmap.lookup_isSome]
  rfl

theorem rows_congr {r r' : Records} {family : Key → Bool}
    (h : ∀ k, family k → ((r'.read k).isSome ↔ (r.read k).isSome)) :
    r'.rows family = r.rows family := by
  refine congrArg Finset.card (Finset.ext fun k => ?_)
  rw [mem_rows, mem_rows]
  exact and_congr_left (h k)

theorem rows_of_agreeOn {P : Key → Prop} {r r' : Records} (h : AgreeOn P r r') {family : Key → Bool}
    (hfamily : ∀ k, family k → P k) : r.rows family = r'.rows family :=
  rows_congr fun k hk => by rw [h k (hfamily k hk)]

/-- One row more. -/
theorem rows_succ {r r' : Records} {family : Key → Bool} (k₀ : Key) (hk₀ : family k₀)
    (hnew : r.read k₀ = none)
    (h : ∀ k, family k → ((r'.read k).isSome ↔ k = k₀ ∨ (r.read k).isSome)) :
    r'.rows family = r.rows family + 1 := by
  have hnot : k₀ ∉ r.keys.filter fun k => family k := by
    rw [mem_rows, hnew]
    simp
  have hinsert : (r'.keys.filter fun k => family k) =
      insert k₀ (r.keys.filter fun k => family k) := by
    ext k
    rw [Finset.mem_insert, mem_rows, mem_rows]
    constructor
    · intro ⟨hread, hk⟩
      exact ((h k hk).mp hread).imp_right fun hold => ⟨hold, hk⟩
    · intro hor
      rcases hor with heq | ⟨hold, hk⟩
      · rw [heq]
        exact ⟨(h k₀ hk₀).mpr (Or.inl rfl), hk₀⟩
      · exact ⟨(h k hk).mpr (Or.inr hold), hk⟩
  show (r'.keys.filter fun k => family k).card = (r.keys.filter fun k => family k).card + 1
  rw [hinsert, Finset.card_insert_of_notMem hnot]

theorem isTokenInfo_iff {k : Key} : k.isTokenInfo ↔ ∃ t, k = .tokenInfo t := by
  cases k <;> simp [Key.isTokenInfo]

theorem isTransfer_iff {k : Key} : k.isTransfer ↔ ∃ t h x i, k = .transfer t h x i := by
  cases k <;> simp [Key.isTransfer]

theorem isTokenKey_of_isTokenInfo {k : Key} (h : k.isTokenInfo) : IsTokenKey k := by
  obtain ⟨t, rfl⟩ := isTokenInfo_iff.mp h
  trivial

theorem isTokenKey_of_isTransfer {k : Key} (h : k.isTransfer) : IsTokenKey k := by
  obtain ⟨t, h, x, i, rfl⟩ := isTransfer_iff.mp h
  trivial

/-! ### One operation -/

/-- The tokens an operation adds. -/
def TokenOp.issues : TokenOp → ℕ
  | .issue _ _ => 1
  | .transfer _ _ _ _ => 0
  | .burn _ _ _ => 0

section Step

variable {r : Records} {site : OpSite} {op : TokenOp} {w : CDBBatch}

/-- An issuance adds an info; a transfer or a burn rewrites one that is there. -/
theorem tokenRows_step (hs : StoreSound r) (hop : op.WellFormed) (hw : opWrites r site op = some w)
    (u : TokenUndoRecord) :
    Records.rows (r.writeBatch (w ++ [undoWrite site u])) Key.isTokenInfo =
      r.rows Key.isTokenInfo + op.issues := by
  have hinfo : ∀ t, Store.read (r.writeBatch (w ++ [undoWrite site u])) (.tokenInfo t) =
      Function.update r.ledger.info (op.token site) (r.ledger.infoAfter site op) t := by
    intro t
    rw [← Ledger.apply_info, ← ledger_step hs hop hw u]
    rfl
  have hmove :
      (∀ t, (Function.update r.ledger.info (op.token site) (r.ledger.infoAfter site op) t).isSome ↔
      (r.ledger.info t).isSome) →
        Records.rows (r.writeBatch (w ++ [undoWrite site u])) Key.isTokenInfo =
        r.rows Key.isTokenInfo := by
    intro hsame
    refine rows_congr fun k hk => ?_
    obtain ⟨t, rfl⟩ := isTokenInfo_iff.mp hk
    rw [hinfo]
    exact hsame t
  cases op with
  | issue issuance issuer =>
    obtain ⟨-, hnew, -⟩ := opWrites_issue_eq hw
    refine rows_succ (.tokenInfo site.txid) rfl hnew fun k hk => ?_
    obtain ⟨t, rfl⟩ := isTokenInfo_iff.mp hk
    rw [hinfo]
    by_cases ht : t = site.txid
    · subst ht
      simp [TokenOp.token, Ledger.infoAfter]
    · rw [show TokenOp.token site (.issue issuance issuer) = site.txid from rfl,
        Function.update_of_ne ht]
      simp [ht, Records.ledger, Records.info]
  | transfer t f d n =>
    refine hmove fun t' => ?_
    by_cases ht : t' = t
    · subst ht
      simp [TokenOp.token, Ledger.infoAfter]
    · rw [show TokenOp.token site (.transfer t f d n) = t from rfl, Function.update_of_ne ht]
  | burn t f n =>
    refine hmove fun t' => ?_
    by_cases ht : t' = t
    · subst ht
      simp [TokenOp.token, Ledger.infoAfter]
    · rw [show TokenOp.token site (.burn t f n) = t from rfl, Function.update_of_ne ht]

/-- Every operation adds its record to the history. -/
theorem transferRows_step (hs : StoreSound r) (hop : op.WellFormed)
    (hw : opWrites r site op = some w) (hfresh : ∀ t, r.ledger.history t site.historyKey = none)
    (u : TokenUndoRecord) :
    Records.rows (r.writeBatch (w ++ [undoWrite site u])) Key.isTransfer =
      r.rows Key.isTransfer + 1 := by
  have hhistory : ∀ t h x i,
      Store.read (r.writeBatch (w ++ [undoWrite site u])) (.transfer t h x i) =
      (r.ledger.apply site op).history t (h, x, i) := by
    intro t h x i
    rw [← ledger_step hs hop hw u]
    rfl
  refine rows_succ (.transfer (op.token site) site.height site.txid site.opIndex) rfl
    (hfresh (op.token site)) fun k hk => ?_
  obtain ⟨t, h, x, i, rfl⟩ := isTransfer_iff.mp hk
  rw [hhistory, Ledger.apply_history]
  by_cases ht : t = op.token site
  · subst ht
    rw [Function.update_self]
    by_cases hkey : (h, x, i) = site.historyKey
    · rw [hkey, Function.update_self]
      simp only [OpSite.historyKey, Prod.mk.injEq] at hkey
      simp [hkey]
    · rw [Function.update_of_ne hkey]
      simp only [OpSite.historyKey, Prod.mk.injEq] at hkey
      simp [hkey, Records.ledger]
  · rw [Function.update_of_ne ht]
    simp [ht, Records.ledger]

end Step

/-! ### The operations of a log -/

/-- The entries of a log that take back an issuance, and the others. -/
def OpLog.issues (log : OpLog) : ℕ := log.countP fun e => e.2.opType = .issue

def OpLog.moves (log : OpLog) : ℕ := log.countP fun e => e.2.opType ≠ .issue

theorem OpLog.length_eq (log : OpLog) : log.length = log.issues + log.moves := by
  rw [List.length_eq_countP_add_countP fun e : OpSite × TokenUndoRecord =>
    decide (e.2.opType = .issue)]
  simp [OpLog.issues, OpLog.moves]

theorem issues_cons (r : Records) (site : OpSite) (op : TokenOp) (log : OpLog) :
    OpLog.issues ((site, undoOf r site op) :: log) = op.issues + OpLog.issues log := by
  cases op <;> simp [OpLog.issues, TokenOp.issues, undoOf, issueUndo, transferUndo, burnUndo,
    Nat.add_comm]

theorem Applied.tokenRows {r r' : Records} {log : OpLog} (h : Applied r log r')
    (hs : StoreSound r) :
    r'.rows Key.isTokenInfo = r.rows Key.isTokenInfo + log.issues := by
  induction h with
  | nil r => rfl
  | @cons r r' site op w log hop hw _ ih =>
    rw [ih (storeSound_step hs hop hw _), tokenRows_step hs hop hw, issues_cons, Nat.add_assoc]

/-- **At fresh places every operation of a log is one more row of the history.** -/
theorem Applied.transferRows {r r' : Records} {log : OpLog} (h : Applied r log r')
    (hs : StoreSound r) (hf : FreshAt r (OpLog.keys log)) (hnodup : (OpLog.keys log).Nodup) :
    r'.rows Key.isTransfer = r.rows Key.isTransfer + log.length := by
  induction h with
  | nil r => rfl
  | @cons r r' site op w log hop hw _ ih =>
    simp only [OpLog.keys, List.map_cons, List.nodup_cons] at hf hnodup
    have hhere := (hf site.historyKey List.mem_cons_self).1
    rw [ih (storeSound_step hs hop hw _) (hf.step hs hop hw hnodup.1 _) hnodup.2,
      transferRows_step hs hop hw hhere, List.length_cons]
    omega

/-! ### The counters of a walk -/

/-- **Induction over a walk**, with the counters in sight. -/
theorem walkBlock_induct {σ : Type} {f : σ → OpSite → TokenOp → σ × Bool} {I : Walk σ → Prop}
    (hrefused : ∀ (w : Walk σ) site op, op.WellFormed → I w → (f w.state site op).2 = false →
      I { w with state := (f w.state site op).1 })
    (haccepted : ∀ (w : TxWalk σ) site op, op.WellFormed → I w.toWalk →
      (f w.state site op).2 = true → I (w.accept (f w.state site op).1 site.txid op).toWalk)
    (reserved : List Bytes) (height : ℕ) (block : CBlock) (blockundo : CBlockUndo) {s : σ}
    (h : I { state := s }) : I (walkBlock f reserved height block blockundo s) := by
  refine List.foldlRecOn (motive := I) _ _ h fun w hw p _ => ?_
  split_ifs with hroom
  · unfold walkTx
    split_ifs
    · exact hw
    · exact hw
    · refine List.foldlRecOn (motive := fun v : TxWalk σ => I v.toWalk) _ _ hw fun v hv op _ => ?_
      unfold walkOp
      split_ifs
      · exact hv
      · cases hreq : request reserved p.1 (txUndoAt blockundo p.2) v.issueCountThisTx op with
        | none => exact hv
        | some req =>
          simp only
          have hwf := request_wellFormed hreq
          split_ifs with hcalled
          · exact haccepted v ⟨p.1.hash, height, block.getBlockTime, v.txOpIndex⟩ req hwf hv hcalled
          · exact hrefused v.toWalk _ req hwf hv (Bool.eq_false_of_not_eq_true hcalled)
  · exact hw

/-- What the counters of a walk from `r` say. -/
structure WalkCounts (r : Records) (w : Walk Records) : Prop where
  sound : StoreSound w.state
  tokens : w.state.rows Key.isTokenInfo = r.rows Key.isTokenInfo + w.issueCount
  ops : w.opsCount = w.issueCount + w.txfrCount

theorem walkBlock_counts {r : Records} (hs : StoreSound r) (reserved : List Bytes) (height : ℕ)
    (block : CBlock) (blockundo : CBlockUndo) :
    WalkCounts r (walkBlock plainOp reserved height block blockundo r) := by
  refine walkBlock_induct ?_ ?_ reserved height block blockundo ⟨hs, rfl, rfl⟩
  · intro w site op hop hw hno
    unfold plainOp at hno ⊢
    cases hwrites : opWrites w.state site op with
    | none => exact ⟨hw.sound, hw.tokens, hw.ops⟩
    | some writes => simp [hwrites] at hno
  · intro w site op hop hw hyes
    unfold plainOp at hyes ⊢
    cases hwrites : opWrites w.state site op with
    | none => simp [hwrites] at hyes
    | some writes =>
      have hsound := storeSound_step hw.sound hop hwrites (undoOf w.state site op)
      have htokens := tokenRows_step hw.sound hop hwrites (undoOf w.state site op)
      have hbefore := hw.tokens
      have hops := hw.ops
      cases op with
      | issue issuance issuer =>
        refine ⟨hsound, htokens.trans ?_, ?_⟩
        · show _ + 1 = _ + (w.issueCount + 1)
          omega
        · show w.opsCount + 1 = w.issueCount + 1 + w.txfrCount
          omega
      | transfer t f d n =>
        refine ⟨hsound, htokens.trans hbefore, ?_⟩
        show w.opsCount + 1 = w.issueCount + (w.txfrCount + 1)
        omega
      | burn t f n =>
        refine ⟨hsound, htokens.trans hbefore, ?_⟩
        show w.opsCount + 1 = w.issueCount + (w.txfrCount + 1)
        omega

/-! ### The counters of the database -/

/-- The count of tokens and the count of transfers, where a scan has started them. -/
def TokenDB.counters (db : TokenDB) : Option ℕ × Option ℕ :=
  (if db.mTokenCountInitialized then some db.mTokenCountCache else none,
    if db.mTransferCountInitialized then some db.mTransferCountCache else none)

theorem SameData.counters {db db' : TokenDB} (h : SameData db db') :
    db'.counters = db.counters := by
  rw [h]
  rfl

theorem addCounts_counters (db : TokenDB) (i m : ℕ) :
    (db.addCounts i m).counters = (db.counters.1.map (· + i), db.counters.2.map (· + m)) := by
  simp only [TokenDB.counters, TokenDB.addCounts]
  split_ifs <;> rfl

theorem subCounts_counters (db : TokenDB) (i m : ℕ) :
    (db.subCounts i m).counters = (db.counters.1.map (· - i), db.counters.2.map (· - m)) := by
  simp only [TokenDB.counters, TokenDB.subCounts]
  split_ifs <;> rfl

theorem flushInfos_counters (db : TokenDB) (infos : List (TokenId × TokenInfo)) :
    (db.flushInfos infos).counters = db.counters := by
  induction infos generalizing db with
  | nil => rfl
  | cons e infos ih => exact ih (db.updateCache e.2)

theorem invalidateAll_counters (toks : List TokenId) (db : TokenDB) :
    (toks.foldl TokenDB.invalidateCache db).counters = db.counters := by
  induction toks generalizing db with
  | nil => rfl
  | cons t toks ih => exact ih (db.invalidateCache t)

/-- **The counters after a block**: its issuances and its other operations are added. -/
theorem processBlock_counters {db : TokenDB} (hc : CacheCoherent db) (hs : StoreSound db.records)
    (hfails : db.mDb.writeFails = false) (reserved : List Bytes) {block : CBlock} (height : ℕ)
    (blockundo : CBlockUndo) (hbest : db.getBestBlock ≠ block.hash) :
    (processBlock reserved db block height blockundo).1.counters =
      (db.counters.1.map
        (· + (walkBlock plainOp reserved height block blockundo db.records).issueCount),
        db.counters.2.map
          (· + (walkBlock plainOp reserved height block blockundo db.records).txfrCount)) := by
  have hsim := walkBlock_pendingSim hc hs reserved height block blockundo
  have hfails' : (walkBlock pendingOp reserved height block blockundo
      ⟨db, [], .empty⟩).state.db.mDb.writeFails = false := by
    rw [hsim.state.data.mDb]
    exact hfails
  simp only [processBlock, if_neg hbest, Database.commit_ok hfails', flushInfos_counters,
    addCounts_counters, hsim.issueCount, hsim.txfrCount]
  rw [← hsim.state.data.counters]
  rfl

/-! ### The counters of a disconnection -/

@[simp] theorem restoreInfo_undoCounts (s : Disconnect) (t : TokenId) (g : TokenInfo → TokenInfo) :
    (s.restoreInfo t g).issueUndoCount = s.issueUndoCount ∧
      (s.restoreInfo t g).txfrUndoCount = s.txfrUndoCount := by
  have hget : (s.getInfoForDisconnect t).2.issueUndoCount = s.issueUndoCount ∧
      (s.getInfoForDisconnect t).2.txfrUndoCount = s.txfrUndoCount := by
    unfold Disconnect.getInfoForDisconnect
    split <;> exact ⟨rfl, rfl⟩
  simp only [Disconnect.restoreInfo]
  split <;> exact hget

/-- An undo record counts by its kind. -/
theorem undoEntry_undoCounts (s : Disconnect) (e : OpSite × TokenUndoRecord) :
    (s.undoEntry e).issueUndoCount = s.issueUndoCount + OpLog.issues [e] ∧
      (s.undoEntry e).txfrUndoCount = s.txfrUndoCount + OpLog.moves [e] := by
  unfold Disconnect.undoEntry Disconnect.undoOp
  cases hkind : e.2.opType <;>
    simp only [Disconnect.undoIssue, Disconnect.undoTransfer, Disconnect.undoBurn,
      Disconnect.eraseTransfer, Disconnect.emit, Disconnect.invalidate, restoreInfo_undoCounts,
      OpLog.issues, OpLog.moves, List.countP_singleton, hkind] <;>
    split_ifs <;> simp_all [Disconnect.removeAddrToken, Disconnect.addAddrToken,
      Disconnect.setAddrTokens, Disconnect.emit]

theorem undoLog_undoCounts (s : Disconnect) (log : OpLog) :
    (log.foldl Disconnect.undoEntry s).issueUndoCount = s.issueUndoCount + log.issues ∧
      (log.foldl Disconnect.undoEntry s).txfrUndoCount = s.txfrUndoCount + log.moves := by
  induction log generalizing s with
  | nil => exact ⟨rfl, rfl⟩
  | cons e log ih =>
    obtain ⟨hissues, hmoves⟩ := undoEntry_undoCounts s e
    obtain ⟨ihissues, ihmoves⟩ := ih (s.undoEntry e)
    have hsplit : OpLog.issues (e :: log) = OpLog.issues [e] + OpLog.issues log ∧
        OpLog.moves (e :: log) = OpLog.moves [e] + OpLog.moves log :=
      ⟨by rw [← List.singleton_append]; exact List.countP_append,
        by rw [← List.singleton_append]; exact List.countP_append⟩
    rw [List.foldl_cons, ihissues, ihmoves, hissues, hmoves, hsplit.1, hsplit.2, Nat.add_assoc,
      Nat.add_assoc]
    exact ⟨rfl, rfl⟩

/-- **The counters after a disconnection**: what the block added is taken away. -/
theorem disconnectBlock_counters {db : TokenDB} (hc : CacheCoherent db) {r r' : Records}
    (hs : StoreSound r) {height : ℕ} (hfresh : HeightFresh r height) {time : ℤ}
    {groups : BlockGroups} (hg : GroupsOK groups)
    (happ : Applied r (blockLog height time groups) r')
    (hdb : AgreeOn (· ≠ .bestBlock) db.records
      (r'.writeBatch (blockTokensWrite height (groupTxids groups))))
    {block : CBlock} (hbest : db.getBestBlock ≠ block.hashPrevBlock) :
    ((disconnectBlock db block height).2 = true ↔ db.mDb.writeFails = false ∨ groups = []) ∧
      ((disconnectBlock db block height).2 = true → (disconnectBlock db block height).1.counters =
        (db.counters.1.map (· - (blockLog height time groups).issues),
          db.counters.2.map (· - (blockLog height time groups).moves))) := by
  by_cases hnil : groups = []
  · subst hnil
    cases happ
    rw [disconnectBlock_nil hfresh hdb hbest]
    refine ⟨by simp, fun _ => ?_⟩
    show db.counters = (db.counters.1.map fun n => n - 0, db.counters.2.map fun n => n - 0)
    simp
  · obtain ⟨s, hlog, hsim, -, heq⟩ := disconnectBlock_eq hc hs hfresh hg hnil happ hdb hbest
    obtain ⟨hissues, hmoves⟩ :=
        undoLog_undoCounts { db := db } (blockLog height time groups).reverse
    rw [← hlog] at hissues hmoves
    rw [heq]
    cases hfails : db.mDb.writeFails with
    | true =>
      rw [Database.commit_error (hsim.data.mDb ▸ hfails)]
      simp [hnil]
    | false =>
      rw [Database.commit_ok (hsim.data.mDb ▸ hfails)]
      refine ⟨by simp, fun _ => ?_⟩
      simp only [subCounts_counters, invalidateAll_counters, hissues, hmoves, Nat.zero_add]
      rw [← hsim.data.counters]
      simp only [OpLog.issues, OpLog.moves, List.countP_reverse]
      rfl

end OpenSY.Tokens
