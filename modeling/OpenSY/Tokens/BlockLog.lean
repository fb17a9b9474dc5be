import OpenSY.Tokens.Refinement

/-!
# The log of a block

Walking a block on a bare store applies some of its operations, one after the other.
`Applied r log r'` records which: the place of every accepted operation together with its undo
record, in order.

* `walkBlock_log` — the accepted operations of a block come transaction by transaction, numbered
  from zero without gaps in each, at most `maxOpsPerTx` of them, and the txids noted for the block
  are those of the log, one for each operation counted;
* `Applied.undo_of_mem` — afterwards every undo record can be read back at its place;
* `Applied.historyComplete` — a log at fresh places keeps the history complete;
* `processBlock_spec` — `processBlock` commits exactly the plain walk, with the block's two
  pointers.
-/

namespace OpenSY.Tokens

open OpenSY.Chain OpenSY.Src20 OpenSY.KeyValueStore OpenSY.RecencyCache OpenSY.Ordered

abbrev OpLog : Type := List (OpSite × TokenUndoRecord)

/-- The operations of `log` go through one after the other and lead from `r` to `r'`. -/
inductive Applied : Records → OpLog → Records → Prop
  | nil (r : Records) : Applied r [] r
  | cons {r r' : Records} {site : OpSite} {op : TokenOp} {w : CDBBatch} {log : OpLog}
      (hop : op.WellFormed) (hw : opWrites r site op = some w)
      (rest : Applied (r.writeBatch (w ++ [undoWrite site (undoOf r site op)])) log r') :
      Applied r ((site, undoOf r site op) :: log) r'

/-- The places a log writes to. -/
def OpLog.keys (log : OpLog) : List HistoryKey := log.map fun e => e.1.historyKey

@[simp] theorem keys_append (l l' : OpLog) : OpLog.keys (l ++ l') = OpLog.keys l ++ OpLog.keys l' :=
  List.map_append

theorem Applied.append {r r' r'' : Records} {l l' : OpLog} (h : Applied r l r')
    (h' : Applied r' l' r'') : Applied r (l ++ l') r'' := by
  induction h with
  | nil r => exact h'
  | cons hop hw _ ih => exact .cons hop hw (ih h')

theorem Applied.eq_of_nil {r r' : Records} (h : Applied r [] r') : r = r' := by
  cases h
  rfl

theorem storeSound_step {r : Records} (h : StoreSound r) {site : OpSite} {op : TokenOp}
    (hop : op.WellFormed) {w : CDBBatch} (hw : opWrites r site op = some w)
    (u : TokenUndoRecord) : StoreSound (r.writeBatch (w ++ [undoWrite site u])) := by
  rw [writeBatch_append]
  exact (h.opWrites hop hw).congr (agreeOn_undoWrite _ site u).symm

theorem Applied.storeSound {r r' : Records} {log : OpLog} (h : Applied r log r')
    (hs : StoreSound r) : StoreSound r' := by
  induction h with
  | nil r => exact hs
  | cons hop hw _ ih => exact ih (storeSound_step hs hop hw _)

/-! ### What one operation touches -/

/-- The history changes at the place of the operation only. -/
theorem Ledger.apply_history_of_ne (L : Ledger) (site : OpSite) (op : TokenOp) (t : TokenId)
    {k : HistoryKey} (hk : k ≠ site.historyKey) :
    (L.apply site op).history t k = L.history t k := by
  rw [Ledger.apply_history]
  by_cases ht : t = op.token site
  · subst ht
    rw [Function.update_self, Function.update_of_ne hk]
  · rw [Function.update_of_ne ht]

section Step

variable {r : Records} {site : OpSite} {op : TokenOp} {w : CDBBatch}

theorem read_step_undo (hw : opWrites r site op = some w) (u : TokenUndoRecord) (h : ℕ)
    (x : Uint256) (i : ℕ) :
    Store.read (r.writeBatch (w ++ [undoWrite site u])) (.undo h x i) =
      if (h, x, i) = site.historyKey then some u else r.read (.undo h x i) := by
  have hframe : Store.read (r.writeBatch w) (.undo h x i) = r.read (.undo h x i) :=
    read_writeBatch_of_forall_ne r w _ fun o ho hkey => by
      have htoken := opWrites_isTokenKey hw o ho
      rw [hkey] at htoken
      exact htoken
  rw [writeBatch_append, writeBatch_cons, writeBatch_nil, undoWrite, read_write_undo, hframe]
  simp [OpSite.historyKey]

/-- Block pointers are no business of a single operation. -/
theorem read_step_of_pointer (hw : opWrites r site op = some w) (u : TokenUndoRecord) {k : Key}
    (htoken : ¬ IsTokenKey k) (hundo : ∀ h x i, k ≠ .undo h x i) :
    Store.read (r.writeBatch (w ++ [undoWrite site u])) k = r.read k := by
  refine read_writeBatch_of_forall_ne r _ k ?_
  intro o ho hkey
  rcases List.mem_append.mp ho with ho | ho
  · exact htoken (hkey ▸ opWrites_isTokenKey hw o ho)
  · rw [List.mem_singleton.mp ho] at hkey
    exact hundo _ _ _ hkey.symm

theorem ledger_step (hs : StoreSound r) (hop : op.WellFormed) (hw : opWrites r site op = some w)
    (u : TokenUndoRecord) :
    Records.ledger (r.writeBatch (w ++ [undoWrite site u])) = r.ledger.apply site op := by
  rw [writeBatch_append, ← (writeBatch_opWrites hs hop hw).1]
  exact ledger_congr (agreeOn_undoWrite _ site u)

end Step

/-! ### What a log touches -/

theorem Applied.read_of_pointer {r r' : Records} {log : OpLog} (h : Applied r log r') {k : Key}
    (htoken : ¬ IsTokenKey k) (hundo : ∀ h x i, k ≠ .undo h x i) : r'.read k = r.read k := by
  induction h with
  | nil r => rfl
  | cons hop hw _ ih => rw [ih, read_step_of_pointer hw _ htoken hundo]

theorem Applied.undo_of_notMem {r r' : Records} {log : OpLog} (h : Applied r log r')
    {k : HistoryKey} (hk : k ∉ OpLog.keys log) :
    r'.read (.undo k.1 k.2.1 k.2.2) = r.read (.undo k.1 k.2.1 k.2.2) := by
  induction h with
  | nil r => rfl
  | cons hop hw _ ih =>
    simp only [OpLog.keys, List.map_cons, List.mem_cons, not_or] at hk
    rw [ih hk.2, read_step_undo hw, if_neg hk.1]

/-- **Every undo record can be read back at its place.** -/
theorem Applied.undo_of_mem {r r' : Records} {log : OpLog} (h : Applied r log r')
    (hnodup : (OpLog.keys log).Nodup) {site : OpSite} {u : TokenUndoRecord}
    (hmem : (site, u) ∈ log) :
    r'.read (.undo site.height site.txid site.opIndex) = some u := by
  induction h with
  | nil r => simp at hmem
  | cons hop hw rest ih =>
    simp only [OpLog.keys, List.map_cons, List.nodup_cons] at hnodup
    rcases List.mem_cons.mp hmem with heq | hmem
    · -- written by the first operation, and by no later one
      obtain ⟨rfl, rfl⟩ := Prod.mk.inj heq
      have hlast := rest.undo_of_notMem hnodup.1
      simp only [OpSite.historyKey] at hlast
      rw [hlast, read_step_undo hw]
      exact if_pos rfl
    · exact ih hnodup.2 hmem

theorem Applied.history_of_notMem {r r' : Records} {log : OpLog} (h : Applied r log r')
    (hs : StoreSound r) (t : TokenId) {k : HistoryKey} (hk : k ∉ OpLog.keys log) :
    r'.ledger.history t k = r.ledger.history t k := by
  induction h with
  | nil r => rfl
  | cons hop hw _ ih =>
    simp only [OpLog.keys, List.map_cons, List.mem_cons, not_or] at hk
    rw [ih (storeSound_step hs hop hw _) hk.2, ledger_step hs hop hw,
      Ledger.apply_history_of_ne _ _ _ _ hk.1]

/-- Nothing is stored at the places of `keys` yet. -/
def FreshAt (r : Records) (keys : List HistoryKey) : Prop :=
  ∀ k ∈ keys, (∀ t, r.ledger.history t k = none) ∧ r.read (.undo k.1 k.2.1 k.2.2) = none

/-- After one operation the remaining places are still fresh. -/
theorem FreshAt.step {r : Records} {site : OpSite} {op : TokenOp} {w : CDBBatch}
    {keys : List HistoryKey} (hf : FreshAt r (site.historyKey :: keys)) (hs : StoreSound r)
    (hop : op.WellFormed) (hw : opWrites r site op = some w) (hnew : site.historyKey ∉ keys)
    (u : TokenUndoRecord) : FreshAt (r.writeBatch (w ++ [undoWrite site u])) keys := by
  intro k hk
  have hne : k ≠ site.historyKey := by
    rintro rfl
    exact hnew hk
  obtain ⟨hhist, hundo⟩ := hf k (List.mem_cons_of_mem _ hk)
  refine ⟨?_, ?_⟩
  · intro t
    rw [ledger_step hs hop hw, Ledger.apply_history_of_ne _ _ _ _ hne]
    exact hhist t
  · rw [read_step_undo hw, if_neg hne]
    exact hundo

/-- **A log at fresh places keeps the history complete.** -/
theorem Applied.historyComplete {r r' : Records} {log : OpLog} (h : Applied r log r')
    (hs : StoreSound r) (hh : HistoryComplete r.ledger) (hf : FreshAt r (OpLog.keys log))
    (hnodup : (OpLog.keys log).Nodup) : HistoryComplete r'.ledger := by
  induction h with
  | nil r => exact hh
  | @cons r r' site op w log hop hw _ ih =>
    simp only [OpLog.keys, List.map_cons, List.nodup_cons] at hnodup
    have hacc : r.ledger.Accepts site op := (opWrites_isSome_iff r site op).mp (by simp [hw])
    refine ih (storeSound_step hs hop hw _) ?_ (hf.step hs hop hw hnodup.1 _) hnodup.2
    rw [ledger_step hs hop hw]
    exact hh.apply hs.ledger hop hacc ((hf _ List.mem_cons_self).1 _)

/-! ### The log of a transaction and of a block -/

/-- Undo records of one transaction, numbered from `k`. -/
def txLog (height : ℕ) (time : ℤ) (txid : Uint256) : ℕ → List TokenUndoRecord → OpLog
  | _, [] => []
  | k, u :: us => (⟨txid, height, time, k⟩, u) :: txLog height time txid (k + 1) us

/-- The undo records of a block, transaction by transaction. -/
abbrev BlockGroups : Type := List (Uint256 × List TokenUndoRecord)

def blockLog (height : ℕ) (time : ℤ) (groups : BlockGroups) : OpLog :=
  groups.flatMap fun g => txLog height time g.1 0 g.2

/-- One txid for every operation. -/
def groupTxids (groups : BlockGroups) : List Uint256 :=
  groups.flatMap fun g => List.replicate g.2.length g.1

section Accept

variable {σ : Type} (w : TxWalk σ) (s : σ) (txid : Uint256) (op : TokenOp)

@[simp] theorem accept_state : (w.accept s txid op).state = s := by
  cases op <;> rfl

@[simp] theorem accept_opsCount : (w.accept s txid op).opsCount = w.opsCount + 1 := by
  cases op <;> rfl

@[simp] theorem accept_txOpIndex : (w.accept s txid op).txOpIndex = w.txOpIndex + 1 := by
  cases op <;> rfl

@[simp] theorem accept_blockTokenTxs :
    (w.accept s txid op).blockTokenTxs = w.blockTokenTxs ++ [txid] := by
  cases op <;> rfl

end Accept

/-- **One turn of the inner loop** on a bare store: it leaves the walk alone or accepts one
operation. -/
theorem walkOp_plainOp_cases (reserved : List Bytes) (height : ℕ) (time : ℤ) (tx : CTransaction)
    (txundo : CTxUndo) (w : TxWalk Records) (op : SRC20Operation) :
    walkOp plainOp reserved height time tx txundo w op = w ∨
    ∃ req writes, request reserved tx txundo w.issueCountThisTx op = some req ∧
      opWrites w.state ⟨tx.hash, height, time, w.txOpIndex⟩ req = some writes ∧
      walkOp plainOp reserved height time tx txundo w op =
        w.accept (Store.writeBatch w.state (writes ++
          [undoWrite ⟨tx.hash, height, time, w.txOpIndex⟩
            (undoOf w.state ⟨tx.hash, height, time, w.txOpIndex⟩ req)])) tx.hash req := by
  unfold walkOp
  split_ifs with hfull
  · exact Or.inl rfl
  · cases hreq : request reserved tx txundo w.issueCountThisTx op with
    | none => exact Or.inl rfl
    | some req =>
      cases hw : opWrites w.state ⟨tx.hash, height, time, w.txOpIndex⟩ req with
      | none =>
        left
        simp [plainOp, hw]
      | some writes => exact Or.inr ⟨req, writes, rfl, hw, by simp [plainOp, hw]⟩

theorem walkOps_log (reserved : List Bytes) (height : ℕ) (time : ℤ) (tx : CTransaction)
    (txundo : CTxUndo) (ops : List SRC20Operation) (w : TxWalk Records) :
    ∃ us : List TokenUndoRecord, us.length ≤ ops.length ∧
      Applied w.state (txLog height time tx.hash w.txOpIndex us)
        (ops.foldl (walkOp plainOp reserved height time tx txundo) w).state ∧
      (ops.foldl (walkOp plainOp reserved height time tx txundo) w).blockTokenTxs =
        w.blockTokenTxs ++ List.replicate us.length tx.hash ∧
      (ops.foldl (walkOp plainOp reserved height time tx txundo) w).opsCount =
        w.opsCount + us.length := by
  induction ops generalizing w with
  | nil => exact ⟨[], le_rfl, .nil _, by simp, rfl⟩
  | cons op ops ih =>
    rw [List.foldl_cons]
    rcases walkOp_plainOp_cases reserved height time tx txundo w op with
      hsame | ⟨req, writes, hreq, hw, hstep⟩
    · obtain ⟨us, hlen, happ, htxs, hops⟩ := ih w
      rw [hsame]
      exact ⟨us, by rw [List.length_cons]; omega, happ, htxs, hops⟩
    · rw [hstep]
      obtain ⟨us, hlen, happ, htxs, hops⟩ := ih (w.accept (Store.writeBatch w.state (writes ++
        [undoWrite ⟨tx.hash, height, time, w.txOpIndex⟩
          (undoOf w.state ⟨tx.hash, height, time, w.txOpIndex⟩ req)])) tx.hash req)
      rw [accept_state, accept_txOpIndex] at happ
      refine ⟨undoOf w.state ⟨tx.hash, height, time, w.txOpIndex⟩ req :: us,
        Nat.succ_le_succ hlen, .cons (request_wellFormed hreq) hw happ, ?_, ?_⟩
      · rw [htxs, accept_blockTokenTxs, List.length_cons, List.replicate_succ, List.append_assoc,
          List.singleton_append]
      · rw [hops, accept_opsCount, List.length_cons]
        omega

theorem walkTx_log (reserved : List Bytes) (height : ℕ) (time : ℤ) (blockundo : CBlockUndo)
    (w : Walk Records) (i : ℕ) (tx : CTransaction) :
    ∃ us : List TokenUndoRecord, us.length ≤ maxOpsPerTx ∧
      Applied w.state (txLog height time tx.hash 0 us)
        (walkTx plainOp reserved height time blockundo w i tx).state ∧
      (walkTx plainOp reserved height time blockundo w i tx).blockTokenTxs =
        w.blockTokenTxs ++ List.replicate us.length tx.hash ∧
      (walkTx plainOp reserved height time blockundo w i tx).opsCount =
        w.opsCount + us.length := by
  unfold walkTx
  split_ifs
  · exact ⟨[], Nat.zero_le _, .nil _, by simp, rfl⟩
  · exact ⟨[], Nat.zero_le _, .nil _, by simp, rfl⟩
  · obtain ⟨us, hlen, happ, htxs, hops⟩ :=
      walkOps_log reserved height time tx (txUndoAt blockundo i)
      (parseTransactionSRC20 reserved tx) ⟨w, 0, 0⟩
    exact ⟨us, hlen.trans (parseTransactionSRC20_length_le reserved tx), happ, htxs, hops⟩

/-- A well-shaped grouping: no group is empty or too long, and no txid has two groups. -/
structure GroupsOK (groups : BlockGroups) : Prop where
  nodup : (groups.map Prod.fst).Nodup
  nonempty : ∀ g ∈ groups, g.2 ≠ []
  bounded : ∀ g ∈ groups, g.2.length ≤ maxOpsPerTx

theorem walkBlock_log_aux (reserved : List Bytes) (height : ℕ) (time : ℤ) (blockundo : CBlockUndo)
    (l : List (CTransaction × ℕ)) (w : Walk Records) :
    ∃ groups : BlockGroups,
      (groups.map Prod.fst).Sublist (l.map fun p => p.1.hash) ∧
      (∀ g ∈ groups, g.2 ≠ [] ∧ g.2.length ≤ maxOpsPerTx) ∧
      Applied w.state (blockLog height time groups) (l.foldl (fun w p =>
        if w.opsCount < maxTokensPerBlock then
          walkTx plainOp reserved height time blockundo w p.2 p.1 else w) w).state ∧
      (l.foldl (fun w p => if w.opsCount < maxTokensPerBlock then
          walkTx plainOp reserved height time blockundo w p.2 p.1 else w) w).blockTokenTxs =
        w.blockTokenTxs ++ groupTxids groups ∧
      (l.foldl (fun w p => if w.opsCount < maxTokensPerBlock then
          walkTx plainOp reserved height time blockundo w p.2 p.1 else w) w).opsCount =
        w.opsCount + (groupTxids groups).length := by
  induction l generalizing w with
  | nil => exact ⟨[], List.Sublist.slnil, by simp, .nil _, by simp [groupTxids], rfl⟩
  | cons p l ih =>
    rw [List.foldl_cons]
    split_ifs with hroom
    · obtain ⟨us, hlen, happ, htxs, hops⟩ := walkTx_log reserved height time blockundo w p.2 p.1
      obtain ⟨groups, hsub, hok, happ', htxs', hops'⟩ :=
        ih (walkTx plainOp reserved height time blockundo w p.2 p.1)
      rw [htxs', htxs, hops', hops]
      by_cases hus : us = []
      · subst hus
        refine ⟨groups, hsub.cons _, hok, ?_, by simp, by simp⟩
        simpa [txLog] using happ.append happ'
      · refine ⟨(p.1.hash, us) :: groups, hsub.cons_cons _, ?_, happ.append happ', ?_, ?_⟩
        · intro g hg
          rcases List.mem_cons.mp hg with rfl | hg
          · exact ⟨hus, hlen⟩
          · exact hok g hg
        · simp [groupTxids]
        · simp [groupTxids]
          omega
    · obtain ⟨groups, hsub, hok, happ, htxs, hops⟩ := ih w
      exact ⟨groups, hsub.cons _, hok, happ, htxs, hops⟩

/-- **The log of a block.** -/
theorem walkBlock_log (reserved : List Bytes) (height : ℕ) (block : CBlock)
    (blockundo : CBlockUndo) (hnodup : (block.vtx.map CTransaction.hash).Nodup) (r : Records) :
    ∃ groups : BlockGroups, GroupsOK groups ∧
      Applied r (blockLog height block.getBlockTime groups)
        (walkBlock plainOp reserved height block blockundo r).state ∧
      (walkBlock plainOp reserved height block blockundo r).blockTokenTxs = groupTxids groups ∧
      (walkBlock plainOp reserved height block blockundo r).opsCount =
        (groupTxids groups).length := by
  obtain ⟨groups, hsub, hok, happ, htxs, hops⟩ :=
    walkBlock_log_aux reserved height block.getBlockTime blockundo block.vtx.zipIdx { state := r }
  have hmap : (block.vtx.zipIdx.map fun p => p.1.hash) = block.vtx.map CTransaction.hash := by
    rw [← List.zipIdx_map_fst 0 block.vtx, List.map_map, List.zipIdx_map_fst]
    rfl
  rw [hmap] at hsub
  exact ⟨groups, ⟨hsub.nodup hnodup, fun g hg => (hok g hg).1, fun g hg => (hok g hg).2⟩, happ,
    htxs, by rw [← Nat.zero_add (groupTxids groups).length]; exact hops⟩

/-! ### What `processBlock` commits -/

theorem key_of_mem_blockTokensWrite {height : ℕ} {txids : List Uint256} {o : BatchOp Value}
    (ho : o ∈ blockTokensWrite height txids) : o.key = .blockTokens height := by
  unfold blockTokensWrite at ho
  split_ifs at ho
  · exact absurd ho List.not_mem_nil
  · rw [List.mem_singleton.mp ho]
    rfl

/-- The committed store after a block: the plain walk and the two block pointers. -/
def blockStore (reserved : List Bytes) (r : Records) (block : CBlock) (height : ℕ)
    (blockundo : CBlockUndo) : Records :=
  let v := walkBlock plainOp reserved height block blockundo r
  Store.writeBatch v.state
    (blockTokensWrite height v.blockTokenTxs ++ [.write .bestBlock block.hash])

theorem agreeOn_blockStore (reserved : List Bytes) (r : Records) (block : CBlock) (height : ℕ)
    (blockundo : CBlockUndo) :
    AgreeOn IsTokenKey (blockStore reserved r block height blockundo)
      (walkBlock plainOp reserved height block blockundo r).state := by
  refine agreeOn_writeBatch_self _ _ ?_
  intro o ho
  rcases List.mem_append.mp ho with ho | ho
  · rw [key_of_mem_blockTokensWrite ho]
    exact not_false
  · rw [List.mem_singleton.mp ho]
    exact not_false

theorem mem_flushInfos {infos : List (TokenId × TokenInfo)} {db : TokenDB}
    {q : TokenId × TokenInfo} (hq : q ∈ (db.flushInfos infos).mTokenCache.entries) :
    (∃ e ∈ infos, q = (e.2.tokenId, e.2)) ∨
      (q ∈ db.mTokenCache.entries ∧ ∀ e ∈ infos, q.1 ≠ e.2.tokenId) := by
  induction infos generalizing db with
  | nil => exact Or.inr ⟨hq, by simp⟩
  | cons e infos ih =>
    change q ∈ ((db.updateCache e.2).flushInfos infos).mTokenCache.entries at hq
    rcases ih hq with ⟨e', he', rfl⟩ | ⟨hold, hne⟩
    · exact Or.inl ⟨e', List.mem_cons_of_mem _ he', rfl⟩
    · rcases LRUCache.mem_insert hold with rfl | ⟨hold, hkey⟩
      · exact Or.inl ⟨e, List.mem_cons_self, rfl⟩
      · refine Or.inr ⟨hold, ?_⟩
        intro e' he'
        rcases List.mem_cons.mp he' with rfl | he'
        · exact hkey
        · exact hne e' he'

@[simp] theorem flushInfos_mDb (db : TokenDB) (infos : List (TokenId × TokenInfo)) :
    (db.flushInfos infos).mDb = db.mDb := by
  induction infos generalizing db with
  | nil => rfl
  | cons e infos ih => exact ih (db.updateCache e.2)

/-- Flushing the overlay leaves the cache coherent with the store the block stood for. -/
theorem PendingSim.flush {db₀ : TokenDB} {p : PendingBlock} {r : Records}
    (h : PendingSim db₀ p r) {db' : TokenDB} (hcache : db'.mTokenCache = p.db.mTokenCache)
    (hrecords : ∀ t, Store.read db'.records (.tokenInfo t) = r.info t) :
    CacheCoherent (db'.flushInfos p.overlay.tokenInfos.entries) := by
  have hentry : ∀ e ∈ p.overlay.tokenInfos.entries,
      r.info e.1 = some e.2 ∧ e.2.tokenId = e.1 := by
    intro e he
    have hfind := (p.overlay.tokenInfos.mem_entries_iff e.1 e.2).mp he
    have hinfo : r.info e.1 = some e.2 := by rw [← h.view.info e.1, hfind, Option.some_or]
    exact ⟨hinfo, (h.sound.infoWF e.1 e.2 hinfo).1⟩
  intro q hq
  rw [TokenDB.records, flushInfos_mDb]
  show Store.read db'.records (.tokenInfo q.1) = some q.2
  rw [hrecords]
  rcases mem_flushInfos hq with ⟨e, he, rfl⟩ | ⟨hold, hne⟩
  · obtain ⟨hinfo, hid⟩ := hentry e he
    rw [hid]
    exact hinfo
  · -- not touched by the block: still what the database held
    rw [hcache] at hold
    have hfind : p.overlay.tokenInfos.find q.1 = none := by
      cases hf : p.overlay.tokenInfos.find q.1 with
      | none => rfl
      | some i =>
        have he := (p.overlay.tokenInfos.mem_entries_iff q.1 i).mpr hf
        exact absurd (hentry _ he).2.symm (hne _ he)
    rw [← h.view.info q.1, hfind, Option.none_or]
    exact h.cache q hold

/-- **`processBlock` commits exactly the plain walk.** -/
theorem processBlock_spec {db : TokenDB} (hc : CacheCoherent db) (hs : StoreSound db.records)
    (hfails : db.mDb.writeFails = false) (reserved : List Bytes) {block : CBlock} (height : ℕ)
    (blockundo : CBlockUndo) (hbest : db.getBestBlock ≠ block.hash) :
    (processBlock reserved db block height blockundo).2 =
        .ok (walkBlock plainOp reserved height block blockundo db.records).opsCount ∧
      (processBlock reserved db block height blockundo).1.mDb =
        ⟨blockStore reserved db.records block height blockundo, false⟩ ∧
      CacheCoherent (processBlock reserved db block height blockundo).1 := by
  have hsim := walkBlock_pendingSim hc hs reserved height block blockundo
  have hfails' : (walkBlock pendingOp reserved height block blockundo
      ⟨db, [], .empty⟩).state.db.mDb.writeFails = false := by
    rw [hsim.state.data.mDb]
    exact hfails
  simp only [processBlock, if_neg hbest, Database.commit_ok hfails', hsim.opsCount,
    flushInfos_mDb, true_and]
  have hstore : Store.writeBatch (walkBlock pendingOp reserved height block blockundo
      ⟨db, [], .empty⟩).state.db.records ((walkBlock pendingOp reserved height block blockundo
        ⟨db, [], .empty⟩).state.batch ++ blockTokensWrite height (walkBlock pendingOp reserved
        height block blockundo ⟨db, [], .empty⟩).blockTokenTxs ++ [.write .bestBlock block.hash]) =
      blockStore reserved db.records block height blockundo := by
    rw [List.append_assoc, writeBatch_append, hsim.state.batch, hsim.blockTokenTxs]
    rfl
  refine ⟨by rw [← hstore]; rfl, hsim.state.flush rfl ?_⟩
  intro t
  show Store.read (Store.writeBatch _ _) _ = _
  rw [hstore]
  exact agreeOn_blockStore reserved db.records block height blockundo (.tokenInfo t) trivial

/-- A call that fails has read, and nothing else. -/
theorem processBlock_error {db : TokenDB} (hc : CacheCoherent db) (hs : StoreSound db.records)
    (hfails : db.mDb.writeFails = true) (reserved : List Bytes) {block : CBlock} (height : ℕ)
    (blockundo : CBlockUndo) (hbest : db.getBestBlock ≠ block.hash) :
    (processBlock reserved db block height blockundo).2 = .error .writeFailed ∧
      SameData db (processBlock reserved db block height blockundo).1 ∧
      CacheCoherent (processBlock reserved db block height blockundo).1 := by
  have hsim := walkBlock_pendingSim hc hs reserved height block blockundo
  simp only [processBlock, if_neg hbest, Database.commit_error (hsim.state.data.mDb ▸ hfails)]
  exact ⟨trivial, hsim.state.data, hsim.state.cache⟩

end OpenSY.Tokens
