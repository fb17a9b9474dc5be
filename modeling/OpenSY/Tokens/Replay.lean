import OpenSY.Tokens.Reorg

/-!
# Processing blocks a second time

After a crash the node may connect blocks again that the token index holds already.  The guard of
`processBlock` compares the best-block pointer with the block at hand and with nothing else, so it
catches the tip block and no earlier one.

* `Ledger.Progress` — operations only move a token forward: an accepted one raises a transfer count,
  lowers a supply or registers a token, and nothing takes that back;
* `reconnect_inert`, `reconnect_active` — hence processing blocks again leaves the token records
  alone exactly if none of their operations is accepted any more;
* `acceptedOps_eq_zero_iff` — which can be seen from the ledger before;
* `replay_idempotent_iff` — the replay of the last blocks of a chain;
* `reconnect_frame_iff` — when not even the pointer moves.
-/

namespace OpenSY.Tokens

open OpenSY.Chain OpenSY.Src20 OpenSY.KeyValueStore

/-! ### Operations move forward -/

/-- Every token of `L` is still there in `L'`, with at least as many transfers and at most as much
supply. -/
def Ledger.Progress (L L' : Ledger) : Prop :=
  ∀ t i, L.info t = some i → ∃ i', L'.info t = some i' ∧ i.transferCount ≤ i'.transferCount ∧
    i'.circulatingSupply ≤ i.circulatingSupply

theorem Ledger.Progress.refl (L : Ledger) : L.Progress L := fun _ i hi => ⟨i, hi, le_rfl, le_rfl⟩

theorem Ledger.Progress.trans {L L' L'' : Ledger} (h : L.Progress L') (h' : L'.Progress L'') :
    L.Progress L'' := by
  intro t i hi
  obtain ⟨i', hi', hcount, hsupply⟩ := h t i hi
  obtain ⟨i'', hi'', hcount', hsupply'⟩ := h' t i' hi'
  exact ⟨i'', hi'', hcount.trans hcount', hsupply'.trans hsupply⟩

/-- A change to one token, forward and not back. -/
theorem Ledger.progress_of_update {L L' : Ledger} {t : TokenId} {i j : TokenInfo}
    (hi : L.info t = some i) (hinfo : L'.info = Function.update L.info t (some j))
    (hcount : i.transferCount ≤ j.transferCount)
    (hsupply : j.circulatingSupply ≤ i.circulatingSupply)
    (hstrict : i.transferCount < j.transferCount ∨ j.circulatingSupply < i.circulatingSupply) :
    L.Progress L' ∧ ¬ L'.Progress L := by
  have hj : L'.info t = some j := by rw [hinfo, Function.update_self]
  refine ⟨?_, ?_⟩
  · intro t' i' hi'
    by_cases ht : t' = t
    · subst ht
      obtain rfl := Option.some.inj (hi.symm.trans hi')
      exact ⟨j, hj, hcount, hsupply⟩
    · exact ⟨i', by rw [hinfo, Function.update_of_ne ht, hi'], le_rfl, le_rfl⟩
  · intro hback
    obtain ⟨i', hi', hcount', hsupply'⟩ := hback t j hj
    obtain rfl := Option.some.inj (hi.symm.trans hi')
    omega

/-- **An accepted operation moves the ledger forward**, and there is no way back. -/
theorem Ledger.apply_progress {L : Ledger} (hs : Sound L) {site : OpSite} {op : TokenOp}
    (hop : op.WellFormed) (hacc : L.Accepts site op) :
    L.Progress (L.apply site op) ∧ ¬ (L.apply site op).Progress L := by
  have hinfo := L.apply_info site op
  cases op with
  | issue issuance issuer =>
    have hnew : L.info site.txid = none := hacc.2
    refine ⟨fun t i hi => ⟨i, ?_, le_rfl, le_rfl⟩, ?_⟩
    · have ht : t ≠ site.txid := by
        rintro rfl
        rw [hnew] at hi
        simp at hi
      rw [hinfo, TokenOp.token, Function.update_of_ne ht, hi]
    · intro hback
      obtain ⟨i, hi, -⟩ := hback site.txid (issueInfo issuance site)
        (by rw [hinfo, TokenOp.token, Function.update_self]; rfl)
      rw [hnew] at hi
      simp at hi
  | transfer t f d n =>
    obtain ⟨hpos, hn, -⟩ := hacc
    obtain ⟨i, hi, -⟩ := (hs.books t).registered (show 0 < L.balance t f by omega)
    simp only [Ledger.infoAfter, TokenOp.token, hi, Option.map_some] at hinfo
    split_ifs at hinfo with hfd
    · refine Ledger.progress_of_update hi hinfo ?_ le_rfl (Or.inl ?_) <;> simp [selfTransferInfo]
    · refine Ledger.progress_of_update hi hinfo ?_ ?_ (Or.inl ?_) <;> simp [transferInfo_eq]
  | burn t f n =>
    obtain ⟨-, i, hi, hle⟩ := hacc
    have hpos : 0 < n := hop
    simp only [Ledger.infoAfter, TokenOp.token, hi, Option.map_some] at hinfo
    refine Ledger.progress_of_update hi hinfo ?_ ?_ (Or.inr ?_) <;> simp only [burnInfo_eq]
    · exact le_rfl
    · exact Nat.sub_le _ _
    · omega

theorem Applied.progress {r r' : Records} {log : OpLog} (h : Applied r log r')
    (hs : StoreSound r) :
    r.ledger.Progress r'.ledger ∧ (log ≠ [] → ¬ r'.ledger.Progress r.ledger) := by
  induction h with
  | nil r => exact ⟨.refl _, fun hne => absurd rfl hne⟩
  | @cons r r' site op w log hop hw rest ih =>
    have hacc : r.ledger.Accepts site op := (opWrites_isSome_iff r site op).mp (by simp [hw])
    obtain ⟨hforth, hback⟩ := Ledger.apply_progress hs.ledger hop hacc
    obtain ⟨hrest, -⟩ := ih (storeSound_step hs hop hw _)
    rw [ledger_step hs hop hw] at hrest
    exact ⟨hforth.trans hrest, fun _ hcycle => hback (hrest.trans hcycle)⟩

/-! ### Processing one block again -/

/-- A database whose cache and records are in order and whose storage layer works. -/
structure Healthy (db : TokenDB) : Prop where
  cache : CacheCoherent db
  sound : StoreSound db.records
  writable : db.mDb.writeFails = false

theorem Reach.healthy {nHeight : Uint256 → ℕ} {root : Uint256} {chain : List BlockEntry}
    {db : TokenDB} (h : Reach nHeight root chain db) : Healthy db :=
  ⟨h.cacheCoherent, h.storeSound, h.writable⟩

/-- How many operations of a block the store accepts. -/
def acceptedOps (reserved : List Bytes) (nHeight : Uint256 → ℕ) (r : Records)
    (e : BlockEntry) : ℕ :=
  (walkBlock plainOp reserved (nHeight e.block.hash) e.block e.blockundo r).opsCount

/-! ### Blocks without an applicable operation -/

/-- What the transaction at position `i` asks for, as long as none of its operations is accepted. -/
def txRequests (reserved : List Bytes) (blockundo : CBlockUndo) (i : ℕ) (tx : CTransaction) :
    List TokenOp :=
  if tx.isCoinBase || i = 0 then []
  else if !tx.vin.isEmpty && blockundo.vtxundo.length ≤ i - 1 then []
  else (parseTransactionSRC20 reserved tx).filterMap (request reserved tx (txUndoAt blockundo i) 0)

/-- No operation that the block asks for is acceptable in the ledger: its tickers and token ids are
taken and its senders hold too little. -/
def Inapplicable (reserved : List Bytes) (nHeight : Uint256 → ℕ) (L : Ledger) (e : BlockEntry) :
    Prop :=
  ∀ p ∈ e.block.vtx.zipIdx, ∀ req ∈ txRequests reserved e.blockundo p.2 p.1,
    ¬ L.Accepts ⟨p.1.hash, nHeight e.block.hash, e.block.getBlockTime, 0⟩ req

section Idle

variable (reserved : List Bytes) (height : ℕ) (time : ℤ)

/-- One turn of the inner loop is idle exactly if what it asks for is refused. -/
theorem walkOp_idle (tx : CTransaction) (txundo : CTxUndo) (w : TxWalk Records)
    (hroom : w.opsCount < maxTokensPerBlock) (op : SRC20Operation) :
    (walkOp plainOp reserved height time tx txundo w op = w ∧
      ∀ req, request reserved tx txundo w.issueCountThisTx op = some req →
        ¬ w.state.ledger.Accepts ⟨tx.hash, height, time, w.txOpIndex⟩ req) ∨
    ((walkOp plainOp reserved height time tx txundo w op).opsCount = w.opsCount + 1 ∧
      ∃ req, request reserved tx txundo w.issueCountThisTx op = some req ∧
        w.state.ledger.Accepts ⟨tx.hash, height, time, w.txOpIndex⟩ req) := by
  rw [walkOp, if_neg (not_le.mpr hroom)]
  cases hreq : request reserved tx txundo w.issueCountThisTx op with
  | none => exact Or.inl ⟨rfl, by simp⟩
  | some req =>
    have hiff := opWrites_isSome_iff w.state ⟨tx.hash, height, time, w.txOpIndex⟩ req
    cases hw : opWrites w.state ⟨tx.hash, height, time, w.txOpIndex⟩ req with
    | none =>
      left
      simp only [plainOp, hw, Bool.false_eq_true, if_false, true_and]
      rintro req' hreq' hacc
      obtain rfl := Option.some.inj hreq'
      rw [← hiff, hw] at hacc
      simp at hacc
    | some writes =>
      right
      rw [hw] at hiff
      exact ⟨by simp [plainOp, hw], req, rfl, hiff.mp rfl⟩

theorem walkOps_idle_iff (tx : CTransaction) (txundo : CTxUndo) (ops : List SRC20Operation)
    (w : TxWalk Records) (hroom : w.opsCount < maxTokensPerBlock) :
    ((ops.foldl (walkOp plainOp reserved height time tx txundo) w).opsCount = w.opsCount ↔
      ∀ req ∈ ops.filterMap (request reserved tx txundo w.issueCountThisTx),
        ¬ w.state.ledger.Accepts ⟨tx.hash, height, time, w.txOpIndex⟩ req) ∧
    ((∀ req ∈ ops.filterMap (request reserved tx txundo w.issueCountThisTx),
        ¬ w.state.ledger.Accepts ⟨tx.hash, height, time, w.txOpIndex⟩ req) →
      ops.foldl (walkOp plainOp reserved height time tx txundo) w = w) := by
  induction ops with
  | nil => simp
  | cons op ops ih =>
    rw [List.foldl_cons]
    rcases walkOp_idle reserved height time tx txundo w hroom op with
      ⟨hidle, hrefused⟩ | ⟨hcount, req, hreq, hacc⟩
    · have hsplit : (∀ req ∈ (op :: ops).filterMap (request reserved tx txundo w.issueCountThisTx),
          ¬ w.state.ledger.Accepts ⟨tx.hash, height, time, w.txOpIndex⟩ req) ↔
          ∀ req ∈ ops.filterMap (request reserved tx txundo w.issueCountThisTx),
            ¬ w.state.ledger.Accepts ⟨tx.hash, height, time, w.txOpIndex⟩ req := by
        cases hreq : request reserved tx txundo w.issueCountThisTx op with
        | none => rw [List.filterMap_cons_none hreq]
        | some req =>
          rw [List.filterMap_cons_some hreq, List.forall_mem_cons]
          exact and_iff_right (hrefused req hreq)
      rw [hidle, hsplit]
      exact ih
    · -- one accepted operation, and the count never goes back
      have happlied : ¬ ∀ req ∈ (op :: ops).filterMap
          (request reserved tx txundo w.issueCountThisTx),
          ¬ w.state.ledger.Accepts ⟨tx.hash, height, time, w.txOpIndex⟩ req := by
        intro hall
        exact hall req (List.mem_filterMap.mpr ⟨op, List.mem_cons_self, hreq⟩) hacc
      obtain ⟨us, -, -, -, hops⟩ := walkOps_log reserved height time tx txundo ops
        (walkOp plainOp reserved height time tx txundo w op)
      refine ⟨⟨fun hcycle => ?_, fun hall => absurd hall happlied⟩, fun hall =>
        absurd hall happlied⟩
      omega

theorem walkTx_idle_iff (blockundo : CBlockUndo) (w : Walk Records)
    (hroom : w.opsCount < maxTokensPerBlock) (i : ℕ) (tx : CTransaction) :
    ((walkTx plainOp reserved height time blockundo w i tx).opsCount = w.opsCount ↔
      ∀ req ∈ txRequests reserved blockundo i tx,
        ¬ w.state.ledger.Accepts ⟨tx.hash, height, time, 0⟩ req) ∧
    ((∀ req ∈ txRequests reserved blockundo i tx,
        ¬ w.state.ledger.Accepts ⟨tx.hash, height, time, 0⟩ req) →
      walkTx plainOp reserved height time blockundo w i tx = w) := by
  unfold walkTx txRequests
  split_ifs
  · simp
  · simp
  · obtain ⟨hiff, hsame⟩ := walkOps_idle_iff reserved height time tx (txUndoAt blockundo i)
      (parseTransactionSRC20 reserved tx) ⟨w, 0, 0⟩ hroom
    exact ⟨hiff, fun hall => congrArg TxWalk.toWalk (hsame hall)⟩

theorem walkTxs_idle_iff (blockundo : CBlockUndo) (l : List (CTransaction × ℕ)) (w : Walk Records)
    (hroom : w.opsCount < maxTokensPerBlock) :
    (l.foldl (fun w p => if w.opsCount < maxTokensPerBlock then
        walkTx plainOp reserved height time blockundo w p.2 p.1 else w) w).opsCount = w.opsCount ↔
      ∀ p ∈ l, ∀ req ∈ txRequests reserved blockundo p.2 p.1,
        ¬ w.state.ledger.Accepts ⟨p.1.hash, height, time, 0⟩ req := by
  induction l with
  | nil => simp
  | cons p l ih =>
    obtain ⟨hiff, hsame⟩ := walkTx_idle_iff reserved height time blockundo w hroom p.2 p.1
    rw [List.foldl_cons, if_pos hroom, List.forall_mem_cons]
    by_cases hall : ∀ req ∈ txRequests reserved blockundo p.2 p.1,
        ¬ w.state.ledger.Accepts ⟨p.1.hash, height, time, 0⟩ req
    · rw [hsame hall, ih]
      exact (and_iff_right hall).symm
    · refine ⟨fun hcycle => ?_, fun h => absurd h.1 hall⟩
      -- the transaction was counted, and the count never goes back
      obtain ⟨us, -, -, -, hops⟩ := walkTx_log reserved height time blockundo w p.2 p.1
      obtain ⟨groups, -, -, -, -, hrest⟩ := walkBlock_log_aux reserved height time blockundo l
        (walkTx plainOp reserved height time blockundo w p.2 p.1)
      refine absurd (hiff.mp ?_) hall
      omega

end Idle

/-- **A block has no operation accepted exactly if none is applicable at the start.** -/
theorem acceptedOps_eq_zero_iff (reserved : List Bytes) (nHeight : Uint256 → ℕ) (r : Records)
    (e : BlockEntry) :
    acceptedOps reserved nHeight r e = 0 ↔ Inapplicable reserved nHeight r.ledger e :=
  walkTxs_idle_iff reserved _ _ e.blockundo e.block.vtx.zipIdx { state := r }
    (show 0 < maxTokensPerBlock by decide)

theorem plainOp_congr {P : Key → Prop} (hP : ∀ k, IsTokenKey k → P k) {r q : Records}
    (h : AgreeOn P r q) (site : OpSite) (op : TokenOp) :
    AgreeOn P (plainOp r site op).1 (plainOp q site op).1 ∧
      (plainOp r site op).2 = (plainOp q site op).2 := by
  have htoken : AgreeOn IsTokenKey r q := h.mono hP
  simp only [plainOp, opWrites_congr htoken site op, undoOf_congr htoken site op]
  split
  · exact ⟨h, rfl⟩
  · exact ⟨h.writeBatch _, rfl⟩

/-- Which operations are accepted does not depend on the best-block pointer. -/
theorem acceptedOps_congr (reserved : List Bytes) (nHeight : Uint256 → ℕ) {r q : Records}
    (h : AgreeOn (· ≠ .bestBlock) r q) (e : BlockEntry) :
    acceptedOps reserved nHeight r e = acceptedOps reserved nHeight q e :=
  (walk_simulation (R := AgreeOn (· ≠ Key.bestBlock)) (f := plainOp) (g := plainOp)
    (fun _ _ site op _ hag => plainOp_congr isTokenKey_ne_bestBlock hag site op) reserved _
    e.block e.blockundo h).opsCount

/-- **Processing a block**, for the first time or again: the records move forward; they stay as they
are, up to the best-block pointer, if no operation is accepted, and cannot come back if one is. -/
theorem Healthy.process {db : TokenDB} (h : Healthy db) (reserved : List Bytes)
    {nHeight : Uint256 → ℕ} {e : BlockEntry} (hnodup : (e.block.vtx.map CTransaction.hash).Nodup)
    (hbest : db.getBestBlock ≠ e.block.hash) {db' : TokenDB}
    (hdb' : db' = (processBlock reserved db e.block (nHeight e.block.hash) e.blockundo).1) :
    Healthy db' ∧ db'.records.read .bestBlock = some e.block.hash ∧
      db.records.ledger.Progress db'.records.ledger ∧
      (acceptedOps reserved nHeight db.records e = 0 →
        AgreeOn (· ≠ .bestBlock) db'.records db.records) ∧
      (acceptedOps reserved nHeight db.records e ≠ 0 →
        ¬ db'.records.ledger.Progress db.records.ledger) := by
  obtain ⟨-, hmDb, hcache⟩ := processBlock_spec h.cache h.sound h.writable reserved
    (nHeight e.block.hash) e.blockundo hbest
  rw [← hdb'] at hmDb hcache
  obtain ⟨groups, hg, happ, htxs, hops⟩ := walkBlock_log reserved (nHeight e.block.hash) e.block
    e.blockundo hnodup db.records
  obtain ⟨hforth, hback⟩ := happ.progress h.sound
  have hsound := happ.storeSound h.sound
  have hpointer := read_blockStore_bestBlock reserved db.records e.block (nHeight e.block.hash)
    e.blockundo
  have htoken : AgreeOn IsTokenKey (blockStore reserved db.records e.block (nHeight e.block.hash)
      e.blockundo) (walkBlock plainOp reserved (nHeight e.block.hash) e.block e.blockundo
        db.records).state := agreeOn_blockStore reserved db.records e.block _ e.blockundo
  have hrecords : db'.records = blockStore reserved db.records e.block (nHeight e.block.hash)
    e.blockundo := congrArg Database.records hmDb
  have hnil : acceptedOps reserved nHeight db.records e = 0 ↔ groups = [] := by
    rw [acceptedOps, hops, List.length_eq_zero_iff, groupTxids_eq_nil hg]
  refine ⟨⟨hcache, ?_, by rw [hmDb]⟩, ?_, ?_, ?_, ?_⟩
  · rw [hrecords]
    exact hsound.congr htoken.symm
  · rw [hrecords, hpointer]
  · rw [hrecords, ledger_congr htoken]
    exact hforth
  · intro hzero
    obtain rfl := hnil.mp hzero
    rw [hrecords, blockStore, htxs, ← happ.eq_of_nil]
    refine agreeOn_writeBatch_self _ _ ?_
    intro o ho
    simp only [blockTokensWrite, groupTxids, List.flatMap_nil, List.isEmpty_nil, if_true,
      List.nil_append, List.mem_singleton] at ho
    simp [ho, BatchOp.key]
  · intro hpos
    rw [hrecords, ledger_congr htoken]
    refine hback fun hlog => hpos (hnil.mpr ?_)
    exact blockLog_eq_nil hg hlog

/-! ### Processing several blocks again -/

/-- Connect the blocks of a chain, listed tip first, from the oldest on. -/
def connectBlocks (reserved : List Bytes) (nHeight : Uint256 → ℕ) (chain : List BlockEntry)
    (db : TokenDB) : TokenDB :=
  chain.foldr (fun e db =>
    (processBlock reserved db e.block (nHeight e.block.hash) e.blockundo).1) db

theorem ValidChain.append {nHeight : Uint256 → ℕ} {root : Uint256} {l chain : List BlockEntry}
    (h : ValidChain nHeight root (l ++ chain)) :
    ValidChain nHeight (tipHash root chain) l ∧ ValidChain nHeight root chain := by
  induction l with
  | nil => exact ⟨trivial, h⟩
  | cons e l ih =>
    obtain ⟨hl, hchain⟩ := ih h.2
    refine ⟨⟨?_, hl⟩, hchain⟩
    rw [tipHash_append]
    exact h.1

/-- Connecting a valid chain to the empty database. -/
theorem reach_connectBlocks (reserved : List Bytes) {nHeight : Uint256 → ℕ} {root : Uint256}
    {chain : List BlockEntry} (h : ValidChain nHeight root chain) :
    Reach nHeight root chain (connectBlocks reserved nHeight chain .empty) := by
  induction chain with
  | nil => exact .start
  | cons e chain ih => exact (ih h.2).connectNext h.1 reserved

theorem connectBlocks_bestBlock (reserved : List Bytes) {nHeight : Uint256 → ℕ} {root : Uint256}
    {chain : List BlockEntry} (h : ValidChain nHeight root chain) (hne : chain ≠ []) :
    (connectBlocks reserved nHeight chain .empty).getBestBlock = tipHash root chain := by
  obtain ⟨e, chain, rfl⟩ := List.exists_cons_of_ne_nil hne
  obtain ⟨r, rs, htr⟩ := (reach_connectBlocks reserved h.2).tracks
  obtain ⟨n, -, hok, -⟩ := htr.connect h.1 reserved
  exact processBlock_bestBlock (Prod.ext rfl hok)

section Reconnect

variable {nHeight : Uint256 → ℕ} {base : Uint256} {db : TokenDB} {l : List BlockEntry}

/-- Unless the pointer is at the height of the first block, none of the blocks is taken for the best
block: each is processed again. -/
theorem reconnect_healthy (h : Healthy db) (reserved : List Bytes)
    (hvalid : ValidChain nHeight base l) (hfirst : nHeight db.getBestBlock ≠ nHeight base + 1) :
    Healthy (connectBlocks reserved nHeight l db) ∧
      nHeight (connectBlocks reserved nHeight l db).getBestBlock ≠ nHeight (tipHash base l) + 1 ∧
      db.records.ledger.Progress (connectBlocks reserved nHeight l db).records.ledger := by
  induction l with
  | nil => exact ⟨h, hfirst, .refl _⟩
  | cons e l ih =>
    obtain ⟨hhealthy, hbest, hforth⟩ := ih hvalid.2
    have hne : (connectBlocks reserved nHeight l db).getBestBlock ≠ e.block.hash := by
      intro heq
      rw [heq, hvalid.1.height] at hbest
      exact hbest rfl
    have hnext : connectBlocks reserved nHeight (e :: l) db = (processBlock reserved
        (connectBlocks reserved nHeight l db) e.block (nHeight e.block.hash) e.blockundo).1 := rfl
    obtain ⟨hhealthy', hbest', hforth', -⟩ := hhealthy.process reserved hvalid.1.txids hne hnext
    refine ⟨hhealthy', ?_, hforth.trans hforth'⟩
    rw [TokenDB.getBestBlock, hbest', Option.getD_some]
    exact (Nat.succ_ne_self _).symm

theorem reconnect_step (h : Healthy db) (reserved : List Bytes) {e : BlockEntry}
    (hvalid : ValidChain nHeight base (e :: l))
    (hfirst : nHeight db.getBestBlock ≠ nHeight base + 1) :
    (connectBlocks reserved nHeight (e :: l) db).records.read .bestBlock = some e.block.hash ∧
    (connectBlocks reserved nHeight l db).records.ledger.Progress
      (connectBlocks reserved nHeight (e :: l) db).records.ledger ∧
    (acceptedOps reserved nHeight (connectBlocks reserved nHeight l db).records e = 0 →
      AgreeOn (· ≠ .bestBlock) (connectBlocks reserved nHeight (e :: l) db).records
        (connectBlocks reserved nHeight l db).records) ∧
    (acceptedOps reserved nHeight (connectBlocks reserved nHeight l db).records e ≠ 0 →
      ¬ (connectBlocks reserved nHeight (e :: l) db).records.ledger.Progress
        (connectBlocks reserved nHeight l db).records.ledger) := by
  obtain ⟨hhealthy, hbest, -⟩ := reconnect_healthy h reserved hvalid.2 hfirst
  have hne : (connectBlocks reserved nHeight l db).getBestBlock ≠ e.block.hash := by
    intro heq
    rw [heq, hvalid.1.height] at hbest
    exact hbest rfl
  exact (hhealthy.process reserved hvalid.1.txids hne rfl).2

/-- Blocks with no operation that is still accepted leave every record but the pointer alone. -/
theorem reconnect_inert (h : Healthy db) (reserved : List Bytes)
    (hvalid : ValidChain nHeight base l) (hfirst : nHeight db.getBestBlock ≠ nHeight base + 1)
    (hzero : ∀ e ∈ l, acceptedOps reserved nHeight db.records e = 0) :
    AgreeOn (· ≠ .bestBlock) (connectBlocks reserved nHeight l db).records db.records := by
  induction l with
  | nil => exact .refl _ _
  | cons e l ih =>
    have hrest := ih hvalid.2 fun e' he' => hzero e' (List.mem_cons_of_mem _ he')
    refine ((reconnect_step h reserved hvalid hfirst).2.2.1 ?_).trans hrest
    rw [acceptedOps_congr reserved nHeight hrest]
    exact hzero e List.mem_cons_self

/-- Conversely, if the ledger is where it was, no operation was accepted. -/
theorem reconnect_active (h : Healthy db) (reserved : List Bytes)
    (hvalid : ValidChain nHeight base l) (hfirst : nHeight db.getBestBlock ≠ nHeight base + 1)
    (hback : (connectBlocks reserved nHeight l db).records.ledger.Progress db.records.ledger) :
    ∀ e ∈ l, acceptedOps reserved nHeight db.records e = 0 := by
  induction l with
  | nil => simp
  | cons e l ih =>
    obtain ⟨-, hforth, -, hactive⟩ := reconnect_step h reserved hvalid hfirst
    -- the older blocks cannot have moved, since nothing later moves back
    have hrest := ih hvalid.2 (hforth.trans hback)
    have hsame := reconnect_inert h reserved hvalid.2 hfirst hrest
    intro e' he'
    rcases List.mem_cons.mp he' with rfl | he'
    · by_contra hpos
      rw [← acceptedOps_congr reserved nHeight hsame] at hpos
      refine hactive hpos ?_
      rw [ledger_congr (hsame.mono isTokenKey_ne_bestBlock)]
      exact hback
    · exact hrest e' he'

/-- **Processing blocks again leaves the token records alone exactly if none of their operations is
accepted any more.** -/
theorem reconnect_iff (h : Healthy db) (reserved : List Bytes)
    (hvalid : ValidChain nHeight base l) (hfirst : nHeight db.getBestBlock ≠ nHeight base + 1) :
    AgreeOn IsTokenKey (connectBlocks reserved nHeight l db).records db.records ↔
      ∀ e ∈ l, acceptedOps reserved nHeight db.records e = 0 := by
  refine ⟨fun hag => reconnect_active h reserved hvalid hfirst ?_, fun hzero =>
    (reconnect_inert h reserved hvalid hfirst hzero).mono isTokenKey_ne_bestBlock⟩
  rw [ledger_congr hag]
  exact .refl _

end Reconnect

/-- The guard catches the block the pointer is on. -/
theorem processBlock_again (reserved : List Bytes) {db : TokenDB} {block : CBlock}
    (hbest : db.getBestBlock = block.hash) (height : ℕ) (blockundo : CBlockUndo) :
    processBlock reserved db block height blockundo = (db, .ok 0) := by
  simp only [processBlock, if_pos hbest]

/-- **When processing blocks again changes no record at all**, for a database that is in step with
its tip: the last of the blocks is the tip block, and either it is the only one or no operation of
them is applicable any more. -/
theorem reconnect_frame_iff {nHeight : Uint256 → ℕ} {root : Uint256}
    {front again old : List BlockEntry} {db : TokenDB} (h : Healthy db) (reserved : List Bytes)
    (hvalid : ValidChain nHeight root (front ++ (again ++ old)))
    (hstep : front ++ (again ++ old) ≠ [] →
      db.records.read .bestBlock = some (tipHash root (front ++ (again ++ old)))) :
    (∀ k, (connectBlocks reserved nHeight again db).records.read k = db.records.read k) ↔
      again = [] ∨ front = [] ∧ (again.length = 1 ∨
        ∀ e ∈ again, Inapplicable reserved nHeight db.records.ledger e) := by
  cases again with
  | nil => exact ⟨fun _ => Or.inl rfl, fun _ _ => rfl⟩
  | cons e again =>
    have hpointer := hstep (by simp)
    have hbest : db.getBestBlock = tipHash root (front ++ (e :: again ++ old)) := by
      rw [TokenDB.getBestBlock, hpointer, Option.getD_some]
    by_cases hone : front = [] ∧ again = []
    · obtain ⟨rfl, rfl⟩ := hone
      have hguard : connectBlocks reserved nHeight [e] db = db :=
        congrArg Prod.fst (processBlock_again reserved hbest _ e.blockundo)
      rw [hguard]
      simp
    · obtain ⟨hagain, hold⟩ := hvalid.append.2.append
      have htip := hvalid.height
      have hlow := hold.height
      have hmid := hvalid.append.2.height
      simp only [List.length_append, List.length_cons] at htip hmid
      have hnonempty : front.length + again.length ≠ 0 := by
        intro hzero
        exact hone ⟨List.length_eq_zero_iff.mp (by omega), List.length_eq_zero_iff.mp (by omega)⟩
      have hfirst : nHeight db.getBestBlock ≠ nHeight (tipHash root old) + 1 := by
        rw [hbest, htip, hlow]
        omega
      have hafter := (reconnect_step h reserved hagain hfirst).1
      simp only [List.cons_ne_nil, false_or, ← acceptedOps_eq_zero_iff]
      constructor
      · intro hsame
        refine ⟨?_, Or.inr ((reconnect_iff h reserved hagain hfirst).mp fun k _ => hsame k)⟩
        -- the pointer is on the last block processed, so this is the tip block
        have hhash : e.block.hash = tipHash root (front ++ (e :: again ++ old)) :=
          Option.some.inj (hafter.symm.trans ((hsame .bestBlock).trans hpointer))
        have hheight : nHeight e.block.hash = nHeight root + (again.length + 1 + old.length) := hmid
        rw [hhash, htip] at hheight
        exact List.length_eq_zero_iff.mp (by omega)
      · rintro ⟨rfl, hlen | hzero⟩ k
        · simp only [List.length_cons] at hlen
          simp at hnonempty
          exact absurd (List.length_eq_zero_iff.mp (by omega)) hnonempty
        · by_cases hk : k = .bestBlock
          · rw [hk, hafter, hpointer]
            rfl
          · exact reconnect_inert h reserved hagain hfirst hzero k hk

/-- **When crash replay is idempotent.**  A chain is connected to an empty database and its last `k`
blocks are then connected again.  The token records stay as they are exactly if `k = 1`, where the
guard catches the block, or no operation of these blocks is applicable any more. -/
theorem replay_idempotent_iff (reserved : List Bytes) {nHeight : Uint256 → ℕ} {root : Uint256}
    {chain : List BlockEntry} (hvalid : ValidChain nHeight root chain) {k : ℕ} (hk : 1 ≤ k)
    (hlen : k ≤ chain.length) {db : TokenDB}
    (hdb : db = connectBlocks reserved nHeight chain .empty) :
    (∀ key, IsTokenKey key →
      (connectBlocks reserved nHeight (chain.take k) db).records.read key = db.records.read key) ↔
      k = 1 ∨ ∀ e ∈ chain.take k, Inapplicable reserved nHeight db.records.ledger e := by
  have hne : chain ≠ [] := by
    rintro rfl
    simp at hlen
    omega
  have hbest : db.getBestBlock = tipHash root chain := by
    rw [hdb]
    exact connectBlocks_bestBlock reserved hvalid hne
  by_cases hone : k = 1
  · subst hone
    obtain ⟨e, chain, rfl⟩ := List.exists_cons_of_ne_nil hne
    have hguard : connectBlocks reserved nHeight ((e :: chain).take 1) db = db :=
      congrArg Prod.fst (processBlock_again reserved hbest _ e.blockundo)
    rw [hguard]
    simp
  · have hsplit : ValidChain nHeight root (chain.take k ++ chain.drop k) := by
      rwa [List.take_append_drop]
    obtain ⟨hlast, hbefore⟩ := hsplit.append
    have hfirst : nHeight db.getBestBlock ≠ nHeight (tipHash root (chain.drop k)) + 1 := by
      rw [hbest, hvalid.height, hbefore.height, List.length_drop]
      omega
    have hhealthy : Healthy db := by
      rw [hdb]
      exact (reach_connectBlocks reserved hvalid).healthy
    simp only [or_iff_right hone, ← acceptedOps_eq_zero_iff]
    exact reconnect_iff hhealthy reserved hlast hfirst

namespace Sample

/-- Moves 6 of the 10 tokens; the 4 that are left are too few for it to happen again. -/
def spendEntry : BlockEntry where
  block := ⟨102, 101, 0,
    [coinbase 2, ⟨8, [⟨⟨6, 0⟩⟩], [⟨0, buildTransferScript ⟨7, 6⟩⟩, ⟨0, bob⟩]⟩]⟩
  blockundo := ⟨[⟨[⟨⟨0, alice⟩⟩]⟩]⟩

theorem valid_spent : ValidChain sampleHeight 100 [spendEntry, issueEntry] :=
  ⟨⟨rfl, by decide, by decide⟩, issueEntry_extends, trivial⟩

end Sample

open Sample in
/-- Both blocks are connected again, and nothing changes. -/
theorem replay_idempotent_spent :
    ValidChain sampleHeight 100 [spendEntry, issueEntry] ∧
    (connectBlocks [] sampleHeight [spendEntry, issueEntry] .empty).getBalance bob 7 = 6 ∧
    ∀ key, IsTokenKey key → (connectBlocks [] sampleHeight ([spendEntry, issueEntry].take 2)
      (connectBlocks [] sampleHeight [spendEntry, issueEntry] .empty)).records.read key =
        (connectBlocks [] sampleHeight [spendEntry, issueEntry] .empty).records.read key := by
  have hrefused : ∀ e ∈ [spendEntry, issueEntry].take 2, acceptedOps [] sampleHeight
      (connectBlocks [] sampleHeight [spendEntry, issueEntry] .empty).records e = 0 := by
    decide +kernel
  have hiff := replay_idempotent_iff [] valid_spent (k := 2) (by decide) (by decide) rfl
  exact ⟨valid_spent, by decide +kernel,
    hiff.mpr (.inr fun e he => (acceptedOps_eq_zero_iff [] sampleHeight _ e).mp (hrefused e he))⟩

/-- Two blocks, an issuance and a transfer of three units, connected and then both connected again:
the transfer happens twice. -/
theorem replay_transfers_twice :
    ValidChain Sample.sampleHeight 100 [Sample.moveEntry, Sample.issueEntry] ∧
    (connectBlocks [] Sample.sampleHeight [Sample.moveEntry, Sample.issueEntry] .empty).getBalance
      Sample.bob 7 = 3 ∧
    (connectBlocks [] Sample.sampleHeight ([Sample.moveEntry, Sample.issueEntry].take 2)
      (connectBlocks [] Sample.sampleHeight [Sample.moveEntry, Sample.issueEntry]
        .empty)).getBalance Sample.bob 7 = 6 :=
  ⟨Sample.valid_moved, by decide +kernel, by decide +kernel⟩

end OpenSY.Tokens
