import OpenSY.Tokens.Reachable

/-!
# Connecting a block from a coins view

`ProcessBlock` has a second overload, which finds the coins a block spends in a coins view instead
of the undo data of the block.  It is a copy with its own derivation of the sender and its own check
of the fee.

* `processBlockByView_eq` — whatever the view, this overload does what the first does on some undo
  data (`undoByView`), so all that is known about the first holds for it;
* `overloads_agree` — on the same coins both do the same.

The check of the fee has a case the first overload lacks: an issuance without inputs is refused.  No
block that reaches either overload has a transaction without inputs behind the first, since
`CheckTransaction` refuses it (`bad-txns-vin-empty`), and `overloads_agree` is about such blocks.
-/

namespace OpenSY.Tokens

open OpenSY.Chain OpenSY.Src20 OpenSY.KeyValueStore OpenSY.RecencyCache

/-! ### The coins of a view -/

/-- `AccessCoin`: a coin that is not there is a spent one. -/
abbrev CCoinsView : Type := COutPoint → Coin

/-- Spent coins have a null output. -/
def isSpent (c : Coin) : Bool := c.out.nValue = -1

/-- The owner of the first coin a transaction spends, the empty script if the view does not say. -/
def getSenderByView (view : Option CCoinsView) (tx : CTransaction) : CScript :=
  match view, tx.vin with
  | some accessCoin, txin :: _ =>
    if tx.isCoinBase then []
    else if isSpent (accessCoin txin.prevout) then []
    else (accessCoin txin.prevout).out.scriptPubKey
  | _, _ => []

/-- Coins spent minus coins created, of the coins the view has. -/
def txFeeByView (accessCoin : CCoinsView) (tx : CTransaction) : CAmount :=
  (((tx.vin.map fun txin => accessCoin txin.prevout).filter fun c => !isSpent c).map fun c =>
    c.out.nValue).sum -
    (tx.vout.map CTxOut.nValue).sum

/-- Whether the view shows that the fee of an issuance is paid. -/
def paysIssuanceByView (view : Option CCoinsView) (tx : CTransaction)
    (issueCountThisTx : ℕ) : Bool :=
  match view, tx.vin with
  | some accessCoin, _ :: _ =>
    minTokenIssuanceFee * (issueCountThisTx + 1) ≤ txFeeByView accessCoin tx
  -- no view, or no input to look up
  | _, _ => false

def requestByView (reserved : List Bytes) (view : Option CCoinsView) (tx : CTransaction)
    (issueCountThisTx : ℕ) (op : SRC20Operation) : Option TokenOp :=
  match op.action with
  | .issue =>
    match op.getIssuance with
    | none => none
    | some issuance =>
      if !issuance.isValid reserved then none
      else if tx.isCoinBase then none
      else if !paysIssuanceByView view tx issueCountThisTx then none
      else if (getIssuer tx).isEmpty then none
      else some (.issue issuance (getIssuer tx))
  | .transfer =>
    match op.getTransfer with
    | none => none
    | some transfer =>
      if !transfer.isValid then none
      else
        match getTransferRecipient reserved tx with
        | none => none
        | some recipient =>
          some (.transfer transfer.tokenId (getSenderByView view tx) recipient transfer.amount)
  | .burn =>
    match op.getBurn with
    | none => none
    | some burn =>
      if !burn.isValid then none
      else some (.burn burn.tokenId (getSenderByView view tx) burn.amount)
  | .invalid => none

/-! ### The walk over a block -/

section Walk

variable {σ : Type} (apply : σ → OpSite → TokenOp → σ × Bool) (reserved : List Bytes)
  (view : Option CCoinsView)

def walkOpByView (height : ℕ) (time : ℤ) (tx : CTransaction) (w : TxWalk σ)
    (op : SRC20Operation) : TxWalk σ :=
  if w.opsCount ≥ maxTokensPerBlock then w
  else
    match requestByView reserved view tx w.issueCountThisTx op with
    | none => w
    | some req =>
      let called := apply w.state ⟨tx.hash, height, time, w.txOpIndex⟩ req
      if called.2 then w.accept called.1 tx.hash req
      else { w with state := called.1 }

def walkTxByView (height : ℕ) (time : ℤ) (w : Walk σ) (txIndex : ℕ) (tx : CTransaction) : Walk σ :=
  if tx.isCoinBase || txIndex = 0 then w
  else
    ((parseTransactionSRC20 reserved tx).foldl
      (walkOpByView apply reserved view height time tx) ⟨w, 0, 0⟩).toWalk

def walkBlockByView (height : ℕ) (block : CBlock) (s : σ) : Walk σ :=
  block.vtx.zipIdx.foldl
    (fun w p =>
      if w.opsCount ≥ maxTokensPerBlock then w
      else walkTxByView apply reserved view height block.getBlockTime w p.2 p.1)
    { state := s }

end Walk

/-- `ProcessBlock(block, height, view)`; the view may be missing. -/
def processBlockByView (reserved : List Bytes) (db : TokenDB) (block : CBlock) (height : ℕ)
    (view : Option CCoinsView) : TokenDB × Except DbwrapperError ℕ :=
  if db.getBestBlock = block.hash then (db, .ok 0)
  else
    let w := walkBlockByView pendingOp reserved view height block ⟨db, [], .empty⟩
    let db := w.state.db
    let batch := w.state.batch ++ blockTokensWrite height w.blockTokenTxs ++
      [.write .bestBlock block.hash]
    match db.mDb.commit batch with
    | .error e => (db, .error e)
    | .ok mDb =>
      let db := { db with mDb := mDb }.addCounts w.issueCount w.txfrCount
      (db.flushInfos w.state.overlay.tokenInfos.entries, .ok w.opsCount)

/-! ### The same on undo data -/

/-- Undo data that lead to the same requests: spent coins are worth nothing and belong to nobody,
and where the view shows no coin, one stands in that leaves no fee. -/
def txUndoByView (view : Option CCoinsView) (tx : CTransaction) : CTxUndo :=
  match view, tx.vin with
  | some accessCoin, _ :: _ =>
    ⟨tx.vin.map fun txin =>
      if isSpent (accessCoin txin.prevout) then ⟨⟨0, []⟩⟩ else accessCoin txin.prevout⟩
  | _, _ => ⟨[⟨⟨(tx.vout.map CTxOut.nValue).sum, []⟩⟩]⟩

def undoByView (view : Option CCoinsView) (block : CBlock) : CBlockUndo :=
  ⟨block.vtx.tail.map (txUndoByView view)⟩

section Requests

variable {tx : CTransaction} (hcoinbase : tx.isCoinBase = false) (view : Option CCoinsView)
include hcoinbase

theorem getSenderByView_eq : getSenderByView view tx = getSender tx (txUndoByView view tx) := by
  unfold getSenderByView getSender txUndoByView
  cases view with
  | none => cases tx.vin <;> rfl
  | some accessCoin =>
    cases hvin : tx.vin with
    | nil => rfl
    | cons txin rest =>
      simp only [hcoinbase, List.map_cons, List.isEmpty_cons]
      split_ifs <;> rfl

omit hcoinbase in
theorem txFeeByView_eq (accessCoin : CCoinsView) :
    txFeeByView accessCoin tx = txFee tx ⟨tx.vin.map fun txin =>
      if isSpent (accessCoin txin.prevout) then ⟨⟨0, []⟩⟩ else accessCoin txin.prevout⟩ := by
  unfold txFeeByView txFee
  congr 1
  induction tx.vin with
  | nil => rfl
  | cons txin vin ih =>
    simp only [List.map_cons, List.sum_cons] at ih ⊢
    cases hspent : isSpent (accessCoin txin.prevout) with
    | true =>
      rw [List.filter_cons_of_neg (by simp [hspent]), if_pos rfl, ih]
      exact (zero_add _).symm
    | false =>
      rw [List.filter_cons_of_pos (by simp [hspent]), List.map_cons, List.sum_cons, ih]
      simp

omit hcoinbase in
theorem paysIssuanceByView_eq (n : ℕ) :
    paysIssuanceByView view tx n =
      !decide (txFee tx (txUndoByView view tx) < minTokenIssuanceFee * (n + 1)) := by
  have hnone : txFee tx ⟨[⟨⟨(tx.vout.map CTxOut.nValue).sum, []⟩⟩]⟩ <
      minTokenIssuanceFee * (n + 1) := by
    have hzero : txFee tx ⟨[⟨⟨(tx.vout.map CTxOut.nValue).sum, []⟩⟩]⟩ = 0 := by simp [txFee]
    have hfee : 0 < minTokenIssuanceFee := by decide
    rw [hzero]
    exact Int.mul_pos hfee (Int.add_pos_of_nonneg_of_pos (Int.natCast_nonneg n) Int.one_pos)
  unfold paysIssuanceByView txUndoByView
  cases view with
  | none => simp [hnone]
  | some accessCoin =>
    cases hvin : tx.vin with
    | nil => simp [hnone]
    | cons txin rest =>
      simp only [← hvin, txFeeByView_eq accessCoin, ← decide_not]
      exact decide_eq_decide.mpr not_lt.symm

theorem requestByView_eq (reserved : List Bytes) (n : ℕ) (op : SRC20Operation) :
    requestByView reserved view tx n op = request reserved tx (txUndoByView view tx) n op := by
  unfold requestByView request
  cases op.action with
  | issue =>
    cases op.getIssuance with
    | none => rfl
    | some issuance =>
      simp only [hcoinbase, paysIssuanceByView_eq, Bool.not_not, decide_eq_true_eq,
        Bool.false_eq_true, if_false]
  | transfer =>
    cases op.getTransfer with
    | none => rfl
    | some x =>
      cases getTransferRecipient reserved tx with
      | none => rfl
      | some recipient => simp only [getSenderByView_eq hcoinbase]
  | burn =>
    cases op.getBurn with
    | none => rfl
    | some x => simp only [getSenderByView_eq hcoinbase]
  | invalid => rfl

end Requests

theorem walkOpByView_eq {σ : Type} (apply : σ → OpSite → TokenOp → σ × Bool) (reserved : List Bytes)
    (view : Option CCoinsView) (height : ℕ) (time : ℤ) {tx : CTransaction}
    (hcoinbase : tx.isCoinBase = false) (w : TxWalk σ) (op : SRC20Operation) :
    walkOpByView apply reserved view height time tx w op =
      walkOp apply reserved height time tx (txUndoByView view tx) w op := by
  cases hreq : request reserved tx (txUndoByView view tx) w.issueCountThisTx op with
  | none => simp only [walkOpByView, walkOp, requestByView_eq hcoinbase, hreq]
  | some req => simp only [walkOpByView, walkOp, requestByView_eq hcoinbase, hreq]

/-- The entry of the transaction at position `i` is at `i - 1`. -/
theorem txUndoAt_undoByView (view : Option CCoinsView) {block : CBlock} {i : ℕ} {tx : CTransaction}
    (hi : 0 < i) (htx : block.vtx[i]? = some tx) :
    (undoByView view block).vtxundo[i - 1]? = some (txUndoByView view tx) := by
  obtain ⟨j, rfl⟩ : ∃ j, i = j + 1 := ⟨i - 1, by omega⟩
  show (block.vtx.tail.map (txUndoByView view))[j]? = _
  rw [List.getElem?_map, List.getElem?_tail, htx]
  rfl

/-- A transaction that is looked at, with its undo entry. -/
theorem walkTx_at {σ : Type} {apply : σ → OpSite → TokenOp → σ × Bool} {reserved : List Bytes}
    {height : ℕ} {time : ℤ} {blockundo : CBlockUndo} {w : Walk σ} {i : ℕ} {tx : CTransaction}
    {txundo : CTxUndo} (hcoinbase : tx.isCoinBase = false) (hi : 0 < i)
    (hentry : blockundo.vtxundo[i - 1]? = some txundo) :
    walkTx apply reserved height time blockundo w i tx =
      ((parseTransactionSRC20 reserved tx).foldl (walkOp apply reserved height time tx txundo)
        ⟨w, 0, 0⟩).toWalk := by
  have hlt := (List.getElem?_eq_some_iff.mp hentry).1
  have hlen : ¬(!tx.vin.isEmpty && decide (blockundo.vtxundo.length ≤ i - 1)) = true := by
    simp only [Bool.and_eq_true, decide_eq_true_eq, not_and, not_le]
    exact fun _ => hlt
  rw [walkTx, if_neg (by simp [hcoinbase, hi.ne']), if_neg hlen, txUndoAt,
    List.getD_eq_getElem?_getD, hentry]
  rfl

theorem walkBlockByView_eq {σ : Type} (apply : σ → OpSite → TokenOp → σ × Bool)
    (reserved : List Bytes) (view : Option CCoinsView) (height : ℕ) (block : CBlock) (s : σ) :
    walkBlockByView apply reserved view height block s =
      walkBlock apply reserved height block (undoByView view block) s := by
  refine List.foldl_ext _ _ _ fun w p hp => ?_
  have htx : block.vtx[p.2]? = some p.1 := List.mem_zipIdx_iff_getElem?.mp hp
  by_cases hroom : w.opsCount < maxTokensPerBlock
  · rw [if_neg (by omega), if_pos hroom, walkTxByView]
    by_cases hskip : (p.1.isCoinBase || decide (p.2 = 0)) = true
    · rw [if_pos hskip, walkTx, if_pos hskip]
    · rw [if_neg hskip]
      simp only [Bool.or_eq_true, decide_eq_true_eq, not_or, Bool.not_eq_true] at hskip
      obtain ⟨hcoinbase, hfirst⟩ := hskip
      have hpos : 0 < p.2 := Nat.pos_of_ne_zero hfirst
      rw [walkTx_at hcoinbase hpos (txUndoAt_undoByView view hpos htx)]
      refine congrArg TxWalk.toWalk (List.foldl_ext _ _ _ fun v op _ => ?_)
      exact walkOpByView_eq apply reserved view height block.getBlockTime hcoinbase v op
  · rw [if_pos (by omega), if_neg hroom]

/-- **The second overload through the first.** -/
theorem processBlockByView_eq (reserved : List Bytes) (db : TokenDB) (block : CBlock) (height : ℕ)
    (view : Option CCoinsView) :
    processBlockByView reserved db block height view =
      processBlock reserved db block height (undoByView view block) := by
  have hwalk := walkBlockByView_eq pendingOp reserved view height block ⟨db, [], .empty⟩
  by_cases hbest : db.getBestBlock = block.hash
  · rw [processBlockByView, processBlock, if_pos hbest, if_pos hbest]
  · generalize hw : walkBlock pendingOp reserved height block (undoByView view block)
      ⟨db, [], .empty⟩ = w at hwalk
    cases hcommit :
      w.state.db.mDb.commit (w.state.batch ++ blockTokensWrite height w.blockTokenTxs ++
        [.write .bestBlock block.hash]) with
    | error e => simp only [processBlockByView, processBlock, if_neg hbest, hwalk, hw, hcommit]
    | ok mDb => simp only [processBlockByView, processBlock, if_neg hbest, hwalk, hw, hcommit]

/-! ### The same coins -/

/-- The view has the coins the undo data have, for every input of every transaction after the first,
and the entry of the transaction at position `i` is at `i - 1`. -/
def SameCoins (block : CBlock) (blockundo : CBlockUndo) (accessCoin : CCoinsView) : Prop :=
  ∀ i tx, block.vtx[i]? = some tx → 0 < i → tx.isCoinBase = false →
    ∃ txundo, blockundo.vtxundo[i - 1]? = some txundo ∧
      txundo.vprevout = tx.vin.map (fun txin => accessCoin txin.prevout) ∧
      ∀ c ∈ txundo.vprevout, isSpent c = false

/-- A walk reads the entries of the transactions behind the first. -/
theorem walkBlock_congr {σ : Type} (apply : σ → OpSite → TokenOp → σ × Bool) (reserved : List Bytes)
    (height : ℕ) {block : CBlock} {blockundo blockundo' : CBlockUndo}
    (h : ∀ i tx, block.vtx[i]? = some tx → 0 < i → tx.isCoinBase = false → ∃ txundo,
      blockundo.vtxundo[i - 1]? = some txundo ∧ blockundo'.vtxundo[i - 1]? = some txundo) (s : σ) :
    walkBlock apply reserved height block blockundo s =
      walkBlock apply reserved height block blockundo' s := by
  refine List.foldl_ext _ _ _ fun w p hp => ?_
  have htx : block.vtx[p.2]? = some p.1 := List.mem_zipIdx_iff_getElem?.mp hp
  by_cases hroom : w.opsCount < maxTokensPerBlock
  · rw [if_pos hroom, if_pos hroom]
    cases hcoinbase : p.1.isCoinBase with
    | true => rw [walkTx, walkTx, hcoinbase, Bool.true_or, if_pos rfl, if_pos rfl]
    | false =>
      by_cases hfirst : p.2 = 0
      · simp [walkTx, hfirst]
      · have hpos : 0 < p.2 := Nat.pos_of_ne_zero hfirst
        obtain ⟨txundo, hentry, hentry'⟩ := h p.2 p.1 htx hpos hcoinbase
        rw [walkTx_at hcoinbase hpos hentry, walkTx_at hcoinbase hpos hentry']
  · rw [if_neg hroom, if_neg hroom]

/-- On the same coins the stand-in for the view is the undo entry itself. -/
theorem txUndoByView_sameCoins {tx : CTransaction} (hvin : tx.vin ≠ []) {accessCoin : CCoinsView}
    {txundo : CTxUndo} (hcoins : txundo.vprevout = tx.vin.map fun txin => accessCoin txin.prevout)
    (hunspent : ∀ c ∈ txundo.vprevout, isSpent c = false) :
    txUndoByView (some accessCoin) tx = txundo := by
  have hmap : (tx.vin.map fun txin =>
      if isSpent (accessCoin txin.prevout) then ⟨⟨0, []⟩⟩ else accessCoin txin.prevout) =
      txundo.vprevout := by
    rw [hcoins]
    refine List.map_congr_left fun txin hin => if_neg ?_
    have hmem : accessCoin txin.prevout ∈ txundo.vprevout := by
      rw [hcoins]
      exact List.mem_map_of_mem hin
    simp [hunspent _ hmem]
  obtain ⟨txin, rest, hcons⟩ := List.exists_cons_of_ne_nil hvin
  rw [hcons] at hmap
  simp only [txUndoByView, hcons, hmap]

/-- **The overloads agree.**  On the same coins both return the same number of operations, or the
same error, and leave the same database: records, cache, and both counters. -/
theorem overloads_agree (reserved : List Bytes) {block : CBlock}
    (hinputs : ∀ tx ∈ block.vtx.tail, tx.vin ≠ []) {blockundo : CBlockUndo}
    {accessCoin : CCoinsView} (hsame : SameCoins block blockundo accessCoin) (db : TokenDB)
    (height : ℕ) :
    processBlockByView reserved db block height (some accessCoin) =
      processBlock reserved db block height blockundo := by
  have hwalk : ∀ s : PendingBlock,
      walkBlock pendingOp reserved height block (undoByView (some accessCoin) block) s =
        walkBlock pendingOp reserved height block blockundo s := by
    refine walkBlock_congr pendingOp reserved height fun i tx htx hi hcoinbase => ?_
    obtain ⟨txundo, hentry, hcoins, hunspent⟩ := hsame i tx htx hi hcoinbase
    have hmem : tx ∈ block.vtx.tail := by
      obtain ⟨j, rfl⟩ : ∃ j, i = j + 1 := ⟨i - 1, by omega⟩
      exact List.mem_of_getElem? (List.getElem?_tail.trans htx)
    refine ⟨txundo, ?_, hentry⟩
    rw [txUndoAt_undoByView (some accessCoin) hi htx,
      txUndoByView_sameCoins (hinputs tx hmem) hcoins hunspent]
  rw [processBlockByView_eq]
  simp only [processBlock, hwalk]

/-- Every coin is worth the fee of an issuance and belongs to `alice`. -/
def Sample.feeView : CCoinsView := fun _ => ⟨⟨100 * coin, Sample.alice⟩⟩

theorem Sample.feeView_sameCoins :
    SameCoins Sample.issueEntry.block Sample.issueEntry.blockundo Sample.feeView := by
  intro i tx htx hi _
  obtain ⟨j, rfl⟩ : ∃ j, i = j + 1 := ⟨i - 1, by omega⟩
  cases j with
  | zero =>
    obtain rfl := Option.some.inj htx
    exact ⟨_, rfl, rfl, by decide⟩
  | succ j => simp [Sample.issueEntry] at htx

/-- The block with an issuance, from the undo data and from a view. -/
theorem overloads_agree_issue :
    (processBlock [] .empty Sample.issueEntry.block 1 Sample.issueEntry.blockundo).2 = .ok 1 ∧
      processBlockByView [] .empty Sample.issueEntry.block 1 (some Sample.feeView) =
        processBlock [] .empty Sample.issueEntry.block 1 Sample.issueEntry.blockundo :=
  ⟨by decide +kernel, overloads_agree [] (by decide) Sample.feeView_sameCoins .empty 1⟩

end OpenSY.Tokens
