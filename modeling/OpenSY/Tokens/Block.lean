import OpenSY.Tokens.Operations

/-!
# Connecting a block

`processBlock` walks the transactions of a block, works out which operation each parsed payload asks
for (`request`: who pays, who receives, whether the fee suffices) and applies it.  Which of them are
applied depends on the ones before: at most `maxTokensPerBlock` in a block, and an issuance fee that
grows with the issuances already accepted from the same transaction.

The walk itself (`walkBlock`) does not depend on how an operation is applied, so it takes that as an
argument.  `processBlock` walks with `pendingOp`, which collects everything in one batch behind an
overlay and also writes the undo records; `immediateOp` applies the same operations one committed
batch at a time.
-/

namespace OpenSY.Tokens

open OpenSY.Chain OpenSY.Src20 OpenSY.KeyValueStore OpenSY.RecencyCache OpenSY.Ordered

/-! ### What a transaction asks for -/

/-- An operation together with the parties its transaction determines. -/
inductive TokenOp where
  | issue (issuance : TokenIssuance) (issuer : CScript)
  | transfer (tokenId : TokenId) (fromAddr toAddr : CScript) (amount : ℕ)
  | burn (tokenId : TokenId) (fromAddr : CScript) (amount : ℕ)
  deriving DecidableEq

/-- What the transaction leaves to the miner: coins spent minus coins created. -/
def txFee (tx : CTransaction) (txundo : CTxUndo) : CAmount :=
  (txundo.vprevout.map fun prev => prev.out.nValue).sum - (tx.vout.map CTxOut.nValue).sum

/-- The first output that can be spent, the empty script if there is none. -/
def getIssuer (tx : CTransaction) : CScript :=
  ((tx.vout.map CTxOut.scriptPubKey).find? fun script => !isUnspendable script).getD []

/-- The owner of the first coin a transaction spends. -/
def getSender (tx : CTransaction) (txundo : CTxUndo) : CScript :=
  if tx.vin.isEmpty then []
  else
    match txundo.vprevout with
    | prev :: _ => prev.out.scriptPubKey
    | [] => []

/-- The operation a parsed payload stands for, if it passes the checks that do not look at the
token state. -/
def request (reserved : List Bytes) (tx : CTransaction) (txundo : CTxUndo) (issueCountThisTx : ℕ)
    (op : SRC20Operation) : Option TokenOp :=
  match op.action with
  | .issue =>
    match op.getIssuance with
    | none => none
    | some issuance =>
      if !issuance.isValid reserved then none
      -- the n-th issuance of a transaction needs n times the fee
      else if txFee tx txundo < minTokenIssuanceFee * (issueCountThisTx + 1) then none
      else if (getIssuer tx).isEmpty then none
      else some (.issue issuance (getIssuer tx))
  | .transfer =>
    match op.getTransfer with
    | none => none
    | some transfer =>
      if !transfer.isValid then none
      else
        match getTransferRecipient reserved tx with
        | none => none
        | some recipient =>
          some (.transfer transfer.tokenId (getSender tx txundo) recipient transfer.amount)
  | .burn =>
    match op.getBurn with
    | none => none
    | some burn =>
      if !burn.isValid then none
      else some (.burn burn.tokenId (getSender tx txundo) burn.amount)
  | .invalid => none

/-- **What a transaction can ask for**, and from whom. -/
theorem request_cases {reserved : List Bytes} {tx : CTransaction} {txundo : CTxUndo} {n : ℕ}
    {op : SRC20Operation} {req : TokenOp} (h : request reserved tx txundo n op = some req) :
    (∃ issuance, op.action = .issue ∧ issuance.isValid reserved = true ∧ getIssuer tx ≠ [] ∧
      req = .issue issuance (getIssuer tx)) ∨
    (∃ x recipient, op.action = .transfer ∧ op.getTransfer = some x ∧ x.isValid = true ∧
      getTransferRecipient reserved tx = some recipient ∧
      req = .transfer x.tokenId (getSender tx txundo) recipient x.amount) ∨
    ∃ x, op.action = .burn ∧ op.getBurn = some x ∧ x.isValid = true ∧
      req = .burn x.tokenId (getSender tx txundo) x.amount := by
  unfold request at h
  cases haction : op.action with
  | issue =>
    rw [haction] at h
    left
    cases hdata : op.getIssuance with
    | none => simp [hdata] at h
    | some issuance =>
      simp only [hdata] at h
      split_ifs at h with hvalid hfee hissuer
      exact ⟨issuance, rfl, by simpa using hvalid, by simpa using hissuer, (Option.some.inj h).symm⟩
  | transfer =>
    rw [haction] at h
    right; left
    cases hdata : op.getTransfer with
    | none => simp [hdata] at h
    | some x =>
      simp only [hdata] at h
      split_ifs at h with hvalid
      cases hrecipient : getTransferRecipient reserved tx with
      | none => simp [hrecipient] at h
      | some recipient =>
        rw [hrecipient] at h
        exact ⟨x, recipient, rfl, rfl, by simpa using hvalid, rfl, (Option.some.inj h).symm⟩
  | burn =>
    rw [haction] at h
    right; right
    cases hdata : op.getBurn with
    | none => simp [hdata] at h
    | some x =>
      simp only [hdata] at h
      split_ifs at h with hvalid
      exact ⟨x, rfl, rfl, by simpa using hvalid, (Option.some.inj h).symm⟩
  | invalid =>
    rw [haction] at h
    exact absurd h (by simp)

/-! ### The walk over a block -/

/-- The state an operation acts on, and the counters of the block. -/
structure Walk (σ : Type) where
  state : σ
  opsCount : ℕ := 0
  issueCount : ℕ := 0
  txfrCount : ℕ := 0
  /-- the txid of every accepted operation, repeated for several operations of one transaction -/
  blockTokenTxs : List Uint256 := []

/-- The walk inside one transaction. -/
structure TxWalk (σ : Type) extends Walk σ where
  txOpIndex : ℕ := 0
  issueCountThisTx : ℕ := 0

section Walk

variable {σ : Type} (apply : σ → OpSite → TokenOp → σ × Bool) (reserved : List Bytes)

/-- Count an accepted operation. -/
def TxWalk.accept (w : TxWalk σ) (state : σ) (txid : Uint256) (op : TokenOp) : TxWalk σ :=
  let w := { w with
    state := state
    opsCount := w.opsCount + 1
    blockTokenTxs := w.blockTokenTxs ++ [txid]
    txOpIndex := w.txOpIndex + 1 }
  match op with
  | .issue _ _ =>
    { w with issueCount := w.issueCount + 1, issueCountThisTx := w.issueCountThisTx + 1 }
  | _ => { w with txfrCount := w.txfrCount + 1 }

def walkOp (height : ℕ) (time : ℤ) (tx : CTransaction) (txundo : CTxUndo) (w : TxWalk σ)
    (op : SRC20Operation) : TxWalk σ :=
  if w.opsCount ≥ maxTokensPerBlock then w
  else
    match request reserved tx txundo w.issueCountThisTx op with
    | none => w
    | some req =>
      let called := apply w.state ⟨tx.hash, height, time, w.txOpIndex⟩ req
      if called.2 then w.accept called.1 tx.hash req
      else { w with state := called.1 }

/-- The undo entry of the transaction at position `i`.  The source indexes past the end here only
for a transaction without inputs, which no valid block has; an empty entry stands in for it. -/
def txUndoAt (blockundo : CBlockUndo) (i : ℕ) : CTxUndo := blockundo.vtxundo.getD (i - 1) ⟨[]⟩

def walkTx (height : ℕ) (time : ℤ) (blockundo : CBlockUndo) (w : Walk σ) (i : ℕ)
    (tx : CTransaction) : Walk σ :=
  if tx.isCoinBase || i = 0 then w
  else if !tx.vin.isEmpty && blockundo.vtxundo.length ≤ i - 1 then w
  else
    ((parseTransactionSRC20 reserved tx).foldl
      (walkOp apply reserved height time tx (txUndoAt blockundo i)) ⟨w, 0, 0⟩).toWalk

def walkBlock (height : ℕ) (block : CBlock) (blockundo : CBlockUndo) (s : σ) : Walk σ :=
  block.vtx.zipIdx.foldl
    (fun w p =>
      if w.opsCount < maxTokensPerBlock then
        walkTx apply reserved height block.getBlockTime blockundo w p.2 p.1
      else w)
    { state := s }

end Walk

/-! ### Applying operations to a pending batch -/

/-- A block in progress: the database, the batch to be committed and the overlay. -/
structure PendingBlock where
  db : TokenDB
  batch : CDBBatch
  overlay : BalanceOverlay

/-- Take over what a call left behind. -/
def PendingBlock.after {α : Type} (p : PendingBlock) (call : OpCall α) : PendingBlock :=
  ⟨call.db, call.batch.getD p.batch, call.overlay.getD p.overlay⟩

def undoWrite (site : OpSite) (undo : TokenUndoRecord) : BatchOp Value :=
  .write (.undo site.height site.txid site.opIndex) undo

def PendingBlock.addUndo (p : PendingBlock) (site : OpSite) (undo : TokenUndoRecord) :
    PendingBlock :=
  { p with batch := p.batch ++ [undoWrite site undo] }

def issueUndo (site : OpSite) (issuance : TokenIssuance) (issuer : CScript) : TokenUndoRecord where
  opType := .issue
  txid := site.txid
  tokenId := site.txid
  ticker := issuance.ticker
  fromAddress := issuer

def transferUndo (site : OpSite) (tokenId : TokenId) (fromAddr toAddr : CScript)
    (amount prevFromBalance prevToBalance prevHolderCount : ℕ) : TokenUndoRecord where
  opType := .transfer
  txid := site.txid
  tokenId := tokenId
  fromAddress := fromAddr
  toAddress := toAddr
  amount := amount
  prevFromBalance := prevFromBalance
  prevToBalance := prevToBalance
  prevHolderCount := prevHolderCount

def burnUndo (site : OpSite) (tokenId : TokenId) (fromAddr : CScript)
    (amount prevFromBalance prevCirculatingSupply prevHolderCount : ℕ) : TokenUndoRecord where
  opType := .burn
  txid := site.txid
  tokenId := tokenId
  fromAddress := fromAddr
  amount := amount
  prevFromBalance := prevFromBalance
  prevCirculatingSupply := prevCirculatingSupply
  prevHolderCount := prevHolderCount

/-- The holder count of an info that may be missing. -/
def holderCountOf (info : Option TokenInfo) : ℕ := (info.map TokenInfo.holderCount).getD 0

/-- The circulating supply of an info that may be missing. -/
def circulatingOf (info : Option TokenInfo) : ℕ := (info.map TokenInfo.circulatingSupply).getD 0

/-- One operation of `ProcessBlock`: all writes, the undo record last, go to the pending batch. -/
def pendingOp (p : PendingBlock) (site : OpSite) : TokenOp → PendingBlock × Bool
  | .issue issuance issuer =>
    -- the database cannot see a ticker registered earlier in the same block
    if issuance.ticker ∈ p.overlay.pendingTickers then (p, false)
    else
      let call := registerToken p.db issuance issuer site (some p.batch) (some p.overlay)
      let p := p.after call
      match call.result with
      | .ok (some _) =>
        let overlay := { p.overlay with
          pendingTickers := insert issuance.ticker p.overlay.pendingTickers }
        ({ p with overlay := overlay }.addUndo site (issueUndo site issuance issuer), true)
      | _ => (p, false)
  | .transfer tokenId fromAddr toAddr amount =>
    let prevFromBalance := getBalanceWithOverlay p.db p.overlay fromAddr tokenId
    let prevToBalance := getBalanceWithOverlay p.db p.overlay toAddr tokenId
    let read := getTokenInfoWithOverlay p.db p.overlay tokenId
    let call := transferTokens read.2 tokenId fromAddr toAddr amount site (some p.batch)
      (some p.overlay)
    let p := p.after call
    match call.result with
    | .ok true =>
      (p.addUndo site (transferUndo site tokenId fromAddr toAddr amount prevFromBalance
        prevToBalance (holderCountOf read.1)), true)
    | _ => (p, false)
  | .burn tokenId fromAddr amount =>
    let read := getTokenInfoWithOverlay p.db p.overlay tokenId
    let prevBalance := getBalanceWithOverlay read.2 p.overlay fromAddr tokenId
    let call := burnTokens read.2 tokenId fromAddr amount site (some p.batch) (some p.overlay)
    let p := p.after call
    match call.result with
    | .ok true =>
      (p.addUndo site (burnUndo site tokenId fromAddr amount prevBalance (circulatingOf read.1)
        (holderCountOf read.1)), true)
    | _ => (p, false)

/-! ### Applying operations one commit at a time -/

/-- The same operation as a standalone call: no external batch, no overlay. -/
def immediateOp (db : TokenDB) (site : OpSite) : TokenOp → TokenDB × Bool
  | .issue issuance issuer =>
    let call := registerToken db issuance issuer site none none
    (call.db, match call.result with
      | .ok (some _) => true
      | _ => false)
  | .transfer tokenId fromAddr toAddr amount =>
    let call := transferTokens db tokenId fromAddr toAddr amount site none none
    (call.db, match call.result with
      | .ok true => true
      | _ => false)
  | .burn tokenId fromAddr amount =>
    let call := burnTokens db tokenId fromAddr amount site none none
    (call.db, match call.result with
      | .ok true => true
      | _ => false)

/-! ### Committing the block -/

/-- Keep the first occurrence of every txid. -/
def dedupTxids : List Uint256 → List Uint256
  | [] => []
  | txid :: rest => txid :: (dedupTxids rest).filter (· ≠ txid)

/-- The record of the block's token transactions, written only if there are any. -/
def blockTokensWrite (height : ℕ) (blockTokenTxs : List Uint256) : CDBBatch :=
  if blockTokenTxs.isEmpty then [] else [.write (.blockTokens height) (dedupTxids blockTokenTxs)]

/-- Counters are kept only once they have been initialised by a full scan. -/
def TokenDB.addCounts (db : TokenDB) (issues transfers : ℕ) : TokenDB :=
  { db with
    mTokenCountCache :=
      if db.mTokenCountInitialized then db.mTokenCountCache + issues else db.mTokenCountCache
    mTransferCountCache :=
      if db.mTransferCountInitialized then db.mTransferCountCache + transfers
      else db.mTransferCountCache }

/-- Put the token infos of the overlay into the cache, in key order. -/
def TokenDB.flushInfos (db : TokenDB) (infos : List (TokenId × TokenInfo)) : TokenDB :=
  infos.foldl (fun db entry => db.updateCache entry.2) db

def processBlock (reserved : List Bytes) (db : TokenDB) (block : CBlock) (height : ℕ)
    (blockundo : CBlockUndo) : TokenDB × Except DbwrapperError ℕ :=
  if db.getBestBlock = block.hash then (db, .ok 0)
  else
    let w := walkBlock pendingOp reserved height block blockundo ⟨db, [], .empty⟩
    let db := w.state.db
    let batch := w.state.batch ++ blockTokensWrite height w.blockTokenTxs ++
      [.write .bestBlock block.hash]
    match db.mDb.commit batch with
    | .error e => (db, .error e)
    | .ok mDb =>
      let db := { db with mDb := mDb }.addCounts w.issueCount w.txfrCount
      (db.flushInfos w.state.overlay.tokenInfos.entries, .ok w.opsCount)

end OpenSY.Tokens
