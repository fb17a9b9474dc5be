import OpenSY.Tokens.Block

/-!
# Disconnecting a block

`disconnectBlock` takes the operations of a block back, last transaction first and inside a
transaction last operation first, from the undo records `processBlock` wrote.  It collects its
writes in one batch as well, behind two overlays of its own: one for token infos, one for the token
lists of addresses.  Balances need none, since an undo record holds the absolute values to restore.

The store here is typed, so a record that exists but cannot be decoded does not occur, and the exit
the source has for it is not reached.
-/

namespace OpenSY.Tokens

open OpenSY.Chain OpenSY.Src20 OpenSY.KeyValueStore OpenSY.RecencyCache OpenSY.Ordered

/-- A disconnection in progress. -/
structure Disconnect where
  db : TokenDB
  batch : CDBBatch := []
  disconnectInfoOverlay : Finmap (fun _ : TokenId => TokenInfo) := ∅
  disconnectAddrOverlay : Finmap (fun _ : CScript => Finset TokenId) := ∅
  /-- in order of first use; erasing keys from a cache commutes, so the order does not matter -/
  tokensToInvalidate : List TokenId := []
  issueUndoCount : ℕ := 0
  txfrUndoCount : ℕ := 0

namespace Disconnect

def emit (s : Disconnect) (writes : CDBBatch) : Disconnect := { s with batch := s.batch ++ writes }

def invalidate (s : Disconnect) (tokenId : TokenId) : Disconnect :=
  { s with tokensToInvalidate := s.tokensToInvalidate ++ [tokenId] }

def getInfoForDisconnect (s : Disconnect) (tokenId : TokenId) : Option TokenInfo × Disconnect :=
  match s.disconnectInfoOverlay.lookup tokenId with
  | some info => (some info, s)
  | none =>
    let read := s.db.getTokenInfo tokenId
    (read.1, { s with db := read.2 })

def getAddrTokensForDisconnect (s : Disconnect) (address : CScript) : Finset TokenId :=
  match s.disconnectAddrOverlay.lookup address with
  | some tokens => tokens
  | none => s.db.records.addrTokens address

def setAddrTokens (s : Disconnect) (address : CScript) (tokens : Finset TokenId) : Disconnect :=
  { s with disconnectAddrOverlay := s.disconnectAddrOverlay.insert address tokens }

/-- Put a token back on the list of an address. -/
def addAddrToken (s : Disconnect) (address : CScript) (tokenId : TokenId) : Disconnect :=
  let tokens := insert tokenId (s.getAddrTokensForDisconnect address)
  (s.emit [.write (.addrTokens address) tokens]).setAddrTokens address tokens

/-- Take a token off the list of an address. -/
def removeAddrToken (s : Disconnect) (address : CScript) (tokenId : TokenId) : Disconnect :=
  let tokens := (s.getAddrTokensForDisconnect address).erase tokenId
  (s.emit [addrTokensWrite address tokens]).setAddrTokens address tokens

/-- Rewrite a token info, if it is there. -/
def restoreInfo (s : Disconnect) (tokenId : TokenId) (restore : TokenInfo → TokenInfo) :
    Disconnect :=
  let read := s.getInfoForDisconnect tokenId
  match read.1 with
  | none => read.2
  | some info =>
    let s := read.2.emit (writeTokenInfoToBatch (restore info))
    { s with disconnectInfoOverlay := s.disconnectInfoOverlay.insert tokenId (restore info) }

def eraseTransfer (s : Disconnect) (tokenId : TokenId) (height : ℕ) (txid : Uint256)
    (opIdx : ℕ) : Disconnect :=
  s.emit [.erase (.transfer tokenId height txid opIdx)]

def undoIssue (s : Disconnect) (height : ℕ) (txid : Uint256) (opIdx : ℕ)
    (undo : TokenUndoRecord) : Disconnect :=
  let s := s.emit [.erase (.tokenInfo undo.tokenId), .erase (.ticker undo.ticker)]
  let s := s.invalidate undo.tokenId
  let s := { s with issueUndoCount := s.issueUndoCount + 1 }
  let s :=
    if undo.fromAddress.isEmpty then s
    else
      (s.emit [.erase (.balance undo.fromAddress undo.tokenId),
        .erase (.tokenHolders undo.tokenId undo.fromAddress)]).removeAddrToken
          undo.fromAddress undo.tokenId
  s.eraseTransfer undo.tokenId height txid opIdx

/-- The statistics before a transfer; a count of zero stays zero. -/
def untransferInfo (undo : TokenUndoRecord) (info : TokenInfo) : TokenInfo :=
  { info with holderCount := undo.prevHolderCount, transferCount := info.transferCount - 1 }

def undoTransfer (s : Disconnect) (height : ℕ) (txid : Uint256) (opIdx : ℕ)
    (undo : TokenUndoRecord) : Disconnect :=
  let s := s.emit (writeBalanceToBatch undo.fromAddress undo.tokenId undo.prevFromBalance)
  -- a drained sender had lost the token from its list
  let s :=
    if undo.prevFromBalance = undo.amount && !undo.fromAddress.isEmpty then
      s.addAddrToken undo.fromAddress undo.tokenId
    else s
  let s := s.emit (writeBalanceToBatch undo.toAddress undo.tokenId undo.prevToBalance)
  -- a new holder had gained it
  let s :=
    if undo.prevToBalance = 0 && !undo.toAddress.isEmpty then
      s.removeAddrToken undo.toAddress undo.tokenId
    else s
  let s := s.restoreInfo undo.tokenId (untransferInfo undo)
  let s := s.eraseTransfer undo.tokenId height txid opIdx
  { s with txfrUndoCount := s.txfrUndoCount + 1 }.invalidate undo.tokenId

/-- The supply and the holder count before a burn. -/
def unburnInfo (undo : TokenUndoRecord) (info : TokenInfo) : TokenInfo :=
  { info with
    circulatingSupply := undo.prevCirculatingSupply
    holderCount := undo.prevHolderCount }

def undoBurn (s : Disconnect) (height : ℕ) (txid : Uint256) (opIdx : ℕ)
    (undo : TokenUndoRecord) : Disconnect :=
  let s := s.emit (writeBalanceToBatch undo.fromAddress undo.tokenId undo.prevFromBalance)
  let s :=
    if undo.prevFromBalance = undo.amount && !undo.fromAddress.isEmpty then
      s.addAddrToken undo.fromAddress undo.tokenId
    else s
  let s := s.restoreInfo undo.tokenId (unburnInfo undo)
  let s := s.eraseTransfer undo.tokenId height txid opIdx
  { s with txfrUndoCount := s.txfrUndoCount + 1 }.invalidate undo.tokenId

/-- Take one operation back and drop its undo record. -/
def undoOp (s : Disconnect) (height : ℕ) (txid : Uint256) (opIdx : ℕ) (undo : TokenUndoRecord) :
    Disconnect :=
  let s :=
    match undo.opType with
    | .issue => s.undoIssue height txid opIdx undo
    | .transfer => s.undoTransfer height txid opIdx undo
    | .burn => s.undoBurn height txid opIdx undo
  s.emit [.erase (.undo height txid opIdx)]

end Disconnect

def maxUndoOpsPerTx : ℕ := maxOpsPerTx * 2

/-- The undo records of a transaction from `opIdx` on, `n` at most, up to the first that is
missing. -/
def collectUndos (r : Records) (height : ℕ) (txid : Uint256) :
    ℕ → ℕ → List (ℕ × TokenUndoRecord)
  | 0, _ => []
  | n + 1, opIdx =>
    match r.read (.undo height txid opIdx) with
    | none => []
    | some undo => (opIdx, undo) :: collectUndos r height txid n (opIdx + 1)

/-- Take the operations of one transaction back, the last one first. -/
def Disconnect.undoTx (height : ℕ) (s : Disconnect) (txid : Uint256) : Disconnect :=
  (collectUndos s.db.records height txid maxUndoOpsPerTx 0).reverse.foldl
    (fun s p => s.undoOp height txid p.1 p.2) s

/-- Counters never go below zero. -/
def TokenDB.subCounts (db : TokenDB) (issues transfers : ℕ) : TokenDB :=
  { db with
    mTokenCountCache :=
      if db.mTokenCountInitialized then db.mTokenCountCache - issues else db.mTokenCountCache
    mTransferCountCache :=
      if db.mTransferCountInitialized then db.mTransferCountCache - transfers
      else db.mTransferCountCache }

def disconnectBlock (db : TokenDB) (block : CBlock) (height : ℕ) : TokenDB × Bool :=
  if db.getBestBlock = block.hashPrevBlock then (db, true)
  else
    match db.records.read (.blockTokens height) with
    -- the best-block pointer is not touched on this exit
    | none => (db, true)
    | some blockTokenTxs =>
      let s := (dedupTxids blockTokenTxs).reverse.foldl (Disconnect.undoTx height) { db := db }
      let batch := s.batch ++
        [.erase (.blockTokens height), .write .bestBlock block.hashPrevBlock]
      match s.db.mDb.commit batch with
      | .error _ => (s.db, false)
      | .ok mDb =>
        let db := s.tokensToInvalidate.foldl TokenDB.invalidateCache { s.db with mDb := mDb }
        (db.subCounts s.issueUndoCount s.txfrUndoCount, true)

end OpenSY.Tokens
