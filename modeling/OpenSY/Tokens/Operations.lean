import OpenSY.Lib.OrderedMap
import OpenSY.Tokens.Records

/-!
# Issuing, transferring and burning tokens

`registerToken`, `transferTokens` and `burnTokens` in the two modes the source has.  Given an
external batch they only append their writes to it, and given an overlay they read through it and
keep it current; with neither, they read the database and commit a batch of their own at once.

The writes an operation makes are functions of what it read (`issueWrites`, `transferWrites`,
`selfTransferWrites`, `burnWrites`), in the order of the source, so that both modes can be compared
by comparing their reads.
-/

namespace OpenSY.Tokens

open OpenSY.Chain OpenSY.Src20 OpenSY.KeyValueStore OpenSY.RecencyCache OpenSY.Ordered

/-! ### The balance overlay -/

/-- State pending in the block that is being processed. -/
structure BalanceOverlay where
  balances : Finmap fun _ : CScript × TokenId => ℕ
  addrTokens : Finmap fun _ : CScript => Finset TokenId
  tokenInfos : OrderedMap TokenId TokenInfo
  pendingTickers : Finset Bytes

def BalanceOverlay.empty : BalanceOverlay := ⟨∅, ∅, .empty, ∅⟩

def getBalanceWithOverlay (db : TokenDB) (overlay : BalanceOverlay) (address : CScript)
    (tokenId : TokenId) : ℕ :=
  match overlay.balances.lookup (address, tokenId) with
  | some balance => balance
  | none => db.getBalance address tokenId

def setBalanceInOverlay (overlay : BalanceOverlay) (address : CScript) (tokenId : TokenId)
    (balance : ℕ) : BalanceOverlay :=
  { overlay with balances := overlay.balances.insert (address, tokenId) balance }

def getTokenInfoWithOverlay (db : TokenDB) (overlay : BalanceOverlay) (tokenId : TokenId) :
    Option TokenInfo × TokenDB :=
  match overlay.tokenInfos.find tokenId with
  | some info => (some info, db)
  | none => db.getTokenInfo tokenId

def getAddrTokensWithOverlay (db : TokenDB) (overlay : BalanceOverlay) (address : CScript) :
    Finset TokenId :=
  match overlay.addrTokens.lookup address with
  | some tokens => tokens
  | none => db.records.addrTokens address

def setAddrTokensInOverlay (overlay : BalanceOverlay) (address : CScript)
    (tokens : Finset TokenId) : BalanceOverlay :=
  { overlay with addrTokens := overlay.addrTokens.insert address tokens }

def setTokenInfoInOverlay (overlay : BalanceOverlay) (tokenId : TokenId) (info : TokenInfo) :
    BalanceOverlay :=
  { overlay with tokenInfos := overlay.tokenInfos.insert tokenId info }

/-! ### Reads of an operation: through the overlay if it was given one -/

def opBalance (db : TokenDB) (overlay : Option BalanceOverlay) (address : CScript)
    (tokenId : TokenId) : ℕ :=
  match overlay with
  | some overlay => getBalanceWithOverlay db overlay address tokenId
  | none => db.getBalance address tokenId

def opAddrTokens (db : TokenDB) (overlay : Option BalanceOverlay) (address : CScript) :
    Finset TokenId :=
  match overlay with
  | some overlay => getAddrTokensWithOverlay db overlay address
  | none => db.records.addrTokens address

def opTokenInfo (db : TokenDB) (overlay : Option BalanceOverlay) (tokenId : TokenId) :
    Option TokenInfo × TokenDB :=
  match overlay with
  | some overlay => getTokenInfoWithOverlay db overlay tokenId
  | none => db.readTokenInfo tokenId

/-! ### Batch entries -/

/-- A zero balance is not stored: its key is erased. -/
def balanceWrite (address : CScript) (tokenId : TokenId) (balance : ℕ) : BatchOp Value :=
  if 0 < balance then .write (.balance address tokenId) balance
  else .erase (.balance address tokenId)

def holderWrite (address : CScript) (tokenId : TokenId) (balance : ℕ) : BatchOp Value :=
  if 0 < balance then .write (.tokenHolders tokenId address) true
  else .erase (.tokenHolders tokenId address)

/-- An empty token list is not stored: its key is erased. -/
def addrTokensWrite (address : CScript) (tokens : Finset TokenId) : BatchOp Value :=
  if tokens = ∅ then .erase (.addrTokens address) else .write (.addrTokens address) tokens

def writeBalanceToBatch (address : CScript) (tokenId : TokenId) (balance : ℕ) : CDBBatch :=
  [balanceWrite address tokenId balance, holderWrite address tokenId balance]

def writeTokenInfoToBatch (info : TokenInfo) : CDBBatch :=
  [.write (.tokenInfo info.tokenId) info, .write (.ticker info.ticker) info.tokenId]

/-- Where an operation stands on the chain. -/
structure OpSite where
  txid : Uint256
  height : ℕ
  time : ℤ
  opIndex : ℕ
  deriving DecidableEq

def transferRecord (site : OpSite) (tokenId : TokenId) (fromAddr toAddr : CScript) (amount : ℕ) :
    TokenTransferRecord :=
  ⟨tokenId, site.txid, fromAddr, toAddr, amount, site.height, site.time⟩

def transferWrite (site : OpSite) (tokenId : TokenId) (fromAddr toAddr : CScript) (amount : ℕ) :
    BatchOp Value :=
  .write (.transfer tokenId site.height site.txid site.opIndex)
    (transferRecord site tokenId fromAddr toAddr amount)

/-! ### Results and commits -/

/-- What a call returns, with the objects it may have changed on the way. -/
structure OpCall (α : Type) where
  db : TokenDB
  batch : Option CDBBatch
  overlay : Option BalanceOverlay
  result : Except DbwrapperError α

def TokenDB.countToken (db : TokenDB) : TokenDB :=
  if db.mTokenCountInitialized then { db with mTokenCountCache := db.mTokenCountCache + 1 } else db

def TokenDB.countTransfer (db : TokenDB) : TokenDB :=
  if db.mTransferCountInitialized then
    { db with mTransferCountCache := db.mTransferCountCache + 1 }
  else db

/-- The common end of transfers and burns.  In standalone mode the cache is updated before the
commit, as the source does. -/
def finishMove (db : TokenDB) (externalBatch : Option CDBBatch) (overlay : Option BalanceOverlay)
    (writes : CDBBatch) (info : Option TokenInfo) : OpCall Bool :=
  match externalBatch with
  | some batch => ⟨db, some (batch ++ writes), overlay, .ok true⟩
  | none =>
    let db := match info with
      | some info => db.updateCache info
      | none => db
    match db.mDb.commit writes with
    | .error e => ⟨db, none, overlay, .error e⟩
    | .ok mDb => ⟨{ db with mDb := mDb }.countTransfer, none, overlay, .ok true⟩

/-! ### Issuance -/

/-- The record of a new token; its id is the txid of the issuance. -/
def issueInfo (issuance : TokenIssuance) (site : OpSite) : TokenInfo where
  tokenId := site.txid
  ticker := issuance.ticker
  name := issuance.name
  decimals := issuance.decimals
  totalSupply := issuance.totalSupply
  circulatingSupply := issuance.totalSupply
  metadataHash := issuance.metadataHash
  issuanceTxid := site.txid
  issuanceHeight := site.height
  issuanceTime := site.time
  holderCount := 1
  transferCount := 0

def issueWrites (issuance : TokenIssuance) (issuer : CScript) (site : OpSite)
    (addrTokens : Finset TokenId) : CDBBatch :=
  let info := issueInfo issuance site
  [.write (.tokenInfo info.tokenId) info,
   .write (.ticker info.ticker) info.tokenId,
   .write (.balance issuer info.tokenId) issuance.totalSupply,
   .write (.tokenHolders info.tokenId issuer) true,
   .write (.addrTokens issuer) (insert info.tokenId addrTokens),
   transferWrite site info.tokenId [] issuer issuance.totalSupply]

def issueOverlay (issuance : TokenIssuance) (issuer : CScript) (site : OpSite)
    (addrTokens : Finset TokenId) (overlay : BalanceOverlay) : BalanceOverlay :=
  let info := issueInfo issuance site
  let overlay := setAddrTokensInOverlay overlay issuer (insert info.tokenId addrTokens)
  let overlay := setBalanceInOverlay overlay issuer info.tokenId issuance.totalSupply
  setTokenInfoInOverlay overlay info.tokenId info

def registerToken (db : TokenDB) (issuance : TokenIssuance) (issuer : CScript) (site : OpSite)
    (externalBatch : Option CDBBatch) (overlay : Option BalanceOverlay) :
    OpCall (Option TokenId) :=
  if db.tickerExists issuance.ticker then ⟨db, externalBatch, overlay, .ok none⟩
  else if db.tokenExists site.txid then ⟨db, externalBatch, overlay, .ok none⟩
  -- two issuances in one transaction have the same token id
  else if overlay.any fun o => (o.tokenInfos.find site.txid).isSome then
    ⟨db, externalBatch, overlay, .ok none⟩
  else
    let addrTokens := opAddrTokens db overlay issuer
    let writes := issueWrites issuance issuer site addrTokens
    let overlay := overlay.map (issueOverlay issuance issuer site addrTokens)
    match externalBatch with
    | some batch => ⟨db, some (batch ++ writes), overlay, .ok (some site.txid)⟩
    | none =>
      match db.mDb.commit writes with
      | .error _ => ⟨db, none, overlay, .ok none⟩
      | .ok mDb =>
        ⟨({ db with mDb := mDb }.updateCache (issueInfo issuance site)).countToken, none, overlay,
          .ok (some site.txid)⟩

/-! ### Transfer -/

/-- Unsigned 64-bit addition, refused on overflow. -/
def checkedAdd (a b : ℕ) : Option ℕ := if a + b ≤ uint64Max then some (a + b) else none

def selfTransferInfo (info : TokenInfo) : TokenInfo :=
  { info with transferCount := info.transferCount + 1 }

/-- The statistics after a transfer between different addresses. -/
def transferInfo (fromBalance toBalance amount : ℕ) (info : TokenInfo) : TokenInfo :=
  let info := { info with transferCount := info.transferCount + 1 }
  let info := if toBalance = 0 then { info with holderCount := info.holderCount + 1 } else info
  if fromBalance = amount then
    if info.holderCount > 0 then { info with holderCount := info.holderCount - 1 } else info
  else info

/-- The token info write of a transfer; the ticker index is left alone. -/
def infoWrite : Option TokenInfo → CDBBatch
  | some info => [.write (.tokenInfo info.tokenId) info]
  | none => []

def infoOverlay (tokenId : TokenId) (info : Option TokenInfo) (overlay : BalanceOverlay) :
    BalanceOverlay :=
  match info with
  | some info => setTokenInfoInOverlay overlay tokenId info
  | none => overlay

/-- Transferring to oneself is recorded, but moves nothing. -/
def selfTransferWrites (site : OpSite) (tokenId : TokenId) (address : CScript) (amount : ℕ)
    (info : Option TokenInfo) : CDBBatch :=
  transferWrite site tokenId address address amount :: infoWrite info

/-- The sender's half of a transfer: the index entries go only when the balance is used up. -/
def debitWrites (tokenId : TokenId) (fromAddr : CScript) (amount fromBalance : ℕ)
    (fromTokens : Finset TokenId) : CDBBatch :=
  balanceWrite fromAddr tokenId (fromBalance - amount) ::
  if fromBalance = amount then
    [.erase (.tokenHolders tokenId fromAddr), addrTokensWrite fromAddr (fromTokens.erase tokenId)]
  else []

/-- The recipient's half: the token list grows only for a new holder. -/
def creditWrites (tokenId : TokenId) (toAddr : CScript) (amount toBalance : ℕ)
    (toTokens : Finset TokenId) : CDBBatch :=
  .write (.balance toAddr tokenId) (toBalance + amount) ::
  .write (.tokenHolders tokenId toAddr) true ::
  if toBalance = 0 then [.write (.addrTokens toAddr) (insert tokenId toTokens)] else []

def transferWrites (site : OpSite) (tokenId : TokenId) (fromAddr toAddr : CScript)
    (amount fromBalance toBalance : ℕ) (fromTokens toTokens : Finset TokenId)
    (info : Option TokenInfo) : CDBBatch :=
  debitWrites tokenId fromAddr amount fromBalance fromTokens ++
  creditWrites tokenId toAddr amount toBalance toTokens ++
  transferWrite site tokenId fromAddr toAddr amount ::
  infoWrite info

def senderOverlay (tokenId : TokenId) (fromAddr : CScript) (amount fromBalance : ℕ)
    (fromTokens : Finset TokenId) (overlay : BalanceOverlay) : BalanceOverlay :=
  let overlay := setBalanceInOverlay overlay fromAddr tokenId (fromBalance - amount)
  if fromBalance = amount then
    setAddrTokensInOverlay overlay fromAddr (fromTokens.erase tokenId)
  else overlay

def recipientOverlay (tokenId : TokenId) (toAddr : CScript) (amount toBalance : ℕ)
    (toTokens : Finset TokenId) (overlay : BalanceOverlay) : BalanceOverlay :=
  let overlay := setBalanceInOverlay overlay toAddr tokenId (toBalance + amount)
  if toBalance = 0 then setAddrTokensInOverlay overlay toAddr (insert tokenId toTokens)
  else overlay

def transferTokens (db : TokenDB) (tokenId : TokenId) (fromAddr toAddr : CScript) (amount : ℕ)
    (site : OpSite) (externalBatch : Option CDBBatch) (overlay : Option BalanceOverlay) :
    OpCall Bool :=
  if amount = 0 then ⟨db, externalBatch, overlay, .ok false⟩
  else if fromAddr = toAddr then
    let fromBalance := opBalance db overlay fromAddr tokenId
    if fromBalance < amount then ⟨db, externalBatch, overlay, .ok false⟩
    else
      let read := opTokenInfo db overlay tokenId
      let info := read.1.map selfTransferInfo
      finishMove read.2 externalBatch (overlay.map (infoOverlay tokenId info))
        (selfTransferWrites site tokenId fromAddr amount info) info
  else
    let fromBalance := opBalance db overlay fromAddr tokenId
    if fromBalance < amount then ⟨db, externalBatch, overlay, .ok false⟩
    else
      let toBalance := opBalance db overlay toAddr tokenId
      match checkedAdd toBalance amount with
      | none => ⟨db, externalBatch, overlay, .ok false⟩
      | some _ =>
        let fromTokens := opAddrTokens db overlay fromAddr
        let overlay := overlay.map (senderOverlay tokenId fromAddr amount fromBalance fromTokens)
        let toTokens := opAddrTokens db overlay toAddr
        let overlay := overlay.map (recipientOverlay tokenId toAddr amount toBalance toTokens)
        let read := opTokenInfo db overlay tokenId
        let info := read.1.map (transferInfo fromBalance toBalance amount)
        finishMove read.2 externalBatch (overlay.map (infoOverlay tokenId info))
          (transferWrites site tokenId fromAddr toAddr amount fromBalance toBalance fromTokens
            toTokens info) info

/-! ### Burn -/

/-- The statistics and the supply after a burn. -/
def burnInfo (fromBalance amount : ℕ) (info : TokenInfo) : TokenInfo :=
  let info := if fromBalance = amount ∧ info.holderCount > 0 then
    { info with holderCount := info.holderCount - 1 } else info
  { info with circulatingSupply := info.circulatingSupply - amount }

def burnWrites (site : OpSite) (tokenId : TokenId) (fromAddr : CScript) (amount fromBalance : ℕ)
    (fromTokens : Finset TokenId) (info : TokenInfo) : CDBBatch :=
  writeBalanceToBatch fromAddr tokenId (fromBalance - amount) ++
  (if fromBalance = amount then [addrTokensWrite fromAddr (fromTokens.erase tokenId)] else []) ++
  writeTokenInfoToBatch info ++
  [transferWrite site tokenId fromAddr [] amount]

def burnTokens (db : TokenDB) (tokenId : TokenId) (fromAddr : CScript) (amount : ℕ)
    (site : OpSite) (externalBatch : Option CDBBatch) (overlay : Option BalanceOverlay) :
    OpCall Bool :=
  let fromBalance := opBalance db overlay fromAddr tokenId
  if fromBalance < amount then ⟨db, externalBatch, overlay, .ok false⟩
  else
    let read := opTokenInfo db overlay tokenId
    match read.1 with
    | none => ⟨read.2, externalBatch, overlay, .ok false⟩
    | some info =>
      if info.circulatingSupply < amount then ⟨read.2, externalBatch, overlay, .ok false⟩
      else
        let fromTokens := opAddrTokens read.2 overlay fromAddr
        let info := burnInfo fromBalance amount info
        let overlay := overlay.map fun o =>
          setTokenInfoInOverlay (senderOverlay tokenId fromAddr amount fromBalance fromTokens o)
            tokenId info
        finishMove read.2 externalBatch overlay
          (burnWrites site tokenId fromAddr amount fromBalance fromTokens info) (some info)

end OpenSY.Tokens
