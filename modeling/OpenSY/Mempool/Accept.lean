import OpenSY.Mempool.TokenState
import OpenSY.Tokens.Block

/-!
# Token checks at mempool acceptance

What `MemPoolAccept::PreChecks` asks of a transaction with token operations: the limits against
flooding, the validator's check of every operation against the confirmed token state, and a second
round against the pending state.  The sender is the owner of the first coin spent.

The validator looks at each operation on its own.  Its messages are only logged and are left out;
the result codes are kept.
-/

namespace OpenSY.Mempool

open OpenSY.Chain OpenSY.Src20 OpenSY.Tokens MempoolTokenState

/-! ### The validator -/

inductive TokenValidationResult where
  | ok
  | invalidFormat
  | invalidAction
  | invalidTicker
  | reservedTicker
  | duplicateTicker
  | tokenNotFound
  | insufficientBalance
  | invalidAmount
  | missingRecipient
  deriving DecidableEq

def validateIssuance (reserved : List Bytes) (db : TokenDB) (issuance : TokenIssuance) :
    TokenValidationResult :=
  if issuance.ticker.length < minTickerLength ∨ maxTickerLength < issuance.ticker.length then
    .invalidTicker
  else if !issuance.ticker.all isTickerChar then .invalidTicker
  else if isReservedTicker reserved issuance.ticker then .reservedTicker
  else if db.tickerExists issuance.ticker then .duplicateTicker
  else if issuance.name.isEmpty ∨ maxNameLength < issuance.name.length then .invalidFormat
  else if !issuance.name.all isNameChar then .invalidFormat
  else if issuance.name.all (· = 0x20) then .invalidFormat
  else if issuance.name.head? = some 0x20 then .invalidFormat
  else if issuance.name.getLast? = some 0x20 then .invalidFormat
  else if hasDoubleSpace issuance.name then .invalidFormat
  else if maxDecimals < issuance.decimals then .invalidFormat
  else if issuance.totalSupply = 0 then .invalidAmount
  else if int64Max < issuance.totalSupply then .invalidAmount
  else .ok

def validateTransfer (reserved : List Bytes) (db : TokenDB) (transfer : TokenTransfer)
    (tx : CTransaction) (sender : CScript) : TokenValidationResult :=
  if transfer.amount = 0 then .invalidAmount
  else if !db.tokenExists transfer.tokenId then .tokenNotFound
  else if (getTransferRecipient reserved tx).isNone then .missingRecipient
  else if db.getBalance sender transfer.tokenId < transfer.amount then .insufficientBalance
  else .ok

def validateBurn (db : TokenDB) (burn : TokenBurn) (sender : CScript) : TokenValidationResult :=
  if burn.amount = 0 then .invalidAmount
  else if !db.tokenExists burn.tokenId then .tokenNotFound
  else if db.getBalance sender burn.tokenId < burn.amount then .insufficientBalance
  else .ok

/-- `SRC20Operation::IsValid`: the action and the payload belong together, and the payload is valid.
-/
def opIsValid (reserved : List Bytes) (op : SRC20Operation) : Bool :=
  match op.action with
  | .issue => (op.getIssuance.map fun x => x.isValid reserved).getD false
  | .transfer => (op.getTransfer.map fun x => x.isValid).getD false
  | .burn => (op.getBurn.map fun x => x.isValid).getD false
  | .invalid => false

def validateOperation (reserved : List Bytes) (db : TokenDB) (op : SRC20Operation)
    (tx : CTransaction) (sender : CScript) : TokenValidationResult :=
  if !opIsValid reserved op then .invalidFormat
  else
    match op.action with
    | .issue =>
      match op.getIssuance with
      | some issuance => validateIssuance reserved db issuance
      | none => .invalidFormat
    | .transfer =>
      match op.getTransfer with
      | some transfer => validateTransfer reserved db transfer tx sender
      | none => .invalidFormat
    | .burn =>
      match op.getBurn with
      | some burn => validateBurn db burn sender
      | none => .invalidFormat
    | .invalid => .invalidAction

def validateTransaction (reserved : List Bytes) (db : TokenDB) (tx : CTransaction)
    (sender : CScript) : List TokenValidationResult :=
  (parseTransactionSRC20 reserved tx).map fun op => validateOperation reserved db op tx sender

def checkMempoolAccept (reserved : List Bytes) (db : TokenDB) (tx : CTransaction)
    (sender : CScript) : Bool :=
  (validateTransaction reserved db tx sender).all (· = .ok)

/-! ### The checks of `PreChecks` -/

/-- Why a transaction is turned away. -/
inductive TokenReject where
  /-- `bad-txns-inputs-missingorspent` -/
  | missingInputs
  /-- `token-dos-limit` -/
  | dosLimit (limit : DoSLimit)
  /-- `token-validation-failed` -/
  | validationFailed
  /-- `token-ticker-pending` -/
  | tickerPending
  /-- `token-multi-issue-same-tx` -/
  | multiIssueSameTx
  /-- `token-issuance-fee-too-low` -/
  | issuanceFeeTooLow (number : ℕ) (requiredFee baseFees : CAmount)
  /-- `token-insufficient-balance` -/
  | insufficientTransfer
  /-- `token-insufficient-balance`, for a burn -/
  | insufficientBurn
  deriving DecidableEq

/-- The coins an outpoint can be spent from. -/
abbrev CoinsView : Type := COutPoint → Option Coin

/-- The coins a transaction spends, as the block's undo data will list them. -/
def spentCoins (view : CoinsView) (tx : CTransaction) : CTxUndo :=
  ⟨tx.vin.filterMap fun txin => view txin.prevout⟩

/-- The part of `CheckTxInputs` the token checks build on: every input is there, and the fee. -/
def checkTxInputs (view : CoinsView) (tx : CTransaction) : Option CAmount :=
  if tx.vin.all fun txin => (view txin.prevout).isSome then some (txFee tx (spentCoins view tx))
  else none

/-- The owner of the first coin spent. -/
def senderScript (view : CoinsView) (tx : CTransaction) : CScript :=
  match tx.vin with
  | [] => []
  | txin :: _ => ((view txin.prevout).map fun coin => coin.out.scriptPubKey).getD []

/-- One turn of the loop against the pending state; the number counts the issuances so far. -/
def checkPendingOp (db : TokenDB) (st : MempoolTokenState) (sender : CScript) (baseFees : CAmount)
    (issueCount : ℕ) (op : SRC20Operation) : Except TokenReject ℕ :=
  match op.action with
  | .issue =>
    if (op.getIssuance.map fun x => st.isTickerPending x.ticker).getD false then
      .error .tickerPending
    else if 1 ≤ issueCount then .error .multiIssueSameTx
    else if baseFees < minTokenIssuanceFee * (issueCount + 1) then
      .error (.issuanceFeeTooLow (issueCount + 1) (minTokenIssuanceFee * (issueCount + 1)) baseFees)
    else .ok (issueCount + 1)
  | .transfer =>
    if (op.getTransfer.map fun x => !st.canTransfer db sender x.tokenId x.amount).getD false then
      .error .insufficientTransfer
    else .ok issueCount
  | .burn =>
    if (op.getBurn.map fun x => !st.canTransfer db sender x.tokenId x.amount).getD false then
      .error .insufficientBurn
    else .ok issueCount
  | .invalid => .ok issueCount

/-- The token section of `PreChecks`, with the input check before it.  The result is the sender
under which a token transaction will be tracked. -/
def preChecks (reserved : List Bytes) (db : TokenDB) (st : MempoolTokenState) (now : ℤ)
    (view : CoinsView) (tx : CTransaction) : Except TokenReject (Option CScript) :=
  match checkTxInputs view tx with
  | none => .error .missingInputs
  | some baseFees =>
    let tokenOps := parseTransactionSRC20 reserved tx
    let sender := senderScript view tx
    if tokenOps.isEmpty then .ok none
    else
      match checkDoSLimits reserved st now tx sender with
      | some limit => .error (.dosLimit limit)
      | none =>
        if !checkMempoolAccept reserved db tx sender then .error .validationFailed
        else
          match tokenOps.foldlM (checkPendingOp db st sender baseFees) 0 with
          | .error reject => .error reject
          | .ok _ => .ok (some sender)

end OpenSY.Mempool
