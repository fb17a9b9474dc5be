import OpenSY.Tokens.Records
import OpenSY.Lib.Tally

/-!
# The pending token state of the mempool

`MempoolTokenState` keeps what the token operations of unconfirmed transactions will do once mined:
the tickers they register, the amounts they move per account, and counters against flooding.  Six
maps are updated together by `addTransaction` and `removeTransaction`; a seventh holds the
timestamps of the rate limit and outlives the transactions.

The source nests the balance maps (address, then token); here an account is the pair of both, so
that the clean-up of empty inner maps has no counterpart.  Amounts are integers: the source keeps
them in `int64_t` and refuses a debit or credit that would leave that range, which is what the
comparisons with `int64Min` and `int64Max` below do.
-/

namespace OpenSY.Mempool

open OpenSY.Chain OpenSY.Src20 OpenSY.Tokens OpenSY.Tallies

def maxPendingOpsPerAddress : ℕ := 10
def maxPendingIssuances : ℕ := 100
def maxTotalPendingOps : ℕ := 1000
def rateLimitWindowSeconds : ℤ := 600
def maxOpsPerAddressPerWindow : ℕ := 50

def int64Min : ℤ := -2 ^ 63

/-- Whose balance of which token. -/
abbrev Account : Type := CScript × TokenId

structure MempoolTokenState where
  /-- ticker of a pending issuance ↦ its transaction -/
  mPendingTickers : AList fun _ : Bytes => Uint256
  mPendingBalances : Tally Account
  mTxOps : AList fun _ : Uint256 => List SRC20Operation
  mTxBalanceDeltas : AList fun _ : Uint256 => Tally Account
  mTxSender : AList fun _ : Uint256 => CScript
  mOpsPerAddress : AList fun _ : CScript => ℕ
  mRateLimitTimestamps : AList fun _ : CScript => List ℤ

namespace MempoolTokenState

/-- The state before the first transaction. -/
def empty : MempoolTokenState := ⟨∅, ∅, ∅, ∅, ∅, ∅, ∅⟩

/-! ### Lookups -/

def isTickerPending (st : MempoolTokenState) (ticker : Bytes) : Bool :=
  (st.mPendingTickers.lookup ticker).isSome

def getPendingBalanceDelta (st : MempoolTokenState) (address : CScript) (tokenId : TokenId) : ℤ :=
  value st.mPendingBalances (address, tokenId)

/-- Confirmed balance plus what is pending, never below zero and never above `uint64Max`. -/
def getEffectiveBalance (st : MempoolTokenState) (db : TokenDB) (address : CScript)
    (tokenId : TokenId) : ℕ :=
  let confirmed := db.getBalance address tokenId
  let pending := st.getPendingBalanceDelta address tokenId
  if pending < 0 then
    let absPending := pending.natAbs
    if absPending < confirmed then confirmed - absPending else 0
  else
    let posPending := pending.toNat
    if uint64Max - posPending < confirmed then uint64Max else confirmed + posPending

def canTransfer (st : MempoolTokenState) (db : TokenDB) (fromAddr : CScript) (tokenId : TokenId)
    (amount : ℕ) : Bool :=
  amount ≤ st.getEffectiveBalance db fromAddr tokenId

def getPendingCount (st : MempoolTokenState) : ℕ := st.mTxOps.entries.length

def getPendingOpsForAddress (st : MempoolTokenState) (address : CScript) : ℕ :=
  (st.mOpsPerAddress.lookup address).getD 0

/-! ### Rate limit -/

/-- Whether a timestamp still counts at time `now`. -/
def inWindow (now ts : ℤ) : Bool := now - rateLimitWindowSeconds ≤ ts

def isRateLimited (st : MempoolTokenState) (address : CScript) (now : ℤ) : Bool :=
  match st.mRateLimitTimestamps.lookup address with
  | none => false
  | some timestamps => maxOpsPerAddressPerWindow ≤ (timestamps.filter (inWindow now)).length

def recordOperation (st : MempoolTokenState) (address : CScript) (now : ℤ) : MempoolTokenState :=
  let timestamps := (st.mRateLimitTimestamps.lookup address).getD []
  { st with
    mRateLimitTimestamps :=
      st.mRateLimitTimestamps.insert address (timestamps.filter (inWindow now) ++ [now]) }

/-- Drop what has left the window, and every address left without a timestamp; the second component
is the number of those. -/
def pruneStaleRateLimitEntries (st : MempoolTokenState) (now : ℤ) : MempoolTokenState × ℕ :=
  let swept := st.mRateLimitTimestamps.entries.foldl
    (fun (p : AList (fun _ : CScript => List ℤ) × ℕ) e =>
      let timestamps := e.2.filter (inWindow now)
      if timestamps.isEmpty then (p.1.erase e.1, p.2 + 1) else (p.1.insert e.1 timestamps, p.2))
    (st.mRateLimitTimestamps, 0)
  ({ st with mRateLimitTimestamps := swept.1 }, swept.2)

/-! ### Limits checked before validation -/

/-- Why a transaction is refused before its operations are looked at. -/
inductive DoSLimit where
  /-- `Token mempool full` -/
  | mempoolFull (pending : ℕ)
  /-- `Too many pending token operations for address` -/
  | tooManyForAddress (current : ℕ)
  /-- `Too many pending token issuances` -/
  | tooManyIssuances (pending : ℕ)
  /-- `Address rate limited` -/
  | rateLimited
  deriving DecidableEq

/-- The first limit a transaction would exceed; the source returns its text, or the empty string. -/
def checkDoSLimits (reserved : List Bytes) (st : MempoolTokenState) (now : ℤ) (tx : CTransaction)
    (sender : CScript) : Option DoSLimit :=
  let ops := parseTransactionSRC20 reserved tx
  let currentOps := st.getPendingOpsForAddress sender
  let issuanceCount := (ops.filter fun op => op.action = .issue).length
  if ops.isEmpty then none
  else if maxTotalPendingOps ≤ st.getPendingCount then some (.mempoolFull st.getPendingCount)
  else if maxPendingOpsPerAddress < currentOps + ops.length then
    some (.tooManyForAddress currentOps)
  else if 0 < issuanceCount ∧
      maxPendingIssuances < st.mPendingTickers.entries.length + issuanceCount then
    some (.tooManyIssuances st.mPendingTickers.entries.length)
  else if st.isRateLimited sender now then some .rateLimited
  else none

end MempoolTokenState

/-! ### Adding a transaction -/

/-- The balances while the operations of one transaction are entered, together with what this
transaction has contributed and the tickers it asks for. -/
structure Draft where
  balances : Tally Account
  txDeltas : Tally Account
  localPendingTickers : List Bytes

/-- Enter an amount both in the balances and in the transaction's own deltas. -/
def Draft.post (d : Draft) (k : Account) (v : ℤ) : Draft :=
  { d with balances := bump d.balances k v, txDeltas := bump d.txDeltas k v }

/-- The debit shared by transfers and burns; an error stops the transaction. -/
def Draft.debit (d : Draft) (k : Account) (amount : ℕ) : Except Draft Draft :=
  if int64Max < amount then .error d
  else if value d.balances k < int64Min + amount then .error d
  else .ok (d.post k (-amount))

/-- One turn of the loop of `AddTransaction`.  An error carries the draft at the point where the
source reverts the deltas entered so far and returns false. -/
def addOp (reserved : List Bytes) (pendingTickers : AList fun _ : Bytes => Uint256)
    (tx : CTransaction) (sender : CScript) (d : Draft) (op : SRC20Operation) : Except Draft Draft :=
  match op.action with
  | .issue =>
    match op.getIssuance with
    | none => .ok d
    | some issuance =>
      if (pendingTickers.lookup issuance.ticker).isSome then .error d
      else if issuance.ticker ∈ d.localPendingTickers then .error d
      else .ok { d with localPendingTickers := d.localPendingTickers ++ [issuance.ticker] }
  | .transfer =>
    match op.getTransfer with
    | none => .ok d
    | some transfer =>
      match d.debit (sender, transfer.tokenId) transfer.amount with
      | .error d => .error d
      | .ok d =>
        match getTransferRecipient reserved tx with
        | none => .ok d
        | some recipient =>
          -- for a self-transfer this reads the balance after the debit, as the reference does
          if int64Max - transfer.amount < value d.balances (recipient, transfer.tokenId) then
            .error (d.post (sender, transfer.tokenId) transfer.amount)
          else .ok (d.post (recipient, transfer.tokenId) transfer.amount)
  | .burn =>
    match op.getBurn with
    | none => .ok d
    | some burn => d.debit (sender, burn.tokenId) burn.amount
  | .invalid => .ok d

namespace MempoolTokenState

/-- Track a transaction.  The second component is the return value. -/
def addTransaction (reserved : List Bytes) (st : MempoolTokenState) (now : ℤ) (tx : CTransaction)
    (sender : CScript) : MempoolTokenState × Bool :=
  let ops := parseTransactionSRC20 reserved tx
  if ops.isEmpty then (st, true)
  else if (st.mTxOps.lookup tx.hash).isSome then (st, true)
  else if maxTotalPendingOps ≤ st.getPendingCount then (st, false)
  else if maxPendingOpsPerAddress < st.getPendingOpsForAddress sender + ops.length then (st, false)
  else if st.isRateLimited sender now then (st, false)
  else
    match ops.foldlM (addOp reserved st.mPendingTickers tx sender) ⟨st.mPendingBalances, ∅, []⟩ with
    | .error d => ({ st with mPendingBalances := revert d.balances d.txDeltas }, false)
    | .ok d =>
      let st := { st with
        mPendingBalances := d.balances
        mPendingTickers :=
          d.localPendingTickers.foldl (fun m ticker => m.insert ticker tx.hash) st.mPendingTickers
        mTxOps := st.mTxOps.insert tx.hash ops
        mTxBalanceDeltas := st.mTxBalanceDeltas.insert tx.hash d.txDeltas
        mTxSender := st.mTxSender.insert tx.hash sender
        mOpsPerAddress :=
          st.mOpsPerAddress.insert sender (st.getPendingOpsForAddress sender + ops.length) }
      (st.recordOperation sender now, true)

/-! ### Removing transactions -/

/-- The tickers the ISSUE operations of a list ask for. -/
def issueTickers (ops : List SRC20Operation) : List Bytes :=
  ops.filterMap fun op =>
    if op.action = .issue then op.getIssuance.map TokenIssuance.ticker else none

/-- The count of an address less `n`, never below zero, and no entry at zero. -/
def decreaseOps (m : AList fun _ : CScript => ℕ) (address : CScript) (n : ℕ) :
    AList fun _ : CScript => ℕ :=
  let count := (m.lookup address).getD 0
  let count := if n ≤ count then count - n else 0
  if count = 0 then m.erase address else m.insert address count

def removeTransaction (st : MempoolTokenState) (txid : Uint256) : MempoolTokenState :=
  match st.mTxOps.lookup txid with
  | none => st
  | some ops =>
    let st := { st with
      mPendingTickers :=
        (issueTickers ops).foldl (fun m ticker => m.erase ticker) st.mPendingTickers }
    let st :=
      match st.mTxBalanceDeltas.lookup txid with
      | none => st
      | some deltas => { st with
          mPendingBalances := settle st.mPendingBalances deltas
          mTxBalanceDeltas := st.mTxBalanceDeltas.erase txid }
    let st :=
      match st.mTxSender.lookup txid with
      | none => st
      | some sender => { st with
          mOpsPerAddress := decreaseOps st.mOpsPerAddress sender ops.length
          mTxSender := st.mTxSender.erase txid }
    { st with mTxOps := st.mTxOps.erase txid }

/-- Forget every transaction; the rate limit stays. -/
def clear (st : MempoolTokenState) : MempoolTokenState :=
  { empty with mRateLimitTimestamps := st.mRateLimitTimestamps }

end MempoolTokenState

end OpenSY.Mempool
