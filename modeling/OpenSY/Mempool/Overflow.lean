import OpenSY.Mempool.PendingLedger
import OpenSY.Lib.Transition

/-!
# The pending sums as machine words

The source keeps pending balances and the deltas of each transaction in `int64_t`.  `TokenState`
models them as integers; here every addition and subtraction on them is done with a check of its
result, in the order in which the source does them, and a result out of range stops the call
(`addTransactionChecked`, `removeTransactionChecked`, `runChecked`).

The guards of `AddTransaction` look at the shared balance only.  Two kinds of sums have no guard:
what one transaction adds up for itself, and what is left at an account once a transaction is
removed.  `InBounds` says that these fit, and `pending_sums_fit` that nothing else can go wrong: a
run of such calls never leaves the range, and computes what the unbounded model computes.
-/

namespace OpenSY.Mempool

open OpenSY.Chain OpenSY.Src20 OpenSY.Tokens OpenSY.Tallies OpenSY.Transition MempoolTokenState

variable {reserved : List Bytes}

/-! ### The calls with checked arithmetic -/

def fitsInt64 (z : ℤ) : Bool := int64Min ≤ z ∧ z ≤ int64Max

theorem fitsInt64_zero : fitsInt64 0 = true := by decide

theorem fitsInt64_iff {z : ℤ} : fitsInt64 z = true ↔ int64Min ≤ z ∧ z ≤ int64Max := by
  simp [fitsInt64]

def Draft.postChecked (d : Draft) (k : Account) (v : ℤ) : Option Draft := do
  let balances ← bumpChecked fitsInt64 d.balances k v
  let txDeltas ← bumpChecked fitsInt64 d.txDeltas k v
  return { d with balances := balances, txDeltas := txDeltas }

def Draft.debitChecked (d : Draft) (k : Account) (amount : ℕ) : Option (Except Draft Draft) :=
  if int64Max < amount then some (.error d)
  else if value d.balances k < int64Min + amount then some (.error d)
  else (d.postChecked k (-amount)).map .ok

def addOpChecked (reserved : List Bytes) (pendingTickers : AList fun _ : Bytes => Uint256)
    (tx : CTransaction) (sender : CScript) (d : Draft) (op : SRC20Operation) :
    Option (Except Draft Draft) :=
  match op.action with
  | .issue => some (addOp reserved pendingTickers tx sender d op)
  | .transfer =>
    match op.getTransfer with
    | none => some (.ok d)
    | some transfer =>
      match d.debitChecked (sender, transfer.tokenId) transfer.amount with
      | none => none
      | some (.error d) => some (.error d)
      | some (.ok d) =>
        match getTransferRecipient reserved tx with
        | none => some (.ok d)
        | some recipient =>
          if int64Max - transfer.amount < value d.balances (recipient, transfer.tokenId) then
            (d.postChecked (sender, transfer.tokenId) transfer.amount).map .error
          else (d.postChecked (recipient, transfer.tokenId) transfer.amount).map .ok
  | .burn =>
    match op.getBurn with
    | none => some (.ok d)
    | some burn => d.debitChecked (sender, burn.tokenId) burn.amount
  | .invalid => some (.ok d)

def addOpsChecked (reserved : List Bytes) (pendingTickers : AList fun _ : Bytes => Uint256)
    (tx : CTransaction) (sender : CScript) :
    Draft → List SRC20Operation → Option (Except Draft Draft)
  | d, [] => some (.ok d)
  | d, op :: ops =>
    match addOpChecked reserved pendingTickers tx sender d op with
    | none => none
    | some (.error d) => some (.error d)
    | some (.ok d) => addOpsChecked reserved pendingTickers tx sender d ops

namespace MempoolTokenState

def addTransactionChecked (reserved : List Bytes) (st : MempoolTokenState) (now : ℤ)
    (tx : CTransaction) (sender : CScript) : Option (MempoolTokenState × Bool) :=
  let ops := parseTransactionSRC20 reserved tx
  if ops.isEmpty then some (st, true)
  else if (st.mTxOps.lookup tx.hash).isSome then some (st, true)
  else if maxTotalPendingOps ≤ st.getPendingCount then some (st, false)
  else if maxPendingOpsPerAddress < st.getPendingOpsForAddress sender + ops.length then
    some (st, false)
  else if st.isRateLimited sender now then some (st, false)
  else
    match addOpsChecked reserved st.mPendingTickers tx sender ⟨st.mPendingBalances, ∅, []⟩ ops with
    | none => none
    | some (.error d) =>
      (revertChecked fitsInt64 d.balances d.txDeltas).map fun balances =>
        ({ st with mPendingBalances := balances }, false)
    | some (.ok d) =>
      let st := { st with
        mPendingBalances := d.balances
        mPendingTickers :=
          d.localPendingTickers.foldl (fun m ticker => m.insert ticker tx.hash) st.mPendingTickers
        mTxOps := st.mTxOps.insert tx.hash ops
        mTxBalanceDeltas := st.mTxBalanceDeltas.insert tx.hash d.txDeltas
        mTxSender := st.mTxSender.insert tx.hash sender
        mOpsPerAddress :=
          st.mOpsPerAddress.insert sender (st.getPendingOpsForAddress sender + ops.length) }
      some (st.recordOperation sender now, true)

/-- The subtractions from the shared balances are the only arithmetic on sums in a removal. -/
def removeTransactionChecked (st : MempoolTokenState) (txid : Uint256) : Option MempoolTokenState :=
  match st.mTxOps.lookup txid, st.mTxBalanceDeltas.lookup txid with
  | some _, some deltas =>
    (settleChecked fitsInt64 st.mPendingBalances deltas).map fun balances =>
      { st.removeTransaction txid with mPendingBalances := balances }
  | _, _ => some (st.removeTransaction txid)

end MempoolTokenState

/-- `step` with checked arithmetic. -/
def stepChecked (reserved : List Bytes) (s : MempoolTokenState × List Tracked) :
    Event → Option (MempoolTokenState × List Tracked)
  | .add now tx sender =>
    (addTransactionChecked reserved s.1 now tx sender).map fun call =>
      (call.1, if call.2 ∧ parseTransactionSRC20 reserved tx ≠ [] ∧
        ∀ e ∈ s.2, e.tx.hash ≠ tx.hash then ⟨tx, sender⟩ :: s.2 else s.2)
  | .remove txid => (s.1.removeTransactionChecked txid).map fun st => (st, untrack s.2 txid)
  | .clear => some (s.1.clear, [])

def runChecked (reserved : List Bytes) (events : List Event) :
    Option (MempoolTokenState × List Tracked) :=
  events.foldlM (stepChecked reserved) (empty, [])

/-! ### What has to fit -/

/-- The sums of one transaction that an operation makes, from the sums `own` before it. -/
def OpFits (recipient : Option CScript) (sender : CScript) (own : Account → ℤ)
    (op : SRC20Operation) : Prop :=
  match op.action with
  | .transfer => ∀ x, op.getTransfer = some x →
    fitsInt64 (own (sender, x.tokenId) - x.amount) = true ∧
      ∀ r, recipient = some r → r ≠ sender → fitsInt64 (own (r, x.tokenId) + x.amount) = true
  | .burn => ∀ x, op.getBurn = some x → fitsInt64 (own (sender, x.tokenId) - x.amount) = true
  | _ => True

/-- All sums that a list of operations makes for its transaction. -/
def OpsFit (recipient : Option CScript) (sender : CScript) :
    (Account → ℤ) → List SRC20Operation → Prop
  | _, [] => True
  | own, op :: ops => OpFits recipient sender own op ∧
    OpsFit recipient sender (fun k => own k + opDelta recipient sender op k) ops

/-- The sums without a guard fit: those a transaction adds up for itself, and those that a removal
leaves. -/
def InBounds (reserved : List Bytes) (s : MempoolTokenState × List Tracked) : Event → Prop
  | .add _ tx sender => OpsFit (getTransferRecipient reserved tx) sender (fun _ => 0)
      (parseTransactionSRC20 reserved tx)
  | .remove txid => ∀ k,
      fitsInt64 ((untrack s.2 txid).map fun e => netDelta reserved e.tx e.sender k).sum = true
  | .clear => True

/-! ### One transaction -/

/-- Both tallies are in range. -/
structure Draft.Fits (d : Draft) : Prop where
  balances : ∀ k, fitsInt64 (value d.balances k) = true
  txDeltas : ∀ k, fitsInt64 (value d.txDeltas k) = true

theorem fits_bump {m : Tally Account} {k : Account} {v : ℤ} (h : ∀ k, fitsInt64 (value m k) = true)
    (hk : fitsInt64 (value m k + v) = true) (k' : Account) :
    fitsInt64 (value (bump m k v) k') = true := by
  rw [value_bump]
  by_cases hkey : k' = k
  · rw [if_pos hkey, hkey]
    exact hk
  · rw [if_neg hkey, add_zero]
    exact h k'

theorem Draft.Fits.post {d : Draft} (h : d.Fits) {k : Account} {v : ℤ}
    (hbalance : fitsInt64 (value d.balances k + v) = true)
    (hdelta : fitsInt64 (value d.txDeltas k + v) = true) :
    d.postChecked k v = some (d.post k v) ∧ (d.post k v).Fits := by
  refine ⟨?_, ⟨fits_bump h.balances hbalance, fits_bump h.txDeltas hdelta⟩⟩
  rw [Draft.postChecked, bumpChecked, if_pos hbalance, bumpChecked, if_pos hdelta]
  rfl

/-- The guard of a debit protects the shared balance. -/
theorem Draft.Fits.debit {d : Draft} (h : d.Fits) {k : Account} {n : ℕ}
    (hdelta : fitsInt64 (value d.txDeltas k - n) = true) :
    d.debitChecked k n = some (d.debit k n) ∧
      ∀ d', d.debit k n = .ok d' → d'.Fits ∧ d' = d.post k (-n) ∧
        fitsInt64 (value d.balances k - n) = true := by
  rw [Draft.debitChecked, Draft.debit]
  by_cases hmax : int64Max < n
  · rw [if_pos hmax, if_pos hmax]
    exact ⟨rfl, by simp⟩
  by_cases hmin : value d.balances k < int64Min + n
  · rw [if_neg hmax, if_neg hmax, if_pos hmin, if_pos hmin]
    exact ⟨rfl, by simp⟩
  rw [if_neg hmax, if_neg hmax, if_neg hmin, if_neg hmin]
  have hrange := fitsInt64_iff.mp (h.balances k)
  have hbalance : fitsInt64 (value d.balances k - n) = true := fitsInt64_iff.mpr (by omega)
  rw [sub_eq_add_neg] at hbalance hdelta
  obtain ⟨hpost, hfits⟩ := h.post hbalance hdelta
  rw [hpost]
  refine ⟨rfl, ?_⟩
  intro d' hd'
  obtain rfl := Except.ok.inj hd'
  exact ⟨hfits, rfl, hbalance⟩

/-- What a checked call returns is what the unbounded one returns, in range. -/
def Agrees (checked : Option (Except Draft Draft)) (call : Except Draft Draft) : Prop :=
  checked = some call ∧ ∀ d, call = .ok d ∨ call = .error d → d.Fits

theorem agrees_ok {d : Draft} (h : d.Fits) : Agrees (some (.ok d)) (.ok d) := by
  refine ⟨rfl, ?_⟩
  rintro d' (heq | heq)
  · exact Except.ok.inj heq ▸ h
  · exact absurd heq (by simp)

theorem agrees_error {d : Draft} (h : d.Fits) : Agrees (some (.error d)) (.error d) := by
  refine ⟨rfl, ?_⟩
  rintro d' (heq | heq)
  · exact absurd heq (by simp)
  · exact Except.error.inj heq ▸ h

/-- Taking a debit back returns both sums to where they were. -/
theorem Draft.Fits.takeBack {d : Draft} (h : d.Fits) {k : Account} {n : ℕ}
    (he : (d.post k (-n)).Fits) :
    (d.post k (-n)).postChecked k n = some ((d.post k (-n)).post k n) ∧
      ((d.post k (-n)).post k n).Fits := by
  have hvalue := d.value_post k k (-n)
  refine he.post ?_ ?_
  · rw [hvalue.1, if_pos rfl, neg_add_cancel_right]
    exact h.balances k
  · rw [hvalue.2, if_pos rfl, neg_add_cancel_right]
    exact h.txDeltas k

/-- Crediting the recipient of a transfer after its sender was debited: the guard is on the shared
balance, the transaction's own sum fits by assumption unless it is the sender's. -/
theorem Draft.Fits.credit {d : Draft} (h : d.Fits) {sender r : CScript} {t : TokenId} {n : ℕ}
    (he : (d.post (sender, t) (-n)).Fits)
    (hguard : ¬int64Max - n < value (d.post (sender, t) (-n)).balances (r, t))
    (hother : r ≠ sender → fitsInt64 (value d.txDeltas (r, t) + n) = true) :
    (d.post (sender, t) (-n)).postChecked (r, t) n =
      some ((d.post (sender, t) (-n)).post (r, t) n) ∧
      ((d.post (sender, t) (-n)).post (r, t) n).Fits := by
  have hrange := fitsInt64_iff.mp (he.balances (r, t))
  refine he.post (fitsInt64_iff.mpr (by omega)) ?_
  rw [(d.value_post (sender, t) (r, t) (-n)).2]
  by_cases hself : r = sender
  · rw [hself, if_pos rfl, neg_add_cancel_right]
    exact h.txDeltas _
  · have hkey : (r, t) ≠ (sender, t) := fun heq => hself (Prod.ext_iff.mp heq).1
    rw [if_neg hkey, add_zero]
    exact hother hself

theorem agrees_transfer {pending : AList fun _ : Bytes => Uint256} {tx : CTransaction}
    {sender : CScript} {d : Draft} (h : d.Fits) {op : SRC20Operation}
    (haction : op.action = .transfer)
    (hop : OpFits (getTransferRecipient reserved tx) sender (value d.txDeltas) op) :
    Agrees (addOpChecked reserved pending tx sender d op)
      (addOp reserved pending tx sender d op) := by
  rw [addOpChecked, addOp]
  rw [OpFits] at hop
  simp only [haction] at hop ⊢
  cases hdata : op.getTransfer with
  | none => exact agrees_ok h
  | some x =>
    obtain ⟨hown, hother⟩ := hop x hdata
    obtain ⟨hchecked, hfits⟩ := h.debit hown
    simp only [hchecked]
    cases hdebit : d.debit (sender, x.tokenId) x.amount with
    | error e =>
      rcases d.debit_cases (sender, x.tokenId) x.amount with heq | heq
      · simp [hdebit] at heq
      · obtain rfl := Except.error.inj (hdebit.symm.trans heq)
        exact agrees_error h
    | ok e =>
      obtain ⟨he, rfl, -⟩ := hfits e hdebit
      cases hrec : getTransferRecipient reserved tx with
      | none => exact agrees_ok he
      | some r =>
        simp only
        by_cases hover : int64Max - x.amount <
            value (d.post (sender, x.tokenId) (-x.amount)).balances (r, x.tokenId)
        · rw [if_pos hover, if_pos hover, (h.takeBack he).1]
          exact agrees_error (h.takeBack he).2
        · obtain ⟨hpost, hcredit⟩ := h.credit he hover (hother r hrec)
          rw [if_neg hover, if_neg hover, hpost]
          exact agrees_ok hcredit

/-- **One operation** whose sums fit is entered without leaving the range. -/
theorem agrees_addOp {pending : AList fun _ : Bytes => Uint256} {tx : CTransaction}
    {sender : CScript} {d : Draft} (h : d.Fits) {op : SRC20Operation}
    (hop : OpFits (getTransferRecipient reserved tx) sender (value d.txDeltas) op) :
    Agrees (addOpChecked reserved pending tx sender d op)
      (addOp reserved pending tx sender d op) := by
  cases haction : op.action with
  | transfer => exact agrees_transfer h haction hop
  | issue =>
    rw [addOpChecked, addOp]
    simp only [haction]
    cases hdata : op.getIssuance with
    | none => exact agrees_ok h
    | some issuance =>
      simp only
      split_ifs
      · exact agrees_error h
      · exact agrees_error h
      · exact agrees_ok ⟨h.balances, h.txDeltas⟩
  | burn =>
    rw [addOpChecked, addOp]
    rw [OpFits] at hop
    simp only [haction] at hop ⊢
    cases hdata : op.getBurn with
    | none => exact agrees_ok h
    | some x =>
      obtain ⟨hchecked, hfits⟩ := h.debit (hop x hdata)
      refine ⟨hchecked, ?_⟩
      rintro d' (heq | heq)
      · exact (hfits d' heq).1
      · rcases d.debit_cases (sender, x.tokenId) x.amount with hcase | hcase
        · exact absurd (heq.symm.trans hcase) (by simp)
        · exact Except.error.inj (hcase.symm.trans heq) ▸ h
  | invalid =>
    rw [addOpChecked, addOp]
    simp only [haction]
    exact agrees_ok h

/-- **The loop**, by induction over the operations; the draft's own sums are the sums so far. -/
theorem agrees_addOps {pending : AList fun _ : Bytes => Uint256} {tx : CTransaction}
    {sender : CScript} (ops : List SRC20Operation) {d : Draft} (h : d.Fits)
    (hops : OpsFit (getTransferRecipient reserved tx) sender (value d.txDeltas) ops) :
    Agrees (addOpsChecked reserved pending tx sender d ops)
      (ops.foldlM (addOp reserved pending tx sender) d) := by
  induction ops generalizing d with
  | nil => exact agrees_ok h
  | cons op ops ih =>
    obtain ⟨hhead, htail⟩ := hops
    obtain ⟨hchecked, hfits⟩ : Agrees (addOpChecked reserved pending tx sender d op) _ :=
      agrees_addOp h hhead
    rw [addOpsChecked, List.foldlM_cons, hchecked]
    cases hop : addOp reserved pending tx sender d op with
    | error e => exact agrees_error (hfits e (Or.inr hop))
    | ok e =>
      refine ih (hfits e (Or.inl hop)) ?_
      have hsums : (fun k => value d.txDeltas k +
          opDelta (getTransferRecipient reserved tx) sender op k) = value e.txDeltas :=
        funext fun k => ((addOp_ok hop).1.txDeltas k).symm
      rw [← hsums]
      exact htail

/-! ### One call -/

/-- The pending balances are in range. -/
def BalancesFit (st : MempoolTokenState) : Prop :=
  ∀ k, fitsInt64 (value st.mPendingBalances k) = true

/-- **Step: an addition.**  A refused transaction is reverted to the balances before it, which fit.
-/
theorem addTransactionChecked_eq {st : MempoolTokenState} (h : BalancesFit st) (now : ℤ)
    {tx : CTransaction} {sender : CScript} (hops : OpsFit (getTransferRecipient reserved tx) sender
      (fun _ => 0) (parseTransactionSRC20 reserved tx)) :
    addTransactionChecked reserved st now tx sender =
      some (addTransaction reserved st now tx sender) ∧
      BalancesFit (addTransaction reserved st now tx sender).1 := by
  simp only [addTransactionChecked, addTransaction]
  split_ifs
  · exact ⟨rfl, h⟩
  · exact ⟨rfl, h⟩
  · exact ⟨rfl, h⟩
  · exact ⟨rfl, h⟩
  · exact ⟨rfl, h⟩
  · have hstart : Draft.Fits ⟨st.mPendingBalances, ∅, []⟩ := ⟨h, fun _ => fitsInt64_zero⟩
    obtain ⟨hchecked, hfits⟩ : Agrees (addOpsChecked reserved st.mPendingTickers tx sender
        ⟨st.mPendingBalances, ∅, []⟩ (parseTransactionSRC20 reserved tx)) _ :=
      agrees_addOps _ hstart hops
    rw [hchecked]
    cases hloop : (parseTransactionSRC20 reserved tx).foldlM
        (addOp reserved st.mPendingTickers tx sender) ⟨st.mPendingBalances, ∅, []⟩ with
    | ok d => exact ⟨rfl, (hfits d (Or.inl hloop)).balances⟩
    | error d =>
      have hbase : ∀ k, value d.balances k - value d.txDeltas k = value st.mPendingBalances k := by
        intro k
        rw [addOps_error _ hloop k, value_empty, sub_zero]
      have hrevert : revertChecked fitsInt64 d.balances d.txDeltas =
          some (revert d.balances d.txDeltas) := by
        refine revertChecked_eq fun k => ?_
        rw [hbase]
        exact h k
      refine ⟨by simp only [hrevert, Option.map_some], fun k => ?_⟩
      rw [value_revert, hbase]
      exact h k

/-- **Step: a removal** stays in range exactly if what the others have pending does. -/
theorem removeTransactionChecked_iff {st : MempoolTokenState} {tracked : List Tracked}
    (hledger : Ledgered reserved st tracked) (h : BalancesFit st) (txid : Uint256) :
    st.removeTransactionChecked txid = some (st.removeTransaction txid) ↔
      ∀ k, fitsInt64 ((untrack tracked txid).map fun e => netDelta reserved e.tx e.sender k).sum
        = true := by
  have hafter := (hledger.remove txid).balances
  simp only [← hafter]
  by_cases hex : ∃ e ∈ tracked, e.tx.hash = txid
  · obtain ⟨e, he, rfl⟩ := hex
    obtain ⟨deltas, hdeltas, hvalue⟩ := hledger.txDeltas e he
    have hops := (hledger.txOps e.tx.hash _).mpr ⟨e, he, rfl, rfl⟩
    have hbalances : (st.removeTransaction e.tx.hash).mPendingBalances =
        settle st.mPendingBalances deltas := by
      simp only [removeTransaction, hops, hdeltas]
      split <;> rfl
    simp only [hbalances, value_settle]
    rw [← settleChecked_eq_iff h]
    simp only [removeTransactionChecked, hops, hdeltas]
    constructor
    · intro hsome
      obtain ⟨balances, hsettle, hst⟩ := Option.map_eq_some_iff.mp hsome
      have heq := congrArg mPendingBalances hst
      rw [hsettle, ← hbalances]
      exact congrArg some heq
    · intro hsettle
      rw [hsettle, ← hbalances]
      rfl
  · rw [hledger.removeTransaction_untracked hex]
    have hnone : st.mTxOps.lookup txid = none := by
      rw [← hledger.txOps.isSome_iff] at hex
      simpa using hex
    refine ⟨fun _ => h, fun _ => ?_⟩
    simp only [removeTransactionChecked, hnone, removeTransaction]

/-! ### Runs -/

theorem stepChecked_eq {s : MempoolTokenState × List Tracked} (hledger : Ledgered reserved s.1 s.2)
    (h : BalancesFit s.1) {event : Event} (hbounds : InBounds reserved s event) :
    stepChecked reserved s event = some (step reserved s event) ∧
      BalancesFit (step reserved s event).1 := by
  cases event with
  | add now tx sender =>
    obtain ⟨hchecked, hfit⟩ := addTransactionChecked_eq h now hbounds
    refine ⟨?_, hfit⟩
    rw [stepChecked, hchecked, Option.map_some]
    rfl
  | remove txid =>
    have hremoved := (removeTransactionChecked_iff hledger h txid).mpr hbounds
    refine ⟨?_, fun k => ?_⟩
    · rw [stepChecked, hremoved, Option.map_some]
      rfl
    · show fitsInt64 (value (s.1.removeTransaction txid).mPendingBalances k) = true
      rw [(hledger.remove txid).balances]
      exact hbounds k
  | clear => exact ⟨rfl, fun _ => fitsInt64_zero⟩

theorem foldlM_stepChecked (events : List Event) {s : MempoolTokenState × List Tracked}
    (hledger : Ledgered reserved s.1 s.2) (h : BalancesFit s.1)
    (hbounds : Along (step reserved) (InBounds reserved) s events) :
    events.foldlM (stepChecked reserved) s = some (events.foldl (step reserved) s) ∧
      BalancesFit (events.foldl (step reserved) s).1 := by
  induction events generalizing s with
  | nil => exact ⟨rfl, h⟩
  | cons event events ih =>
    obtain ⟨hhead, htail⟩ := hbounds
    obtain ⟨hstep, hnext⟩ := stepChecked_eq hledger h hhead
    rw [List.foldlM_cons, hstep, List.foldl_cons]
    exact ih (hledger.step event) hnext htail

/-- **Pending sums as words.**  A run whose unguarded sums fit never leaves the range of `int64_t`,
and computes what it computes over the integers; the next removal then leaves the range exactly if
what the others have pending does. -/
theorem pending_sums_fit (reserved : List Bytes) (events : List Event)
    (h : Along (step reserved) (InBounds reserved) (empty, []) events) :
    runChecked reserved events = some (run reserved events) ∧
      (∀ a t, fitsInt64 ((run reserved events).1.getPendingBalanceDelta a t) = true) ∧
      ∀ txid, (run reserved events).1.removeTransactionChecked txid =
          some ((run reserved events).1.removeTransaction txid) ↔
        InBounds reserved (run reserved events) (.remove txid) := by
  obtain ⟨hrun, hfit⟩ := foldlM_stepChecked (s := (empty, [])) events (ledgered_empty ∅)
    (fun _ => fitsInt64_zero) h
  exact ⟨hrun, fun a t => hfit (a, t),
    fun txid => removeTransactionChecked_iff (ledgered_run reserved events) hfit txid⟩

/-! ### Sums that do not fit -/

def wholeSupply : ℕ := int64Max

/-- Sends all of token 7 to the script `[2]`. -/
def fundTx (hash : Uint256) : CTransaction :=
  ⟨hash, [⟨⟨1, 0⟩⟩], [⟨0, buildTransferScript ⟨7, wholeSupply⟩⟩, ⟨0, [2]⟩]⟩

/-- Burns all of token 7, as often as it has outputs. -/
def drainTx (times : ℕ) : CTransaction :=
  ⟨22, [⟨⟨2, 0⟩⟩], List.replicate times ⟨0, buildBurnScript ⟨7, wholeSupply⟩⟩⟩

/-- The premise is met by a transaction that is funded, spent and confirmed in this order. -/
theorem pending_sums_fit_in_order :
    Along (step []) (InBounds []) (empty, [])
      [.add 0 (fundTx 20) [1], .add 0 (drainTx 1) [2], .clear] ∧
      runChecked [] [.add 0 (fundTx 20) [1], .add 0 (drainTx 1) [2], .clear] =
        some (run [] [.add 0 (fundTx 20) [1], .add 0 (drainTx 1) [2], .clear]) := by
  have hfund : parseTransactionSRC20 [] (fundTx 20) =
      [⟨.transfer, .transfer ⟨7, wholeSupply⟩⟩] := by
    decide +kernel
  have hdrain : parseTransactionSRC20 [] (drainTx 1) = [⟨.burn, .burn ⟨7, wholeSupply⟩⟩] := by
    decide +kernel
  have hrange : fitsInt64 (-wholeSupply) = true ∧ fitsInt64 wholeSupply = true := by decide
  have hbounds : Along (step []) (InBounds []) (empty, [])
      [.add 0 (fundTx 20) [1], .add 0 (drainTx 1) [2], .clear] := by
    refine ⟨?_, ?_, trivial, trivial⟩
    · rw [InBounds, hfund]
      refine ⟨?_, trivial⟩
      intro x hx
      obtain rfl : (⟨7, wholeSupply⟩ : TokenTransfer) = x := Option.some.inj hx
      simpa using ⟨hrange.1, fun r _ _ => hrange.2⟩
    · rw [InBounds, hdrain]
      refine ⟨?_, trivial⟩
      intro x hx
      obtain rfl : (⟨7, wholeSupply⟩ : TokenBurn) = x := Option.some.inj hx
      simpa using hrange.1
  exact ⟨hbounds, (pending_sums_fit [] _ hbounds).1⟩

/-- Two sums without a guard: the second burn of one transaction brings its own sum to twice the
supply below zero while the shared balance is in range, and removing a burn between two credits
leaves both credits. -/
theorem unguarded_sums_leave_range :
    (runChecked [] [.add 0 (fundTx 20) [1]]).isSome = true ∧
    runChecked [] [.add 0 (fundTx 20) [1], .add 0 (drainTx 2) [2]] = none ∧
    (runChecked [] [.add 0 (fundTx 20) [1], .add 0 (drainTx 1) [2], .add 0 (fundTx 24) [3]]).isSome
      = true ∧
    runChecked [] [.add 0 (fundTx 20) [1], .add 0 (drainTx 1) [2], .add 0 (fundTx 24) [3],
      .remove 22] = none := by
  refine ⟨?_, ?_, ?_, ?_⟩
  · decide +kernel
  · decide +kernel
  · decide +kernel
  · decide +kernel

end OpenSY.Mempool
