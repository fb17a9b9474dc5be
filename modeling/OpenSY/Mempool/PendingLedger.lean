import OpenSY.Mempool.TokenState

/-!
# The pending ledger

What `MempoolTokenState` is for: a ledger of the transactions that are tracked at present.
`netDelta` says what a transaction adds to an account and takes from it; `Ledgered` says that all
six maps are determined by the list of tracked transactions, and `pending_ledger` that they are
after any run of additions, refused ones included, removals and clearings.

An ISSUE moves nothing here: the source enters its ticker and leaves the balances alone, since
nobody can spend a token before its issuance is confirmed.
-/

namespace OpenSY.Mempool

open OpenSY.Chain OpenSY.Src20 OpenSY.Tokens OpenSY.Tallies MempoolTokenState

variable {reserved : List Bytes}

/-! ### What a transaction does to an account -/

/-- Credit minus debit of one operation at an account. -/
def opDelta (recipient : Option CScript) (sender : CScript) (op : SRC20Operation)
    (k : Account) : ℤ :=
  match op.action, op.getTransfer, op.getBurn with
  | .transfer, some x, _ =>
    (if recipient.map (·, x.tokenId) = some k then (x.amount : ℤ) else 0) -
      if k = (sender, x.tokenId) then (x.amount : ℤ) else 0
  | .burn, _, some x => -if k = (sender, x.tokenId) then (x.amount : ℤ) else 0
  | _, _, _ => 0

/-- Credit minus debit of all operations of a transaction at an account. -/
def netDelta (reserved : List Bytes) (tx : CTransaction) (sender : CScript) (k : Account) : ℤ :=
  ((parseTransactionSRC20 reserved tx).map fun op =>
    opDelta (getTransferRecipient reserved tx) sender op k).sum

/-! ### Effective balance -/

/-- The effective balance is at most the confirmed one plus what is pending. -/
theorem getEffectiveBalance_le (st : MempoolTokenState) (db : TokenDB) (a : CScript) (t : TokenId) :
    (st.getEffectiveBalance db a t : ℤ) ≤
      max 0 (db.getBalance a t + st.getPendingBalanceDelta a t) := by
  simp only [getEffectiveBalance]
  split_ifs with hneg habs hsat
  all_goals omega

/-- A positive amount that can be transferred is confirmed or pending. -/
theorem le_of_canTransfer {st : MempoolTokenState} {db : TokenDB} {a : CScript} {t : TokenId}
    {n : ℕ} (hpos : 0 < n) (h : st.canTransfer db a t n = true) :
    (n : ℤ) ≤ db.getBalance a t + st.getPendingBalanceDelta a t := by
  have hle : n ≤ st.getEffectiveBalance db a t := by simpa [canTransfer] using h
  have hbound := getEffectiveBalance_le st db a t
  omega

/-! ### Entering the operations of one transaction -/

theorem Draft.value_post (d : Draft) (k k' : Account) (v : ℤ) :
    value (d.post k v).balances k' = value d.balances k' + (if k' = k then v else 0) ∧
      value (d.post k v).txDeltas k' = value d.txDeltas k' + if k' = k then v else 0 :=
  ⟨value_bump _ _ _ _, value_bump _ _ _ _⟩

/-- A debit either enters the amount in both tallies or leaves the draft alone. -/
theorem Draft.debit_cases (d : Draft) (k : Account) (n : ℕ) :
    d.debit k n = .ok (d.post k (-n)) ∨ d.debit k n = .error d := by
  unfold Draft.debit
  split_ifs
  · exact Or.inr rfl
  · exact Or.inr rfl
  · exact Or.inl rfl

/-- `d'` comes from `d` by entering `delta` in both tallies and asking for `tickers`. -/
structure Draft.Entered (d d' : Draft) (delta : Account → ℤ) (tickers : List Bytes) : Prop where
  balances : ∀ k, value d'.balances k = value d.balances k + delta k
  txDeltas : ∀ k, value d'.txDeltas k = value d.txDeltas k + delta k
  tickers : d'.localPendingTickers = d.localPendingTickers ++ tickers

theorem Draft.Entered.refl (d : Draft) : d.Entered d (fun _ => 0) [] :=
  ⟨fun _ => (add_zero _).symm, fun _ => (add_zero _).symm, (List.append_nil _).symm⟩

theorem Draft.Entered.trans {d d' d'' : Draft} {f g : Account → ℤ} {l l' : List Bytes}
    (h : d.Entered d' f l) (h' : d'.Entered d'' g l') :
    d.Entered d'' (fun k => f k + g k) (l ++ l') := by
  refine ⟨fun k => ?_, fun k => ?_, ?_⟩
  · rw [h'.balances, h.balances, add_assoc]
  · rw [h'.txDeltas, h.txDeltas, add_assoc]
  · rw [h'.tickers, h.tickers, List.append_assoc]

theorem Draft.Entered.congr {d d' : Draft} {f g : Account → ℤ} {l : List Bytes}
    (h : d.Entered d' f l) (hfg : ∀ k, g k = f k) : d.Entered d' g l :=
  ⟨fun k => by rw [h.balances, hfg], fun k => by rw [h.txDeltas, hfg], h.tickers⟩

theorem Draft.entered_post (d : Draft) (k : Account) (v : ℤ) :
    d.Entered (d.post k v) (fun k' => if k' = k then v else 0) [] :=
  ⟨fun k' => (d.value_post k k' v).1, fun k' => (d.value_post k k' v).2, (List.append_nil _).symm⟩

/-- `d'` has entered in its balances exactly what it has entered in its deltas, as `d` has. -/
def Draft.SameBase (d d' : Draft) : Prop :=
  ∀ k, value d'.balances k - value d'.txDeltas k = value d.balances k - value d.txDeltas k

theorem Draft.Entered.sameBase {d d' : Draft} {f : Account → ℤ} {l : List Bytes}
    (h : d.Entered d' f l) : d.SameBase d' := by
  intro k
  rw [h.balances, h.txDeltas]
  ring

/-- The two entries of a transfer are its delta. -/
theorem opDelta_transfer {op : SRC20Operation} (haction : op.action = .transfer) {x : TokenTransfer}
    (hx : op.getTransfer = some x) (recipient : Option CScript) (sender : CScript) (k : Account) :
    opDelta recipient sender op k =
      (if recipient.map (·, x.tokenId) = some k then (x.amount : ℤ) else 0) -
        if k = (sender, x.tokenId) then (x.amount : ℤ) else 0 := by
  rw [opDelta, haction, hx]

theorem opDelta_burn {op : SRC20Operation} (haction : op.action = .burn) {x : TokenBurn}
    (hx : op.getBurn = some x) (recipient : Option CScript) (sender : CScript) (k : Account) :
    opDelta recipient sender op k = -if k = (sender, x.tokenId) then (x.amount : ℤ) else 0 := by
  rw [opDelta, haction, hx]

theorem issueTickers_of_ne {op : SRC20Operation} (h : op.action ≠ .issue) :
    issueTickers [op] = [] := by
  simp [issueTickers, h]

/-- A transfer that goes through debits the sender and credits the recipient, if there is one. -/
theorem addOp_transfer_ok {pending : AList fun _ : Bytes => Uint256} {tx : CTransaction}
    {sender : CScript} {d d' : Draft} {op : SRC20Operation} (haction : op.action = .transfer)
    (h : addOp reserved pending tx sender d op = .ok d') :
    d.Entered d' (opDelta (getTransferRecipient reserved tx) sender op) [] := by
  rw [addOp] at h
  simp only [haction] at h
  cases hdata : op.getTransfer with
  | none =>
    simp only [hdata] at h
    obtain rfl := Except.ok.inj h
    refine (Draft.Entered.refl d).congr fun k => ?_
    rw [opDelta, haction, hdata]
  | some x =>
    simp only [hdata] at h
    have hdelta := opDelta_transfer haction hdata (getTransferRecipient reserved tx) sender
    rcases d.debit_cases (sender, x.tokenId) x.amount with hdebit | hdebit
    · rw [hdebit] at h
      have hfirst := d.entered_post (sender, x.tokenId) (-x.amount)
      cases hrec : getTransferRecipient reserved tx with
      | none =>
        simp only [hrec] at h
        obtain rfl := Except.ok.inj h
        refine hfirst.congr fun k => ?_
        rw [← hrec, hdelta, hrec]
        split_ifs <;> simp_all
      | some recipient =>
        simp only [hrec] at h
        split_ifs at h with hover
        obtain rfl := Except.ok.inj h
        refine (hfirst.trans (Draft.entered_post _ _ _)).congr fun k => ?_
        rw [← hrec, hdelta, hrec, Option.map_some]
        by_cases hk : k = (recipient, x.tokenId)
        · subst hk
          rw [if_pos rfl, if_pos rfl]
          split_ifs <;> ring
        · rw [if_neg (fun heq => hk (Option.some.inj heq).symm), if_neg hk]
          split_ifs <;> ring
    · rw [hdebit] at h
      simp at h

theorem addOp_issue_ok {pending : AList fun _ : Bytes => Uint256} {tx : CTransaction}
    {sender : CScript} {d d' : Draft} {op : SRC20Operation} (haction : op.action = .issue)
    (h : addOp reserved pending tx sender d op = .ok d') :
    d.Entered d' (opDelta (getTransferRecipient reserved tx) sender op) (issueTickers [op]) ∧
      ∀ ticker ∈ issueTickers [op], pending.lookup ticker = none := by
  simp only [addOp, haction] at h
  have hzero : ∀ k, opDelta (getTransferRecipient reserved tx) sender op k = 0 := by
    intro k
    rw [opDelta, haction]
  cases hdata : op.getIssuance with
  | none =>
    simp only [hdata] at h
    obtain rfl := Except.ok.inj h
    have hnone : issueTickers [op] = [] := by simp [issueTickers, haction, hdata]
    rw [hnone]
    exact ⟨(Draft.Entered.refl d).congr hzero, by simp⟩
  | some issuance =>
    simp only [hdata] at h
    have hone : issueTickers [op] = [issuance.ticker] := by simp [issueTickers, haction, hdata]
    split_ifs at h with hpending hlocal
    obtain rfl := Except.ok.inj h
    rw [hone]
    refine ⟨⟨fun k => ?_, fun k => ?_, rfl⟩, ?_⟩
    · rw [hzero, add_zero]
    · rw [hzero, add_zero]
    · intro ticker hticker
      obtain rfl := List.mem_singleton.mp hticker
      simpa using hpending

theorem addOp_burn_ok {pending : AList fun _ : Bytes => Uint256} {tx : CTransaction}
    {sender : CScript} {d d' : Draft} {op : SRC20Operation} (haction : op.action = .burn)
    (h : addOp reserved pending tx sender d op = .ok d') :
    d.Entered d' (opDelta (getTransferRecipient reserved tx) sender op) [] := by
  simp only [addOp, haction] at h
  cases hdata : op.getBurn with
  | none =>
    simp only [hdata] at h
    obtain rfl := Except.ok.inj h
    refine (Draft.Entered.refl d).congr fun k => ?_
    rw [opDelta, haction, hdata]
  | some x =>
    simp only [hdata] at h
    rcases d.debit_cases (sender, x.tokenId) x.amount with hdebit | hdebit
    · rw [hdebit] at h
      obtain rfl := Except.ok.inj h
      refine (d.entered_post _ _).congr fun k => ?_
      rw [opDelta_burn haction hdata]
      split_ifs <;> ring
    · rw [hdebit] at h
      simp at h

/-- **One operation that goes through** enters its delta, and asks for a ticker nobody has asked
for. -/
theorem addOp_ok {pending : AList fun _ : Bytes => Uint256} {tx : CTransaction} {sender : CScript}
    {d d' : Draft} {op : SRC20Operation} (h : addOp reserved pending tx sender d op = .ok d') :
    d.Entered d' (opDelta (getTransferRecipient reserved tx) sender op) (issueTickers [op]) ∧
      ∀ ticker ∈ issueTickers [op], pending.lookup ticker = none := by
  cases haction : op.action with
  | issue => exact addOp_issue_ok haction h
  | transfer =>
    rw [issueTickers_of_ne (by simp [haction])]
    exact ⟨addOp_transfer_ok haction h, by simp⟩
  | burn =>
    rw [issueTickers_of_ne (by simp [haction])]
    exact ⟨addOp_burn_ok haction h, by simp⟩
  | invalid =>
    rw [issueTickers_of_ne (by simp [haction])]
    simp only [addOp, haction] at h
    obtain rfl := Except.ok.inj h
    refine ⟨(Draft.Entered.refl d).congr fun k => ?_, by simp⟩
    rw [opDelta, haction]

/-- **One operation that is refused** leaves in the balances only what the deltas can take back. -/
theorem addOp_error {pending : AList fun _ : Bytes => Uint256} {tx : CTransaction}
    {sender : CScript} {d d' : Draft} {op : SRC20Operation}
    (h : addOp reserved pending tx sender d op = .error d') :
    d.SameBase d' := by
  rw [addOp] at h
  cases haction : op.action with
  | issue =>
    simp only [haction] at h
    cases hdata : op.getIssuance with
    | none => simp [hdata] at h
    | some issuance =>
      simp only [hdata] at h
      split_ifs at h
      · obtain rfl := Except.error.inj h
        exact fun _ => rfl
      · obtain rfl := Except.error.inj h
        exact fun _ => rfl
  | transfer =>
    simp only [haction] at h
    cases hdata : op.getTransfer with
    | none => simp [hdata] at h
    | some x =>
      simp only [hdata] at h
      rcases d.debit_cases (sender, x.tokenId) x.amount with hdebit | hdebit
      · rw [hdebit] at h
        cases hrec : getTransferRecipient reserved tx with
        | none => simp [hrec] at h
        | some recipient =>
          simp only [hrec] at h
          split_ifs at h
          -- the debit is taken back in both tallies before the revert
          obtain rfl := Except.error.inj h
          exact ((d.entered_post _ _).trans (Draft.entered_post _ _ _)).sameBase
      · rw [hdebit] at h
        obtain rfl := Except.error.inj h
        exact fun _ => rfl
  | burn =>
    simp only [haction] at h
    cases hdata : op.getBurn with
    | none => simp [hdata] at h
    | some x =>
      simp only [hdata] at h
      rcases d.debit_cases (sender, x.tokenId) x.amount with hdebit | hdebit
      · rw [hdebit] at h
        simp at h
      · rw [hdebit] at h
        obtain rfl := Except.error.inj h
        exact fun _ => rfl
  | invalid => simp [haction] at h

theorem issueTickers_cons (op : SRC20Operation) (ops : List SRC20Operation) :
    issueTickers (op :: ops) = issueTickers [op] ++ issueTickers ops := by
  rw [issueTickers, ← List.singleton_append, List.filterMap_append]
  rfl

theorem addOps_ok {pending : AList fun _ : Bytes => Uint256} {tx : CTransaction} {sender : CScript}
    (ops : List SRC20Operation) {d d' : Draft}
    (h : ops.foldlM (addOp reserved pending tx sender) d = .ok d') :
    d.Entered d' (fun k => (ops.map fun op =>
        opDelta (getTransferRecipient reserved tx) sender op k).sum) (issueTickers ops) ∧
      ∀ ticker ∈ issueTickers ops, pending.lookup ticker = none := by
  induction ops generalizing d with
  | nil =>
    obtain rfl := Except.ok.inj h
    exact ⟨Draft.Entered.refl d, by simp [issueTickers]⟩
  | cons op ops ih =>
    rw [List.foldlM_cons] at h
    cases hop : addOp reserved pending tx sender d op with
    | error e =>
      rw [hop] at h
      exact absurd h (by simp [bind, Except.bind])
    | ok e =>
      rw [hop] at h
      obtain ⟨hhead, hfresh⟩ := addOp_ok hop
      obtain ⟨htail, hrest⟩ := ih h
      rw [issueTickers_cons]
      refine ⟨(hhead.trans htail).congr fun k => by rw [List.map_cons, List.sum_cons], ?_⟩
      intro ticker hticker
      exact (List.mem_append.mp hticker).elim (hfresh ticker) (hrest ticker)

theorem addOps_error {pending : AList fun _ : Bytes => Uint256} {tx : CTransaction}
    {sender : CScript} (ops : List SRC20Operation) {d d' : Draft}
    (h : ops.foldlM (addOp reserved pending tx sender) d = .error d') : d.SameBase d' := by
  induction ops generalizing d with
  | nil => exact absurd h (by simp [pure, Except.pure])
  | cons op ops ih =>
    rw [List.foldlM_cons] at h
    cases hop : addOp reserved pending tx sender d op with
    | error e =>
      rw [hop] at h
      obtain rfl := Except.error.inj h
      exact addOp_error hop
    | ok e =>
      rw [hop] at h
      intro k
      rw [ih h k, (addOp_ok hop).1.sameBase k]

/-! ### What a call of `addTransaction` can do -/

/-- The state after `tx` has been entered with deltas `d`, up to the rate limit. -/
structure Recorded (reserved : List Bytes) (st st' : MempoolTokenState) (tx : CTransaction)
    (sender : CScript) (deltas : Tally Account) : Prop where
  deltas_value : ∀ k, value deltas k = netDelta reserved tx sender k
  balances : ∀ k, value st'.mPendingBalances k =
    value st.mPendingBalances k + netDelta reserved tx sender k
  fresh : ∀ ticker ∈ issueTickers (parseTransactionSRC20 reserved tx),
    st.mPendingTickers.lookup ticker = none
  asked : ∀ ticker ∈ issueTickers (parseTransactionSRC20 reserved tx),
    st'.mPendingTickers.lookup ticker = some tx.hash
  other : ∀ ticker ∉ issueTickers (parseTransactionSRC20 reserved tx),
    st'.mPendingTickers.lookup ticker = st.mPendingTickers.lookup ticker
  txOps : st'.mTxOps = st.mTxOps.insert tx.hash (parseTransactionSRC20 reserved tx)
  txDeltas : st'.mTxBalanceDeltas = st.mTxBalanceDeltas.insert tx.hash deltas
  txSender : st'.mTxSender = st.mTxSender.insert tx.hash sender
  ops : st'.mOpsPerAddress = st.mOpsPerAddress.insert sender
    (st.getPendingOpsForAddress sender + (parseTransactionSRC20 reserved tx).length)

/-- **Every way out of `addTransaction`**: nothing to do, refused with all balances as before, or
recorded. -/
theorem addTransaction_cases (reserved : List Bytes) (st : MempoolTokenState) (now : ℤ)
    (tx : CTransaction) (sender : CScript) :
    (addTransaction reserved st now tx sender = (st, true) ∧
      (parseTransactionSRC20 reserved tx = [] ∨ (st.mTxOps.lookup tx.hash).isSome)) ∨
    (∃ balances, (∀ k, value balances k = value st.mPendingBalances k) ∧
      addTransaction reserved st now tx sender =
        ({ st with mPendingBalances := balances }, false)) ∨
    (parseTransactionSRC20 reserved tx ≠ [] ∧ st.mTxOps.lookup tx.hash = none ∧
      ∃ st' deltas, addTransaction reserved st now tx sender = (st', true) ∧
        Recorded reserved st st' tx sender deltas) := by
  rw [addTransaction]
  by_cases hempty : parseTransactionSRC20 reserved tx = []
  · exact Or.inl ⟨by simp [hempty], Or.inl hempty⟩
  by_cases htracked : (st.mTxOps.lookup tx.hash).isSome
  · exact Or.inl ⟨by simp [htracked], Or.inr htracked⟩
  right
  simp only [List.isEmpty_iff, hempty, if_false, htracked, Bool.false_eq_true]
  split_ifs with hfull haddr hrate
  · exact Or.inl ⟨_, fun _ => rfl, rfl⟩
  · exact Or.inl ⟨_, fun _ => rfl, rfl⟩
  · exact Or.inl ⟨_, fun _ => rfl, rfl⟩
  · cases hloop : (parseTransactionSRC20 reserved tx).foldlM
        (addOp reserved st.mPendingTickers tx sender) ⟨st.mPendingBalances, ∅, []⟩ with
    | error d =>
      refine Or.inl ⟨revert d.balances d.txDeltas, fun k => ?_, rfl⟩
      rw [value_revert, addOps_error _ hloop k, value_empty, sub_zero]
    | ok d =>
      obtain ⟨hentered, hfresh⟩ := addOps_ok _ hloop
      refine Or.inr ⟨hempty, by simpa using htracked, _, d.txDeltas, rfl, ?_⟩
      have htickers := lookup_insert_keys (issueTickers (parseTransactionSRC20 reserved tx)) tx.hash
        st.mPendingTickers
      have hlocal : d.localPendingTickers = issueTickers (parseTransactionSRC20 reserved tx) :=
        hentered.tickers
      rw [← hlocal] at htickers
      refine ⟨fun k => ?_, fun k => hentered.balances k, hfresh, fun ticker hmem => ?_,
        fun ticker hmem => ?_, rfl, rfl, rfl, rfl⟩
      · rw [hentered.txDeltas, value_empty, zero_add]
        rfl
      · exact (htickers ticker).trans (if_pos (hlocal ▸ hmem))
      · exact (htickers ticker).trans (if_neg (hlocal ▸ hmem))

/-! ### The tracked transactions -/

/-- A transaction that was recorded, with the sender it was recorded for. -/
structure Tracked where
  tx : CTransaction
  sender : CScript
  deriving DecidableEq

/-- A per-transaction map files `f e` under the txid of every tracked `e`, and nothing else. -/
def Files {V : Type} (m : AList fun _ : Uint256 => V) (f : Tracked → V) (tracked : List Tracked) :
    Prop :=
  ∀ txid v, m.lookup txid = some v ↔ ∃ e ∈ tracked, e.tx.hash = txid ∧ f e = v

/-- What is tracked once `txid` is not. -/
def untrack (tracked : List Tracked) (txid : Uint256) : List Tracked :=
  tracked.filter fun e => e.tx.hash ≠ txid

theorem mem_untrack {tracked : List Tracked} {txid : Uint256} {e : Tracked} :
    e ∈ untrack tracked txid ↔ e ∈ tracked ∧ e.tx.hash ≠ txid := by
  simp [untrack]

section Files

variable {V : Type} {m : AList fun _ : Uint256 => V} {f : Tracked → V} {tracked : List Tracked}

theorem Files.insert (h : Files m f tracked) (e : Tracked)
    (hfresh : ∀ e' ∈ tracked, e'.tx.hash ≠ e.tx.hash) :
    Files (m.insert e.tx.hash (f e)) f (e :: tracked) := by
  intro txid v
  rw [List.exists_mem_cons_iff]
  by_cases htxid : txid = e.tx.hash
  · subst htxid
    have hnone : ¬ ∃ e' ∈ tracked, e'.tx.hash = e.tx.hash ∧ f e' = v := by
      rintro ⟨e', he', hhash, -⟩
      exact hfresh e' he' hhash
    rw [AList.lookup_insert]
    simp [hnone]
  · rw [AList.lookup_insert_ne htxid, h]
    simp [Ne.symm htxid]

theorem Files.erase (h : Files m f tracked) (txid : Uint256) :
    Files (m.erase txid) f (untrack tracked txid) := by
  intro txid' v
  simp only [mem_untrack, and_assoc]
  by_cases htxid : txid' = txid
  · subst htxid
    rw [AList.lookup_erase]
    refine ⟨by simp, ?_⟩
    rintro ⟨e, -, hne, hhash, -⟩
    exact absurd hhash hne
  · rw [AList.lookup_erase_ne htxid, h]
    constructor
    · rintro ⟨e, he, rfl, hv⟩
      exact ⟨e, he, htxid, rfl, hv⟩
    · rintro ⟨e, he, -, hhash, hv⟩
      exact ⟨e, he, hhash, hv⟩

theorem Files.isSome_iff (h : Files m f tracked) (txid : Uint256) :
    (m.lookup txid).isSome ↔ ∃ e ∈ tracked, e.tx.hash = txid := by
  rw [Option.isSome_iff_exists]
  constructor
  · rintro ⟨v, hv⟩
    obtain ⟨e, he, hhash, -⟩ := (h txid v).mp hv
    exact ⟨e, he, hhash⟩
  · rintro ⟨e, he, hhash⟩
    exact ⟨f e, (h txid _).mpr ⟨e, he, hhash, rfl⟩⟩

end Files

/-- **All six maps are determined by the tracked transactions.** -/
structure Ledgered (reserved : List Bytes) (st : MempoolTokenState)
    (tracked : List Tracked) : Prop where
  nodup : (tracked.map fun e => e.tx.hash).Nodup
  balances : ∀ k, value st.mPendingBalances k =
    (tracked.map fun e => netDelta reserved e.tx e.sender k).sum
  tickers : ∀ ticker txid, st.mPendingTickers.lookup ticker = some txid ↔
    ∃ e ∈ tracked, e.tx.hash = txid ∧
      ticker ∈ issueTickers (parseTransactionSRC20 reserved e.tx)
  ops : ∀ s, st.getPendingOpsForAddress s = (tracked.map fun e =>
    if e.sender = s then (parseTransactionSRC20 reserved e.tx).length else 0).sum
  txOps : Files st.mTxOps (fun e => parseTransactionSRC20 reserved e.tx) tracked
  txDeltas : ∀ e ∈ tracked, ∃ deltas, st.mTxBalanceDeltas.lookup e.tx.hash = some deltas ∧
    ∀ k, value deltas k = netDelta reserved e.tx e.sender k
  txDeltas_tracked : ∀ txid, (st.mTxBalanceDeltas.lookup txid).isSome →
    ∃ e ∈ tracked, e.tx.hash = txid
  txSender : Files st.mTxSender Tracked.sender tracked

theorem ledgered_empty (timestamps : AList fun _ : CScript => List ℤ) :
    Ledgered reserved { empty with mRateLimitTimestamps := timestamps } [] := by
  constructor <;> simp [empty, getPendingOpsForAddress, Files]

namespace Ledgered

variable {st st' : MempoolTokenState} {tracked : List Tracked}

theorem eq_of_hash (h : Ledgered reserved st tracked) {e e' : Tracked} (he : e ∈ tracked)
    (he' : e' ∈ tracked) (hhash : e.tx.hash = e'.tx.hash) : e = e' :=
  List.inj_on_of_nodup_map h.nodup he he' hhash

/-- **Step: a recorded transaction.** -/
theorem record (h : Ledgered reserved st tracked) {tx : CTransaction} {sender : CScript}
    {deltas : Tally Account} (hnew : st.mTxOps.lookup tx.hash = none)
    (hrec : Recorded reserved st st' tx sender deltas) :
    Ledgered reserved st' (⟨tx, sender⟩ :: tracked) := by
  have hfresh : ∀ e ∈ tracked, e.tx.hash ≠ tx.hash := by
    intro e he hhash
    have hsome := (h.txOps.isSome_iff tx.hash).mpr ⟨e, he, hhash⟩
    rw [hnew] at hsome
    simp at hsome
  refine ⟨?_, fun k => ?_, fun ticker txid => ?_, fun s => ?_, ?_, ?_, fun txid htx => ?_, ?_⟩
  · rw [List.map_cons, List.nodup_cons]
    refine ⟨fun hmem => ?_, h.nodup⟩
    obtain ⟨e, he, hhash⟩ := List.mem_map.mp hmem
    exact hfresh e he hhash
  · rw [hrec.balances, h.balances, List.map_cons, List.sum_cons, add_comm]
  · rw [List.exists_mem_cons_iff]
    by_cases hmem : ticker ∈ issueTickers (parseTransactionSRC20 reserved tx)
    · -- a ticker this transaction asks for is nobody else's
      have hnone : ¬ ∃ e ∈ tracked, e.tx.hash = txid ∧
          ticker ∈ issueTickers (parseTransactionSRC20 reserved e.tx) := by
        rw [← h.tickers, hrec.fresh ticker hmem]
        simp
      rw [hrec.asked ticker hmem]
      simp [hnone, hmem]
    · rw [hrec.other ticker hmem, h.tickers]
      simp [hmem]
  · rw [List.map_cons, List.sum_cons, ← h.ops, getPendingOpsForAddress, hrec.ops]
    by_cases hs : s = sender
    · subst hs
      rw [AList.lookup_insert, Option.getD_some, if_pos rfl, add_comm]
    · rw [AList.lookup_insert_ne hs, if_neg (Ne.symm hs), zero_add, getPendingOpsForAddress]
  · rw [hrec.txOps]
    exact h.txOps.insert ⟨tx, sender⟩ hfresh
  · intro e he
    rw [hrec.txDeltas]
    rcases List.mem_cons.mp he with rfl | he
    · exact ⟨deltas, AList.lookup_insert _, hrec.deltas_value⟩
    · rw [AList.lookup_insert_ne (hfresh e he)]
      exact h.txDeltas e he
  · rw [hrec.txDeltas] at htx
    rw [List.exists_mem_cons_iff]
    by_cases htxid : txid = tx.hash
    · exact Or.inl htxid.symm
    · rw [AList.lookup_insert_ne htxid] at htx
      exact Or.inr (h.txDeltas_tracked txid htx)
  · rw [hrec.txSender]
    exact h.txSender.insert ⟨tx, sender⟩ hfresh

/-- **Step: a refused transaction.** -/
theorem refuse (h : Ledgered reserved st tracked) {balances : Tally Account}
    (hvalue : ∀ k, value balances k = value st.mPendingBalances k) :
    Ledgered reserved { st with mPendingBalances := balances } tracked :=
  ⟨h.nodup, fun k => (hvalue k).trans (h.balances k), h.tickers, h.ops, h.txOps, h.txDeltas,
    h.txDeltas_tracked, h.txSender⟩

end Ledgered

/-! ### Removing a transaction -/

/-- Txids are unique, so exactly one entry goes. -/
theorem perm_untrack {tracked : List Tracked} (h : (tracked.map fun e => e.tx.hash).Nodup)
    {e : Tracked} (he : e ∈ tracked) : tracked.Perm (e :: untrack tracked e.tx.hash) := by
  have hsame : tracked.erase e = untrack tracked e.tx.hash := by
    rw [h.of_map.erase_eq_filter, untrack]
    refine List.filter_congr fun e' he' => ?_
    by_cases heq : e' = e
    · simp [heq]
    · have hhash : e'.tx.hash ≠ e.tx.hash := fun hhash =>
        heq (List.inj_on_of_nodup_map h he' he hhash)
      simp [heq, hhash]
  rw [← hsame]
  exact List.perm_cons_erase he

theorem decreaseOps_getD (m : AList fun _ : CScript => ℕ) (a s : CScript) {n : ℕ}
    (hn : n ≤ (m.lookup a).getD 0) :
    ((decreaseOps m a n).lookup s).getD 0 = (m.lookup s).getD 0 - if a = s then n else 0 := by
  rw [decreaseOps]
  simp only [if_pos hn]
  by_cases hs : a = s
  · subst hs
    rw [if_pos rfl]
    split_ifs with hzero
    · rw [AList.lookup_erase, Option.getD_none, hzero]
    · rw [AList.lookup_insert, Option.getD_some]
  · rw [if_neg hs, Nat.sub_zero]
    split_ifs
    · rw [AList.lookup_erase_ne (Ne.symm hs)]
    · rw [AList.lookup_insert_ne (Ne.symm hs)]

namespace Ledgered

variable {st : MempoolTokenState} {tracked : List Tracked}

/-- Removing what is not tracked changes nothing. -/
theorem removeTransaction_untracked (h : Ledgered reserved st tracked) {txid : Uint256}
    (hno : ¬ ∃ e ∈ tracked, e.tx.hash = txid) : st.removeTransaction txid = st := by
  have hnone : st.mTxOps.lookup txid = none := by
    rw [← h.txOps.isSome_iff] at hno
    simpa using hno
  rw [removeTransaction, hnone]

/-- Removing a tracked transaction takes its share out of each of the six maps. -/
theorem removeTransaction_tracked (h : Ledgered reserved st tracked) {e : Tracked}
    (he : e ∈ tracked) :
    ∃ deltas, (∀ k, value deltas k = netDelta reserved e.tx e.sender k) ∧
      st.removeTransaction e.tx.hash = { st with
        mPendingTickers := (issueTickers (parseTransactionSRC20 reserved e.tx)).foldl
          (fun m ticker => m.erase ticker) st.mPendingTickers
        mPendingBalances := settle st.mPendingBalances deltas
        mTxOps := st.mTxOps.erase e.tx.hash
        mTxBalanceDeltas := st.mTxBalanceDeltas.erase e.tx.hash
        mTxSender := st.mTxSender.erase e.tx.hash
        mOpsPerAddress := decreaseOps st.mOpsPerAddress e.sender
          (parseTransactionSRC20 reserved e.tx).length } := by
  obtain ⟨deltas, hdeltas, hvalue⟩ := h.txDeltas e he
  have hops := (h.txOps e.tx.hash _).mpr ⟨e, he, rfl, rfl⟩
  have hsender := (h.txSender e.tx.hash _).mpr ⟨e, he, rfl, rfl⟩
  refine ⟨deltas, hvalue, ?_⟩
  simp only [removeTransaction, hops, hdeltas, hsender]

/-- Its tickers are entered for a transaction and for no other, so without them those of the others
are left. -/
theorem tickers_untrack (h : Ledgered reserved st tracked) {e : Tracked} (he : e ∈ tracked)
    (ticker : Bytes) (txid : Uint256) :
    ((issueTickers (parseTransactionSRC20 reserved e.tx)).foldl (fun m ticker => m.erase ticker)
        st.mPendingTickers).lookup ticker = some txid ↔
      ∃ e' ∈ untrack tracked e.tx.hash, e'.tx.hash = txid ∧
        ticker ∈ issueTickers (parseTransactionSRC20 reserved e'.tx) := by
  simp only [lookup_erase_keys, mem_untrack, and_assoc]
  by_cases hmem : ticker ∈ issueTickers (parseTransactionSRC20 reserved e.tx)
  · have hown := (h.tickers ticker e.tx.hash).mpr ⟨e, he, rfl, hmem⟩
    rw [if_pos hmem]
    refine ⟨by simp, ?_⟩
    rintro ⟨e', he', hne, rfl, hmem'⟩
    have hother := (h.tickers ticker e'.tx.hash).mpr ⟨e', he', rfl, hmem'⟩
    exact absurd (Option.some.inj (hother.symm.trans hown)) hne
  · rw [if_neg hmem, h.tickers]
    constructor
    · rintro ⟨e', he', hhash, hmem'⟩
      refine ⟨e', he', fun heq => hmem ?_, hhash, hmem'⟩
      rw [← h.eq_of_hash he' he heq]
      exact hmem'
    · rintro ⟨e', he', -, hhash, hmem'⟩
      exact ⟨e', he', hhash, hmem'⟩

/-- The operations of a transaction are among those counted for its sender. -/
theorem ops_untrack (h : Ledgered reserved st tracked) {e : Tracked} (he : e ∈ tracked)
    (s : CScript) :
    ((decreaseOps st.mOpsPerAddress e.sender
        (parseTransactionSRC20 reserved e.tx).length).lookup s).getD 0 =
      ((untrack tracked e.tx.hash).map fun e' => if e'.sender = s then
        (parseTransactionSRC20 reserved e'.tx).length else 0).sum := by
  have hsplit : ∀ s', st.getPendingOpsForAddress s' =
      (if e.sender = s' then (parseTransactionSRC20 reserved e.tx).length else 0) +
      ((untrack tracked e.tx.hash).map fun e' => if e'.sender = s' then
        (parseTransactionSRC20 reserved e'.tx).length else 0).sum := by
    intro s'
    rw [h.ops, ((perm_untrack h.nodup he).map _).sum_eq, List.map_cons, List.sum_cons]
  have hle : (parseTransactionSRC20 reserved e.tx).length ≤
      st.getPendingOpsForAddress e.sender := by
    rw [hsplit, if_pos rfl]
    omega
  rw [decreaseOps_getD _ _ _ hle]
  have hs := hsplit s
  rw [getPendingOpsForAddress] at hs
  omega

/-- **Step: a removed transaction.** -/
theorem remove (h : Ledgered reserved st tracked) (txid : Uint256) :
    Ledgered reserved (st.removeTransaction txid) (untrack tracked txid) := by
  by_cases hex : ∃ e ∈ tracked, e.tx.hash = txid
  · obtain ⟨e, he, rfl⟩ := hex
    obtain ⟨deltas, hvalue, hst⟩ := h.removeTransaction_tracked he
    rw [hst]
    refine ⟨?_, fun k => ?_, h.tickers_untrack he, h.ops_untrack he, h.txOps.erase _, ?_,
      fun txid htx => ?_, h.txSender.erase _⟩
    · exact h.nodup.sublist (List.filter_sublist.map _)
    · show value (settle _ _) k = _
      rw [value_settle, hvalue, h.balances, ((perm_untrack h.nodup he).map _).sum_eq, List.map_cons,
        List.sum_cons]
      ring
    · intro e' he'
      obtain ⟨hmem, hne⟩ := mem_untrack.mp he'
      show ∃ deltas, AList.lookup e'.tx.hash (AList.erase _ _) = _ ∧ _
      rw [AList.lookup_erase_ne hne]
      exact h.txDeltas e' hmem
    · replace htx : (AList.lookup txid (st.mTxBalanceDeltas.erase e.tx.hash)).isSome = true := htx
      by_cases htxid : txid = e.tx.hash
      · rw [htxid, AList.lookup_erase] at htx
        simp at htx
      · rw [AList.lookup_erase_ne htxid] at htx
        obtain ⟨e', he', rfl⟩ := h.txDeltas_tracked txid htx
        exact ⟨e', mem_untrack.mpr ⟨he', htxid⟩, rfl⟩
  · have hsame : untrack tracked txid = tracked := by
      rw [untrack, List.filter_eq_self]
      intro e he
      simpa using fun hhash => hex ⟨e, he, hhash⟩
    rw [h.removeTransaction_untracked hex, hsame]
    exact h

/-- **Step: a call of `addTransaction`**, whatever comes of it. -/
theorem add (h : Ledgered reserved st tracked) (now : ℤ) (tx : CTransaction) (sender : CScript) :
    Ledgered reserved (addTransaction reserved st now tx sender).1
      (if (addTransaction reserved st now tx sender).2 ∧ parseTransactionSRC20 reserved tx ≠ [] ∧
          ∀ e ∈ tracked, e.tx.hash ≠ tx.hash then ⟨tx, sender⟩ :: tracked else tracked) := by
  rcases addTransaction_cases reserved st now tx sender with
    ⟨heq, hidle⟩ | ⟨balances, hvalue, heq⟩ | ⟨hops, hnew, st', deltas, heq, hrec⟩
  · rw [heq, if_neg ?_]
    · exact h
    · rintro ⟨-, hops, hfresh⟩
      rcases hidle with hempty | htracked
      · exact hops hempty
      · obtain ⟨e, he, hhash⟩ := (h.txOps.isSome_iff tx.hash).mp htracked
        exact hfresh e he hhash
  · rw [heq, if_neg (by simp)]
    exact h.refuse hvalue
  · have hfresh : ∀ e ∈ tracked, e.tx.hash ≠ tx.hash := by
      intro e he hhash
      have hsome := (h.txOps.isSome_iff tx.hash).mpr ⟨e, he, hhash⟩
      rw [hnew] at hsome
      simp at hsome
    rw [heq, if_pos ⟨rfl, hops, hfresh⟩]
    exact h.record hnew hrec

theorem removeAll (h : Ledgered reserved st tracked) (order : List Uint256) :
    Ledgered reserved (order.foldl removeTransaction st) (order.foldl untrack tracked) := by
  induction order generalizing st tracked with
  | nil => exact h
  | cons txid order ih => exact ih (h.remove txid)

end Ledgered

theorem mem_foldl_untrack (order : List Uint256) {tracked : List Tracked} {e : Tracked} :
    e ∈ order.foldl untrack tracked ↔ e ∈ tracked ∧ e.tx.hash ∉ order := by
  induction order generalizing tracked with
  | nil => simp
  | cons txid order ih => simp [ih, mem_untrack, and_assoc]

/-! ### Runs -/

inductive Event where
  | add (now : ℤ) (tx : CTransaction) (sender : CScript)
  | remove (txid : Uint256)
  | clear

/-- One call, together with the list of transactions it leaves tracked: an addition counts if the
call returned true, there was something to track and the txid was not tracked already. -/
def step (reserved : List Bytes) (s : MempoolTokenState × List Tracked) :
    Event → MempoolTokenState × List Tracked
  | .add now tx sender =>
    let call := addTransaction reserved s.1 now tx sender
    (call.1, if call.2 ∧ parseTransactionSRC20 reserved tx ≠ [] ∧
      ∀ e ∈ s.2, e.tx.hash ≠ tx.hash then ⟨tx, sender⟩ :: s.2 else s.2)
  | .remove txid => (s.1.removeTransaction txid, untrack s.2 txid)
  | .clear => (s.1.clear, [])

def run (reserved : List Bytes) (events : List Event) : MempoolTokenState × List Tracked :=
  events.foldl (step reserved) (empty, [])

/-- An addition tracks the transaction at hand or nothing. -/
theorem mem_step_add {s : MempoolTokenState × List Tracked} {now : ℤ} {tx : CTransaction}
    {sender : CScript} {e : Tracked} (he : e ∈ (step reserved s (.add now tx sender)).2) :
    e = ⟨tx, sender⟩ ∨ e ∈ s.2 := by
  simp only [step] at he
  split_ifs at he
  · exact List.mem_cons.mp he
  · exact Or.inr he

theorem Ledgered.step {s : MempoolTokenState × List Tracked} (h : Ledgered reserved s.1 s.2)
    (event : Event) :
    Ledgered reserved (step reserved s event).1 (Mempool.step reserved s event).2 := by
  cases event with
  | add now tx sender => exact h.add now tx sender
  | remove txid => exact h.remove txid
  | clear => exact ledgered_empty _

/-- **Every run keeps the six maps determined by what is tracked.** -/
theorem ledgered_run (reserved : List Bytes) (events : List Event) :
    Ledgered reserved (run reserved events).1 (run reserved events).2 := by
  have hrun : ∀ (events : List Event) (s : MempoolTokenState × List Tracked),
      Ledgered reserved s.1 s.2 →
      Ledgered reserved (events.foldl (step reserved) s).1 (events.foldl (step reserved) s).2 := by
    intro events
    induction events with
    | nil => exact fun s h => h
    | cons event events ih => exact fun s h => ih _ (h.step event)
  exact hrun events (empty, []) (ledgered_empty ∅)

/-- **The pending ledger.**  After any run, balances, tickers and counts are those of the tracked
transactions, the per-transaction maps have their txids as keys, and removing all of them in any
order leaves nothing behind. -/
theorem pending_ledger (reserved : List Bytes) (events : List Event) :
    (∀ a t, (run reserved events).1.getPendingBalanceDelta a t =
      ((run reserved events).2.map fun e => netDelta reserved e.tx e.sender (a, t)).sum) ∧
    (∀ ticker txid, (run reserved events).1.mPendingTickers.lookup ticker = some txid ↔
      ∃ e ∈ (run reserved events).2, e.tx.hash = txid ∧
        ticker ∈ issueTickers (parseTransactionSRC20 reserved e.tx)) ∧
    (∀ s, (run reserved events).1.getPendingOpsForAddress s =
      ((run reserved events).2.map fun e =>
        if e.sender = s then (parseTransactionSRC20 reserved e.tx).length else 0).sum) ∧
    (∀ txid, ((run reserved events).1.mTxOps.lookup txid).isSome =
        ((run reserved events).1.mTxBalanceDeltas.lookup txid).isSome ∧
      ((run reserved events).1.mTxOps.lookup txid).isSome =
        ((run reserved events).1.mTxSender.lookup txid).isSome ∧
      (((run reserved events).1.mTxOps.lookup txid).isSome ↔
        ∃ e ∈ (run reserved events).2, e.tx.hash = txid)) ∧
    ∀ order : List Uint256, order.Perm ((run reserved events).2.map fun e => e.tx.hash) →
      (∀ a t, (order.foldl removeTransaction (run reserved events).1).getPendingBalanceDelta a t
        = 0) ∧
      (∀ s, (order.foldl removeTransaction (run reserved events).1).getPendingOpsForAddress s = 0) ∧
      ∀ ticker, (order.foldl removeTransaction (run reserved events).1).isTickerPending ticker
        = false := by
  have h := ledgered_run reserved events
  refine ⟨fun a t => h.balances (a, t), h.tickers, h.ops,
    fun txid => ⟨?_, ?_, h.txOps.isSome_iff txid⟩, fun order hperm => ?_⟩
  · refine Bool.eq_iff_iff.mpr ((h.txOps.isSome_iff txid).trans ⟨?_, h.txDeltas_tracked txid⟩)
    rintro ⟨e, he, rfl⟩
    obtain ⟨deltas, hdeltas, -⟩ := h.txDeltas e he
    simp [hdeltas]
  · exact Bool.eq_iff_iff.mpr
      ((h.txOps.isSome_iff txid).trans (h.txSender.isSome_iff txid).symm)
  · have hgone : order.foldl untrack (run reserved events).2 = [] := by
      refine List.eq_nil_iff_forall_not_mem.mpr fun e he => ?_
      obtain ⟨hmem, hnot⟩ := (mem_foldl_untrack order).mp he
      exact hnot (hperm.symm.subset (List.mem_map_of_mem hmem))
    have hall := h.removeAll order
    rw [hgone] at hall
    refine ⟨fun a t => hall.balances (a, t), hall.ops, fun ticker => ?_⟩
    rw [isTickerPending, Option.isSome_eq_false_iff, Option.isNone_iff_eq_none,
      Option.eq_none_iff_forall_ne_some]
    intro txid htxid
    obtain ⟨e, he, -⟩ := (hall.tickers ticker txid).mp htxid
    simp at he

end OpenSY.Mempool
