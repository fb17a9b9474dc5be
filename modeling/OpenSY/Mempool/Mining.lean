import OpenSY.Mempool.Accept
import OpenSY.Mempool.PendingLedger
import OpenSY.Tokens.Replay

/-!
# From the mempool into a block

A transaction enters the mempool if each of its token operations passes on its own; a block applies
them one after the other.  `Admitted` collects what acceptance establishes about an operation,
`OpsCovered` is what the block asks of it: every debit is covered by what the debits before it
leave, an issuance has somebody to credit, and its token id is free.

Acceptance has checked each debit against the confirmed balance and the transactions before.  So the
first debit of a token by a transaction is safe, and `OpsOpen` is what is left: a later one has to
be covered by what the transaction itself has left.

* `walkOps_covered`, `walkTxs_covered` — the operations of one transaction, of a block;
* `opsCovered_iff_open`, `txsCovered_iff_open` — what acceptance contributes;
* `mined_in_full` — all operations of accepted transactions are applied if no transaction debits a
  token twice, and issuances have an issuer and an unused id.
-/

namespace OpenSY.Mempool

open OpenSY.Chain OpenSY.Src20 OpenSY.Tokens OpenSY.Tallies MempoolTokenState

variable {reserved : List Bytes} {db : TokenDB} {view : CoinsView}

/-! ### What acceptance establishes -/

/-- What is known of an operation that passed both rounds, with `n` issuances before it and `n'` up
to and including it. -/
inductive Admitted (reserved : List Bytes) (db : TokenDB) (st : MempoolTokenState)
    (tx : CTransaction) (sender : CScript) (baseFees : CAmount) (n n' : ℕ)
    (op : SRC20Operation) : Prop
  | issue (x : TokenIssuance) (action : op.action = .issue) (data : op.getIssuance = some x)
      (valid : x.isValid reserved = true) (free : db.tickerExists x.ticker = false)
      (notPending : st.isTickerPending x.ticker = false) (first : n = 0)
      (fee : minTokenIssuanceFee ≤ baseFees) (counted : n' = 1)
  | transfer (x : TokenTransfer) (recipient : CScript) (action : op.action = .transfer)
      (data : op.getTransfer = some x) (valid : x.isValid = true)
      (registered : db.tokenExists x.tokenId = true)
      (delivered : getTransferRecipient reserved tx = some recipient)
      (affordable : st.canTransfer db sender x.tokenId x.amount = true) (counted : n' = n)
  | burn (x : TokenBurn) (action : op.action = .burn) (data : op.getBurn = some x)
      (valid : x.isValid = true) (registered : db.tokenExists x.tokenId = true)
      (affordable : st.canTransfer db sender x.tokenId x.amount = true) (counted : n' = n)

theorem validateIssuance_ok {x : TokenIssuance} (h : validateIssuance reserved db x = .ok) :
    db.tickerExists x.ticker = false := by
  by_contra hexists
  rw [Bool.not_eq_false] at hexists
  rw [validateIssuance, if_pos hexists] at h
  split_ifs at h

theorem validateTransfer_ok {x : TokenTransfer} {tx : CTransaction} {sender : CScript}
    (h : validateTransfer reserved db x tx sender = .ok) :
    db.tokenExists x.tokenId = true ∧ ∃ recipient,
      getTransferRecipient reserved tx = some recipient := by
  rw [validateTransfer] at h
  split_ifs at h with hzero hexists hrec hbal
  refine ⟨by simpa using hexists, ?_⟩
  rwa [Option.isNone_iff_eq_none, ← ne_eq, Option.ne_none_iff_exists'] at hrec

theorem validateBurn_ok {x : TokenBurn} {sender : CScript} (h : validateBurn db x sender = .ok) :
    db.tokenExists x.tokenId = true := by
  rw [validateBurn] at h
  split_ifs at h with hzero hexists hbal
  simpa using hexists

/-- **Both rounds on one operation.** -/
theorem admitted_of_checks {st : MempoolTokenState} {tx : CTransaction} {sender : CScript}
    {baseFees : CAmount} {n n' : ℕ} {op : SRC20Operation}
    (hvalidate : validateOperation reserved db op tx sender = .ok)
    (hpending : checkPendingOp db st sender baseFees n op = .ok n') :
    Admitted reserved db st tx sender baseFees n n' op := by
  rw [validateOperation] at hvalidate
  cases hvalid : opIsValid reserved op with
  | false => simp [hvalid] at hvalidate
  | true =>
    rw [hvalid] at hvalidate
    rw [opIsValid] at hvalid
    rw [checkPendingOp] at hpending
    cases haction : op.action with
    | issue =>
      simp only [haction] at hvalidate hpending hvalid
      cases hdata : op.getIssuance with
      | none => simp [hdata] at hvalid
      | some x =>
        simp only [hdata, Option.map_some, Option.getD_some] at hvalidate hpending hvalid
        split_ifs at hpending with hticker hmulti hfee
        have hn : n = 0 := by omega
        subst hn
        refine .issue x haction hdata hvalid (validateIssuance_ok (by simpa using hvalidate))
          (by simpa using hticker) rfl ?_ (Except.ok.inj hpending).symm
        simpa using hfee
    | transfer =>
      simp only [haction] at hvalidate hpending hvalid
      cases hdata : op.getTransfer with
      | none => simp [hdata] at hvalid
      | some x =>
        simp only [hdata, Option.map_some, Option.getD_some] at hvalidate hpending hvalid
        split_ifs at hpending with hafford
        have hok : validateTransfer reserved db x tx sender = .ok := by simpa using hvalidate
        obtain ⟨hexists, recipient, hto⟩ := validateTransfer_ok hok
        exact .transfer x recipient haction hdata hvalid hexists hto (by simpa using hafford)
          (Except.ok.inj hpending).symm
    | burn =>
      simp only [haction] at hvalidate hpending hvalid
      cases hdata : op.getBurn with
      | none => simp [hdata] at hvalid
      | some x =>
        simp only [hdata, Option.map_some, Option.getD_some] at hvalidate hpending hvalid
        split_ifs at hpending with hafford
        exact .burn x haction hdata hvalid (validateBurn_ok (by simpa using hvalidate))
          (by simpa using hafford) (Except.ok.inj hpending).symm
    | invalid => simp [haction] at hvalid

/-- What is known of a list of operations that passed both rounds, one after the other. -/
inductive AdmittedAll (reserved : List Bytes) (db : TokenDB) (st : MempoolTokenState)
    (tx : CTransaction) (sender : CScript) (baseFees : CAmount) : ℕ → List SRC20Operation → Prop
  | nil (n : ℕ) : AdmittedAll reserved db st tx sender baseFees n []
  | cons {n n' : ℕ} {op : SRC20Operation} {ops : List SRC20Operation}
      (head : Admitted reserved db st tx sender baseFees n n' op)
      (tail : AdmittedAll reserved db st tx sender baseFees n' ops) :
      AdmittedAll reserved db st tx sender baseFees n (op :: ops)

theorem admittedAll_of_checks {st : MempoolTokenState} {tx : CTransaction} {sender : CScript}
    {baseFees : CAmount} {ops : List SRC20Operation}
    (hvalidate : ∀ op ∈ ops, validateOperation reserved db op tx sender = .ok) {n m : ℕ}
    (hpending : ops.foldlM (checkPendingOp db st sender baseFees) n = .ok m) :
    AdmittedAll reserved db st tx sender baseFees n ops := by
  induction ops generalizing n with
  | nil => exact .nil n
  | cons op ops ih =>
    rw [List.foldlM_cons] at hpending
    cases hop : checkPendingOp db st sender baseFees n op with
    | error reject =>
      rw [hop] at hpending
      exact absurd hpending (by simp [bind, Except.bind])
    | ok n' =>
      rw [hop] at hpending
      exact .cons (admitted_of_checks (hvalidate op List.mem_cons_self) hop)
        (ih (fun op' hop' => hvalidate op' (List.mem_cons_of_mem op hop')) hpending)

/-- **What a passed `preChecks` establishes.** -/
theorem preChecks_ok {st : MempoolTokenState} {now : ℤ} {tx : CTransaction} {r : Option CScript}
    (h : preChecks reserved db st now view tx = .ok r) :
    (∀ txin ∈ tx.vin, (view txin.prevout).isSome) ∧
      AdmittedAll reserved db st tx (senderScript view tx) (txFee tx (spentCoins view tx)) 0
        (parseTransactionSRC20 reserved tx) ∧
      r = if parseTransactionSRC20 reserved tx = [] then none else some (senderScript view tx) := by
  rw [preChecks, checkTxInputs] at h
  by_cases hinputs : tx.vin.all fun txin => (view txin.prevout).isSome
  · refine ⟨by simpa using hinputs, ?_⟩
    simp only [hinputs, if_true] at h
    cases hops : parseTransactionSRC20 reserved tx with
    | nil =>
      simp only [hops, List.isEmpty_nil, if_true] at h
      exact ⟨.nil 0, (Except.ok.inj h).symm⟩
    | cons op ops =>
      simp only [hops, List.isEmpty_cons, Bool.false_eq_true, if_false] at h
      cases hlimit : checkDoSLimits reserved st now tx (senderScript view tx) with
      | some limit => simp [hlimit] at h
      | none =>
        simp only [hlimit] at h
        split_ifs at h with haccept
        cases hloop : (op :: ops).foldlM (checkPendingOp db st (senderScript view tx)
            (txFee tx (spentCoins view tx))) 0 with
        | error reject => simp [hloop] at h
        | ok m =>
          simp only [hloop] at h
          refine ⟨admittedAll_of_checks ?_ hloop, ?_⟩
          swap
          · rw [if_neg (List.cons_ne_nil op ops)]
            exact (Except.ok.inj h).symm
          intro op' hop'
          simp only [checkMempoolAccept, validateTransaction, hops, Bool.not_eq_true',
            Bool.not_eq_false, List.all_map, List.all_eq_true] at haccept
          simpa using haccept op' hop'
  · simp [hinputs] at h

/-! ### What the block needs on top of it -/

/-- `funds` covers the debit of an operation; an issuance needs an issuer and an unused token id. -/
def OpCovered (db : TokenDB) (tx : CTransaction) (sender : CScript) (funds : Account → ℤ)
    (op : SRC20Operation) : Prop :=
  match op.action with
  | .issue => getIssuer tx ≠ [] ∧ db.tokenExists tx.hash = false
  | .transfer => ∀ x, op.getTransfer = some x → (x.amount : ℤ) ≤ funds (sender, x.tokenId)
  | .burn => ∀ x, op.getBurn = some x → (x.amount : ℤ) ≤ funds (sender, x.tokenId)
  | .invalid => True

theorem opCovered_transfer {tx : CTransaction} {sender : CScript} {funds : Account → ℤ}
    {op : SRC20Operation} {x : TokenTransfer} (haction : op.action = .transfer)
    (hdata : op.getTransfer = some x) :
    OpCovered db tx sender funds op ↔ (x.amount : ℤ) ≤ funds (sender, x.tokenId) := by
  simp only [OpCovered, haction, hdata, Option.some.injEq, forall_eq']

theorem opCovered_burn {tx : CTransaction} {sender : CScript} {funds : Account → ℤ}
    {op : SRC20Operation} {x : TokenBurn} (haction : op.action = .burn)
    (hdata : op.getBurn = some x) :
    OpCovered db tx sender funds op ↔ (x.amount : ℤ) ≤ funds (sender, x.tokenId) := by
  simp only [OpCovered, haction, hdata, Option.some.injEq, forall_eq']

/-- The same for operations one after the other, each changing the funds of the next. -/
def OpsCovered (reserved : List Bytes) (db : TokenDB) (tx : CTransaction) (sender : CScript) :
    (Account → ℤ) → List SRC20Operation → Prop
  | _, [] => True
  | funds, op :: ops => OpCovered db tx sender funds op ∧
    OpsCovered reserved db tx sender
      (fun k => funds k + opDelta (getTransferRecipient reserved tx) sender op k) ops

/-- The same for transactions one after the other. -/
def TxsCovered (reserved : List Bytes) (db : TokenDB) (view : CoinsView) :
    (Account → ℤ) → List CTransaction → Prop
  | _, [] => True
  | funds, tx :: txs =>
    OpsCovered reserved db tx (senderScript view tx) funds (parseTransactionSRC20 reserved tx) ∧
      TxsCovered reserved db view
        (fun k => funds k + netDelta reserved tx (senderScript view tx) k) txs

/-! ### The ledger of a block in progress -/

/-- `L` has grown out of `L₀`: balances of the tokens of `L₀` are `funds`, and `tickers` and `ids`
are what has been registered since. -/
structure Ahead (L₀ L : Ledger) (funds : Account → ℤ) (tickers : List Bytes) (ids : List Uint256) :
    Prop where
  balance : ∀ a t, (L₀.info t).isSome → (L.balance t a : ℤ) = funds (a, t)
  info : ∀ t, (L.info t).isSome ↔ (L₀.info t).isSome ∨ t ∈ ids
  ticker : ∀ k, (L.ticker k).isSome ↔ (L₀.ticker k).isSome ∨ k ∈ tickers

namespace Ahead

variable {L₀ L : Ledger} {funds : Account → ℤ} {tickers : List Bytes} {ids : List Uint256}
  {site : OpSite}

theorem issue (h : Ahead L₀ L funds tickers ids) (x : TokenIssuance) (issuer : CScript)
    (hnew : L₀.info site.txid = none) :
    Ahead L₀ (L.apply site (.issue x issuer)) funds (x.ticker :: tickers) (site.txid :: ids) := by
  refine ⟨fun a t ht => ?_, fun t => ?_, fun k => ?_⟩
  · have hne : t ≠ site.txid := by
      rintro rfl
      rw [hnew] at ht
      simp at ht
    rw [Ledger.apply_issue_balance, if_neg (by simp [hne])]
    exact h.balance a t ht
  · rw [Ledger.apply_info, List.mem_cons]
    by_cases ht : t = site.txid
    · subst ht
      show (Function.update L.info site.txid (some _) site.txid).isSome = true ↔ _
      rw [Function.update_self]
      simp
    · show (Function.update L.info site.txid _ t).isSome = true ↔ _
      rw [Function.update_of_ne ht, h.info]
      simp [ht]
  · show (Function.update L.ticker x.ticker (some site.txid) k).isSome = true ↔ _
    rw [List.mem_cons]
    by_cases hk : k = x.ticker
    · subst hk
      rw [Function.update_self]
      simp
    · rw [Function.update_of_ne hk, h.ticker]
      simp [hk]

/-- A move registers nothing, so only the balances have to be followed. -/
theorem of_move (h : Ahead L₀ L funds tickers ids) {op : TokenOp} {t : TokenId}
    (htoken : op.token site = t) (hticker : (L.apply site op).ticker = L.ticker)
    (hinfo : (L.infoAfter site op).isSome = (L.info t).isSome) {funds' : Account → ℤ}
    (hbalance : ∀ a t, (L₀.info t).isSome →
      ((L.apply site op).balance t a : ℤ) = funds' (a, t)) :
    Ahead L₀ (L.apply site op) funds' tickers ids := by
  refine ⟨hbalance, fun t' => ?_, fun k => by rw [hticker, h.ticker]⟩
  rw [Ledger.apply_info, htoken]
  by_cases ht : t' = t
  · subst ht
    rw [Function.update_self, hinfo, h.info]
  · rw [Function.update_of_ne ht, h.info]

theorem transfer (h : Ahead L₀ L funds tickers ids) {t : TokenId} {f d : CScript} {n : ℕ}
    (hn : n ≤ L.balance t f) {op : SRC20Operation} (haction : op.action = .transfer)
    (hdata : op.getTransfer = some ⟨t, n⟩) :
    Ahead L₀ (L.apply site (.transfer t f d n)) (fun k => funds k + opDelta (some d) f op k) tickers
      ids := by
  refine h.of_move rfl ?_ ?_ fun a t' ht' => ?_
  · simp only [Ledger.apply]
    split_ifs <;> rfl
  · simp only [Ledger.infoAfter, TokenOp.token, Option.isSome_map]
  · have hold := h.balance a t' ht'
    rw [Ledger.apply_transfer_balance, opDelta_transfer haction hdata, Option.map_some]
    simp only [Option.some.injEq, Prod.mk.injEq]
    by_cases ht : t' = t
    · subst ht
      by_cases hfd : f = d
      · -- a self-transfer leaves the balance alone, and its two entries cancel
        subst hfd
        rw [if_pos rfl, hold]
        by_cases ha : a = f
        · rw [if_pos ⟨ha.symm, rfl⟩, if_pos ⟨ha, rfl⟩]
          ring
        · rw [if_neg (fun hand => ha hand.1.symm), if_neg (fun hand => ha hand.1)]
          ring
      · rw [if_neg hfd]
        by_cases had : a = d
        · subst had
          rw [if_pos ⟨rfl, rfl⟩, if_pos ⟨rfl, rfl⟩, if_neg (by simp [Ne.symm hfd]), ← hold]
          push_cast
          ring
        · by_cases haf : a = f
          · subst haf
            rw [if_neg (by simp [had]), if_pos ⟨rfl, rfl⟩, if_neg (by simp [Ne.symm had]),
              if_pos ⟨rfl, rfl⟩, ← hold]
            omega
          · rw [if_neg (by simp [had]), if_neg (by simp [haf]), if_neg (by simp [Ne.symm had]),
              if_neg (by simp [haf]), ← hold]
            ring
    · simp [ht, Ne.symm ht, hold]

theorem burn (h : Ahead L₀ L funds tickers ids) {t : TokenId} {f : CScript} {n : ℕ}
    (hn : n ≤ L.balance t f) {op : SRC20Operation} (haction : op.action = .burn)
    (hdata : op.getBurn = some ⟨t, n⟩) (recipient : Option CScript) :
    Ahead L₀ (L.apply site (.burn t f n)) (fun k => funds k + opDelta recipient f op k)
      tickers ids := by
  refine h.of_move rfl rfl ?_ fun a t' ht' => ?_
  · simp only [Ledger.infoAfter, TokenOp.token, Option.isSome_map]
  · have hold := h.balance a t' ht'
    rw [Ledger.apply_burn_balance, opDelta_burn haction hdata]
    simp only [Prod.mk.injEq]
    by_cases hat : a = f ∧ t' = t
    · obtain ⟨rfl, rfl⟩ := hat
      rw [if_pos ⟨rfl, rfl⟩, if_pos ⟨rfl, rfl⟩, ← hold]
      omega
    · rw [if_neg hat, if_neg (fun hta => hat hta.symm), ← hold]
      ring

end Ahead

/-! ### One operation of the block -/

section Walk

variable {height : ℕ} {time : ℤ} {tx : CTransaction} {txundo : CTxUndo}

theorem walkOp_applied {w : TxWalk Records} (hs : StoreSound w.state)
    (hroom : w.opsCount < maxTokensPerBlock) {op : SRC20Operation} {req : TokenOp}
    (hreq : request reserved tx txundo w.issueCountThisTx op = some req)
    (hacc : w.state.ledger.Accepts ⟨tx.hash, height, time, w.txOpIndex⟩ req) :
    ∃ r, walkOp plainOp reserved height time tx txundo w op = w.accept r tx.hash req ∧
      StoreSound r ∧
      r.ledger = w.state.ledger.apply ⟨tx.hash, height, time, w.txOpIndex⟩ req := by
  obtain ⟨writes, hwrites⟩ := Option.isSome_iff_exists.mp ((opWrites_isSome_iff _ _ _).mpr hacc)
  have hop := request_wellFormed hreq
  refine ⟨_, ?_, storeSound_step hs hop hwrites
      (undoOf w.state ⟨tx.hash, height, time, w.txOpIndex⟩ req), ledger_step hs hop hwrites _⟩
  rw [walkOp, if_neg (not_le.mpr hroom), hreq]
  simp [plainOp, hwrites]

theorem walkOp_skipped {w : TxWalk Records} {op : SRC20Operation}
    (h : ∀ req, request reserved tx txundo w.issueCountThisTx op = some req →
      ¬ w.state.ledger.Accepts ⟨tx.hash, height, time, w.txOpIndex⟩ req) :
    walkOp plainOp reserved height time tx txundo w op = w := by
  rcases walkOp_plainOp_cases reserved height time tx txundo w op with
    hsame | ⟨req, writes, hreq, hwrites, -⟩
  · exact hsame
  · exact absurd ((opWrites_isSome_iff _ _ _).mp (by simp [hwrites])) (h req hreq)

/-- The state at an operation of `tx`: what acceptance was told (`st`, `sender`, `baseFees`) and
where the block stands (`L`, `funds`, `tickers`, `ids`). -/
structure InStep (db : TokenDB) (st : MempoolTokenState) (tx : CTransaction) (txundo : CTxUndo)
    (sender : CScript) (baseFees : CAmount) (n : ℕ) (L : Ledger) (funds : Account → ℤ)
    (tickers : List Bytes) (ids : List Uint256) : Prop where
  sender_eq : getSender tx txundo = sender
  fee_eq : txFee tx txundo = baseFees
  ahead : Ahead db.records.ledger L funds tickers ids
  /-- until the transaction has issued, the block has registered nothing that it could clash with -/
  fresh : n = 0 → (∀ k ∈ tickers, st.isTickerPending k = true) ∧ tx.hash ∉ ids

/-- Block and acceptance agree on an operation: it is covered, and applied with the block staying in
step, or it is not covered and skipped. -/
def Agreed (reserved : List Bytes) (db : TokenDB) (st : MempoolTokenState) (tx : CTransaction)
    (txundo : CTxUndo) (sender : CScript) (baseFees : CAmount) (n n' : ℕ) (L : Ledger)
    (funds : Account → ℤ) (tickers : List Bytes) (ids : List Uint256) (op : SRC20Operation)
    (site : OpSite) : Prop :=
  (OpCovered db tx sender funds op ∧
    ∃ req, request reserved tx txundo n op = some req ∧ L.Accepts site req ∧
      (∀ (w : TxWalk Records) r, w.issueCountThisTx = n →
        (w.accept r tx.hash req).issueCountThisTx = n') ∧
      ∃ ids', ids' ⊆ tx.hash :: ids ∧
        InStep db st tx txundo sender baseFees n' (L.apply site req)
          (fun k => funds k + opDelta (getTransferRecipient reserved tx) sender op k)
          (issueTickers [op] ++ tickers) ids') ∨
  (¬ OpCovered db tx sender funds op ∧ ∀ req, request reserved tx txundo n op = some req →
    ¬ L.Accepts site req)

/-- Transfers and burns: cover and acceptance are the same question about a balance. -/
theorem InStep.agreed_of_debit {st : MempoolTokenState} {sender : CScript} {baseFees : CAmount}
    {n : ℕ} {op : SRC20Operation} {L : Ledger} {funds : Account → ℤ} {tickers : List Bytes}
    {ids : List Uint256} (hstep : InStep db st tx txundo sender baseFees n L funds tickers ids)
    {site : OpSite} {req : TokenOp} {P : Prop} (haction : op.action ≠ .issue)
    (hreq : request reserved tx txundo n op = some req)
    (hcovered : OpCovered db tx sender funds op ↔ P) (hacc : L.Accepts site req ↔ P)
    (hcount : ∀ (w : TxWalk Records) r, w.issueCountThisTx = n →
      (w.accept r tx.hash req).issueCountThisTx = n)
    (hahead : P → Ahead db.records.ledger (L.apply site req)
      (fun k => funds k + opDelta (getTransferRecipient reserved tx) sender op k) tickers ids) :
    Agreed reserved db st tx txundo sender baseFees n n L funds tickers ids op site := by
  rw [Agreed, hcovered, hreq, issueTickers_of_ne haction]
  by_cases hP : P
  · exact Or.inl ⟨hP, req, rfl, hacc.mpr hP, hcount, ids, List.subset_cons_self _ _,
      hstep.sender_eq, hstep.fee_eq, hahead hP, hstep.fresh⟩
  · refine Or.inr ⟨hP, ?_⟩
    intro req' hsome haccepts
    obtain rfl := Option.some.inj hsome
    exact hP (hacc.mp haccepts)

theorem tokenExists_ledger (hc : CacheCoherent db) (t : TokenId) :
    db.tokenExists t = (db.records.ledger.info t).isSome := tokenExists_eq hc t

/-- A debit of a registered token is covered exactly if the ledger has the balance. -/
theorem InStep.le_funds_iff {st : MempoolTokenState} {sender : CScript} {baseFees : CAmount} {n : ℕ}
    {L : Ledger} {funds : Account → ℤ} {tickers : List Bytes} {ids : List Uint256}
    (hstep : InStep db st tx txundo sender baseFees n L funds tickers ids) (hc : CacheCoherent db)
    {t : TokenId} (hregistered : db.tokenExists t = true) (amount : ℕ) :
    (amount : ℤ) ≤ funds (sender, t) ↔ amount ≤ L.balance t sender := by
  rw [tokenExists_ledger hc] at hregistered
  rw [← hstep.ahead.balance sender t hregistered]
  exact Nat.cast_le

/-- The ledger accepts an issuance whose ticker is free and not pending, unless the token id is
taken. -/
theorem InStep.accepts_issue_iff {st : MempoolTokenState} {sender : CScript} {baseFees : CAmount}
    {L : Ledger} {funds : Account → ℤ} {tickers : List Bytes} {ids : List Uint256}
    (hstep : InStep db st tx txundo sender baseFees 0 L funds tickers ids) (hc : CacheCoherent db)
    {x : TokenIssuance} (hfree : db.tickerExists x.ticker = false)
    (hpending : st.isTickerPending x.ticker = false) (issuer : CScript) (height : ℕ) (time : ℤ)
    (opIndex : ℕ) :
    L.Accepts ⟨tx.hash, height, time, opIndex⟩ (.issue x issuer) ↔
      db.tokenExists tx.hash = false := by
  obtain ⟨hnoted, hid⟩ := hstep.fresh rfl
  have hticker : L.ticker x.ticker = none := by
    rw [← Option.not_isSome_iff_eq_none, hstep.ahead.ticker]
    rintro (hold | hmem)
    · exact absurd (hold.symm.trans hfree) (by simp)
    · exact absurd ((hnoted _ hmem).symm.trans hpending) (by simp)
  have hinfo : L.info tx.hash = none ↔ db.tokenExists tx.hash = false := by
    rw [← Option.not_isSome_iff_eq_none, hstep.ahead.info, tokenExists_ledger hc]
    simp [hid]
  rw [← hinfo]
  exact ⟨fun h => h.2, fun h => ⟨hticker, h⟩⟩

/-- Issuances: the block asks for an issuer and a token id that is not taken. -/
theorem InStep.agreed_of_issue {st : MempoolTokenState} {sender : CScript} {baseFees : CAmount}
    {L : Ledger} {funds : Account → ℤ} {tickers : List Bytes} {ids : List Uint256}
    (hstep : InStep db st tx txundo sender baseFees 0 L funds tickers ids) (hc : CacheCoherent db)
    {op : SRC20Operation} {x : TokenIssuance} (haction : op.action = .issue)
    (hdata : op.getIssuance = some x)
    (hreq : request reserved tx txundo 0 op = if (getIssuer tx).isEmpty then none
      else some (.issue x (getIssuer tx)))
    {site : OpSite} (hsite : site.txid = tx.hash)
    (hacc : L.Accepts site (.issue x (getIssuer tx)) ↔ db.tokenExists tx.hash = false) :
    Agreed reserved db st tx txundo sender baseFees 0 1 L funds tickers ids op site := by
  have hcovered : OpCovered db tx sender funds op ↔
      getIssuer tx ≠ [] ∧ db.tokenExists tx.hash = false := by rw [OpCovered, haction]
  rw [Agreed, hcovered, hreq]
  by_cases hissuer : getIssuer tx = []
  · right
    simp [hissuer]
  rw [if_neg (by simpa using hissuer)]
  by_cases hnew : db.tokenExists tx.hash = false
  · left
    have hzero : ∀ k, opDelta (getTransferRecipient reserved tx) sender op k = 0 := by
      intro k
      rw [opDelta, haction]
    have hown : issueTickers [op] = [x.ticker] := by simp [issueTickers, haction, hdata]
    have hnone : db.records.ledger.info site.txid = none := by
      rw [tokenExists_ledger hc] at hnew
      simpa [hsite] using hnew
    refine ⟨⟨hissuer, hnew⟩, _, rfl, hacc.mpr hnew, ?_, tx.hash :: ids, List.Subset.refl _,
      hstep.sender_eq, hstep.fee_eq, ?_, by simp⟩
    · intro w r hw
      simp [TxWalk.accept, hw]
    · simp only [hzero, add_zero, hown, List.singleton_append]
      rw [← hsite]
      exact hstep.ahead.issue x _ hnone
  · right
    refine ⟨fun hcov => hnew hcov.2, ?_⟩
    intro req hsome haccepts
    obtain rfl := Option.some.inj hsome
    exact hnew (hacc.mp haccepts)

/-- **An admitted operation is accepted by the block exactly if it is covered**, and the block stays
in step then. -/
theorem Admitted.accepted_iff {st : MempoolTokenState} {sender : CScript} {baseFees : CAmount}
    {n n' : ℕ} {op : SRC20Operation} (hadm : Admitted reserved db st tx sender baseFees n n' op)
    (hc : CacheCoherent db) {L : Ledger} (hs : Sound L) {funds : Account → ℤ} {tickers : List Bytes}
    {ids : List Uint256} (hstep : InStep db st tx txundo sender baseFees n L funds tickers ids)
    (height : ℕ) (time : ℤ) (opIndex : ℕ) :
    Agreed reserved db st tx txundo sender baseFees n n' L funds tickers ids op
      ⟨tx.hash, height, time, opIndex⟩ := by
  cases hadm with
  | issue x action data valid free notPending first fee counted =>
    subst first counted
    have hreq : request reserved tx txundo 0 op =
        if (getIssuer tx).isEmpty then none else some (.issue x (getIssuer tx)) := by
      simp only [request, action, data, valid, hstep.fee_eq, Bool.not_true,
        Bool.false_eq_true, if_false, Nat.cast_zero, zero_add, mul_one, if_neg (not_lt.mpr fee)]
    exact hstep.agreed_of_issue hc action data hreq rfl
      (hstep.accepts_issue_iff hc free notPending _ height time opIndex)
  | transfer x recipient action data valid registered delivered affordable counted =>
    subst counted
    have hcovered : OpCovered db tx sender funds op ↔ x.amount ≤ L.balance x.tokenId sender :=
      (opCovered_transfer action data).trans (hstep.le_funds_iff hc registered x.amount)
    have hreq : request reserved tx txundo n' op =
        some (.transfer x.tokenId sender recipient x.amount) := by
      simp [request, action, data, valid, delivered, hstep.sender_eq]
    refine hstep.agreed_of_debit (by simp [action]) hreq hcovered
      (hs.accepts_transfer (isValidMove_bounds valid).1) (fun _ _ hw => hw) fun hfunds => ?_
    rw [delivered]
    exact hstep.ahead.transfer hfunds action data
  | burn x action data valid registered affordable counted =>
    subst counted
    have hcovered : OpCovered db tx sender funds op ↔ x.amount ≤ L.balance x.tokenId sender :=
      (opCovered_burn action data).trans (hstep.le_funds_iff hc registered x.amount)
    have hreq : request reserved tx txundo n' op = some (.burn x.tokenId sender x.amount) := by
      simp [request, action, data, valid, hstep.sender_eq]
    exact hstep.agreed_of_debit (by simp [action]) hreq hcovered
      (hs.accepts_burn (isValidMove_bounds valid).1) (fun _ _ hw => hw) fun hfunds =>
        hstep.ahead.burn hfunds action data _

/-- An operation that is skipped is never made up for. -/
theorem walkOps_opsCount_le (ops : List SRC20Operation) (w : TxWalk Records) :
    (ops.foldl (walkOp plainOp reserved height time tx txundo) w).opsCount ≤
      w.opsCount + ops.length := by
  obtain ⟨us, hlen, -, -, hops⟩ := walkOps_log reserved height time tx txundo ops w
  omega

/-- **The operations of one transaction** are all applied exactly if they are covered. -/
theorem walkOps_covered (height : ℕ) (time : ℤ) {st : MempoolTokenState} {sender : CScript}
    {baseFees : CAmount} {n : ℕ} {ops : List SRC20Operation}
    (hadm : AdmittedAll reserved db st tx sender baseFees n ops) (hc : CacheCoherent db)
    {w : TxWalk Records} (hs : StoreSound w.state)
    (hroom : w.opsCount + ops.length ≤ maxTokensPerBlock) (hn : w.issueCountThisTx = n)
    {funds : Account → ℤ} {tickers : List Bytes} {ids : List Uint256}
    (hstep : InStep db st tx txundo sender baseFees n w.state.ledger funds tickers ids) :
    ((ops.foldl (walkOp plainOp reserved height time tx txundo) w).opsCount =
        w.opsCount + ops.length ↔ OpsCovered reserved db tx sender funds ops) ∧
    (OpsCovered reserved db tx sender funds ops →
      StoreSound (ops.foldl (walkOp plainOp reserved height time tx txundo) w).state ∧
      ∃ tickers' ids', tickers' ⊆ issueTickers ops ++ tickers ∧ ids' ⊆ tx.hash :: ids ∧
        Ahead db.records.ledger
          (ops.foldl (walkOp plainOp reserved height time tx txundo) w).state.ledger
          (fun k => funds k + (ops.map fun op =>
            opDelta (getTransferRecipient reserved tx) sender op k).sum) tickers' ids') := by
  induction hadm generalizing w funds tickers ids with
  | nil n =>
    refine ⟨by simp [OpsCovered], fun _ => ⟨hs, tickers, ids, ?_, List.subset_cons_self _ _, ?_⟩⟩
    · exact List.Subset.refl _
    · simpa using hstep.ahead
  | @cons n n' op ops hhead htail ih =>
    rw [List.length_cons] at hroom
    rw [List.foldl_cons, List.length_cons, OpsCovered]
    rcases hhead.accepted_iff hc hs.ledger hstep height time w.txOpIndex with
      ⟨hcov, req, hreq, hacc, hcount, ids', hids, hnext⟩ | ⟨hnot, hrefused⟩
    · obtain ⟨r, hwalk, hsound, hledger⟩ := walkOp_applied hs (by omega) (hn ▸ hreq) hacc
      rw [← hledger] at hnext
      obtain ⟨hiff, hend⟩ := ih (w := w.accept r tx.hash req) (by rw [accept_state]; exact hsound)
        (by rw [accept_opsCount]; omega) (hcount w r hn) (by rw [accept_state]; exact hnext)
      rw [hwalk]
      refine ⟨?_, fun hall => ?_⟩
      · rw [and_iff_right hcov, ← hiff, accept_opsCount]
        omega
      · obtain ⟨hsound', tickers', ids'', htickers, hids', hahead⟩ := hend hall.2
        refine ⟨hsound', tickers', ids'', ?_, ?_, ?_⟩
        · rw [issueTickers_cons]
          intro k hk
          rw [List.mem_append, List.mem_append]
          rcases List.mem_append.mp (htickers hk) with hk | hk
          · exact .inl (.inr hk)
          · exact (List.mem_append.mp hk).imp_left .inl
        · intro t ht
          rcases List.mem_cons.mp (hids' ht) with rfl | ht
          · exact List.mem_cons_self
          · exact hids ht
        · simpa only [List.map_cons, List.sum_cons, add_assoc] using hahead
    · -- the count falls behind here and cannot catch up
      rw [walkOp_skipped (hn ▸ hrefused)]
      have hle : (ops.foldl (walkOp plainOp reserved height time tx txundo) w).opsCount ≤
        w.opsCount + ops.length := walkOps_opsCount_le ops w
      refine ⟨⟨fun heq => ?_, fun hall => absurd hall.1 hnot⟩, fun hall => absurd hall.1 hnot⟩
      omega

end Walk

/-! ### A block of accepted transactions -/

/-- The transactions enter the mempool in this order: each passes the checks against `db` and what
the earlier ones left pending, and is recorded. -/
inductive AcceptedInTurn (reserved : List Bytes) (db : TokenDB) (view : CoinsView) :
    MempoolTokenState → List CTransaction → Prop
  | nil (st : MempoolTokenState) : AcceptedInTurn reserved db view st []
  | cons {st st' : MempoolTokenState} {now now' : ℤ} {tx : CTransaction} {txs : List CTransaction}
      {r : Option CScript} (checked : preChecks reserved db st now view tx = .ok r)
      (recorded : addTransaction reserved st now' tx (r.getD []) = (st', true))
      (rest : AcceptedInTurn reserved db view st' txs) :
      AcceptedInTurn reserved db view st (tx :: txs)

/-- The token operations of all transactions together. -/
def totalOps (reserved : List Bytes) (txs : List CTransaction) : ℕ :=
  (txs.map fun tx => (parseTransactionSRC20 reserved tx).length).sum

theorem getSender_spentCoins {tx : CTransaction} (h : ∀ txin ∈ tx.vin, (view txin.prevout).isSome) :
    getSender tx (spentCoins view tx) = senderScript view tx := by
  rw [getSender, senderScript, spentCoins]
  cases hvin : tx.vin with
  | nil => rfl
  | cons txin rest =>
    obtain ⟨coin, hcoin⟩ := Option.isSome_iff_exists.mp (h txin (by simp [hvin]))
    simp [hcoin]

/-- Recording a transaction makes its tickers pending and keeps the others so, leaves every other
txid untracked, and adds its deltas. -/
theorem addTransaction_pending {st st' : MempoolTokenState} {now : ℤ} {tx : CTransaction}
    {sender : CScript} (hadd : addTransaction reserved st now tx sender = (st', true))
    (hnew : st.mTxOps.lookup tx.hash = none) :
    (∀ k ∈ issueTickers (parseTransactionSRC20 reserved tx), st'.isTickerPending k = true) ∧
      (∀ k, st.isTickerPending k = true → st'.isTickerPending k = true) ∧
      (∀ txid, txid ≠ tx.hash → st.mTxOps.lookup txid = none → st'.mTxOps.lookup txid = none) ∧
      ∀ a t, st'.getPendingBalanceDelta a t =
        st.getPendingBalanceDelta a t + netDelta reserved tx sender (a, t) := by
  rcases addTransaction_cases reserved st now tx sender with
    ⟨heq, hidle⟩ | ⟨balances, -, heq⟩ | ⟨-, -, st'', deltas, heq, hrec⟩
  · obtain rfl : st = st' := congrArg Prod.fst (heq.symm.trans hadd)
    have hempty : parseTransactionSRC20 reserved tx = [] := by
      rcases hidle with hempty | htracked
      · exact hempty
      · rw [hnew] at htracked
        simp at htracked
    refine ⟨?_, fun _ h => h, fun _ _ h => h, fun a t => ?_⟩
    · rw [hempty]
      simp [issueTickers]
    · simp [netDelta, hempty]
  · have hfalse : false = true := congrArg Prod.snd (heq.symm.trans hadd)
    simp at hfalse
  · obtain rfl : st'' = st' := congrArg Prod.fst (heq.symm.trans hadd)
    refine ⟨fun k hk => ?_, fun k hk => ?_, fun txid hne hnone => ?_,
      fun a t => hrec.balances (a, t)⟩
    · rw [isTickerPending, hrec.asked k hk]
      rfl
    · by_cases hmem : k ∈ issueTickers (parseTransactionSRC20 reserved tx)
      · rw [isTickerPending, hrec.asked k hmem]
        rfl
      · rw [isTickerPending, hrec.other k hmem]
        exact hk
    · rw [hrec.txOps, AList.lookup_insert_ne hne, hnone]

section Block

variable {height : ℕ} {time : ℤ}

/-- One turn of the outer loop, at a transaction whose coins the undo data holds. -/
theorem walkTx_eq {blockundo : CBlockUndo} {tx : CTransaction} {pre post : List CTransaction}
    (hundo : blockundo.vtxundo = (pre ++ tx :: post).map (spentCoins view))
    (hcoinbase : tx.isCoinBase = false) (w : Walk Records) :
    walkTx plainOp reserved height time blockundo w (pre.length + 1) tx =
      ((parseTransactionSRC20 reserved tx).foldl
        (walkOp plainOp reserved height time tx (spentCoins view tx)) ⟨w, 0, 0⟩).toWalk := by
  have hat : txUndoAt blockundo (pre.length + 1) = spentCoins view tx := by
    rw [txUndoAt, hundo, Nat.add_sub_cancel]
    simp
  have hlen : ¬ blockundo.vtxundo.length ≤ pre.length + 1 - 1 := by
    rw [hundo]
    simp
  rw [walkTx, hat, hcoinbase, if_neg (by simp), if_neg]
  rw [Bool.and_eq_true, decide_eq_true_eq]
  exact fun hboth => hlen hboth.2

/-- One turn of the loop: a transaction without operations changes nothing, with or without room
left. -/
theorem turn_eq (height : ℕ) (time : ℤ) {blockundo : CBlockUndo} {tx : CTransaction}
    {pre post : List CTransaction}
    (hundo : blockundo.vtxundo = (pre ++ tx :: post).map (spentCoins view))
    (hcoinbase : tx.isCoinBase = false) {w : Walk Records}
    (hroom : w.opsCount + (parseTransactionSRC20 reserved tx).length ≤ maxTokensPerBlock) :
    (if w.opsCount < maxTokensPerBlock then
        walkTx plainOp reserved height time blockundo w (pre.length + 1) tx else w) =
      ((parseTransactionSRC20 reserved tx).foldl
        (walkOp plainOp reserved height time tx (spentCoins view tx)) ⟨w, 0, 0⟩).toWalk := by
  split_ifs with hlt
  · exact walkTx_eq hundo hcoinbase w
  · have hempty : parseTransactionSRC20 reserved tx = [] :=
      List.eq_nil_of_length_eq_zero (by omega)
    rw [hempty]
    rfl

theorem walkTxs_opsCount_le (reserved : List Bytes) (height : ℕ) (time : ℤ)
    (blockundo : CBlockUndo) (l : List (CTransaction × ℕ))
    (w : Walk Records) :
    (l.foldl (fun w p => if w.opsCount < maxTokensPerBlock then
        walkTx plainOp reserved height time blockundo w p.2 p.1 else w) w).opsCount ≤
      w.opsCount + totalOps reserved (l.map Prod.fst) := by
  induction l generalizing w with
  | nil => exact le_rfl
  | cons p l ih =>
    have hone : (if w.opsCount < maxTokensPerBlock then
        walkTx plainOp reserved height time blockundo w p.2 p.1 else w).opsCount ≤
        w.opsCount + (parseTransactionSRC20 reserved p.1).length := by
      rw [walkTx]
      split_ifs
      · exact Nat.le_add_right _ _
      · exact Nat.le_add_right _ _
      · exact walkOps_opsCount_le (parseTransactionSRC20 reserved p.1) ⟨w, 0, 0⟩
      · exact Nat.le_add_right _ _
    have htotal : totalOps reserved ((p :: l).map Prod.fst) =
        (parseTransactionSRC20 reserved p.1).length + totalOps reserved (l.map Prod.fst) := rfl
    rw [List.foldl_cons, htotal]
    refine (ih _).trans ?_
    omega

/-- A count that has fallen behind does not catch up. -/
theorem walkTxs_opsCount_ne {reserved : List Bytes} (height : ℕ) (time : ℤ) (blockundo : CBlockUndo)
    {txs : List CTransaction} {k n m : ℕ} {w : Walk Records} (hlost : w.opsCount < n + m) :
    ((txs.zipIdx k).foldl (fun w p => if w.opsCount < maxTokensPerBlock then
        walkTx plainOp reserved height time blockundo w p.2 p.1 else w) w).opsCount ≠
      n + (m + totalOps reserved txs) := by
  have hrest := walkTxs_opsCount_le reserved height time blockundo (txs.zipIdx k) w
  rw [List.zipIdx_map_fst] at hrest
  omega

/-- **The transactions of a block** have all their operations applied exactly if they are covered.
-/
theorem walkTxs_covered (height : ℕ) (time : ℤ) {st : MempoolTokenState} {txs : List CTransaction}
    (haccepted : AcceptedInTurn reserved db view st txs) (hc : CacheCoherent db)
    {blockundo : CBlockUndo} {pre : List CTransaction}
    (hundo : blockundo.vtxundo = (pre ++ txs).map (spentCoins view))
    (hcoinbase : ∀ tx ∈ txs, tx.isCoinBase = false) (hnodup : (txs.map CTransaction.hash).Nodup)
    (hnew : ∀ tx ∈ txs, st.mTxOps.lookup tx.hash = none) {w : Walk Records}
    (hs : StoreSound w.state) (hroom : w.opsCount + totalOps reserved txs ≤ maxTokensPerBlock)
    {funds : Account → ℤ} {tickers : List Bytes} {ids : List Uint256}
    (hahead : Ahead db.records.ledger w.state.ledger funds tickers ids)
    (hpending : ∀ k ∈ tickers, st.isTickerPending k = true) (hids : ∀ tx ∈ txs, tx.hash ∉ ids) :
    ((txs.zipIdx (pre.length + 1)).foldl (fun w p => if w.opsCount < maxTokensPerBlock then
        walkTx plainOp reserved height time blockundo w p.2 p.1 else w) w).opsCount =
      w.opsCount + totalOps reserved txs ↔ TxsCovered reserved db view funds txs := by
  induction haccepted generalizing pre w funds tickers ids with
  | nil st => simp [totalOps, TxsCovered]
  | @cons st st' now now' tx txs r checked recorded rest ih =>
    obtain ⟨hinputs, hadm, -⟩ := preChecks_ok checked
    obtain ⟨hfresh, hnodup'⟩ := List.nodup_cons.mp hnodup
    have hne : ∀ tx' ∈ txs, tx'.hash ≠ tx.hash := fun tx' htx' heq =>
      hfresh (heq ▸ List.mem_map_of_mem htx')
    obtain ⟨hasked, hkeep, huntracked, -⟩ :=
      addTransaction_pending recorded (hnew tx List.mem_cons_self)
    have htotal : totalOps reserved (tx :: txs) =
        (parseTransactionSRC20 reserved tx).length + totalOps reserved txs := rfl
    rw [htotal] at hroom ⊢
    have hturn := turn_eq height time hundo (hcoinbase tx List.mem_cons_self)
      (show w.opsCount + (parseTransactionSRC20 reserved tx).length ≤ maxTokensPerBlock by omega)
    obtain ⟨hiff, hend⟩ := walkOps_covered height time hadm hc (w := ⟨w, 0, 0⟩) hs
      (show w.opsCount + _ ≤ _ by omega) rfl
      ⟨getSender_spentCoins hinputs, rfl, hahead, fun _ => ⟨hpending, hids tx List.mem_cons_self⟩⟩
    rw [List.zipIdx_cons, List.foldl_cons, hturn, TxsCovered]
    by_cases hcov : OpsCovered reserved db tx (senderScript view tx) funds
        (parseTransactionSRC20 reserved tx)
    · obtain ⟨hsound, tickers', ids', htickers, hids', hahead'⟩ := hend hcov
      have hcount := hiff.mpr hcov
      have hundo' : blockundo.vtxundo = (pre ++ [tx] ++ txs).map (spentCoins view) := by
        simpa using hundo
      have hnext := ih hundo'
        (fun tx' htx' => hcoinbase tx' (List.mem_cons_of_mem tx htx')) hnodup'
        (fun tx' htx' => huntracked _ (hne tx' htx') (hnew tx' (List.mem_cons_of_mem tx htx')))
        hsound (by rw [hcount]; show w.opsCount + _ + _ ≤ _; omega) hahead' ?_ ?_
      · rw [hcount, List.length_append, List.length_singleton] at hnext
        rw [and_iff_right hcov, ← Nat.add_assoc]
        exact hnext
      · intro k hk
        rcases List.mem_append.mp (htickers hk) with hk | hk
        · exact hasked k hk
        · exact hkeep k (hpending k hk)
      · intro tx' htx' hmem
        rcases List.mem_cons.mp (hids' hmem) with heq | hmem
        · exact hne tx' htx' heq
        · exact hids tx' (List.mem_cons_of_mem tx htx') hmem
    · -- what this transaction lost, the later ones cannot add
      refine ⟨fun heq => ?_, fun hall => absurd hall.1 hcov⟩
      have hle : ((parseTransactionSRC20 reserved tx).foldl
          (walkOp plainOp reserved height time tx (spentCoins view tx)) ⟨w, 0, 0⟩).opsCount ≤
          w.opsCount + (parseTransactionSRC20 reserved tx).length := walkOps_opsCount_le _ _
      have hlost := lt_of_le_of_ne hle fun hall => hcov (hiff.mp hall)
      exact absurd heq (walkTxs_opsCount_ne height time blockundo hlost)

end Block

/-! ### What acceptance leaves open -/

/-- The token an operation debits. -/
def debitToken (op : SRC20Operation) : Option TokenId :=
  match op.action with
  | .transfer => op.getTransfer.map TokenTransfer.tokenId
  | .burn => op.getBurn.map TokenBurn.tokenId
  | _ => none

/-- An operation moves the token it debits and no other. -/
theorem opDelta_of_ne {recipient : Option CScript} {sender : CScript} {op : SRC20Operation}
    {k : Account} (h : debitToken op ≠ some k.2) : opDelta recipient sender op k = 0 := by
  rw [debitToken] at h
  cases haction : op.action with
  | transfer =>
    cases hdata : op.getTransfer with
    | none => rw [opDelta, haction, hdata]
    | some x =>
      have hne : x.tokenId ≠ k.2 := by simpa [haction, hdata] using h
      have hto : recipient.map (·, x.tokenId) ≠ some k := by
        intro heq
        obtain ⟨r, -, hk⟩ := Option.map_eq_some_iff.mp heq
        exact hne (congrArg Prod.snd hk)
      have hfrom : k ≠ (sender, x.tokenId) := fun heq => hne (congrArg Prod.snd heq).symm
      rw [opDelta_transfer haction hdata, if_neg hto, if_neg hfrom, sub_zero]
  | burn =>
    cases hdata : op.getBurn with
    | none => rw [opDelta, haction, hdata]
    | some x =>
      have hne : x.tokenId ≠ k.2 := by simpa [haction, hdata] using h
      have hfrom : k ≠ (sender, x.tokenId) := fun heq => hne (congrArg Prod.snd heq).symm
      rw [opDelta_burn haction hdata, if_neg hfrom, neg_zero]
  | issue => rw [opDelta, haction]
  | invalid => rw [opDelta, haction]

/-- What acceptance leaves open of a list of operations: one that debits a token in `seen`, debited
by the transaction before, has to be covered by what is left, and an issuance needs an issuer and an
unused token id. -/
def OpsOpen (reserved : List Bytes) (db : TokenDB) (tx : CTransaction) (sender : CScript) :
    (Account → ℤ) → List TokenId → List SRC20Operation → Prop
  | _, _, [] => True
  | funds, seen, op :: ops =>
    ((∀ t, debitToken op = some t → t ∈ seen) → OpCovered db tx sender funds op) ∧
      OpsOpen reserved db tx sender
        (fun k => funds k + opDelta (getTransferRecipient reserved tx) sender op k)
        ((debitToken op).toList ++ seen) ops

/-- The same for transactions one after the other: a transaction has debited nothing before it
starts. -/
def TxsOpen (reserved : List Bytes) (db : TokenDB) (view : CoinsView) :
    (Account → ℤ) → List CTransaction → Prop
  | _, [] => True
  | funds, tx :: txs =>
    OpsOpen reserved db tx (senderScript view tx) funds [] (parseTransactionSRC20 reserved tx) ∧
      TxsOpen reserved db view
        (fun k => funds k + netDelta reserved tx (senderScript view tx) k) txs

/-- **What acceptance contributes**: a debit is covered where the funds are those it was checked
against. -/
theorem Admitted.opCovered {st : MempoolTokenState} {tx : CTransaction} {sender : CScript}
    {baseFees : CAmount} {n n' : ℕ} {op : SRC20Operation}
    (hadm : Admitted reserved db st tx sender baseFees n n' op) {t : TokenId}
    (hdebit : debitToken op = some t) {funds : Account → ℤ}
    (hfunds : funds (sender, t) = db.getBalance sender t + st.getPendingBalanceDelta sender t) :
    OpCovered db tx sender funds op := by
  cases hadm with
  | issue x action => simp [debitToken, action] at hdebit
  | transfer x recipient action data valid registered delivered affordable =>
    obtain rfl : x.tokenId = t := by simpa [debitToken, action, data] using hdebit
    rw [opCovered_transfer action data, hfunds]
    exact le_of_canTransfer (isValidMove_bounds valid).1 affordable
  | burn x action data valid registered affordable =>
    obtain rfl : x.tokenId = t := by simpa [debitToken, action, data] using hdebit
    rw [opCovered_burn action data, hfunds]
    exact le_of_canTransfer (isValidMove_bounds valid).1 affordable

/-- **The operations of an accepted transaction are covered exactly if what is left open is.**
Tokens not yet debited have the funds that acceptance saw. -/
theorem opsCovered_iff_open {st : MempoolTokenState} {tx : CTransaction} {sender : CScript}
    {baseFees : CAmount} {n : ℕ} {ops : List SRC20Operation}
    (hadm : AdmittedAll reserved db st tx sender baseFees n ops) {funds : Account → ℤ}
    {seen : List TokenId} (hfunds : ∀ t, t ∉ seen →
      funds (sender, t) = db.getBalance sender t + st.getPendingBalanceDelta sender t) :
    OpsCovered reserved db tx sender funds ops ↔ OpsOpen reserved db tx sender funds seen ops := by
  induction hadm generalizing funds seen with
  | nil n => exact Iff.rfl
  | @cons n n' op ops hhead htail ih =>
    have hrest : ∀ t, t ∉ (debitToken op).toList ++ seen →
        funds (sender, t) + opDelta (getTransferRecipient reserved tx) sender op (sender, t) =
          db.getBalance sender t + st.getPendingBalanceDelta sender t := by
      intro t ht
      rw [List.mem_append, not_or, Option.mem_toList] at ht
      rw [opDelta_of_ne (k := (sender, t)) ht.1, add_zero, hfunds t ht.2]
    rw [OpsCovered, OpsOpen, ih hrest]
    refine and_congr_left fun _ => ⟨fun hcov _ => hcov, fun hopen => ?_⟩
    by_cases hseen : ∀ t, debitToken op = some t → t ∈ seen
    · exact hopen hseen
    · push Not at hseen
      obtain ⟨t, hdebit, hfresh⟩ := hseen
      exact hhead.opCovered hdebit (hfunds t hfresh)

theorem txsCovered_iff_open {st : MempoolTokenState} {txs : List CTransaction}
    (haccepted : AcceptedInTurn reserved db view st txs)
    (hnodup : (txs.map CTransaction.hash).Nodup)
    (hnew : ∀ tx ∈ txs, st.mTxOps.lookup tx.hash = none) {funds : Account → ℤ}
    (hfunds : ∀ k, funds k = db.getBalance k.1 k.2 + st.getPendingBalanceDelta k.1 k.2) :
    TxsCovered reserved db view funds txs ↔ TxsOpen reserved db view funds txs := by
  induction haccepted generalizing funds with
  | nil st => exact Iff.rfl
  | @cons st st' now now' tx txs r checked recorded rest ih =>
    obtain ⟨-, hadm, hsender⟩ := preChecks_ok checked
    obtain ⟨hfresh, hnodup'⟩ := List.nodup_cons.mp hnodup
    obtain ⟨-, -, huntracked, hdelta⟩ :=
      addTransaction_pending recorded (hnew tx List.mem_cons_self)
    have hnext : ∀ k : Account, funds k + netDelta reserved tx (senderScript view tx) k =
        db.getBalance k.1 k.2 + st'.getPendingBalanceDelta k.1 k.2 := by
      intro k
      rw [hdelta, hfunds, ← add_assoc]
      by_cases hops : parseTransactionSRC20 reserved tx = []
      · simp [netDelta, hops]
      · rw [hsender, if_neg hops, Option.getD_some]
    have hlater : ∀ tx' ∈ txs, st'.mTxOps.lookup tx'.hash = none := by
      intro tx' htx'
      refine huntracked _ (fun heq => hfresh ?_) (hnew tx' (List.mem_cons_of_mem tx htx'))
      rw [← heq]
      exact List.mem_map_of_mem htx'
    rw [TxsCovered, TxsOpen, ih hnodup' hlater hnext]
    exact and_congr_left fun _ => opsCovered_iff_open hadm fun t _ => hfunds (_, t)

/-- A transaction that debits no token twice and whose issuance, if it has one, finds an issuer and
an unused token id. -/
structure SingleDebits (reserved : List Bytes) (db : TokenDB) (tx : CTransaction) : Prop where
  debits : ((parseTransactionSRC20 reserved tx).filterMap debitToken).Nodup
  issues : (∃ op ∈ parseTransactionSRC20 reserved tx, op.action = .issue) →
    getIssuer tx ≠ [] ∧ db.tokenExists tx.hash = false

/-- Nothing has to be covered where nothing is debited. -/
theorem opCovered_of_no_debit {tx : CTransaction} {op : SRC20Operation}
    (hnone : debitToken op = none)
    (hissue : op.action = .issue → getIssuer tx ≠ [] ∧ db.tokenExists tx.hash = false)
    (sender : CScript) (funds : Account → ℤ) : OpCovered db tx sender funds op := by
  rw [OpCovered]
  cases haction : op.action with
  | issue => exact hissue haction
  | transfer =>
    intro x hx
    simp [debitToken, haction, hx] at hnone
  | burn =>
    intro x hx
    simp [debitToken, haction, hx] at hnone
  | invalid => trivial

/-- Nothing is left open where no token is debited a second time. -/
theorem opsOpen_of_nodup {tx : CTransaction} {ops : List SRC20Operation}
    (hnodup : (ops.filterMap debitToken).Nodup)
    (hissue : (∃ op ∈ ops, op.action = .issue) → getIssuer tx ≠ [] ∧ db.tokenExists tx.hash = false)
    (sender : CScript) (funds : Account → ℤ) {seen : List TokenId}
    (hseen : ∀ t ∈ ops.filterMap debitToken, t ∉ seen) :
    OpsOpen reserved db tx sender funds seen ops := by
  induction ops generalizing funds seen with
  | nil => trivial
  | cons op ops ih =>
    have hissue' : (∃ op' ∈ ops, op'.action = .issue) →
        getIssuer tx ≠ [] ∧ db.tokenExists tx.hash = false :=
      fun ⟨op', hop', haction⟩ => hissue ⟨op', List.mem_cons_of_mem op hop', haction⟩
    rw [OpsOpen]
    cases hdebit : debitToken op with
    | none =>
      rw [List.filterMap_cons_none hdebit] at hnodup hseen
      refine ⟨fun _ => opCovered_of_no_debit hdebit (fun haction => ?_) sender funds,
        ih hnodup hissue' _ hseen⟩
      exact hissue ⟨op, List.mem_cons_self, haction⟩
    | some t =>
      rw [List.filterMap_cons_some hdebit] at hnodup hseen
      obtain ⟨hfresh, hrest⟩ := List.nodup_cons.mp hnodup
      refine ⟨fun hall => absurd (hall t rfl) (hseen t List.mem_cons_self),
        ih hrest hissue' _ fun t' ht' => ?_⟩
      rw [Option.toList_some, List.singleton_append, List.mem_cons, not_or]
      exact ⟨fun heq => hfresh (heq ▸ ht'), hseen t' (List.mem_cons_of_mem t ht')⟩

theorem txsOpen_of_single {txs : List CTransaction} (h : ∀ tx ∈ txs, SingleDebits reserved db tx)
    (funds : Account → ℤ) : TxsOpen reserved db view funds txs := by
  induction txs generalizing funds with
  | nil => trivial
  | cons tx txs ih =>
    have htx := h tx List.mem_cons_self
    exact ⟨opsOpen_of_nodup htx.debits htx.issues _ _ fun _ _ => List.not_mem_nil,
      ih (fun tx' htx' => h tx' (List.mem_cons_of_mem tx htx')) _⟩

/-! ### All operations are applied -/

/-- **What is accepted can be mined, if no token is debited twice by one transaction.**  A block of
accepted transactions, in the order of their acceptance, has every one of their token operations
applied if no transaction debits a token twice and every issuance has an issuer and an unused id.
In general it has exactly if what acceptance leaves open is covered: the repeated debits of one
transaction, and the issuances. -/
theorem mined_in_full (reserved : List Bytes) {db : TokenDB} (h : Healthy db) {view : CoinsView}
    {timestamps : AList fun _ : CScript => List ℤ} {txs : List CTransaction}
    (haccepted : AcceptedInTurn reserved db view
      { empty with mRateLimitTimestamps := timestamps } txs)
    (hcoinbase : ∀ tx ∈ txs, tx.isCoinBase = false) (hnodup : (txs.map CTransaction.hash).Nodup)
    (hmax : totalOps reserved txs ≤ maxTokensPerBlock) {block : CBlock} {coinbase : CTransaction}
    (hvtx : block.vtx = coinbase :: txs) (hbest : db.getBestBlock ≠ block.hash) (height : ℕ) :
    ((∀ tx ∈ txs, SingleDebits reserved db tx) →
      (processBlock reserved db block height ⟨txs.map (spentCoins view)⟩).2 =
        .ok (totalOps reserved txs)) ∧
    ((processBlock reserved db block height ⟨txs.map (spentCoins view)⟩).2 =
        .ok (totalOps reserved txs) ↔
      TxsOpen reserved db view (fun k => db.getBalance k.1 k.2) txs) := by
  obtain ⟨hresult, -, -⟩ := processBlock_spec h.cache h.sound h.writable reserved height
    ⟨txs.map (spentCoins view)⟩ hbest
  have hundo : (⟨txs.map (spentCoins view)⟩ : CBlockUndo).vtxundo =
      ([] ++ txs).map (spentCoins view) := rfl
  have hahead : Ahead db.records.ledger db.records.ledger (fun k => db.getBalance k.1 k.2) [] [] :=
    ⟨fun _ _ _ => rfl, by simp, by simp⟩
  have hwalk := walkTxs_covered height block.getBlockTime haccepted h.cache hundo hcoinbase hnodup
    (fun _ _ => rfl) (w := { state := db.records }) h.sound (by simpa using hmax) hahead (by simp)
    (by simp)
  -- the first transaction of a block is never looked at
  have hfirst : walkTx plainOp reserved height block.getBlockTime ⟨txs.map (spentCoins view)⟩
      { state := db.records } 0 coinbase = { state := db.records } := by
    rw [walkTx, if_pos (by simp)]
  have hblock : (processBlock reserved db block height ⟨txs.map (spentCoins view)⟩).2 =
        .ok (totalOps reserved txs) ↔
      TxsCovered reserved db view (fun k => db.getBalance k.1 k.2) txs := by
    rw [hresult, Except.ok.injEq, ← hwalk, walkBlock, hvtx, List.zipIdx_cons, List.foldl_cons]
    simp only [show (0 : ℕ) < maxTokensPerBlock by decide, if_true, hfirst, Nat.zero_add,
      List.length_nil]
  -- nothing is pending at the start, so acceptance sees the confirmed balances
  have hopen : TxsCovered reserved db view (fun k => db.getBalance k.1 k.2) txs ↔
      TxsOpen reserved db view (fun k => db.getBalance k.1 k.2) txs :=
    txsCovered_iff_open haccepted hnodup (fun _ _ => rfl) fun _ => (add_zero _).symm
  have hiff := hblock.trans hopen
  exact ⟨fun hsingle => hiff.mpr (txsOpen_of_single hsingle _), hiff⟩

namespace Sample

open OpenSY.Tokens.Sample

/-- Every coin is worth nothing and belongs to `alice`. -/
def aliceView : CoinsView := fun _ => some ⟨⟨0, alice⟩⟩

/-- Moves 3 of the 10 tokens `alice` holds. -/
def moveTx : CTransaction :=
  ⟨9, [⟨⟨6, 0⟩⟩], [⟨0, buildTransferScript ⟨7, 3⟩⟩, ⟨0, bob⟩]⟩

/-- Burns the other 7. -/
def burnTx : CTransaction := ⟨10, [⟨⟨6, 1⟩⟩], [⟨0, buildBurnScript ⟨7, 7⟩⟩]⟩

/-- Moves 6 of the 10 tokens `alice` holds, twice. -/
def twiceTx : CTransaction :=
  ⟨9, [⟨⟨6, 0⟩⟩], [⟨0, buildTransferScript ⟨7, 6⟩⟩, ⟨0, bob⟩, ⟨0, buildTransferScript ⟨7, 6⟩⟩]⟩

theorem moveTx_burnTx_accepted : AcceptedInTurn [] issued aliceView empty [moveTx, burnTx] := by
  have hchecked : preChecks [] issued empty 0 aliceView moveTx = .ok (some alice) := by
    decide +kernel
  have hrecorded : (addTransaction [] empty 0 moveTx alice).2 = true := by decide +kernel
  have hchecked' : preChecks [] issued (addTransaction [] empty 0 moveTx alice).1 0
      aliceView burnTx = .ok (some alice) := by
    decide +kernel
  have hrecorded' : (addTransaction [] (addTransaction [] empty 0 moveTx alice).1 0
      burnTx alice).2 = true := by
    decide +kernel
  exact .cons hchecked (Prod.ext rfl hrecorded) (.cons hchecked' (Prod.ext rfl hrecorded') (.nil _))

theorem moveTx_burnTx_single : ∀ tx ∈ [moveTx, burnTx], SingleDebits [] issued tx := by
  have hdebits : ∀ tx ∈ [moveTx, burnTx],
      ((parseTransactionSRC20 [] tx).filterMap debitToken).Nodup := by
    decide +kernel
  have hissues : ∀ tx ∈ [moveTx, burnTx],
      ¬ ∃ op ∈ parseTransactionSRC20 [] tx, op.action = .issue := by
    decide +kernel
  exact fun tx htx => ⟨hdebits tx htx, fun hissue => absurd hissue (hissues tx htx)⟩

theorem twiceTx_accepted : AcceptedInTurn [] issued aliceView empty [twiceTx] := by
  have hchecked : preChecks [] issued empty 0 aliceView twiceTx = .ok (some alice) := by
    decide +kernel
  have hrecorded : (addTransaction [] empty 0 twiceTx alice).2 = true := by decide +kernel
  exact .cons hchecked (Prod.ext rfl hrecorded) (.nil _)

end Sample

/-- A transfer of 3 of 10 tokens and a burn of the other 7: the burn passes against what the
transfer leaves pending, and both are mined. -/
theorem mined_in_full_two :
    Healthy Tokens.Sample.issued ∧
    AcceptedInTurn [] Tokens.Sample.issued Sample.aliceView empty [Sample.moveTx, Sample.burnTx] ∧
    (∀ tx ∈ [Sample.moveTx, Sample.burnTx], SingleDebits [] Tokens.Sample.issued tx) ∧
    (processBlock [] Tokens.Sample.issued
        ⟨102, 101, 0, [Tokens.Sample.coinbase 2, Sample.moveTx, Sample.burnTx]⟩ 2
        ⟨[Sample.moveTx, Sample.burnTx].map (spentCoins Sample.aliceView)⟩).2 =
      .ok (totalOps [] [Sample.moveTx, Sample.burnTx]) :=
  ⟨Tokens.Sample.reach_issued.healthy, Sample.moveTx_burnTx_accepted, Sample.moveTx_burnTx_single,
    (mined_in_full [] Tokens.Sample.reach_issued.healthy Sample.moveTx_burnTx_accepted (by decide)
      (by decide) (by decide +kernel) rfl (by decide +kernel) 2).1 Sample.moveTx_burnTx_single⟩

/-- **Two transfers that pass one by one.**  Each of the two moves 6 of 10 tokens and is accepted;
in the block only the first is applied. -/
theorem accepted_not_mined :
    Healthy Tokens.Sample.issued ∧
    AcceptedInTurn [] Tokens.Sample.issued Sample.aliceView empty [Sample.twiceTx] ∧
    totalOps [] [Sample.twiceTx] = 2 ∧
    (processBlock [] Tokens.Sample.issued
        ⟨102, 101, 0, [Tokens.Sample.coinbase 2, Sample.twiceTx]⟩ 2
        ⟨[Sample.twiceTx].map (spentCoins Sample.aliceView)⟩).2 = .ok 1 :=
  ⟨Tokens.Sample.reach_issued.healthy, Sample.twiceTx_accepted, by decide +kernel,
    by decide +kernel⟩

end OpenSY.Mempool
