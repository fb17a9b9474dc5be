import OpenSY.Mempool.Mining
import OpenSY.Mempool.Node

/-!
# Tracked transactions and the mempool

The pending state is meant to track exactly the token transactions of the mempool.  Three things can
part them: a tip disconnection clears the tracking of transactions that stay in the mempool; a
transaction that `AddTransaction` refuses stays in the mempool without tracking; and a notification
about an earlier removal ends the tracking of a transaction that has come back meanwhile.

`Careful` rules these out for single steps, `InSync` is the invariant that relates the two sets
while notifications are on their way, and `tracked_iff_in_pool` says that in careful runs they agree
once all notifications are delivered.
-/

namespace OpenSY.Mempool

open OpenSY.Chain OpenSY.Src20 OpenSY.Tokens OpenSY.Tallies OpenSY.Transition MempoolTokenState

variable {reserved : List Bytes} {nHeight : Uint256 → ℕ}

/-! ### When `AddTransaction` records -/

/-- The debit and the credit of an operation stay within `int64_t`. -/
def OpInRange (recipient : Option CScript) (sender : CScript) (pending : Account → ℤ)
    (op : SRC20Operation) : Prop :=
  match op.action with
  | .transfer => ∀ x, op.getTransfer = some x →
    x.amount ≤ int64Max ∧ int64Min + x.amount ≤ pending (sender, x.tokenId) ∧
      ∀ r, recipient = some r →
        pending (r, x.tokenId) - (if r = sender then (x.amount : ℤ) else 0) ≤ int64Max - x.amount
  | .burn => ∀ x, op.getBurn = some x →
    x.amount ≤ int64Max ∧ int64Min + x.amount ≤ pending (sender, x.tokenId)
  | _ => True

def OpsInRange (recipient : Option CScript) (sender : CScript) :
    (Account → ℤ) → List SRC20Operation → Prop
  | _, [] => True
  | pending, op :: ops => OpInRange recipient sender pending op ∧
    OpsInRange recipient sender (fun k => pending k + opDelta recipient sender op k) ops

/-- The limits of `AddTransaction` leave room for a transaction. -/
structure Trackable (reserved : List Bytes) (st : MempoolTokenState) (now : ℤ) (tx : CTransaction)
    (sender : CScript) : Prop where
  room : st.getPendingCount < maxTotalPendingOps
  address : st.getPendingOpsForAddress sender + (parseTransactionSRC20 reserved tx).length ≤
    maxPendingOpsPerAddress
  rate : st.isRateLimited sender now = false
  tickers : ∀ k ∈ issueTickers (parseTransactionSRC20 reserved tx), st.isTickerPending k = false
  distinct : (issueTickers (parseTransactionSRC20 reserved tx)).Nodup
  range : OpsInRange (getTransferRecipient reserved tx) sender (value st.mPendingBalances)
    (parseTransactionSRC20 reserved tx)

theorem Draft.debit_ok {d : Draft} {k : Account} {n : ℕ} (hn : n ≤ int64Max)
    (hk : int64Min + n ≤ value d.balances k) : d.debit k n = .ok (d.post k (-n)) := by
  rw [Draft.debit, if_neg (not_lt.mpr hn), if_neg (not_lt.mpr hk)]

theorem addOp_of_inRange (pending : AList fun _ : Bytes => Uint256) {tx : CTransaction}
    {sender : CScript} {d : Draft} {op : SRC20Operation}
    (hrange : OpInRange (getTransferRecipient reserved tx) sender (value d.balances) op)
    (htickers : ∀ k ∈ issueTickers [op], pending.lookup k = none ∧ k ∉ d.localPendingTickers) :
    ∃ d', addOp reserved pending tx sender d op = .ok d' := by
  rw [addOp]
  rw [OpInRange] at hrange
  cases haction : op.action with
  | issue =>
    cases hdata : op.getIssuance with
    | none => exact ⟨d, rfl⟩
    | some x =>
      obtain ⟨hfree, hlocal⟩ := htickers x.ticker (by simp [issueTickers, haction, hdata])
      simp [hfree, hlocal]
  | transfer =>
    simp only [haction] at hrange
    cases hdata : op.getTransfer with
    | none => exact ⟨d, rfl⟩
    | some x =>
      obtain ⟨hmax, hdebit, hcredit⟩ := hrange x hdata
      simp only [Draft.debit_ok hmax hdebit]
      cases hrec : getTransferRecipient reserved tx with
      | none => exact ⟨_, rfl⟩
      | some r =>
        have hvalue := (d.value_post (sender, x.tokenId) (r, x.tokenId) (-x.amount)).1
        have hle := hcredit r hrec
        have hroom : ¬ ((int64Max : ℤ) - x.amount <
            value (d.post (sender, x.tokenId) (-x.amount)).balances (r, x.tokenId)) := by
          rw [hvalue]
          by_cases hr : r = sender
          · rw [if_pos (by rw [hr])]
            rw [if_pos hr] at hle
            omega
          · rw [if_neg (fun heq => hr (congrArg Prod.fst heq))]
            rw [if_neg hr] at hle
            omega
        exact ⟨_, if_neg hroom⟩
  | burn =>
    simp only [haction] at hrange
    cases hdata : op.getBurn with
    | none => exact ⟨d, rfl⟩
    | some x =>
      obtain ⟨hmax, hdebit⟩ := hrange x hdata
      exact ⟨_, Draft.debit_ok hmax hdebit⟩
  | invalid => exact ⟨d, rfl⟩

theorem addOps_of_inRange (pending : AList fun _ : Bytes => Uint256) {tx : CTransaction}
    {sender : CScript} {ops : List SRC20Operation} {d : Draft}
    (hrange : OpsInRange (getTransferRecipient reserved tx) sender (value d.balances) ops)
    (hfree : ∀ k ∈ issueTickers ops, pending.lookup k = none)
    (hdistinct : (d.localPendingTickers ++ issueTickers ops).Nodup) :
    ∃ d', ops.foldlM (addOp reserved pending tx sender) d = .ok d' := by
  induction ops generalizing d with
  | nil => exact ⟨d, rfl⟩
  | cons op ops ih =>
    rw [issueTickers_cons] at hfree hdistinct
    obtain ⟨d', hop⟩ := addOp_of_inRange pending (d := d) hrange.1 fun k hk =>
      ⟨hfree k (List.mem_append_left _ hk), fun hlocal =>
        (List.nodup_append.mp hdistinct).2.2 k hlocal k (List.mem_append_left _ hk) rfl⟩
    obtain ⟨hentered, -⟩ := addOp_ok hop
    have hbalances : value d'.balances = fun k => value d.balances k +
        opDelta (getTransferRecipient reserved tx) sender op k := funext hentered.balances
    obtain ⟨d'', hrest⟩ := ih (d := d') (by rw [hbalances]; exact hrange.2)
      (fun k hk => hfree k (List.mem_append_right _ hk))
      (by rw [hentered.tickers, List.append_assoc]; exact hdistinct)
    exact ⟨d'', by rw [List.foldlM_cons, hop]; exact hrest⟩

/-- **Within its limits, `AddTransaction` returns true.** -/
theorem addTransaction_of_trackable {st : MempoolTokenState} {now : ℤ} {tx : CTransaction}
    {sender : CScript} (h : Trackable reserved st now tx sender) :
    (addTransaction reserved st now tx sender).2 = true := by
  obtain ⟨d, hloop⟩ := addOps_of_inRange st.mPendingTickers
    (d := ⟨st.mPendingBalances, ∅, []⟩) h.range
    (fun k hk => by simpa [isTickerPending] using h.tickers k hk) (by simpa using h.distinct)
  rw [addTransaction]
  simp only [if_neg (not_le.mpr h.room), if_neg (not_lt.mpr h.address), h.rate, Bool.false_eq_true,
    if_false, hloop]
  split_ifs <;> rfl

/-! ### Notifications on their way -/

/-- A notification that is queued, or still to be queued for a connected block, will end the
tracking of `txid`. -/
def Node.Named (reserved : List Bytes) (n : Node) (txid : Uint256) : Prop :=
  (∃ callback ∈ n.queue, txid ∈ callback.txids reserved) ∨
    ∃ block ∈ n.trace, txid ∈ block.vtx.map CTransaction.hash

/-- What a step has to observe to keep tracking and mempool together. -/
def Careful (reserved : List Bytes) (n : Node) : Action → Prop
  -- no removal of an entering transaction is still on its way
  | .finalize _ _ => ∀ p ∈ n.checked, ¬ n.Named reserved p.1.hash
  -- the tracker has room for it
  | .record now => ∀ e ∈ n.entering.head?, Trackable reserved n.tracker.1 now e.tx e.sender
  -- there is nothing whose tracking could be lost
  | .disconnect => ∀ tx ∈ n.pool, parseTransactionSRC20 reserved tx = []
  | _ => True

/-- Tracking and mempool while notifications are on their way. -/
structure InSync (reserved : List Bytes) (n : Node) : Prop where
  ledger : Ledgered reserved n.tracker.1 n.tracker.2
  nodup : (n.pool.map CTransaction.hash).Nodup
  /-- checked transactions are new, and carry a sender exactly if they carry operations -/
  checked_nodup : (n.checked.map fun p => p.1.hash).Nodup
  checked_new : ∀ p ∈ n.checked, p.1.hash ∉ n.pool.map CTransaction.hash ∧
    (p.2.isSome ↔ parseTransactionSRC20 reserved p.1 ≠ [])
  phase : n.checked = [] ∨ n.entering = []
  entering_nodup : (n.entering.map fun e => e.tx.hash).Nodup
  entering_new : ∀ e ∈ n.entering, e.tx ∈ n.pool ∧ parseTransactionSRC20 reserved e.tx ≠ [] ∧
    ∀ e' ∈ n.tracker.2, e'.tx.hash ≠ e.tx.hash
  tracked_of_pool : ∀ tx ∈ n.pool, parseTransactionSRC20 reserved tx ≠ [] →
    (∃ e ∈ n.tracker.2, e.tx.hash = tx.hash) ∨ ∃ e ∈ n.entering, e.tx.hash = tx.hash
  pool_of_tracked : ∀ e ∈ n.tracker.2,
    (∃ tx ∈ n.pool, tx.hash = e.tx.hash ∧ parseTransactionSRC20 reserved tx ≠ []) ∨
      n.Named reserved e.tx.hash
  quiet : ∀ tx ∈ n.pool, parseTransactionSRC20 reserved tx ≠ [] → ¬ n.Named reserved tx.hash

theorem inSync_start {n : Node}
    (h : (nodeMachine reserved nHeight).start n) : InSync reserved n := by
  obtain ⟨db, chain, rfl⟩ := h
  refine ⟨ledgered_empty ∅, ?_, ?_, ?_, Or.inl rfl, ?_, ?_, ?_, ?_, ?_⟩ <;> simp [Node.start]

namespace InSync

variable {n n' : Node}

/-! ### Transactions leaving the mempool -/

/-- **Step: transactions leave the mempool**, and the notifications that become due are about them.
-/
theorem drop (h : InSync reserved n) {gone : List Uint256}
    (hpool : n'.pool = n.pool.filter fun tx => tx.hash ∉ gone)
    (hentering : n'.entering = n.entering.filter fun e => e.tx.hash ∉ gone)
    (hchecked : n'.checked = n.checked) (htracker : n'.tracker = n.tracker) {news : Uint256 → Prop}
    (hnamed : ∀ txid, n'.Named reserved txid ↔ n.Named reserved txid ∨ news txid)
    (hnews : ∀ txid, news txid → txid ∈ gone)
    (htold : ∀ tx ∈ n.pool, parseTransactionSRC20 reserved tx ≠ [] → tx.hash ∈ gone →
      news tx.hash) :
    InSync reserved n' := by
  have hmem : ∀ tx, tx ∈ n'.pool ↔ tx ∈ n.pool ∧ tx.hash ∉ gone := by
    intro tx
    rw [hpool, List.mem_filter, decide_eq_true_eq]
  have hmem' : ∀ e, e ∈ n'.entering ↔ e ∈ n.entering ∧ e.tx.hash ∉ gone := by
    intro e
    rw [hentering, List.mem_filter, decide_eq_true_eq]
  constructor
  case ledger =>
    rw [htracker]
    exact h.ledger
  case checked_nodup =>
    rw [hchecked]
    exact h.checked_nodup
  case nodup =>
    rw [hpool]
    exact h.nodup.sublist (List.filter_sublist.map _)
  case checked_new =>
    rw [hchecked]
    intro p hp
    obtain ⟨hnew, hsender⟩ := h.checked_new p hp
    refine ⟨fun hin => hnew ?_, hsender⟩
    obtain ⟨tx, htx, hhash⟩ := List.mem_map.mp hin
    exact List.mem_map.mpr ⟨tx, ((hmem tx).mp htx).1, hhash⟩
  case phase =>
    rw [hchecked]
    refine h.phase.imp id fun hnone => ?_
    rw [hentering, hnone]
    rfl
  case entering_nodup =>
    rw [hentering]
    exact h.entering_nodup.sublist (List.filter_sublist.map _)
  case entering_new =>
    intro e he
    obtain ⟨hold, hstay⟩ := (hmem' e).mp he
    obtain ⟨hin, hops, hnew⟩ := h.entering_new e hold
    rw [htracker]
    exact ⟨(hmem e.tx).mpr ⟨hin, hstay⟩, hops, hnew⟩
  case tracked_of_pool =>
    intro tx htx hops
    obtain ⟨hold, hstay⟩ := (hmem tx).mp htx
    rw [htracker]
    refine (h.tracked_of_pool tx hold hops).imp id ?_
    rintro ⟨e, he, hhash⟩
    exact ⟨e, (hmem' e).mpr ⟨he, by rw [hhash]; exact hstay⟩, hhash⟩
  case pool_of_tracked =>
    rw [htracker]
    intro e he
    rw [hnamed]
    rcases h.pool_of_tracked e he with ⟨tx, htx, hhash, hops⟩ | hwas
    · by_cases hgone : tx.hash ∈ gone
      · exact Or.inr (Or.inr (hhash ▸ htold tx htx hops hgone))
      · exact Or.inl ⟨tx, (hmem tx).mpr ⟨htx, hgone⟩, hhash, hops⟩
    · exact Or.inr (Or.inl hwas)
  case quiet =>
    intro tx htx hops
    obtain ⟨hold, hstay⟩ := (hmem tx).mp htx
    rw [hnamed]
    rintro (hwas | hnew)
    · exact h.quiet tx hold hops hwas
    · exact hstay (hnews _ hnew)

/-- The removal notices of a list name its token transactions. -/
theorem mem_removed_txids {txs : List CTransaction} {txid : Uint256} :
    (∃ callback ∈ txs.map Callback.removed, txid ∈ callback.txids reserved) ↔
      ∃ tx ∈ txs, tx.hash = txid ∧ parseTransactionSRC20 reserved tx ≠ [] := by
  simp only [List.mem_map, exists_exists_and_eq_and]
  refine exists_congr fun tx => and_congr_right fun _ => ?_
  rw [Callback.txids]
  by_cases hops : parseTransactionSRC20 reserved tx = []
  · simp [hops]
  · rw [if_neg (by simpa using hops), List.mem_singleton]
    exact ⟨fun heq => ⟨heq.symm, hops⟩, fun hand => hand.1.symm⟩

theorem named_append {callbacks : List Callback} {blocks : List CBlock}
    (hqueue : n'.queue = n.queue ++ callbacks) (htrace : n'.trace = n.trace ++ blocks)
    (txid : Uint256) :
    n'.Named reserved txid ↔ n.Named reserved txid ∨
      ((∃ callback ∈ callbacks, txid ∈ callback.txids reserved) ∨
        ∃ block ∈ blocks, txid ∈ block.vtx.map CTransaction.hash) := by
  simp only [Node.Named, hqueue, htrace, List.mem_append, or_and_right, exists_or]
  exact or_or_or_comm

/-- In the mempool a txid belongs to one transaction. -/
theorem eq_of_hash (h : InSync reserved n) {tx tx' : CTransaction} (htx : tx ∈ n.pool)
    (htx' : tx' ∈ n.pool) (hhash : tx.hash = tx'.hash) : tx = tx' :=
  List.inj_on_of_nodup_map h.nodup htx htx' hhash

/-- **Step: eviction.** -/
theorem evict (h : InSync reserved n) {txs : List CTransaction} (hin : ∀ tx ∈ txs, tx ∈ n.pool) :
    InSync reserved (n.drop (txs.map CTransaction.hash) (txs.map .removed)) := by
  have htrace : (n.drop (txs.map CTransaction.hash) (txs.map .removed)).trace = n.trace ++ [] :=
    (List.append_nil _).symm
  refine h.drop rfl rfl rfl rfl (named_append rfl htrace) ?_ ?_
  · rintro txid (hnews | ⟨block, hblock, -⟩)
    · obtain ⟨tx, htx, rfl, -⟩ := mem_removed_txids.mp hnews
      exact List.mem_map_of_mem htx
    · simp at hblock
  · intro tx htx hops hgone
    obtain ⟨tx', htx', hhash⟩ := List.mem_map.mp hgone
    obtain rfl := h.eq_of_hash (hin tx' htx') htx hhash
    exact Or.inl (mem_removed_txids.mpr ⟨tx', htx', rfl, hops⟩)

/-- **Step: a connected block.** -/
theorem connect (h : InSync reserved n) {e : BlockEntry} {conflicts : List CTransaction}
    (htaken : n.step reserved nHeight (.connect e conflicts) = some n') : InSync reserved n' := by
  simp only [Node.step] at htaken
  split_ifs at htaken with hguard
  obtain rfl := Option.some.inj htaken
  have hin : ∀ tx ∈ conflicts, tx ∈ n.pool := by
    by_contra hnot
    exact hguard (Or.inr hnot)
  refine h.drop rfl rfl rfl rfl (named_append rfl rfl) ?_ ?_
  · rintro txid (⟨callback, hcb, hmem⟩ | ⟨block, hblock, hmem⟩)
    · rcases List.mem_append.mp hcb with hcb | hcb
      · obtain ⟨tx, htx, rfl, -⟩ := mem_removed_txids.mp ⟨callback, hcb, hmem⟩
        exact List.mem_append_left _ (List.mem_map_of_mem htx)
      · obtain rfl := List.mem_singleton.mp hcb
        obtain ⟨tx, htx, rfl⟩ := List.mem_map.mp hmem
        exact List.mem_append_right _ (of_decide_eq_true (List.mem_filter.mp htx).2)
    · obtain rfl := List.mem_singleton.mp hblock
      exact List.mem_append_right _ hmem
  · intro tx htx hops hgone
    rcases List.mem_append.mp hgone with hconflict | hmined
    · obtain ⟨tx', htx', hhash⟩ := List.mem_map.mp hconflict
      obtain rfl := h.eq_of_hash (hin tx' htx') htx hhash
      obtain ⟨callback, hcb, hmem⟩ := mem_removed_txids.mpr ⟨tx', htx', rfl, hops⟩
      exact Or.inl ⟨callback, List.mem_append_left _ hcb, hmem⟩
    · exact Or.inr ⟨e.block, List.mem_singleton_self _, hmined⟩

/-! ### Acceptance -/

/-- **Step: a checked transaction.** -/
theorem check (h : InSync reserved n) {now : ℤ} {view : CoinsView} {tx : CTransaction}
    (htaken : n.step reserved nHeight (.check now view tx) = some n') : InSync reserved n' := by
  simp only [Node.step] at htaken
  split_ifs at htaken with hguard
  simp only [not_or] at hguard
  obtain ⟨hentering, hpool, hchecked, -⟩ := hguard
  cases hpre : preChecks reserved n.db n.tracker.1 now view tx with
  | error reject => simp [hpre] at htaken
  | ok sender =>
    simp only [hpre] at htaken
    obtain rfl := Option.some.inj htaken
    obtain ⟨-, -, hsender⟩ := preChecks_ok hpre
    refine ⟨h.ledger, h.nodup, ?_, ?_, Or.inr (by simpa using hentering), h.entering_nodup,
      h.entering_new, h.tracked_of_pool, h.pool_of_tracked, h.quiet⟩
    · rw [List.map_append, List.nodup_append]
      refine ⟨h.checked_nodup, by simp, ?_⟩
      rintro txid htxid txid' htxid' rfl
      simp only [List.map_cons, List.map_nil, List.mem_singleton] at htxid'
      exact hchecked (htxid' ▸ htxid)
    · intro p hp
      rcases List.mem_append.mp hp with hp | hp
      · exact h.checked_new p hp
      · obtain rfl := List.mem_singleton.mp hp
        refine ⟨hpool, ?_⟩
        by_cases hops : parseTransactionSRC20 reserved tx = []
        · simp [hsender, hops]
        · simp [hsender, hops]

/-- **Step: an abandoned acceptance.** -/
theorem abandon (h : InSync reserved n) : InSync reserved { n with checked := [] } :=
  ⟨h.ledger, h.nodup, List.nodup_nil, by simp, Or.inl rfl, h.entering_nodup, h.entering_new,
    h.tracked_of_pool, h.pool_of_tracked, h.quiet⟩

theorem sublist_entering (l : List (CTransaction × Option CScript)) :
    ((l.filterMap fun p => p.2.map fun sender => (⟨p.1, sender⟩ : Tracked)).map
      fun e => e.tx.hash).Sublist (l.map fun p => p.1.hash) := by
  induction l with
  | nil => exact List.Sublist.slnil
  | cons p l ih =>
    cases hp : p.2 with
    | none =>
      rw [List.filterMap_cons_none (by rw [hp]; rfl)]
      exact ih.cons _
    | some sender =>
      rw [List.filterMap_cons_some (by rw [hp]; rfl)]
      exact ih.cons_cons _

/-- What waits to be named after new transactions have entered: the tokens among the replaced ones
as well. -/
theorem named_enter {n : Node} {replaced : List CTransaction} {txid : Uint256} :
    (n.enter reserved replaced).Named reserved txid ↔ n.Named reserved txid ∨
      ∃ tx ∈ replaced, tx.hash = txid ∧ parseTransactionSRC20 reserved tx ≠ [] := by
  have hqueue : (n.enter reserved replaced).queue = n.queue ++ replaced.map .removed := rfl
  have htrace : (n.enter reserved replaced).trace = n.trace ++ [] := (List.append_nil _).symm
  rw [named_append hqueue htrace, mem_removed_txids]
  simp

theorem mem_pool_enter {n : Node} {replaced : List CTransaction} {tx : CTransaction} :
    tx ∈ (n.enter reserved replaced).pool ↔
      (tx ∈ n.pool ∧ tx.hash ∉ replaced.map CTransaction.hash) ∨ ∃ p ∈ n.checked, p.1 = tx := by
  simp only [Node.enter, Node.drop, List.mem_append, List.mem_filter, decide_eq_true_eq,
    List.mem_map]

theorem mem_tracked_enter {n : Node} {replaced : List CTransaction} {e : Tracked} :
    e ∈ (n.enter reserved replaced).tracker.2 ↔
      e ∈ n.tracker.2 ∧ e.tx.hash ∉ replaced.map CTransaction.hash := mem_removeAll _

theorem mem_entering_enter {n : Node} {replaced : List CTransaction} {e : Tracked} :
    e ∈ (n.enter reserved replaced).entering ↔ ∃ p ∈ n.checked, p.1 = e.tx ∧
      p.2 = some e.sender := by
  obtain ⟨tx, sender⟩ := e
  simp only [Node.enter, List.mem_filterMap, Option.map_eq_some_iff, Tracked.mk.injEq]
  refine exists_congr fun p => and_congr_right fun _ => ?_
  constructor
  · rintro ⟨s, hs, rfl, rfl⟩
    exact ⟨rfl, hs⟩
  · rintro ⟨htx, hs⟩
    exact ⟨sender, hs, htx, rfl⟩

/-- A checked transaction is not in the mempool yet. -/
theorem checked_ne (h : InSync reserved n) {p : CTransaction × Option CScript} (hp : p ∈ n.checked)
    {tx : CTransaction} (htx : tx ∈ n.pool) : tx.hash ≠ p.1.hash := by
  intro hhash
  exact (h.checked_new p hp).1 (List.mem_map.mpr ⟨tx, htx, hhash⟩)

/-- **Step: the checked transactions enter the mempool.** -/
theorem enter (h : InSync reserved n) (hchecked : n.checked ≠ [])
    (hcareful : ∀ p ∈ n.checked, ¬ n.Named reserved p.1.hash) {replaced : List CTransaction}
    (hin : ∀ tx ∈ replaced, tx ∈ n.pool) : InSync reserved (n.enter reserved replaced) := by
  have hentering : n.entering = [] := h.phase.resolve_left hchecked
  -- a new transaction is not in the mempool yet, hence not among the replaced ones
  have hfresh : ∀ p ∈ n.checked, p.1.hash ∉ replaced.map CTransaction.hash := by
    intro p hp hmem
    obtain ⟨tx, htx, hhash⟩ := List.mem_map.mp hmem
    exact h.checked_ne hp (hin tx htx) hhash
  constructor
  case ledger => exact removeAll_ledgered h.ledger _
  case checked_nodup => exact List.nodup_nil
  case checked_new => simp [Node.enter]
  case phase => exact Or.inl rfl
  case nodup =>
    show ((n.pool.filter _ ++ n.checked.map Prod.fst).map CTransaction.hash).Nodup
    rw [List.map_append, List.map_map, List.nodup_append]
    refine ⟨h.nodup.sublist (List.filter_sublist.map _), h.checked_nodup, ?_⟩
    rintro txid hold txid' hnew rfl
    obtain ⟨p, hp, rfl⟩ := List.mem_map.mp hnew
    obtain ⟨tx, htx, hhash⟩ := List.mem_map.mp hold
    exact h.checked_ne hp (List.mem_of_mem_filter htx) hhash
  case entering_nodup =>
    exact h.checked_nodup.sublist (sublist_entering n.checked)
  case entering_new =>
    intro e he
    obtain ⟨p, hp, htx, hsender⟩ := mem_entering_enter.mp he
    refine ⟨mem_pool_enter.mpr (Or.inr ⟨p, hp, htx⟩), ?_, ?_⟩
    · rw [← htx]
      exact (h.checked_new p hp).2.mp (by simp [hsender])
    · intro e' he' hhash
      rw [← htx] at hhash
      rcases h.pool_of_tracked e' (mem_tracked_enter.mp he').1 with ⟨tx, htx', hsame, -⟩ | hname
      · exact h.checked_ne hp htx' (hsame.trans hhash)
      · exact hcareful p hp (hhash ▸ hname)
  case tracked_of_pool =>
    intro tx htx hops
    rcases mem_pool_enter.mp htx with ⟨hold, hstay⟩ | ⟨p, hp, rfl⟩
    · left
      rcases h.tracked_of_pool tx hold hops with ⟨e, he, hhash⟩ | ⟨e, he, -⟩
      · exact ⟨e, mem_tracked_enter.mpr ⟨he, by rw [hhash]; exact hstay⟩, hhash⟩
      · rw [hentering] at he
        simp at he
    · right
      obtain ⟨sender, hsender⟩ := Option.isSome_iff_exists.mp ((h.checked_new p hp).2.mpr hops)
      exact ⟨⟨p.1, sender⟩, mem_entering_enter.mpr ⟨p, hp, rfl, hsender⟩, rfl⟩
  case pool_of_tracked =>
    intro e he
    obtain ⟨hold, hstay⟩ := mem_tracked_enter.mp he
    rw [named_enter]
    rcases h.pool_of_tracked e hold with ⟨tx, htx, hhash, hops⟩ | hname
    · exact Or.inl ⟨tx, mem_pool_enter.mpr (Or.inl ⟨htx, by rw [hhash]; exact hstay⟩), hhash, hops⟩
    · exact Or.inr (Or.inl hname)
  case quiet =>
    intro tx htx hops
    rw [named_enter]
    rintro (hname | ⟨tx', htx', hhash, -⟩)
    · rcases mem_pool_enter.mp htx with ⟨hold, -⟩ | ⟨p, hp, rfl⟩
      · exact h.quiet tx hold hops hname
      · exact hcareful p hp hname
    · rcases mem_pool_enter.mp htx with ⟨-, hstay⟩ | ⟨p, hp, rfl⟩
      · exact hstay (hhash ▸ List.mem_map_of_mem htx')
      · exact hfresh p hp (hhash ▸ List.mem_map_of_mem htx')

/-- **Step: a recorded transaction.** -/
theorem record (h : InSync reserved n) {now : ℤ} (hcareful : Careful reserved n (.record now))
    (htaken : n.step reserved nHeight (.record now) = some n') : InSync reserved n' := by
  cases hentering : n.entering with
  | nil => simp [Node.step, hentering] at htaken
  | cons e rest =>
    simp only [Node.step, hentering] at htaken
    obtain rfl := Option.some.inj htaken
    obtain ⟨hin, hops, hnew⟩ := h.entering_new e (by simp [hentering])
    have htrue := addTransaction_of_trackable (hcareful e (by simp [hentering]))
    -- the transaction is new to the tracker, so it is recorded
    have htracked : (Mempool.step reserved n.tracker (.add now e.tx e.sender)).2 =
        e :: n.tracker.2 :=
      if_pos ⟨htrue, hops, hnew⟩
    have hnodup := h.entering_nodup
    rw [hentering, List.map_cons, List.nodup_cons] at hnodup
    refine ⟨h.ledger.step _, h.nodup, h.checked_nodup, h.checked_new, ?_, hnodup.2, ?_, ?_,
      ?_, h.quiet⟩
    · refine h.phase.imp id fun hnone => ?_
      rw [hentering] at hnone
      simp at hnone
    · intro e' he'
      obtain ⟨hin', hops', hnew'⟩ := h.entering_new e' (by rw [hentering]; exact .tail _ he')
      refine ⟨hin', hops', ?_⟩
      show ∀ e'' ∈ (Mempool.step reserved n.tracker (.add now e.tx e.sender)).2, _
      rw [htracked]
      intro e'' he''
      rcases List.mem_cons.mp he'' with rfl | he''
      · exact fun heq => hnodup.1 (heq ▸ List.mem_map_of_mem he')
      · exact hnew' e'' he''
    · intro tx htx hops'
      show (∃ e' ∈ (Mempool.step reserved n.tracker (.add now e.tx e.sender)).2, _) ∨ _
      rw [htracked]
      rcases h.tracked_of_pool tx htx hops' with ⟨e', he', hhash⟩ | ⟨e', he', hhash⟩
      · exact Or.inl ⟨e', List.mem_cons_of_mem e he', hhash⟩
      · rw [hentering] at he'
        rcases List.mem_cons.mp he' with rfl | he'
        · exact Or.inl ⟨e', List.mem_cons_self, hhash⟩
        · exact Or.inr ⟨e', he', hhash⟩
    · show ∀ e' ∈ (Mempool.step reserved n.tracker (.add now e.tx e.sender)).2, _
      rw [htracked]
      intro e' he'
      rcases List.mem_cons.mp he' with rfl | he'
      · exact Or.inl ⟨e'.tx, hin, rfl, hops⟩
      · exact h.pool_of_tracked e' he'

/-! ### Notifications -/

/-- **Step: a block is announced.**  What waited for its announcement waits for its delivery now. -/
theorem announce (h : InSync reserved n) (htaken : n.step reserved nHeight .announce = some n') :
    InSync reserved n' := by
  cases htrace : n.trace with
  | nil => simp [Node.step, htrace] at htaken
  | cons block rest =>
    simp only [Node.step, htrace] at htaken
    obtain rfl := Option.some.inj htaken
    have hnamed : ∀ txid, Node.Named reserved
        { n with trace := rest, queue := n.queue ++ [.blockConnected block] } txid ↔
        n.Named reserved txid := by
      intro txid
      have hown : (Callback.blockConnected block).txids reserved =
          block.vtx.map CTransaction.hash := rfl
      simp only [Node.Named, htrace, List.mem_append, List.mem_cons, List.not_mem_nil, or_false,
        or_and_right, exists_or, exists_eq_left, hown, or_assoc]
    exact ⟨h.ledger, h.nodup, h.checked_nodup, h.checked_new, h.phase, h.entering_nodup,
      h.entering_new, h.tracked_of_pool, fun e he => (h.pool_of_tracked e he).imp id (hnamed _).mpr,
      fun tx htx hops hname => h.quiet tx htx hops ((hnamed _).mp hname)⟩

/-- **Step: a notification is delivered.**  It names no token transaction of the mempool, so only
tracking that has become void ends. -/
theorem deliver (h : InSync reserved n) {now : ℤ}
    (htaken : n.step reserved nHeight (.deliver now) = some n') : InSync reserved n' := by
  cases hqueue : n.queue with
  | nil => simp [Node.step, hqueue] at htaken
  | cons callback rest =>
    simp only [Node.step, hqueue] at htaken
    obtain rfl := Option.some.inj htaken
    have hnamed : ∀ txid, n.Named reserved txid ↔ txid ∈ callback.txids reserved ∨
        Node.Named reserved { n with
          tracker := callback.deliver reserved now n.tracker, queue := rest } txid := by
      intro txid
      simp only [Node.Named, hqueue, List.mem_cons, or_and_right, exists_or,
        exists_eq_left, or_assoc]
    refine ⟨deliver_ledgered h.ledger now callback, h.nodup, h.checked_nodup,
      h.checked_new, h.phase, h.entering_nodup, ?_, ?_, ?_, ?_⟩
    · intro e he
      obtain ⟨hin, hops, hnew⟩ := h.entering_new e he
      exact ⟨hin, hops, fun e' he' => hnew e' ((mem_deliver now callback).mp he').1⟩
    · intro tx htx hops
      refine (h.tracked_of_pool tx htx hops).imp ?_ id
      rintro ⟨e, he, hhash⟩
      refine ⟨e, (mem_deliver now callback).mpr ⟨he, fun hmem => ?_⟩, hhash⟩
      exact h.quiet tx htx hops ((hnamed _).mpr (Or.inl (hhash ▸ hmem)))
    · intro e he
      obtain ⟨hold, hstay⟩ := (mem_deliver now callback).mp he
      exact (h.pool_of_tracked e hold).imp id fun hname => ((hnamed _).mp hname).resolve_left hstay
    · intro tx htx hops hname
      exact h.quiet tx htx hops ((hnamed _).mpr (Or.inr hname))

/-- **Step: the tip is disconnected**, while no token transaction is in the mempool. -/
theorem disconnect (h : InSync reserved n) (hcareful : Careful reserved n .disconnect)
    (htaken : n.step reserved nHeight .disconnect = some n') : InSync reserved n' := by
  cases hchain : n.chain with
  | nil => simp [Node.step, hchain] at htaken
  | cons e rest =>
    simp only [Node.step, hchain] at htaken
    split_ifs at htaken with hidle
    obtain rfl := Option.some.inj htaken
    refine ⟨h.ledger.step .clear, h.nodup, h.checked_nodup, h.checked_new, h.phase,
      h.entering_nodup, ?_, ?_, ?_, h.quiet⟩
    · intro e he
      obtain ⟨hin, hops, -⟩ := h.entering_new e he
      exact absurd (hcareful e.tx hin) hops
    · exact fun tx htx hops => absurd (hcareful tx htx) hops
    · intro e he
      exact absurd he (List.not_mem_nil)

/-- **Every careful step keeps tracking and mempool in sync.** -/
theorem step (h : InSync reserved n) {a : Action} (hcareful : Careful reserved n a)
    (htaken : n.step reserved nHeight a = some n') : InSync reserved n' := by
  cases a with
  | check now view tx => exact h.check htaken
  | abandon =>
    obtain rfl := Option.some.inj htaken
    exact h.abandon
  | finalize replaced evicted =>
    simp only [Node.step] at htaken
    split_ifs at htaken with hguard
    simp only [not_or, not_not] at hguard
    obtain ⟨hchecked, hreplaced, hevicted⟩ := hguard
    obtain rfl := Option.some.inj htaken
    exact (h.enter (by simpa using hchecked) hcareful hreplaced).evict hevicted
  | record now => exact h.record hcareful htaken
  | evict txs =>
    simp only [Node.step] at htaken
    split_ifs at htaken with hguard
    simp only [not_or, not_not] at hguard
    obtain rfl := Option.some.inj htaken
    exact h.evict hguard.2
  | connect e conflicts => exact h.connect htaken
  | announce => exact h.announce htaken
  | disconnect => exact h.disconnect hcareful htaken
  | deliver now => exact h.deliver htaken

end InSync

/-- **Tracking follows the mempool.**  In a run of careful steps, whenever every notification has
been delivered and no acceptance is under way, exactly the token transactions of the mempool are
tracked. -/
theorem tracked_iff_in_pool {n : Node}
    (hrun : (nodeMachine reserved nHeight).Run (Careful reserved) n) (hqueue : n.queue = [])
    (htrace : n.trace = []) (hidle : n.idle = true) (txid : Uint256) :
    (n.tracker.1.mTxOps.lookup txid).isSome ↔
      ∃ tx ∈ n.pool, tx.hash = txid ∧ parseTransactionSRC20 reserved tx ≠ [] := by
  have h : InSync reserved n :=
    hrun.induct (fun _ => inSync_start) fun _ _ _ h hcareful htaken => h.step hcareful htaken
  have hentering : n.entering = [] := (Node.lists_of_idle hidle).2
  rw [h.ledger.txOps.isSome_iff]
  constructor
  · rintro ⟨e, he, rfl⟩
    refine (h.pool_of_tracked e he).resolve_right ?_
    simp [Node.Named, hqueue, htrace]
  · rintro ⟨tx, htx, rfl, hops⟩
    refine (h.tracked_of_pool tx htx hops).resolve_right ?_
    simp [hentering]

namespace Sample

open OpenSY.Tokens.Sample

theorem parse_moveTx : parseTransactionSRC20 [] moveTx = [⟨.transfer, .transfer ⟨7, 3⟩⟩] := by
  decide +kernel

theorem recipient_moveTx : getTransferRecipient [] moveTx = some bob := by decide +kernel

/-- The node after `moveTx` has passed the checks. -/
def checkedNode : Node := { Node.start issued [issueEntry] with checked := [(moveTx, some alice)] }

/-- The node after `moveTx` has entered the mempool. -/
def enteredNode : Node :=
  { Node.start issued [issueEntry] with pool := [moveTx], entering := [⟨moveTx, alice⟩] }

/-- The node after `moveTx` has been recorded. -/
def recordedNode : Node :=
  { Node.start issued [issueEntry] with
    pool := [moveTx], tracker := step [] (empty, []) (.add 0 moveTx alice) }

theorem trackable_moveTx : Trackable [] empty 0 moveTx alice := by
  refine ⟨by decide, by decide +kernel, rfl, ?_, ?_, ?_⟩
  · rw [parse_moveTx]
    decide
  · rw [parse_moveTx]
    decide
  · rw [parse_moveTx, recipient_moveTx]
    simp [OpsInRange, OpInRange, SRC20Operation.getTransfer, int64Max, int64Min, empty, alice, bob]

theorem run_recordedNode : (nodeMachine [] sampleHeight).Run (Careful []) recordedNode := by
  have hchecked : preChecks [] issued empty 0 aliceView moveTx = .ok (some alice) := by
    decide +kernel
  have hnew : moveTx.hash ∉ chainTxids [issueEntry] := by decide +kernel
  have hrun : (nodeMachine [] sampleHeight).Run (Careful []) checkedNode := by
    refine .next (.start ⟨issued, [issueEntry], rfl⟩) (a := .check 0 aliceView moveTx) trivial ?_
    simp [nodeMachine, Node.step, Node.start, hchecked, hnew, checkedNode]
  have hrun' : (nodeMachine [] sampleHeight).Run (Careful []) enteredNode := by
    refine .next hrun (a := .finalize [] []) ?_ ?_
    · simp [Careful, checkedNode, Node.Named, Node.start]
    · simp [nodeMachine, Node.step, Node.enter, Node.drop, Tracker.removeAll, checkedNode,
        enteredNode, Node.start]
  refine .next hrun' (a := .record 0) ?_ rfl
  intro e he
  obtain rfl : (⟨moveTx, alice⟩ : Tracked) = e := Option.some.inj he
  exact trackable_moveTx

/-- A block without token operations. -/
def quietEntry : BlockEntry := ⟨⟨102, 101, 0, [coinbase 2]⟩, ⟨[]⟩⟩

/-- The quiet block is connected and announced, `moveTx` is accepted, the quiet block is
disconnected. -/
def reorgActions : List Action :=
  [.connect quietEntry [], .announce, .deliver 0, .deliver 0, .check 0 aliceView moveTx,
    .finalize [] [], .record 0, .disconnect]

end Sample

/-- A transfer is accepted, and tracked. -/
theorem tracked_iff_in_pool_move :
    (nodeMachine [] Tokens.Sample.sampleHeight).Run (Careful []) Sample.recordedNode ∧
    ∀ txid, (Sample.recordedNode.tracker.1.mTxOps.lookup txid).isSome ↔
      ∃ tx ∈ Sample.recordedNode.pool, tx.hash = txid ∧ parseTransactionSRC20 [] tx ≠ [] :=
  ⟨Sample.run_recordedNode, tracked_iff_in_pool Sample.run_recordedNode rfl rfl rfl⟩

/-- **A debit is forgotten.**  The tip is disconnected while a transfer waits in the mempool: every
notification has been delivered, the transfer can still be mined, and it is not tracked. -/
theorem untracked_after_disconnect :
    ((nodeMachine [] Tokens.Sample.sampleHeight).steps
      (.start Tokens.Sample.issued [Tokens.Sample.issueEntry]) Sample.reorgActions).map
        (fun n => (n.pool, n.queue.length, n.trace.length, n.idle,
          (n.tracker.1.mTxOps.lookup Sample.moveTx.hash).isSome)) =
      some ([Sample.moveTx], 0, 0, true, false) ∧
    parseTransactionSRC20 [] Sample.moveTx ≠ [] :=
  ⟨by decide +kernel, by decide +kernel⟩

end OpenSY.Mempool
