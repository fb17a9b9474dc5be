import OpenSY.Mempool.Tracking

/-!
# Between a block and its notice

`ProcessBlock` books the transfers of a block at once; the pending state hears of them when
`BlockConnected` is delivered.  In between a transaction of the block counts twice in the effective
balance, once as confirmed and once as pending.

`Awaits` says that the notice of a block with a given transaction is still on its way.  In every run
only such transactions are both tracked and confirmed (`Settling`); hence an amount that passes
`canTransfer` is covered, as long as no such transaction credits the account (`no_double_credit`).
-/

namespace OpenSY.Mempool

open OpenSY.Chain OpenSY.Src20 OpenSY.Tokens OpenSY.Tallies OpenSY.Transition MempoolTokenState

variable {reserved : List Bytes} {nHeight : Uint256 → ℕ}

/-- The notice of a connected block that holds `txid` has not been delivered. -/
def Node.Awaits (n : Node) (txid : Uint256) : Prop :=
  (∃ block, .blockConnected block ∈ n.queue ∧ txid ∈ block.vtx.map CTransaction.hash) ∨
    ∃ block ∈ n.trace, txid ∈ block.vtx.map CTransaction.hash

/-- What is tracked and confirmed awaits its notice, and nothing confirmed is being accepted. -/
structure Settling (reserved : List Bytes) (n : Node) : Prop where
  ledger : Ledgered reserved n.tracker.1 n.tracker.2
  tracked : ∀ e ∈ n.tracker.2, e.tx.hash ∈ chainTxids n.chain → n.Awaits e.tx.hash
  checked : ∀ p ∈ n.checked, p.1.hash ∉ chainTxids n.chain
  entering : ∀ e ∈ n.entering, e.tx.hash ∉ chainTxids n.chain

theorem settling_start {n : Node} (h : (nodeMachine reserved nHeight).start n) :
    Settling reserved n := by
  obtain ⟨db, chain, rfl⟩ := h
  refine ⟨ledgered_empty ∅, ?_, ?_, ?_⟩ <;> simp [Node.start]

namespace Settling

variable {n n' : Node}

/-- Later notices do not answer earlier ones. -/
theorem awaits_mono {txid : Uint256} (h : n.Awaits txid) (hqueue : n.queue ⊆ n'.queue)
    (htrace : n.trace ⊆ n'.trace) : n'.Awaits txid := by
  rcases h with ⟨block, hblock, hmem⟩ | ⟨block, hblock, hmem⟩
  · exact Or.inl ⟨block, hqueue hblock, hmem⟩
  · exact Or.inr ⟨block, htrace hblock, hmem⟩

/-- **Step: transactions leave the mempool.** -/
theorem drop (h : Settling reserved n) (gone : List Uint256) (callbacks : List Callback) :
    Settling reserved (n.drop gone callbacks) := by
  refine ⟨h.ledger, fun e he hin => ?_, h.checked, fun e he => ?_⟩
  · exact awaits_mono (h.tracked e he hin) (List.subset_append_left _ _) (List.Subset.refl _)
  · exact h.entering e (List.mem_of_mem_filter he)

/-- **Step: the checked transactions enter the mempool.** -/
theorem enter (h : Settling reserved n) (replaced : List CTransaction) :
    Settling reserved (n.enter reserved replaced) := by
  refine ⟨removeAll_ledgered h.ledger _, fun e he hin => ?_, by simp [Node.enter], fun e he => ?_⟩
  · have hold := ((mem_removeAll _).mp he).1
    exact awaits_mono (h.tracked e hold hin) (List.subset_append_left _ _) (List.Subset.refl _)
  · obtain ⟨p, hp, hsome⟩ := List.mem_filterMap.mp he
    obtain ⟨sender, -, rfl⟩ := Option.map_eq_some_iff.mp hsome
    exact h.checked p hp

/-- **Step: a transaction passes the checks.** -/
theorem check (h : Settling reserved n) {now : ℤ} {view : CoinsView} {tx : CTransaction}
    (htaken : n.step reserved nHeight (.check now view tx) = some n') : Settling reserved n' := by
  simp only [Node.step] at htaken
  split_ifs at htaken with hguard
  simp only [not_or] at hguard
  obtain ⟨-, -, -, hchain⟩ := hguard
  cases hpre : preChecks reserved n.db n.tracker.1 now view tx with
  | error reject => simp [hpre] at htaken
  | ok sender =>
    simp only [hpre] at htaken
    obtain rfl := Option.some.inj htaken
    refine ⟨h.ledger, h.tracked, fun p hp => ?_, h.entering⟩
    rcases List.mem_append.mp hp with hp | hp
    · exact h.checked p hp
    · obtain rfl := List.mem_singleton.mp hp
      exact hchain

/-- **Step: an entering transaction is recorded.** -/
theorem record (h : Settling reserved n) {now : ℤ}
    (htaken : n.step reserved nHeight (.record now) = some n') : Settling reserved n' := by
  have hentering := h.entering
  cases hlist : n.entering with
  | nil => simp [Node.step, hlist] at htaken
  | cons e rest =>
    simp only [Node.step, hlist] at htaken
    obtain rfl := Option.some.inj htaken
    rw [hlist] at hentering
    refine ⟨h.ledger.step _, fun e' he' hin => ?_, h.checked, fun e' he' =>
      hentering e' (List.mem_cons_of_mem e he')⟩
    rcases mem_step_add he' with rfl | hold
    · exact absurd hin (hentering e List.mem_cons_self)
    · exact h.tracked e' hold hin

/-- **Step: a block is connected.**  What it confirms awaits its notice. -/
theorem connect (h : Settling reserved n) {e : BlockEntry} {conflicts : List CTransaction}
    (htaken : n.step reserved nHeight (.connect e conflicts) = some n') : Settling reserved n' := by
  simp only [Node.step] at htaken
  split_ifs at htaken with hguard
  obtain rfl := Option.some.inj htaken
  have hidle := Node.lists_of_idle (n := n) (by simpa using (not_or.mp hguard).1)
  refine ⟨h.ledger, fun e' he' hin => ?_, ?_, ?_⟩
  · rcases List.mem_append.mp hin with hmined | hbefore
    · exact Or.inr ⟨e.block, List.mem_append_right _ (List.mem_singleton_self _), hmined⟩
    · exact awaits_mono (h.tracked e' he' hbefore) (List.subset_append_left _ _)
        (List.subset_append_left _ _)
  · simp [Node.drop, hidle.1]
  · simp [Node.drop, hidle.2]

/-- **Step: a block's notice is queued.** -/
theorem announce (h : Settling reserved n)
    (htaken : n.step reserved nHeight .announce = some n') : Settling reserved n' := by
  cases htrace : n.trace with
  | nil => simp [Node.step, htrace] at htaken
  | cons block rest =>
    simp only [Node.step, htrace] at htaken
    obtain rfl := Option.some.inj htaken
    refine ⟨h.ledger, fun e he hin => ?_, h.checked, h.entering⟩
    rcases h.tracked e he hin with ⟨block', hblock, hmem⟩ | ⟨block', hblock, hmem⟩
    · exact Or.inl ⟨block', List.mem_append_left _ hblock, hmem⟩
    · rw [htrace] at hblock
      rcases List.mem_cons.mp hblock with rfl | hblock
      · exact Or.inl ⟨block', List.mem_append_right _ (List.mem_singleton_self _), hmem⟩
      · exact Or.inr ⟨block', hblock, hmem⟩

/-- **Step: the tip is disconnected.**  Nothing is tracked afterwards. -/
theorem disconnect (h : Settling reserved n)
    (htaken : n.step reserved nHeight .disconnect = some n') : Settling reserved n' := by
  cases hchain : n.chain with
  | nil => simp [Node.step, hchain] at htaken
  | cons e rest =>
    simp only [Node.step, hchain] at htaken
    split_ifs at htaken with hbusy
    obtain rfl := Option.some.inj htaken
    have hidle := Node.lists_of_idle (n := n) (by simpa using hbusy)
    refine ⟨h.ledger.step .clear, fun e he => absurd he List.not_mem_nil, ?_, ?_⟩
    · simp [hidle.1]
    · simp [hidle.2]

/-- **Step: a notice is delivered.**  It ends the tracking of what it names. -/
theorem deliver (h : Settling reserved n) {now : ℤ}
    (htaken : n.step reserved nHeight (.deliver now) = some n') : Settling reserved n' := by
  cases hqueue : n.queue with
  | nil => simp [Node.step, hqueue] at htaken
  | cons callback rest =>
    simp only [Node.step, hqueue] at htaken
    obtain rfl := Option.some.inj htaken
    refine ⟨deliver_ledgered h.ledger now callback, fun e he hin => ?_, h.checked, h.entering⟩
    obtain ⟨hold, hstay⟩ := (mem_deliver now callback).mp he
    rcases h.tracked e hold hin with ⟨block, hblock, hmem⟩ | hlater
    · rw [hqueue] at hblock
      rcases List.mem_cons.mp hblock with rfl | hblock
      · exact absurd hmem hstay
      · exact Or.inl ⟨block, hblock, hmem⟩
    · exact Or.inr hlater

/-- **Every step keeps it so**, whatever is connected, removed or delivered meanwhile. -/
theorem step (h : Settling reserved n) {a : Action}
    (htaken : n.step reserved nHeight a = some n') : Settling reserved n' := by
  cases a with
  | check now view tx => exact h.check htaken
  | abandon =>
    obtain rfl := Option.some.inj htaken
    exact ⟨h.ledger, h.tracked, by simp, h.entering⟩
  | finalize replaced evicted =>
    simp only [Node.step] at htaken
    split_ifs at htaken
    obtain rfl := Option.some.inj htaken
    exact (h.enter replaced).drop _ _
  | record now => exact h.record htaken
  | evict txs =>
    simp only [Node.step] at htaken
    split_ifs at htaken
    obtain rfl := Option.some.inj htaken
    exact h.drop _ _
  | connect e conflicts => exact h.connect htaken
  | announce => exact h.announce htaken
  | disconnect => exact h.disconnect htaken
  | deliver now => exact h.deliver htaken

end Settling

/-- The net effect on an account of the tracked transactions that are not in the connected chain. -/
def Node.unconfirmed (reserved : List Bytes) (n : Node) (k : Account) : ℤ :=
  ((n.tracker.2.filter fun e => e.tx.hash ∉ chainTxids n.chain).map fun e =>
    netDelta reserved e.tx e.sender k).sum

/-- What is pending is at most what is unconfirmed, if the confirmed part credits nothing. -/
theorem sum_le_unconfirmed (tracked : List Tracked) (txids : List Uint256) (k : Account)
    (h : ∀ e ∈ tracked, e.tx.hash ∈ txids → netDelta reserved e.tx e.sender k ≤ 0) :
    (tracked.map fun e => netDelta reserved e.tx e.sender k).sum ≤
      ((tracked.filter fun e => e.tx.hash ∉ txids).map fun e =>
        netDelta reserved e.tx e.sender k).sum := by
  induction tracked with
  | nil => exact le_rfl
  | cons e tracked ih =>
    have hrest := ih fun e' he' => h e' (List.mem_cons_of_mem e he')
    rw [List.map_cons, List.sum_cons]
    by_cases hin : e.tx.hash ∈ txids
    · rw [List.filter_cons_of_neg (by simpa using hin)]
      have hle := h e List.mem_cons_self hin
      omega
    · rw [List.filter_cons_of_pos (by simpa using hin), List.map_cons, List.sum_cons]
      omega

/-- **No credit is counted twice**, in any state of any run, for an account that no transaction with
an undelivered block notice credits: the amount of a transfer or burn that passes `canTransfer` is
covered by the balance in the connected chain and the tracked transactions outside it. -/
theorem no_double_credit {n : Node} (hrun : (nodeMachine reserved nHeight).Run AnyAction n)
    {s : CScript} {t : TokenId}
    (hwindow : ∀ e ∈ n.tracker.2, n.Awaits e.tx.hash → netDelta reserved e.tx e.sender (s, t) ≤ 0)
    {x : ℕ} (hmove : isValidMove t x = true)
    (hpass : n.tracker.1.canTransfer n.db s t x = true) :
    (x : ℤ) ≤ n.db.getBalance s t + n.unconfirmed reserved (s, t) := by
  have h : Settling reserved n :=
    hrun.induct (fun _ => settling_start) fun _ _ _ h _ htaken => h.step htaken
  calc (x : ℤ) ≤ n.db.getBalance s t + n.tracker.1.getPendingBalanceDelta s t :=
        le_of_canTransfer (isValidMove_bounds hmove).1 hpass
    _ = n.db.getBalance s t +
        (n.tracker.2.map fun e => netDelta reserved e.tx e.sender (s, t)).sum := by
        rw [getPendingBalanceDelta, h.ledger.balances]
    _ ≤ n.db.getBalance s t + n.unconfirmed reserved (s, t) := by
        have hsum := sum_le_unconfirmed n.tracker.2 (chainTxids n.chain) (s, t)
          fun e he hin => hwindow e he (h.tracked e he hin)
        exact Int.add_le_add_left hsum _

namespace Sample

open OpenSY.Tokens.Sample

/-- `moveTx` is accepted and mined; no notice of it has been delivered. -/
def mineActions : List Action :=
  [.check 0 aliceView moveTx, .finalize [] [], .record 0,
    .connect ⟨⟨102, 101, 0, [coinbase 2, moveTx]⟩, ⟨[⟨[⟨⟨0, alice⟩⟩]⟩]⟩⟩ [], .announce]

/-- The node after `mineActions`. -/
def minedNode : Node :=
  ((nodeMachine [] sampleHeight).steps (.start issued [issueEntry]) mineActions).get
    (by decide +kernel)

theorem run_minedNode : (nodeMachine [] sampleHeight).Run AnyAction minedNode :=
  Machine.Run.steps (.start ⟨issued, [issueEntry], rfl⟩) (Option.some_get _).symm

/-- Every coin is worth nothing and belongs to `bob`. -/
def bobView : CoinsView := fun _ => some ⟨⟨0, bob⟩⟩

/-- Gives back to `alice` the 3 tokens `bob` holds. -/
def returnTx : CTransaction :=
  ⟨10, [⟨⟨11, 0⟩⟩], [⟨0, buildTransferScript ⟨7, 3⟩⟩, ⟨0, alice⟩]⟩

/-- Moves 10 tokens of `alice`. -/
def spendTx : CTransaction :=
  ⟨12, [⟨⟨13, 0⟩⟩], [⟨0, buildTransferScript ⟨7, 10⟩⟩, ⟨0, bob⟩]⟩

/-- `alice` holds 7 tokens and `bob` 3.  Both `moveTx` and `returnTx` are accepted, the second is
mined, and its notices stay in the queue. -/
def windowActions : List Action :=
  [.check 0 aliceView moveTx, .finalize [] [], .record 0,
    .check 0 bobView returnTx, .finalize [] [], .record 0,
    .connect ⟨⟨103, 102, 0, [coinbase 4, returnTx]⟩, ⟨[⟨[⟨⟨0, bob⟩⟩]⟩]⟩⟩ [], .announce]

end Sample

/-- A mined debit whose notice is on its way: 4 of the 7 tokens can be spent meanwhile. -/
theorem no_double_credit_mined :
    (∃ e ∈ Sample.minedNode.tracker.2, e.tx.hash ∈ chainTxids Sample.minedNode.chain) ∧
    Sample.minedNode.tracker.1.canTransfer Sample.minedNode.db Tokens.Sample.alice 7 4 = true ∧
    ((4 : ℕ) : ℤ) ≤ Sample.minedNode.db.getBalance Tokens.Sample.alice 7 +
      Sample.minedNode.unconfirmed [] (Tokens.Sample.alice, 7) := by
  have hdebit : ∀ e ∈ Sample.minedNode.tracker.2,
      netDelta [] e.tx e.sender (Tokens.Sample.alice, 7) ≤ 0 := by decide +kernel
  have hpass : Sample.minedNode.tracker.1.canTransfer Sample.minedNode.db Tokens.Sample.alice 7 4 =
      true := by
    decide +kernel
  exact ⟨by decide +kernel, hpass, no_double_credit Sample.run_minedNode (fun e he _ => hdebit e he)
    (by decide) hpass⟩

/-- **A credit counts twice.**  After the block `alice` holds 10 tokens and owes 3 of them to
`moveTx`; the 3 received from `returnTx` are still pending too, so a transfer of all 10 is accepted.
-/
theorem double_credit_in_window :
    ((nodeMachine [] Tokens.Sample.sampleHeight).steps
      (.start Tokens.Sample.moved [Tokens.Sample.moveEntry, Tokens.Sample.issueEntry])
      Sample.windowActions).map (fun n =>
        (n.tracker.1.canTransfer n.db Tokens.Sample.alice 7 10,
          n.db.getBalance Tokens.Sample.alice 7, n.unconfirmed [] (Tokens.Sample.alice, 7),
          (n.step [] Tokens.Sample.sampleHeight
            (.check 0 Sample.aliceView Sample.spendTx)).isSome)) =
      some (true, 10, -3, true) ∧
    isValidMove 7 10 = true :=
  ⟨by decide +kernel, by decide⟩

end OpenSY.Mempool
