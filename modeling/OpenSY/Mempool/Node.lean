import OpenSY.Mempool.Accept
import OpenSY.Mempool.PendingLedger
import OpenSY.Tokens.Reachable
import OpenSY.Lib.Transition

/-!
# The node around the pending token state

Who changes `MempoolTokenState`, and when.  Acceptance checks a transaction, enters it in the
mempool and records it, all under `cs_main`; connecting and disconnecting blocks takes the same
lock.  Removals from the mempool are announced through the validation interface: they wait in a
queue, and the scheduler thread delivers them one by one without that lock, so a delivery can fall
between any two steps of the others.

Which transactions are replaced, evicted or in conflict with a block is decided by parts of the
mempool that are not modelled, so a step takes them as an argument: any transactions of the mempool
will do.  The same holds for the coins a check sees.
-/

namespace OpenSY.Mempool

open OpenSY.Chain OpenSY.Src20 OpenSY.Tokens OpenSY.Transition MempoolTokenState

/-! ### Queued notifications -/

/-- The notifications that `TokenValidationInterface` acts on. -/
inductive Callback where
  /-- `TransactionRemovedFromMempool` -/
  | removed (tx : CTransaction)
  /-- `MempoolTransactionsRemovedForBlock` -/
  | removedForBlock (txs : List CTransaction)
  /-- `BlockConnected` -/
  | blockConnected (block : CBlock)

/-- The txids whose tracking a notification ends. -/
def Callback.txids (reserved : List Bytes) : Callback → List Uint256
  | .removed tx => if (parseTransactionSRC20 reserved tx).isEmpty then [] else [tx.hash]
  | .removedForBlock txs => txs.map CTransaction.hash
  | .blockConnected block => block.vtx.map CTransaction.hash

/-- The pending state with the list of transactions it tracks. -/
abbrev Tracker : Type := MempoolTokenState × List Tracked

def Tracker.removeAll (reserved : List Bytes) (tracker : Tracker)
    (txids : List Uint256) : Tracker :=
  txids.foldl (fun tracker txid => step reserved tracker (.remove txid)) tracker

/-- What `TokenValidationInterface` does with a notification. -/
def Callback.deliver (reserved : List Bytes) (now : ℤ) (tracker : Tracker) (callback : Callback) :
    Tracker :=
  let tracker := tracker.removeAll reserved (callback.txids reserved)
  match callback with
  | .blockConnected _ => ((tracker.1.pruneStaleRateLimitEntries now).1, tracker.2)
  | _ => tracker

/-! ### The node -/

structure Node where
  db : TokenDB
  /-- the active chain, tip first -/
  chain : List BlockEntry
  pool : List CTransaction
  tracker : Tracker
  /-- transactions that passed the checks, with the sender if they carry token operations -/
  checked : List (CTransaction × Option CScript)
  /-- token transactions in the mempool that are about to be recorded -/
  entering : List Tracked
  /-- notifications not yet delivered, oldest first -/
  queue : List Callback
  /-- connected blocks whose `BlockConnected` has not been queued yet -/
  trace : List CBlock

/-- A node with an empty mempool. -/
def Node.start (db : TokenDB) (chain : List BlockEntry) : Node :=
  ⟨db, chain, [], (empty, []), [], [], [], []⟩

/-- The txids confirmed by a chain. -/
def chainTxids (chain : List BlockEntry) : List Uint256 :=
  chain.flatMap fun e => e.block.vtx.map CTransaction.hash

/-- No acceptance holds the lock. -/
def Node.idle (n : Node) : Bool := n.checked.isEmpty && n.entering.isEmpty

theorem Node.lists_of_idle {n : Node} (hidle : n.idle = true) :
    n.checked = [] ∧ n.entering = [] := by
  simpa [Node.idle] using hidle

/-- Take transactions out of the mempool and queue what is to be said about it. -/
def Node.drop (n : Node) (gone : List Uint256) (callbacks : List Callback) : Node :=
  { n with
    pool := n.pool.filter fun tx => tx.hash ∉ gone
    entering := n.entering.filter fun e => e.tx.hash ∉ gone
    queue := n.queue ++ callbacks }

/-- Replace `replaced` by the checked transactions.  The tracking of the replaced ones ends at once,
before their removal is announced. -/
def Node.enter (reserved : List Bytes) (n : Node) (replaced : List CTransaction) : Node :=
  let n' := { n with tracker := n.tracker.removeAll reserved (replaced.map CTransaction.hash) }.drop
    (replaced.map CTransaction.hash) (replaced.map .removed)
  { n' with
    pool := n'.pool ++ n.checked.map Prod.fst
    checked := []
    entering := n.checked.filterMap fun p => p.2.map fun sender => ⟨p.1, sender⟩ }

inductive Action where
  /-- `PreChecks` of a transaction; several in a row for a package -/
  | check (now : ℤ) (view : CoinsView) (tx : CTransaction)
  /-- acceptance fails after the checks, or was only a test -/
  | abandon
  /-- `FinalizeSubpackage`, then `LimitMempoolSize` -/
  | finalize (replaced evicted : List CTransaction)
  /-- `AddTransaction` for the next accepted transaction -/
  | record (now : ℤ)
  /-- any other removal: expiry, size limit, reorganisation -/
  | evict (txs : List CTransaction)
  /-- `ConnectTip` -/
  | connect (e : BlockEntry) (conflicts : List CTransaction)
  /-- queue `BlockConnected` for the oldest block that waits for it -/
  | announce
  /-- `DisconnectTip` -/
  | disconnect
  /-- deliver the oldest notification -/
  | deliver (now : ℤ)

/-- One step of the node, if it can be taken. -/
def Node.step (reserved : List Bytes) (nHeight : Uint256 → ℕ) (n : Node) : Action → Option Node
  | .check now view tx =>
    -- a transaction that is in the mempool or in the chain does not get past the input checks
    if !n.entering.isEmpty ∨ tx.hash ∈ n.pool.map CTransaction.hash ∨
        tx.hash ∈ n.checked.map (fun p => p.1.hash) ∨ tx.hash ∈ chainTxids n.chain then none
    else
      match preChecks reserved n.db n.tracker.1 now view tx with
      | .error _ => none
      | .ok sender => some { n with checked := n.checked ++ [(tx, sender)] }
  | .abandon => some { n with checked := [] }
  | .finalize replaced evicted =>
    if n.checked.isEmpty ∨ ¬ (∀ tx ∈ replaced, tx ∈ n.pool) ∨
        ¬ ∀ tx ∈ evicted, tx ∈ (n.enter reserved replaced).pool then none
    else some ((n.enter reserved replaced).drop (evicted.map CTransaction.hash)
      (evicted.map .removed))
  | .record now =>
    match n.entering with
    | [] => none
    | e :: rest => some { n with
        tracker := Mempool.step reserved n.tracker (.add now e.tx e.sender)
        entering := rest }
  | .evict txs =>
    if !n.idle ∨ ¬ ∀ tx ∈ txs, tx ∈ n.pool then none
    else some (n.drop (txs.map CTransaction.hash) (txs.map .removed))
  | .connect e conflicts =>
    if !n.idle ∨ ¬ ∀ tx ∈ conflicts, tx ∈ n.pool then none
    else
      let mined := e.block.vtx.map CTransaction.hash
      let n' := n.drop (conflicts.map CTransaction.hash ++ mined) (conflicts.map .removed ++
        [.removedForBlock (n.pool.filter fun tx => tx.hash ∈ mined)])
      some { n' with
        db := (processBlock reserved n.db e.block (nHeight e.block.hash) e.blockundo).1
        chain := e :: n.chain
        trace := n.trace ++ [e.block] }
  | .announce =>
    match n.trace with
    | [] => none
    | block :: rest => some { n with trace := rest, queue := n.queue ++ [.blockConnected block] }
  | .disconnect =>
    match n.chain with
    | [] => none
    | e :: rest =>
      if !n.idle then none
      else some { n with
        db := (disconnectBlock n.db e.block (nHeight e.block.hash)).1
        chain := rest
        tracker := Mempool.step reserved n.tracker .clear }
  | .deliver now =>
    match n.queue with
    | [] => none
    | callback :: rest => some { n with
        tracker := callback.deliver reserved now n.tracker
        queue := rest }

/-- The runs of a node start with an empty mempool. -/
def nodeMachine (reserved : List Bytes) (nHeight : Uint256 → ℕ) : Machine Node Action where
  start n := ∃ db chain, n = .start db chain
  step := Node.step reserved nHeight

/-! ### The tracker under notifications -/

variable {reserved : List Bytes}

theorem removeAll_ledgered {tracker : Tracker} (h : Ledgered reserved tracker.1 tracker.2)
    (txids : List Uint256) :
    Ledgered reserved (tracker.removeAll reserved txids).1
      (tracker.removeAll reserved txids).2 := by
  induction txids generalizing tracker with
  | nil => exact h
  | cons txid txids ih => exact ih (h.step (.remove txid))

theorem mem_removeAll {tracker : Tracker} (txids : List Uint256) {e : Tracked} :
    e ∈ (tracker.removeAll reserved txids).2 ↔ e ∈ tracker.2 ∧ e.tx.hash ∉ txids := by
  have hlist : ∀ tracker : Tracker,
      (tracker.removeAll reserved txids).2 = txids.foldl untrack tracker.2 := by
    induction txids with
    | nil => exact fun _ => rfl
    | cons txid txids ih => exact fun tracker => ih (step reserved tracker (.remove txid))
  rw [hlist, mem_foldl_untrack]

theorem deliver_ledgered {tracker : Tracker} (h : Ledgered reserved tracker.1 tracker.2) (now : ℤ)
    (callback : Callback) :
    Ledgered reserved (callback.deliver reserved now tracker).1
      (callback.deliver reserved now tracker).2 := by
  have hall := removeAll_ledgered h (callback.txids reserved)
  cases callback with
  | removed tx => exact hall
  | removedForBlock txs => exact hall
  | blockConnected block =>
    -- pruning touches the rate limit only
    exact ⟨hall.nodup, hall.balances, hall.tickers, hall.ops, hall.txOps, hall.txDeltas,
      hall.txDeltas_tracked, hall.txSender⟩

/-- **A notification ends the tracking of its txids and of no other.** -/
theorem mem_deliver {tracker : Tracker} (now : ℤ) (callback : Callback) {e : Tracked} :
    e ∈ (callback.deliver reserved now tracker).2 ↔
      e ∈ tracker.2 ∧ e.tx.hash ∉ callback.txids reserved := by
  rw [← mem_removeAll]
  cases callback <;> rfl

end OpenSY.Mempool
