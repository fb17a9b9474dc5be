import Mathlib.Data.Finset.Sort
import OpenSY.Lib.CoherentCache
import OpenSY.Lib.Transition
import OpenSY.Tokens.Disconnect

/-!
# Readers beside the writer of the token database

Blocks are connected and disconnected by one thread, while any number of others ask for token infos.
The cache of token infos is guarded by `m_cs`; the database is not, so a commit can fall between two
steps of a reader that holds the lock.

A reader (`Shared.react`) takes one step at a time: the lookup in the cache, the read of the
database after a miss, and the insertion.  The writer (`Concurrent.step`) first works its batch out,
then commits it, then goes through the cache entries one by one.  While it works the batch out it
looks token infos up as well, and readers may run before each of its lookups; `schedule` says what
they do there, one list of steps for each lookup.  These lookups do not wait for the lock here,
which only adds to what can happen.
-/

namespace OpenSY.Tokens

open OpenSY.Chain OpenSY.Src20 OpenSY.KeyValueStore OpenSY.RecencyCache OpenSY.Ordered
  OpenSY.Transition

/-! ### Readers -/

inductive ReaderCall where
  | getTokenInfo (tokenId : TokenId)
  | getTokenByTicker (ticker : Bytes)
  | tokenExists (tokenId : TokenId)

inductive Answer where
  | info (info : Option TokenInfo)
  | found (result : Bool)

/-- How far a reader has got. -/
inductive Reader where
  | returned (answer : Option Answer)
  /-- about to look the token up in the cache -/
  | wants (tokenId : TokenId)
  /-- not cached; holds the lock -/
  | missed (tokenId : TokenId)
  /-- read from the database; holds the lock -/
  | loaded (tokenId : TokenId) (info : TokenInfo)
  /-- in `TokenExists`, before the cache is asked -/
  | asks (tokenId : TokenId)
  /-- in `TokenExists`, not cached, the lock released -/
  | unseen (tokenId : TokenId)

def Reader.holds : Reader → Bool
  | .missed _ => true
  | .loaded _ _ => true
  | _ => false

/-- The database, its lock, and the readers. -/
structure Shared where
  db : TokenDB
  /-- the reader that holds the lock -/
  mCs : Option ℕ
  readers : ℕ → Reader

inductive ReaderAction where
  | call (n : ℕ) (c : ReaderCall)
  | advance (n : ℕ)

namespace Shared

def setReader (s : Shared) (n : ℕ) (reader : Reader) : Shared :=
  { s with readers := Function.update s.readers n reader }

/-- The first steps of a call, up to the cache. -/
def start (s : Shared) : ReaderCall → Reader
  | .getTokenInfo tokenId => .wants tokenId
  | .getTokenByTicker ticker =>
    match s.db.records.read (.ticker ticker) with
    | none => .returned (some (.info none))
    | some tokenId => .wants tokenId
  | .tokenExists tokenId => .asks tokenId

/-- One step of a reader; one that waits for the lock stays where it is. -/
def react (s : Shared) : ReaderAction → Shared
  | .call n c =>
    match s.readers n with
    | .returned _ => s.setReader n (s.start c)
    | _ => s
  | .advance n =>
    match s.readers n with
    | .returned _ => s
    | .wants tokenId =>
      if s.mCs.isSome then s
      else
        match s.db.mTokenCache.get tokenId with
        | (some info, cache) =>
          { s with db := { s.db with mTokenCache := cache } }.setReader n
            (.returned (some (.info (some info))))
        | (none, _) => { s with mCs := some n }.setReader n (.missed tokenId)
    | .missed tokenId =>
      match s.db.records.read (.tokenInfo tokenId) with
      | none => { s with mCs := none }.setReader n (.returned (some (.info none)))
      | some info =>
        if info.ticker.length > maxTickerLength || info.name.length > maxNameLength then
          { s with mCs := none }.setReader n (.returned (some (.info none)))
        else s.setReader n (.loaded tokenId info)
    | .loaded tokenId info =>
      { s with
        db := { s.db with mTokenCache := s.db.mTokenCache.insert tokenId info }
        mCs := none }.setReader n (.returned (some (.info (some info))))
    | .asks tokenId =>
      if s.mCs.isSome then s
      else if s.db.mTokenCache.contains tokenId then s.setReader n (.returned (some (.found true)))
      else s.setReader n (.unseen tokenId)
    | .unseen tokenId =>
      s.setReader n (.returned (some (.found (s.db.records.contains (.tokenInfo tokenId)))))

/-- Several steps of readers. -/
def reacts (s : Shared) (actions : List ReaderAction) : Shared := actions.foldl react s

end Shared

/-! ### The writer at work on a batch -/

/-- What readers do before each lookup that is still to come. -/
abbrev Schedule : Type := List (List ReaderAction)

/-- `PendingBlock` with readers around it. -/
structure InterleavedBlock where
  shared : Shared
  schedule : Schedule
  batch : CDBBatch
  overlay : BalanceOverlay

namespace InterleavedBlock

/-- Readers run. -/
def interfere (p : InterleavedBlock) : InterleavedBlock :=
  { p with shared := p.shared.reacts (p.schedule.headD []), schedule := p.schedule.tail }

/-- The block as it stands if readers are left out. -/
def pending (p : InterleavedBlock) : PendingBlock := ⟨p.shared.db, p.batch, p.overlay⟩

def setDb (p : InterleavedBlock) (db : TokenDB) : InterleavedBlock := { p with shared.db := db }

def setPending (p : InterleavedBlock) (q : PendingBlock) : InterleavedBlock :=
  { p.setDb q.db with batch := q.batch, overlay := q.overlay }

/-- Look a token info up through the overlay. -/
def lookup (p : InterleavedBlock) (tokenId : TokenId) : Option TokenInfo × InterleavedBlock :=
  let p := p.interfere
  let read := getTokenInfoWithOverlay p.shared.db p.overlay tokenId
  (read.1, p.setDb read.2)

end InterleavedBlock

/-- `pendingOp` with readers before each lookup: an issuance asks the cache once, a transfer and a
burn look the info up twice. -/
def interleavedOp (p : InterleavedBlock) (site : OpSite) : TokenOp → InterleavedBlock × Bool
  | .issue issuance issuer =>
    let p := p.interfere
    let called := pendingOp p.pending site (.issue issuance issuer)
    (p.setPending called.1, called.2)
  | .transfer tokenId fromAddr toAddr amount =>
    let prevFromBalance := getBalanceWithOverlay p.shared.db p.overlay fromAddr tokenId
    let prevToBalance := getBalanceWithOverlay p.shared.db p.overlay toAddr tokenId
    let read := p.lookup tokenId
    let p := read.2.interfere
    let call := transferTokens p.shared.db tokenId fromAddr toAddr amount site (some p.batch)
      (some p.overlay)
    let q := p.pending.after call
    match call.result with
    | .ok true =>
      (p.setPending
        (q.addUndo site (transferUndo site tokenId fromAddr toAddr amount prevFromBalance
        prevToBalance (holderCountOf read.1))), true)
    | _ => (p.setPending q, false)
  | .burn tokenId fromAddr amount =>
    let read := p.lookup tokenId
    let prevBalance := getBalanceWithOverlay read.2.shared.db read.2.overlay fromAddr tokenId
    let p := read.2.interfere
    let call := burnTokens p.shared.db tokenId fromAddr amount site (some p.batch) (some p.overlay)
    let q := p.pending.after call
    match call.result with
    | .ok true =>
      (p.setPending (q.addUndo site (burnUndo site tokenId fromAddr amount prevBalance
        (circulatingOf read.1) (holderCountOf read.1))), true)
    | _ => (p.setPending q, false)

/-- `Disconnect` with readers around it. -/
structure InterleavedUndo where
  shared : Shared
  schedule : Schedule
  undone : Disconnect

/-- `undoOp` with readers before it: it looks the info up once at most. -/
def InterleavedUndo.undoOp (height : ℕ) (txid : Uint256) (p : InterleavedUndo)
    (undo : ℕ × TokenUndoRecord) : InterleavedUndo :=
  let shared := p.shared.reacts (p.schedule.headD [])
  let undone := { p.undone with db := shared.db }.undoOp height txid undo.1 undo.2
  ⟨{ shared with db := undone.db }, p.schedule.tail, undone⟩

def InterleavedUndo.undoTx (height : ℕ) (p : InterleavedUndo) (txid : Uint256) : InterleavedUndo :=
  (collectUndos p.undone.db.records height txid maxUndoOpsPerTx 0).reverse.foldl
    (InterleavedUndo.undoOp height txid) p

/-! ### The writer after the commit -/

inductive WriterCall where
  | processBlock (block : CBlock) (height : ℕ) (blockundo : CBlockUndo)
  | disconnectBlock (block : CBlock) (height : ℕ)

/-- What is left to do once the batch is committed. -/
inductive AfterCommit where
  | addCounts (issues transfers : ℕ)
  | subCounts (issues transfers : ℕ)
  | updateCache (info : TokenInfo)
  | invalidateCache (tokenId : TokenId)

/-- The token whose cache entry a step puts right. -/
def AfterCommit.token : AfterCommit → Option TokenId
  | .updateCache info => some info.tokenId
  | .invalidateCache tokenId => some tokenId
  | _ => none

def AfterCommit.run (db : TokenDB) : AfterCommit → TokenDB
  | .addCounts issues transfers => db.addCounts issues transfers
  | .subCounts issues transfers => db.subCounts issues transfers
  | .updateCache info => db.updateCache info
  | .invalidateCache tokenId => db.invalidateCache tokenId

inductive Writer where
  | idle
  /-- about to commit -/
  | writing (batch : CDBBatch) (after : List AfterCommit)
  /-- committed -/
  | finishing (todo : List AfterCommit)

structure Concurrent where
  shared : Shared
  writer : Writer

/-- Work the batch of a call out.  The writer stays idle if the call returns without one. -/
def prepare (reserved : List Bytes) (s : Shared) (schedule : Schedule) : WriterCall → Concurrent
  | .processBlock block height blockundo =>
    if s.db.getBestBlock = block.hash then ⟨s, .idle⟩
    else
      let w := walkBlock interleavedOp reserved height block blockundo ⟨s, schedule, [], .empty⟩
      let batch := w.state.batch ++ blockTokensWrite height w.blockTokenTxs ++
        [.write .bestBlock block.hash]
      ⟨w.state.shared, .writing batch (.addCounts w.issueCount w.txfrCount ::
        w.state.overlay.tokenInfos.entries.map fun entry => .updateCache entry.2)⟩
  | .disconnectBlock block height =>
    if s.db.getBestBlock = block.hashPrevBlock then ⟨s, .idle⟩
    else
      match s.db.records.read (.blockTokens height) with
      | none => ⟨s, .idle⟩
      | some blockTokenTxs =>
        let p := (dedupTxids blockTokenTxs).reverse.foldl (InterleavedUndo.undoTx height)
          ⟨s, schedule, { db := s.db }⟩
        let batch := p.undone.batch ++
          [.erase (.blockTokens height), .write .bestBlock block.hashPrevBlock]
        -- the source collects the ids in an ordered set
        ⟨p.shared, .writing batch
          ((p.undone.tokensToInvalidate.toFinset.sort (· ≤ ·)).map .invalidateCache ++
            [.subCounts p.undone.issueUndoCount p.undone.txfrUndoCount])⟩

inductive ConcurrentAction where
  | reader (a : ReaderAction)
  /-- the cache forgets an entry, also where it need not make room -/
  | evict (tokenId : TokenId)
  | begin (call : WriterCall) (schedule : Schedule)
  /-- `WriteBatch`, which may throw -/
  | commit (fails : Bool)
  /-- the next step after the commit -/
  | finish

namespace Concurrent

/-- One step, if it can be taken: the writer waits for the lock before it touches the cache. -/
def step (reserved : List Bytes) (s : Concurrent) : ConcurrentAction → Option Concurrent
  | .reader a => some { s with shared := s.shared.react a }
  | .evict tokenId => some { s with shared.db := s.shared.db.invalidateCache tokenId }
  | .begin call schedule =>
    match s.writer with
    | .idle => some (prepare reserved s.shared schedule call)
    | _ => none
  | .commit fails =>
    match s.writer with
    | .writing batch after =>
      match { s.shared.db.mDb with writeFails := fails }.commit batch with
      | .error _ => some { s with writer := .idle }
      | .ok mDb => some ⟨{ s.shared with db := { s.shared.db with mDb := mDb } }, .finishing after⟩
    | _ => none
  | .finish =>
    match s.writer with
    | .finishing [] => some { s with writer := .idle }
    | .finishing (a :: todo) =>
      if a.token.isSome ∧ s.shared.mCs.isSome then none
      else some ⟨{ s.shared with db := a.run s.shared.db }, .finishing todo⟩
    | _ => none

/-- A database as it is opened: nothing cached, no call under way. -/
def opened (records : Records) : Concurrent where
  shared := ⟨{ TokenDB.empty with mDb := ⟨records, false⟩ }, none, fun _ => .returned none⟩
  writer := .idle

/-- From any database whose infos are filed properly, with any number of readers. -/
def machine (reserved : List Bytes) : Machine Concurrent ConcurrentAction where
  start s := ∃ records, InfoWF records ∧ s = opened records
  step := step reserved

end Concurrent

end OpenSY.Tokens
