import OpenSY.Tokens.Concurrent
import OpenSY.Tokens.Counts

/-!
# The first count beside the writer

One thread connects and disconnects blocks; others ask for the number of tokens.  The first of them
scans the database and sets the flag that starts the count, under `m_count_cs`.  The writer takes
the same lock for its update of the count, but not for the commit before it, so a scan can see what
the writer has committed and not yet counted.

`Counting` has the steps of both sides.  Its invariant (`Balanced`) is that the count comes to the
number of token infos once the writer has done what is left of its call (`countAfter`).  A scan
keeps it if no issuance is left to count when the snapshot is taken.  That is `InStep`, and
`count_settled` is about runs of such steps.
-/

namespace OpenSY.Tokens

open OpenSY.Chain OpenSY.Src20 OpenSY.KeyValueStore OpenSY.RecencyCache OpenSY.Ordered
  OpenSY.Transition

/-! ### Calls cut at the commit -/

/-- `ProcessBlock` up to its commit: the database, and what is left to do. -/
def processCommit (reserved : List Bytes) (db : TokenDB) (block : CBlock) (height : ℕ)
    (blockundo : CBlockUndo) : TokenDB × Except DbwrapperError (List AfterCommit × ℕ) :=
  if db.getBestBlock = block.hash then (db, .ok ([], 0))
  else
    let w := walkBlock pendingOp reserved height block blockundo ⟨db, [], .empty⟩
    let db := w.state.db
    let batch := w.state.batch ++ blockTokensWrite height w.blockTokenTxs ++
      [.write .bestBlock block.hash]
    match db.mDb.commit batch with
    | .error e => (db, .error e)
    | .ok mDb => ({ db with mDb := mDb }, .ok (.addCounts w.issueCount w.txfrCount ::
        w.state.overlay.tokenInfos.entries.map fun entry => .updateCache entry.2, w.opsCount))

/-- `DisconnectBlock` up to its commit. -/
def disconnectCommit (db : TokenDB) (block : CBlock) (height : ℕ) :
    TokenDB × Option (List AfterCommit) :=
  if db.getBestBlock = block.hashPrevBlock then (db, some [])
  else
    match db.records.read (.blockTokens height) with
    | none => (db, some [])
    | some blockTokenTxs =>
      let s := (dedupTxids blockTokenTxs).reverse.foldl (Disconnect.undoTx height) { db := db }
      let batch := s.batch ++
        [.erase (.blockTokens height), .write .bestBlock block.hashPrevBlock]
      match s.db.mDb.commit batch with
      | .error _ => (s.db, none)
      | .ok mDb => ({ s.db with mDb := mDb }, some (s.tokensToInvalidate.map .invalidateCache ++
          [.subCounts s.issueUndoCount s.txfrUndoCount]))

/-- The rest of a call. -/
def complete (db : TokenDB) (todo : List AfterCommit) : TokenDB := todo.foldl AfterCommit.run db

theorem processBlock_eq_complete (reserved : List Bytes) (db : TokenDB) (block : CBlock)
    (height : ℕ) (blockundo : CBlockUndo) : processBlock reserved db block height blockundo =
      match processCommit reserved db block height blockundo with
      | (db, .error e) => (db, .error e)
      | (db, .ok (todo, n)) => (complete db todo, .ok n) := by
  simp only [processBlock, processCommit]
  split_ifs
  · rfl
  · generalize walkBlock pendingOp reserved height block blockundo ⟨db, [], .empty⟩ = w
    cases hcommit :
      w.state.db.mDb.commit (w.state.batch ++ blockTokensWrite height w.blockTokenTxs ++
        [.write .bestBlock block.hash]) with
    | error e => rfl
    | ok mDb =>
      simp only [complete, List.foldl_cons, List.foldl_map]
      rfl

theorem disconnectBlock_eq_complete (db : TokenDB) (block : CBlock) (height : ℕ) :
    disconnectBlock db block height =
      match disconnectCommit db block height with
      | (db, none) => (db, false)
      | (db, some todo) => (complete db todo, true) := by
  simp only [disconnectBlock, disconnectCommit]
  split_ifs
  · rfl
  · cases db.records.read (.blockTokens height) with
    | none => rfl
    | some txids =>
      dsimp only
      generalize (dedupTxids txids).reverse.foldl (Disconnect.undoTx height) { db := db } = s
      cases hcommit : s.db.mDb.commit (s.batch ++
          [.erase (.blockTokens height), .write .bestBlock block.hashPrevBlock]) with
      | error e => rfl
      | ok mDb =>
        simp only [complete, List.foldl_append, List.foldl_map, List.foldl_cons, List.foldl_nil]
        rfl

/-! ### What is left to count -/

/-- The issuances a step after the commit adds to the count of tokens, or takes from it. -/
def AfterCommit.issues : AfterCommit → ℕ
  | .addCounts issues _ => issues
  | .subCounts issues _ => issues
  | _ => 0

/-- A count of tokens after such a step. -/
def AfterCommit.count (n : ℕ) : AfterCommit → ℕ
  | .addCounts issues _ => n + issues
  | .subCounts issues _ => n - issues
  | _ => n

/-- What a count of tokens comes to when the rest of a call is done. -/
def countAfter (todo : List AfterCommit) (n : ℕ) : ℕ := todo.foldl AfterCommit.count n

theorem countAfter_of_issues {todo : List AfterCommit} (h : ∀ a ∈ todo, a.issues = 0) (n : ℕ) :
    countAfter todo n = n := by
  induction todo with
  | nil => rfl
  | cons a todo ih =>
    have hnow : a.count n = n := by
      have ha := h a List.mem_cons_self
      cases a <;> simp_all [AfterCommit.issues, AfterCommit.count]
    show countAfter todo (a.count n) = n
    rw [hnow]
    exact ih fun b hb => h b (List.mem_cons_of_mem a hb)

/-- The count of tokens, if it has been started. -/
def TokenDB.started (db : TokenDB) : Option ℕ := db.counters.1

theorem AfterCommit.run_started (db : TokenDB) (a : AfterCommit) :
    (a.run db).started = db.started.map (AfterCommit.count · a) := by
  cases a with
  | addCounts i m => exact congrArg Prod.fst (addCounts_counters db i m)
  | subCounts i m => exact congrArg Prod.fst (subCounts_counters db i m)
  | updateCache info => exact Option.map_id_fun'.symm ▸ rfl
  | invalidateCache t => exact Option.map_id_fun'.symm ▸ rfl

/-- The steps after a commit leave the store alone. -/
theorem AfterCommit.run_mDb (db : TokenDB) (a : AfterCommit) : (a.run db).mDb = db.mDb := by
  cases a <;> rfl

theorem complete_mDb (db : TokenDB) (todo : List AfterCommit) :
    (complete db todo).mDb = db.mDb := by
  induction todo generalizing db with
  | nil => rfl
  | cons a todo ih => exact (ih (a.run db)).trans (a.run_mDb db)

theorem complete_records (db : TokenDB) (todo : List AfterCommit) :
    (complete db todo).records = db.records :=
  congrArg Database.records (complete_mDb db todo)

/-- How they change the cache does not depend on the counters. -/
theorem AfterCommit.run_mTokenCache {db db' : TokenDB} (h : db'.mTokenCache = db.mTokenCache)
    (a : AfterCommit) : (a.run db').mTokenCache = (a.run db).mTokenCache := by
  cases a with
  | addCounts i m => exact h
  | subCounts i m => exact h
  | updateCache info => exact congrArg (LRUCache.insert · info.tokenId info) h
  | invalidateCache t => exact congrArg (LRUCache.erase · t) h

theorem complete_mTokenCache {db db' : TokenDB} (h : db'.mTokenCache = db.mTokenCache)
    (todo : List AfterCommit) :
    (complete db' todo).mTokenCache = (complete db todo).mTokenCache := by
  induction todo generalizing db db' with
  | nil => exact h
  | cons a todo ih => exact ih (a.run_mTokenCache h)

theorem complete_withWriteFails (db : TokenDB) (fails : Bool) (todo : List AfterCommit) :
    complete (db.withWriteFails fails) todo = (complete db todo).withWriteFails fails := by
  induction todo generalizing db with
  | nil => rfl
  | cons a todo ih =>
    have hrun : a.run (db.withWriteFails fails) = (a.run db).withWriteFails fails := by
      cases a <;> rfl
    show complete (a.run (db.withWriteFails fails)) todo = _
    rw [hrun]
    exact ih (a.run db)

/-! ### What a commit does to the rows -/

section Commits

variable {nHeight : Uint256 → ℕ} {root : Uint256} {chain : List BlockEntry} {db db' : TokenDB}
  {r : Records} {rs : List Records} {e : BlockEntry} {todo : List AfterCommit}

theorem countAfter_updates (i m n : ℕ) (infos : List (TokenId × TokenInfo)) :
    countAfter (.addCounts i m :: infos.map fun entry => .updateCache entry.2) n = n + i := by
  refine countAfter_of_issues (fun a ha => ?_) (n + i)
  obtain ⟨entry, -, rfl⟩ := List.mem_map.mp ha
  rfl

theorem countAfter_invalidations (i m n : ℕ) (toks : List TokenId) :
    countAfter (toks.map .invalidateCache ++ [.subCounts i m]) n = n - i := by
  have hnone : countAfter (toks.map .invalidateCache) n = n := by
    refine countAfter_of_issues (fun a ha => ?_) n
    obtain ⟨t, -, rfl⟩ := List.mem_map.mp ha
    rfl
  unfold countAfter at hnone ⊢
  rw [List.foldl_append, hnone]
  rfl

/-- **The commit of a block** changes the number of infos by what is left to count. -/
theorem Tracks.connect_commit (h : Tracks nHeight root chain db r rs)
    (hext : Extends nHeight (tipHash root chain) e.block) {reserved : List Bytes}
    {fails : Bool} {n : ℕ}
    (hcall : processCommit reserved (db.withWriteFails fails) e.block (nHeight e.block.hash)
      e.blockundo = (db', .ok (todo, n))) :
    ∃ r', Tracks nHeight root (e :: chain) (complete (db'.withWriteFails false) todo) r' (r :: rs) ∧
      db'.started = db.started ∧
        countAfter todo (r.rows Key.isTokenInfo) = r'.rows Key.isTokenInfo := by
  have hblock :=
    processBlock_eq_complete reserved (db.withWriteFails fails) e.block (nHeight e.block.hash)
    e.blockundo
  rw [hcall] at hblock
  have hdone := h.connectDone hext hblock
  obtain ⟨-, r', -, htr⟩ := h.connect hext reserved
  have hrows := fun hbest => (h.connect_rows hext reserved hbest htr).1
  rw [hdone] at htr
  rw [complete_withWriteFails]
  refine ⟨r', htr, ?_⟩
  by_cases hbest : db.getBestBlock = e.block.hash
  · rw [processCommit, withWriteFails_getBestBlock, if_pos hbest] at hcall
    simp only [Prod.mk.injEq, Except.ok.injEq] at hcall
    obtain ⟨rfl, rfl, -⟩ := hcall
    refine ⟨rfl, ?_⟩
    show r.rows Key.isTokenInfo = r'.rows Key.isTokenInfo
    rw [← htr.rows fun _ => isTokenKey_of_isTokenInfo, ← h.rows fun _ => isTokenKey_of_isTokenInfo]
    rfl
  · have hcache : CacheCoherent (db.withWriteFails fails) := h.cache
    have hsim :=
      walkBlock_pendingSim hcache h.storeSound reserved (nHeight e.block.hash) e.block e.blockundo
    have hbest' : (db.withWriteFails fails).getBestBlock ≠ e.block.hash := hbest
    simp only [processCommit, if_neg hbest'] at hcall
    generalize walkBlock pendingOp reserved (nHeight e.block.hash) e.block e.blockundo
      ⟨db.withWriteFails fails, [], .empty⟩ = w at hcall hsim
    split at hcall
    · simp at hcall
    · simp only [Prod.mk.injEq, Except.ok.injEq] at hcall
      obtain ⟨rfl, rfl, -⟩ := hcall
      refine ⟨congrArg Prod.fst hsim.state.data.counters, ?_⟩
      rw [countAfter_updates, hsim.issueCount, hrows hbest]
      rfl

/-- **The commit of a disconnection** does, too. -/
theorem Tracks.disconnect_commit {r' : Records}
    (h : Tracks nHeight root (e :: chain) db r' (r :: rs)) {fails : Bool}
    (hcall : disconnectCommit (db.withWriteFails fails) e.block (nHeight e.block.hash) =
      (db', some todo)) :
    Tracks nHeight root chain (complete (db'.withWriteFails false) todo) r rs ∧
      db'.started = db.started ∧
        countAfter todo (r'.rows Key.isTokenInfo) = r.rows Key.isTokenInfo := by
  have hblock :=
    disconnectBlock_eq_complete (db.withWriteFails fails) e.block (nHeight e.block.hash)
  rw [hcall] at hblock
  rw [complete_withWriteFails]
  refine ⟨h.disconnectDone hblock, ?_⟩
  have hbest := h.best_ne_prev
  obtain ⟨hgrown, -, hfresh, time, groups, q, hg, happ, rfl⟩ := h.tipBlock
  have hrows := (blockStep_rows hgrown.storeSound hfresh hg happ).1
  have hrecords : AgreeOn (· ≠ .bestBlock) (db.withWriteFails fails).records
      (q.writeBatch (blockTokensWrite (nHeight e.block.hash) (groupTxids groups))) := h.records
  by_cases hnil : groups = []
  · subst hnil
    cases happ
    rw [disconnectCommit, withWriteFails_getBestBlock, if_neg hbest,
      hrecords (.blockTokens _) (by simp),
      show blockTokensWrite (nHeight e.block.hash) (groupTxids []) = [] from rfl, writeBatch_nil,
      hfresh.blockTokens] at hcall
    simp only [Prod.mk.injEq, Option.some.injEq] at hcall
    obtain ⟨rfl, rfl⟩ := hcall
    exact ⟨rfl, hrows⟩
  · obtain ⟨hread, -⟩ := reads_of_tipBlock hg hnil hrecords
    obtain ⟨s, hlog, hsim, -⟩ :=
      disconnectBlock_eq (show CacheCoherent (db.withWriteFails fails) from h.cache)
      hgrown.storeSound hfresh hg hnil happ hrecords hbest
    have hundone := (undone_of_tipBlock hfresh hg hnil happ hrecords).trans hlog.symm
    have hissues := (undoLog_undoCounts { db := db.withWriteFails fails }
      (blockLog (nHeight e.block.hash) time groups).reverse).1
    rw [← hlog] at hissues
    rw [disconnectCommit, withWriteFails_getBestBlock, if_neg hbest] at hcall
    simp only [hread, hundone] at hcall
    split at hcall
    · simp at hcall
    · simp only [Prod.mk.injEq, Option.some.injEq] at hcall
      obtain ⟨rfl, rfl⟩ := hcall
      refine ⟨congrArg Prod.fst hsim.data.counters, ?_⟩
      rw [countAfter_invalidations, hissues, hrows]
      simp [OpLog.issues]

end Commits

/-! ### The writer and the readers of the count -/

/-- How far a call of `GetTokenCount` has got. -/
inductive CountReader where
  | returned (count : Option ℕ)
  /-- the flag was not set; wants the lock -/
  | waits
  /-- the flag is still not set; holds the lock -/
  | checked
  /-- has counted the rows of its snapshot; holds the lock -/
  | scanned (count : ℕ)
deriving DecidableEq

structure Counting where
  /-- the blocks committed, tip first -/
  chain : List BlockEntry
  db : TokenDB
  /-- what the writer has left of its call -/
  todo : List AfterCommit
  /-- the reader that holds the lock -/
  mCountCs : Option ℕ
  readers : ℕ → CountReader

inductive CountAction where
  | connect (e : BlockEntry) (fails : Bool)
  | disconnect (fails : Bool)
  /-- the writer's next step after the commit -/
  | finish
  | call (n : ℕ)
  | advance (n : ℕ)

/-- The count is stored, and then the flag is set. -/
def TokenDB.startCount (db : TokenDB) (count : ℕ) : TokenDB :=
  { db with mTokenCountCache := count, mTokenCountInitialized := true }

def AfterCommit.locksCount : AfterCommit → Bool
  | .addCounts _ _ => true
  | .subCounts _ _ => true
  | _ => false

namespace Counting

def init : Counting := ⟨[], .empty, [], none, fun _ => .returned none⟩

def setReader (s : Counting) (n : ℕ) (reader : CountReader) : Counting :=
  { s with readers := Function.update s.readers n reader }

/-- `GetTokenCount` before it takes the lock. -/
def enter (s : Counting) : CountReader :=
  if s.db.mTokenCountInitialized then .returned (some s.db.mTokenCountCache) else .waits

/-- The next step of a reader; one that waits for the lock stays where it is. -/
def advance (s : Counting) (n : ℕ) : Counting :=
  match s.readers n with
  | .returned _ => s
  | .waits =>
    if s.mCountCs.isSome then s
    else if s.db.mTokenCountInitialized then s.setReader n (.returned (some s.db.mTokenCountCache))
    else { s with mCountCs := some n }.setReader n .checked
  | .checked => s.setReader n (.scanned (s.db.records.scan Key.isTokenInfo))
  | .scanned count =>
    { s with db := s.db.startCount count, mCountCs := none }.setReader n (.returned (some count))

/-- One step.  The writer makes one call at a time, along a chain as in `Indexed.call`, and only its
update of the counts waits for the lock. -/
def step (nHeight : Uint256 → ℕ) (root : Uint256) (reserved : List Bytes) (s : Counting) :
    CountAction → Counting
  | .connect e fails =>
    match s.todo with
    | _ :: _ => s
    | [] =>
      if Extends nHeight (tipHash root s.chain) e.block then
        match processCommit reserved (s.db.withWriteFails fails) e.block (nHeight e.block.hash)
          e.blockundo with
        | (db, .error _) => { s with db := db.withWriteFails false }
        | (db, .ok (todo, _)) =>
          { s with chain := e :: s.chain, db := db.withWriteFails false, todo := todo }
      else s
  | .disconnect fails =>
    match s.todo, s.chain with
    | _ :: _, _ => s
    | [], [] => s
    | [], e :: chain =>
      match disconnectCommit (s.db.withWriteFails fails) e.block (nHeight e.block.hash) with
      | (db, none) => { s with db := db.withWriteFails false }
      | (db, some todo) => { s with chain := chain, db := db.withWriteFails false, todo := todo }
  | .finish =>
    match s.todo with
    | [] => s
    | a :: todo =>
      if a.locksCount && s.mCountCs.isSome then s else { s with db := a.run s.db, todo := todo }
  | .call n =>
    match s.readers n with
    | .returned _ => s.setReader n s.enter
    | _ => s
  | .advance n => s.advance n

/-- No call is under way. -/
def Finished (s : Counting) : Prop :=
  s.todo = [] ∧ ∀ n, ∃ count, s.readers n = .returned count

/-- A snapshot is taken when no issuance has been committed or undone that is not counted, and when
the scan of it ends before the limit. -/
def InStep (s : Counting) : CountAction → Prop
  | .advance n => s.readers n = .checked →
      (∀ a ∈ s.todo, a.issues = 0) ∧ s.db.records.rows Key.isTokenInfo ≤ maxTotalIterations
  | _ => True

/-- The reader who takes a step, if it is one of theirs. -/
def reader : CountAction → Option ℕ
  | .call n => some n
  | .advance n => some n
  | _ => none

instance inStep_decidable (s : Counting) (a : CountAction) : Decidable (s.InStep a) := by
  cases a <;> unfold InStep <;> infer_instance

/-- A reader left alone does what `GetTokenCount` does. -/
theorem advance_alone (s : Counting) (n : ℕ) (hfree : s.mCountCs = none)
    (hwaits : s.readers n = .waits) :
    (((s.advance n).advance n).advance n).db = s.db.getTokenCount.2 ∧
      (((s.advance n).advance n).advance n).readers n = .returned (some s.db.getTokenCount.1) := by
  cases hstarted : s.db.mTokenCountInitialized <;>
    simp [advance, hfree, hwaits, hstarted, setReader, TokenDB.getTokenCount, TokenDB.startCount]

end Counting

/-! ### The invariant -/

/-- What holds at a reader: a count that was answered has been started, one who holds the lock has
not started it yet, and one who has scanned will be right when the writer is done. -/
def CountReader.Sound (s : Counting) (rows n : ℕ) : CountReader → Prop
  | .returned none => True
  | .returned (some _) => s.db.started.isSome
  | .waits => True
  | .checked => s.mCountCs = some n ∧ s.db.started = none
  | .scanned count => s.mCountCs = some n ∧ s.db.started = none ∧ countAfter s.todo count = rows

/-- The database is that of its chain once the writer is done, and the count will be right then. -/
structure Balanced (nHeight : Uint256 → ℕ) (root : Uint256) (s : Counting) (r : Records)
    (rs : List Records) :
    Prop where
  tracks : Tracks nHeight root s.chain (complete s.db s.todo) r rs
  started : ∀ count, s.db.started = some count → countAfter s.todo count = r.rows Key.isTokenInfo
  readers : ∀ n, (s.readers n).Sound s (r.rows Key.isTokenInfo) n

theorem started_eq_none {db : TokenDB} : db.started = none ↔ db.mTokenCountInitialized = false := by
  cases h : db.mTokenCountInitialized <;> simp [TokenDB.started, TokenDB.counters, h]

section Steps

variable {nHeight : Uint256 → ℕ} {root : Uint256} {s : Counting} {r : Records} {rs : List Records}

/-- A sound reader stays sound if the count stays started, and, as long as the reader holds the
lock, not started. -/
theorem CountReader.Sound.imp {s' : Counting} {rows rows' n : ℕ} {reader : CountReader}
    (h : reader.Sound s rows n) (hstarted : s.db.started.isSome → s'.db.started.isSome)
    (hheld : s.mCountCs = some n → s'.mCountCs = some n ∧
      (s.db.started = none → s'.db.started = none) ∧ ∀ count, countAfter s.todo count = rows →
      countAfter s'.todo count = rows') :
    reader.Sound s' rows' n := by
  cases reader with
  | returned count =>
    cases count with
    | none => trivial
    | some count => exact hstarted h
  | waits => trivial
  | checked =>
    obtain ⟨hlock, hunstarted, -⟩ := hheld h.1
    exact ⟨hlock, hunstarted h.2⟩
  | scanned count =>
    obtain ⟨hlock, hunstarted, hcount⟩ := hheld h.1
    exact ⟨hlock, hunstarted h.2.1, hcount count h.2.2⟩

theorem Balanced.idle (h : Balanced nHeight root s r rs) (hidle : s.todo = []) :
    Tracks nHeight root s.chain s.db r rs := by
  have htracks := h.tracks
  rw [hidle] at htracks
  exact htracks

/-- **A commit** of the idle writer: the readers notice nothing, and what is left to count makes up
for the rows. -/
theorem Balanced.commit (h : Balanced nHeight root s r rs) (hidle : s.todo = [])
    {chain : List BlockEntry} {db : TokenDB} {todo : List AfterCommit} {r' : Records}
    {rs' : List Records} (htracks : Tracks nHeight root chain (complete db todo) r' rs')
    (hstarted : db.started = s.db.started)
    (hrows : countAfter todo (r.rows Key.isTokenInfo) = r'.rows Key.isTokenInfo) :
    Balanced nHeight root { s with chain := chain, db := db, todo := todo } r' rs' := by
  have hcounts : ∀ count, countAfter s.todo count = r.rows Key.isTokenInfo →
      countAfter todo count = r'.rows Key.isTokenInfo := by
    intro count hcount
    rw [hidle, show countAfter [] count = count from rfl] at hcount
    rw [hcount, hrows]
  refine ⟨htracks, fun count hcount => hcounts count (h.started count (hstarted.symm.trans hcount)),
    fun n => ?_⟩
  exact (h.readers n).imp (fun hsome => by rwa [hstarted]) fun hlock =>
    ⟨hlock, hstarted.trans, hcounts⟩

/-- **A step after the commit.**  One that changes the count has waited for the lock, so no reader
holds it. -/
theorem Balanced.finish (h : Balanced nHeight root s r rs) {a : AfterCommit}
    {todo : List AfterCommit} (htodo : s.todo = a :: todo)
    (hlock : ¬(a.locksCount && s.mCountCs.isSome) = true) :
    Balanced nHeight root { s with db := a.run s.db, todo := todo } r rs := by
  have htracks := h.tracks
  rw [htodo] at htracks
  have hcounts : ∀ count, countAfter s.todo count = r.rows Key.isTokenInfo →
      countAfter todo (a.count count) = r.rows Key.isTokenInfo := by
    intro count hcount
    rw [htodo] at hcount
    exact hcount
  refine ⟨htracks, fun count hcount => ?_, fun n => (h.readers n).imp ?_ fun hheld =>
    ⟨hheld, ?_, ?_⟩⟩
  · rw [a.run_started, Option.map_eq_some_iff] at hcount
    obtain ⟨count₀, hcount₀, rfl⟩ := hcount
    exact hcounts count₀ (h.started count₀ hcount₀)
  · intro hsome
    show (a.run s.db).started.isSome
    rw [a.run_started, Option.isSome_map]
    exact hsome
  · intro hnone
    show (a.run s.db).started = none
    rw [a.run_started, hnone]
    rfl
  · intro count hcount
    have hunlocked : a.locksCount = false := by simpa [hheld] using hlock
    have hsame : a.count count = count := by
      cases a <;> simp_all [AfterCommit.locksCount, AfterCommit.count]
    rw [← hsame]
    exact hcounts count hcount

theorem Balanced.setReader (h : Balanced nHeight root s r rs) {n : ℕ} (reader : CountReader)
    (hreader : reader.Sound s (r.rows Key.isTokenInfo) n) :
    Balanced nHeight root (s.setReader n reader) r rs := by
  refine ⟨h.tracks, h.started, fun m => ?_⟩
  show CountReader.Sound s _ m (Function.update s.readers n reader m)
  by_cases hm : m = n
  · rw [hm, Function.update_self]
    exact hreader
  · rw [Function.update_of_ne hm]
    exact h.readers m

/-- A reader takes the lock. -/
theorem Balanced.lock (h : Balanced nHeight root s r rs) (hfree : s.mCountCs = none) (n : ℕ) :
    Balanced nHeight root { s with mCountCs := some n } r rs :=
  ⟨h.tracks, h.started, fun m => (h.readers m).imp id fun hheld =>
    absurd (hfree.symm.trans hheld) (by simp)⟩

/-- The count is no part of what the blocks are tracked by. -/
theorem Tracks.startCount {chain : List BlockEntry} {db : TokenDB} {todo : List AfterCommit}
    (h : Tracks nHeight root chain (complete db todo) r rs) (count : ℕ) :
    Tracks nHeight root chain (complete (db.startCount count) todo) r rs := by
  have hmDb : (complete (db.startCount count) todo).mDb = (complete db todo).mDb := by
    rw [complete_mDb, complete_mDb]
    rfl
  have hcache : (complete (db.startCount count) todo).mTokenCache =
      (complete db todo).mTokenCache :=
    complete_mTokenCache (show (db.startCount count).mTokenCache = db.mTokenCache from rfl) todo
  refine h.of_same hmDb fun p hp => ?_
  rw [hcache] at hp
  rw [TokenDB.records, hmDb]
  exact h.cache p hp

/-- **The count is started** by the reader who holds the lock. -/
theorem Balanced.startCount (h : Balanced nHeight root s r rs) {n count : ℕ}
    (hlock : s.mCountCs = some n) (hcount : countAfter s.todo count = r.rows Key.isTokenInfo) :
    Balanced nHeight root ({ s with db := s.db.startCount count, mCountCs := none }.setReader n
      (.returned (some count))) r rs := by
  have hstarted : (s.db.startCount count).started = some count := rfl
  refine ⟨h.tracks.startCount count, fun count' hcount' => ?_, fun m => ?_⟩
  · rw [← Option.some.inj (hstarted.symm.trans hcount')]
    exact hcount
  · show CountReader.Sound _ _ m (Function.update s.readers n (.returned (some count)) m)
    by_cases hm : m = n
    · rw [hm, Function.update_self]
      exact rfl
    · rw [Function.update_of_ne hm]
      refine (h.readers m).imp (fun _ => rfl) fun hheld => ?_
      exact absurd (Option.some.inj (hlock.symm.trans hheld)).symm hm

/-- **A step of a reader**; a snapshot is taken in step with the writer. -/
theorem Balanced.advance (h : Balanced nHeight root s r rs) {n : ℕ} (hin : s.InStep (.advance n)) :
    Balanced nHeight root (s.advance n) r rs := by
  have hn := h.readers n
  unfold Counting.advance
  cases hreader : s.readers n with
  | returned count => exact h
  | waits =>
    simp only
    cases hlock : s.mCountCs with
    | some m => exact h
    | none =>
      cases hstarted : s.db.mTokenCountInitialized with
      | true =>
        refine h.setReader (.returned (some _)) ?_
        show s.db.started.isSome
        simp [TokenDB.started, TokenDB.counters, hstarted]
      | false => exact (h.lock hlock n).setReader .checked ⟨rfl, started_eq_none.mpr hstarted⟩
  | checked =>
    rw [hreader] at hn
    obtain ⟨hnothing, hfits⟩ := hin hreader
    refine h.setReader (.scanned _) ⟨hn.1, hn.2, ?_⟩
    rw [countAfter_of_issues hnothing, scan_eq_rows hfits, ← h.tracks.rows fun _ =>
      isTokenKey_of_isTokenInfo, complete_records]
  | scanned count =>
    rw [hreader] at hn
    exact h.startCount hn.1 hn.2.2

/-- A call that could not commit. -/
theorem Balanced.failed (h : Balanced nHeight root s r rs) (hidle : s.todo = []) {db : TokenDB}
    (htracks : Tracks nHeight root s.chain db r rs) (hstarted : db.started = s.db.started) :
    Balanced nHeight root { s with db := db } r rs := by
  have hafter :=
    h.commit hidle (show Tracks nHeight root s.chain (complete db []) r rs from htracks)
      hstarted rfl
  rw [← hidle] at hafter
  exact hafter

theorem Balanced.connect (h : Balanced nHeight root s r rs) (reserved : List Bytes) (e : BlockEntry)
    (fails : Bool) : ∃ (r' : Records) (rs' : List Records),
      Balanced nHeight root (s.step nHeight root reserved (.connect e fails)) r' rs' := by
  cases htodo : s.todo with
  | cons a todo => exact ⟨r, rs, by simpa only [Counting.step, htodo] using h⟩
  | nil =>
    simp only [Counting.step, htodo]
    have htracks := h.idle htodo
    split_ifs with hext
    · have hblock := processBlock_eq_complete reserved (s.db.withWriteFails fails) e.block
        (nHeight e.block.hash) e.blockundo
      split
      case h_1 db err hcall =>
        rw [hcall] at hblock
        obtain ⟨hdata, hcache⟩ := htracks.connectFailed hblock
        have hafter :=
          h.failed htodo (htracks.of_sameData hdata hcache) (congrArg Prod.fst hdata.counters)
        rw [htodo] at hafter
        exact ⟨r, rs, hafter⟩
      case h_2 db todo n hcall =>
        obtain ⟨r', htr, hstarted, hrows⟩ := htracks.connect_commit hext hcall
        exact ⟨r', r :: rs, h.commit htodo htr hstarted hrows⟩
    · exact ⟨r, rs, h⟩

theorem Balanced.disconnect (h : Balanced nHeight root s r rs) (reserved : List Bytes)
    (fails : Bool) :
    ∃ (r' : Records) (rs' : List Records),
      Balanced nHeight root (s.step nHeight root reserved (.disconnect fails)) r' rs' := by
  cases htodo : s.todo with
  | cons a todo => exact ⟨r, rs, by simpa only [Counting.step, htodo] using h⟩
  | nil =>
    have htracks := h.idle htodo
    cases hchain : s.chain with
    | nil => exact ⟨r, rs, by simpa only [Counting.step, htodo, hchain] using h⟩
    | cons e chain =>
      rw [hchain] at htracks
      simp only [Counting.step, htodo, hchain]
      have hblock :=
        disconnectBlock_eq_complete (s.db.withWriteFails fails) e.block (nHeight e.block.hash)
      split
      case h_1 db hcall =>
        rw [hcall] at hblock
        obtain ⟨hdata, htr⟩ := htracks.disconnectFailed hblock
        rw [← hchain] at htr
        have hafter := h.failed htodo htr (congrArg Prod.fst hdata.counters)
        rw [htodo, hchain] at hafter
        exact ⟨r, rs, hafter⟩
      case h_2 db todo hcall =>
        cases rs with
        | nil => exact absurd htracks.depth (by simp)
        | cons r₀ rs₀ =>
          obtain ⟨htr, hstarted, hrows⟩ := htracks.disconnect_commit hcall
          exact ⟨r₀, rs₀, h.commit htodo htr hstarted hrows⟩

/-- **One step.** -/
theorem Balanced.step (h : Balanced nHeight root s r rs) (reserved : List Bytes) (a : CountAction)
    (hin : s.InStep a) :
    ∃ (r' : Records) (rs' : List Records),
      Balanced nHeight root (s.step nHeight root reserved a) r' rs' := by
  cases a with
  | connect e fails => exact h.connect reserved e fails
  | disconnect fails => exact h.disconnect reserved fails
  | finish =>
    cases htodo : s.todo with
    | nil => exact ⟨r, rs, by simpa only [Counting.step, htodo] using h⟩
    | cons a todo =>
      simp only [Counting.step, htodo]
      split_ifs with hlock
      · exact ⟨r, rs, h⟩
      · exact ⟨r, rs, h.finish htodo hlock⟩
  | call n =>
    refine ⟨r, rs, ?_⟩
    simp only [Counting.step]
    split
    · refine h.setReader s.enter ?_
      unfold Counting.enter
      split_ifs with hstarted
      · show s.db.started.isSome
        simp [TokenDB.started, TokenDB.counters, hstarted]
      · trivial
    · exact h
  | advance n => exact ⟨r, rs, h.advance hin⟩

end Steps

/-! ### Whole runs -/

namespace Counting

theorem balanced_init (nHeight : Uint256 → ℕ) (root : Uint256) : Balanced nHeight root init ∅ [] :=
  ⟨tracks_empty nHeight root,
    fun count h => absurd h (by simp [init, TokenDB.started, TokenDB.counters, TokenDB.empty]),
    fun _ => trivial⟩

/-- **The count settles.**  Along the steps of the writer and of any number of readers, if every
snapshot is taken in step, then at any time at which all calls have finished, and one reader has
made one, the count has been started and is the number of token infos. -/
theorem count_settled (nHeight : Uint256 → ℕ) (root : Uint256) (reserved : List Bytes)
    (actions : List CountAction) (h : Along (step nHeight root reserved) InStep init actions) :
    let s := actions.foldl (step nHeight root reserved) init
    s.Finished → (∃ n count, s.readers n = .returned (some count)) →
      s.db.mTokenCountInitialized = true ∧
        s.db.mTokenCountCache = s.db.records.rows Key.isTokenInfo := by
  intro s hdone hread
  obtain ⟨r, rs, hs⟩ := h.invariant (P := fun s => ∃ r rs, Balanced nHeight root s r rs)
    (fun s a hs hin => by
      obtain ⟨r, rs, hs⟩ := hs
      exact hs.step reserved a hin) ⟨∅, [], balanced_init nHeight root⟩
  obtain ⟨n, count, hn⟩ := hread
  have hsome : s.db.started.isSome := by
    have hsound := hs.readers n
    rw [hn] at hsound
    exact hsound
  obtain ⟨m, hm⟩ := Option.isSome_iff_exists.mp hsome
  have hcount := hs.started m hm
  rw [hdone.1, ← (hs.idle hdone.1).rows fun _ => isTokenKey_of_isTokenInfo] at hcount
  cases hstarted : s.db.mTokenCountInitialized with
  | false => exact absurd (hm.symm.trans (started_eq_none.mpr hstarted)) (by simp)
  | true =>
    simp only [TokenDB.started, TokenDB.counters, hstarted, if_true, Option.some.injEq] at hm
    exact ⟨rfl, hm.trans hcount⟩

/-! ### A snapshot before the commit, and one after it -/

/-- A step leaves the other readers where they are. -/
theorem step_readers (nHeight : Uint256 → ℕ) (root : Uint256) (reserved : List Bytes) (s : Counting)
    {a : CountAction} {n : ℕ} (h : reader a ≠ some n) :
    (s.step nHeight root reserved a).readers n = s.readers n := by
  have hset : ∀ (s' : Counting) (m : ℕ) (state : CountReader), m ≠ n →
      (s'.setReader m state).readers n = s'.readers n := by
    intro s' m state hm
    show Function.update s'.readers m state n = s'.readers n
    rw [Function.update_of_ne hm.symm]
  cases a with
  | connect e fails =>
    simp only [step]
    split
    · rfl
    · split_ifs
      · split <;> rfl
      · rfl
  | disconnect fails =>
    simp only [step]
    split
    · rfl
    · rfl
    · split <;> rfl
  | finish =>
    simp only [step]
    split
    · rfl
    · split_ifs <;> rfl
  | call m =>
    have hm : m ≠ n := fun heq => h (congrArg some heq)
    simp only [step]
    split
    · exact hset s m _ hm
    · rfl
  | advance m =>
    have hm : m ≠ n := fun heq => h (congrArg some heq)
    simp only [step, advance]
    split
    · rfl
    · split_ifs
      · rfl
      · exact hset s m _ hm
      · exact hset _ m _ hm
    · exact hset s m _ hm
    · exact hset _ m _ hm

theorem foldl_readers (nHeight : Uint256 → ℕ) (root : Uint256) (reserved : List Bytes) {n : ℕ}
    (actions : List CountAction) (h : ∀ a ∈ actions, reader a ≠ some n) (s : Counting) :
    (actions.foldl (step nHeight root reserved) s).readers n = s.readers n := by
  induction actions generalizing s with
  | nil => rfl
  | cons a actions ih =>
    rw [List.foldl_cons, ih (fun b hb => h b (List.mem_cons_of_mem a hb))]
    exact step_readers nHeight root reserved s (h a List.mem_cons_self)

section Samples

/-- A run of the sample chain. -/
def sampleRun (actions : List CountAction) : Counting :=
  actions.foldl (step Sample.sampleHeight 100 []) init

/-- If one reader makes all the calls, the others have nothing to finish. -/
theorem sampleRun_finished {actions : List CountAction} (htodo : (sampleRun actions).todo = [])
    {count : Option ℕ} (hreader : (sampleRun actions).readers 0 = .returned count)
    (hone : ∀ a ∈ actions, reader a = none ∨ reader a = some 0) : (sampleRun actions).Finished := by
  refine ⟨htodo, fun n => ?_⟩
  by_cases hn : n = 0
  · exact ⟨count, hn ▸ hreader⟩
  · refine ⟨none, foldl_readers Sample.sampleHeight 100 [] actions (fun a ha heq => ?_) init⟩
    rcases hone a ha with hnone | hzero
    · exact absurd (hnone.symm.trans heq) (by simp)
    · exact hn (Option.some.inj (hzero.symm.trans heq)).symm

/-- The issuance is committed after the snapshot and before the count is stored. -/
def commitDuringScan : List CountAction :=
  [.call 0, .advance 0, .advance 0, .connect Sample.issueEntry false, .advance 0, .finish, .finish]

theorem count_settled_commitDuringScan :
    (sampleRun commitDuringScan).db.mTokenCountInitialized = true ∧
      (sampleRun commitDuringScan).db.mTokenCountCache =
        (sampleRun commitDuringScan).db.records.rows Key.isTokenInfo := by
  have hstep : Along (step Sample.sampleHeight 100 []) InStep init commitDuringScan := by
    refine ⟨trivial, ?_, ?_, trivial, ?_, trivial, trivial, trivial⟩ <;> decide +kernel
  exact count_settled Sample.sampleHeight 100 [] commitDuringScan hstep
    (sampleRun_finished (by decide +kernel)
      (show _ = CountReader.returned (some 0) by decide +kernel) (by decide))
    ⟨0, 0, by decide +kernel⟩

/-- The issuance is committed before the snapshot and counted after the count is stored. -/
def scanAfterCommit : List CountAction :=
  [.connect Sample.issueEntry false, .call 0, .advance 0, .advance 0, .advance 0, .finish, .finish]

/-- One token is issued, by one block, and the node counts two. -/
theorem committed_token_counted_twice :
    (sampleRun scanAfterCommit).Finished ∧
      (sampleRun scanAfterCommit).readers 0 = .returned (some 1) ∧
      (sampleRun scanAfterCommit).db.mTokenCountInitialized = true ∧
      (sampleRun scanAfterCommit).db.records.rows Key.isTokenInfo = 1 ∧
      (sampleRun scanAfterCommit).db.mTokenCountCache = 2 := by
  have hreader : (sampleRun scanAfterCommit).readers 0 = .returned (some 1) := by decide +kernel
  exact ⟨sampleRun_finished (by decide +kernel) hreader (by decide),
    hreader, by decide +kernel, by decide +kernel,
    by decide +kernel⟩

end Samples

end Counting

end OpenSY.Tokens
