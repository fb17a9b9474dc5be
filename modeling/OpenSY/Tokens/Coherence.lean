import OpenSY.Tokens.Concurrent
import OpenSY.Tokens.InfoRecords
import OpenSY.Tokens.Invariants

/-!
# The cache of token infos is coherent between calls

Readers and writer are followed in the terms of a cache in front of a changing store: `Shared.view`
says what the store, the cache and the loaded value of a reader are, and every step of `Concurrent`
is some steps of it.

* `react_follows` — a step of a reader;
* `interleavedOp_keeps`, `undoOp_keeps` — the writer at work on its batch, readers included;
* `Follow` — what the batch of a writer changes, its later steps put right;
* `token_cache_coherent` — between calls every cached info is the committed one;
* `call_alone` — without readers the writer does what `processBlock` and `disconnectBlock` do.
-/

namespace OpenSY.Tokens

open OpenSY.Chain OpenSY.Src20 OpenSY.KeyValueStore OpenSY.RecencyCache OpenSY.Ordered
  OpenSY.Transition OpenSY.CoherentCache

/-! ### Readers -/

namespace Shared

/-- What the reader with the lock has read and not yet cached. -/
def loaded (s : Shared) : Option (TokenId × TokenInfo) :=
  s.mCs.bind fun n =>
    match s.readers n with
    | .loaded tokenId info => some (tokenId, info)
    | _ => none

/-- The infos as a cache in front of a store. -/
def view (s : Shared) (stale : Set TokenId) : Cached TokenId TokenInfo :=
  ⟨fun t => s.db.records.read (.tokenInfo t), s.db.mTokenCache, s.loaded, stale⟩

/-- The lock is held by the one reader that is between its cache miss and its insertion. -/
def LockOK (s : Shared) : Prop := ∀ n, s.mCs = some n ↔ (s.readers n).holds = true

/-- `s'` comes after `s`, with no commit in between. -/
structure Follows (s s' : Shared) : Prop where
  data : SameData s.db s'.db
  lock : LockOK s'
  steps : ∀ stale, Steps (s.view stale) (s'.view stale)

theorem Follows.refl {s : Shared} (h : LockOK s) : Follows s s := ⟨.refl s.db, h, fun _ => .refl⟩

theorem Follows.trans {s s' s'' : Shared} (h : Follows s s')
    (h' : Follows s' s'') : Follows s s'' :=
  ⟨h.data.trans h'.data, h'.lock, fun stale => (h.steps stale).trans (h'.steps stale)⟩

variable {s : Shared}

theorem LockOK.setReader (h : LockOK s) (n : ℕ) {r : Reader} (hr : r.holds = (s.readers n).holds) :
    LockOK (s.setReader n r) := by
  intro m
  show s.mCs = some m ↔ (Function.update s.readers n r m).holds = true
  rw [h m]
  by_cases hm : m = n
  · subst hm
    rw [Function.update_self, hr]
  · rw [Function.update_of_ne hm]

theorem LockOK.acquire (h : LockOK s) (hfree : s.mCs = none) (n : ℕ) {r : Reader}
    (hr : r.holds = true) :
    LockOK ({ s with mCs := some n }.setReader n r) := by
  intro m
  show some n = some m ↔ (Function.update s.readers n r m).holds = true
  by_cases hm : m = n
  · subst hm
    simp [hr]
  · have hnot : (s.readers m).holds ≠ true := fun hholds => by
      have := (h m).mpr hholds
      rw [hfree] at this
      cases this
    rw [Function.update_of_ne hm]
    simp [hnot, Ne.symm hm]

theorem LockOK.release (h : LockOK s) {n : ℕ} (hn : s.mCs = some n) (db : TokenDB) {r : Reader}
    (hr : r.holds = false) : LockOK ({ s with db := db, mCs := none }.setReader n r) := by
  intro m
  show none = some m ↔ (Function.update s.readers n r m).holds = true
  by_cases hm : m = n
  · subst hm
    simp [hr]
  · have hnot : (s.readers m).holds ≠ true := fun hholds => by
      have := (h m).mpr hholds
      rw [hn] at this
      exact hm (Option.some.inj this).symm
    rw [Function.update_of_ne hm]
    simp [hnot]

theorem loaded_of_free (hfree : s.mCs = none) : s.loaded = none := by
  unfold loaded
  rw [hfree]
  rfl

/-- A reader without the lock moves on without taking it. -/
theorem setReader_loaded (h : LockOK s) {n : ℕ} (hn : (s.readers n).holds = false) (r : Reader) :
    (s.setReader n r).loaded = s.loaded := by
  show (s.mCs.bind fun m => match Function.update s.readers n r m with
    | .loaded t i => some (t, i)
    | _ => none) = s.loaded
  unfold loaded
  cases hcs : s.mCs with
  | none => rfl
  | some m =>
    have hm : m ≠ n := by
      intro hm
      have := (h m).mp hcs
      rw [hm, hn] at this
      cases this
    simp only [Option.bind_some, Function.update_of_ne hm]

theorem follows_quiet (h : LockOK s) {n : ℕ} (hn : (s.readers n).holds = false) {r : Reader}
    (hr : r.holds = false) : Follows s (s.setReader n r) := by
  refine ⟨.refl s.db, h.setReader n (hr.trans hn.symm), fun stale => ?_⟩
  have hview : (s.setReader n r).view stale = s.view stale := by
    unfold view
    rw [setReader_loaded h hn]
    rfl
  rw [hview]

theorem start_holds (s : Shared) (c : ReaderCall) : (s.start c).holds = false := by
  cases c with
  | getTokenInfo tokenId => rfl
  | getTokenByTicker ticker =>
    simp only [start]
    cases s.db.records.read (.ticker ticker) <;> rfl
  | tokenExists tokenId => rfl

/-- The lookup of a reader that finds the lock free. -/
theorem follows_lookup (h : LockOK s) (hfree : s.mCs = none) {n : ℕ} {t : TokenId}
    (hn : s.readers n = .wants t) : Follows s (s.react (.advance n)) := by
  obtain ⟨db, mCs, readers⟩ := s
  obtain rfl : mCs = none := hfree
  replace hn : readers n = .wants t := hn
  simp only [react, hn, Option.isSome_none, Bool.false_eq_true, if_false]
  cases hget : db.mTokenCache.get t with
  | mk found cache =>
    cases found with
    | some info =>
      have hlock : LockOK ⟨{ db with mTokenCache := cache }, none, readers⟩ := h
      refine ⟨rfl, hlock.setReader n (show false = (readers n).holds by rw [hn]; rfl),
        fun stale => .single ?_⟩
      have hstep := Step.touch (view ⟨db, none, readers⟩ stale) t
      rw [show (view ⟨db, none, readers⟩ stale).cache.get t = (some info, cache) from hget] at hstep
      exact hstep
    | none =>
      refine ⟨rfl, h.acquire rfl n rfl, fun stale => ?_⟩
      have hview : (setReader ⟨db, some n, readers⟩ n (.missed t)).view stale =
          view ⟨db, none, readers⟩ stale := by
        simp [view, loaded, setReader]
      show Steps _ ((setReader ⟨db, some n, readers⟩ n (.missed t)).view stale)
      rw [hview]

/-- The read of the database after a miss. -/
theorem follows_read (h : LockOK s) {n : ℕ} {t : TokenId} (hn : s.readers n = .missed t) :
    Follows s (s.react (.advance n)) := by
  have hcs : s.mCs = some n := (h n).mpr (by rw [hn]; rfl)
  have hloaded : s.loaded = none := by simp [loaded, hcs, hn]
  have hgiveup :
      Follows s ({ s with mCs := none }.setReader n (.returned (some (.info none)))) := by
    refine ⟨rfl, h.release hcs s.db rfl, fun stale => ?_⟩
    have hview : ({ s with mCs := none }.setReader n (.returned (some (.info none)))).view stale =
        s.view stale := by
      unfold view
      rw [hloaded, loaded_of_free (show _ = none from rfl)]
      rfl
    rw [hview]
  simp only [react, hn]
  cases hread : s.db.records.read (.tokenInfo t) with
  | none => exact hgiveup
  | some info =>
    dsimp only
    split_ifs with hlong
    · exact hgiveup
    · refine ⟨rfl, h.setReader n (by rw [hn]; rfl), fun stale => .single ?_⟩
      have hview : (s.setReader n (.loaded t info)).view stale =
          { s.view stale with loaded := some (t, info) } := by
        simp [view, loaded, setReader, hcs]
      rw [hview]
      exact Step.load (s.view stale) t info hread

/-- The insertion. -/
theorem follows_insert (h : LockOK s) {n : ℕ} {t : TokenId} {info : TokenInfo}
    (hn : s.readers n = .loaded t info) : Follows s (s.react (.advance n)) := by
  have hcs : s.mCs = some n := (h n).mpr (by rw [hn]; rfl)
  simp only [react, hn]
  refine ⟨rfl, h.release hcs _ rfl, fun stale => .single ?_⟩
  exact Step.fill (s.view stale) t info (by simp [view, loaded, hcs, hn])

/-- **A step of a reader.** -/
theorem react_follows (h : LockOK s) (a : ReaderAction) : Follows s (s.react a) := by
  cases a with
  | call n c =>
    cases hn : s.readers n with
    | returned answer =>
      simp only [react, hn]
      exact follows_quiet h (by rw [hn]; rfl) (start_holds s c)
    | _ =>
      simp only [react, hn]
      exact .refl h
  | advance n =>
    cases hn : s.readers n with
    | returned answer =>
      simp only [react, hn]
      exact .refl h
    | wants t =>
      cases hcs : s.mCs with
      | none => exact follows_lookup h hcs hn
      | some m =>
        simp only [react, hn, hcs, Option.isSome_some, if_true]
        exact .refl h
    | missed t => exact follows_read h hn
    | loaded t info => exact follows_insert h hn
    | asks t =>
      simp only [react, hn]
      split_ifs
      · exact .refl h
      · exact follows_quiet h (by rw [hn]; rfl) rfl
      · exact follows_quiet h (by rw [hn]; rfl) rfl
    | unseen t =>
      simp only [react, hn]
      exact follows_quiet h (by rw [hn]; rfl) rfl

theorem reacts_follows (h : LockOK s) (actions : List ReaderAction) :
    Follows s (s.reacts actions) := by
  induction actions generalizing s with
  | nil => exact .refl h
  | cons a actions ih =>
    have hstep := react_follows h a
    exact hstep.trans (ih hstep.lock)

end Shared

/-! ### The writer at work on a batch -/

namespace Shared

variable {s s₀ : Shared}

/-- A lookup of the writer. -/
theorem looks_follows (h : LockOK s) {db' : TokenDB} (hlooks : Looks s.db db') :
    Follows s { s with db := db' } := by
  cases hlooks with
  | none => exact .refl h
  | read t =>
    unfold TokenDB.readTokenInfo
    cases hget : s.db.mTokenCache.get t with
    | mk found cache =>
      cases found with
      | some info =>
        refine ⟨rfl, h, fun stale => .single ?_⟩
        have hstep := Step.touch (s.view stale) t
        rw [show (s.view stale).cache.get t = (some info, cache) from hget] at hstep
        exact hstep
      | none =>
        cases hread : s.db.records.read (.tokenInfo t) with
        | none => exact .refl h
        | some info =>
          dsimp only
          split_ifs
          · exact .refl h
          · exact ⟨rfl, h, fun stale => .single (Step.install (s.view stale) t info hread)⟩

/-- Between calls: nothing is stale, and the infos are properly filed. -/
structure Settled (s : Shared) : Prop where
  lock : LockOK s
  fresh : Fresh (s.view ∅)
  filed : InfoWF s.db.records

theorem Settled.coherent (h : Settled s) : CacheCoherent s.db := h.fresh.coherent rfl

theorem Settled.follows (h : Settled s₀) (hs : Follows s₀ s) : Settled s :=
  ⟨hs.lock, (hs.steps ∅).fresh h.fresh, hs.data.records ▸ h.filed⟩

end Shared

open Shared

/-- A block in progress that was begun in `s₀`. -/
structure Prepared (s₀ : Shared) (p : InterleavedBlock) : Prop where
  follows : Follows s₀ p.shared
  infos : InfoView s₀.db.records p.batch p.overlay

namespace Prepared

variable {s₀ : Shared} {p : InterleavedBlock}

theorem interfere (h : Prepared s₀ p) : Prepared s₀ p.interfere :=
  ⟨h.follows.trans (reacts_follows h.follows.lock _), h.infos⟩

/-- What a call leaves behind. -/
theorem setPending (h : Prepared s₀ p) {q : PendingBlock} (hlooks : Looks p.shared.db q.db)
    (hinfos : InfoView s₀.db.records q.batch q.overlay) : Prepared s₀ (p.setPending q) :=
  ⟨h.follows.trans (looks_follows h.follows.lock hlooks), hinfos⟩

theorem lookup (h : Prepared s₀ p) (t : TokenId) : Prepared s₀ (p.lookup t).2 :=
  ⟨h.interfere.follows.trans (looks_follows h.interfere.follows.lock
    (opTokenInfo_looks p.interfere.shared.db (some p.interfere.overlay) t)), h.infos⟩

end Prepared

theorem undoWrite_effect (site : OpSite) (undo : TokenUndoRecord) :
    InfoEffect [undoWrite site undo] none :=
  .of_keys (by simp [undoWrite, key_write])

/-- **An operation of the writer**, with readers before each of its lookups. -/
theorem interleavedOp_keeps {s₀ : Shared} (hs : Settled s₀) (p : InterleavedBlock) (site : OpSite)
    {op : TokenOp} (hop : op.WellFormed) (h : Prepared s₀ p) :
    Prepared s₀ (interleavedOp p site op).1 := by
  cases op with
  | issue issuance issuer =>
    have hp := h.interfere
    simp only [interleavedOp, pendingOp]
    generalize p.interfere = p at hp
    obtain ⟨hinfos, hdb⟩ : InfoView _ _ _ ∧
        (registerToken p.shared.db issuance issuer site (some p.batch) (some p.overlay)).db =
          p.shared.db :=
      registerToken_view (p := p.pending) hp.infos hop site
    have hlooks : Looks p.shared.db
        (registerToken p.shared.db issuance issuer site (some p.batch) (some p.overlay)).db := by
      rw [hdb]
      exact .none
    split_ifs
    · exact hp.setPending .none hp.infos
    · split
      · refine hp.setPending hlooks ?_
        exact hinfos.other (undoWrite_effect site (issueUndo site issuance issuer)) rfl
      · exact hp.setPending hlooks hinfos
  | transfer t f d n =>
    have hp := (h.lookup t).interfere
    have hsettled := hs.follows hp.follows
    simp only [interleavedOp]
    generalize (p.lookup t).2.interfere = q at hp hsettled
    obtain ⟨hinfos, hlooks⟩ := transferTokens_view (p := q.pending) hp.infos
      hsettled.coherent hsettled.filed t f d n site
    split
    · exact hp.setPending hlooks (hinfos.other (undoWrite_effect site _) rfl)
    · exact hp.setPending hlooks hinfos
  | burn t f n =>
    have hp := (h.lookup t).interfere
    have hsettled := hs.follows hp.follows
    simp only [interleavedOp]
    generalize (p.lookup t).2.interfere = q at hp hsettled
    obtain ⟨hinfos, hlooks⟩ := burnTokens_view (p := q.pending) hp.infos
      hsettled.coherent hsettled.filed t f n site
    split
    · exact hp.setPending hlooks (hinfos.other (undoWrite_effect site _) rfl)
    · exact hp.setPending hlooks hinfos

/-- A disconnection in progress that was begun in `s₀`. -/
structure Undoing (s₀ : Shared) (p : InterleavedUndo) : Prop where
  follows : Follows s₀ p.shared
  infos : Disconnect.InfoOK p.undone.tokensToInvalidate p.undone

/-- **An undo step of the writer**, with readers before it. -/
theorem undoOp_keeps {s₀ : Shared} (hs : Settled s₀) {p : InterleavedUndo} (h : Undoing s₀ p)
    (height : ℕ) (txid : Uint256) (undo : ℕ × TokenUndoRecord) :
    Undoing s₀ (p.undoOp height txid undo) := by
  have hreacts := h.follows.trans (reacts_follows h.follows.lock (p.schedule.headD []))
  have hsettled := hs.follows hreacts
  have hinfos : Disconnect.InfoOK p.undone.tokensToInvalidate
      { p.undone with db := (p.shared.reacts (p.schedule.headD [])).db } :=
    ⟨h.infos.keys, h.infos.written, h.infos.overlay⟩
  obtain ⟨hok, hlooks⟩ :=
      hinfos.undoOp (s := { p.undone with db := _ }) hsettled.coherent hsettled.filed height
    txid undo.1 undo.2
  exact ⟨hreacts.trans (looks_follows hreacts.lock hlooks), hok⟩

theorem undoTx_keeps {s₀ : Shared} (hs : Settled s₀) {p : InterleavedUndo} (h : Undoing s₀ p)
    (height : ℕ) (txid : Uint256) : Undoing s₀ (p.undoTx height txid) := by
  unfold InterleavedUndo.undoTx
  generalize (collectUndos p.undone.db.records height txid maxUndoOpsPerTx 0).reverse = undos
  induction undos generalizing p with
  | nil => exact h
  | cons undo undos ih => exact ih (undoOp_keeps hs h height txid undo)

theorem undoTxs_keeps {s₀ : Shared} (hs : Settled s₀) {p : InterleavedUndo} (h : Undoing s₀ p)
    (height : ℕ) (txids : List Uint256) :
    Undoing s₀ (txids.foldl (InterleavedUndo.undoTx height) p) := by
  induction txids generalizing p with
  | nil => exact h
  | cons txid txids ih => exact ih (undoTx_keeps hs h height txid)

/-! ### The batch and the steps after it -/

/-- The tokens whose cache entries are still to be put right. -/
def staleTokens (todo : List AfterCommit) : Set TokenId :=
  {t | t ∈ todo.filterMap AfterCommit.token}

theorem staleTokens_nil : staleTokens [] = ∅ := by
  ext t
  simp [staleTokens]

/-- Infos that are still to be cached are the committed ones. -/
def Installs (r : Records) (todo : List AfterCommit) : Prop :=
  ∀ info, .updateCache info ∈ todo → r.read (.tokenInfo info.tokenId) = some info

/-- What the batch changes, the steps after it put right. -/
structure Follow (r : Records) (batch : CDBBatch) (after : List AfterCommit) : Prop where
  frame : ∀ t, t ∉ staleTokens after →
    (r.writeBatch batch).read (.tokenInfo t) = r.read (.tokenInfo t)
  installs : Installs (r.writeBatch batch) after
  filed : InfoWF (r.writeBatch batch)

/-- The block records at the end of a batch are no infos. -/
theorem pointers_effect (height : ℕ) (txids : List Uint256) (hash : Uint256) :
    InfoEffect (blockTokensWrite height txids ++ [.write .bestBlock hash]) none := by
  refine .of_keys fun op hop t => ?_
  rcases List.mem_append.mp hop with hop | hop
  · rw [key_of_mem_blockTokensWrite hop]
    exact Key.noConfusion
  · rw [List.mem_singleton.mp hop, key_write]
    exact Key.noConfusion

theorem mem_staleTokens_updates {entries : List (TokenId × TokenInfo)} {issues transfers : ℕ}
    {t : TokenId} :
    t ∈ staleTokens (.addCounts issues transfers :: entries.map fun entry => .updateCache entry.2) ↔
      ∃ entry ∈ entries, entry.2.tokenId = t := by
  simp [staleTokens, AfterCommit.token, List.mem_filterMap]

/-- **The batch of a connected block**: the overlay names what it changes. -/
theorem follow_connected {r : Records} (hr : InfoWF r) {batch : CDBBatch} {o : BalanceOverlay}
    (h : InfoView r batch o) (height : ℕ) (txids : List Uint256) (hash : Uint256)
    (issues transfers : ℕ) :
    Follow r (batch ++ blockTokensWrite height txids ++ [.write .bestBlock hash])
      (.addCounts issues transfers :: o.tokenInfos.entries.map fun entry =>
        .updateCache entry.2) := by
  rw [List.append_assoc]
  have hview := (h.other (pointers_effect height txids hash) rfl).view
  refine ⟨fun t ht => ?_, fun info hinfo => ?_, fun t i hi => ?_⟩
  · rw [hview]
    cases hfind : o.tokenInfos.find t with
    | none => rfl
    | some i =>
      have hmem := (o.tokenInfos.mem_entries_iff t i).mpr hfind
      exact absurd (mem_staleTokens_updates.mpr ⟨(t, i), hmem, (h.filed t i hfind).1⟩) ht
  · obtain ⟨⟨t, i⟩, hmem, hi⟩ : ∃ entry ∈ o.tokenInfos.entries, entry.2 = info := by
      simpa using hinfo
    obtain rfl : i = info := hi
    have hfind := (o.tokenInfos.mem_entries_iff t i).mp hmem
    rw [hview, (h.filed t i hfind).1, hfind, Option.some_or]
  · rw [hview] at hi
    cases hfind : o.tokenInfos.find t with
    | none => exact hr t i (by simpa [hfind] using hi)
    | some k =>
      obtain rfl : k = i := by simpa [hfind] using hi
      exact h.filed t k hfind

theorem mem_staleTokens_invalidations {ids : List TokenId} {issues transfers : ℕ} {t : TokenId} :
    t ∈ staleTokens (ids.map .invalidateCache ++ [.subCounts issues transfers]) ↔ t ∈ ids := by
  simp [staleTokens, AfterCommit.token, List.mem_filterMap]

/-- **The batch of a disconnected block**: every token it changes is invalidated. -/
theorem follow_disconnected {r : Records} (hr : InfoWF r) {s : Disconnect}
    (h : Disconnect.InfoOK s.tokensToInvalidate s) (height : ℕ) (hash : Uint256)
    (issues transfers : ℕ) :
    Follow r (s.batch ++ [.erase (.blockTokens height), .write .bestBlock hash])
      ((s.tokensToInvalidate.toFinset.sort (· ≤ ·)).map .invalidateCache ++
        [.subCounts issues transfers]) := by
  have hall := h.emit_other (w := [.erase (.blockTokens height), .write .bestBlock hash])
    (by simp [key_erase, key_write])
  refine ⟨fun t ht => ?_, fun info hinfo => ?_, hr.writeBatch hall.written⟩
  · rw [mem_staleTokens_invalidations, Finset.mem_sort, List.mem_toFinset] at ht
    exact read_writeBatch_of_forall_ne _ _ _ fun op hop hkey => ht (hall.keys op hop t hkey)
  · simp at hinfo

/-! ### Every step -/

/-- What holds of the writer at each of its points. -/
def WriterOK (s : Shared) : Writer → Prop
  | .idle => Settled s
  | .writing batch after => Settled s ∧ Follow s.db.records batch after
  | .finishing todo =>
    LockOK s ∧ Fresh (s.view (staleTokens todo)) ∧ InfoWF s.db.records ∧ Installs s.db.records todo

theorem WriterOK.follows {s s' : Shared} {w : Writer} (h : WriterOK s w)
    (hs : Follows s s') : WriterOK s' w := by
  cases w with
  | idle => exact Settled.follows h hs
  | writing batch after =>
    refine ⟨h.1.follows hs, ?_⟩
    rw [hs.data.records]
    exact h.2
  | finishing todo =>
    obtain ⟨-, hfresh, hfiled, hinstalls⟩ := h
    refine ⟨hs.lock, (hs.steps _).fresh hfresh, ?_, ?_⟩
    · rw [hs.data.records]
      exact hfiled
    · rw [hs.data.records]
      exact hinstalls

theorem WriterOK.lock {s : Shared} {w : Writer} (h : WriterOK s w) : LockOK s := by
  cases w with
  | idle => exact Settled.lock h
  | writing batch after => exact h.1.lock
  | finishing todo => exact h.1

/-- **The writer works its batch out**: nothing is committed, and what the batch will change is
noted. -/
theorem prepare_spec (reserved : List Bytes) {s : Shared} (h : Settled s) (schedule : Schedule)
    (call : WriterCall) :
    Follows s (prepare reserved s schedule call).shared ∧
      ((prepare reserved s schedule call).writer = .idle ∨
        ∃ batch after, (prepare reserved s schedule call).writer = .writing batch after ∧
          Follow s.db.records batch after) := by
  cases call with
  | processBlock block height blockundo =>
    simp only [prepare]
    split_ifs
    · exact ⟨.refl h.lock, .inl rfl⟩
    · have hwalk := walk_invariant (I := Prepared s)
        (fun p site op hop hp => interleavedOp_keeps h p site hop hp)
        reserved height block blockundo (s := ⟨s, schedule, [], .empty⟩)
        ⟨.refl h.lock, infoView_empty s.db.records⟩
      exact ⟨hwalk.follows,
        .inr ⟨_, _, rfl, follow_connected h.filed hwalk.infos height _ block.hash _ _⟩⟩
  | disconnectBlock block height =>
    simp only [prepare]
    split_ifs
    · exact ⟨.refl h.lock, .inl rfl⟩
    · cases s.db.records.read (.blockTokens height) with
      | none => exact ⟨.refl h.lock, .inl rfl⟩
      | some blockTokenTxs =>
        have hundo := undoTxs_keeps h (p := ⟨s, schedule, { db := s.db }⟩)
          ⟨.refl h.lock, ⟨by simp, by simp, by simp⟩⟩ height (dedupTxids blockTokenTxs).reverse
        exact ⟨hundo.follows, .inr ⟨_, _, rfl,
          follow_disconnected h.filed hundo.infos height block.hashPrevBlock _ _⟩⟩

theorem prepare_ok (reserved : List Bytes) {s : Shared} (h : Settled s) (schedule : Schedule)
    (call : WriterCall) :
    WriterOK (prepare reserved s schedule call).shared
      (prepare reserved s schedule call).writer := by
  obtain ⟨hfollows, hidle | ⟨batch, after, hwriting, hfollow⟩⟩ :=
    prepare_spec reserved h schedule call
  · rw [hidle]
    exact h.follows hfollows
  · rw [hwriting]
    refine ⟨h.follows hfollows, ?_⟩
    rw [hfollows.data.records]
    exact hfollow

/-- The commit makes the tokens of the batch stale. -/
theorem commit_ok {s : Shared} {batch : CDBBatch} {after : List AfterCommit}
    (h : WriterOK s (.writing batch after)) :
    WriterOK { s with db := { s.db with mDb := ⟨s.db.records.writeBatch batch, false⟩ } }
      (.finishing after) := by
  obtain ⟨hsettled, hfollow⟩ := h
  have hstep :=
    Step.commit (s.view ∅) (fun t => (s.db.records.writeBatch batch).read (.tokenInfo t))
    (staleTokens after) (Set.empty_subset _) hfollow.frame
  exact ⟨hsettled.lock, hstep.fresh hsettled.fresh, hfollow.filed, hfollow.installs⟩

/-- A step after the commit. -/
theorem finish_ok {s : Shared} {a : AfterCommit} {todo : List AfterCommit}
    (h : WriterOK s (.finishing (a :: todo))) (hlock : ¬ (a.token.isSome ∧ s.mCs.isSome)) :
    WriterOK { s with db := a.run s.db } (.finishing todo) := by
  obtain ⟨hlocked, hfresh, hfiled, hinstalls⟩ := h
  have hrest : Installs s.db.records todo :=
    fun info hinfo => hinstalls info (List.mem_cons_of_mem _ hinfo)
  have hfree : a.token.isSome → s.loaded = none := by
    intro ha
    refine loaded_of_free ?_
    simpa [ha] using hlock
  cases a with
  | addCounts issues transfers => exact ⟨hlocked, hfresh, hfiled, hrest⟩
  | subCounts issues transfers => exact ⟨hlocked, hfresh, hfiled, hrest⟩
  | updateCache info =>
    have hstep := Step.update (s.view (staleTokens (.updateCache info :: todo))) info.tokenId
      info (staleTokens todo) (hfree rfl) (hinstalls info List.mem_cons_self)
      (fun x hx hne => (List.mem_cons.mp hx).resolve_left hne)
    exact ⟨hlocked, hstep.fresh hfresh, hfiled, hrest⟩
  | invalidateCache t =>
    have hstep :=
      Step.drop (s.view (staleTokens (.invalidateCache t :: todo))) t (staleTokens todo) (hfree rfl)
      (fun x hx hne => (List.mem_cons.mp hx).resolve_left hne)
    exact ⟨hlocked, hstep.fresh hfresh, hfiled, hrest⟩

/-- **Every step keeps the writer and the readers in order.** -/
theorem step_ok (reserved : List Bytes) {s s' : Concurrent} (h : WriterOK s.shared s.writer)
    {a : ConcurrentAction} (hstep : s.step reserved a = some s') :
    WriterOK s'.shared s'.writer := by
  obtain ⟨shared, writer⟩ := s
  cases a with
  | reader a =>
    obtain rfl := Option.some.inj hstep
    exact h.follows (react_follows h.lock a)
  | evict t =>
    obtain rfl := Option.some.inj hstep
    exact h.follows ⟨rfl, h.lock, fun stale => .single (Step.evict (shared.view stale) t)⟩
  | begin call schedule =>
    cases writer with
    | idle =>
      obtain rfl := Option.some.inj hstep
      exact prepare_ok reserved h schedule call
    | writing batch after => cases hstep
    | finishing todo => cases hstep
  | commit fails =>
    cases writer with
    | idle => cases hstep
    | finishing todo => cases hstep
    | writing batch after =>
      cases fails with
      | true =>
        obtain rfl := Option.some.inj hstep
        exact h.1
      | false =>
        obtain rfl := Option.some.inj hstep
        exact commit_ok h
  | finish =>
    cases writer with
    | idle => cases hstep
    | writing batch after => cases hstep
    | finishing todo =>
      cases todo with
      | nil =>
        obtain rfl := Option.some.inj hstep
        obtain ⟨hlock, hfresh, hfiled, -⟩ := h
        rw [staleTokens_nil] at hfresh
        exact ⟨hlock, hfresh, hfiled⟩
      | cons a todo =>
        simp only [Concurrent.step] at hstep
        split_ifs at hstep with hlock
        obtain rfl := Option.some.inj hstep
        exact finish_ok h hlock

theorem opened_settled {records : Records} (h : InfoWF records) :
    Settled (Concurrent.opened records).shared := by
  refine ⟨fun n => ?_, ⟨fun p hp => ?_, fun p hp => ?_⟩, h⟩
  · exact ⟨fun hcs => (nomatch hcs), fun hholds => (nomatch hholds)⟩
  · cases hp
  · cases hp

theorem run_ok (reserved : List Bytes) {s : Concurrent}
    (h : (Concurrent.machine reserved).Run AnyAction s) :
    WriterOK s.shared s.writer := by
  refine h.induct (P := fun s => WriterOK s.shared s.writer) ?_ ?_
  · intro s hs
    obtain ⟨records, hfiled, rfl⟩ := hs
    exact opened_settled hfiled
  · intro s s' a hs _ hstep
    exact step_ok reserved hs hstep

/-- **The cache of token infos is coherent between calls**: whatever the writer and the readers have
done, and however their steps fell between each other, every cached info is the committed one, and
nothing is cached for a token without a record. -/
theorem token_cache_coherent (reserved : List Bytes) (s : Concurrent)
    (h : (Concurrent.machine reserved).Run AnyAction s) (hidle : s.writer = .idle) :
    (∀ p ∈ s.shared.db.mTokenCache.entries, s.shared.db.records.read (.tokenInfo p.1) = some p.2) ∧
    ∀ t, s.shared.db.records.read (.tokenInfo t) = none →
      s.shared.db.mTokenCache.contains t = false := by
  have hok := run_ok reserved h
  rw [hidle] at hok
  have hcoherent : CacheCoherent s.shared.db := Settled.coherent hok
  refine ⟨hcoherent, fun t hnone => ?_⟩
  rw [Bool.eq_false_iff]
  intro hcached
  obtain ⟨info, hmem⟩ := LRUCache.contains_iff.mp hcached
  rw [hcoherent (t, info) hmem] at hnone
  cases hnone

instance (w : Writer) : Decidable (w = .idle) :=
  match w with
  | .idle => isTrue rfl
  | .writing _ _ => isFalse Writer.noConfusion
  | .finishing _ => isFalse Writer.noConfusion

/-- A reader loads an info, its block is disconnected, and only then the reader fills the cache. -/
def lateFill : List ConcurrentAction :=
  [.reader (.call 0 (.getTokenInfo 7)), .reader (.advance 0), .reader (.advance 0),
    .begin (.disconnectBlock Sample.issueEntry.block 1) [], .commit false, .reader (.advance 0),
      .finish, .finish,
    .finish]

def lateFillEnd : Option Concurrent :=
  (Concurrent.machine []).steps (.opened Sample.issued.records) lateFill

theorem lateFillEnd_idle : ∃ s, lateFillEnd = some s ∧ s.writer = .idle ∧
    s.shared.db.records.read (.tokenInfo 7) = none :=
  ⟨lateFillEnd.get (by decide +kernel),
    (Option.some_get _).symm, by decide +kernel, by decide +kernel⟩

/-- The late entry is gone when the call ends. -/
theorem token_cache_coherent_lateFill :
    ∃ s, lateFillEnd = some s ∧ s.writer = .idle ∧ s.shared.db.records.read (.tokenInfo 7) = none ∧
      s.shared.db.mTokenCache.contains 7 = false := by
  obtain ⟨s, hs, hidle, hnone⟩ := lateFillEnd_idle
  have hrun : (Concurrent.machine []).Run AnyAction s :=
    Machine.Run.steps (.start ⟨_, Sample.reach_issued.storeSound.infoWF, rfl⟩) hs
  exact ⟨s, hs, hidle, hnone, (token_cache_coherent [] s hrun hidle).2 7 hnone⟩

/-! ### The writer alone -/

/-- The database after a call that nobody interrupts. -/
def WriterCall.run (reserved : List Bytes) (db : TokenDB) : WriterCall → TokenDB
  | .processBlock block height blockundo =>
    (Tokens.processBlock reserved db block height blockundo).1
  | .disconnectBlock block height => (Tokens.disconnectBlock db block height).1

/-- The rest of a call whose batch is worked out. -/
def Concurrent.complete (c : Concurrent) : TokenDB :=
  match c.writer with
  | .writing batch after =>
    match c.shared.db.mDb.commit batch with
    | .error _ => c.shared.db
    | .ok mDb => after.foldl AfterCommit.run { c.shared.db with mDb := mDb }
  | _ => c.shared.db

section Alone

variable (s : Shared)

/-- A pending block without readers. -/
def Quiet (p : InterleavedBlock) (q : PendingBlock) : Prop :=
  p = ⟨{ s with db := q.db }, [], q.batch, q.overlay⟩

theorem interfere_quiet {p : InterleavedBlock} (h : p.schedule = []) : p.interfere = p := by
  obtain ⟨shared, schedule, batch, overlay⟩ := p
  obtain rfl : schedule = [] := h
  rfl

theorem interleavedOp_quiet (p : InterleavedBlock) (q : PendingBlock) (site : OpSite) (op : TokenOp)
    (h : Quiet s p q) : Quiet s (interleavedOp p site op).1 (pendingOp q site op).1 ∧
      (interleavedOp p site op).2 = (pendingOp q site op).2 := by
  obtain rfl : p = ⟨{ s with db := q.db }, [], q.batch, q.overlay⟩ := h
  cases op with
  | issue issuance issuer =>
    simp only [interleavedOp]
    exact ⟨rfl, rfl⟩
  | transfer t f d n =>
    simp only [interleavedOp, InterleavedBlock.lookup, interfere_quiet, InterleavedBlock.setDb]
    simp only [pendingOp]
    cases transferTokens (getTokenInfoWithOverlay q.db q.overlay t).2 t f d n site (some q.batch)
      (some q.overlay) with
    | mk db batch overlay result =>
      rcases result with e | (_ | _)
      · exact ⟨rfl, rfl⟩
      · exact ⟨rfl, rfl⟩
      · exact ⟨rfl, rfl⟩
  | burn t f n =>
    simp only [interleavedOp, InterleavedBlock.lookup, interfere_quiet, InterleavedBlock.setDb]
    simp only [pendingOp]
    cases burnTokens (getTokenInfoWithOverlay q.db q.overlay t).2 t f n site (some q.batch)
      (some q.overlay) with
    | mk db batch overlay result =>
      rcases result with e | (_ | _)
      · exact ⟨rfl, rfl⟩
      · exact ⟨rfl, rfl⟩
      · exact ⟨rfl, rfl⟩

theorem undoTx_quiet (height : ℕ) (txid : Uint256) (undone : Disconnect) :
    InterleavedUndo.undoTx height ⟨{ s with db := undone.db }, [], undone⟩ txid =
      ⟨{ s with db := (undone.undoTx height txid).db }, [], undone.undoTx height txid⟩ := by
  unfold InterleavedUndo.undoTx Disconnect.undoTx
  generalize (collectUndos undone.db.records height txid maxUndoOpsPerTx 0).reverse = undos
  induction undos generalizing undone with
  | nil => rfl
  | cons undo undos ih => exact ih (undone.undoOp height txid undo.1 undo.2)

theorem undoTxs_quiet (height : ℕ) (txids : List Uint256) (undone : Disconnect) :
    txids.foldl (InterleavedUndo.undoTx height) ⟨{ s with db := undone.db }, [], undone⟩ =
      ⟨{ s with db := (txids.foldl (Disconnect.undoTx height) undone).db }, [],
        txids.foldl (Disconnect.undoTx height) undone⟩ := by
  induction txids generalizing undone with
  | nil => rfl
  | cons txid txids ih => rw [List.foldl_cons, undoTx_quiet, ih, List.foldl_cons]

/-- Dropping keys from the cache keeps the other entries, in any order of the keys. -/
theorem invalidate_entries (db : TokenDB) (ids : List TokenId) :
    ids.foldl TokenDB.invalidateCache db =
      { db with mTokenCache := ids.foldl LRUCache.erase db.mTokenCache } := by
  induction ids generalizing db with
  | nil => rfl
  | cons t ids ih => exact ih (db.invalidateCache t)

/-- **Without readers the writer does what `processBlock` and `disconnectBlock` do.** -/
theorem complete_prepare (reserved : List Bytes) (call : WriterCall) :
    (prepare reserved s [] call).complete = call.run reserved s.db := by
  cases call with
  | processBlock block height blockundo =>
    simp only [prepare, WriterCall.run, processBlock]
    split_ifs
    · rfl
    · have hwalk := walk_simulation (R := Quiet s) (f := interleavedOp) (g := pendingOp)
        (fun p q site op _ h => interleavedOp_quiet s p q site op h) reserved height block blockundo
        (s := ⟨s, [], [], .empty⟩) (t := ⟨s.db, [], .empty⟩) rfl
      generalize walkBlock interleavedOp reserved height block blockundo ⟨s, [], [], .empty⟩ =
        w at hwalk
      generalize walkBlock pendingOp reserved height block blockundo ⟨s.db, [], .empty⟩ = v at hwalk
      obtain ⟨hstate, -, hissues, htransfers, htxs⟩ := hwalk
      simp only [Concurrent.complete, show w.state = _ from hstate, hissues, htransfers, htxs]
      cases v.state.db.mDb.commit (v.state.batch ++ blockTokensWrite height v.blockTokenTxs ++
        [.write .bestBlock block.hash]) with
      | error e => rfl
      | ok mDb =>
        simp only [List.foldl_cons, List.foldl_map]
        rfl
  | disconnectBlock block height =>
    simp only [prepare, WriterCall.run, disconnectBlock]
    split_ifs
    · rfl
    · cases s.db.records.read (.blockTokens height) with
      | none => rfl
      | some txids =>
        have hundo := undoTxs_quiet s height (dedupTxids txids).reverse { db := s.db }
        simp only [Concurrent.complete]
        rw [show (⟨s, [], { db := s.db }⟩ : InterleavedUndo) =
          ⟨{ s with db := s.db }, [], { db := s.db }⟩ from rfl, hundo]
        generalize (dedupTxids txids).reverse.foldl (Disconnect.undoTx height) { db := s.db } =
          undone
        dsimp only
        cases undone.db.mDb.commit (undone.batch ++ [.erase (.blockTokens height),
          .write .bestBlock block.hashPrevBlock]) with
        | error e => rfl
        | ok mDb =>
          have hsort : ∀ t, t ∈ undone.tokensToInvalidate.toFinset.sort (· ≤ ·) ↔
              t ∈ undone.tokensToInvalidate := by
            intro t
            rw [Finset.mem_sort, List.mem_toFinset]
          simp only [List.foldl_append, List.foldl_map, List.foldl_cons, List.foldl_nil]
          show ((undone.tokensToInvalidate.toFinset.sort (· ≤ ·)).foldl TokenDB.invalidateCache
            { undone.db with mDb := mDb }).subCounts _ _ = _
          rw [invalidate_entries, invalidate_entries, LRUCache.foldl_erase_congr _ hsort]

/-- With the lock free, the steps after a commit can be taken one after the other. -/
theorem finish_steps (reserved : List Bytes) (hfree : s.mCs = none) (todo : List AfterCommit)
    (db : TokenDB) :
    (Concurrent.machine reserved).steps ⟨{ s with db := db }, .finishing todo⟩
        (List.replicate (todo.length + 1) .finish) =
      some ⟨{ s with db := todo.foldl AfterCommit.run db }, .idle⟩ := by
  induction todo generalizing db with
  | nil => rfl
  | cons a todo ih =>
    rw [List.length_cons, List.replicate_succ, Machine.steps, List.foldlM_cons]
    have hstep : (Concurrent.machine reserved).step ⟨{ s with db := db },
        .finishing (a :: todo)⟩ .finish =
        some ⟨{ s with db := a.run db }, .finishing todo⟩ := by
      simp [Concurrent.machine, Concurrent.step, hfree]
    rw [hstep]
    exact ih (a.run db)

/-- Without readers the lock stays as it is while the batch is worked out. -/
theorem prepare_quiet (reserved : List Bytes) (call : WriterCall) :
    ∃ db w, prepare reserved s [] call = ⟨{ s with db := db }, w⟩ ∧
      ∀ todo, w ≠ .finishing todo := by
  cases call with
  | processBlock block height blockundo =>
    simp only [prepare]
    split_ifs
    · exact ⟨s.db, .idle, rfl, fun _ => Writer.noConfusion⟩
    · have hwalk := walk_simulation (R := Quiet s) (f := interleavedOp) (g := pendingOp)
        (fun p q site op _ h => interleavedOp_quiet s p q site op h) reserved height block blockundo
        (s := ⟨s, [], [], .empty⟩) (t := ⟨s.db, [], .empty⟩) rfl
      rw [show (walkBlock interleavedOp reserved height block blockundo ⟨s, [], [], .empty⟩).state =
        _ from hwalk.state]
      exact ⟨_, _, rfl, fun _ => Writer.noConfusion⟩
  | disconnectBlock block height =>
    simp only [prepare]
    split_ifs
    · exact ⟨s.db, .idle, rfl, fun _ => Writer.noConfusion⟩
    · cases s.db.records.read (.blockTokens height) with
      | none => exact ⟨s.db, .idle, rfl, fun _ => Writer.noConfusion⟩
      | some txids =>
        have hundo := undoTxs_quiet s height (dedupTxids txids).reverse { db := s.db }
        rw [show (⟨{ s with db := s.db }, [], { db := s.db }⟩ : InterleavedUndo) =
          ⟨s, [], { db := s.db }⟩ from rfl] at hundo
        dsimp only
        rw [hundo]
        exact ⟨_, _, rfl, fun _ => Writer.noConfusion⟩

/-- **A call that nobody interrupts** is taken in steps and ends in the database of the sequential
model. -/
theorem call_alone (reserved : List Bytes) (hfree : s.mCs = none) (call : WriterCall) :
    ∃ actions, (Concurrent.machine reserved).steps ⟨s, .idle⟩ (.begin call [] :: actions) =
      some ⟨{ s with db := call.run reserved s.db }, .idle⟩ := by
  have hcomplete := complete_prepare s reserved call
  obtain ⟨db, w, hprepare, hw⟩ := prepare_quiet s reserved call
  have hbegin : ∀ actions,
      (Concurrent.machine reserved).steps ⟨s, .idle⟩ (.begin call [] :: actions) =
      (Concurrent.machine reserved).steps ⟨{ s with db := db }, w⟩ actions := by
    intro actions
    rw [← hprepare]
    rfl
  rw [hprepare] at hcomplete
  cases w with
  | idle =>
    refine ⟨[], ?_⟩
    rw [hbegin, ← hcomplete]
    rfl
  | finishing todo => exact absurd rfl (hw todo)
  | writing batch after =>
    cases hfails : db.mDb.writeFails with
    | true =>
      refine ⟨[.commit true], ?_⟩
      rw [hbegin, ← hcomplete]
      simp only [Concurrent.complete, Database.commit_error hfails]
      rfl
    | false =>
      refine ⟨.commit false :: List.replicate (after.length + 1) .finish, ?_⟩
      rw [hbegin, ← hcomplete]
      simp only [Concurrent.complete, Database.commit_ok hfails]
      exact finish_steps s reserved hfree after _

end Alone

end OpenSY.Tokens
