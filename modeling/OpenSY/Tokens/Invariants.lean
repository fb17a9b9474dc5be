import OpenSY.Tokens.Reachable

/-!
# What holds in every database a node can reach

* `supply_conserved` — the balances of a token add up to its circulating supply;
* `holderIndex_coherent` — balances, holder index and token lists agree, and the holder count counts
  the holders;
* `ticker_bijective` — tickers and tokens belong to each other one to one;
* `history_complete` — the transfer history accounts for every balance, every burn and the transfer
  count;
* `processBlock_refines_immediate` — a block processed through overlay and batch leaves the token
  records that single committed calls leave.
-/

namespace OpenSY.Tokens

open OpenSY.Chain OpenSY.Src20 OpenSY.KeyValueStore OpenSY.FiniteTotal

variable {nHeight : Uint256 → ℕ} {root : Uint256} {chain : List BlockEntry} {db : TokenDB}

theorem Reach.storeSound (h : Reach nHeight root chain db) : StoreSound db.records := by
  obtain ⟨r, rs, htr⟩ := h.tracks
  exact htr.storeSound

theorem Reach.cacheCoherent (h : Reach nHeight root chain db) : CacheCoherent db := by
  obtain ⟨r, rs, htr⟩ := h.tracks
  exact htr.cache

theorem Reach.writable (h : Reach nHeight root chain db) : db.mDb.writeFails = false := by
  obtain ⟨r, rs, htr⟩ := h.tracks
  exact htr.writable

theorem Reach.historyComplete (h : Reach nHeight root chain db) :
    HistoryComplete db.records.ledger := by
  obtain ⟨r, rs, htr⟩ := h.tracks
  rw [htr.ledger]
  exact htr.grown.historyComplete

theorem Reach.books (h : Reach nHeight root chain db) {t : TokenId} {i : TokenInfo}
    (hi : db.records.info t = some i) : Books (fun a => db.getBalance a t) i := by
  have hbooks := h.storeSound.ledger.books t
  have hli : db.records.ledger.info t = some i := hi
  rw [hli] at hbooks
  exact hbooks

theorem Reach.balance_unregistered (h : Reach nHeight root chain db) {t : TokenId}
    (hnone : db.records.info t = none) (a : CScript) : db.getBalance a t = 0 := by
  have hbooks := h.storeSound.ledger.books t
  have hli : db.records.ledger.info t = none := hnone
  rw [hli] at hbooks
  exact hbooks a

/-! ### Supply -/

/-- **Token conservation.**  The balances of a registered token add up to its circulating supply,
which its total supply bounds; of an unregistered token nobody holds anything. -/
theorem supply_conserved (h : Reach nHeight root chain db) (t : TokenId) :
    (∀ i, db.records.info t = some i →
      (Function.support fun a => db.getBalance a t).Finite ∧
      ∑ᶠ a, db.getBalance a t = i.circulatingSupply ∧
      i.circulatingSupply ≤ i.totalSupply ∧ i.totalSupply ≤ int64Max) ∧
    (db.records.info t = none → ∀ a, db.getBalance a t = 0) := by
  refine ⟨fun i hi => ?_, h.balance_unregistered⟩
  have hbooks := h.books hi
  exact ⟨hbooks.supply.finite_support, hbooks.supply.finsum_eq, hbooks.circulating_le,
    hbooks.total_le⟩

theorem supply_conserved_sample :
    (Sample.moved.records.info 7).isSome = true ∧
    ((∀ i, Sample.moved.records.info 7 = some i →
      (Function.support fun a => Sample.moved.getBalance a 7).Finite ∧
      ∑ᶠ a, Sample.moved.getBalance a 7 = i.circulatingSupply ∧
      i.circulatingSupply ≤ i.totalSupply ∧ i.totalSupply ≤ int64Max) ∧
    (Sample.moved.records.info 7 = none → ∀ a, Sample.moved.getBalance a 7 = 0)) :=
  ⟨by decide +kernel, supply_conserved Sample.reach_moved 7⟩

/-! ### Holders -/

/-- **Index coherence.**  An account has its balance record, its holder entry and its place in the
token list exactly if its balance is positive, no token list is stored empty, and the holder count
of a token is the number of its holders. -/
theorem holderIndex_coherent (h : Reach nHeight root chain db) :
    (∀ a t, ((db.records.read (.balance a t)).isSome ↔ 0 < db.getBalance a t) ∧
      ((db.records.read (.tokenHolders t a)).isSome ↔ 0 < db.getBalance a t) ∧
      ((∃ S, db.records.read (.addrTokens a) = some S ∧ t ∈ S) ↔ 0 < db.getBalance a t)) ∧
    (∀ a S, db.records.read (.addrTokens a) = some S → S ≠ ∅) ∧
    (∀ t i, db.records.info t = some i →
      {a | 0 < db.getBalance a t}.Finite ∧ {a | 0 < db.getBalance a t}.ncard = i.holderCount) := by
  have hindex := h.storeSound.index
  refine ⟨fun a t => ⟨?_, ?_, ?_⟩, hindex.nonempty, fun t i hi => (h.books hi).holders.ncard_pos⟩
  · rw [hindex.read_balance]
    show _ ↔ 0 < db.records.balance a t
    split_ifs with hpos <;> simp [hpos]
  · rw [hindex.holders]
    show _ ↔ 0 < db.records.balance a t
    split_ifs with hpos <;> simp [hpos]
  · show _ ↔ 0 < db.records.balance a t
    rw [← hindex.listed a t]
    cases hread : db.records.read (.addrTokens a) with
    | none => simp [Records.addrTokens, hread]
    | some S => simp [Records.addrTokens, hread]

theorem holderIndex_coherent_sample :
    0 < Sample.moved.getBalance Sample.bob 7 ∧
    ((Sample.moved.records.read (.tokenHolders 7 Sample.bob)).isSome ↔
      0 < Sample.moved.getBalance Sample.bob 7) :=
  ⟨by decide +kernel, ((holderIndex_coherent Sample.reach_moved).1 Sample.bob 7).2.1⟩

/-! ### Tickers -/

/-- **The ticker index is a bijection** between the stored tickers and the registered tokens, and a
lookup by ticker finds the token through the cache. -/
theorem ticker_bijective (h : Reach nHeight root chain db) :
    (∀ k t, db.records.read (.ticker k) = some t →
      ∃ i, db.records.info t = some i ∧ i.ticker = k) ∧
    (∀ t i, db.records.info t = some i →
      i.tokenId = t ∧ db.records.read (.ticker i.ticker) = some t) ∧
    (∀ t t' i i', db.records.info t = some i → db.records.info t' = some i' →
      i.ticker = i'.ticker → t = t') ∧
    (∀ t i, db.records.info t = some i → (db.getTokenByTicker i.ticker).1 = some i) := by
  have hledger := h.storeSound.ledger
  have hticker : ∀ t i, db.records.info t = some i →
      db.records.read (.ticker i.ticker) = some t := hledger.ticker_of_info
  refine ⟨hledger.info_of_ticker, fun t i hi => ⟨(hledger.filed t i hi).1, hticker t i hi⟩,
    fun t t' i i' hi hi' hsame => ?_, fun t i hi => ?_⟩
  · have hsome := hticker t i hi
    rw [hsame, hticker t' i' hi'] at hsome
    exact (Option.some.inj hsome).symm
  · unfold TokenDB.getTokenByTicker
    rw [hticker t i hi]
    exact (readTokenInfo_fst h.cacheCoherent h.storeSound.infoWF t).trans hi

theorem ticker_bijective_sample :
    Sample.moved.records.read (.ticker Sample.issuance.ticker) = some 7 ∧
    ∃ i, Sample.moved.records.info 7 = some i ∧ i.ticker = Sample.issuance.ticker :=
  ⟨by decide +kernel, (ticker_bijective Sample.reach_moved).1 _ 7 (by decide +kernel)⟩

/-! ### History -/

/-- The transfer record of a token at a place. -/
def TokenDB.historyAt (db : TokenDB) (t : TokenId) (k : HistoryKey) : Option TokenTransferRecord :=
  db.records.read (.transfer t k.1 k.2.1 k.2.2)

theorem historyAt_finite (db : TokenDB) (t : TokenId) :
    {k | (db.historyAt t k).isSome}.Finite := by
  refine Set.Finite.preimage (f := fun k : HistoryKey => Key.transfer t k.1 k.2.1 k.2.2) ?_
    (finite_stored db.records)
  rintro ⟨h, x, i⟩ - ⟨h', x', i'⟩ - heq
  simpa using heq

theorem moves_ncard {hist : HistoryKey → Option TokenTransferRecord} {n : ℕ}
    (h : HasTotal (weigh isMove hist) n) :
    {k | ∃ x, hist k = some x ∧ x.fromAddress ≠ [] ∧ x.toAddress ≠ []}.ncard = n := by
  have hmark : HasTotal (fun k => if 0 < weigh isMove hist k then 1 else 0) n :=
    h.congr fun k => by
      cases hk : hist k with
      | none => simp [weigh, hk]
      | some x =>
        simp only [weigh, hk, isMove, Option.map_some, Option.getD_some]
        split_ifs <;> simp_all
  rw [← hmark.ncard_pos.2]
  congr 1
  ext k
  cases hk : hist k with
  | none => simp [weigh, hk]
  | some x =>
    simp only [Set.mem_ofPred_eq, hk, Option.some.injEq, exists_eq_left', weigh, Option.map_some,
      Option.getD_some, isMove]
    split_ifs with hmove <;> simp [hmove]

/-- **The transfer history is a complete ledger.**  What an address received minus what it sent is
its balance, the records without recipient add up to what was burned, and the transfer count is the
number of records between two addresses. -/
theorem history_complete (h : Reach nHeight root chain db) (t : TokenId) :
    {k | (db.historyAt t k).isSome}.Finite ∧
    (∀ a, a ≠ [] → ∑ᶠ k, weigh (receivedBy a) (db.historyAt t) k =
      db.getBalance a t + ∑ᶠ k, weigh (sentBy a) (db.historyAt t) k) ∧
    (∀ i, db.records.info t = some i →
      ∑ᶠ k, weigh (receivedBy []) (db.historyAt t) k + i.circulatingSupply = i.totalSupply ∧
      {k | ∃ x, db.historyAt t k = some x ∧ x.fromAddress ≠ [] ∧ x.toAddress ≠ []}.ncard =
        i.transferCount) := by
  refine ⟨historyAt_finite db t, ?_, ?_⟩
  · intro a ha
    have hhist := h.historyComplete t
    cases hi : db.records.info t with
    | none =>
      have hli : db.records.ledger.info t = none := hi
      rw [hli] at hhist
      have hzero : ∀ w, ∑ᶠ k, weigh w (db.historyAt t) k = 0 :=
        fun w => (weigh_none w hhist).finsum_eq
      rw [hzero, hzero, h.balance_unregistered hi a]
    | some i =>
      have hli : db.records.ledger.info t = some i := hi
      rw [hli] at hhist
      obtain ⟨m, hsent, hreceived⟩ := HistoryBooks.accounts hhist a ha
      exact hreceived.finsum_eq.trans (congrArg _ hsent.finsum_eq.symm)
  · intro i hi
    have hhist := h.historyComplete t
    have hli : db.records.ledger.info t = some i := hi
    rw [hli] at hhist
    have hburned := (HistoryBooks.burned hhist).finsum_eq
    have hle := (h.books hi).circulating_le
    refine ⟨?_, moves_ncard (HistoryBooks.moves hhist)⟩
    change ∑ᶠ k, weigh (receivedBy []) (db.historyAt t) k = _ at hburned
    omega

theorem history_complete_sample :
    Sample.bob ≠ [] ∧ ∑ᶠ k, weigh (receivedBy Sample.bob) (Sample.moved.historyAt 7) k =
      Sample.moved.getBalance Sample.bob 7 +
        ∑ᶠ k, weigh (sentBy Sample.bob) (Sample.moved.historyAt 7) k :=
  ⟨by decide, (history_complete Sample.reach_moved 7).2.1 Sample.bob (by decide)⟩

/-! ### One commit or many -/

/-- **The batched path refines the plain path.**  Processing any block that is not the best block
already, through the overlay into one batch, leaves the same token records and accepts as many
operations as committing every `registerToken`, `transferTokens` and `burnTokens` call on its own.
-/
theorem processBlock_refines_immediate (h : Reach nHeight root chain db) (reserved : List Bytes)
    {block : CBlock} (height : ℕ) (blockundo : CBlockUndo) (hbest : db.getBestBlock ≠ block.hash) :
    (processBlock reserved db block height blockundo).2 =
        .ok (walkBlock immediateOp reserved height block blockundo db).opsCount ∧
      ∀ k, IsTokenKey k → (processBlock reserved db block height blockundo).1.records.read k =
        (walkBlock immediateOp reserved height block blockundo db).state.records.read k := by
  obtain ⟨hresult, hmDb, -⟩ := processBlock_spec h.cacheCoherent h.storeSound h.writable reserved
    height blockundo hbest
  have himmediate := walk_simulation (R := ImmediateSim) (f := immediateOp) (g := plainOp)
    (fun p r site op hop hsim => immediateOp_refines hsim site hop) reserved height block blockundo
    ⟨.refl _ _, h.cacheCoherent, h.writable, h.storeSound⟩
  refine ⟨by rw [hresult, himmediate.opsCount], ?_⟩
  intro k hk
  rw [TokenDB.records, hmDb, himmediate.state.records k hk]
  exact agreeOn_blockStore reserved db.records block height blockundo k hk

theorem processBlock_refines_immediate_sample :
    Sample.issued.getBestBlock ≠ Sample.moveEntry.block.hash ∧
    Sample.moved.records.read (.balance Sample.bob 7) = (walkBlock immediateOp [] 2
      Sample.moveEntry.block Sample.moveEntry.blockundo Sample.issued).state.records.read
        (.balance Sample.bob 7) :=
  ⟨by decide +kernel, (processBlock_refines_immediate Sample.reach_issued [] 2
    Sample.moveEntry.blockundo (by decide +kernel)).2 _ trivial⟩

end OpenSY.Tokens
