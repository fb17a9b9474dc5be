import OpenSY.Tokens.Semantics

/-!
# Both modes of an operation refine the plain semantics

`OverlayView base o r` says that reading through the overlay `o` on top of the committed records
`base` shows the store `r`.  A block in progress stands for the store its batch would produce, and
every read goes through the overlay, so the two must show the same thing after every operation.

* `pendingOp_refines` — an operation of `ProcessBlock` on a pending batch is `plainOp` on the store
  the batch stands for;
* `immediateOp_refines` — a standalone operation is `plainOp` on the committed records, up to the
  undo record it does not write;
* `walk_simulation` — related ways of applying single operations stay related over a whole block,
  and accept the same operations.
-/

namespace OpenSY.Tokens

open OpenSY.Chain OpenSY.Src20 OpenSY.KeyValueStore OpenSY.RecencyCache OpenSY.Ordered

/-! ### Reading through the overlay -/

structure OverlayView (base : Records) (o : BalanceOverlay) (r : Records) : Prop where
  balance : ∀ a t, (o.balances.lookup (a, t)).getD (base.balance a t) = r.balance a t
  addrTokens : ∀ a, (o.addrTokens.lookup a).getD (base.addrTokens a) = r.addrTokens a
  info : ∀ t, (o.tokenInfos.find t).or (base.info t) = r.info t
  ticker : ∀ k, (base.read (.ticker k)).isSome ∨ k ∈ o.pendingTickers ↔
    (r.read (.ticker k)).isSome

theorem overlayView_empty (base : Records) : OverlayView base .empty base where
  balance := fun a t => by simp [BalanceOverlay.empty]
  addrTokens := fun a => by simp [BalanceOverlay.empty]
  info := fun t => by simp [BalanceOverlay.empty]
  ticker := fun k => by simp [BalanceOverlay.empty]

/-- The families an overlay shadows. -/
def IsViewedKey : Key → Prop
  | .balance _ _ | .addrTokens _ | .tokenInfo _ | .ticker _ => True
  | _ => False

namespace OverlayView

variable {base : Records} {o : BalanceOverlay} {r : Records}

/-! A family that a write does not touch is seen as before. -/

theorem balance_frame (h : OverlayView base o r) (op : BatchOp Value)
    (hop : ∀ a t, op.key ≠ .balance a t) (a : CScript) (t : TokenId) :
    (o.balances.lookup (a, t)).getD (base.balance a t) = Records.balance (r.applyOp op) a t := by
  rw [h.balance a t, balance_applyOp_of_ne r (hop a t)]

theorem addrTokens_frame (h : OverlayView base o r) (op : BatchOp Value)
    (hop : ∀ a, op.key ≠ .addrTokens a) (a : CScript) :
    (o.addrTokens.lookup a).getD (base.addrTokens a) = Records.addrTokens (r.applyOp op) a := by
  rw [h.addrTokens a, addrTokens_applyOp_of_ne r (hop a)]

theorem info_frame (h : OverlayView base o r) (op : BatchOp Value)
    (hop : ∀ t, op.key ≠ .tokenInfo t) (t : TokenId) :
    (o.tokenInfos.find t).or (base.info t) = Records.info (r.applyOp op) t := by
  rw [h.info t, info_applyOp_of_ne r (hop t)]

theorem ticker_frame (h : OverlayView base o r) (op : BatchOp Value) (hop : ∀ k, op.key ≠ .ticker k)
    (k : Bytes) : (base.read (.ticker k)).isSome ∨ k ∈ o.pendingTickers ↔
      (Store.read (r.applyOp op) (.ticker k)).isSome := by
  rw [h.ticker k, read_applyOp_of_ne r op (hop k)]

/-- Writes to other families need no entry in the overlay. -/
theorem other (h : OverlayView base o r) (op : BatchOp Value) (hop : ¬ IsViewedKey op.key) :
    OverlayView base o (r.applyOp op) := by
  have hne : ∀ k, IsViewedKey k → op.key ≠ k := fun k hk hkey => hop (hkey ▸ hk)
  constructor
  case balance => exact h.balance_frame op fun a t => hne (.balance a t) trivial
  case addrTokens => exact h.addrTokens_frame op fun a => hne (.addrTokens a) trivial
  case info => exact h.info_frame op fun t => hne (.tokenInfo t) trivial
  case ticker => exact h.ticker_frame op fun k => hne (.ticker k) trivial

theorem setBalance (h : OverlayView base o r) (a : CScript) (t : TokenId) (v : ℕ) :
    OverlayView base (setBalanceInOverlay o a t v) (r.applyOp (balanceWrite a t v)) where
  balance := by
    intro a' t'
    rw [balance_balanceWrite]
    by_cases hk : a' = a ∧ t' = t
    · obtain ⟨rfl, rfl⟩ := hk
      simp [setBalanceInOverlay]
    · have hne : (a', t') ≠ (a, t) := by simpa using hk
      simp only [setBalanceInOverlay, Finmap.lookup_insert_of_ne _ hne, if_neg hk]
      exact h.balance a' t'
  addrTokens := h.addrTokens_frame (balanceWrite a t v) (by simp)
  info := h.info_frame (balanceWrite a t v) (by simp)
  ticker := h.ticker_frame (balanceWrite a t v) (by simp)

theorem setAddrTokens (h : OverlayView base o r) (a : CScript) (S : Finset TokenId) :
    OverlayView base (setAddrTokensInOverlay o a S) (r.applyOp (addrTokensWrite a S)) where
  balance := h.balance_frame (addrTokensWrite a S) (by simp)
  addrTokens := by
    intro a'
    rw [addrTokens_addrTokensWrite]
    by_cases hk : a' = a
    · subst hk
      simp [setAddrTokensInOverlay]
    · simp only [setAddrTokensInOverlay, Finmap.lookup_insert_of_ne _ hk, if_neg hk]
      exact h.addrTokens a'
  info := h.info_frame (addrTokensWrite a S) (by simp)
  ticker := h.ticker_frame (addrTokensWrite a S) (by simp)

theorem setInfo (h : OverlayView base o r) {t : TokenId} {j : TokenInfo} (hj : j.tokenId = t) :
    OverlayView base (setTokenInfoInOverlay o t j)
      (r.applyOp (.write (.tokenInfo j.tokenId) j)) := by
  subst hj
  constructor
  case balance => exact h.balance_frame (.write (.tokenInfo j.tokenId) j) (by simp [BatchOp.key])
  case addrTokens =>
    exact h.addrTokens_frame (.write (.tokenInfo j.tokenId) j) (by simp [BatchOp.key])
  case info =>
    intro t'
    rw [info_write_tokenInfo]
    by_cases ht : t' = j.tokenId
    · subst ht
      simp [setTokenInfoInOverlay]
    · simp only [setTokenInfoInOverlay, OrderedMap.find_insert_of_ne _ _ ht, if_neg ht]
      exact h.info t'
  case ticker => exact h.ticker_frame (.write (.tokenInfo j.tokenId) j) (by simp [BatchOp.key])

theorem addTicker (h : OverlayView base o r) (k : Bytes) (t : TokenId) :
    OverlayView base { o with pendingTickers := insert k o.pendingTickers }
      (r.applyOp (.write (.ticker k) t)) where
  balance := h.balance_frame (.write (.ticker k) t) (by simp [BatchOp.key])
  addrTokens := h.addrTokens_frame (.write (.ticker k) t) (by simp [BatchOp.key])
  info := h.info_frame (.write (.ticker k) t) (by simp [BatchOp.key])
  ticker := by
    intro k'
    rw [read_write_ticker]
    by_cases hk : k' = k
    · simp [hk]
    · simp only [Finset.mem_insert, hk, false_or, if_false]
      exact h.ticker k'

/-- Rewriting a ticker that is indexed already needs no entry in the overlay. -/
theorem rewriteTicker (h : OverlayView base o r) {k : Bytes} (t : TokenId)
    (hk : (r.read (.ticker k)).isSome) : OverlayView base o (r.applyOp (.write (.ticker k) t)) where
  balance := h.balance_frame (.write (.ticker k) t) (by simp [BatchOp.key])
  addrTokens := h.addrTokens_frame (.write (.ticker k) t) (by simp [BatchOp.key])
  info := h.info_frame (.write (.ticker k) t) (by simp [BatchOp.key])
  ticker := by
    intro k'
    rw [read_write_ticker, h.ticker k']
    split_ifs with hk'
    · subst hk'
      simp [hk]
    · rfl

theorem debit (h : OverlayView base o r) (t : TokenId) (f : CScript) (n b : ℕ)
    (S : Finset TokenId) :
    OverlayView base (senderOverlay t f n b S o) (r.writeBatch (debitWrites t f n b S)) := by
  simp only [senderOverlay, debitWrites]
  split_ifs
  · exact ((h.setBalance f t (b - n)).other (.erase (.tokenHolders t f)) not_false).setAddrTokens
      f (S.erase t)
  · exact h.setBalance f t (b - n)

theorem credit (h : OverlayView base o r) (t : TokenId) (d : CScript) {n : ℕ} (hn : 0 < n) (b : ℕ)
    (S : Finset TokenId) :
    OverlayView base (recipientOverlay t d n b S o) (r.writeBatch (creditWrites t d n b S)) := by
  have hpos : 0 < b + n := by omega
  have hbal := h.setBalance d t (b + n)
  rw [balanceWrite, if_pos hpos] at hbal
  have hheld := hbal.other (.write (.tokenHolders t d) true) not_false
  simp only [recipientOverlay, creditWrites]
  split_ifs
  · have hlist := hheld.setAddrTokens d (insert t S)
    rwa [addrTokensWrite, if_neg (Finset.insert_ne_empty t S)] at hlist
  · exact hheld

theorem info_write (h : OverlayView base o r) {t : TokenId} {info : Option TokenInfo}
    (hinfo : ∀ j, info = some j → j.tokenId = t) :
    OverlayView base (infoOverlay t info o) (r.writeBatch (infoWrite info)) := by
  cases info with
  | none => exact h
  | some j => exact h.setInfo (hinfo j rfl)

end OverlayView

/-! ### What an operation sees -/

/-- The reads of an operation, through the overlay if it has one, show the store `r`. -/
structure Sees (db : TokenDB) (overlay : Option BalanceOverlay) (r : Records) : Prop where
  balance : ∀ a t, opBalance db overlay a t = r.balance a t
  addrTokens : ∀ a, opAddrTokens db overlay a = r.addrTokens a
  info : ∀ t, (opTokenInfo db overlay t).1 = r.info t

/-- Reading a token info changes at most the cache. -/
theorem opTokenInfo_snd {db : TokenDB} (hc : CacheCoherent db) (overlay : Option BalanceOverlay)
    (t : TokenId) :
    SameData db (opTokenInfo db overlay t).2 ∧ CacheCoherent (opTokenInfo db overlay t).2 := by
  unfold opTokenInfo
  split
  · unfold getTokenInfoWithOverlay
    split
    · exact ⟨SameData.refl db, hc⟩
    · exact readTokenInfo_snd hc t
  · exact readTokenInfo_snd hc t

theorem OverlayView.sees {db : TokenDB} {o : BalanceOverlay} {r : Records}
    (h : OverlayView db.records o r) (hc : CacheCoherent db) (hw : InfoWF db.records) :
    Sees db (some o) r := by
  refine ⟨?_, ?_, ?_⟩
  · intro a t
    rw [← h.balance a t]
    simp only [opBalance, getBalanceWithOverlay]
    cases o.balances.lookup (a, t) <;> rfl
  · intro a
    rw [← h.addrTokens a]
    simp only [opAddrTokens, getAddrTokensWithOverlay]
    cases o.addrTokens.lookup a <;> rfl
  · intro t
    rw [← h.info t]
    simp only [opTokenInfo, getTokenInfoWithOverlay]
    cases o.tokenInfos.find t with
    | none => exact readTokenInfo_fst hc hw t
    | some i => rfl

theorem sees_records {db : TokenDB} (hc : CacheCoherent db) (hw : InfoWF db.records) :
    Sees db none db.records :=
  ⟨fun _ _ => rfl, fun _ => rfl, fun t => readTokenInfo_fst hc hw t⟩

/-- What a transfer does to the overlay. -/
def transferOverlay (r : Records) (t : TokenId) (f d : CScript) (n : ℕ) (o : BalanceOverlay) :
    BalanceOverlay :=
  if f = d then infoOverlay t ((r.info t).map selfTransferInfo) o
  else
    infoOverlay t ((r.info t).map (transferInfo (r.balance f t) (r.balance d t) n))
      (recipientOverlay t d n (r.balance d t) (r.addrTokens d)
        (senderOverlay t f n (r.balance f t) (r.addrTokens f) o))

/-- The overlay of the sender does not show in the reads that follow it. -/
theorem opAddrTokens_senderOverlay (db : TokenDB) (overlay : Option BalanceOverlay) (t : TokenId)
    {f d : CScript} (hfd : f ≠ d) (n b : ℕ) (S : Finset TokenId) :
    opAddrTokens db (overlay.map (senderOverlay t f n b S)) d = opAddrTokens db overlay d := by
  cases overlay with
  | none => rfl
  | some o =>
    simp only [Option.map_some, opAddrTokens, getAddrTokensWithOverlay, senderOverlay]
    split_ifs
    · rw [setAddrTokensInOverlay, Finmap.lookup_insert_of_ne _ (Ne.symm hfd)]
      rfl
    · rfl

theorem opTokenInfo_accounts (db : TokenDB) (overlay : Option BalanceOverlay) (t t' : TokenId)
    (f d : CScript) (n m b c : ℕ) (S T : Finset TokenId) :
    opTokenInfo db ((overlay.map (senderOverlay t f n b S)).map (recipientOverlay t d m c T)) t' =
      opTokenInfo db overlay t' := by
  cases overlay with
  | none => rfl
  | some o =>
    simp only [Option.map_some, opTokenInfo, getTokenInfoWithOverlay, recipientOverlay,
      senderOverlay]
    split_ifs <;> rfl

/-- **A transfer, in either mode**, is refused with nothing changed, or makes the writes of the
plain semantics and ends in `finishMove`. -/
theorem transferTokens_eq {db : TokenDB} {overlay : Option BalanceOverlay} {r : Records}
    (h : Sees db overlay r) (t : TokenId) (f d : CScript) (n : ℕ) (site : OpSite)
    (batch : Option CDBBatch) :
    transferTokens db t f d n site batch overlay =
      match opWrites r site (.transfer t f d n) with
      | none => ⟨db, batch, overlay, .ok false⟩
      | some w => finishMove (opTokenInfo db overlay t).2 batch
          (overlay.map (transferOverlay r t f d n)) w
          (r.ledger.infoAfter site (.transfer t f d n)) := by
  have hledger : ∀ t, r.ledger.info t = r.info t := fun _ => rfl
  have hbalance : ∀ t a, r.ledger.balance t a = r.balance a t := fun _ _ => rfl
  simp only [transferTokens, opWrites, h.balance, h.addrTokens, Ledger.infoAfter, hledger, hbalance]
  by_cases hzero : n = 0
  · simp [hzero]
  by_cases hfd : f = d
  · subst hfd
    by_cases hbal : r.balance f t < n
    · simp [hzero, hbal]
    · have hover : transferOverlay r t f f n =
          infoOverlay t ((r.info t).map selfTransferInfo) := by
        funext o
        simp [transferOverlay]
      simp [hzero, hbal, h.info, hover]
  · by_cases hbal : r.balance f t < n
    · simp [hzero, hfd, hbal]
    · by_cases hmax : uint64Max < r.balance d t + n
      · have hadd : checkedAdd (r.balance d t) n = none := by simp [checkedAdd, hmax]
        simp [hzero, hfd, hbal, hmax, hadd]
      · have hadd : checkedAdd (r.balance d t) n = some (r.balance d t + n) := by
          simp [checkedAdd]
          omega
        have hover : transferOverlay r t f d n = fun o =>
            infoOverlay t ((r.info t).map (transferInfo (r.balance f t) (r.balance d t) n))
              (recipientOverlay t d n (r.balance d t) (r.addrTokens d)
                (senderOverlay t f n (r.balance f t) (r.addrTokens f) o)) := by
          funext o
          simp [transferOverlay, hfd]
        simp only [hzero, hfd, hbal, hmax, hadd, if_false, hover,
          opAddrTokens_senderOverlay db overlay t hfd, h.addrTokens, opTokenInfo_accounts, h.info]
        rw [Option.map_map, Option.map_map]
        rfl

/-- A refused burn may still have looked the token up. -/
theorem burnTokens_refused {db : TokenDB} {overlay : Option BalanceOverlay} {r : Records}
    (h : Sees db overlay r) {t : TokenId} {f : CScript} {n : ℕ} {site : OpSite}
    (batch : Option CDBBatch) (hw : opWrites r site (.burn t f n) = none) :
    ∃ db', (db' = db ∨ db' = (opTokenInfo db overlay t).2) ∧
      burnTokens db t f n site batch overlay = ⟨db', batch, overlay, .ok false⟩ := by
  simp only [opWrites] at hw
  simp only [burnTokens, h.balance, h.info]
  split_ifs at hw ⊢ with hbal
  · exact ⟨db, Or.inl rfl, rfl⟩
  · refine ⟨(opTokenInfo db overlay t).2, Or.inr rfl, ?_⟩
    cases hi : r.info t with
    | none => rfl
    | some i =>
      rw [hi] at hw
      simp only at hw ⊢
      split_ifs at hw ⊢
      rfl

/-- What a burn does to the overlay. -/
def burnOverlay (r : Records) (t : TokenId) (f : CScript) (n : ℕ) (info : TokenInfo)
    (o : BalanceOverlay) : BalanceOverlay :=
  setTokenInfoInOverlay (senderOverlay t f n (r.balance f t) (r.addrTokens f) o) t info

/-- **An accepted burn, in either mode**, makes the writes of the plain semantics. -/
theorem burnTokens_accepted {db : TokenDB} {overlay : Option BalanceOverlay} {r : Records}
    (h : Sees db overlay r) (hread : ∀ t a, opAddrTokens (opTokenInfo db overlay t).2 overlay a =
      opAddrTokens db overlay a) {t : TokenId} {f : CScript} {n : ℕ} {site : OpSite}
    (batch : Option CDBBatch) {w : CDBBatch} (hw : opWrites r site (.burn t f n) = some w) :
    ∃ j, r.ledger.infoAfter site (.burn t f n) = some j ∧
      burnTokens db t f n site batch overlay =
        finishMove (opTokenInfo db overlay t).2 batch (overlay.map (burnOverlay r t f n j)) w
          (some j) := by
  obtain ⟨hbal, i, hi, hcirc, rfl⟩ := opWrites_burn_eq hw
  have hli : r.ledger.info t = some i := hi
  refine ⟨burnInfo (r.balance f t) n i, ?_, ?_⟩
  · simp only [Ledger.infoAfter, hli, Option.map_some]
    rfl
  · simp only [burnTokens, h.balance, h.info, hi, hread, h.addrTokens, if_neg (not_lt.mpr hbal),
      if_neg (not_lt.mpr hcirc)]
    rfl

/-- **An issuance, in either mode.**  The two existence checks are hypotheses, since a database and
an overlay answer them in different ways. -/
theorem registerToken_eq {db : TokenDB} {overlay : Option BalanceOverlay} {r : Records}
    (h : Sees db overlay r) (issuance : TokenIssuance) (issuer : CScript) (site : OpSite)
    (hticker : db.tickerExists issuance.ticker = (r.read (.ticker issuance.ticker)).isSome)
    (hexists : (db.tokenExists site.txid ||
      overlay.any fun o => (o.tokenInfos.find site.txid).isSome) = (r.info site.txid).isSome)
    (batch : Option CDBBatch) :
    registerToken db issuance issuer site batch overlay =
      match opWrites r site (.issue issuance issuer) with
      | none => ⟨db, batch, overlay, .ok none⟩
      | some w =>
        let overlay := overlay.map (issueOverlay issuance issuer site (r.addrTokens issuer))
        match batch with
        | some batch => ⟨db, some (batch ++ w), overlay, .ok (some site.txid)⟩
        | none =>
          match db.mDb.commit w with
          | .error _ => ⟨db, none, overlay, .ok none⟩
          | .ok mDb =>
            ⟨({ db with mDb := mDb }.updateCache (issueInfo issuance site)).countToken, none,
              overlay, .ok (some site.txid)⟩ := by
  simp only [registerToken, opWrites, hticker, h.addrTokens]
  by_cases hk : (r.read (.ticker issuance.ticker)).isSome
  · simp [hk]
  · cases hdb : db.tokenExists site.txid with
    | true =>
      rw [hdb, Bool.true_or] at hexists
      simp [hk, ← hexists]
    | false =>
      rw [hdb, Bool.false_or] at hexists
      by_cases hi : (r.info site.txid).isSome
      · simp [hk, hexists, hi]
      · cases batch with
        | none =>
          cases hcommit : db.mDb.commit (issueWrites issuance issuer site (r.addrTokens issuer)) <;>
            simp [hk, hexists, hi, hcommit]
        | some b => simp [hk, hexists, hi]

theorem OverlayView.transfer {base : Records} {o : BalanceOverlay} {r : Records}
    (h : OverlayView base o r) (hwf : InfoWF r) {t : TokenId} {f d : CScript} {n : ℕ}
    {site : OpSite} (hpos : 0 < n) {w : CDBBatch}
    (hw : opWrites r site (.transfer t f d n) = some w) :
    OverlayView base (transferOverlay r t f d n o) (r.writeBatch w) := by
  obtain ⟨-, -, ⟨hfd, rfl⟩ | ⟨hfd, -, rfl⟩⟩ := opWrites_transfer_eq hw
  · rw [transferOverlay, if_pos hfd, selfTransferWrites, writeBatch_cons]
    refine (h.other (transferWrite site t f f n) not_false).info_write ?_
    intro j hj
    obtain ⟨i, hi, rfl⟩ := Option.map_eq_some_iff.mp hj
    exact (hwf t i hi).1
  · rw [transferOverlay, if_neg hfd, transferWrites, writeBatch_append, writeBatch_append,
      writeBatch_cons]
    refine (((h.debit t f n _ _).credit t d hpos _ _).other (transferWrite site t f d n)
      not_false).info_write ?_
    intro j hj
    obtain ⟨i, hi, rfl⟩ := Option.map_eq_some_iff.mp hj
    rw [transferInfo_eq]
    exact (hwf t i hi).1

/-- A burn writes the holder entry where a transfer does not, which no overlay shows. -/
theorem OverlayView.burnDebit {base : Records} {o : BalanceOverlay} {r : Records}
    (h : OverlayView base o r) (t : TokenId) (f : CScript) (n b : ℕ) (S : Finset TokenId) :
    OverlayView base (senderOverlay t f n b S o) (r.writeBatch (writeBalanceToBatch f t (b - n) ++
      if b = n then [addrTokensWrite f (S.erase t)] else [])) := by
  have hheld := (h.setBalance f t (b - n)).other (holderWrite f t (b - n))
    (by rw [holderWrite_key]; exact not_false)
  simp only [senderOverlay]
  split_ifs
  · exact hheld.setAddrTokens f (S.erase t)
  · exact hheld

theorem senderOverlay_pendingTickers (t : TokenId) (f : CScript) (n b : ℕ) (S : Finset TokenId)
    (o : BalanceOverlay) : (senderOverlay t f n b S o).pendingTickers = o.pendingTickers := by
  unfold senderOverlay
  split_ifs <;> rfl

theorem OverlayView.burn {base : Records} {o : BalanceOverlay} {r : Records}
    (h : OverlayView base o r) (hs : StoreSound r) {t : TokenId} {f : CScript} {n : ℕ}
    {site : OpSite} {w : CDBBatch} (hw : opWrites r site (.burn t f n) = some w) {j : TokenInfo}
    (hj : r.ledger.infoAfter site (.burn t f n) = some j) :
    OverlayView base (burnOverlay r t f n j o) (r.writeBatch w) := by
  obtain ⟨-, i, hi, -, rfl⟩ := opWrites_burn_eq hw
  have hli : r.ledger.info t = some i := hi
  obtain rfl : burnInfo (r.balance f t) n i = j := by
    simp only [Ledger.infoAfter, hli, Option.map_some] at hj
    exact Option.some.inj hj
  rw [burnWrites, writeBatch_append, writeBatch_append, burnOverlay]
  have hdebit := h.burnDebit t f n (r.balance f t) (r.addrTokens f)
  -- the ticker of a registered token is in the index, whatever has been written to the account
  have hticker : (Store.read (r.writeBatch (writeBalanceToBatch f t (r.balance f t - n) ++
      if r.balance f t = n then [addrTokensWrite f ((r.addrTokens f).erase t)] else []))
      (.ticker i.ticker)).isSome := by
    rw [← hdebit.ticker, senderOverlay_pendingTickers, h.ticker]
    have hindexed : r.read (.ticker i.ticker) = some t := hs.ledger.ticker_of_info t i hli
    simp [hindexed]
  have hid : (burnInfo (r.balance f t) n i).tokenId = t := by
    rw [burnInfo_eq]
    exact (hs.ledger.filed t i hli).1
  refine ((hdebit.setInfo hid).rewriteTicker _ ?_).other (transferWrite site t f [] n) not_false
  rw [read_write_of_ne _ _ (by simp), burnInfo_eq]
  exact hticker

/-! ### Operations on a pending batch -/

/-- The block in progress stands for the store `r`; nothing has been committed since `db₀`. -/
structure PendingSim (db₀ : TokenDB) (p : PendingBlock) (r : Records) : Prop where
  data : SameData db₀ p.db
  cache : CacheCoherent p.db
  batch : Store.writeBatch p.db.records p.batch = r
  view : OverlayView p.db.records p.overlay r
  base : InfoWF p.db.records
  sound : StoreSound r

namespace PendingSim

variable {db₀ : TokenDB} {p : PendingBlock} {r : Records}

theorem sees (h : PendingSim db₀ p r) : Sees p.db (some p.overlay) r :=
  h.view.sees h.cache h.base

/-- Only the cache has changed. -/
theorem touch (h : PendingSim db₀ p r) {db' : TokenDB} (hdata : SameData p.db db')
    (hc : CacheCoherent db') : PendingSim db₀ { p with db := db' } r := by
  have hrecords : db'.records = p.db.records := congrArg Database.records hdata.mDb
  refine ⟨h.data.trans hdata, hc, ?_, ?_, ?_, h.sound⟩
  · rw [hrecords]
    exact h.batch
  · rw [hrecords]
    exact h.view
  · rw [hrecords]
    exact h.base

theorem read (h : PendingSim db₀ p r) (t : TokenId) :
    PendingSim db₀ { p with db := (opTokenInfo p.db (some p.overlay) t).2 } r :=
  let hread := opTokenInfo_snd h.cache (some p.overlay) t
  h.touch hread.1 hread.2

/-- An accepted operation and its undo record. -/
theorem accept (h : PendingSim db₀ p r) {site : OpSite} {op : TokenOp} (hop : op.WellFormed)
    {w : CDBBatch} (hw : opWrites r site op = some w) {o' : BalanceOverlay}
    (hview : OverlayView p.db.records o' (r.writeBatch w)) (u : TokenUndoRecord) :
    PendingSim db₀ (PendingBlock.addUndo ⟨p.db, p.batch ++ w, o'⟩ site u)
      (r.writeBatch (w ++ [undoWrite site u])) := by
  refine ⟨h.data, h.cache, ?_, ?_, h.base, ?_⟩
  · simp only [PendingBlock.addUndo, List.append_assoc]
    rw [writeBatch_append, h.batch]
  · rw [writeBatch_append]
    exact hview.other (undoWrite site u) not_false
  · rw [writeBatch_append]
    exact (h.sound.opWrites hop hw).congr (agreeOn_undoWrite _ site u).symm

theorem issue (h : PendingSim db₀ p r) {issuance : TokenIssuance} {issuer : CScript}
    {site : OpSite} (hop : (TokenOp.issue issuance issuer).WellFormed) :
    PendingSim db₀ (pendingOp p site (.issue issuance issuer)).1
        (plainOp r site (.issue issuance issuer)).1 ∧
      (pendingOp p site (.issue issuance issuer)).2 =
        (plainOp r site (.issue issuance issuer)).2 := by
  have hticker := h.view.ticker issuance.ticker
  by_cases hpending : issuance.ticker ∈ p.overlay.pendingTickers
  · -- seen in the block, hence in the store the block stands for
    have hsome : (r.read (.ticker issuance.ticker)).isSome := hticker.mp (Or.inr hpending)
    have hw : opWrites r site (.issue issuance issuer) = none := by simp [opWrites, hsome]
    simp only [pendingOp, plainOp, hpending, hw, if_true]
    exact ⟨h, trivial⟩
  · have hdb : p.db.tickerExists issuance.ticker =
        (r.read (.ticker issuance.ticker)).isSome := by
      rw [Bool.eq_iff_iff, ← hticker]
      simp only [hpending, or_false]
      exact Iff.rfl
    have hexists : (p.db.tokenExists site.txid ||
        (some p.overlay).any fun o => (o.tokenInfos.find site.txid).isSome) =
        (r.info site.txid).isSome := by
      rw [tokenExists_eq h.cache, ← h.view.info site.txid, Option.any_some, Bool.or_comm]
      cases p.overlay.tokenInfos.find site.txid <;> simp [Records.info]
    have hcall := registerToken_eq h.sees issuance issuer site hdb hexists (some p.batch)
    cases hw : opWrites r site (.issue issuance issuer) with
    | none =>
      rw [hw] at hcall
      simp only [pendingOp, plainOp, hw, if_neg hpending, hcall]
      exact ⟨h, trivial⟩
    | some w =>
      rw [hw] at hcall
      simp only [pendingOp, plainOp, hw, if_neg hpending, hcall]
      refine ⟨h.accept hop hw ?_ _, trivial⟩
      obtain ⟨-, -, rfl⟩ := opWrites_issue_eq hw
      have hbalance :=
          ((h.view.setInfo (t := site.txid) (j := issueInfo issuance site) rfl).addTicker
        issuance.ticker site.txid).setBalance issuer site.txid issuance.totalSupply
      rw [balanceWrite, if_pos hop.2.2.1] at hbalance
      have hlist := (hbalance.other (.write (.tokenHolders site.txid issuer) true)
        not_false).setAddrTokens issuer (insert site.txid (r.addrTokens issuer))
      rw [addrTokensWrite, if_neg (Finset.insert_ne_empty _ _)] at hlist
      exact hlist.other (transferWrite site site.txid [] issuer issuance.totalSupply) not_false

theorem transfer (h : PendingSim db₀ p r) {t : TokenId} {f d : CScript} {n : ℕ} {site : OpSite}
    (hop : (TokenOp.transfer t f d n).WellFormed) :
    PendingSim db₀ (pendingOp p site (.transfer t f d n)).1 (plainOp r site (.transfer t f d n)).1 ∧
      (pendingOp p site (.transfer t f d n)).2 = (plainOp r site (.transfer t f d n)).2 := by
  have hfrom := h.sees.balance f t
  have hto := h.sees.balance d t
  have hinfo := h.sees.info t
  have hread := h.read t
  have hcall := transferTokens_eq hread.sees t f d n site (some p.batch)
  simp only [opBalance, opTokenInfo] at hfrom hto hinfo hcall
  cases hw : opWrites r site (.transfer t f d n) with
  | none =>
    rw [hw] at hcall
    simp only [pendingOp, plainOp, hw, hcall]
    exact ⟨hread, trivial⟩
  | some w =>
    rw [hw] at hcall
    simp only [pendingOp, plainOp, hw, hcall, finishMove, hfrom, hto, hinfo]
    have hagain := hread.read t
    refine ⟨hagain.accept hop hw ?_ _, trivial⟩
    exact hagain.view.transfer h.sound.infoWF hop.1 hw

theorem burn (h : PendingSim db₀ p r) {t : TokenId} {f : CScript} {n : ℕ} {site : OpSite}
    (hop : (TokenOp.burn t f n).WellFormed) :
    PendingSim db₀ (pendingOp p site (.burn t f n)).1 (plainOp r site (.burn t f n)).1 ∧
      (pendingOp p site (.burn t f n)).2 = (plainOp r site (.burn t f n)).2 := by
  have hinfo := h.sees.info t
  have hread := h.read t
  have hbalance := hread.sees.balance f t
  have hagain := hread.read t
  simp only [opBalance, opTokenInfo] at hbalance hinfo
  cases hw : opWrites r site (.burn t f n) with
  | none =>
    obtain ⟨db', hdb', hcall⟩ := burnTokens_refused hread.sees (some p.batch) hw
    simp only [opTokenInfo] at hcall hdb'
    simp only [pendingOp, plainOp, hw, hcall]
    refine ⟨?_, trivial⟩
    rcases hdb' with rfl | rfl
    · exact hread
    · exact hagain
  | some w =>
    have hsame : ∀ t' a, opAddrTokens (opTokenInfo (opTokenInfo p.db (some p.overlay) t).2
        (some p.overlay) t').2 (some p.overlay) a =
        opAddrTokens (opTokenInfo p.db (some p.overlay) t).2 (some p.overlay) a := by
      intro t' a
      rw [(hread.read t').sees.addrTokens a, hread.sees.addrTokens a]
    obtain ⟨j, hj, hcall⟩ := burnTokens_accepted hread.sees hsame (some p.batch) hw
    simp only [opTokenInfo] at hcall
    simp only [pendingOp, plainOp, hw, hcall, finishMove, hbalance, hinfo]
    refine ⟨hagain.accept hop hw ?_ _, trivial⟩
    exact hagain.view.burn h.sound hw hj

end PendingSim

/-- **An operation of `ProcessBlock` is the plain one on the store its batch stands for.** -/
theorem pendingOp_refines {db₀ : TokenDB} {p : PendingBlock} {r : Records}
    (h : PendingSim db₀ p r) (site : OpSite) {op : TokenOp} (hop : op.WellFormed) :
    PendingSim db₀ (pendingOp p site op).1 (plainOp r site op).1 ∧
      (pendingOp p site op).2 = (plainOp r site op).2 := by
  cases op with
  | issue issuance issuer => exact h.issue hop
  | transfer t f d n => exact h.transfer hop
  | burn t f n => exact h.burn hop

theorem pendingSim_init {db : TokenDB} (hc : CacheCoherent db) (hs : StoreSound db.records) :
    PendingSim db ⟨db, [], .empty⟩ db.records :=
  ⟨SameData.refl db, hc, rfl, overlayView_empty _, hs.infoWF, hs⟩

/-! ### Standalone operations -/

/-- A database whose committed token records are those of `r`. -/
structure ImmediateSim (db : TokenDB) (r : Records) : Prop where
  records : AgreeOn IsTokenKey db.records r
  cache : CacheCoherent db
  writable : db.mDb.writeFails = false
  sound : StoreSound r

/-- **The cache stays coherent over a commit** that puts the info it wrote into the cache. -/
theorem CacheCoherent.commit {db : TokenDB} (hc : CacheCoherent db) (hs : StoreSound db.records)
    {site : OpSite} {op : TokenOp} (hop : op.WellFormed) {w : CDBBatch}
    (hw : opWrites db.records site op = some w) {j : TokenInfo}
    (hj : db.records.ledger.infoAfter site op = some j) (hid : j.tokenId = op.token site)
    {db' : TokenDB} (hrecords : db'.records = Store.writeBatch db.records w)
    (hcache : db'.mTokenCache = db.mTokenCache.insert j.tokenId j) : CacheCoherent db' := by
  have hinfo : ∀ t, Store.read db'.records (.tokenInfo t) =
      Function.update db.records.ledger.info (op.token site) (some j) t := by
    intro t
    rw [← hj, ← Ledger.apply_info, ← (writeBatch_opWrites hs hop hw).1, hrecords]
    rfl
  intro q hq
  rw [hcache] at hq
  rw [hinfo]
  rcases LRUCache.mem_insert hq with rfl | ⟨hq, hne⟩
  · simp [hid]
  · rw [Function.update_of_ne (hid ▸ hne)]
    exact hc q hq

theorem ImmediateSim.touch {db db' : TokenDB} {r : Records} (h : ImmediateSim db r)
    (hdata : SameData db db') (hc : CacheCoherent db') : ImmediateSim db' r := by
  refine ⟨?_, hc, ?_, h.sound⟩
  · rw [hdata.records]
    exact h.records
  · rw [hdata.mDb]
    exact h.writable

/-- The committed records after an accepted standalone operation. -/
theorem ImmediateSim.accept {db : TokenDB} {r : Records} (h : ImmediateSim db r) {site : OpSite}
    {op : TokenOp} (hop : op.WellFormed) {w : CDBBatch} (hw : opWrites r site op = some w)
    {db' : TokenDB} (hdb : db'.mDb = ⟨Store.writeBatch db.records w, false⟩)
    (hc : CacheCoherent db') (u : TokenUndoRecord) :
    ImmediateSim db' (r.writeBatch (w ++ [undoWrite site u])) := by
  refine ⟨?_, hc, by rw [hdb], ?_⟩
  · rw [show db'.records = Store.writeBatch db.records w from congrArg Database.records hdb,
      writeBatch_append]
    exact (h.records.writeBatch w).trans (agreeOn_undoWrite _ site u).symm
  · rw [writeBatch_append]
    exact (h.sound.opWrites hop hw).congr (agreeOn_undoWrite _ site u).symm

/-- The info an accepted operation leaves is that of its token. -/
theorem infoAfter_of_opWrites {r : Records} (hs : StoreSound r) {site : OpSite} {op : TokenOp}
    (hop : op.WellFormed) {w : CDBBatch} (hw : opWrites r site op = some w) :
    ∃ j, r.ledger.infoAfter site op = some j ∧ j.tokenId = op.token site := by
  have hacc : r.ledger.Accepts site op := (opWrites_isSome_iff r site op).mp (by simp [hw])
  have hsound := hs.ledger.apply hop hacc
  have hinfo : (r.ledger.apply site op).info (op.token site) = r.ledger.infoAfter site op := by
    rw [Ledger.apply_info, Function.update_self]
  cases hj : r.ledger.infoAfter site op with
  | some j => exact ⟨j, rfl, (hsound.filed _ j (hinfo.trans hj)).1⟩
  | none =>
    exfalso
    cases op with
    | issue issuance issuer => simp [Ledger.infoAfter] at hj
    | transfer t f d n =>
      have hpos : 0 < r.balance f t := lt_of_lt_of_le hacc.1 hacc.2.1
      obtain ⟨i, hi, -⟩ := hs.registered hpos
      have hli : r.ledger.info t = some i := hi
      simp [Ledger.infoAfter, hli] at hj
    | burn t f n =>
      obtain ⟨-, i, hi, -⟩ := hacc
      simp [Ledger.infoAfter, hi] at hj

@[simp] theorem countTransfer_mDb (db : TokenDB) : db.countTransfer.mDb = db.mDb := by
  unfold TokenDB.countTransfer
  split_ifs <;> rfl

@[simp] theorem countTransfer_cache (db : TokenDB) :
    db.countTransfer.mTokenCache = db.mTokenCache := by
  unfold TokenDB.countTransfer
  split_ifs <;> rfl

@[simp] theorem countToken_mDb (db : TokenDB) : db.countToken.mDb = db.mDb := by
  unfold TokenDB.countToken
  split_ifs <;> rfl

@[simp] theorem countToken_cache (db : TokenDB) : db.countToken.mTokenCache = db.mTokenCache := by
  unfold TokenDB.countToken
  split_ifs <;> rfl

/-- A standalone move on working storage commits its writes and caches the new info. -/
theorem finishMove_commit {db : TokenDB} (hfails : db.mDb.writeFails = false)
    (overlay : Option BalanceOverlay) (w : CDBBatch) (j : TokenInfo) :
    (finishMove db none overlay w (some j)).result = .ok true ∧
      (finishMove db none overlay w (some j)).db.mDb = ⟨Store.writeBatch db.records w, false⟩ ∧
      (finishMove db none overlay w (some j)).db.mTokenCache =
        db.mTokenCache.insert j.tokenId j := by
  have hcommit : (db.updateCache j).mDb.commit w = .ok ⟨Store.writeBatch db.records w, false⟩ :=
    Database.commit_ok hfails w
  simp only [finishMove, hcommit, countTransfer_mDb, countTransfer_cache]
  exact ⟨trivial, trivial, rfl⟩

/-- The end of a standalone move, on the database as its reads have left it. -/
theorem ImmediateSim.finishMove {db : TokenDB} {r : Records} (h : ImmediateSim db r)
    {site : OpSite} {op : TokenOp} (hop : op.WellFormed) {w : CDBBatch}
    (hw : opWrites r site op = some w) {j : TokenInfo}
    (hj : db.records.ledger.infoAfter site op = some j) (u : TokenUndoRecord)
    (overlay : Option BalanceOverlay) :
    ImmediateSim (finishMove db none overlay w (some j)).db
      (r.writeBatch (w ++ [undoWrite site u])) := by
  obtain ⟨-, hdb, hcache⟩ := finishMove_commit h.writable overlay w j
  have hs : StoreSound db.records := h.sound.congr h.records.symm
  have hw' : opWrites db.records site op = some w := by rw [opWrites_congr h.records, hw]
  obtain ⟨j', hj', hid⟩ := infoAfter_of_opWrites hs hop hw'
  obtain rfl : j' = j := Option.some.inj (hj'.symm.trans hj)
  exact h.accept hop hw hdb
    (h.cache.commit hs hop hw' hj hid (congrArg Database.records hdb) hcache) u

section Standalone

variable {db : TokenDB} {r : Records} (site : OpSite)

theorem ImmediateSim.sees (h : ImmediateSim db r) : Sees db none db.records :=
  sees_records h.cache (h.sound.congr h.records.symm).infoWF

theorem ImmediateSim.issue (h : ImmediateSim db r) {issuance : TokenIssuance} {issuer : CScript}
    (hop : (TokenOp.issue issuance issuer).WellFormed) :
    ImmediateSim (immediateOp db site (.issue issuance issuer)).1
      (plainOp r site (.issue issuance issuer)).1 ∧
      (immediateOp db site (.issue issuance issuer)).2 =
        (plainOp r site (.issue issuance issuer)).2 := by
  have hsame := opWrites_congr h.records site (.issue issuance issuer)
  have hcall := registerToken_eq h.sees issuance issuer site
    rfl (by rw [tokenExists_eq h.cache, Option.any_none, Bool.or_false]; rfl) none
  rw [hsame] at hcall
  cases hw : opWrites r site (.issue issuance issuer) with
  | none =>
    rw [hw] at hcall
    simp only [immediateOp, plainOp, hw, hcall]
    exact ⟨h, trivial⟩
  | some w =>
    simp only [hw, Database.commit_ok h.writable w] at hcall
    simp only [immediateOp, plainOp, hw, hcall]
    refine ⟨h.accept hop hw ?_ ?_ _, trivial⟩
    · rw [countToken_mDb]
      rfl
    · refine h.cache.commit (h.sound.congr h.records.symm) hop (hsame.trans hw)
        (j := issueInfo issuance site) rfl rfl ?_ ?_
      · rw [TokenDB.records, countToken_mDb]
        rfl
      · rw [countToken_cache]
        rfl

theorem ImmediateSim.transfer (h : ImmediateSim db r) {t : TokenId} {f d : CScript} {n : ℕ}
    (hop : (TokenOp.transfer t f d n).WellFormed) :
    ImmediateSim (immediateOp db site (.transfer t f d n)).1
      (plainOp r site (.transfer t f d n)).1 ∧
      (immediateOp db site (.transfer t f d n)).2 = (plainOp r site (.transfer t f d n)).2 := by
  have hsame := opWrites_congr h.records site (.transfer t f d n)
  have hcall := transferTokens_eq h.sees t f d n site none
  have hread := opTokenInfo_snd h.cache none t
  rw [hsame] at hcall
  cases hw : opWrites r site (.transfer t f d n) with
  | none =>
    rw [hw] at hcall
    simp only [immediateOp, plainOp, hw, hcall]
    exact ⟨h, trivial⟩
  | some w =>
    obtain ⟨j, hj, -⟩ := infoAfter_of_opWrites (h.sound.congr h.records.symm) hop (hsame.trans hw)
    have htouch := h.touch hread.1 hread.2
    simp only [hw, hj] at hcall
    simp only [immediateOp, plainOp, hw, hcall, Option.map_none,
      (finishMove_commit htouch.writable none w j).1]
    refine ⟨htouch.finishMove hop hw ?_ _ none, trivial⟩
    rw [hread.1.records]
    exact hj

theorem ImmediateSim.burn (h : ImmediateSim db r) {t : TokenId} {f : CScript} {n : ℕ}
    (hop : (TokenOp.burn t f n).WellFormed) :
    ImmediateSim (immediateOp db site (.burn t f n)).1 (plainOp r site (.burn t f n)).1 ∧
      (immediateOp db site (.burn t f n)).2 = (plainOp r site (.burn t f n)).2 := by
  have hsame := opWrites_congr h.records site (.burn t f n)
  have hread := opTokenInfo_snd h.cache none t
  have htouch := h.touch hread.1 hread.2
  cases hw : opWrites r site (.burn t f n) with
  | none =>
    obtain ⟨db', hdb', hcall⟩ := burnTokens_refused h.sees none (hsame.trans hw)
    simp only [immediateOp, plainOp, hw, hcall]
    refine ⟨?_, trivial⟩
    rcases hdb' with rfl | rfl
    · exact h
    · exact htouch
  | some w =>
    have haddr : ∀ t' a, opAddrTokens (opTokenInfo db none t').2 none a =
        opAddrTokens db none a := by
      intro t' a
      simp only [opAddrTokens]
      rw [(opTokenInfo_snd h.cache none t').1.records]
    obtain ⟨j, hj, hcall⟩ := burnTokens_accepted h.sees haddr none (hsame.trans hw)
    simp only [immediateOp, plainOp, hw, hcall, Option.map_none,
      (finishMove_commit htouch.writable none w j).1]
    refine ⟨htouch.finishMove hop hw ?_ _ none, trivial⟩
    rw [hread.1.records]
    exact hj

end Standalone

/-- **A standalone operation is the plain one on the committed records.** -/
theorem immediateOp_refines {db : TokenDB} {r : Records} (h : ImmediateSim db r) (site : OpSite)
    {op : TokenOp} (hop : op.WellFormed) :
    ImmediateSim (immediateOp db site op).1 (plainOp r site op).1 ∧
      (immediateOp db site op).2 = (plainOp r site op).2 := by
  cases op with
  | issue issuance issuer => exact h.issue site hop
  | transfer t f d n => exact h.transfer site hop
  | burn t f n => exact h.burn site hop

/-! ### From operations to blocks -/

/-- Two walks stand at the same point, in related states. -/
structure WalkRel {σ τ : Type} (R : σ → τ → Prop) (w : Walk σ) (v : Walk τ) : Prop where
  state : R w.state v.state
  opsCount : w.opsCount = v.opsCount
  issueCount : w.issueCount = v.issueCount
  txfrCount : w.txfrCount = v.txfrCount
  blockTokenTxs : w.blockTokenTxs = v.blockTokenTxs

/-- The same inside a transaction. -/
structure TxWalkRel {σ τ : Type} (R : σ → τ → Prop) (w : TxWalk σ) (v : TxWalk τ) : Prop where
  walk : WalkRel R w.toWalk v.toWalk
  txOpIndex : w.txOpIndex = v.txOpIndex
  issueCountThisTx : w.issueCountThisTx = v.issueCountThisTx

section WalkSimulation

variable {σ τ : Type} {R : σ → τ → Prop} {f : σ → OpSite → TokenOp → σ × Bool}
  {g : τ → OpSite → TokenOp → τ × Bool}

theorem TxWalkRel.accept {w : TxWalk σ} {v : TxWalk τ} (h : TxWalkRel R w v) {s : σ} {t : τ}
    (hst : R s t) (txid : Uint256) (op : TokenOp) :
    TxWalkRel R (w.accept s txid op) (v.accept t txid op) := by
  obtain ⟨⟨-, h1, h2, h3, h4⟩, h5, h6⟩ := h
  cases op <;>
    exact ⟨⟨hst, by simp [TxWalk.accept, h1], by simp [TxWalk.accept, h2],
      by simp [TxWalk.accept, h3], by simp [TxWalk.accept, h4]⟩,
      by simp [TxWalk.accept, h5], by simp [TxWalk.accept, h6]⟩

variable (hstep : ∀ s t site op, op.WellFormed → R s t →
  R (f s site op).1 (g t site op).1 ∧ (f s site op).2 = (g t site op).2)

include hstep

theorem TxWalkRel.walkOp {w : TxWalk σ} {v : TxWalk τ} (h : TxWalkRel R w v)
    (reserved : List Bytes) (height : ℕ) (time : ℤ) (tx : CTransaction) (txundo : CTxUndo)
    (op : SRC20Operation) :
    TxWalkRel R (walkOp f reserved height time tx txundo w op)
      (walkOp g reserved height time tx txundo v op) := by
  simp only [Tokens.walkOp, h.walk.opsCount, h.issueCountThisTx, h.txOpIndex]
  split_ifs with hfull
  · exact h
  · split
    · exact h
    · rename_i req hreq
      obtain ⟨hrel, hflag⟩ := hstep w.state v.state ⟨tx.hash, height, time, v.txOpIndex⟩ req
        (request_wellFormed hreq) h.walk.state
      rw [hflag]
      split_ifs
      · exact h.accept hrel tx.hash req
      · exact ⟨⟨hrel, rfl, h.walk.issueCount, h.walk.txfrCount, h.walk.blockTokenTxs⟩, rfl, rfl⟩

theorem WalkRel.walkTx {w : Walk σ} {v : Walk τ} (h : WalkRel R w v) (reserved : List Bytes)
    (height : ℕ) (time : ℤ) (blockundo : CBlockUndo) (i : ℕ) (tx : CTransaction) :
    WalkRel R (walkTx f reserved height time blockundo w i tx)
      (walkTx g reserved height time blockundo v i tx) := by
  unfold Tokens.walkTx
  split_ifs
  · exact h
  · exact h
  · exact (List.foldl_rel (r := TxWalkRel R) ⟨h, rfl, rfl⟩ fun op _ _ _ hrel =>
      hrel.walkOp hstep reserved height time tx _ op).walk

/-- **Related ways of applying operations stay related over a whole block**, and accept the same
operations of it. -/
theorem walk_simulation (reserved : List Bytes) (height : ℕ) (block : CBlock)
    (blockundo : CBlockUndo) {s : σ} {t : τ} (h : R s t) :
    WalkRel R (walkBlock f reserved height block blockundo s)
      (walkBlock g reserved height block blockundo t) := by
  refine List.foldl_rel (r := WalkRel R) ⟨h, rfl, rfl, rfl, rfl⟩ fun p _ w v hwv => ?_
  rw [hwv.opsCount]
  split_ifs
  · exact hwv.walkTx hstep reserved height _ blockundo p.2 p.1
  · exact hwv

end WalkSimulation

/-- A block in progress against the plain walk. -/
theorem walkBlock_pendingSim {db : TokenDB} (hc : CacheCoherent db) (hs : StoreSound db.records)
    (reserved : List Bytes) (height : ℕ) (block : CBlock) (blockundo : CBlockUndo) :
    WalkRel (PendingSim db) (walkBlock pendingOp reserved height block blockundo ⟨db, [], .empty⟩)
      (walkBlock plainOp reserved height block blockundo db.records) :=
  walk_simulation (fun _ _ site _ hop h => pendingOp_refines h site hop) reserved height
    block blockundo (pendingSim_init hc hs)

/-- **Walk invariant.**  What every operation preserves, the walk over a block preserves. -/
theorem walk_invariant {σ : Type} {I : σ → Prop} {f : σ → OpSite → TokenOp → σ × Bool}
    (hstep : ∀ s site op, op.WellFormed → I s → I (f s site op).1) (reserved : List Bytes)
    (height : ℕ) (block : CBlock) (blockundo : CBlockUndo) {s : σ} (h : I s) :
    I (walkBlock f reserved height block blockundo s).state := by
  have hrel := walk_simulation (R := fun a b => a = b ∧ I a) (f := f) (g := f)
    (fun a b site op hop hab => by
      obtain ⟨rfl, ha⟩ := hab
      exact ⟨⟨rfl, hstep a site op hop ha⟩, rfl⟩)
    reserved height block blockundo ⟨rfl, h⟩
  exact hrel.state.2

end OpenSY.Tokens
