import OpenSY.Tokens.BlockLog
import OpenSY.Tokens.Disconnect

/-!
# Undoing operations

A disconnection in progress stands for a store as well: the committed records with its batch on top
(`DisconnectSim`).  Undoing an operation moves it from the store after the operation to the store
before it, record for record, so undoing a log from its end leads back to the store before the log.

* `undoOp_restores` — one operation, from its undo record;
* `undoLog_restores` — a whole log, last operation first.
-/

namespace OpenSY.Tokens

open OpenSY.Chain OpenSY.Src20 OpenSY.KeyValueStore OpenSY.RecencyCache OpenSY.Ordered

/-- The two block pointers, which no operation and no undo step touches. -/
def IsPointerKey : Key → Prop
  | .blockTokens _ | .bestBlock => True
  | _ => False

/-- The disconnection stands for the store `r`; nothing has been committed since `db₀`.  Of the info
overlay only one direction is needed, since undoing an issuance leaves its entry there. -/
structure DisconnectSim (db₀ : TokenDB) (s : Disconnect) (r : Records) : Prop where
  data : SameData db₀ s.db
  cache : CacheCoherent s.db
  base : InfoWF s.db.records
  batch : AgreeOn (fun k => ¬ IsPointerKey k) (Store.writeBatch s.db.records s.batch) r
  pointers : ∀ o ∈ s.batch, ¬ IsPointerKey o.key
  addr : ∀ a, s.getAddrTokensForDisconnect a = r.addrTokens a
  info : ∀ t i, r.info t = some i →
    (s.disconnectInfoOverlay.lookup t).or (s.db.records.info t) = some i

namespace DisconnectSim

variable {db₀ : TokenDB} {s : Disconnect} {r : Records}

/-- Counters and the list of tokens to invalidate are not part of the picture. -/
theorem of_same (h : DisconnectSim db₀ s r) {s' : Disconnect} (hdb : s'.db = s.db)
    (hbatch : s'.batch = s.batch)
    (hinfo : s'.disconnectInfoOverlay = s.disconnectInfoOverlay)
    (haddr : s'.disconnectAddrOverlay = s.disconnectAddrOverlay) : DisconnectSim db₀ s' r := by
  obtain ⟨db, batch, info, addr, toks, ic, tc⟩ := s
  obtain ⟨db', batch', info', addr', toks', ic', tc'⟩ := s'
  simp only at hdb hbatch hinfo haddr
  subst hdb hbatch hinfo haddr
  exact ⟨h.data, h.cache, h.base, h.batch, h.pointers, h.addr, h.info⟩

/-- A write that concerns neither overlay. -/
theorem emit (h : DisconnectSim db₀ s r) (op : BatchOp Value) (hptr : ¬ IsPointerKey op.key)
    (haddr : ∀ a, op.key ≠ .addrTokens a) (hinfo : ∀ t, op.key ≠ .tokenInfo t) :
    DisconnectSim db₀ (s.emit [op]) (r.applyOp op) := by
  refine ⟨h.data, h.cache, h.base, ?_, ?_, ?_, ?_⟩
  · simp only [Disconnect.emit, writeBatch_append]
    exact h.batch.applyOp op
  · intro o ho
    rcases List.mem_append.mp ho with ho | ho
    · exact h.pointers o ho
    · rw [List.mem_singleton.mp ho]
      exact hptr
  · intro a
    rw [addrTokens_applyOp_of_ne r (haddr a)]
    exact h.addr a
  · intro t i hi
    rw [info_applyOp_of_ne r (hinfo t)] at hi
    exact h.info t i hi

/-- A write to the token list of an address, noted in the overlay. -/
theorem emit_addr (h : DisconnectSim db₀ s r) (a : CScript) (S : Finset TokenId)
    {op : BatchOp Value} (hop : op = addrTokensWrite a S) :
    DisconnectSim db₀ ((s.emit [op]).setAddrTokens a S) (r.applyOp op) := by
  have hkey : op.key = .addrTokens a := by rw [hop, addrTokensWrite_key]
  refine ⟨h.data, h.cache, h.base, ?_, ?_, ?_, ?_⟩
  · simp only [Disconnect.setAddrTokens, Disconnect.emit, writeBatch_append]
    exact h.batch.applyOp op
  · intro o ho
    rcases List.mem_append.mp ho with ho | ho
    · exact h.pointers o ho
    · rw [List.mem_singleton.mp ho, hkey]
      exact not_false
  · intro a'
    rw [hop, addrTokens_addrTokensWrite]
    by_cases ha : a' = a
    · subst ha
      simp [Disconnect.getAddrTokensForDisconnect, Disconnect.setAddrTokens]
    · rw [if_neg ha, ← h.addr a']
      simp only [Disconnect.getAddrTokensForDisconnect, Disconnect.setAddrTokens,
        Finmap.lookup_insert_of_ne _ ha]
      rfl
  · intro t i hi
    rw [info_applyOp_of_ne r (by simp [hkey])] at hi
    exact h.info t i hi

theorem addAddrToken (h : DisconnectSim db₀ s r) (a : CScript) (t : TokenId) :
    DisconnectSim db₀ (s.addAddrToken a t)
      (r.applyOp (.write (.addrTokens a) (insert t (r.addrTokens a)))) := by
  simp only [Disconnect.addAddrToken, h.addr]
  exact h.emit_addr a _ (by rw [addrTokensWrite, if_neg (Finset.insert_ne_empty _ _)])

theorem removeAddrToken (h : DisconnectSim db₀ s r) (a : CScript) (t : TokenId) :
    DisconnectSim db₀ (s.removeAddrToken a t)
      (r.applyOp (addrTokensWrite a ((r.addrTokens a).erase t))) := by
  simp only [Disconnect.removeAddrToken, h.addr]
  exact h.emit_addr a _ rfl

theorem writeBalance (h : DisconnectSim db₀ s r) (a : CScript) (t : TokenId) (v : ℕ) :
    DisconnectSim db₀ (s.emit (writeBalanceToBatch a t v))
      (r.writeBatch (writeBalanceToBatch a t v)) := by
  have h₁ := h.emit (balanceWrite a t v) (by simp [IsPointerKey]) (by simp) (by simp)
  have h₂ := h₁.emit (holderWrite a t v) (by simp [IsPointerKey]) (by simp) (by simp)
  refine h₂.of_same rfl ?_ rfl rfl
  simp [Disconnect.emit, writeBalanceToBatch]

/-- A sender gets its balance back. -/
theorem restoreSender (h : DisconnectSim db₀ s r) (hidx : HolderIndex r) {a : CScript}
    {t : TokenId} {v n : ℕ} (ha : a ≠ []) (hv : 0 < v) (hc : v ≠ n → 0 < r.balance a t) :
    DisconnectSim db₀
      (if v = n && !a.isEmpty then (s.emit (writeBalanceToBatch a t v)).addAddrToken a t
        else s.emit (writeBalanceToBatch a t v)) (rebook r a t v) := by
  have hbal := h.writeBalance a t v
  rw [← writeBatch_restoreSender hidx hv (v = n) hc, writeBatch_append]
  have hempty : a.isEmpty = false := by simpa using ha
  by_cases hvn : v = n
  · have haddr : Records.addrTokens (r.writeBatch (writeBalanceToBatch a t v)) a =
        r.addrTokens a := by
      simp only [writeBalanceToBatch, writeBatch_cons, writeBatch_nil]
      rw [addrTokens_applyOp_of_ne _ (by simp), addrTokens_applyOp_of_ne _ (by simp)]
    have hadd := hbal.addAddrToken a t
    rw [haddr] at hadd
    simp only [hvn, hempty, decide_true, Bool.not_false, Bool.and_self, if_true]
    simpa [hvn] using hadd
  · simpa [hvn] using hbal

/-- A recipient gives back what it received. -/
theorem restoreRecipient (h : DisconnectSim db₀ s r) (hidx : HolderIndex r) {a : CScript}
    {t : TokenId} {v : ℕ} (ha : a ≠ []) (hbal : 0 < r.balance a t) :
    DisconnectSim db₀
      (if v = 0 && !a.isEmpty then (s.emit (writeBalanceToBatch a t v)).removeAddrToken a t
        else s.emit (writeBalanceToBatch a t v)) (rebook r a t v) := by
  have hwrite := h.writeBalance a t v
  rw [← writeBatch_restoreRecipient hidx hbal, writeBatch_append]
  have hempty : a.isEmpty = false := by simpa using ha
  by_cases hv : v = 0
  · have haddr : Records.addrTokens (r.writeBatch (writeBalanceToBatch a t v)) a =
        r.addrTokens a := by
      simp only [writeBalanceToBatch, writeBatch_cons, writeBatch_nil]
      rw [addrTokens_applyOp_of_ne _ (by simp), addrTokens_applyOp_of_ne _ (by simp)]
    have hremove := hwrite.removeAddrToken a t
    rw [haddr] at hremove
    simp only [hv, hempty, decide_true, Bool.not_false, Bool.and_self, if_true]
    simpa [hv] using hremove
  · simpa [hv] using hwrite

theorem getInfo (h : DisconnectSim db₀ s r) {t : TokenId} {i : TokenInfo} (hi : r.info t = some i) :
    (s.getInfoForDisconnect t).1 = some i ∧ DisconnectSim db₀ (s.getInfoForDisconnect t).2 r := by
  have hinfo := h.info t i hi
  unfold Disconnect.getInfoForDisconnect
  cases hlook : s.disconnectInfoOverlay.lookup t with
  | some j =>
    rw [hlook, Option.some_or] at hinfo
    exact ⟨hinfo, h⟩
  | none =>
    rw [hlook, Option.none_or] at hinfo
    obtain ⟨hdata, hcache⟩ := readTokenInfo_snd h.cache t
    refine ⟨(readTokenInfo_fst h.cache h.base t).trans hinfo, ?_⟩
    have hrecords : (s.db.readTokenInfo t).2.records = s.db.records := hdata.records
    refine ⟨h.data.trans hdata, hcache, ?_, ?_, h.pointers, ?_, ?_⟩
    · show InfoWF (s.db.readTokenInfo t).2.records
      rw [hrecords]
      exact h.base
    · show AgreeOn _ (Store.writeBatch (s.db.readTokenInfo t).2.records s.batch) r
      rw [hrecords]
      exact h.batch
    · intro a
      rw [← h.addr a]
      simp only [Disconnect.getAddrTokensForDisconnect, TokenDB.getTokenInfo]
      rw [hrecords]
    · intro t' i' hi'
      show (s.disconnectInfoOverlay.lookup t').or ((s.db.readTokenInfo t).2.records.info t') = _
      rw [hrecords]
      exact h.info t' i' hi'

/-- A token info is put back, and its ticker with it. -/
theorem restoreInfo (h : DisconnectSim db₀ s r) {t : TokenId} {j : TokenInfo}
    (hj : r.info t = some j) (g : TokenInfo → TokenInfo) (hid : (g j).tokenId = t) :
    DisconnectSim db₀ (s.restoreInfo t g) (r.writeBatch (writeTokenInfoToBatch (g j))) := by
  obtain ⟨hread, hsim⟩ := h.getInfo hj
  simp only [Disconnect.restoreInfo, hread]
  generalize (s.getInfoForDisconnect t).2 = s₁ at hsim
  refine ⟨hsim.data, hsim.cache, hsim.base, ?_, ?_, ?_, ?_⟩
  · simp only [Disconnect.emit, writeBatch_append]
    exact hsim.batch.writeBatch _
  · intro o ho
    rcases List.mem_append.mp ho with ho | ho
    · exact hsim.pointers o ho
    · simp only [writeTokenInfoToBatch, List.mem_cons, List.not_mem_nil, or_false] at ho
      rcases ho with rfl | rfl <;> simp [IsPointerKey, BatchOp.key]
  · intro a
    simp only [writeTokenInfoToBatch, writeBatch_cons, writeBatch_nil]
    rw [addrTokens_applyOp_of_ne _ (by simp [BatchOp.key]),
      addrTokens_applyOp_of_ne _ (by simp [BatchOp.key])]
    exact hsim.addr a
  · intro t' i' hi'
    simp only [writeTokenInfoToBatch, writeBatch_cons, writeBatch_nil] at hi'
    rw [info_applyOp_of_ne _ (by simp [BatchOp.key]), info_write_tokenInfo, hid] at hi'
    by_cases ht : t' = t
    · subst ht
      rw [if_pos rfl] at hi'
      simpa using hi'
    · rw [if_neg ht] at hi'
      simp only [Disconnect.emit, Finmap.lookup_insert_of_ne _ ht]
      exact hsim.info t' i' hi'

/-- A token info is erased; the overlay keeps a stale entry that nobody asks for again. -/
theorem eraseInfo (h : DisconnectSim db₀ s r) (t : TokenId) :
    DisconnectSim db₀ (s.emit [.erase (.tokenInfo t)]) (r.applyOp (.erase (.tokenInfo t))) := by
  refine ⟨h.data, h.cache, h.base, ?_, ?_, ?_, ?_⟩
  · simp only [Disconnect.emit, writeBatch_append]
    exact h.batch.applyOp (.erase (.tokenInfo t))
  · intro o ho
    rcases List.mem_append.mp ho with ho | ho
    · exact h.pointers o ho
    · rw [List.mem_singleton.mp ho]
      exact not_false
  · intro a
    rw [addrTokens_applyOp_of_ne _ (by simp [BatchOp.key])]
    exact h.addr a
  · intro t' i hi
    have hread : Store.read (r.applyOp (.erase (.tokenInfo t))) (.tokenInfo t') = some i := hi
    rw [read_erase_tokenInfo] at hread
    split_ifs at hread
    exact h.info t' i hread

/-- An issuer loses the account the issuance opened. -/
theorem closeAccount (h : DisconnectSim db₀ s r) (a : CScript) (t : TokenId) :
    DisconnectSim db₀ ((s.emit [.erase (.balance a t), .erase (.tokenHolders t a)]).removeAddrToken
      a t) (rebook r a t 0) := by
  have hwrite := h.writeBalance a t 0
  have hremove := hwrite.removeAddrToken a t
  have haddr : Records.addrTokens (r.writeBatch (writeBalanceToBatch a t 0)) a =
      r.addrTokens a := by
    simp only [writeBalanceToBatch, writeBatch_cons, writeBatch_nil]
    rw [addrTokens_applyOp_of_ne _ (by simp), addrTokens_applyOp_of_ne _ (by simp)]
  rw [haddr] at hremove
  exact hremove

/-- Only the records outside the block pointers count. -/
theorem congr (h : DisconnectSim db₀ s r) {r' : Records}
    (hag : AgreeOn (fun k => ¬ IsPointerKey k) r r') : DisconnectSim db₀ s r' := by
  refine ⟨h.data, h.cache, h.base, h.batch.trans hag, h.pointers, ?_, ?_⟩
  · intro a
    rw [h.addr a]
    unfold Records.addrTokens
    rw [hag (.addrTokens a) not_false]
  · intro t i hi
    have hinfo : r.info t = r'.info t := hag (.tokenInfo t) not_false
    exact h.info t i (hinfo.trans hi)

end DisconnectSim

/-! ### Undoing one operation -/

theorem ledger_writeTokenInfoToBatch (r : Records) {t : TokenId} {i : TokenInfo}
    (hid : i.tokenId = t) :
    Records.ledger (r.writeBatch (writeTokenInfoToBatch i)) =
      (r.ledger.setInfo t (some i)).setTicker i.ticker t := by
  subst hid
  simp only [writeTokenInfoToBatch, writeBatch_cons, writeBatch_nil]
  rw [ledger_write_ticker, ledger_write_tokenInfo]

theorem HolderIndex.writeTokenInfoToBatch {r : Records} (h : HolderIndex r) (i : TokenInfo) :
    HolderIndex (r.writeBatch (writeTokenInfoToBatch i)) :=
  (h.applyOp (.write (.tokenInfo i.tokenId) i) not_false).applyOp
    (.write (.ticker i.ticker) i.tokenId) not_false

theorem rebook_info (r : Records) (a : CScript) (t : TokenId) (v : ℕ) (t' : TokenId) :
    (rebook r a t v).info t' = r.info t' :=
  rebook_read_of_other r a t v (by exact not_false)

/-- What undoing an operation has to achieve: the ledger of before, the three account records in
agreement, and no change to undo records other than dropping its own. -/
theorem agreeOn_of_undone {r x : Records} {site : OpSite} {op : TokenOp} {w : CDBBatch}
    (hs : StoreSound r) (hw : opWrites r site op = some w) {u : TokenUndoRecord}
    (hfresh : r.read (.undo site.height site.txid site.opIndex) = none)
    (hindex : HolderIndex x) (hledger : x.ledger = r.ledger)
    (hundo : ∀ h y i, x.read (.undo h y i) =
      Store.read (r.writeBatch (w ++ [undoWrite site u])) (.undo h y i)) :
    AgreeOn (fun k => ¬ IsPointerKey k)
      (x.applyOp (.erase (.undo site.height site.txid site.opIndex))) r := by
  intro k hk
  by_cases htoken : IsTokenKey k
  · rw [read_applyOp_of_ne _ _ (by rintro rfl; exact htoken)]
    exact agreeOn_of_ledger_eq hindex hs.index hledger k htoken
  · cases k with
    | undo h y i =>
      rw [read_erase_undo, hundo, read_step_undo hw]
      by_cases hkey : h = site.height ∧ y = site.txid ∧ i = site.opIndex
      · obtain ⟨rfl, rfl, rfl⟩ := hkey
        simp [hfresh]
      · rw [if_neg hkey, if_neg (mt site.mk_eq_historyKey.mp hkey)]
    | blockTokens h => exact absurd trivial hk
    | bestBlock => exact absurd trivial hk
    | _ => exact absurd trivial htoken

section UndoOp

variable {db₀ : TokenDB} {s : Disconnect} {r : Records} {site : OpSite} {w : CDBBatch}

theorem undoIssue_restores (hs : StoreSound r) {issuance : TokenIssuance} {issuer : CScript}
    (hop : (TokenOp.issue issuance issuer).WellFormed)
    (hw : opWrites r site (.issue issuance issuer) = some w)
    (hhist : r.ledger.history site.txid site.historyKey = none)
    {r₁ : Records} (hr₁ : r₁ = r.writeBatch
      (w ++ [undoWrite site (issueUndo site issuance issuer)]))
    (h : DisconnectSim db₀ s r₁) :
    ∃ x : Records,
      DisconnectSim db₀ (s.undoIssue site.height site.txid site.opIndex
        (issueUndo site issuance issuer)) x ∧
      HolderIndex x ∧ x.ledger = r.ledger ∧
      ∀ h y i, x.read (.undo h y i) = r₁.read (.undo h y i) := by
  have hs₁ : StoreSound r₁ := hr₁ ▸ storeSound_step hs hop hw _
  have hledger : r₁.ledger = r.ledger.apply site (.issue issuance issuer) := by
    rw [hr₁]
    exact ledger_step hs hop hw _
  have hacc := (opWrites_isSome_iff r site (.issue issuance issuer)).mp (by simp [hw])
  have hissuer : issuer.isEmpty = false := by simpa using hop.2.2.2.2
  let r₂ : Records := (r₁.applyOp (.erase (.tokenInfo site.txid))).applyOp
    (.erase (.ticker issuance.ticker))
  let x : Records := (rebook r₂ issuer site.txid 0).applyOp
    (.erase (.transfer site.txid site.height site.txid site.opIndex))
  have hindex₂ : HolderIndex r₂ :=
    (hs₁.index.applyOp _ (by exact not_false)).applyOp _ (by exact not_false)
  refine ⟨x, ?_, (hindex₂.rebook _ _ _).applyOp _ (by exact not_false), ?_, ?_⟩
  · have h₁ := h.eraseInfo site.txid
    have h₂ := h₁.emit (.erase (.ticker issuance.ticker)) (by exact not_false)
      (by simp [BatchOp.key]) (by simp [BatchOp.key])
    have h₃ := h₂.closeAccount issuer site.txid
    have h₄ := h₃.emit (.erase (.transfer site.txid site.height site.txid site.opIndex))
      (by exact not_false) (by simp [BatchOp.key]) (by simp [BatchOp.key])
    refine h₄.of_same ?_ ?_ ?_ ?_ <;>
      simp [Disconnect.undoIssue, issueUndo, hissuer, Disconnect.eraseTransfer, Disconnect.emit,
        Disconnect.invalidate, Disconnect.removeAddrToken, Disconnect.setAddrTokens,
        Disconnect.getAddrTokensForDisconnect]
  · rw [ledger_erase_transfer, ledger_rebook, ledger_erase_ticker, ledger_erase_tokenInfo, hledger]
    exact Ledger.apply_issue_undone hs.ledger hacc hhist
  · intro h y i
    simp only [x, r₂]
    rw [read_erase_of_ne _ (by simp), rebook_read_of_other _ _ _ _ (by exact not_false),
      read_erase_of_ne _ (by simp), read_erase_of_ne _ (by simp)]

/-- The common end of undoing a transfer or a burn: the token info and the ticker are put back and
the history record goes. -/
theorem restoreInfo_eraseTransfer (site : OpSite) {x : Records} (h : DisconnectSim db₀ s x)
    (hx : HolderIndex x) {t : TokenId} {i j : TokenInfo} (hj : x.info t = some j)
    {g : TokenInfo → TokenInfo} (hg : g j = i) (hid : i.tokenId = t) :
    ∃ y : Records,
      DisconnectSim db₀ ((s.restoreInfo t g).eraseTransfer t site.height site.txid site.opIndex) y ∧
      HolderIndex y ∧
      y.ledger = ((x.ledger.setInfo t (some i)).setTicker i.ticker t).unrecord site t ∧
      ∀ h z k, y.read (.undo h z k) = x.read (.undo h z k) := by
  subst hg
  have h₁ := h.restoreInfo hj g hid
  have h₂ := h₁.emit (.erase (.transfer t site.height site.txid site.opIndex))
    (by exact not_false) (by simp [BatchOp.key]) (by simp [BatchOp.key])
  refine ⟨_, h₂, (hx.writeTokenInfoToBatch _).applyOp _ (by exact not_false), ?_, ?_⟩
  · rw [ledger_erase_transfer, ledger_writeTokenInfoToBatch _ hid]
  · intro h z k
    simp only [writeTokenInfoToBatch, writeBatch_cons, writeBatch_nil]
    rw [read_erase_of_ne _ (by simp), read_write_of_ne _ _ (by simp),
      read_write_of_ne _ _ (by simp)]

theorem untransferInfo_transferInfo (site : OpSite) (t : TokenId) (f d : CScript) (n bf bd : ℕ)
    (i : TokenInfo) :
    Disconnect.untransferInfo (transferUndo site t f d n bf bd (holderCountOf (some i)))
      (if f = d then selfTransferInfo i else transferInfo bf bd n i) = i := by
  split_ifs
  · rfl
  · rw [transferInfo_eq]
    rfl

theorem unburnInfo_burnInfo (site : OpSite) (t : TokenId) (f : CScript) (n bf : ℕ) (i : TokenInfo) :
    Disconnect.unburnInfo (burnUndo site t f n bf (circulatingOf (some i))
      (holderCountOf (some i))) (burnInfo bf n i) = i := by
  rw [burnInfo_eq]
  rfl

/-- A sender whose balance is not used up has some left. -/
theorem sender_left {L : Ledger} {t : TokenId} {f d : CScript} {n : ℕ} (hpos : 0 < n)
    (hn : n ≤ L.balance t f) (hne : L.balance t f ≠ n) :
    0 < (L.apply site (.transfer t f d n)).balance t f := by
  rw [Ledger.apply_transfer_balance]
  split_ifs <;> omega

/-- Once the sender is restored, the recipient of a transfer still has what was moved. -/
theorem recipient_has {L : Ledger} {t : TokenId} {f d : CScript} {n : ℕ} (hpos : 0 < n)
    (hfd : d ≠ f) :
    0 < (L.apply site (.transfer t f d n)).balance t d := by
  rw [Ledger.apply_transfer_balance]
  simp only [and_self, if_true, if_neg (Ne.symm hfd)]
  omega

/-- The info that a transfer leaves, once its balances are booked back. -/
theorem transfer_info_rebooked {t : TokenId} {f d : CScript} {n u v : ℕ} {i : TokenInfo}
    (hi : r.info t = some i) {r₁ : Records}
    (hledger : r₁.ledger = r.ledger.apply site (.transfer t f d n)) :
    (rebook (rebook r₁ f t u) d t v).info t =
      some (if f = d then selfTransferInfo i
        else transferInfo (r.balance f t) (r.balance d t) n i) := by
  have hafter : r₁.info t = r.ledger.infoAfter site (.transfer t f d n) := by
    show r₁.ledger.info t = _
    rw [hledger, Ledger.apply_info, TokenOp.token, Function.update_self]
  have hli : r.ledger.info t = some i := hi
  simp only [rebook_info, hafter, Ledger.infoAfter, hli, Option.map_some]
  split_ifs <;> rfl

theorem undoTransfer_restores (hs : StoreSound r) {t : TokenId} {f d : CScript} {n : ℕ}
    (hop : (TokenOp.transfer t f d n).WellFormed)
    (hw : opWrites r site (.transfer t f d n) = some w)
    (hhist : r.ledger.history t site.historyKey = none)
    {r₁ : Records} (hr₁ : r₁ = r.writeBatch (w ++ [undoWrite site
      (undoOf r site (.transfer t f d n))]))
    (h : DisconnectSim db₀ s r₁) :
    ∃ x : Records,
      DisconnectSim db₀ (s.undoTransfer site.height site.txid site.opIndex
        (undoOf r site (.transfer t f d n))) x ∧
      HolderIndex x ∧ x.ledger = r.ledger ∧
      ∀ h y i, x.read (.undo h y i) = r₁.read (.undo h y i) := by
  have hs₁ : StoreSound r₁ := hr₁ ▸ storeSound_step hs hop hw _
  have hledger : r₁.ledger = r.ledger.apply site (.transfer t f d n) := by
    rw [hr₁]
    exact ledger_step hs hop hw _
  obtain ⟨hpos, hn, -⟩ := (opWrites_isSome_iff r site (.transfer t f d n)).mp (by simp [hw])
  have hbal : 0 < r.balance f t := lt_of_lt_of_le hpos hn
  obtain ⟨i, hi, hid, -⟩ := hs.registered hbal
  -- the sender first, then the recipient
  let r₂ : Records := rebook r₁ f t (r.balance f t)
  let r₃ : Records := rebook r₂ d t (r.balance d t)
  have hindex₂ : HolderIndex r₂ := hs₁.index.rebook _ _ _
  have hsender : r.balance f t ≠ n → 0 < r₁.balance f t := by
    intro hne
    show 0 < r₁.ledger.balance t f
    rw [hledger]
    exact sender_left hpos hn hne
  have hrecipient : 0 < r₂.balance d t := by
    simp only [r₂, rebook_balance]
    by_cases hfd : d = f
    · simpa [hfd] using hbal
    · rw [if_neg (by simp [hfd])]
      show 0 < r₁.ledger.balance t d
      rw [hledger]
      exact recipient_has hpos hfd
  have h₂ := h.restoreSender hs₁.index (hs.ledger.sender_ne_nil hbal) hbal hsender
  have h₃ := h₂.restoreRecipient hindex₂ (v := r.balance d t) hop.2 hrecipient
  have hinfo : r₃.info t =
      some (if f = d then selfTransferInfo i
        else transferInfo (r.balance f t) (r.balance d t) n i) :=
    transfer_info_rebooked hi hledger
  obtain ⟨x, hsim, hindex, hxledger, hundo⟩ := restoreInfo_eraseTransfer site h₃
    (hindex₂.rebook _ _ _) hinfo (untransferInfo_transferInfo site t f d n _ _ i) hid
  refine ⟨x, ?_, hindex, ?_, ?_⟩
  · refine hsim.of_same ?_ ?_ ?_ ?_ <;>
      simp only [Disconnect.undoTransfer, undoOf, transferUndo, Disconnect.invalidate, hi]
  · rw [hxledger, ledger_rebook, ledger_rebook, hledger]
    exact Ledger.apply_transfer_undone hs.ledger hi hhist
  · intro h y k
    rw [hundo, rebook_read_of_other _ _ _ _ (by exact not_false),
      rebook_read_of_other _ _ _ _ (by exact not_false)]

theorem undoBurn_restores (hs : StoreSound r) {t : TokenId} {f : CScript} {n : ℕ}
    (hop : (TokenOp.burn t f n).WellFormed) (hw : opWrites r site (.burn t f n) = some w)
    (hhist : r.ledger.history t site.historyKey = none)
    {r₁ : Records} (hr₁ : r₁ = r.writeBatch (w ++ [undoWrite site (undoOf r site (.burn t f n))]))
    (h : DisconnectSim db₀ s r₁) :
    ∃ x : Records,
      DisconnectSim db₀ (s.undoBurn site.height site.txid site.opIndex
        (undoOf r site (.burn t f n))) x ∧
      HolderIndex x ∧ x.ledger = r.ledger ∧
      ∀ h y i, x.read (.undo h y i) = r₁.read (.undo h y i) := by
  have hs₁ : StoreSound r₁ := hr₁ ▸ storeSound_step hs hop hw _
  have hledger : r₁.ledger = r.ledger.apply site (.burn t f n) := by
    rw [hr₁]
    exact ledger_step hs hop hw _
  obtain ⟨hn, i, hi, -⟩ := (opWrites_isSome_iff r site (.burn t f n)).mp (by simp [hw])
  change n ≤ r.balance f t at hn
  change r.info t = some i at hi
  have hpos : 0 < n := hop
  have hbal : 0 < r.balance f t := lt_of_lt_of_le hpos hn
  have hid : i.tokenId = t := (hs.infoWF t i hi).1
  have hf₁ : r₁.balance f t = r.balance f t - n := by
    show r₁.ledger.balance t f = _
    rw [hledger, Ledger.apply_burn_balance, if_pos ⟨rfl, rfl⟩]
    rfl
  have hsender : r.balance f t ≠ n → 0 < r₁.balance f t := by
    intro hne
    omega
  have h₂ := h.restoreSender hs₁.index (hs.ledger.sender_ne_nil hbal) hbal hsender
  have hinfo : (rebook r₁ f t (r.balance f t)).info t = some (burnInfo (r.balance f t) n i) := by
    have hafter : r₁.info t = r.ledger.infoAfter site (.burn t f n) := by
      show r₁.ledger.info t = _
      rw [hledger, Ledger.apply_info, TokenOp.token, Function.update_self]
    have hli : r.ledger.info t = some i := hi
    simp only [rebook_info, hafter, Ledger.infoAfter, hli, Option.map_some]
    rfl
  obtain ⟨x, hsim, hindex, hxledger, hundo⟩ := restoreInfo_eraseTransfer site h₂
    (hs₁.index.rebook _ _ _) hinfo (unburnInfo_burnInfo site t f n _ i) hid
  refine ⟨x, ?_, hindex, ?_, ?_⟩
  · refine hsim.of_same ?_ ?_ ?_ ?_ <;>
      simp only [Disconnect.undoBurn, undoOf, burnUndo, Disconnect.invalidate, hi]
  · rw [hxledger, ledger_rebook, hledger]
    exact Ledger.apply_burn_undone hs.ledger hi hhist
  · intro h y k
    rw [hundo, rebook_read_of_other _ _ _ _ (by exact not_false)]

/-- **Undoing an operation from its undo record restores the store before it.** -/
theorem undoOp_restores (hs : StoreSound r) {op : TokenOp} (hop : op.WellFormed)
    (hw : opWrites r site op = some w) (hf : FreshAt r [site.historyKey])
    (h : DisconnectSim db₀ s (r.writeBatch (w ++ [undoWrite site (undoOf r site op)]))) :
    DisconnectSim db₀ (s.undoOp site.height site.txid site.opIndex (undoOf r site op)) r := by
  obtain ⟨hhist, hundo⟩ := hf site.historyKey List.mem_cons_self
  have hend : ∀ s' x, DisconnectSim db₀ s' x ∧ HolderIndex x ∧ x.ledger = r.ledger ∧
      (∀ h y i, x.read (.undo h y i) = Store.read (r.writeBatch
        (w ++ [undoWrite site (undoOf r site op)])) (.undo h y i)) →
      DisconnectSim db₀ (s'.emit [.erase (.undo site.height site.txid site.opIndex)]) r := by
    rintro s' x ⟨hsim, hindex, hledger, hrest⟩
    have herase := hsim.emit (.erase (.undo site.height site.txid site.opIndex))
      (by exact not_false) (by simp [BatchOp.key]) (by simp [BatchOp.key])
    exact herase.congr (agreeOn_of_undone hs hw hundo hindex hledger hrest)
  cases op with
  | issue issuance issuer =>
    obtain ⟨x, hx⟩ := undoIssue_restores hs hop hw (hhist _) rfl h
    exact hend _ x hx
  | transfer t f d n =>
    obtain ⟨x, hx⟩ := undoTransfer_restores hs hop hw (hhist _) rfl h
    exact hend _ x hx
  | burn t f n =>
    obtain ⟨x, hx⟩ := undoBurn_restores hs hop hw (hhist _) rfl h
    exact hend _ x hx

end UndoOp

/-! ### Undoing a log -/

def Disconnect.undoEntry (s : Disconnect) (e : OpSite × TokenUndoRecord) : Disconnect :=
  s.undoOp e.1.height e.1.txid e.1.opIndex e.2

/-- **Undoing a log from its end restores the store before it.** -/
theorem undoLog_restores {db₀ : TokenDB} {s : Disconnect} {r r' : Records} {log : OpLog}
    (happ : Applied r log r') (hs : StoreSound r) (hf : FreshAt r (OpLog.keys log))
    (hnodup : (OpLog.keys log).Nodup) (h : DisconnectSim db₀ s r') :
    DisconnectSim db₀ (log.reverse.foldl Disconnect.undoEntry s) r := by
  induction happ with
  | nil r => exact h
  | @cons r r' site op w log hop hw _ ih =>
    rw [List.reverse_cons, List.foldl_append, List.foldl_cons, List.foldl_nil]
    simp only [OpLog.keys, List.map_cons, List.nodup_cons] at hf hnodup
    have hrest := ih (storeSound_step hs hop hw _) (hf.step hs hop hw hnodup.1 _) hnodup.2 h
    exact undoOp_restores hs hop hw (fun k hk => hf k (by simp_all)) hrest

section UndoOpFrame

variable (s : Disconnect)

@[simp] theorem restoreInfo_mDb (t : TokenId) (g : TokenInfo → TokenInfo) :
    (s.restoreInfo t g).db.mDb = s.db.mDb := by
  have hget : (s.getInfoForDisconnect t).2.db.mDb = s.db.mDb := by
    unfold Disconnect.getInfoForDisconnect
    split
    · rfl
    · exact readTokenInfo_mDb s.db t
  simp only [Disconnect.restoreInfo]
  split <;> exact hget

@[simp] theorem restoreInfo_tokensToInvalidate (t : TokenId) (g : TokenInfo → TokenInfo) :
    (s.restoreInfo t g).tokensToInvalidate = s.tokensToInvalidate := by
  have hget : (s.getInfoForDisconnect t).2.tokensToInvalidate = s.tokensToInvalidate := by
    unfold Disconnect.getInfoForDisconnect
    split <;> rfl
  simp only [Disconnect.restoreInfo]
  split <;> exact hget

/-- Undoing an operation reads the database and never writes to it. -/
theorem undoEntry_mDb (e : OpSite × TokenUndoRecord) : (s.undoEntry e).db.mDb = s.db.mDb := by
  unfold Disconnect.undoEntry Disconnect.undoOp
  cases e.2.opType <;>
    simp only [Disconnect.undoIssue, Disconnect.undoTransfer, Disconnect.undoBurn,
      Disconnect.eraseTransfer, Disconnect.emit, Disconnect.invalidate, restoreInfo_mDb] <;>
    split_ifs <;> rfl

/-- Every token an undo step touches is noted for invalidation. -/
theorem undoEntry_tokensToInvalidate (e : OpSite × TokenUndoRecord) :
    (s.undoEntry e).tokensToInvalidate = s.tokensToInvalidate ++ [e.2.tokenId] := by
  unfold Disconnect.undoEntry Disconnect.undoOp
  cases e.2.opType <;>
    simp only [Disconnect.undoIssue, Disconnect.undoTransfer, Disconnect.undoBurn,
      Disconnect.eraseTransfer, Disconnect.emit, Disconnect.invalidate,
      restoreInfo_tokensToInvalidate] <;>
    split_ifs <;> rfl

theorem undoLog_mDb (log : OpLog) : (log.foldl Disconnect.undoEntry s).db.mDb = s.db.mDb := by
  induction log generalizing s with
  | nil => rfl
  | cons e log ih => rw [List.foldl_cons, ih, undoEntry_mDb]

theorem undoLog_tokensToInvalidate (log : OpLog) :
    (log.foldl Disconnect.undoEntry s).tokensToInvalidate =
      s.tokensToInvalidate ++ log.map fun e => e.2.tokenId := by
  induction log generalizing s with
  | nil => simp
  | cons e log ih => rw [List.foldl_cons, ih, undoEntry_tokensToInvalidate]; simp

end UndoOpFrame

theorem undoOf_tokenId (r : Records) (site : OpSite) (op : TokenOp) :
    (undoOf r site op).tokenId = op.token site := by
  cases op <;> rfl

/-- A log changes the infos of the tokens in its undo records only. -/
theorem Applied.info_of_notMem {r r' : Records} {log : OpLog} (h : Applied r log r')
    (hs : StoreSound r) {t : TokenId} (ht : t ∉ log.map fun e => e.2.tokenId) :
    r'.info t = r.info t := by
  induction h with
  | nil r => rfl
  | @cons r r' site op w log hop hw _ ih =>
    simp only [List.map_cons, List.mem_cons, not_or, undoOf_tokenId] at ht
    rw [ih (storeSound_step hs hop hw _) ht.2]
    show (Records.ledger _).info t = r.ledger.info t
    rw [ledger_step hs hop hw, Ledger.apply_info, Function.update_of_ne ht.1]

end OpenSY.Tokens
