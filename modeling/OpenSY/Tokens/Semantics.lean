import OpenSY.Tokens.Accounts

/-!
# Operations on a bare store

The meaning of one operation on the records alone, with no cache, batch or overlay between: the
writes it makes (`opWrites`, none if it is refused), the undo record that goes with them (`undoOf`)
and the store after both (`plainOp`).  Both modes of the database functions are compared with this.

* `opWrites_isSome_iff` — an operation goes through exactly when the ledger accepts it;
* `writeBatch_opWrites` — the writes turn the ledger of the store into what `Ledger.apply` says and
  keep the three account records in agreement;
* `StoreSound.plainOp` — hence every operation, accepted or not, keeps the store sound.
-/

namespace OpenSY.Tokens

open OpenSY.Chain OpenSY.Src20 OpenSY.KeyValueStore

/-- The writes of an operation on the store `r`, unless it is refused. -/
def opWrites (r : Records) (site : OpSite) : TokenOp → Option CDBBatch
  | .issue issuance issuer =>
    if (r.read (.ticker issuance.ticker)).isSome then none
    else if (r.info site.txid).isSome then none
    else some (issueWrites issuance issuer site (r.addrTokens issuer))
  | .transfer t f d n =>
    if n = 0 then none
    else if r.balance f t < n then none
    else if f = d then
      some (selfTransferWrites site t f n ((r.info t).map selfTransferInfo))
    else if uint64Max < r.balance d t + n then none
    else
      some (transferWrites site t f d n (r.balance f t) (r.balance d t) (r.addrTokens f)
        (r.addrTokens d) ((r.info t).map (transferInfo (r.balance f t) (r.balance d t) n)))
  | .burn t f n =>
    if r.balance f t < n then none
    else
      match r.info t with
      | none => none
      | some info =>
        if info.circulatingSupply < n then none
        else
          some (burnWrites site t f n (r.balance f t) (r.addrTokens f)
            (burnInfo (r.balance f t) n info))

/-- The undo record of an operation on the store `r`. -/
def undoOf (r : Records) (site : OpSite) : TokenOp → TokenUndoRecord
  | .issue issuance issuer => issueUndo site issuance issuer
  | .transfer t f d n =>
    transferUndo site t f d n (r.balance f t) (r.balance d t) (holderCountOf (r.info t))
  | .burn t f n =>
    burnUndo site t f n (r.balance f t) (circulatingOf (r.info t)) (holderCountOf (r.info t))

/-- The store after an operation and its undo record, and whether it went through. -/
def plainOp (r : Records) (site : OpSite) (op : TokenOp) : Records × Bool :=
  match opWrites r site op with
  | none => (r, false)
  | some writes => (r.writeBatch (writes ++ [undoWrite site (undoOf r site op)]), true)

/-! ### The batch of an accepted operation -/

section Inversion

variable {r : Records} {site : OpSite} {w : CDBBatch}

theorem opWrites_issue_eq {issuance : TokenIssuance} {issuer : CScript}
    (hw : opWrites r site (.issue issuance issuer) = some w) :
    r.read (.ticker issuance.ticker) = none ∧ r.info site.txid = none ∧
      w = issueWrites issuance issuer site (r.addrTokens issuer) := by
  simp only [opWrites] at hw
  split_ifs at hw with hticker hknown
  exact ⟨Option.not_isSome_iff_eq_none.mp hticker, Option.not_isSome_iff_eq_none.mp hknown,
    (Option.some.inj hw).symm⟩

theorem opWrites_transfer_eq {t : TokenId} {f d : CScript} {n : ℕ}
    (hw : opWrites r site (.transfer t f d n) = some w) :
    n ≠ 0 ∧ n ≤ r.balance f t ∧
      (f = d ∧ w = selfTransferWrites site t f n ((r.info t).map selfTransferInfo) ∨
        f ≠ d ∧ r.balance d t + n ≤ uint64Max ∧
          w = transferWrites site t f d n (r.balance f t) (r.balance d t) (r.addrTokens f)
            (r.addrTokens d)
              ((r.info t).map (transferInfo (r.balance f t) (r.balance d t) n))) := by
  simp only [opWrites] at hw
  split_ifs at hw with hzero hbal hfd hmax
  · exact ⟨hzero, not_lt.mp hbal, .inl ⟨hfd, (Option.some.inj hw).symm⟩⟩
  · exact ⟨hzero, not_lt.mp hbal, .inr ⟨hfd, not_lt.mp hmax, (Option.some.inj hw).symm⟩⟩

theorem opWrites_burn_eq {t : TokenId} {f : CScript} {n : ℕ}
    (hw : opWrites r site (.burn t f n) = some w) :
    n ≤ r.balance f t ∧ ∃ i, r.info t = some i ∧ n ≤ i.circulatingSupply ∧
      w = burnWrites site t f n (r.balance f t) (r.addrTokens f)
        (burnInfo (r.balance f t) n i) := by
  simp only [opWrites] at hw
  split_ifs at hw with hbal
  cases hi : r.info t with
  | none =>
    rw [hi] at hw
    cases hw
  | some i =>
    simp only [hi] at hw
    split_ifs at hw with hcirc
    exact ⟨not_lt.mp hbal, i, rfl, not_lt.mp hcirc, (Option.some.inj hw).symm⟩

end Inversion

/-! ### Acceptance -/

theorem opWrites_isSome_iff (r : Records) (site : OpSite) (op : TokenOp) :
    (opWrites r site op).isSome ↔ r.ledger.Accepts site op := by
  cases op with
  | issue issuance issuer =>
    simp only [opWrites, Ledger.Accepts, Records.ledger]
    split_ifs with hticker hinfo
    · simp [Option.isSome_iff_ne_none.mp hticker]
    · simp [Option.isSome_iff_ne_none.mp hinfo]
    · simpa using And.intro (Option.not_isSome_iff_eq_none.mp hticker)
        (Option.not_isSome_iff_eq_none.mp hinfo)
  | transfer t f d n =>
    simp only [opWrites, Ledger.Accepts, Records.ledger]
    split_ifs with hzero hbal hfd hover
    · simp [hzero]
    · simp
      omega
    · simp only [Option.isSome_some, hfd, true_or, and_true, true_iff]
      exact ⟨Nat.pos_of_ne_zero hzero, hfd ▸ not_lt.mp hbal⟩
    · simp only [Option.isSome_none, Bool.false_eq_true, hfd, false_or, false_iff]
      omega
    · simp only [Option.isSome_some, hfd, false_or, true_iff]
      omega
  | burn t f n =>
    simp only [opWrites, Ledger.Accepts, Records.ledger]
    split_ifs with hbal
    · simp
      omega
    · cases hinfo : r.info t with
      | none => simp
      | some info =>
        simp only [Option.some.injEq, exists_eq_left']
        split_ifs with hcirc
        · simp
          omega
        · simp only [Option.isSome_some, true_iff]
          omega

/-- What an operation writes depends on the token records only. -/
theorem opWrites_congr {r r' : Records} (h : AgreeOn IsTokenKey r r') (site : OpSite)
    (op : TokenOp) : opWrites r site op = opWrites r' site op := by
  have hinfo : ∀ t, r.info t = r'.info t := fun t => h (.tokenInfo t) trivial
  cases op with
  | issue issuance issuer =>
    simp only [opWrites, h (.ticker issuance.ticker) trivial, hinfo, addrTokens_congr h]
  | transfer t f d n => simp only [opWrites, hinfo, addrTokens_congr h, balance_congr h]
  | burn t f n => simp only [opWrites, hinfo, addrTokens_congr h, balance_congr h]

/-! ### Frame -/

theorem infoWrite_isTokenKey (info : Option TokenInfo) :
    ∀ o ∈ infoWrite info, IsTokenKey o.key := by
  cases info with
  | none => simp [infoWrite]
  | some info => simp [infoWrite, IsTokenKey, BatchOp.key]

theorem debitWrites_isTokenKey (t : TokenId) (f : CScript) (n b : ℕ) (S : Finset TokenId) :
    ∀ o ∈ debitWrites t f n b S, IsTokenKey o.key := by
  unfold debitWrites
  intro o ho
  rcases List.mem_cons.mp ho with rfl | ho
  · simp [IsTokenKey]
  · split_ifs at ho
    · simp only [List.mem_cons, List.not_mem_nil, or_false] at ho
      rcases ho with rfl | rfl
      · simp [IsTokenKey, BatchOp.key]
      · simp [IsTokenKey]
    · simp at ho

theorem creditWrites_isTokenKey (t : TokenId) (d : CScript) (n b : ℕ) (S : Finset TokenId) :
    ∀ o ∈ creditWrites t d n b S, IsTokenKey o.key := by
  unfold creditWrites
  split_ifs <;> simp [IsTokenKey, BatchOp.key]

/-- **Operations write token records only.** -/
theorem opWrites_isTokenKey {r : Records} {site : OpSite} {op : TokenOp} {w : CDBBatch}
    (h : opWrites r site op = some w) : ∀ o ∈ w, IsTokenKey o.key := by
  cases op with
  | issue issuance issuer =>
    obtain ⟨-, -, rfl⟩ := opWrites_issue_eq h
    simp [issueWrites, transferWrite, IsTokenKey, BatchOp.key]
  | transfer t f d n =>
    obtain ⟨-, -, ⟨-, rfl⟩ | ⟨-, -, rfl⟩⟩ := opWrites_transfer_eq h
    · intro o ho
      rcases List.mem_cons.mp ho with rfl | ho
      · simp [transferWrite, IsTokenKey, BatchOp.key]
      · exact infoWrite_isTokenKey _ o ho
    · intro o ho
      simp only [transferWrites, List.mem_append, List.mem_cons] at ho
      rcases ho with (ho | ho) | rfl | ho
      · exact debitWrites_isTokenKey _ _ _ _ _ o ho
      · exact creditWrites_isTokenKey _ _ _ _ _ o ho
      · simp [transferWrite, IsTokenKey, BatchOp.key]
      · exact infoWrite_isTokenKey _ o ho
  | burn t f n =>
    obtain ⟨-, i, -, -, rfl⟩ := opWrites_burn_eq h
    intro o ho
    simp only [burnWrites, writeBalanceToBatch, writeTokenInfoToBatch, List.mem_append,
      List.mem_cons, List.not_mem_nil, or_false] at ho
    rcases ho with (((rfl | rfl) | ho) | rfl | rfl) | rfl
    · simp [IsTokenKey]
    · simp [IsTokenKey]
    · split_ifs at ho
      · rw [List.mem_singleton.mp ho]
        simp [IsTokenKey]
      · simp at ho
    all_goals simp [transferWrite, IsTokenKey, BatchOp.key]

/-! ### The writes do what the ledger says -/

/-- The records of the tokens are in order: the accounts agree and the books are right. -/
structure StoreSound (r : Records) : Prop where
  index : HolderIndex r
  ledger : Sound r.ledger

theorem storeSound_empty : StoreSound (∅ : Records) :=
  ⟨holderIndex_empty, by rw [ledger_empty]; exact sound_empty⟩

theorem StoreSound.congr {r r' : Records} (h : StoreSound r) (hag : AgreeOn IsTokenKey r r') :
    StoreSound r' := by
  refine ⟨h.index.congr (hag.mono fun k hk => ?_), ledger_congr hag ▸ h.ledger⟩
  cases k <;> trivial

theorem StoreSound.infoWF {r : Records} (h : StoreSound r) : InfoWF r := h.ledger.filed

/-- A token somebody holds has its record. -/
theorem StoreSound.registered {r : Records} (h : StoreSound r) {a : CScript} {t : TokenId}
    (hpos : 0 < r.balance a t) : ∃ i, r.info t = some i ∧ Filed t i := by
  obtain ⟨i, hi, -⟩ := (h.ledger.books t).registered (a := a) hpos
  exact ⟨i, hi, h.ledger.filed t i hi⟩

/-- Writing the info of a token, wherever its id is taken from. -/
theorem ledger_infoWrite (r : Records) {t : TokenId} {j : TokenInfo} (hj : j.tokenId = t) :
    Records.ledger (r.writeBatch (infoWrite (some j))) = r.ledger.setInfo t (some j) := by
  subst hj
  exact ledger_write_tokenInfo r j.tokenId j

theorem HolderIndex.infoWrite {r : Records} (h : HolderIndex r) (info : Option TokenInfo) :
    HolderIndex (r.writeBatch (infoWrite info)) := by
  cases info with
  | none => exact h
  | some info => exact h.applyOp (.write (.tokenInfo info.tokenId) info) not_false

theorem writeBatch_issue {r : Records} (h : StoreSound r) {site : OpSite}
    {issuance : TokenIssuance} {issuer : CScript}
    (hop : (TokenOp.issue issuance issuer).WellFormed) :
    Records.ledger (r.writeBatch (issueWrites issuance issuer site (r.addrTokens issuer))) =
        r.ledger.apply site (.issue issuance issuer) ∧
      HolderIndex (r.writeBatch (issueWrites issuance issuer site (r.addrTokens issuer))) := by
  obtain ⟨-, -, hpos, -, -⟩ := hop
  let r₁ : Records := (r.applyOp (.write (.tokenInfo site.txid) (issueInfo issuance site))).applyOp
    (.write (.ticker issuance.ticker) site.txid)
  have haddr : r₁.addrTokens issuer = r.addrTokens issuer := by
    simp [r₁, Records.addrTokens]
  have hindex : HolderIndex r₁ :=
    (h.index.applyOp _ (by exact not_false)).applyOp _ (by exact not_false)
  have hwrites : r.writeBatch (issueWrites issuance issuer site (r.addrTokens issuer)) =
      (rebook r₁ issuer site.txid issuance.totalSupply).applyOp
        (transferWrite site site.txid [] issuer issuance.totalSupply) := by
    rw [rebook_of_pos r₁ issuer site.txid hpos, haddr]
    rfl
  rw [hwrites]
  refine ⟨?_, (hindex.rebook _ _ _).applyOp _ (by exact not_false)⟩
  rw [ledger_transferWrite, ledger_rebook, ledger_write_ticker, ledger_write_tokenInfo]
  rfl

theorem writeBatch_transfer {r : Records} (h : StoreSound r) {site : OpSite} {t : TokenId}
    {f d : CScript} {n : ℕ} (hpos : 0 < n) (hn : n ≤ r.balance f t) (hfd : f ≠ d) {w : CDBBatch}
    (hw : w = transferWrites site t f d n (r.balance f t) (r.balance d t) (r.addrTokens f)
      (r.addrTokens d) ((r.info t).map (transferInfo (r.balance f t) (r.balance d t) n))) :
    Records.ledger (r.writeBatch w) = r.ledger.apply site (.transfer t f d n) ∧
      HolderIndex (r.writeBatch w) := by
  obtain ⟨i, hi, hid, -⟩ := h.registered (show 0 < r.balance f t by omega)
  let r₁ : Records := rebook r f t (r.balance f t - n)
  have hindex : HolderIndex r₁ := h.index.rebook _ _ _
  have hbal : r₁.balance d t = r.balance d t := by simp [r₁, Ne.symm hfd]
  have haddr : r₁.addrTokens d = r.addrTokens d := by simp [r₁, Ne.symm hfd]
  have hcredit := writeBatch_credit hindex (d := d) (t := t) hpos
  rw [hbal, haddr] at hcredit
  subst hw
  rw [transferWrites, writeBatch_append, writeBatch_append, writeBatch_debit h.index hpos hn,
    hcredit, writeBatch_cons, hi, Option.map_some]
  refine ⟨?_, HolderIndex.infoWrite ((hindex.rebook _ _ _).applyOp _ (by exact not_false)) _⟩
  have hj : (transferInfo (r.balance f t) (r.balance d t) n i).tokenId = t := by
    rw [transferInfo_eq]
    exact hid
  have hli : r.ledger.info t = some i := hi
  rw [ledger_infoWrite _ hj, ledger_transferWrite, ledger_rebook, ledger_rebook]
  simp only [Ledger.apply, if_neg hfd, hli, Option.map_some]
  rfl

theorem writeBatch_selfTransfer {r : Records} (h : StoreSound r) {site : OpSite} {t : TokenId}
    {f : CScript} {n : ℕ} (hpos : 0 < n) (hn : n ≤ r.balance f t) {w : CDBBatch}
    (hw : w = selfTransferWrites site t f n ((r.info t).map selfTransferInfo)) :
    Records.ledger (r.writeBatch w) = r.ledger.apply site (.transfer t f f n) ∧
      HolderIndex (r.writeBatch w) := by
  obtain ⟨i, hi, hid, -⟩ := h.registered (show 0 < r.balance f t by omega)
  subst hw
  rw [selfTransferWrites, writeBatch_cons, hi, Option.map_some]
  refine ⟨?_, HolderIndex.infoWrite (h.index.applyOp _ (by exact not_false)) _⟩
  have hli : r.ledger.info t = some i := hi
  rw [ledger_infoWrite _ (show (selfTransferInfo i).tokenId = t from hid), ledger_transferWrite]
  simp only [Ledger.apply, if_true, hli, Option.map_some]
  rfl

theorem writeBatch_burn {r : Records} (h : StoreSound r) {site : OpSite} {t : TokenId}
    {f : CScript} {n : ℕ} (hpos : 0 < n) (hn : n ≤ r.balance f t) {i : TokenInfo}
    (hi : r.info t = some i) {w : CDBBatch}
    (hw : w = burnWrites site t f n (r.balance f t) (r.addrTokens f)
      (burnInfo (r.balance f t) n i)) :
    Records.ledger (r.writeBatch w) = r.ledger.apply site (.burn t f n) ∧
      HolderIndex (r.writeBatch w) := by
  have hli : r.ledger.info t = some i := hi
  obtain ⟨hid, -, -⟩ := h.ledger.filed t i hli
  let j : TokenInfo := burnInfo (r.balance f t) n i
  have hj : j.tokenId = t := by
    simp only [j, burnInfo_eq]
    exact hid
  have hticker : j.ticker = i.ticker := by simp only [j, burnInfo_eq]
  let r₁ : Records := (rebook r f t (r.balance f t - n)).writeBatch (infoWrite (some j))
  have hindex : HolderIndex r₁ := HolderIndex.infoWrite (h.index.rebook _ _ _) _
  -- the ticker index already points here, so writing it again changes nothing
  have hpointed : Store.read r₁ (.ticker j.ticker) = some j.tokenId := by
    have hold : r.read (.ticker i.ticker) = some t := h.ledger.ticker_of_info t i hli
    simp only [r₁, infoWrite, writeBatch_cons, writeBatch_nil]
    rw [read_write_of_ne _ _ (by simp), rebook_read_of_other _ _ _ _ (by exact not_false),
      hticker, hold, hj]
  have hwrites : r.writeBatch w = r₁.applyOp (transferWrite site t f [] n) := by
    subst hw
    rw [burnWrites, writeBatch_append, writeBatch_append, writeBatch_burnDebit h.index hpos hn]
    show ((r₁.applyOp (.write (.ticker j.ticker) j.tokenId)).applyOp
      (transferWrite site t f [] n) : Records) = _
    rw [applyOp_write_of_read hpointed]
  rw [hwrites]
  refine ⟨?_, hindex.applyOp _ (by exact not_false)⟩
  rw [ledger_transferWrite, ledger_infoWrite _ hj, ledger_rebook]
  simp only [Ledger.apply, hli, Option.map_some]
  rfl

/-- **The writes of an operation do to the ledger what the ledger says.** -/
theorem writeBatch_opWrites {r : Records} (h : StoreSound r) {site : OpSite} {op : TokenOp}
    (hop : op.WellFormed) {w : CDBBatch} (hw : opWrites r site op = some w) :
    Records.ledger (r.writeBatch w) = r.ledger.apply site op ∧ HolderIndex (r.writeBatch w) := by
  cases op with
  | issue issuance issuer =>
    obtain ⟨-, -, rfl⟩ := opWrites_issue_eq hw
    exact writeBatch_issue h hop
  | transfer t f d n =>
    obtain ⟨-, hbal, ⟨rfl, hself⟩ | ⟨hfd, -, hmove⟩⟩ := opWrites_transfer_eq hw
    · exact writeBatch_selfTransfer h hop.1 hbal hself
    · exact writeBatch_transfer h hop.1 hbal hfd hmove
  | burn t f n =>
    obtain ⟨hbal, i, hi, -, hburn⟩ := opWrites_burn_eq hw
    exact writeBatch_burn h hop hbal hi hburn

/-- **Every accepted operation keeps the store sound.** -/
theorem StoreSound.opWrites {r : Records} (h : StoreSound r) {site : OpSite} {op : TokenOp}
    (hop : op.WellFormed) {w : CDBBatch} (hw : opWrites r site op = some w) :
    StoreSound (r.writeBatch w) := by
  obtain ⟨hledger, hindex⟩ := writeBatch_opWrites h hop hw
  have hacc : r.ledger.Accepts site op := (opWrites_isSome_iff r site op).mp (by simp [hw])
  exact ⟨hindex, hledger ▸ h.ledger.apply hop hacc⟩

/-- The undo record is invisible to the token records. -/
theorem agreeOn_undoWrite (r : Records) (site : OpSite) (undo : TokenUndoRecord) :
    AgreeOn IsTokenKey (r.applyOp (undoWrite site undo)) r :=
  fun _ hk => read_applyOp_of_ne r _ fun hkey => by subst hkey; exact hk

/-- **Operations, accepted or not, keep the store sound.** -/
theorem StoreSound.plainOp {r : Records} (h : StoreSound r) (site : OpSite) {op : TokenOp}
    (hop : op.WellFormed) : StoreSound (plainOp r site op).1 := by
  unfold Tokens.plainOp
  split
  · exact h
  · rename_i w hw
    rw [writeBatch_append]
    exact (h.opWrites hop hw).congr (agreeOn_undoWrite _ site _).symm

end OpenSY.Tokens
