import OpenSY.Tokens.History
import OpenSY.Wallet.Tokens

/-!
# The history of a wallet

`GetTokenHistory` asks for the history of one wallet script after the other, in the order of the set
of scripts.  A transfer between two of them is found twice, so of all entries with the same
transaction and token only the first one is kept.

* `collectHistory_eq` — the entries found, script by script;
* `mem_deduped` — an entry that is kept comes from the first script it is found for;
* `getTokenHistory_complete_iff` — the history has one entry for every movement, marked as received
  if the recipient is the wallet's, exactly if the scan gets to all of them, no transaction moves
  the token twice, and the recipient of every transfer within the wallet comes before the sender.
-/

namespace OpenSY.Wallet

open OpenSY.Chain OpenSY.Script OpenSY.Src20 OpenSY.Tokens OpenSY.Selection OpenSY.DecimalText

structure WalletTokenTx where
  tokenId : TokenId
  ticker : Bytes := []
  txid : Uint256
  fromDest : CTxDestination := .noDestination []
  toDest : CTxDestination := .noDestination []
  amount : ℕ := 0
  amountFormatted : Bytes := [zeroByte]
  height : ℕ := 0
  time : ℤ := 0
  isIncoming : Bool := false
  confirmations : ℕ := 0
  deriving DecidableEq

/-- Entries with the same key count as duplicates. -/
def WalletTokenTx.key (tx : WalletTokenTx) : Uint256 × TokenId := (tx.txid, tx.tokenId)

/-- The entry for a record that was found for a script. -/
def CWallet.tokenTx (w : CWallet) (script : CScript) (record : TokenTransferRecord)
    (info : Option TokenInfo) :
    WalletTokenTx where
  tokenId := record.tokenId
  ticker := (info.map TokenInfo.ticker).getD []
  txid := record.txid
  fromDest := (extractDestination record.fromAddress).getD (.noDestination [])
  toDest := (extractDestination record.toAddress).getD (.noDestination [])
  amount := record.amount
  amountFormatted := (info.map fun i => formatTokenBalance record.amount i.decimals).getD [zeroByte]
  height := record.height
  time := record.time
  isIncoming := record.toAddress = script
  confirmations :=
    if 0 < record.height ∧ record.height ≤ w.lastBlockHeight then
      w.lastBlockHeight - record.height + 1 else 0

/-- The loop over the records found for a script. -/
def CWallet.describe (w : CWallet) (script : CScript) :
    TokenDB → List TokenTransferRecord → List WalletTokenTx × TokenDB
  | db, [] => ([], db)
  | db, record :: rest =>
    let read := db.getTokenInfo record.tokenId
    let later := w.describe script read.2 rest
    (w.tokenTx script record read.1 :: later.1, later.2)

/-- The loop over the scripts. -/
def CWallet.collectHistory (dbSort : HistorySort) (w : CWallet) (tokenId : Option TokenId)
    (count : ℕ) :
    TokenDB → List CScript → List WalletTokenTx × TokenDB
  | db, [] => ([], db)
  | db, script :: rest =>
    let found := w.describe script db (db.getAddressHistory dbSort script tokenId 0 count)
    let later := w.collectHistory dbSort tokenId count found.2 rest
    (found.1 ++ later.1, later.2)

/-- The order of a wallet's history: the greater time first. -/
abbrev WalletHistorySort : Type := Sorting fun a b : WalletTokenTx => decide (b.time < a.time)

/-- Of the entries with one key, the first. -/
def deduped (result : List WalletTokenTx) : List WalletTokenTx :=
  keepFirst WalletTokenTx.key [] result

def CWallet.getTokenHistory (dbSort : HistorySort) (sort : WalletHistorySort) (w : CWallet)
    (db : TokenDB) (tokenId : Option TokenId) (count : ℕ) : List WalletTokenTx × TokenDB :=
  let collected := w.collectHistory dbSort tokenId count db w.walletScripts
  ((sort.run (deduped collected.1)).take count, collected.2)

/-! ### What is collected -/

theorem getAddressHistory_congr {db db' : TokenDB} (h : db'.records = db.records)
    (sort : HistorySort) (address : CScript) (tokenId : Option TokenId) (startHeight count : ℕ) :
    db'.getAddressHistory sort address tokenId startHeight count =
      db.getAddressHistory sort address tokenId startHeight count := by
  simp only [TokenDB.getAddressHistory, h]

theorem describe_spec (w : CWallet) (script : CScript) (records : List TokenTransferRecord) :
    ∀ {db : TokenDB}, InOrder db →
      (w.describe script db records).1 =
          records.map (fun record =>
            w.tokenTx script record (db.records.read (.tokenInfo record.tokenId))) ∧
        SameData db (w.describe script db records).2 ∧
          InOrder (w.describe script db records).2 := by
  induction records with
  | nil => exact fun {db} h => ⟨rfl, SameData.refl db, h⟩
  | cons record rest ih =>
    intro db h
    obtain ⟨hdata, horder⟩ := h.getTokenInfo record.tokenId
    obtain ⟨hrest, hdata', horder'⟩ := ih horder
    refine ⟨?_, hdata.trans hdata', horder'⟩
    show w.tokenTx script record (db.getTokenInfo record.tokenId).1 :: _ = _
    rw [List.map_cons, hrest, hdata.records]
    rw [show (db.getTokenInfo record.tokenId).1 =
      _ from readTokenInfo_fst h.cache h.filed record.tokenId]

/-- **The entries found**, script by script. -/
theorem collectHistory_eq (dbSort : HistorySort) (w : CWallet) (tokenId : Option TokenId)
    (count : ℕ) (scripts : List CScript) : ∀ {db : TokenDB}, InOrder db →
      (w.collectHistory dbSort tokenId count db scripts).1 =
        scripts.flatMap fun script => (db.getAddressHistory dbSort script tokenId 0 count).map
          fun record =>
          w.tokenTx script record (db.records.read (.tokenInfo record.tokenId)) := by
  induction scripts with
  | nil => exact fun _ => rfl
  | cons script rest ih =>
    intro db h
    obtain ⟨hfound, hdata, horder⟩ :=
      describe_spec w script (db.getAddressHistory dbSort script tokenId 0 count) h
    have hrest := ih horder
    simp only [getAddressHistory_congr hdata.records, hdata.records] at hrest
    rw [List.flatMap_cons, ← hfound, ← hrest]
    rfl

/-! ### The movements of a wallet -/

/-- Whether a script of the wallet sent or received. -/
def CWallet.concerns (w : CWallet) (record : TokenTransferRecord) : Bool :=
  record.fromAddress ∈ w.scripts || record.toAddress ∈ w.scripts

/-- The stored records of a token that concern the wallet. -/
def CWallet.movements (w : CWallet) (r : Records) (t : TokenId) : List TokenTransferRecord :=
  ((r.historyRows t).map Prod.snd).filter w.concerns

/-- Those the cursor gets to. -/
def CWallet.seenMovements (w : CWallet) (r : Records) (t : TokenId) : List TokenTransferRecord :=
  (scannedRecords r t 0).filter w.concerns

/-- The entry a movement should have: received, if the recipient is the wallet's. -/
def CWallet.movementTx (w : CWallet) (info : Option TokenInfo)
    (record : TokenTransferRecord) : WalletTokenTx :=
  { w.tokenTx [] record info with isIncoming := record.toAddress ∈ w.scripts }

theorem tokenTx_eq_movementTx {w : CWallet} {script : CScript} {record : TokenTransferRecord}
    {info : Option TokenInfo} (h : record.toAddress = script ↔ record.toAddress ∈ w.scripts) :
    w.tokenTx script record info = w.movementTx info record := by
  simp only [CWallet.movementTx, CWallet.tokenTx, h]

theorem concerns_of_involves {w : CWallet} {script : CScript} {record : TokenTransferRecord}
    (hscript : script ∈ w.scripts) (h : involves script record = true) :
    w.concerns record = true := by
  simp only [involves, Bool.or_eq_true, decide_eq_true_eq] at h
  simp only [CWallet.concerns, Bool.or_eq_true, decide_eq_true_eq]
  rcases h with rfl | rfl
  · exact Or.inl hscript
  · exact Or.inr hscript

/-- Some script of the wallet finds the record. -/
theorem exists_involves {w : CWallet} {record : TokenTransferRecord}
    (h : w.concerns record = true) :
    ∃ script ∈ w.scripts, involves script record = true := by
  simp only [CWallet.concerns, Bool.or_eq_true, decide_eq_true_eq] at h
  rcases h with h | h
  · exact ⟨record.fromAddress, h, by simp [involves]⟩
  · exact ⟨record.toAddress, h, by simp [involves]⟩

theorem scannedRecords_zero (r : Records) (t : TokenId) :
    scannedRecords r t 0 = ((r.historyRows t).map Prod.snd).take maxHistoryIterations := by
  simp [scannedRecords]

/-- The cursor gets to all movements exactly if none lies beyond its limit. -/
theorem movements_eq (w : CWallet) (r : Records) (t : TokenId) :
    w.movements r t =
      w.seenMovements r t ++ (((r.historyRows t).drop maxHistoryIterations).map Prod.snd).filter
        w.concerns := by
  rw [CWallet.movements, CWallet.seenMovements, scannedRecords_zero, ← List.filter_append,
    ← List.map_take, ← List.map_append, List.take_append_drop]

section Reached

variable {nHeight : Uint256 → ℕ} {root : Uint256} {chain : List BlockEntry} {db : TokenDB}
  (dbSort : HistorySort) {w : CWallet} {t : TokenId} {count : ℕ}

/-- With room for all movements of the wallet, a script finds all of its own that the cursor gets
to. -/
theorem mem_getAddressHistory (hcount : (w.movements db.records t).length ≤ count)
    {script : CScript} (hscript : script ∈ w.scripts) {record : TokenTransferRecord} :
    record ∈ db.getAddressHistory dbSort script (some t) 0 count ↔
      record ∈ w.seenMovements db.records t ∧ involves script record = true := by
  have hown : ((scannedRecords db.records t 0).filter fun record => involves script record && 0 ≤
      record.height) =
      (w.seenMovements db.records t).filter (involves script) := by
    rw [CWallet.seenMovements, List.filter_filter]
    refine List.filter_congr fun record _ => ?_
    cases hinv : involves script record with
    | false => simp
    | true => simp [concerns_of_involves hscript hinv]
  have hlen : ((w.seenMovements db.records t).filter (involves script)).length ≤ count := by
    rw [movements_eq, List.length_append] at hcount
    exact (List.length_filter_le _ _).trans ((Nat.le_add_right _ _).trans hcount)
  rw [getAddressHistory_token, hown, List.take_of_length_le hlen, (dbSort.perm _).mem_iff,
    List.mem_filter]

theorem tokenId_of_seen (h : Reach nHeight root chain db) {record : TokenTransferRecord}
    (hrecord : record ∈ w.seenMovements db.records t) : record.tokenId = t := by
  have hscanned := List.mem_of_mem_filter hrecord
  rw [scannedRecords_zero] at hscanned
  obtain ⟨row, hrow, rfl⟩ := List.mem_map.mp (List.mem_of_mem_take hscanned)
  exact (h.historyFiled t _ row.2 (mem_historyRows.mp hrow)).1

/-- An entry is collected for every script of the wallet a movement involves. -/
theorem mem_collectHistory (h : Reach nHeight root chain db)
    (hcount : (w.movements db.records t).length ≤ count) {script : CScript} {tx : WalletTokenTx}
    (hscript : script ∈ w.scripts) :
    (tx ∈ (db.getAddressHistory dbSort script (some t) 0 count).map fun record =>
        w.tokenTx script record (db.records.read (.tokenInfo record.tokenId))) ↔
      ∃ record ∈ w.seenMovements db.records t, involves script record = true ∧
        tx = w.tokenTx script record (db.records.read (.tokenInfo t)) := by
  rw [List.mem_map]
  constructor
  · rintro ⟨record, hrecord, rfl⟩
    obtain ⟨hseen, hinv⟩ := (mem_getAddressHistory dbSort hcount hscript).mp hrecord
    exact ⟨record, hseen, hinv, by rw [tokenId_of_seen h hseen]⟩
  · rintro ⟨record, hseen, hinv, rfl⟩
    exact ⟨record, (mem_getAddressHistory dbSort hcount hscript).mpr ⟨hseen, hinv⟩,
      by rw [tokenId_of_seen h hseen]⟩

/-- **An entry that is kept** comes from the first script it is found for. -/
theorem mem_deduped (h : Reach nHeight root chain db)
    (hcount : (w.movements db.records t).length ≤ count) {tx : WalletTokenTx}
    (htx : tx ∈ deduped (w.collectHistory dbSort (some t) count db w.walletScripts).1) :
    ∃ script ∈ w.scripts, ∃ record ∈ w.seenMovements db.records t, involves script record = true ∧
      tx = w.tokenTx script record (db.records.read (.tokenInfo t)) ∧
      ∀ script' ∈ w.scripts, scriptRank script' < scriptRank script →
        involves script' record = false := by
  obtain ⟨r, rs, htr⟩ := h.tracks_of_empty
  rw [collectHistory_eq dbSort w (some t) count w.walletScripts htr.inOrder] at htx
  obtain ⟨script, hscript, hfound, hfirst⟩ := mem_keepFirst_flatMap (walletScripts_pairwise w) htx
  rw [mem_walletScripts] at hscript
  obtain ⟨record, hseen, hinv, rfl⟩ := (mem_collectHistory dbSort h hcount hscript).mp hfound
  refine ⟨script, hscript, record, hseen, hinv, rfl, fun script' hscript' hlt => ?_⟩
  by_contra hinv'
  rw [Bool.not_eq_false] at hinv'
  have hentry := (mem_collectHistory dbSort h hcount hscript').mpr ⟨record, hseen, hinv', rfl⟩
  exact hfirst script' (mem_walletScripts.mpr hscript') hlt _ hentry rfl

/-- Every movement the cursor gets to has an entry with its transaction. -/
theorem exists_mem_deduped (h : Reach nHeight root chain db)
    (hcount : (w.movements db.records t).length ≤ count) {record : TokenTransferRecord}
    (hseen : record ∈ w.seenMovements db.records t) :
    ∃ tx ∈ deduped (w.collectHistory dbSort (some t) count db w.walletScripts).1,
      tx.txid = record.txid := by
  obtain ⟨r, rs, htr⟩ := h.tracks_of_empty
  obtain ⟨script, hscript, hinv⟩ := exists_involves (List.mem_filter.mp hseen).2
  have hentry := (mem_collectHistory dbSort h hcount hscript).mpr ⟨record, hseen, hinv, rfl⟩
  have hmem : w.tokenTx script record (db.records.read (.tokenInfo t)) ∈
      (w.collectHistory dbSort (some t) count db w.walletScripts).1 := by
    rw [collectHistory_eq dbSort w (some t) count w.walletScripts htr.inOrder, List.mem_flatMap]
    exact ⟨script, mem_walletScripts.mpr hscript, hentry⟩
  have hunseen : WalletTokenTx.key (w.tokenTx script record (db.records.read (.tokenInfo t))) ∉
      ([] : List (Uint256 × TokenId)) := List.not_mem_nil
  obtain ⟨tx, htx, hkey⟩ := exists_mem_keepFirst hmem hunseen
  exact ⟨tx, htx, (Prod.mk.inj hkey).1⟩

/-- There are no more entries than movements the cursor gets to, counted by their transactions. -/
theorem deduped_subperm (h : Reach nHeight root chain db)
    (hcount : (w.movements db.records t).length ≤ count) :
    ((deduped (w.collectHistory dbSort (some t) count db w.walletScripts).1).map
      WalletTokenTx.key).Subperm
      (((w.seenMovements db.records t).map TokenTransferRecord.txid).map fun txid =>
        (txid, t)) := by
  refine List.subperm_of_subset (nodup_keepFirst _ _ _) fun key hkey => ?_
  obtain ⟨tx, htx, rfl⟩ := List.mem_map.mp hkey
  obtain ⟨script, -, record, hseen, -, rfl, -⟩ := mem_deduped dbSort h hcount htx
  rw [List.map_map]
  refine List.mem_map.mpr ⟨record, hseen, ?_⟩
  show (record.txid, t) = (record.txid, record.tokenId)
  rw [tokenId_of_seen h hseen]

/-- A movement is told by its transaction. -/
theorem eq_of_txid {records : List TokenTransferRecord}
    (hnodup : (records.map TokenTransferRecord.txid).Nodup) {record record' : TokenTransferRecord}
    (h : record ∈ records) (h' : record' ∈ records)
    (htxid : record.txid = record'.txid) : record = record' :=
  List.inj_on_of_nodup_map hnodup h h' htxid

/-- The order of the scripts that makes the first entry of every transfer within the wallet the
received one. -/
def CWallet.RecipientsFirst (w : CWallet) (records : List TokenTransferRecord) : Prop :=
  ∀ record ∈ records, record.fromAddress ∈ w.scripts → record.toAddress ∈ w.scripts →
    record.fromAddress ≠ record.toAddress →
      scriptRank record.toAddress < scriptRank record.fromAddress

/-- If recipients come first, what is kept is marked as received exactly if it was. -/
theorem tokenTx_of_first {script : CScript} {record : TokenTransferRecord} (info : Option TokenInfo)
    (hscript : script ∈ w.scripts) (hinv : involves script record = true)
    (hfirst : ∀ script' ∈ w.scripts, scriptRank script' < scriptRank script →
      involves script' record = false)
    (hrank : record.fromAddress ∈ w.scripts → record.toAddress ∈ w.scripts →
      record.fromAddress ≠ record.toAddress →
      scriptRank record.toAddress < scriptRank record.fromAddress) :
    w.tokenTx script record info = w.movementTx info record := by
  refine tokenTx_eq_movementTx ⟨fun heq => heq ▸ hscript, fun hto => ?_⟩
  by_contra hne
  have hfrom : record.fromAddress = script := by
    simp only [involves, Bool.or_eq_true, decide_eq_true_eq] at hinv
    exact hinv.resolve_right hne
  have hlt := hrank (hfrom ▸ hscript) hto fun heq => hne (heq.symm.trans hfrom)
  have hnot := hfirst record.toAddress hto (hfrom ▸ hlt)
  simp [involves] at hnot

theorem deduped_perm (h : Reach nHeight root chain db)
    (hcount : (w.movements db.records t).length ≤ count)
    (hseen : w.movements db.records t = w.seenMovements db.records t)
    (hnodup : ((w.movements db.records t).map TokenTransferRecord.txid).Nodup)
    (hrank : w.RecipientsFirst (w.movements db.records t)) :
    (deduped (w.collectHistory dbSort (some t) count db w.walletScripts).1).Perm
      ((w.movements db.records t).map (w.movementTx (db.records.read (.tokenInfo t)))) := by
  have hkept : ∀ tx ∈ deduped (w.collectHistory dbSort (some t) count db w.walletScripts).1,
      ∃ record ∈ w.movements db.records t,
        w.movementTx (db.records.read (.tokenInfo t)) record = tx := by
    intro tx htx
    obtain ⟨script, hscript, record, hrecord, hinv, rfl, hfirst⟩ := mem_deduped dbSort h hcount htx
    rw [← hseen] at hrecord
    exact ⟨record, hrecord, (tokenTx_of_first _ hscript hinv hfirst (hrank record hrecord)).symm⟩
  have hnodup' :
      ((w.movements db.records t).map (w.movementTx (db.records.read (.tokenInfo t)))).Nodup := by
    refine List.Nodup.of_map WalletTokenTx.txid ?_
    rw [List.map_map]
    exact hnodup
  refine (List.perm_ext_iff_of_nodup (nodup_keepFirst WalletTokenTx.key _ _).of_map hnodup').mpr
    fun tx => ?_
  rw [List.mem_map]
  refine ⟨hkept tx, ?_⟩
  rintro ⟨record, hrecord, rfl⟩
  -- some entry of the same transaction is kept, and it can only be this one
  obtain ⟨tx, htx, htxid⟩ := exists_mem_deduped dbSort h hcount (hseen ▸ hrecord)
  obtain ⟨record', hrecord', rfl⟩ := hkept tx htx
  rw [eq_of_txid hnodup hrecord hrecord' htxid.symm]
  exact htx

theorem of_deduped_perm (h : Reach nHeight root chain db)
    (hcount : (w.movements db.records t).length ≤ count)
    (hperm : (deduped (w.collectHistory dbSort (some t) count db w.walletScripts).1).Perm
      ((w.movements db.records t).map (w.movementTx (db.records.read (.tokenInfo t))))) :
    w.movements db.records t = w.seenMovements db.records t ∧
      ((w.movements db.records t).map TokenTransferRecord.txid).Nodup ∧
      w.RecipientsFirst (w.movements db.records t) := by
  have hkeys := deduped_subperm dbSort h hcount
  have hlen : (deduped (w.collectHistory dbSort (some t) count db w.walletScripts).1).length =
      (w.movements db.records t).length := by
    rw [hperm.length_eq, List.length_map]
  -- there are as many entries as movements, so none was out of reach and none shared its
  -- transaction
  have hseen : w.movements db.records t = w.seenMovements db.records t := by
    have hle := hkeys.length_le
    simp only [List.length_map] at hle
    have hsub : (w.seenMovements db.records t).Sublist (w.movements db.records t) := by
      rw [movements_eq]
      exact List.sublist_append_left _ _
    exact (hsub.eq_of_length_le (hlen ▸ hle)).symm
  have hnodup : ((w.movements db.records t).map TokenTransferRecord.txid).Nodup := by
    have hall := hkeys.perm_of_length_le (by simp only [List.length_map]; rw [hlen, hseen])
    rw [hseen]
    exact (hall.nodup_iff.mp (nodup_keepFirst _ _ _)).of_map
  refine ⟨hseen, hnodup, fun record hrecord hfrom hto hne => ?_⟩
  obtain ⟨script, hscript, record', hrecord', -, htx, hfirst⟩ := mem_deduped dbSort h hcount
    (hperm.mem_iff.mpr (List.mem_map_of_mem hrecord))
  have htxid : record.txid = record'.txid := congrArg WalletTokenTx.txid htx
  obtain rfl := eq_of_txid hnodup hrecord (hseen ▸ hrecord') htxid
  -- the entry says received, so it was found for the recipient; the sender has none before
  have hin : record.toAddress = script := by
    have hflag : decide (record.toAddress ∈ w.scripts) = decide (record.toAddress = script) :=
      congrArg WalletTokenTx.isIncoming htx
    simpa [hto] using hflag
  by_contra hnlt
  have hlt : scriptRank record.fromAddress < scriptRank script := by
    rw [← hin]
    exact lt_of_le_of_ne (not_lt.mp hnlt) (scriptRank_injective.ne hne)
  have hnot := hfirst record.fromAddress hfrom hlt
  simp [involves] at hnot

/-- **The history of a wallet has every movement once.**  With room for all movements of a token,
the history has exactly one entry for each, marked as received if the recipient is the wallet's,
exactly if the scan gets to all of them, no transaction moves the token twice, and the recipient of
every transfer within the wallet comes before its sender in the order of scripts. -/
theorem getTokenHistory_complete_iff (h : Reach nHeight root chain db) (dbSort : HistorySort)
    (sort : WalletHistorySort) (w : CWallet) (t : TokenId) (count : ℕ)
    (hcount : (w.movements db.records t).length < count) :
    (w.getTokenHistory dbSort sort db (some t) count).1.Perm
        ((w.movements db.records t).map (w.movementTx (db.records.read (.tokenInfo t)))) ↔
      (∀ row ∈ (db.records.historyRows t).drop maxHistoryIterations, w.concerns row.2 = false) ∧
        ((w.movements db.records t).map TokenTransferRecord.txid).Nodup ∧
        w.RecipientsFirst (w.movements db.records t) := by
  have hseen : w.movements db.records t = w.seenMovements db.records t ↔
      ∀ row ∈ (db.records.historyRows t).drop maxHistoryIterations, w.concerns row.2 = false := by
    rw [movements_eq, List.append_right_eq_self, List.filter_eq_nil_iff]
    simp only [List.mem_map, forall_exists_index, and_imp, forall_apply_eq_imp_iff₂,
      Bool.not_eq_true]
  have hall : (w.getTokenHistory dbSort sort db (some t) count).1.Perm
      (deduped (w.collectHistory dbSort (some t) count db w.walletScripts).1) := by
    have hroom :
        (sort.run (deduped (w.collectHistory dbSort (some t) count db w.walletScripts).1)).length ≤
        count := by
      have hle := (deduped_subperm dbSort h hcount.le).length_le
      simp only [List.length_map] at hle
      rw [movements_eq, List.length_append] at hcount
      rw [(sort.perm _).length_eq]
      omega
    simp only [CWallet.getTokenHistory, List.take_of_length_le hroom]
    exact sort.perm _
  rw [← hseen]
  constructor
  · exact fun hperm => of_deduped_perm dbSort h hcount.le (hall.symm.trans hperm)
  · rintro ⟨hreach, hnodup, hrank⟩
    exact hall.trans (deduped_perm dbSort h hcount.le hreach hnodup hrank)

end Reached

/-! ### Small wallets -/

namespace Sample

open OpenSY.Tokens.Sample

/-- A wallet of the given scripts that has seen the second block. -/
def holding (scripts : List CScript) : CWallet := ⟨[], [scripts], [], 2⟩

/-- A block with a transaction that moves the token twice. -/
def twiceEntry : BlockEntry where
  block := ⟨102, 101, 0,
    [coinbase 2, ⟨8, [⟨⟨6, 0⟩⟩],
      [⟨0, buildTransferScript ⟨7, 3⟩⟩, ⟨0, bob⟩, ⟨0, buildTransferScript ⟨7, 2⟩⟩]⟩]⟩
  blockundo := ⟨[⟨[⟨⟨0, alice⟩⟩]⟩]⟩

def movedTwice : TokenDB := (processBlock [] issued twiceEntry.block 2 twiceEntry.blockundo).1

theorem reach_movedTwice : Reach sampleHeight 100 [twiceEntry, issueEntry] movedTwice :=
  (run_issued _).connectNext
    (show Extends sampleHeight 101 twiceEntry.block from ⟨rfl, by decide, by decide⟩) []

abbrev dbSort : HistorySort := Sorting.insertion TokenTransferRecord.height

abbrev walletSort : WalletHistorySort := Sorting.insertion WalletTokenTx.time

end Sample

open OpenSY.Tokens.Sample Sample

/-- The sender's wallet has the issuance and the transfer of the sample chain. -/
theorem getTokenHistory_complete_sender :
    ((holding [alice]).getTokenHistory dbSort walletSort moved (some 7) 3).1.Perm
      (((holding [alice]).movements moved.records 7).map
        ((holding [alice]).movementTx (moved.records.read (.tokenInfo 7)))) :=
  (getTokenHistory_complete_iff reach_moved dbSort walletSort (holding [alice]) 7 3
    (by decide +kernel)).mpr
    ⟨by decide +kernel, by decide +kernel, by unfold CWallet.RecipientsFirst; decide +kernel⟩

/-- A wallet with both addresses has the transfer as sent, not as received.  The recipient's wallet
has one entry for the two movements of a transaction, the second is lost. -/
theorem movement_lost_or_misdirected :
    Reach sampleHeight 100 [moveEntry, issueEntry] moved ∧
      ((holding [alice, bob]).movements moved.records 7).map
        (fun r => (r.fromAddress, r.toAddress)) = [([], alice), (alice, bob)] ∧
      (((holding [alice, bob]).getTokenHistory dbSort walletSort moved (some 7) 3).1.map fun tx =>
        (tx.txid, tx.isIncoming)) = [(8, false), (7, true)] ∧
      Reach sampleHeight 100 [twiceEntry, issueEntry] movedTwice ∧
      ((holding [bob]).movements movedTwice.records 7).map (fun r => (r.txid, r.amount)) =
        [(8, 3), (8, 2)] ∧
      (((holding [bob]).getTokenHistory dbSort walletSort movedTwice (some 7) 3).1.map fun tx =>
        (tx.txid, tx.amount)) = [(8, 3)] :=
  ⟨reach_moved, by decide +kernel, by decide +kernel,
    reach_movedTwice, by decide +kernel, by decide +kernel⟩

end OpenSY.Wallet
