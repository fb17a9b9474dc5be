import Mathlib.Data.Prod.Lex
import OpenSY.Lib.Selection
import OpenSY.Tokens.Counts

/-!
# The history of an address

`GetAddressHistory` goes through the transfer records of a token in key order, that is by ascending
height, keeps those of the address, and stops when it has as many as were asked for.  Only then it
sorts what it has, the newest first.

* `historyRows` — the records of a token in the order of the cursor, all of them and each once;
* `getAddressHistory_token` — the records found for one token: the first of the matching ones;
* `getAddressHistory_newest_iff` — hence the newest exactly if there are no more than were asked
  for, or if all are from one block.
-/

namespace OpenSY.Tokens

open OpenSY.Chain OpenSY.Src20 OpenSY.KeyValueStore OpenSY.RecencyCache OpenSY.Selection

/-! ### The transfer records of a token -/

/-- Transfer keys of one token are ordered by height, then txid, then position: height and position
are stored big-endian, and hashes compare as their bytes do. -/
abbrev Place : Type := ℕ ×ₗ Uint256 ×ₗ ℕ

/-- The place of a transfer key of the token. -/
def Key.place (t : TokenId) : Key → Option Place
  | .transfer t' height txid opIndex =>
    if t' = t then some (toLex (height, toLex (txid, opIndex))) else none
  | _ => none

/-- The key at a place. -/
def Place.key (t : TokenId) (p : Place) : Key :=
  .transfer t (ofLex p).1 (ofLex (ofLex p).2).1 (ofLex (ofLex p).2).2

def Place.height (p : Place) : ℕ := (ofLex p).1

theorem Key.place_eq_some {t : TokenId} {k : Key} {p : Place} :
    k.place t = some p ↔ k = p.key t := by
  constructor
  · intro h
    cases k with
    | transfer t' height txid opIndex =>
      simp only [Key.place] at h
      split_ifs at h with ht
      rw [← Option.some.inj h, ht]
      rfl
    | _ => simp [Key.place] at h
  · intro h
    rw [h]
    simp [Key.place, Place.key]

theorem Key.place_injective (t : TokenId) (k k' : Key) (p : Place) (h : p ∈ k.place t)
    (h' : p ∈ k'.place t) :
    k = k' :=
  (place_eq_some.mp h).trans (place_eq_some.mp h').symm

/-- What the cursor meets among the transfer keys of the token, in order. -/
def Records.historyRows (r : Records) (t : TokenId) : List (Place × TokenTransferRecord) :=
  (ascending (r.keys.filterMap (Key.place t) (Key.place_injective t))).filterMap fun p =>
    (r.read (p.key t)).map fun record => (p, record)

theorem mem_historyRows {r : Records} {t : TokenId} {p : Place} {record : TokenTransferRecord} :
    (p, record) ∈ r.historyRows t ↔ r.read (p.key t) = some record := by
  rw [Records.historyRows, List.mem_filterMap]
  constructor
  · rintro ⟨q, -, hq⟩
    obtain ⟨x, hx, heq⟩ := Option.map_eq_some_iff.mp hq
    obtain ⟨rfl, rfl⟩ := Prod.mk.inj heq
    exact hx
  · intro h
    refine ⟨p, ?_, Option.map_eq_some_iff.mpr ⟨record, h, rfl⟩⟩
    rw [mem_ascending, Finset.mem_filterMap]
    refine ⟨p.key t, ?_, Key.place_eq_some.mpr rfl⟩
    rw [Finmap.mem_keys, ← Finmap.lookup_isSome]
    exact Option.isSome_iff_exists.mpr ⟨record, h⟩

/-- The rows are in strictly ascending order, so none is met twice. -/
theorem historyRows_pairwise (r : Records) (t : TokenId) :
    (r.historyRows t).Pairwise fun x y => x.1 < y.1 := by
  have hplaces : (ascending (r.keys.filterMap (Key.place t) (Key.place_injective t))).Pairwise
      (· < ·) := by
    have hle := ascending_pairwise (r.keys.filterMap (Key.place t) (Key.place_injective t))
    exact hle.and (nodup_ascending _) |>.imp fun ⟨h, hne⟩ => lt_of_le_of_ne h hne
  refine List.Pairwise.filterMap _ (fun p q hpq x hx y hy => ?_) hplaces
  obtain ⟨_, -, rfl⟩ := Option.map_eq_some_iff.mp hx
  obtain ⟨_, -, rfl⟩ := Option.map_eq_some_iff.mp hy
  exact hpq

/-! ### The scan -/

/-- `MAX_TOTAL_ITERATIONS` of the history scans. -/
def maxHistoryIterations : ℕ := 100000

structure HistoryScan where
  totalIterations : ℕ := 0
  result : List TokenTransferRecord := []

/-- The loop over the records of one token. -/
def HistoryScan.rows (keep : TokenTransferRecord → Bool) (count : ℕ) :
    HistoryScan → List TokenTransferRecord → HistoryScan
  | s, [] => s
  | s, record :: rest =>
    if count ≤ s.result.length then s
    else if maxHistoryIterations ≤ s.totalIterations then
      { s with totalIterations := maxHistoryIterations + 1 }
    else
      HistoryScan.rows keep count
        ⟨s.totalIterations + 1, if keep record then s.result ++ [record] else s.result⟩ rest

/-- The keys behind all transfer keys: the best block, the block lists and the tickers.  They are
too short to be read as transfer keys, and the loop passes over them. -/
def Key.isBehindTransfers : Key → Bool
  | .bestBlock => true
  | .blockTokens _ => true
  | .ticker _ => true
  | _ => false

/-- Whether there is a transfer key of a later token, which ends the loop. -/
def Key.isTransferBeyond (t : TokenId) : Key → Bool
  | .transfer t' _ _ _ => t < t'
  | _ => false

/-- How many more keys the loop looks at when the records of the token are done. -/
def Records.keysBehind (r : Records) (t : TokenId) : ℕ :=
  if 0 < r.rows (Key.isTransferBeyond t) then 1 else r.rows Key.isBehindTransfers

/-- One token: seek the first key at the start height and go on from there. -/
def HistoryScan.token (r : Records) (keep : TokenTransferRecord → Bool) (startHeight count : ℕ)
    (s : HistoryScan) (t : TokenId) : HistoryScan :=
  let s := s.rows keep count
    (((r.historyRows t).filter fun row => startHeight ≤ row.1.height).map Prod.snd)
  if count ≤ s.result.length then s
  else { s with
    totalIterations := min (s.totalIterations + r.keysBehind t) (maxHistoryIterations + 1) }

def involves (address : CScript) (record : TokenTransferRecord) : Bool :=
  record.fromAddress = address || record.toAddress = address

/-- The order of a history: the greater height first. -/
abbrev HistorySort : Type := Sorting fun a b : TokenTransferRecord => decide (b.height < a.height)

def TokenDB.getAddressHistory (sort : HistorySort) (db : TokenDB) (address : CScript)
    (tokenId : Option TokenId) (startHeight count : ℕ) : List TokenTransferRecord :=
  let searchTokens := match tokenId with
    | some t => [t]
    | none => ascending (db.records.addrTokens address)
  let keep := fun record => involves address record && startHeight ≤ record.height
  let scanned := searchTokens.foldl (fun (s : HistoryScan) t =>
    if maxHistoryIterations < s.totalIterations then s
    else s.token db.records keep startHeight count t) {}
  (sort.run scanned.result).take count

/-- The loop keeps the first matching records among those it has iterations left for. -/
theorem HistoryScan.rows_result (keep : TokenTransferRecord → Bool) (count : ℕ)
    (l : List TokenTransferRecord) {s : HistoryScan} (hlen : s.result.length ≤ count) :
    (s.rows keep count l).result =
      (s.result ++ (l.take (maxHistoryIterations - s.totalIterations)).filter keep).take count := by
  have hdone : ∀ rest, count ≤ s.result.length → (s.result ++ rest).take count = s.result := by
    intro rest hfull
    rw [List.take_append_of_le_length hfull, List.take_of_length_le hlen]
  induction l generalizing s with
  | nil => simp [HistoryScan.rows, List.take_of_length_le hlen]
  | cons record rest ih =>
    rw [HistoryScan.rows]
    split_ifs with hfull hspent hkeep
    · exact (hdone _ hfull).symm
    · rw [Nat.sub_eq_zero_of_le hspent]
      simp [List.take_of_length_le hlen]
    all_goals
      have htake : maxHistoryIterations - s.totalIterations =
          maxHistoryIterations - (s.totalIterations + 1) + 1 := by omega
    · have hlen' : (s.result ++ [record]).length ≤ count := by
        rw [List.length_append, List.length_singleton]
        omega
      rw [ih (s := ⟨s.totalIterations + 1, s.result ++ [record]⟩) hlen' fun rest' hfull' => by
        rw [List.take_append_of_le_length hfull', List.take_of_length_le hlen'], htake,
        List.take_succ_cons, List.filter_cons_of_pos hkeep, List.append_assoc]
      rfl
    · rw [ih (s := ⟨s.totalIterations + 1, s.result⟩) hlen hdone, htake, List.take_succ_cons,
        List.filter_cons_of_neg hkeep]

/-! ### Records and their places -/

/-- Every record is filed under its own token, height and txid. -/
def HistoryFiled (L : Ledger) : Prop :=
  ∀ t k record, L.history t k = some record →
    record.tokenId = t ∧ record.height = k.1 ∧ record.txid = k.2.1

theorem HistoryFiled.apply {L : Ledger} (h : HistoryFiled L) (site : OpSite) (op : TokenOp) :
    HistoryFiled (L.apply site op) := by
  intro t k record hrecord
  rw [Ledger.apply_history] at hrecord
  by_cases ht : t = op.token site
  · rw [ht, Function.update_self] at hrecord
    by_cases hk : k = site.historyKey
    · rw [hk, Function.update_self] at hrecord
      rw [← Option.some.inj hrecord, hk, ht]
      cases op <;> exact ⟨rfl, rfl, rfl⟩
    · rw [Function.update_of_ne hk, ← ht] at hrecord
      exact h t k record hrecord
  · rw [Function.update_of_ne ht] at hrecord
    exact h t k record hrecord

theorem Applied.historyFiled {r r' : Records} {log : OpLog} (happ : Applied r log r')
    (hs : StoreSound r) (h : HistoryFiled r.ledger) : HistoryFiled r'.ledger := by
  induction happ with
  | nil r => exact h
  | @cons r r' site op w log hop hw _ ih =>
    refine ih (storeSound_step hs hop hw _) ?_
    rw [ledger_step hs hop hw]
    exact h.apply site op

theorem Grown.historyFiled {h₀ : ℕ} {r : Records} {rs : List Records} (h : Grown h₀ r rs) :
    HistoryFiled r.ledger := by
  induction h with
  | base =>
    rw [ledger_empty]
    exact fun t k record hrecord => absurd hrecord (by simp [Ledger.empty])
  | step h hstep ih =>
    obtain ⟨time, groups, q, -, happ, rfl⟩ := hstep
    rw [ledger_blockTokensWrite]
    exact happ.historyFiled h.storeSound ih

section Reached

variable {nHeight : Uint256 → ℕ} {root : Uint256} {chain : List BlockEntry} {db : TokenDB}

theorem Reach.historyFiled (h : Reach nHeight root chain db) : HistoryFiled db.records.ledger := by
  obtain ⟨r, rs, htr⟩ := h.tracks_of_empty
  rw [htr.ledger]
  exact htr.grown.historyFiled

theorem Reach.height_of_mem (h : Reach nHeight root chain db) {t : TokenId}
    {row : Place × TokenTransferRecord} (hrow : row ∈ db.records.historyRows t) :
    row.2.height = row.1.height :=
  (h.historyFiled t _ row.2 (mem_historyRows.mp hrow)).2.1

/-- The records come in the order of their heights. -/
theorem Reach.historyRows_heights (h : Reach nHeight root chain db) (t : TokenId) :
    ((db.records.historyRows t).map Prod.snd).Pairwise fun x y => x.height ≤ y.height := by
  rw [List.pairwise_map]
  refine (historyRows_pairwise db.records t).imp_of_mem fun {x y} hx hy hlt => ?_
  rw [h.height_of_mem hx, h.height_of_mem hy]
  exact (Prod.Lex.le_iff.mp hlt.le).elim le_of_lt fun heq => heq.1.le

end Reached

/-! ### What is found -/

/-- The records of a token that involve an address, from a height on. -/
def matchingRecords (r : Records) (address : CScript) (t : TokenId) (startHeight : ℕ) :
    List TokenTransferRecord :=
  ((r.historyRows t).map Prod.snd).filter fun record => involves address record && startHeight ≤
    record.height

/-- The records of a token the cursor gets to. -/
def scannedRecords (r : Records) (t : TokenId) (startHeight : ℕ) : List TokenTransferRecord :=
  (((r.historyRows t).filter fun row => startHeight ≤ row.1.height).map Prod.snd).take
    maxHistoryIterations

/-- **What is found for one token**: the first records that match, of those the cursor gets to. -/
theorem getAddressHistory_token (sort : HistorySort) (db : TokenDB) (address : CScript)
    (t : TokenId) (startHeight count : ℕ) :
    db.getAddressHistory sort address (some t) startHeight count =
      sort.run (((scannedRecords db.records t startHeight).filter fun record =>
        involves address record && startHeight ≤ record.height).take count) := by
  have hrows := HistoryScan.rows_result
    (fun record => involves address record && startHeight ≤ record.height) count
    (((db.records.historyRows t).filter fun row => startHeight ≤ row.1.height).map Prod.snd)
    (s := {}) (Nat.zero_le count)
  have htoken : ∀ (s : HistoryScan) (keep : TokenTransferRecord → Bool),
      (s.token db.records keep startHeight count t).result =
        (s.rows keep count (((db.records.historyRows t).filter fun row =>
          startHeight ≤ row.1.height).map Prod.snd)).result := by
    intro s keep
    simp only [HistoryScan.token]
    split_ifs <;> rfl
  simp only [TokenDB.getAddressHistory, List.foldl_cons, List.foldl_nil]
  rw [if_neg (Nat.not_lt_zero _), htoken, hrows]
  refine List.take_of_length_le ?_
  rw [(sort.perm _).length_eq]
  exact List.length_take_le _ _

section Newest

variable {nHeight : Uint256 → ℕ} {root : Uint256} {chain : List BlockEntry} {db : TokenDB}

/-- The cursor gets to all matching records of a token that has fewer records than the limit. -/
theorem Reach.scannedRecords_filter (h : Reach nHeight root chain db) {t : TokenId}
    (hrows : (db.records.historyRows t).length < maxHistoryIterations) (address : CScript)
    (startHeight : ℕ) :
    ((scannedRecords db.records t startHeight).filter fun record =>
      involves address record && startHeight ≤ record.height) =
        matchingRecords db.records address t startHeight := by
  have hall : scannedRecords db.records t startHeight =
      ((db.records.historyRows t).filter fun row => startHeight ≤ row.1.height).map Prod.snd := by
    refine List.take_of_length_le ?_
    rw [List.length_map]
    exact (List.length_filter_le _ _).trans hrows.le
  have hheights :
      ((db.records.historyRows t).filter fun row => decide (startHeight ≤ row.1.height)) =
      (db.records.historyRows t).filter fun row => decide (startHeight ≤ row.2.height) :=
    List.filter_congr fun row hrow => by rw [h.height_of_mem hrow]
  rw [hall, hheights, matchingRecords, List.filter_map, List.filter_map, List.filter_filter]
  refine congrArg (List.map Prod.snd) (List.filter_congr fun row _ => ?_)
  simp only [Function.comp_apply]
  cases involves address row.2 <;> simp

/-- **The newest records of an address.**  For a token with fewer records than the scan gets to, the
history of an address holds its newest records exactly if it holds all of them, or none was asked
for, or they are all from one height. -/
theorem getAddressHistory_newest_iff (h : Reach nHeight root chain db) (sort : HistorySort)
    (address : CScript) (t : TokenId) (startHeight count : ℕ)
    (hrows : (db.records.historyRows t).length < maxHistoryIterations) :
    let found := matchingRecords db.records address t startHeight
    Newest TokenTransferRecord.height count found
        (db.getAddressHistory sort address (some t) startHeight count) ↔
      count = 0 ∨ found.length ≤ count ∨ ∀ x ∈ found, ∀ y ∈ found, x.height = y.height := by
  intro found
  rw [getAddressHistory_token, h.scannedRecords_filter hrows]
  exact newest_take_iff sort ((h.historyRows_heights t).sublist List.filter_sublist) count

/-- The issuance and the transfer of the sample chain, both of which are asked for. -/
theorem getAddressHistory_newest_sample :
    Newest TokenTransferRecord.height 2 (matchingRecords Sample.moved.records Sample.alice 7 0)
      (Sample.moved.getAddressHistory (Sorting.insertion TokenTransferRecord.height) Sample.alice
        (some 7) 0 2) :=
  (getAddressHistory_newest_iff Sample.reach_moved (Sorting.insertion TokenTransferRecord.height)
    Sample.alice 7 0 2 (by decide +kernel)).mpr (Or.inr (Or.inl (by decide +kernel)))

/-- Asked for one record, the history has the issuance and leaves the later transfer out. -/
theorem oldest_record_returned :
    Reach Sample.sampleHeight 100 [Sample.moveEntry, Sample.issueEntry] Sample.moved ∧
      (Sample.moved.records.historyRows 7).length = 2 ∧
      (matchingRecords Sample.moved.records Sample.alice 7 0).map TokenTransferRecord.height =
        [1, 2] ∧
      (Sample.moved.getAddressHistory (Sorting.insertion TokenTransferRecord.height) Sample.alice
        (some 7) 0 1).map TokenTransferRecord.height = [1] :=
  ⟨Sample.reach_moved, by decide +kernel, by decide +kernel, by decide +kernel⟩

end Newest

end OpenSY.Tokens
