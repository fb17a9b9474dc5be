import OpenSY.Lib.KeyOrder
import OpenSY.Script.SigHash
import OpenSY.Tokens.History

/-!
# Transfer keys in the database

`TransferKey::Serialize` of `tokens/tokendb.cpp` with the bytes it writes, and `GetTokenHistory` as
it goes through the keys of the whole database in byte order, reading each one back.

* `transferCode_lt_iff`: transfer keys compare as token, height, txid and position do.
* `mem_cursorFrom`: what the cursor meets from a key on.
* `cursor_split`: from the first key of a height on it meets the records of the token from that
  height, in order, and only then anything else.
* `token_history_complete`: in a reachable database the scan returns the first of these records.
-/

namespace OpenSY.Tokens

open OpenSY.Chain OpenSY.Src20 OpenSY.KeyValueStore OpenSY.Selection OpenSY.KeyOrder OpenSY.Script

/-! ### Serialisation -/

/-- `ser_writedata16be` and `ser_writedata32be`, for a width in bytes. -/
def serWritedataBE (width n : ℕ) : Bytes := (writeLE width n).reverse

/-- `db_prefix::TRANSFER` -/
def transferTag : UInt8 := 0x58

/-- `TransferKey::Serialize`; the casts to `uint32_t` and `uint16_t` keep the low digits. -/
def transferBytes (tokenId : TokenId) (height : ℕ) (txid : Uint256) (opIndex : ℕ) : Bytes :=
  transferTag :: (uint256Bytes tokenId ++ (serWritedataBE 4 height ++
    (uint256Bytes txid ++ serWritedataBE 2 opIndex)))

/-- A transfer key with the ranges of its fields: the height is an `int`, the position a `uint16_t`.
-/
structure TransferKey where
  tokenId : TokenId
  height : Fin (2 ^ 31)
  txid : Uint256
  opIndex : Fin (2 ^ 16)
deriving DecidableEq

def TransferKey.serialize (k : TransferKey) : Bytes :=
  transferBytes k.tokenId k.height k.txid k.opIndex

/-- The bytes of every key of the database. -/
def Key.bytes : Key → Bytes
  | .tokenInfo tokenId => 0x54 :: uint256Bytes tokenId
  | .ticker name => 0x74 :: serScript name
  | .balance address tokenId => 0x42 :: (serScript address ++ uint256Bytes tokenId)
  | .tokenHolders tokenId address => 0x48 :: (uint256Bytes tokenId ++ serScript address)
  | .addrTokens address => 0x41 :: serScript address
  | .transfer tokenId height txid opIndex => transferBytes tokenId height txid opIndex
  | .undo height txid opIndex =>
    0x55 :: (serWritedataBE 4 height ++ (uint256Bytes txid ++ serWritedataBE 2 opIndex))
  | .blockTokens height => 0x62 :: serWritedataBE 4 height
  | .bestBlock => [0x5A]

/-- Byte strings as LevelDB compares them: by the numbers of their bytes, the first ones first. -/
def code (bytes : Bytes) : List ℕ := bytes.map UInt8.toNat

/-- What `TransferKey::Unserialize` reads. -/
structure ReadKey where
  tag : ℕ
  tokenId : TokenId
  height : ℕ
  txid : Uint256
  opIndex : ℕ
deriving DecidableEq

/-- `GetKey` into a transfer key: it fails on a key that is too short and ignores what follows. -/
def getKey (key : List ℕ) : Option ReadKey :=
  if key.length < 71 then none
  else some {
    tag := key.getD 0 0
    tokenId := BitVec.ofNat 256 (ofBigEndian ((key.drop 1).take 32))
    height := ofBigEndian ((key.drop 33).take 4)
    txid := BitVec.ofNat 256 (ofBigEndian ((key.drop 37).take 32))
    opIndex := ofBigEndian ((key.drop 69).take 2) }

/-! ### `GetTokenHistory` -/

/-- The keys from `seek` on, in byte order. -/
def Records.cursorFrom (r : Records) (seek : List ℕ) : List (List ℕ) :=
  (ascending (r.keys.image fun k => code k.bytes)).filter fun key => seek ≤ key

/-- `GetValue` at a transfer key. -/
def Records.recordAt (r : Records) (key : ReadKey) : Option TokenTransferRecord :=
  r.read (.transfer key.tokenId key.height key.txid key.opIndex)

/-- The loop of `GetTokenHistory` over the keys that are left. -/
def tokenHistoryLoop (r : Records) (t : TokenId) (startHeight count : ℕ) :
    ℕ → List TokenTransferRecord → List (List ℕ) → List TokenTransferRecord
  | _, result, [] => result
  | totalIterations, result, key :: rest =>
    if count ≤ result.length then result
    else if maxHistoryIterations < totalIterations + 1 then result
    else
      match getKey key with
      | none => tokenHistoryLoop r t startHeight count (totalIterations + 1) result rest
      | some read =>
        if read.tag ≠ transferTag.toNat ∨ read.tokenId ≠ t then result
        else
          match r.recordAt read with
          | none => tokenHistoryLoop r t startHeight count (totalIterations + 1) result rest
          | some record =>
            tokenHistoryLoop r t startHeight count (totalIterations + 1)
              (if startHeight ≤ record.height then result ++ [record] else result) rest

def TokenDB.getTokenHistory (db : TokenDB) (t : TokenId) (startHeight count : ℕ) :
    List TokenTransferRecord :=
  tokenHistoryLoop db.records t startHeight count 0 []
    (db.records.cursorFrom (code (transferBytes t startHeight 0 0)))

/-! ### The order of the keys -/

theorem code_serWritedataBE (width n : ℕ) : code (serWritedataBE width n) = bigEndian width n := by
  rw [serWritedataBE, code]
  induction width generalizing n with
  | zero => rfl
  | succ width ih =>
    rw [writeLE, List.reverse_cons, List.map_append, ih, bigEndian]
    rfl

theorem code_uint256Bytes (x : Uint256) : code (uint256Bytes x) = bigEndian 32 x.toNat :=
  code_serWritedataBE 32 x.toNat

/-- The digits of a transfer key, field by field. -/
def transferCode (t : TokenId) (height : ℕ) (txid : Uint256) (opIndex : ℕ) : List ℕ :=
  transferTag.toNat :: (bigEndian 32 t.toNat ++ (bigEndian 4 height ++
    (bigEndian 32 txid.toNat ++ bigEndian 2 opIndex)))

theorem code_transferBytes (t : TokenId) (height : ℕ) (txid : Uint256) (opIndex : ℕ) :
    code (transferBytes t height txid opIndex) = transferCode t height txid opIndex := by
  rw [transferCode, ← code_uint256Bytes, ← code_uint256Bytes, ← code_serWritedataBE,
    ← code_serWritedataBE]
  simp only [code, transferBytes, List.map_cons, List.map_append]

theorem toNat_lt_digits (x : Uint256) : x.toNat < 256 ^ 32 := x.isLt

theorem hashDigits_lt_iff (x y : Uint256) : bigEndian 32 x.toNat < bigEndian 32 y.toNat ↔ x < y :=
  bigEndian_lt_iff (toNat_lt_digits x) (toNat_lt_digits y)

theorem hashDigits_inj (x y : Uint256) : bigEndian 32 x.toNat = bigEndian 32 y.toNat ↔ x = y :=
  (bigEndian_inj (toNat_lt_digits x) (toNat_lt_digits y)).trans BitVec.toNat_inj

/-- Transfer keys compare as token, height, txid and position do, in this order. -/
theorem transferCode_lt_iff {t t' : TokenId} {height height' : ℕ} {txid txid' : Uint256}
    {opIndex opIndex' : ℕ} (hh : height < 2 ^ 31) (hh' : height' < 2 ^ 31) (hi : opIndex < 2 ^ 16)
    (hi' : opIndex' < 2 ^ 16) :
    transferCode t height txid opIndex < transferCode t' height' txid' opIndex' ↔
      t < t' ∨ t = t' ∧ (height < height' ∨ height = height' ∧
        (txid < txid' ∨ txid = txid' ∧ opIndex < opIndex')) := by
  rw [transferCode, transferCode, List.cons_lt_cons_iff, append_lt_append_iff (by simp),
    append_lt_append_iff (by simp), append_lt_append_iff (by simp), hashDigits_lt_iff t,
      hashDigits_inj t,
    hashDigits_lt_iff txid, hashDigits_inj txid, bigEndian_lt_iff (by omega) (by omega),
    bigEndian_inj (by omega) (by omega), bigEndian_lt_iff (by omega) (by omega)]
  simp

theorem transferCode_inj {t t' : TokenId} {height height' : ℕ} {txid txid' : Uint256}
    {opIndex opIndex' : ℕ} (hh : height < 2 ^ 31) (hh' : height' < 2 ^ 31) (hi : opIndex < 2 ^ 16)
    (hi' : opIndex' < 2 ^ 16)
    (h : transferCode t height txid opIndex = transferCode t' height' txid' opIndex') :
    t = t' ∧ height = height' ∧ txid = txid' ∧ opIndex = opIndex' := by
  obtain ⟨ht, h⟩ := List.append_inj (List.cons.inj h).2 (by simp)
  obtain ⟨hheight, h⟩ := List.append_inj h (by simp)
  obtain ⟨htxid, hop⟩ := List.append_inj h (by simp)
  exact ⟨(hashDigits_inj t t').mp ht, (bigEndian_inj (by omega) (by omega)).mp hheight,
    (hashDigits_inj txid txid').mp htxid, (bigEndian_inj (by omega) (by omega)).mp hop⟩

/-- The bytes of two keys compare as their fields do. -/
theorem TransferKey.serialize_lt_iff (k k' : TransferKey) : code k.serialize < code k'.serialize ↔
    toLex (code (uint256Bytes k.tokenId),
      toLex (k.height, toLex (code (uint256Bytes k.txid), k.opIndex))) <
      toLex (code (uint256Bytes k'.tokenId),
        toLex (k'.height, toLex (code (uint256Bytes k'.txid), k'.opIndex))) := by
  rw [TransferKey.serialize, TransferKey.serialize, code_transferBytes, code_transferBytes,
    transferCode_lt_iff k.height.isLt k'.height.isLt k.opIndex.isLt k'.opIndex.isLt]
  simp only [Prod.Lex.toLex_lt_toLex, code_uint256Bytes, hashDigits_lt_iff, hashDigits_inj,
    Fin.lt_def, Fin.ext_iff]

/-- Distinct keys have distinct bytes. -/
theorem TransferKey.serialize_inj : Function.Injective TransferKey.serialize := by
  rintro ⟨t, height, txid, opIndex⟩ ⟨t', height', txid', opIndex'⟩ h
  have hcode := congrArg code h
  rw [TransferKey.serialize, TransferKey.serialize, code_transferBytes, code_transferBytes] at hcode
  obtain ⟨rfl, hheight, rfl, hop⟩ :=
    transferCode_inj height.isLt height'.isLt opIndex.isLt opIndex'.isLt hcode
  rw [Fin.ext hheight, Fin.ext hop]

/-! ### Reading keys back -/

theorem transferCode_length (t : TokenId) (height : ℕ) (txid : Uint256) (opIndex : ℕ) :
    (transferCode t height txid opIndex).length = 71 := by
  simp [transferCode]

theorem getKey_transferCode (t : TokenId) {height : ℕ} (txid : Uint256) {opIndex : ℕ}
    (hh : height < 2 ^ 31) (hi : opIndex < 2 ^ 16) :
    getKey (transferCode t height txid opIndex) =
      some ⟨transferTag.toNat, t, height, txid, opIndex⟩ := by
  have hhash : ∀ x : Uint256, BitVec.ofNat 256 (ofBigEndian (bigEndian 32 x.toNat)) = x := by
    intro x
    rw [ofBigEndian_bigEndian (toNat_lt_digits x), BitVec.ofNat_toNat, BitVec.setWidth_eq]
  have hfour : ofBigEndian (bigEndian 4 height) = height := ofBigEndian_bigEndian (by omega)
  have htwo : ofBigEndian (bigEndian 2 opIndex) = opIndex := ofBigEndian_bigEndian (by omega)
  -- the four fields behind the tag, each at its offset
  have hdrop₁ : (transferCode t height txid opIndex).drop 1 = bigEndian 32 t.toNat ++
      (bigEndian 4 height ++ (bigEndian 32 txid.toNat ++ bigEndian 2 opIndex)) := rfl
  have hdrop₂ : (transferCode t height txid opIndex).drop 33 = bigEndian 4 height ++
      (bigEndian 32 txid.toNat ++ bigEndian 2 opIndex) := by
    rw [show 33 = 1 + 32 from rfl, ← List.drop_drop, hdrop₁, List.drop_left' (by simp)]
  have hdrop₃ : (transferCode t height txid opIndex).drop 37 = bigEndian 32 txid.toNat ++
      bigEndian 2 opIndex := by
    rw [show 37 = 33 + 4 from rfl, ← List.drop_drop, hdrop₂, List.drop_left' (by simp)]
  have hdrop₄ : (transferCode t height txid opIndex).drop 69 = bigEndian 2 opIndex := by
    rw [show 69 = 37 + 32 from rfl, ← List.drop_drop, hdrop₃, List.drop_left' (by simp)]
  rw [getKey, if_neg (by rw [transferCode_length]; decide), hdrop₁, hdrop₂, hdrop₃, hdrop₄,
    List.take_left' (by simp), List.take_left' (by simp), List.take_left' (by simp),
    List.take_of_length_le (by simp), hhash, hhash, hfour, htwo]
  rfl

/-- The front of all transfer keys of a token. -/
def tokenFront (t : TokenId) : List ℕ := transferTag.toNat :: bigEndian 32 t.toNat

theorem tokenFront_transferCode (t : TokenId) (height : ℕ) (txid : Uint256) (opIndex : ℕ) :
    tokenFront t <+: transferCode t height txid opIndex :=
  ⟨_, rfl⟩

/-- Only the transfer keys of the token have that front: the other keys have other tags. -/
theorem Key.eq_transfer_of_front {t : TokenId} {k : Key} (h : tokenFront t <+: code k.bytes) :
    ∃ height txid opIndex, k = .transfer t height txid opIndex := by
  obtain ⟨rest, hrest⟩ := h
  cases k with
  | transfer t' height txid opIndex =>
    rw [Key.bytes, code_transferBytes, transferCode] at hrest
    have htoken := (List.append_inj (List.cons.inj hrest).2 (by simp)).1
    exact ⟨height, txid, opIndex, by rw [(hashDigits_inj t t').mp htoken]⟩
  | _ => exact absurd (List.cons.inj hrest).1 (by decide)

/-- A key that is read as a transfer key of the token has the front. -/
theorem front_of_getKey {t : TokenId} {k : Key} {read : ReadKey}
    (h : getKey (code k.bytes) = some read) (htag : read.tag = transferTag.toNat)
    (htoken : read.tokenId = t) : tokenFront t <+: code k.bytes := by
  rw [getKey] at h
  by_cases hshort : (code k.bytes).length < 71
  · rw [if_pos hshort] at h
    cases h
  rw [if_neg hshort] at h
  obtain rfl := Option.some.inj h
  cases k with
  | transfer t' height txid opIndex =>
    have hdrop : ((code (Key.transfer t' height txid opIndex).bytes).drop 1).take 32 =
        bigEndian 32 t'.toNat := by
      rw [Key.bytes, code_transferBytes]
      exact List.take_left' (by simp)
    have ht : t' = t := by
      rw [← htoken]
      show t' = BitVec.ofNat 256
        (ofBigEndian (((code (Key.transfer t' height txid opIndex).bytes).drop 1).take 32))
      rw [hdrop, ofBigEndian_bigEndian (toNat_lt_digits t'), BitVec.ofNat_toNat, BitVec.setWidth_eq]
    rw [Key.bytes, code_transferBytes, ← ht]
    exact tokenFront_transferCode t' height txid opIndex
  | _ => simp [code, Key.bytes, transferTag] at htag

/-! ### What the cursor meets -/

theorem mem_cursorFrom {r : Records} {seek key : List ℕ} :
    key ∈ r.cursorFrom seek ↔ seek ≤ key ∧ ∃ k ∈ r.keys, code k.bytes = key := by
  rw [Records.cursorFrom, List.mem_filter, mem_ascending, Finset.mem_image,
    decide_eq_true_eq, and_comm]

theorem cursorFrom_pairwise (r : Records) (seek : List ℕ) :
    (r.cursorFrom seek).Pairwise (· < ·) := by
  have hle := ascending_pairwise (r.keys.image fun k => code k.bytes)
  have hlt := (hle.and (nodup_ascending _)).imp fun ⟨h, hne⟩ => lt_of_le_of_ne h hne
  exact hlt.sublist List.filter_sublist

/-- The keys of a token's rows, as the cursor sees them. -/
def rowCode (t : TokenId) (p : Place) : List ℕ := code (p.key t).bytes

/-- The rows of a token from a height on. -/
def Records.rowsFrom (r : Records) (t : TokenId) (startHeight : ℕ) :
    List (Place × TokenTransferRecord) :=
  (r.historyRows t).filter fun row => startHeight ≤ row.1.height

/-- All transfer keys have the ranges that their fields have in the source. -/
def InRange (r : Records) : Prop :=
  ∀ t height txid opIndex, r.read (.transfer t height txid opIndex) ≠ none → height < 2 ^ 31 ∧
    opIndex < 2 ^ 16

section Scan

variable {r : Records} {t : TokenId} {startHeight : ℕ}

theorem rowCode_eq (t : TokenId) (p : Place) :
    rowCode t p = transferCode t (ofLex p).1 (ofLex (ofLex p).2).1 (ofLex (ofLex p).2).2 :=
  code_transferBytes _ _ _ _

theorem InRange.of_mem (h : InRange r) {row : Place × TokenTransferRecord}
    (hrow : row ∈ r.historyRows t) :
    (ofLex row.1).1 < 2 ^ 31 ∧ (ofLex (ofLex row.1).2).2 < 2 ^ 16 := by
  refine h t _ (ofLex (ofLex row.1).2).1 _ fun hnone => ?_
  exact Option.some_ne_none row.2 ((mem_historyRows.mp hrow).symm.trans hnone)

/-- The keys of two rows compare as their places do. -/
theorem InRange.rowCode_lt_iff (h : InRange r) {row row' : Place × TokenTransferRecord}
    (hrow : row ∈ r.historyRows t) (hrow' : row' ∈ r.historyRows t) :
    rowCode t row.1 < rowCode t row'.1 ↔ row.1 < row'.1 := by
  obtain ⟨hh, hi⟩ := h.of_mem hrow
  obtain ⟨hh', hi'⟩ := h.of_mem hrow'
  rw [rowCode_eq, rowCode_eq, transferCode_lt_iff hh hh' hi hi', Prod.Lex.lt_iff, Prod.Lex.lt_iff]
  simp

/-- The rows from a height on stand in the order of their keys. -/
theorem InRange.rowsFrom_pairwise (h : InRange r) (t : TokenId) (startHeight : ℕ) :
    (r.rowsFrom t startHeight).Pairwise fun x y => rowCode t x.1 < rowCode t y.1 :=
  ((historyRows_pairwise r t).sublist List.filter_sublist).imp_of_mem fun hx hy hlt =>
    (h.rowCode_lt_iff (List.mem_of_mem_filter hx) (List.mem_of_mem_filter hy)).mpr hlt

/-- The key that is sought is not behind a row exactly where the row is from its height on. -/
theorem seek_le_rowCode_iff {p : Place} (hstart : startHeight < 2 ^ 31) (hh : (ofLex p).1 < 2 ^ 31)
    (hi : (ofLex (ofLex p).2).2 < 2 ^ 16) :
    code (transferBytes t startHeight 0 0) ≤ rowCode t p ↔ startHeight ≤ p.height := by
  rw [← not_lt, rowCode_eq, code_transferBytes, transferCode_lt_iff hh hstart hi (by decide),
    Place.height]
  have hzero : ¬ (ofLex (ofLex p).2).1 < 0 := BitVec.not_lt_zero
  have hnat : ¬ (ofLex (ofLex p).2).2 < 0 := Nat.not_lt_zero _
  simp only [lt_irrefl, false_or, true_and, hzero, hnat, and_false, or_false, not_lt]

/-- The cursor's keys with the token's front are those of its rows. -/
theorem InRange.mem_rows_iff (h : InRange r) (hstart : startHeight < 2 ^ 31) (key : List ℕ) :
    (key ∈ r.cursorFrom (code (transferBytes t startHeight 0 0)) ∧ tokenFront t <+: key) ↔
      key ∈ (r.rowsFrom t startHeight).map fun row => rowCode t row.1 := by
  rw [mem_cursorFrom, List.mem_map]
  constructor
  · rintro ⟨⟨hseek, k, hk, rfl⟩, hfront⟩
    obtain ⟨height, txid, opIndex, rfl⟩ := Key.eq_transfer_of_front hfront
    obtain ⟨record, hrecord⟩ :=
      Option.isSome_iff_exists.mp (Finmap.lookup_isSome.mpr (Finmap.mem_keys.mp hk))
    obtain ⟨hh, hi⟩ :=
      h t height txid opIndex fun hnone => Option.some_ne_none record (hrecord.symm.trans hnone)
    let p : Place := toLex (height, toLex (txid, opIndex))
    have hrow : (p, record) ∈ r.historyRows t := mem_historyRows.mpr hrecord
    have hfrom : startHeight ≤ p.height := (seek_le_rowCode_iff (p := p) hstart hh hi).mp hseek
    exact ⟨(p, record), List.mem_filter.mpr ⟨hrow, decide_eq_true hfrom⟩, rfl⟩
  · rintro ⟨⟨p, record⟩, hrow, rfl⟩
    obtain ⟨hrow, hfrom⟩ := List.mem_filter.mp hrow
    obtain ⟨hh, hi⟩ := h.of_mem hrow
    refine
      ⟨⟨(seek_le_rowCode_iff hstart hh hi).mpr (of_decide_eq_true hfrom), p.key t, ?_, rfl⟩, ?_⟩
    · rw [Finmap.mem_keys, ← Finmap.lookup_isSome]
      exact Option.isSome_iff_exists.mpr ⟨record, mem_historyRows.mp hrow⟩
    · rw [rowCode_eq]
      exact tokenFront_transferCode _ _ _ _

/-- **What the cursor meets**: first the rows of the token from the height on, then keys that are
not the token's. -/
theorem InRange.cursor_split (h : InRange r) (hstart : startHeight < 2 ^ 31) :
    ∃ rest, r.cursorFrom (code (transferBytes t startHeight 0 0)) =
        ((r.rowsFrom t startHeight).map fun row => rowCode t row.1) ++ rest ∧
      ∀ key ∈ rest, (∃ k : Key, code k.bytes = key) ∧ ¬ tokenFront t <+: key := by
  set keys := r.cursorFrom (code (transferBytes t startHeight 0 0)) with hkeys
  have hsorted : keys.Pairwise (· < ·) := cursorFrom_pairwise r _
  -- a key between the sought one and a key of the token has the front too
  have hfront : keys.Pairwise fun x y => decide (tokenFront t <+: y) = true →
      decide (tokenFront t <+: x) = true := by
    refine hsorted.imp_of_mem fun {x y} hx _ hlt hy => decide_eq_true ?_
    obtain ⟨high, hhigh⟩ := of_decide_eq_true hy
    have hlow := (mem_cursorFrom.mp hx).1
    rw [code_transferBytes] at hlow
    exact front_of_between hlow (hhigh ▸ hlt.le)
  have hrows : keys.filter (fun key => decide (tokenFront t <+: key)) =
      (r.rowsFrom t startHeight).map fun row => rowCode t row.1 := by
    refine eq_of_strictly_ascending (hsorted.sublist List.filter_sublist) ?_ fun key => ?_
    · rw [List.pairwise_map]
      exact h.rowsFrom_pairwise t startHeight
    · rw [List.mem_filter, decide_eq_true_eq]
      exact h.mem_rows_iff hstart key
  refine ⟨keys.filter fun key => !decide (tokenFront t <+: key), ?_, fun key hkey => ?_⟩
  · rw [← hrows]
    exact eq_filter_append_filter hfront
  · obtain ⟨hmem, hnot⟩ := List.mem_filter.mp hkey
    obtain ⟨-, k, -, hk⟩ := mem_cursorFrom.mp hmem
    exact ⟨⟨k, hk⟩, by simpa using hnot⟩

/-! ### The loop -/

/-- Keys that are not the token's add nothing. -/
theorem tokenHistoryLoop_rest {count total : ℕ} {result : List TokenTransferRecord}
    {rest : List (List ℕ)}
    (hrest : ∀ key ∈ rest, (∃ k : Key, code k.bytes = key) ∧ ¬ tokenFront t <+: key) :
    tokenHistoryLoop r t startHeight count total result rest = result := by
  induction rest generalizing total with
  | nil => rfl
  | cons key rest ih =>
    obtain ⟨⟨k, rfl⟩, hnot⟩ := hrest key List.mem_cons_self
    rw [tokenHistoryLoop]
    split_ifs with hfull hcap
    · rfl
    · rfl
    cases hread : getKey (code k.bytes) with
    | none => exact ih fun key hkey => hrest key (List.mem_cons_of_mem _ hkey)
    | some read =>
      have hother : read.tag ≠ transferTag.toNat ∨ read.tokenId ≠ t := by
        by_contra hcon
        rw [not_or, not_not, not_not] at hcon
        exact hnot (front_of_getKey hread hcon.1 hcon.2)
      exact if_pos hother

/-- The loop over rows of the token takes their records until there are enough. -/
theorem tokenHistoryLoop_rows {count total : ℕ} {result : List TokenTransferRecord}
    {rows : List (Place × TokenTransferRecord)} {rest : List (List ℕ)}
    (hread : ∀ row ∈ rows, row ∈ r.historyRows t ∧ startHeight ≤ row.2.height) (h : InRange r)
    (hcap : total + rows.length ≤ maxHistoryIterations) (hresult : result.length ≤ count)
    (hrest : ∀ key ∈ rest, (∃ k : Key, code k.bytes = key) ∧ ¬ tokenFront t <+: key) :
    tokenHistoryLoop r t startHeight count total result
      ((rows.map fun row => rowCode t row.1) ++ rest) =
      (result ++ rows.map Prod.snd).take count := by
  induction rows generalizing total result with
  | nil =>
    rw [List.map_nil, List.nil_append, List.map_nil, List.append_nil,
      List.take_of_length_le hresult]
    exact tokenHistoryLoop_rest hrest
  | cons row rows ih =>
    obtain ⟨hmem, hheight⟩ := hread row List.mem_cons_self
    obtain ⟨hh, hi⟩ := h.of_mem hmem
    have hrecord : r.recordAt ⟨transferTag.toNat, t, (ofLex row.1).1, (ofLex (ofLex row.1).2).1,
        (ofLex (ofLex row.1).2).2⟩ = some row.2 := mem_historyRows.mp hmem
    rw [List.length_cons] at hcap
    rw [List.map_cons, List.cons_append, tokenHistoryLoop, rowCode_eq,
      getKey_transferCode _ _ hh hi]
    by_cases hfull : count ≤ result.length
    · rw [if_pos hfull, List.take_append_of_le_length hfull, List.take_of_length_le hresult]
    rw [if_neg hfull, if_neg (by omega)]
    simp only [ne_eq, not_true_eq_false, or_self, if_false, hrecord, if_pos hheight]
    rw [ih (fun row hrow => hread row (List.mem_cons_of_mem _ hrow)) (by omega)
      (by rw [List.length_append, List.length_singleton]; omega), List.append_assoc]
    rfl

end Scan

/-! ### Reachable databases -/

/-- A transaction has at most four operations, so every position fits its two bytes. -/
theorem Grown.opIndex_lt {h₀ : ℕ} {r : Records} {rs : List Records} (h : Grown h₀ r rs)
    {t : TokenId} {height : ℕ} {txid : Uint256} {opIndex : ℕ}
    (hread : r.read (.transfer t height txid opIndex) ≠ none) :
    opIndex < maxOpsPerTx := by
  induction h with
  | base => exact absurd (read_empty _) hread
  | @step r r' rs h hstep ih =>
    obtain ⟨time, groups, q, hg, happ, rfl⟩ := hstep
    rw [agreeOn_blockTokensWrite q _ _ _ (by simp)] at hread
    by_cases hk : (height, txid, opIndex) ∈ OpLog.keys (blockLog (h₀ + rs.length + 1) time groups)
    · obtain ⟨-, g, hmem, -, hlt⟩ := mem_keys_blockLog hk
      exact hlt.trans_le (hg.bounded g hmem)
    · have hsame : q.read (.transfer t height txid opIndex) =
          r.read (.transfer t height txid opIndex) :=
        happ.history_of_notMem h.storeSound t hk
      exact ih (hsame ▸ hread)

theorem Reach.inRange {nHeight : Uint256 → ℕ} {root : Uint256} {chain : List BlockEntry}
    {db : TokenDB} (h : Reach nHeight root chain db)
    (htip : nHeight (tipHash root chain) < 2 ^ 31) : InRange db.records := by
  intro t height txid opIndex hread
  obtain ⟨r, rs, htr⟩ := h.tracks_of_empty
  rw [htr.records _ (by simp)] at hread
  constructor
  · by_contra hhigh
    have htall : nHeight root + rs.length < height := by
      have := htr.valid.height
      rw [htr.depth]
      omega
    exact hread ((htr.grown.heightFresh htall).history t txid opIndex)
  · exact (htr.grown.opIndex_lt hread).trans (by decide)

section History

variable {nHeight : Uint256 → ℕ} {root : Uint256} {chain : List BlockEntry} {db : TokenDB}

/-- The rows from a height on are the stored records of the token with at least that height. -/
theorem Reach.mem_rowsFrom (h : Reach nHeight root chain db) {t : TokenId} {startHeight : ℕ}
    {p : Place} {record : TokenTransferRecord} : (p, record) ∈ db.records.rowsFrom t startHeight ↔
      db.records.read (p.key t) = some record ∧ startHeight ≤ record.height := by
  rw [Records.rowsFrom, List.mem_filter, decide_eq_true_eq, mem_historyRows]
  refine and_congr_right fun hread => ?_
  rw [show p.height = record.height from (h.height_of_mem (mem_historyRows.mpr hread)).symm]

/-- **Transfer keys and token history.**  Keys compare as token, height, txid and position do, hence
distinct keys have distinct bytes; and where a token has fewer records from a height on than the
scan takes steps, `GetTokenHistory` returns the first of them in that order: the records of the
token with at least that height, strictly ascending, cut to the number that was asked for. -/
theorem token_history_complete (hreach : Reach nHeight root chain db)
    (htip : nHeight (tipHash root chain) < 2 ^ 31) (t : TokenId) (h : Fin (2 ^ 31))
    (hcap : (db.records.rowsFrom t h).length < maxHistoryIterations) (n : ℕ) :
    (∀ k k' : TransferKey, code k.serialize < code k'.serialize ↔
      toLex (code (uint256Bytes k.tokenId),
        toLex (k.height, toLex (code (uint256Bytes k.txid), k.opIndex))) <
        toLex (code (uint256Bytes k'.tokenId),
          toLex (k'.height, toLex (code (uint256Bytes k'.txid), k'.opIndex)))) ∧
    Function.Injective TransferKey.serialize ∧
    (∀ (p : Place) (record : TokenTransferRecord), (p, record) ∈ db.records.rowsFrom t h ↔
      db.records.read (p.key t) = some record ∧ h ≤ record.height) ∧
    ((db.records.rowsFrom t h).Pairwise fun x y => code (x.1.key t).bytes <
      code (y.1.key t).bytes) ∧
    db.getTokenHistory t h n = ((db.records.rowsFrom t h).map Prod.snd).take n := by
  have hrange := hreach.inRange htip
  refine ⟨TransferKey.serialize_lt_iff, TransferKey.serialize_inj,
    fun p record => hreach.mem_rowsFrom, hrange.rowsFrom_pairwise t h, ?_⟩
  obtain ⟨rest, hsplit, hrest⟩ := hrange.cursor_split (t := t) h.isLt
  rw [TokenDB.getTokenHistory, hsplit]
  exact tokenHistoryLoop_rows
    (fun row hrow => ⟨List.mem_of_mem_filter hrow, (hreach.mem_rowsFrom.mp hrow).2⟩) hrange
    (by omega) (Nat.zero_le n) hrest

/-- The issuance and the transfer of the sample chain; from height 2 on only the transfer. -/
theorem token_history_sample :
    Sample.moved.getTokenHistory 7 2 5 = ((Sample.moved.records.rowsFrom 7 2).map Prod.snd).take 5 ∧
      (((Sample.moved.records.rowsFrom 7 2).map Prod.snd).take 5).map TokenTransferRecord.height =
        [2] :=
  ⟨(token_history_complete Sample.reach_moved (by decide +kernel) 7 2
      (by decide +kernel) 5).2.2.2.2, by decide +kernel⟩

end History

end OpenSY.Tokens
