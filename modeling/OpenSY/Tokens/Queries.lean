import Mathlib.Data.Finset.Sort
import OpenSY.Tokens.Records

/-!
# What can be asked of the token database

The balances of an address, and the two counts.  A count is found by a scan over the rows of its
family when it is first asked for; from then on the number is kept in memory, and blocks add to it
and take from it.

Every query may change the cache or start a count.  `Alike` relates databases that differ in the
contents of their coherent caches at most, and `Alike.replies` says that no sequence of queries
tells them apart.
-/

namespace OpenSY.Tokens

open OpenSY.Chain OpenSY.Src20 OpenSY.KeyValueStore OpenSY.RecencyCache

/-! ### The balances of an address -/

structure TokenBalance where
  tokenId : TokenId
  address : CScript
  balance : ℕ
  deriving DecidableEq

namespace TokenDB

/-- The loop of `GetAddressBalances` over the tokens that are left. -/
def collectBalances (db : TokenDB) (address : CScript) (maxResults : ℕ) :
    List TokenId → List TokenBalance → List TokenBalance
  | [], result => result
  | tokenId :: tokenIds, result =>
    if 0 < maxResults ∧ maxResults ≤ result.length then result
    else
      let balance := db.getBalance address tokenId
      db.collectBalances address maxResults tokenIds
        (if 0 < balance then result ++ [⟨tokenId, address, balance⟩] else result)

/-- The tokens of an address in the order of their ids; no limit if `maxResults` is zero. -/
def getAddressBalances (db : TokenDB) (address : CScript) (maxResults : ℕ) : List TokenBalance :=
  match db.records.read (.addrTokens address) with
  | none => []
  | some tokenIds => db.collectBalances address maxResults (tokenIds.sort (· ≤ ·)) []

end TokenDB

/-! ### The counts -/

/-- The rows under the prefix `TOKEN_INFO`. -/
def Key.isTokenInfo : Key → Bool
  | .tokenInfo _ => true
  | _ => false

/-- The rows under the prefix `TRANSFER`. -/
def Key.isTransfer : Key → Bool
  | .transfer _ _ _ _ => true
  | _ => false

/-- The number of rows of a family. -/
def Records.rows (r : Records) (family : Key → Bool) : ℕ := (r.keys.filter fun k => family k).card

def maxTotalIterations : ℕ := 10000000

/-- A scan stops at the limit.  The rows of a family lie together and the scan starts at the first
of them. -/
def Records.scan (r : Records) (family : Key → Bool) : ℕ := min (r.rows family) maxTotalIterations

namespace TokenDB

def getTokenCount (db : TokenDB) : ℕ × TokenDB :=
  if db.mTokenCountInitialized then (db.mTokenCountCache, db)
  else
    let count := db.records.scan Key.isTokenInfo
    (count, { db with mTokenCountCache := count, mTokenCountInitialized := true })

def getTransferCount (db : TokenDB) : ℕ × TokenDB :=
  if db.mTransferCountInitialized then (db.mTransferCountCache, db)
  else
    let count := db.records.scan Key.isTransfer
    (count, { db with mTransferCountCache := count, mTransferCountInitialized := true })

end TokenDB

/-! ### Queries -/

inductive Query where
  | getTokenInfo (tokenId : TokenId)
  | tokenExists (tokenId : TokenId)
  | tickerExists (ticker : Bytes)
  | getBalance (address : CScript) (tokenId : TokenId)
  | getAddressBalances (address : CScript) (maxResults : ℕ)
  | getTokenCount
  | getTransferCount
  | getBestBlock

inductive Reply where
  | info (info : Option TokenInfo)
  | found (result : Bool)
  | number (n : ℕ)
  | balances (balances : List TokenBalance)
  | hash (hash : Uint256)
  deriving DecidableEq

/-- The reply, and the database after it. -/
def Query.ask (db : TokenDB) : Query → Reply × TokenDB
  | .getTokenInfo tokenId => let read := db.getTokenInfo tokenId; (.info read.1, read.2)
  | .tokenExists tokenId => (.found (db.tokenExists tokenId), db)
  | .tickerExists ticker => (.found (db.tickerExists ticker), db)
  | .getBalance address tokenId => (.number (db.getBalance address tokenId), db)
  | .getAddressBalances address maxResults =>
    (.balances (db.getAddressBalances address maxResults), db)
  | .getTokenCount => let read := db.getTokenCount; (.number read.1, read.2)
  | .getTransferCount => let read := db.getTransferCount; (.number read.1, read.2)
  | .getBestBlock => (.hash db.getBestBlock, db)

/-- The replies to queries that follow each other. -/
def replies : TokenDB → List Query → List Reply
  | _, [] => []
  | db, q :: qs => (q.ask db).1 :: replies (q.ask db).2 qs

/-- A query never writes to the database. -/
theorem Query.ask_mDb (db : TokenDB) (q : Query) : (q.ask db).2.mDb = db.mDb := by
  cases q with
  | getTokenInfo t => exact readTokenInfo_mDb db t
  | getTokenCount =>
    simp only [Query.ask, TokenDB.getTokenCount]
    split_ifs <;> rfl
  | getTransferCount =>
    simp only [Query.ask, TokenDB.getTransferCount]
    split_ifs <;> rfl
  | _ => rfl

/-! ### Databases that answer alike -/

/-- The cache is coherent, and the infos are properly filed. -/
structure InOrder (db : TokenDB) : Prop where
  cache : CacheCoherent db
  filed : InfoWF db.records

/-- The same but for the contents of the cache, in both in order. -/
structure Alike (db db' : TokenDB) : Prop where
  left : InOrder db
  right : InOrder db'
  data : SameData db db'

theorem collectBalances_congr {db db' : TokenDB} (h : db'.records = db.records) (address : CScript)
    (maxResults : ℕ) (tokenIds : List TokenId) (result : List TokenBalance) :
    db'.collectBalances address maxResults tokenIds result =
      db.collectBalances address maxResults tokenIds result := by
  induction tokenIds generalizing result with
  | nil => rfl
  | cons t tokenIds ih =>
    have hbalance : db'.getBalance address t = db.getBalance address t :=
      congrArg (fun r : Records => r.balance address t) h
    simp only [TokenDB.collectBalances, hbalance, ih]

theorem InOrder.getTokenInfo {db : TokenDB} (h : InOrder db) (t : TokenId) :
    SameData db (db.getTokenInfo t).2 ∧ InOrder (db.getTokenInfo t).2 := by
  obtain ⟨hdata, hcache⟩ := readTokenInfo_snd h.cache t
  refine ⟨hdata, hcache, ?_⟩
  rw [show (db.getTokenInfo t).2.records = db.records from hdata.records]
  exact h.filed

/-- **One query** is answered alike, and leaves databases that are alike. -/
theorem Alike.ask {db db' : TokenDB} (h : Alike db db') (q : Query) :
    (q.ask db').1 = (q.ask db).1 ∧ Alike (q.ask db).2 (q.ask db').2 := by
  have hrecords := h.data.records
  cases q with
  | getTokenInfo t =>
    obtain ⟨hdata, horder⟩ := h.left.getTokenInfo t
    obtain ⟨hdata', horder'⟩ := h.right.getTokenInfo t
    refine ⟨congrArg Reply.info ?_, horder, horder', (hdata.symm.trans h.data).trans hdata'⟩
    show (db'.readTokenInfo t).1 = (db.readTokenInfo t).1
    rw [readTokenInfo_fst h.left.cache h.left.filed,
      readTokenInfo_fst h.right.cache h.right.filed, hrecords]
  | tokenExists t =>
    refine ⟨congrArg Reply.found ?_, h⟩
    rw [tokenExists_eq h.left.cache, tokenExists_eq h.right.cache, hrecords]
  | tickerExists k =>
    exact ⟨congrArg (fun r : Records => Reply.found (r.contains (.ticker k))) hrecords, h⟩
  | getBalance a t => exact ⟨congrArg (fun r : Records => Reply.number (r.balance a t)) hrecords, h⟩
  | getAddressBalances a n =>
    refine ⟨congrArg Reply.balances ?_, h⟩
    unfold TokenDB.getAddressBalances
    rw [hrecords]
    cases db.records.read (.addrTokens a) with
    | none => rfl
    | some tokenIds => exact collectBalances_congr hrecords a n _ _
  | getTokenCount =>
    have hdata := h.data
    obtain ⟨hl, hr, -⟩ := h
    simp only [Query.ask, TokenDB.getTokenCount]
    rw [hrecords, show db'.mTokenCountInitialized = db.mTokenCountInitialized by rw [hdata],
      show db'.mTokenCountCache = db.mTokenCountCache by rw [hdata]]
    split_ifs
    · exact ⟨rfl, hl, hr, hdata⟩
    · refine ⟨rfl, ⟨hl.cache, hl.filed⟩, ⟨hr.cache, hr.filed⟩, ?_⟩
      unfold SameData at hdata ⊢
      rw [hdata]
  | getTransferCount =>
    have hdata := h.data
    obtain ⟨hl, hr, -⟩ := h
    simp only [Query.ask, TokenDB.getTransferCount]
    rw [hrecords, show db'.mTransferCountInitialized = db.mTransferCountInitialized by rw [hdata],
      show db'.mTransferCountCache = db.mTransferCountCache by rw [hdata]]
    split_ifs
    · exact ⟨rfl, hl, hr, hdata⟩
    · refine ⟨rfl, ⟨hl.cache, hl.filed⟩, ⟨hr.cache, hr.filed⟩, ?_⟩
      unfold SameData at hdata ⊢
      rw [hdata]
  | getBestBlock =>
    exact ⟨congrArg (fun r : Records => Reply.hash ((r.read .bestBlock).getD 0)) hrecords, h⟩

/-- **No queries tell them apart.** -/
theorem Alike.replies {db db' : TokenDB} (h : Alike db db') (qs : List Query) :
    replies db' qs = replies db qs := by
  induction qs generalizing db db' with
  | nil => rfl
  | cons q qs ih =>
    obtain ⟨hreply, hafter⟩ := h.ask q
    show (q.ask db').1 :: Tokens.replies (q.ask db').2 qs = (q.ask db).1 ::
        Tokens.replies (q.ask db).2 qs
    rw [hreply, ih hafter]

/-- A query leaves a database in order. -/
theorem InOrder.ask {db : TokenDB} (h : InOrder db) (q : Query) : InOrder (q.ask db).2 :=
  (Alike.ask ⟨h, h, .refl db⟩ q).2.left

end OpenSY.Tokens
