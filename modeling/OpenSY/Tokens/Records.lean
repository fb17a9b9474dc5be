import OpenSY.Lib.KeyValueStore
import OpenSY.Lib.RecencyCache
import OpenSY.Script.Src20

/-!
# The token database: record families, cache and plain reads

The token database keeps nine families of records in one key-value store, told apart by a prefix
byte in the source and by a constructor of `Key` here, and a cache of token infos in memory.

`CacheCoherent` says that every cached token info is the stored one and `InfoWF` that every stored
one is filed under its own id and within its length limits.  Under both, `readTokenInfo` and
`tokenExists` answer exactly what the store holds (`readTokenInfo_fst`, `tokenExists_eq`), although
they go through the cache, and a read changes nothing but the cache (`readTokenInfo_snd`).
-/

namespace OpenSY.Tokens

open OpenSY.Chain OpenSY.Src20 OpenSY.KeyValueStore OpenSY.RecencyCache

/-! ### Records -/

structure TokenInfo where
  tokenId : TokenId
  ticker : Bytes
  name : Bytes
  decimals : ℕ
  totalSupply : ℕ
  /-- supply minus burned tokens -/
  circulatingSupply : ℕ
  metadataHash : Uint256
  issuanceTxid : Uint256
  issuanceHeight : ℕ
  issuanceTime : ℤ
  holderCount : ℕ
  transferCount : ℕ
  deriving DecidableEq

structure TokenTransferRecord where
  tokenId : TokenId
  txid : Uint256
  /-- empty for an issuance -/
  fromAddress : CScript
  /-- empty for a burn -/
  toAddress : CScript
  amount : ℕ
  height : ℕ
  time : ℤ
  deriving DecidableEq

inductive TokenOpType where
  | issue
  | transfer
  | burn
  deriving DecidableEq

/-- What has to be known to take one operation back: absolute values from before it. -/
structure TokenUndoRecord where
  opType : TokenOpType
  txid : Uint256
  tokenId : TokenId
  ticker : Bytes := []
  fromAddress : CScript := []
  toAddress : CScript := []
  amount : ℕ := 0
  prevFromBalance : ℕ := 0
  prevToBalance : ℕ := 0
  prevHolderCount : ℕ := 0
  prevCirculatingSupply : ℕ := 0
  deriving DecidableEq

/-- Database keys, one constructor for each key prefix. -/
inductive Key where
  | tokenInfo (tokenId : TokenId)
  | ticker (ticker : Bytes)
  | balance (address : CScript) (tokenId : TokenId)
  | tokenHolders (tokenId : TokenId) (address : CScript)
  | addrTokens (address : CScript)
  | transfer (tokenId : TokenId) (height : ℕ) (txid : Uint256) (opIndex : ℕ)
  | undo (height : ℕ) (txid : Uint256) (opIndex : ℕ)
  | blockTokens (height : ℕ)
  | bestBlock
  deriving DecidableEq

/-- The type of the value stored under a key. -/
@[reducible] def Value : Key → Type
  | .tokenInfo _ => TokenInfo
  | .ticker _ => TokenId
  | .balance _ _ => ℕ
  | .tokenHolders _ _ => Bool
  | .addrTokens _ => Finset TokenId
  | .transfer _ _ _ _ => TokenTransferRecord
  | .undo _ _ _ => TokenUndoRecord
  | .blockTokens _ => List Uint256
  | .bestBlock => Uint256

abbrev Records : Type := Store Value

abbrev CDBBatch : Type := Batch Value

namespace Records

/-- The balance a store records, zero if there is no record. -/
def balance (r : Records) (address : CScript) (tokenId : TokenId) : ℕ :=
  (r.read (.balance address tokenId)).getD 0

/-- The tokens a store lists for an address. -/
def addrTokens (r : Records) (address : CScript) : Finset TokenId :=
  (r.read (.addrTokens address)).getD ∅

/-- The token info a store records. -/
def info (r : Records) (tokenId : TokenId) : Option TokenInfo := r.read (.tokenInfo tokenId)

end Records

/-! ### Reading one family after a write to it

Writes to another family are dealt with by `read_write_of_ne` and `read_erase_of_ne`, whose side
condition is a clash of constructors. -/

section ReadAfterWrite

variable (r : Records)

@[simp] theorem read_write_tokenInfo (t t' : TokenId) (v : TokenInfo) :
    (r.applyOp (.write (.tokenInfo t) v)).read (.tokenInfo t') =
      if t' = t then some v else r.read (.tokenInfo t') := by
  by_cases h : t' = t
  · subst h; simp
  · rw [if_neg h, read_write_of_ne _ _ (by simpa using h)]

@[simp] theorem read_erase_tokenInfo (t t' : TokenId) :
    (r.applyOp (.erase (.tokenInfo t))).read (.tokenInfo t') =
      if t' = t then none else r.read (.tokenInfo t') := by
  by_cases h : t' = t
  · subst h; simp
  · rw [if_neg h, read_erase_of_ne _ (by simpa using h)]

@[simp] theorem read_write_ticker (k k' : Bytes) (v : TokenId) :
    (r.applyOp (.write (.ticker k) v)).read (.ticker k') =
      if k' = k then some v else r.read (.ticker k') := by
  by_cases h : k' = k
  · subst h; simp
  · rw [if_neg h, read_write_of_ne _ _ (by simpa using h)]

@[simp] theorem read_write_balance (a a' : CScript) (t t' : TokenId) (v : ℕ) :
    (r.applyOp (.write (.balance a t) v)).read (.balance a' t') =
      if a' = a ∧ t' = t then some v else r.read (.balance a' t') := by
  by_cases h : a' = a ∧ t' = t
  · obtain ⟨rfl, rfl⟩ := h; simp
  · rw [if_neg h, read_write_of_ne _ _ (by simpa using h)]

@[simp] theorem read_erase_balance (a a' : CScript) (t t' : TokenId) :
    (r.applyOp (.erase (.balance a t))).read (.balance a' t') =
      if a' = a ∧ t' = t then none else r.read (.balance a' t') := by
  by_cases h : a' = a ∧ t' = t
  · obtain ⟨rfl, rfl⟩ := h; simp
  · rw [if_neg h, read_erase_of_ne _ (by simpa using h)]

@[simp] theorem read_write_tokenHolders (t t' : TokenId) (a a' : CScript) (v : Bool) :
    (r.applyOp (.write (.tokenHolders t a) v)).read (.tokenHolders t' a') =
      if t' = t ∧ a' = a then some v else r.read (.tokenHolders t' a') := by
  by_cases h : t' = t ∧ a' = a
  · obtain ⟨rfl, rfl⟩ := h; simp
  · rw [if_neg h, read_write_of_ne _ _ (by simpa using h)]

@[simp] theorem read_erase_tokenHolders (t t' : TokenId) (a a' : CScript) :
    (r.applyOp (.erase (.tokenHolders t a))).read (.tokenHolders t' a') =
      if t' = t ∧ a' = a then none else r.read (.tokenHolders t' a') := by
  by_cases h : t' = t ∧ a' = a
  · obtain ⟨rfl, rfl⟩ := h; simp
  · rw [if_neg h, read_erase_of_ne _ (by simpa using h)]

@[simp] theorem read_write_addrTokens (a a' : CScript) (v : Finset TokenId) :
    (r.applyOp (.write (.addrTokens a) v)).read (.addrTokens a') =
      if a' = a then some v else r.read (.addrTokens a') := by
  by_cases h : a' = a
  · subst h; simp
  · rw [if_neg h, read_write_of_ne _ _ (by simpa using h)]

@[simp] theorem read_erase_addrTokens (a a' : CScript) :
    (r.applyOp (.erase (.addrTokens a))).read (.addrTokens a') =
      if a' = a then none else r.read (.addrTokens a') := by
  by_cases h : a' = a
  · subst h; simp
  · rw [if_neg h, read_erase_of_ne _ (by simpa using h)]

@[simp] theorem read_write_transfer (t t' : TokenId) (h h' : ℕ) (x x' : Uint256) (i i' : ℕ)
    (v : TokenTransferRecord) :
    (r.applyOp (.write (.transfer t h x i) v)).read (.transfer t' h' x' i') =
      if t' = t ∧ h' = h ∧ x' = x ∧ i' = i then some v else r.read (.transfer t' h' x' i') := by
  by_cases hk : t' = t ∧ h' = h ∧ x' = x ∧ i' = i
  · obtain ⟨rfl, rfl, rfl, rfl⟩ := hk; simp
  · rw [if_neg hk, read_write_of_ne _ _ (by simpa using hk)]

@[simp] theorem read_write_undo (h h' : ℕ) (x x' : Uint256) (i i' : ℕ) (v : TokenUndoRecord) :
    (r.applyOp (.write (.undo h x i) v)).read (.undo h' x' i') =
      if h' = h ∧ x' = x ∧ i' = i then some v else r.read (.undo h' x' i') := by
  by_cases hk : h' = h ∧ x' = x ∧ i' = i
  · obtain ⟨rfl, rfl, rfl⟩ := hk; simp
  · rw [if_neg hk, read_write_of_ne _ _ (by simpa using hk)]

@[simp] theorem read_erase_undo (h h' : ℕ) (x x' : Uint256) (i i' : ℕ) :
    (r.applyOp (.erase (.undo h x i))).read (.undo h' x' i') =
      if h' = h ∧ x' = x ∧ i' = i then none else r.read (.undo h' x' i') := by
  by_cases hk : h' = h ∧ x' = x ∧ i' = i
  · obtain ⟨rfl, rfl, rfl⟩ := hk; simp
  · rw [if_neg hk, read_erase_of_ne _ (by simpa using hk)]

theorem balance_applyOp_of_ne {op : BatchOp Value} {a : CScript} {t : TokenId}
    (h : op.key ≠ .balance a t) : Records.balance (r.applyOp op) a t = r.balance a t := by
  rw [Records.balance, read_applyOp_of_ne r op h, Records.balance]

theorem addrTokens_applyOp_of_ne {op : BatchOp Value} {a : CScript} (h : op.key ≠ .addrTokens a) :
    Records.addrTokens (r.applyOp op) a = r.addrTokens a := by
  rw [Records.addrTokens, read_applyOp_of_ne r op h, Records.addrTokens]

theorem info_applyOp_of_ne {op : BatchOp Value} {t : TokenId} (h : op.key ≠ .tokenInfo t) :
    Records.info (r.applyOp op) t = r.info t := read_applyOp_of_ne r op h

theorem info_write_tokenInfo (t t' : TokenId) (v : TokenInfo) :
    Records.info (r.applyOp (.write (.tokenInfo t) v)) t' =
      if t' = t then some v else r.info t' := read_write_tokenInfo r t t' v

end ReadAfterWrite

/-! ### The database object -/

def maxCacheSize : ℕ := 1000

structure TokenDB where
  mDb : Database Value
  mTokenCache : LRUCache TokenId TokenInfo
  mTokenCountCache : ℕ
  mTokenCountInitialized : Bool
  mTransferCountCache : ℕ
  mTransferCountInitialized : Bool

namespace TokenDB

/-- A freshly created database. -/
def empty : TokenDB where
  mDb := ⟨∅, false⟩
  mTokenCache := .empty maxCacheSize
  mTokenCountCache := 0
  mTokenCountInitialized := false
  mTransferCountCache := 0
  mTransferCountInitialized := false

/-- The committed records. -/
abbrev records (db : TokenDB) : Records := db.mDb.records

def updateCache (db : TokenDB) (info : TokenInfo) : TokenDB :=
  { db with mTokenCache := db.mTokenCache.insert info.tokenId info }

def invalidateCache (db : TokenDB) (tokenId : TokenId) : TokenDB :=
  { db with mTokenCache := db.mTokenCache.erase tokenId }

/-- Read a token info through the cache.  A stored record with an oversized ticker or name counts
as missing. -/
def readTokenInfo (db : TokenDB) (tokenId : TokenId) : Option TokenInfo × TokenDB :=
  match db.mTokenCache.get tokenId with
  | (some info, cache) => (some info, { db with mTokenCache := cache })
  | (none, _) =>
    match db.records.read (.tokenInfo tokenId) with
    | none => (none, db)
    | some info =>
      if info.ticker.length > maxTickerLength || info.name.length > maxNameLength then (none, db)
      else (some info, { db with mTokenCache := db.mTokenCache.insert tokenId info })

def getTokenInfo (db : TokenDB) (tokenId : TokenId) : Option TokenInfo × TokenDB :=
  db.readTokenInfo tokenId

def getTokenByTicker (db : TokenDB) (ticker : Bytes) : Option TokenInfo × TokenDB :=
  match db.records.read (.ticker ticker) with
  | none => (none, db)
  | some tokenId => db.getTokenInfo tokenId

def tokenExists (db : TokenDB) (tokenId : TokenId) : Bool :=
  db.mTokenCache.contains tokenId || db.records.contains (.tokenInfo tokenId)

def tickerExists (db : TokenDB) (ticker : Bytes) : Bool := db.records.contains (.ticker ticker)

/-- A missing balance record counts as zero. -/
def getBalance (db : TokenDB) (address : CScript) (tokenId : TokenId) : ℕ :=
  db.records.balance address tokenId

/-- The hash of the last indexed block, the null hash if none. -/
def getBestBlock (db : TokenDB) : Uint256 := (db.records.read .bestBlock).getD 0

end TokenDB

/-! ### Coherence of the cache -/

/-- Every cached token info is the stored one. -/
def CacheCoherent (db : TokenDB) : Prop :=
  ∀ p ∈ db.mTokenCache.entries, db.records.read (.tokenInfo p.1) = some p.2

/-- Every stored token info is filed under its own id and within its length limits. -/
def InfoWF (r : Records) : Prop :=
  ∀ t i, r.read (.tokenInfo t) = some i →
    i.tokenId = t ∧ i.ticker.length ≤ maxTickerLength ∧ i.name.length ≤ maxNameLength

/-- `db'` is `db` up to the contents of the cache. -/
def SameData (db db' : TokenDB) : Prop := db' = { db with mTokenCache := db'.mTokenCache }

theorem SameData.refl (db : TokenDB) : SameData db db := rfl

theorem SameData.trans {db db' db'' : TokenDB} (h : SameData db db') (h' : SameData db' db'') :
    SameData db db'' := by
  unfold SameData at h h' ⊢
  rw [h', h]

theorem SameData.mDb {db db' : TokenDB} (h : SameData db db') : db'.mDb = db.mDb := by
  rw [h]

theorem SameData.records {db db' : TokenDB} (h : SameData db db') : db'.records = db.records :=
  congrArg Database.records h.mDb

theorem SameData.symm {db db' : TokenDB} (h : SameData db db') : SameData db' db := by
  unfold SameData at h ⊢
  rw [h]

theorem readTokenInfo_fst {db : TokenDB} (hc : CacheCoherent db) (hw : InfoWF db.records)
    (t : TokenId) : (db.readTokenInfo t).1 = db.records.read (.tokenInfo t) := by
  unfold TokenDB.readTokenInfo
  split
  · rename_i info cache hget
    have hmem : (t, info) ∈ db.mTokenCache.entries := LRUCache.get_mem (by rw [hget])
    exact (hc _ hmem).symm
  · split
    · rename_i hread
      exact hread.symm
    · rename_i info hread
      obtain ⟨-, hticker, hname⟩ := hw t info hread
      rw [if_neg (by simp; omega)]
      exact hread.symm

@[simp] theorem readTokenInfo_mDb (db : TokenDB) (t : TokenId) :
    (db.readTokenInfo t).2.mDb = db.mDb := by
  unfold TokenDB.readTokenInfo
  split
  · rfl
  · split
    · rfl
    · split_ifs <;> rfl

/-- **A read changes nothing but the cache, and leaves it coherent.** -/
theorem readTokenInfo_snd {db : TokenDB} (hc : CacheCoherent db) (t : TokenId) :
    SameData db (db.readTokenInfo t).2 ∧ CacheCoherent (db.readTokenInfo t).2 := by
  unfold TokenDB.readTokenInfo
  split
  · rename_i info cache hget
    refine ⟨rfl, fun p hp => hc p (LRUCache.mem_get_snd (k := t) ?_)⟩
    rw [hget]
    exact hp
  · split
    · exact ⟨rfl, hc⟩
    · rename_i info hread
      split_ifs
      · exact ⟨rfl, hc⟩
      · refine ⟨rfl, ?_⟩
        intro p hp
        rcases LRUCache.mem_insert hp with rfl | ⟨hp, -⟩
        · exact hread
        · exact hc p hp

theorem tokenExists_eq {db : TokenDB} (hc : CacheCoherent db) (t : TokenId) :
    db.tokenExists t = (db.records.read (.tokenInfo t)).isSome := by
  unfold TokenDB.tokenExists Store.contains
  cases hcache : db.mTokenCache.contains t with
  | false => rfl
  | true =>
    obtain ⟨info, hmem⟩ := LRUCache.contains_iff.mp hcache
    rw [hc _ hmem]
    rfl

theorem CacheCoherent.empty : CacheCoherent TokenDB.empty := by
  intro p hp
  simp [TokenDB.empty, LRUCache.empty] at hp

end OpenSY.Tokens
