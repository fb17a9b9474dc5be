import OpenSY.Tokens.Coherence
import OpenSY.Tokens.Queries

/-!
# Calls whose commit fails

The five calls that write to the token database, made while the storage layer refuses the write.
The question is what later queries can see of such a call.

Three of the five leave nothing behind: `RegisterToken`, `ProcessBlock` and `DisconnectBlock` change
cache and counters after the commit.  A standalone `TransferTokens` or `BurnTokens` puts the new
token info into the cache first, and when the commit throws it stays there.

* `InOrder.standalone`, `InOrder.block` — a call that does not fail leaves the database in order;
* `failed_alike`, `failed_ahead` — a call that fails;
* `failed_commit_unseen` — no query sees the failed call, exactly if it has not cached an info ahead
  of its commit.
-/

namespace OpenSY.Tokens

open OpenSY.Chain OpenSY.Src20 OpenSY.KeyValueStore OpenSY.RecencyCache OpenSY.Ordered
  OpenSY.Transition

/-! ### The calls -/

inductive DbCall where
  /-- `RegisterToken`, `TransferTokens` or `BurnTokens` without an external batch -/
  | standalone (site : OpSite) (op : TokenOp)
  | block (call : WriterCall)

def DbCall.run (reserved : List Bytes) (db : TokenDB) : DbCall → TokenDB
  | .standalone site op => (immediateOp db site op).1
  | .block call => call.run reserved db

/-- The database after a call whose `WriteBatch` throws. -/
def afterFailure (reserved : List Bytes) (db : TokenDB) (c : DbCall) : TokenDB :=
  (c.run reserved (db.withWriteFails true)).withWriteFails false

inductive DbAction where
  | call (c : DbCall) (fails : Bool)
  | query (q : Query)
  /-- the cache forgets an entry -/
  | evict (tokenId : TokenId)
  /-- the node is restarted -/
  | reopen

/-- The databases that any sequence of calls and queries leads to. -/
def dbMachine (reserved : List Bytes) : Machine TokenDB DbAction where
  start db := db = .empty
  step db
    | .call c fails => some ((c.run reserved (db.withWriteFails fails)).withWriteFails false)
    | .query q => some (q.ask db).2
    | .evict tokenId => some (db.invalidateCache tokenId)
    | .reopen => some { TokenDB.empty with mDb := db.mDb }

/-- The call caches a new token info before it commits: a transfer or a burn that passes its checks,
of a token that has a record.  A burn of nothing changes the info only if it counts down the
holders. -/
def CachesAhead (db : TokenDB) : DbCall → Prop
  | .standalone _ (.transfer t f d n) =>
    0 < n ∧ n ≤ db.getBalance f t ∧ (f = d ∨ db.getBalance d t + n ≤ uint64Max) ∧
      (db.records.read (.tokenInfo t)).isSome
  | .standalone _ (.burn t f n) =>
    n ≤ db.getBalance f t ∧ ∃ i, db.records.read (.tokenInfo t) = some i ∧ n ≤ i.circulatingSupply ∧
      (0 < n ∨ db.getBalance f t = 0 ∧ 0 < i.holderCount)
  | _ => False

/-- The texts of a registration are within the limits that are checked when the record is read back.
-/
def DbCall.WithinLimits : DbCall → Prop
  | .standalone _ (.issue issuance _) =>
    issuance.ticker.length ≤ maxTickerLength ∧ issuance.name.length ≤ maxNameLength
  | _ => True

/-- Calls that fail have not cached ahead, and registrations keep to the limits. -/
def Careful (db : TokenDB) : DbAction → Prop
  | .call c fails => if fails then ¬ CachesAhead db c else c.WithinLimits
  | _ => True

/-! ### Calls for blocks -/

/-- The database with no reader about. -/
def alone (db : TokenDB) : Shared := ⟨db, none, fun _ => .returned none⟩

theorem InOrder.settled {db : TokenDB} (h : InOrder db) : Shared.Settled (alone db) := by
  refine ⟨fun n => ⟨fun hcs => (nomatch hcs), fun hholds => (nomatch hholds)⟩,
    ⟨fun p hp => .inr (h.cache p hp), fun p hp => ?_⟩, h.filed⟩
  cases hp

theorem inOrder_of_settled {s : Shared} (h : s.Settled) : InOrder s.db := ⟨h.coherent, h.filed⟩

theorem InOrder.block {db : TokenDB} (h : InOrder db) (reserved : List Bytes) (call : WriterCall) :
    InOrder (call.run reserved db) := by
  obtain ⟨actions, hsteps⟩ := call_alone (alone db) reserved rfl call
  have hok := Machine.steps_invariant (P := fun s : Concurrent => WriterOK s.shared s.writer)
    (fun s s' a hs hstep => step_ok reserved hs hstep) (s := ⟨alone db, .idle⟩) h.settled hsteps
  exact inOrder_of_settled (s := { alone db with db := call.run reserved db }) hok

/-- A block call that fails has read, and nothing else. -/
theorem InOrder.blockFails {db : TokenDB} (h : InOrder db) (hfails : db.mDb.writeFails = true)
    (reserved : List Bytes) (call : WriterCall) : SameData db (call.run reserved db) := by
  obtain ⟨hfollows, hwriter⟩ := prepare_spec reserved h.settled [] call
  have hcomplete := complete_prepare (alone db) reserved call
  have hflag : (prepare reserved (alone db) [] call).shared.db.mDb.writeFails = true := by
    rw [hfollows.data.mDb]
    exact hfails
  have hrun : call.run reserved db = (prepare reserved (alone db) [] call).shared.db := by
    rw [show call.run reserved db = _ from hcomplete.symm, Concurrent.complete]
    obtain hidle | ⟨batch, after, hwriting, -⟩ := hwriter
    · rw [hidle]
    · rw [hwriting]
      simp only [Database.commit_error hflag]
  rw [hrun]
  exact hfollows.data

/-! ### Standalone calls -/

/-- The batch of an operation writes the info it leaves. -/
theorem opWrites_effect {r : Records} {site : OpSite} {op : TokenOp} {w : CDBBatch}
    (hw : opWrites r site op = some w) : InfoEffect w (r.ledger.infoAfter site op) := by
  cases op with
  | issue issuance issuer =>
    obtain ⟨-, -, rfl⟩ := opWrites_issue_eq hw
    exact .issueWrites issuance issuer site _
  | transfer t f d n =>
    obtain ⟨-, -, ⟨hfd, rfl⟩ | ⟨hfd, -, rfl⟩⟩ := opWrites_transfer_eq hw
    · rw [Ledger.infoAfter, if_pos hfd]
      exact .selfTransferWrites site t f n _
    · rw [Ledger.infoAfter, if_neg hfd]
      exact .transferWrites site t f d n _ _ _ _ _
  | burn t f n =>
    obtain ⟨-, i, hi, -, rfl⟩ := opWrites_burn_eq hw
    rw [Ledger.infoAfter, show r.ledger.info t = some i from hi]
    exact .burnWrites site t f n _ _ _

/-- The info an operation leaves stands under its token. -/
theorem infoAfter_filed {r : Records} (hr : InfoWF r) {site : OpSite} {op : TokenOp}
    (hlimits : (DbCall.standalone site op).WithinLimits) {j : TokenInfo}
    (hj : r.ledger.infoAfter site op = some j) : Filed (op.token site) j := by
  cases op with
  | issue issuance issuer =>
    obtain rfl := Option.some.inj hj
    exact ⟨rfl, hlimits⟩
  | transfer t f d n =>
    obtain ⟨i, hi, rfl⟩ := Option.map_eq_some_iff.mp hj
    have hfiled : Filed t i := hr t i hi
    split_ifs
    · exact hfiled.selfTransfer
    · exact hfiled.transfer _ _ n
  | burn t f n =>
    obtain ⟨i, hi, rfl⟩ := Option.map_eq_some_iff.mp hj
    exact Filed.burn (hr t i hi) _ n

/-- Commit and cache together, in either order. -/
theorem InOrder.install {db db' : TokenDB} (h : InOrder db) {w : CDBBatch} {j : Option TokenInfo}
    (hw : InfoEffect w j) (hj : ∀ i, j = some i → Filed i.tokenId i)
    (hrecords : db'.records = Store.writeBatch db.records w)
    (hcache : db'.mTokenCache = j.elim db.mTokenCache fun i => db.mTokenCache.insert i.tokenId i) :
    InOrder db' := by
  have hread : ∀ t, db'.records.read (.tokenInfo t) =
      (j.filter fun i => i.tokenId = t).or (db.records.read (.tokenInfo t)) := by
    intro t
    rw [hrecords, hw]
  refine ⟨fun p hp => ?_, ?_⟩
  · rw [hcache] at hp
    rw [hread]
    cases j with
    | none => exact h.cache p hp
    | some i =>
      rcases LRUCache.mem_insert hp with rfl | ⟨hp, hne⟩
      · simp [Option.filter]
      · simpa [Option.filter, Ne.symm hne] using h.cache p hp
  · rw [hrecords]
    exact h.filed.effect hw hj

theorem InOrder.looks {db db' : TokenDB} (h : InOrder db) (hlooks : Looks db db') :
    SameData db db' ∧ InOrder db' := by
  obtain ⟨hdata, hcache⟩ := hlooks.spec h.cache
  refine ⟨hdata, hcache, ?_⟩
  rw [hdata.records]
  exact h.filed

/-- An issuance in standalone mode. -/
theorem immediateOp_issue {db : TokenDB} (h : InOrder db) (site : OpSite) (issuance : TokenIssuance)
    (issuer : CScript) :
    (immediateOp db site (.issue issuance issuer)).1 =
      match opWrites db.records site (.issue issuance issuer) with
      | none => db
      | some w =>
        match db.mDb.commit w with
        | .error _ => db
        | .ok mDb => ({ db with mDb := mDb }.updateCache (issueInfo issuance site)).countToken := by
  have hcall := registerToken_eq (sees_records h.cache h.filed) issuance issuer site rfl
    (by rw [tokenExists_eq h.cache, Option.any_none, Bool.or_false]; rfl) none
  simp only [immediateOp, hcall]
  cases opWrites db.records site (.issue issuance issuer) with
  | none => rfl
  | some w => cases hcommit : db.mDb.commit w <;> simp [hcommit]

/-- **A move in standalone mode** is refused after a lookup at most, or ends in `finishMove`. -/
theorem immediateOp_move {db : TokenDB} (h : InOrder db) (site : OpSite) {op : TokenOp}
    (hop : ∀ issuance issuer, op ≠ .issue issuance issuer) :
    (opWrites db.records site op = none ∧ Looks db (immediateOp db site op).1) ∨
    ∃ w db', opWrites db.records site op = some w ∧ Looks db db' ∧
      (immediateOp db site op).1 =
        (finishMove db' none none w (db.records.ledger.infoAfter site op)).db := by
  have hsees := sees_records h.cache h.filed
  cases op with
  | issue issuance issuer => exact absurd rfl (hop issuance issuer)
  | transfer t f d n =>
    have hcall := transferTokens_eq hsees t f d n site none
    cases hw : opWrites db.records site (.transfer t f d n) with
    | none =>
      rw [hw] at hcall
      refine .inl ⟨rfl, ?_⟩
      simp only [immediateOp, hcall]
      exact .none
    | some w =>
      rw [hw] at hcall
      refine .inr ⟨w, _, rfl, opTokenInfo_looks db none t, ?_⟩
      simp only [immediateOp, hcall]
      rfl
  | burn t f n =>
    cases hw : opWrites db.records site (.burn t f n) with
    | none =>
      obtain ⟨db', hdb', hcall⟩ := burnTokens_refused hsees none hw
      refine .inl ⟨rfl, ?_⟩
      simp only [immediateOp, hcall]
      obtain rfl | rfl := hdb'
      · exact .none
      · exact opTokenInfo_looks db none t
    | some w =>
      have hread : ∀ t a, opAddrTokens (opTokenInfo db none t).2 none a =
          opAddrTokens db none a := by
        intro t a
        show Records.addrTokens _ a = Records.addrTokens _ a
        rw [((h.looks (opTokenInfo_looks db none t)).1).records]
      obtain ⟨j, hj, hcall⟩ := burnTokens_accepted hsees hread none hw
      refine .inr ⟨w, _, rfl, opTokenInfo_looks db none t, ?_⟩
      simp only [immediateOp, hcall, hj]
      rfl

/-- `finishMove` on a storage layer that works. -/
theorem finishMove_inOrder {db : TokenDB} (h : InOrder db) {w : CDBBatch} {j : Option TokenInfo}
    (hw : InfoEffect w j) (hj : ∀ i, j = some i → Filed i.tokenId i)
    (hfails : db.mDb.writeFails = false) :
    InOrder (finishMove db none none w j).db := by
  cases j with
  | none =>
    have hcommit : db.mDb.commit w = .ok ⟨db.records.writeBatch w, false⟩ :=
      Database.commit_ok hfails w
    refine h.install hw hj ?_ ?_
    · simp [finishMove, hcommit, TokenDB.records]
    · simp [finishMove, hcommit]
  | some i =>
    obtain ⟨-, hdb, hcache⟩ := finishMove_commit hfails none w i
    exact h.install hw hj (congrArg Database.records hdb) hcache

/-- `finishMove` when the commit throws. -/
theorem finishMove_fails {db : TokenDB} (hfails : db.mDb.writeFails = true) (w : CDBBatch)
    (j : Option TokenInfo) : (finishMove db none none w j).db = j.elim db db.updateCache := by
  cases j with
  | none => simp [finishMove, Database.commit_error hfails]
  | some i =>
    have hcommit : (db.updateCache i).mDb.commit w = .error .writeFailed :=
      Database.commit_error hfails w
    simp [finishMove, hcommit]

/-- A standalone call that is committed leaves the database in order. -/
theorem InOrder.standalone {db : TokenDB} (h : InOrder db) (hfails : db.mDb.writeFails = false)
    (site : OpSite) {op : TokenOp} (hlimits : (DbCall.standalone site op).WithinLimits) :
    InOrder (immediateOp db site op).1 := by
  have hfiled : ∀ i, db.records.ledger.infoAfter site op = some i → Filed i.tokenId i :=
    fun i hi => (infoAfter_filed h.filed hlimits hi).self
  by_cases hissue : ∃ issuance issuer, op = .issue issuance issuer
  · obtain ⟨issuance, issuer, rfl⟩ := hissue
    rw [immediateOp_issue h]
    cases hw : opWrites db.records site (.issue issuance issuer) with
    | none => exact h
    | some w =>
      simp only [Database.commit_ok hfails]
      refine h.install (opWrites_effect hw) hfiled ?_ ?_
      · rw [TokenDB.records, countToken_mDb]
        rfl
      · rw [countToken_cache]
        rfl
  · rcases immediateOp_move h site (fun issuance issuer heq => hissue ⟨issuance, issuer, heq⟩) with
      ⟨-, hlooks⟩ | ⟨w, db', hw, hlooks, hrun⟩
    · exact (h.looks hlooks).2
    · obtain ⟨hdata, horder⟩ := h.looks hlooks
      rw [hrun]
      refine finishMove_inOrder horder (opWrites_effect hw) hfiled ?_
      rw [hdata.mDb]
      exact hfails

/-! ### What a failed call leaves -/

/-- When a burn changes the info. -/
theorem burnInfo_ne_iff (b n : ℕ) (i : TokenInfo) :
    burnInfo b n i ≠ i ↔ (0 < n ∧ 0 < i.circulatingSupply) ∨ (b = n ∧ 0 < i.holderCount) := by
  have hfields : burnInfo b n i = i ↔
      (burnInfo b n i).circulatingSupply = i.circulatingSupply ∧
        (burnInfo b n i).holderCount = i.holderCount := by
    constructor
    · intro h
      rw [h]
      exact ⟨rfl, rfl⟩
    · intro ⟨hcirculating, hholders⟩
      unfold burnInfo at hcirculating hholders ⊢
      split_ifs at hcirculating hholders ⊢ with hlast
      · exact absurd hholders (by have := hlast.2; simp; omega)
      · exact congrArg (fun c => { i with circulatingSupply := c }) hcirculating
  rw [ne_eq, hfields]
  unfold burnInfo
  split_ifs with hlast
  · have := hlast.2
    simp only
    omega
  · simp only [and_true]
    omega

/-- A transfer counts itself, so it always changes the info. -/
theorem ne_infoAfter_transfer {r : Records} {site : OpSite} {t : TokenId} {f d : CScript} {n : ℕ}
    {j : TokenInfo}
    (hj : r.ledger.infoAfter site (.transfer t f d n) = some j) : r.info t ≠ some j := by
  intro hi
  rw [Ledger.infoAfter, show r.ledger.info t = some j from hi, Option.map_some,
    Option.some.injEq] at hj
  have hcount := congrArg TokenInfo.transferCount hj
  split_ifs at hcount
  · simp [selfTransferInfo] at hcount
  · rw [transferInfo_eq] at hcount
    simp at hcount

/-- A batch is written exactly if the operation is accepted. -/
theorem exists_writes_iff {r : Records} {site : OpSite} {op : TokenOp} {P : TokenInfo → Prop} :
    (∃ w j, opWrites r site op = some w ∧ r.ledger.infoAfter site op = some j ∧ P j) ↔
      r.ledger.Accepts site op ∧ ∃ j, r.ledger.infoAfter site op = some j ∧ P j := by
  rw [← opWrites_isSome_iff, Option.isSome_iff_exists]
  constructor
  · exact fun ⟨w, j, hw, hj⟩ => ⟨⟨w, hw⟩, j, hj⟩
  · exact fun ⟨⟨w, hw⟩, j, hj⟩ => ⟨w, j, hw, hj⟩

theorem cachesAhead_transfer_iff {db : TokenDB} {site : OpSite} {t : TokenId} {f d : CScript}
    {n : ℕ} :
    CachesAhead db (.standalone site (.transfer t f d n)) ↔
      db.records.ledger.Accepts site (.transfer t f d n) ∧
        ∃ j, db.records.ledger.infoAfter site (.transfer t f d n) = some j ∧
          db.records.info t ≠ some j := by
  show 0 < n ∧ n ≤ db.records.balance f t ∧ (f = d ∨ db.records.balance d t + n ≤ uint64Max) ∧
    (db.records.info t).isSome ↔ _
  have hafter : (db.records.ledger.infoAfter site (.transfer t f d n)).isSome =
      (db.records.info t).isSome :=
    Option.isSome_map
  constructor
  · rintro ⟨hpos, hbal, hmax, hinfo⟩
    obtain ⟨j, hj⟩ := Option.isSome_iff_exists.mp (hafter.trans hinfo)
    exact ⟨⟨hpos, hbal, hmax⟩, j, hj, ne_infoAfter_transfer hj⟩
  · rintro ⟨⟨hpos, hbal, hmax⟩, j, hj, -⟩
    exact ⟨hpos, hbal, hmax, hafter.symm.trans (by rw [hj]; rfl)⟩

theorem cachesAhead_burn_iff {db : TokenDB} {site : OpSite} {t : TokenId} {f : CScript} {n : ℕ} :
    CachesAhead db (.standalone site (.burn t f n)) ↔
      db.records.ledger.Accepts site (.burn t f n) ∧
        ∃ j, db.records.ledger.infoAfter site (.burn t f n) = some j ∧
          db.records.info t ≠ some j := by
  show n ≤ db.records.balance f t ∧ (∃ i, db.records.info t = some i ∧ n ≤ i.circulatingSupply ∧
      (0 < n ∨ db.records.balance f t = 0 ∧ 0 < i.holderCount)) ↔
    (n ≤ db.records.balance f t ∧ ∃ i, db.records.info t = some i ∧ n ≤ i.circulatingSupply) ∧
      ∃ j, (db.records.info t).map (burnInfo (db.records.balance f t) n) = some j ∧
        db.records.info t ≠ some j
  cases db.records.info t with
  | none => simp
  | some i =>
    have hchange := ne_comm.trans (burnInfo_ne_iff (db.records.balance f t) n i)
    simp only [Option.some.injEq, exists_eq_left', Option.map_some, ne_eq] at hchange ⊢
    rw [hchange]
    omega

/-- A new info that is cached ahead of its commit. -/
theorem cachesAhead_iff {db : TokenDB} (site : OpSite) {op : TokenOp}
    (hop : ∀ issuance issuer, op ≠ .issue issuance issuer) :
    CachesAhead db (.standalone site op) ↔
      ∃ w j, opWrites db.records site op = some w ∧ db.records.ledger.infoAfter site op = some j ∧
        db.records.read (.tokenInfo (op.token site)) ≠ some j := by
  cases op with
  | issue issuance issuer => exact absurd rfl (hop issuance issuer)
  | transfer t f d n => exact cachesAhead_transfer_iff.trans exists_writes_iff.symm
  | burn t f n => exact cachesAhead_burn_iff.trans exists_writes_iff.symm

/-- Caching the committed info again changes nothing that can be seen. -/
theorem InOrder.recache {db : TokenDB} (h : InOrder db) {j : TokenInfo}
    (hj : db.records.read (.tokenInfo j.tokenId) = some j) : InOrder (db.updateCache j) := by
  refine ⟨fun p hp => ?_, h.filed⟩
  rcases LRUCache.mem_insert hp with rfl | ⟨hp, -⟩
  · exact hj
  · exact h.cache p hp

/-- A cached info is what a lookup finds. -/
theorem readTokenInfo_updateCache (db : TokenDB) (j : TokenInfo) :
    ((db.updateCache j).readTokenInfo j.tokenId).1 = some j := by
  have hget : ((db.updateCache j).mTokenCache.get j.tokenId).1 = some j :=
    LRUCache.get_insert_self db.mTokenCache j.tokenId j
  unfold TokenDB.readTokenInfo
  generalize (db.updateCache j).mTokenCache.get j.tokenId = found at hget
  obtain ⟨info, cache⟩ := found
  obtain rfl : info = some j := hget
  rfl

/-- A failed standalone move, on the database as its lookup has left it. -/
theorem moveFails {db : TokenDB} (h : InOrder db) (hfails : db.mDb.writeFails = true)
    (site : OpSite) {op : TokenOp} (hop : ∀ issuance issuer, op ≠ .issue issuance issuer) :
    ∃ db', Looks db db' ∧ ((immediateOp db site op).1 = db' ∧ (opWrites db.records site op = none ∨
        db.records.ledger.infoAfter site op = none) ∨
      ∃ w j, opWrites db.records site op = some w ∧ db.records.ledger.infoAfter site op = some j ∧
        (immediateOp db site op).1 = db'.updateCache j) := by
  rcases immediateOp_move h site hop with ⟨hnone, hlooks⟩ | ⟨w, db', hw, hlooks, hrun⟩
  · exact ⟨_, hlooks, .inl ⟨rfl, .inl hnone⟩⟩
  · have hflag : db'.mDb.writeFails = true := by
      rw [(h.looks hlooks).1.mDb]
      exact hfails
    rw [finishMove_fails hflag] at hrun
    refine ⟨db', hlooks, ?_⟩
    cases hj : db.records.ledger.infoAfter site op with
    | none =>
      rw [hj] at hrun
      exact .inl ⟨hrun, .inr rfl⟩
    | some j =>
      rw [hj] at hrun
      exact .inr ⟨w, j, hw, rfl, hrun⟩

theorem DbCall.limits_of_move {site : OpSite} {op : TokenOp}
    (hop : ∀ issuance issuer, op ≠ .issue issuance issuer) :
    (DbCall.standalone site op).WithinLimits := by
  cases op with
  | issue issuance issuer => exact absurd rfl (hop issuance issuer)
  | transfer t f d n => trivial
  | burn t f n => trivial

section Failure

variable {db : TokenDB} (h : InOrder db) (reserved : List Bytes)

include h

/-- **A failed call that has not cached ahead** leaves a database that answers alike. -/
theorem failed_alike (hfails : db.mDb.writeFails = true) {c : DbCall} (hc : ¬ CachesAhead db c) :
    Alike db (c.run reserved db) := by
  cases c with
  | block call => exact ⟨h, h.block reserved call, h.blockFails hfails reserved call⟩
  | standalone site op =>
    by_cases hissue : ∃ issuance issuer, op = .issue issuance issuer
    · obtain ⟨issuance, issuer, rfl⟩ := hissue
      have hrun : (immediateOp db site (.issue issuance issuer)).1 = db := by
        rw [immediateOp_issue h]
        cases opWrites db.records site (.issue issuance issuer) with
        | none => rfl
        | some w => simp only [Database.commit_error hfails]
      rw [DbCall.run, hrun]
      exact ⟨h, h, .refl db⟩
    · have hop : ∀ issuance issuer, op ≠ .issue issuance issuer :=
        fun issuance issuer heq => hissue ⟨issuance, issuer, heq⟩
      obtain ⟨db', hlooks, ⟨hrun, -⟩ | ⟨w, j, hw, hj, hrun⟩⟩ := moveFails h hfails site hop
      · obtain ⟨hdata, horder⟩ := h.looks hlooks
        rw [DbCall.run, hrun]
        exact ⟨h, horder, hdata⟩
      · obtain ⟨hdata, horder⟩ := h.looks hlooks
        have hfiled := infoAfter_filed h.filed (DbCall.limits_of_move hop) hj
        have hread : db.records.read (.tokenInfo (op.token site)) = some j := by
          by_contra hne
          exact hc ((cachesAhead_iff site hop).mpr ⟨w, j, hw, hj, hne⟩)
        rw [DbCall.run, hrun]
        refine ⟨h, horder.recache ?_, hdata.trans rfl⟩
        rw [hdata.records, hfiled.1]
        exact hread

/-- **A failed call that has cached ahead** is seen by the next lookup of its token. -/
theorem failed_ahead (hfails : db.mDb.writeFails = true) {c : DbCall} (hc : CachesAhead db c) :
    ∃ t, ((c.run reserved db).getTokenInfo t).1 ≠ (db.getTokenInfo t).1 := by
  cases c with
  | block call => exact hc.elim
  | standalone site op =>
    have hop : ∀ issuance issuer, op ≠ .issue issuance issuer := by
      intro issuance issuer heq
      rw [heq] at hc
      exact hc
    obtain ⟨w, j, hw, hj, hne⟩ := (cachesAhead_iff site hop).mp hc
    have hfiled := infoAfter_filed h.filed (DbCall.limits_of_move hop) hj
    refine ⟨j.tokenId, ?_⟩
    obtain ⟨db', -, ⟨-, hnone | hnone⟩ | ⟨w', j', -, hj', hrun⟩⟩ := moveFails h hfails site hop
    · rw [hw] at hnone
      cases hnone
    · rw [hj] at hnone
      cases hnone
    · obtain rfl : j' = j := Option.some.inj (hj'.symm.trans hj)
      rw [DbCall.run, hrun]
      show ((db'.updateCache j').readTokenInfo j'.tokenId).1 ≠ (db.readTokenInfo j'.tokenId).1
      rw [readTokenInfo_updateCache, readTokenInfo_fst h.cache h.filed, hfiled.1]
      exact fun heq => hne heq.symm

end Failure

/-! ### Runs -/

/-- The state between calls: in order, and the storage layer works. -/
structure Working (db : TokenDB) : Prop where
  order : InOrder db
  writable : db.mDb.writeFails = false

theorem InOrder.withWriteFails {db : TokenDB} (h : InOrder db) (fails : Bool) :
    InOrder (db.withWriteFails fails) :=
  ⟨h.cache, h.filed⟩

theorem SameData.withWriteFails {db db' : TokenDB} (h : SameData db db') (fails : Bool) :
    SameData (db.withWriteFails fails) (db'.withWriteFails fails) := by
  unfold SameData at h ⊢
  rw [h]
  rfl

theorem readTokenInfo_withWriteFails (db : TokenDB) (fails : Bool) (t : TokenId) :
    ((db.withWriteFails fails).readTokenInfo t).1 = (db.readTokenInfo t).1 := by
  unfold TokenDB.readTokenInfo
  rw [show (db.withWriteFails fails).mTokenCache = db.mTokenCache from rfl]
  cases db.mTokenCache.get t with
  | mk found cache =>
    cases found with
    | some info => rfl
    | none =>
      rw [withWriteFails_records]
      cases db.records.read (.tokenInfo t) with
      | none => rfl
      | some info =>
        dsimp only
        split_ifs <;> rfl

theorem Working.empty : Working .empty :=
  ⟨⟨.empty, fun _ _ hi => absurd ((read_empty _).symm.trans hi) (by simp)⟩, rfl⟩

/-- **Every careful step** leaves the database in order. -/
theorem Working.step {reserved : List Bytes} {db db' : TokenDB} (h : Working db) {a : DbAction}
    (hok : Careful db a) (hstep : (dbMachine reserved).step db a = some db') : Working db' := by
  cases a with
  | call c fails =>
    obtain rfl := Option.some.inj hstep
    refine ⟨InOrder.withWriteFails ?_ false, rfl⟩
    have horder := h.order.withWriteFails fails
    cases fails with
    | true => exact (failed_alike horder reserved rfl (c := c) hok).right
    | false =>
      cases c with
      | block call => exact horder.block reserved call
      | standalone site op => exact horder.standalone rfl site hok
  | query q =>
    obtain rfl := Option.some.inj hstep
    refine ⟨h.order.ask q, ?_⟩
    rw [Query.ask_mDb]
    exact h.writable
  | evict t =>
    obtain rfl := Option.some.inj hstep
    exact ⟨⟨fun p hp => h.order.cache p (LRUCache.mem_erase hp).1, h.order.filed⟩, h.writable⟩
  | reopen =>
    obtain rfl := Option.some.inj hstep
    refine ⟨⟨fun p hp => ?_, h.order.filed⟩, h.writable⟩
    cases hp

theorem working_of_run {reserved : List Bytes} {db : TokenDB}
    (h : (dbMachine reserved).Run Careful db) :
    Working db := by
  refine h.induct ?_ fun db db' a hdb hok hstep => hdb.step hok hstep
  intro db hdb
  rw [show db = .empty from hdb]
  exact .empty

/-- **A failed commit has no effect that a query could see**, exactly if the call has not put a new
token info into the cache ahead of it. -/
theorem failed_commit_unseen (reserved : List Bytes) (db : TokenDB)
    (h : (dbMachine reserved).Run Careful db) (c : DbCall) :
    (∀ qs, replies (afterFailure reserved db c) qs = replies db qs) ↔ ¬ CachesAhead db c := by
  obtain ⟨horder, hwritable⟩ := working_of_run h
  have hfailing := horder.withWriteFails true
  have hback : (db.withWriteFails true).withWriteFails false = db := by
    rw [withWriteFails_idem, withWriteFails_self hwritable]
  constructor
  · intro hsame hahead
    obtain ⟨t, ht⟩ := failed_ahead hfailing reserved rfl (c := c) hahead
    have hreply := Reply.info.inj (List.head_eq_of_cons_eq (hsame [.getTokenInfo t]))
    refine ht ?_
    show ((c.run reserved (db.withWriteFails true)).readTokenInfo t).1 =
        ((db.withWriteFails true).readTokenInfo t).1
    rw [readTokenInfo_withWriteFails db, ← readTokenInfo_withWriteFails _ false]
    exact hreply
  · intro hahead qs
    obtain ⟨-, hright, hdata⟩ := failed_alike hfailing reserved rfl (c := c) hahead
    refine Alike.replies ⟨horder, hright.withWriteFails false, ?_⟩ qs
    have hsame := hdata.withWriteFails false
    rw [hback] at hsame
    exact hsame

/-- Block 101 of the sample chain connected by this machine. -/
def issuedDb : TokenDB :=
  (DbCall.run [] (TokenDB.empty.withWriteFails false)
    (.block (.processBlock Sample.issueEntry.block 1 Sample.issueEntry.blockundo))).withWriteFails
      false

theorem issuedDb_run : (dbMachine []).Run Careful issuedDb :=
  .next (a := .call (.block (.processBlock Sample.issueEntry.block 1
    Sample.issueEntry.blockundo)) false)
    (.start rfl) trivial rfl

/-- A block that cannot be connected is not seen. -/
theorem failed_commit_unseen_block :
    ¬ CachesAhead issuedDb
      (.block (.processBlock Sample.moveEntry.block 2 Sample.moveEntry.blockundo)) ∧
    ∀ qs, replies (afterFailure [] issuedDb (.block (.processBlock Sample.moveEntry.block 2
      Sample.moveEntry.blockundo))) qs = replies issuedDb qs :=
  ⟨id, (failed_commit_unseen [] issuedDb issuedDb_run _).mpr id⟩

/-- A standalone transfer of 3 units whose commit throws: the balances are the old ones, but the
transfer is counted in the info that is found afterwards. -/
theorem failed_transfer_seen :
    (dbMachine []).Run Careful issuedDb ∧
    replies issuedDb [.getBalance Sample.bob 7, .getTransferCount] =
      replies (afterFailure [] issuedDb
        (.standalone ⟨8, 2, 0, 0⟩ (.transfer 7 Sample.alice Sample.bob 3)))
        [.getBalance Sample.bob 7, .getTransferCount] ∧
    ((issuedDb.getTokenInfo 7).1.map fun i => (i.holderCount, i.transferCount)) = some (1, 0) ∧
    (((afterFailure [] issuedDb
      (.standalone ⟨8, 2, 0, 0⟩ (.transfer 7 Sample.alice Sample.bob 3))).getTokenInfo 7).1.map
      fun i => (i.holderCount, i.transferCount)) = some (2, 1) ∧
    replies (afterFailure [] issuedDb
      (.standalone ⟨8, 2, 0, 0⟩ (.transfer 7 Sample.alice Sample.bob 3))) [.getTokenInfo 7] ≠
      replies issuedDb [.getTokenInfo 7] :=
  ⟨issuedDb_run, by decide +kernel, by decide +kernel, by decide +kernel, by decide +kernel⟩

end OpenSY.Tokens
