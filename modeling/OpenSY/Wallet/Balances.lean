import OpenSY.Lib.OrderedMap
import OpenSY.Tokens.Invariants
import OpenSY.Wallet.Tokens

/-!
# The balances of a wallet

`GetTokenBalances` goes through the scripts of the wallet and adds up what the token list of each
one names. `GetTokenBalance` adds up the balances of one token directly.

* `addBalance_spec` — one more balance in the map;
* `aggregate_spec` — after any scripts, the map has what they hold of each token, described as the
  database does;
* `balance_views_agree` — so the two views agree on every token, and no sum ever saturates.
-/

namespace OpenSY.Wallet

open OpenSY.Chain OpenSY.Src20 OpenSY.Tokens OpenSY.Ordered OpenSY.Selection OpenSY.DecimalText

/-- The map from tokens to balances, and the database with the cache as the reads leave it. -/
abbrev BalancesMap : Type := OrderedMap TokenId WalletTokenBalance × TokenDB

/-- The body of the inner loop. -/
def addBalance (acc : BalancesMap) (tb : TokenBalance) : BalancesMap :=
  let old := (acc.1.find tb.tokenId).getD { tokenId := 0 }
  let balance := { old with
    tokenId := tb.tokenId
    balance := (checkedAdd old.balance tb.balance).getD uint64Max }
  if balance.ticker = [] then
    let read := acc.2.getTokenInfo tb.tokenId
    let balance := match read.1 with
      | some info =>
        { balance with ticker := info.ticker, name := info.name, decimals := info.decimals }
      | none => balance
    (acc.1.insert tb.tokenId balance, read.2)
  else (acc.1.insert tb.tokenId balance, acc.2)

/-- The body of the outer loop. -/
def addScript (acc : BalancesMap) (script : CScript) : BalancesMap :=
  (acc.2.getAddressBalances script 0).foldl addBalance acc

def aggregate (db : TokenDB) (scripts : List CScript) : BalancesMap :=
  scripts.foldl addScript (.empty, db)

/-- Tickers are compared byte by byte. -/
def tickerRank (balance : WalletTokenBalance) : List ℕ := balance.ticker.map UInt8.toNat

abbrev BalanceSort : Type :=
  Sorting fun a b : WalletTokenBalance => decide (tickerRank a < tickerRank b)

/-- One that can be run. -/
def byTicker : BalanceSort where
  run l := l.insertionSort fun a b => tickerRank a ≤ tickerRank b
  perm l := List.perm_insertionSort _ l
  sorted l := by
    have hpairs := List.pairwise_insertionSort (fun a b => tickerRank a ≤ tickerRank b) l
    exact hpairs.imp fun h => by simpa using h

def WalletTokenBalance.formatted (balance : WalletTokenBalance) : WalletTokenBalance :=
  { balance with balanceFormatted := formatTokenBalance balance.balance balance.decimals }

/-- The second loop of `GetTokenBalances`. -/
def listBalances (balances : OrderedMap TokenId WalletTokenBalance) : List WalletTokenBalance :=
  ((balances.entries.map Prod.snd).filter fun balance => 0 < balance.balance).map
    WalletTokenBalance.formatted

def CWallet.getTokenBalances (sort : BalanceSort) (w : CWallet) (db : TokenDB) :
    List WalletTokenBalance × TokenDB :=
  let acc := aggregate db w.walletScripts
  (sort.run (listBalances acc.1), acc.2)

/-! ### The map -/

/-- An amount of a token, with what the database says about the token. -/
def described (r : Records) (t : TokenId) (amount : ℕ) : WalletTokenBalance :=
  match r.info t with
  | some info =>
    { tokenId := t, ticker := info.ticker, name := info.name, decimals := info.decimals,
      balance := amount }
  | none => { tokenId := t, balance := amount }

/-- The map has the positive ones among the sums, and only the cache of the database has changed. -/
structure Aggregated (db : TokenDB) (sums : TokenId → ℕ) (acc : BalancesMap) : Prop where
  find : ∀ t, acc.1.find t = if 0 < sums t then some (described db.records t (sums t)) else none
  data : SameData db acc.2
  order : InOrder acc.2

theorem checkedAdd_getD {a b : ℕ} (h : a + b ≤ uint64Max) :
    (checkedAdd a b).getD uint64Max = a + b := by
  rw [checkedAdd, if_pos h, Option.getD_some]

@[simp] theorem described_tokenId (r : Records) (t : TokenId) (amount : ℕ) :
    (described r t amount).tokenId = t := by
  unfold described
  cases r.info t <;> rfl

@[simp] theorem described_balance (r : Records) (t : TokenId) (amount : ℕ) :
    (described r t amount).balance = amount := by
  unfold described
  cases r.info t <;> rfl

/-- What an entry is before the next balance is added: new, or described. -/
theorem Aggregated.old {db : TokenDB} {sums : TokenId → ℕ} {acc : BalancesMap}
    (h : Aggregated db sums acc) (t : TokenId) :
    sums t = 0 ∧ (acc.1.find t).getD { tokenId := 0 } = { tokenId := 0 } ∨
      (acc.1.find t).getD { tokenId := 0 } = described db.records t (sums t) := by
  rw [h.find t]
  by_cases hpos : 0 < sums t
  · rw [if_pos hpos]
    exact Or.inr rfl
  · rw [if_neg hpos]
    exact Or.inl ⟨Nat.eq_zero_of_not_pos hpos, rfl⟩

/-- **One more balance.** -/
theorem addBalance_spec {db : TokenDB} {sums : TokenId → ℕ} {acc : BalancesMap}
    (h : Aggregated db sums acc) {tb : TokenBalance}
    (hfit : sums tb.tokenId + tb.balance ≤ uint64Max) :
    (addBalance acc tb).1 =
      acc.1.insert tb.tokenId (described db.records tb.tokenId (sums tb.tokenId + tb.balance)) ∧
      SameData db (addBalance acc tb).2 ∧ InOrder (addBalance acc tb).2 := by
  obtain ⟨hdata, horder⟩ := h.order.getTokenInfo tb.tokenId
  have hread : (acc.2.getTokenInfo tb.tokenId).1 = db.records.info tb.tokenId :=
    (readTokenInfo_fst h.order.cache h.order.filed tb.tokenId).trans
      (congrArg (fun r : Records => r.info tb.tokenId) h.data.records)
  -- whether the entry is new, and whether the database knows the token
  obtain ⟨hsum, hold⟩ | hold := h.old tb.tokenId
  · have hadd : (checkedAdd 0 tb.balance).getD uint64Max = sums tb.tokenId + tb.balance := by
      rw [checkedAdd_getD (by omega), hsum]
    cases hinfo : db.records.info tb.tokenId with
    | none =>
      simp only [addBalance, hold, hadd, hread, hinfo, described, if_true, true_and]
      exact ⟨h.data.trans hdata, horder⟩
    | some info =>
      simp only [addBalance, hold, hadd, hread, hinfo, described, if_true, true_and]
      exact ⟨h.data.trans hdata, horder⟩
  · have hadd := checkedAdd_getD hfit
    cases hinfo : db.records.info tb.tokenId with
    | none =>
      simp only [described, hinfo] at hold
      simp only [addBalance, hold, hadd, hread, hinfo, described, if_true, true_and]
      exact ⟨h.data.trans hdata, horder⟩
    | some info =>
      simp only [described, hinfo] at hold
      simp only [addBalance, hold, hadd, hread, hinfo, described]
      split_ifs with hticker
      · exact ⟨rfl, h.data.trans hdata, horder⟩
      · exact ⟨rfl, h.data, h.order⟩

theorem Aggregated.add {db : TokenDB} {sums : TokenId → ℕ} {acc : BalancesMap}
    (h : Aggregated db sums acc) {tb : TokenBalance} (hpos : 0 < tb.balance)
    (hfit : sums tb.tokenId + tb.balance ≤ uint64Max) :
    Aggregated db (fun t => sums t + if tb.tokenId = t then tb.balance
      else 0) (addBalance acc tb) := by
  obtain ⟨hmap, hdata, horder⟩ := addBalance_spec h hfit
  refine ⟨fun t => ?_, hdata, horder⟩
  rw [hmap]
  by_cases ht : tb.tokenId = t
  · subst ht
    rw [OrderedMap.find_insert_self, if_pos rfl, if_pos (by omega)]
  · rw [OrderedMap.find_insert_of_ne _ _ (Ne.symm ht), if_neg ht, Nat.add_zero]
    exact h.find t

/-- What a list of balances adds up to for a token. -/
def amountOf (t : TokenId) (balances : List TokenBalance) : ℕ :=
  (balances.map fun tb => if tb.tokenId = t then tb.balance else 0).sum

theorem amountOf_cons (t : TokenId) (tb : TokenBalance) (balances : List TokenBalance) :
    amountOf t (tb :: balances) = (if tb.tokenId = t then tb.balance else 0) +
      amountOf t balances := by
  rw [amountOf, List.map_cons, List.sum_cons]
  rfl

/-- The inner loop. -/
theorem Aggregated.addAll {db : TokenDB} {balances : List TokenBalance}
    (hpos : ∀ tb ∈ balances, 0 < tb.balance) :
    ∀ {sums : TokenId → ℕ} {acc : BalancesMap}, Aggregated db sums acc →
      (∀ t, sums t + amountOf t balances ≤ uint64Max) →
      Aggregated db (fun t => sums t + amountOf t balances) (balances.foldl addBalance acc) := by
  induction balances with
  | nil => exact fun h _ => h
  | cons tb balances ih =>
    intro sums acc h hfit
    have hfirst : sums tb.tokenId + tb.balance ≤ uint64Max := by
      have hle := hfit tb.tokenId
      rw [amountOf_cons, if_pos rfl] at hle
      omega
    have hnext := h.add (hpos tb List.mem_cons_self) hfirst
    have hrest := ih (fun tb' htb' => hpos tb' (List.mem_cons_of_mem _ htb')) hnext fun t => by
      have hle := hfit t
      rw [amountOf_cons] at hle
      omega
    simp only [Nat.add_assoc, ← amountOf_cons] at hrest
    exact hrest

/-! ### What an address holds -/

/-- Without a limit the loop collects every token with a balance. -/
theorem collectBalances_zero (db : TokenDB) (address : CScript) (tokenIds : List TokenId) :
    ∀ result : List TokenBalance, db.collectBalances address 0 tokenIds result =
      result ++ (tokenIds.filter fun t => 0 < db.getBalance address t).map fun t =>
        ⟨t, address, db.getBalance address t⟩ := by
  induction tokenIds with
  | nil => exact fun result => (List.append_nil result).symm
  | cons t tokenIds ih =>
    intro result
    rw [TokenDB.collectBalances, if_neg (by simp), ih]
    by_cases hpos : 0 < db.getBalance address t
    · rw [if_pos hpos, List.filter_cons_of_pos (by simpa using hpos), List.map_cons,
        List.append_assoc]
      rfl
    · rw [if_neg hpos, List.filter_cons_of_neg (by simpa using hpos)]

theorem amountOf_map (t : TokenId) (address : CScript) (amount : TokenId → ℕ)
    {tokenIds : List TokenId} (hnodup : tokenIds.Nodup) :
    amountOf t (tokenIds.map fun u => ⟨u, address, amount u⟩) =
      if t ∈ tokenIds then amount t else 0 := by
  induction tokenIds with
  | nil => rfl
  | cons u tokenIds ih =>
    obtain ⟨hu, hrest⟩ := List.nodup_cons.mp hnodup
    rw [List.map_cons, amountOf_cons, ih hrest]
    by_cases heq : u = t
    · subst heq
      rw [if_pos rfl, if_neg hu, if_pos List.mem_cons_self, Nat.add_zero]
    · simp [heq, Ne.symm heq]

section Reached

variable {nHeight : Uint256 → ℕ} {root : Uint256} {chain : List BlockEntry} {db : TokenDB}

/-- The list of an address comes to its balance of every token, and names none that it has none of.
-/
theorem amountOf_getAddressBalances (h : Reach nHeight root chain db) (address : CScript)
    (t : TokenId) :
    amountOf t (db.getAddressBalances address 0) = db.getBalance address t := by
  have hlisted : t ∈ db.records.addrTokens address ↔ 0 < db.getBalance address t :=
    h.storeSound.index.listed address t
  rw [TokenDB.getAddressBalances]
  cases hread : db.records.read (.addrTokens address) with
  | none =>
    simp only [Records.addrTokens, hread, Option.getD_none, Finset.notMem_empty, false_iff, not_lt,
      Nat.le_zero] at hlisted
    exact hlisted.symm
  | some tokenIds =>
    simp only [Records.addrTokens, hread, Option.getD_some] at hlisted
    show amountOf t (db.collectBalances address 0 (tokenIds.sort (· ≤ ·)) []) = _
    rw [collectBalances_zero, List.nil_append,
      amountOf_map t address _ ((Finset.sort_nodup tokenIds _).filter _)]
    simp only [List.mem_filter, Finset.mem_sort, hlisted, decide_eq_true_eq, and_self]
    split_ifs with hpos
    · rfl
    · omega

theorem getAddressBalances_pos (db : TokenDB) (address : CScript) :
    ∀ tb ∈ db.getAddressBalances address 0, 0 < tb.balance := by
  intro tb htb
  rw [TokenDB.getAddressBalances] at htb
  cases hread : db.records.read (.addrTokens address) with
  | none => simp [hread] at htb
  | some tokenIds =>
    simp only [hread, collectBalances_zero, List.nil_append] at htb
    obtain ⟨t, ht, rfl⟩ := List.mem_map.mp htb
    simpa using (List.mem_filter.mp ht).2

theorem getAddressBalances_congr {db' : TokenDB} (h : db'.records = db.records)
    (address : CScript) :
    db'.getAddressBalances address 0 = db.getAddressBalances address 0 := by
  unfold TokenDB.getAddressBalances
  rw [h]
  cases db.records.read (.addrTokens address) with
  | none => rfl
  | some tokenIds => exact collectBalances_congr h address 0 _ _

/-! ### Sums over the scripts -/

/-- What the scripts of a list hold of a token, together. -/
def heldBy (db : TokenDB) (t : TokenId) (scripts : List CScript) : ℕ :=
  (scripts.map fun script => db.getBalance script t).sum

/-- Different scripts hold no more than there is. -/
theorem heldBy_le (h : Reach nHeight root chain db) (t : TokenId) {scripts : List CScript}
    (hnodup : scripts.Nodup) : heldBy db t scripts ≤ uint64Max := by
  have hsum : heldBy db t scripts = ∑ script ∈ scripts.toFinset, db.getBalance script t :=
    (List.sum_toFinset _ hnodup).symm
  cases hi : db.records.info t with
  | none =>
    rw [hsum, Finset.sum_eq_zero fun script _ => h.balance_unregistered hi script]
    exact Nat.zero_le _
  | some info =>
    have hbooks := h.books hi
    rw [hsum]
    calc ∑ script ∈ scripts.toFinset, db.getBalance script t ≤ info.circulatingSupply :=
          hbooks.supply.sum_le _
      _ ≤ info.totalSupply := hbooks.circulating_le
      _ ≤ int64Max := hbooks.total_le
      _ ≤ uint64Max := by decide

/-- **The outer loop**, over any scripts. -/
theorem aggregate_spec (h : Reach nHeight root chain db) {scripts : List CScript}
    (hnodup : scripts.Nodup) :
    Aggregated db (fun t => heldBy db t scripts) (aggregate db scripts) := by
  induction scripts using List.reverseRecOn with
  | nil =>
    exact ⟨fun t => rfl, SameData.refl db, ⟨h.cacheCoherent, h.storeSound.infoWF⟩⟩
  | append_singleton scripts script ih =>
    have hprev := ih (List.nodup_append.mp hnodup).1
    have hheld : ∀ t, heldBy db t (scripts ++ [script]) = heldBy db t scripts +
        db.getBalance script t := by
      intro t
      simp [heldBy]
    have hsame := getAddressBalances_congr hprev.data.records script
    have hnext := Aggregated.addAll (getAddressBalances_pos db script) hprev fun t => by
      rw [amountOf_getAddressBalances h, ← hheld]
      exact heldBy_le h t hnodup
    simp only [amountOf_getAddressBalances h, ← hheld] at hnext
    rw [aggregate, List.foldl_append]
    show Aggregated db _ (addScript (aggregate db scripts) script)
    rw [addScript, hsame]
    exact hnext

/-- The sum of `GetTokenBalance` over any scripts. -/
theorem sumBalances_eq (h : Reach nHeight root chain db) (t : TokenId) {scripts : List CScript}
    (hnodup : scripts.Nodup) : sumBalances db t scripts = heldBy db t scripts := by
  induction scripts using List.reverseRecOn with
  | nil => rfl
  | append_singleton scripts script ih =>
    have hheld : heldBy db t (scripts ++ [script]) = heldBy db t scripts +
        db.getBalance script t := by
      simp [heldBy]
    have hle := heldBy_le h t hnodup
    have hprev := ih (List.nodup_append.mp hnodup).1
    rw [hheld] at hle
    rw [sumBalances, List.foldl_append]
    show (checkedAdd (sumBalances db t scripts) (db.getBalance script t)).getD uint64Max = _
    rw [hprev, checkedAdd_getD hle, hheld]

/-! ### The two views -/

/-- What the wallet holds of a token: every script counts once. -/
def CWallet.total (w : CWallet) (db : TokenDB) (t : TokenId) : ℕ :=
  ∑ script ∈ w.scripts.toFinset, db.getBalance script t

theorem walletScripts_nodup (w : CWallet) : w.walletScripts.Nodup :=
  (walletScripts_pairwise w).imp fun {s s'} hlt (heq : s = s') => by
    rw [heq] at hlt
    exact lt_irrefl _ hlt

theorem heldBy_walletScripts (w : CWallet) (db : TokenDB) (t : TokenId) :
    heldBy db t w.walletScripts = w.total db t := by
  have hsame : w.walletScripts.toFinset = w.scripts.toFinset := by
    ext script
    rw [List.mem_toFinset, List.mem_toFinset, mem_walletScripts]
  rw [CWallet.total, ← hsame, heldBy]
  exact (List.sum_toFinset _ (walletScripts_nodup w)).symm

/-- The list has an entry for each token that the wallet holds some of. -/
theorem mem_getTokenBalances (h : Reach nHeight root chain db) (sort : BalanceSort) (w : CWallet)
    (b : WalletTokenBalance) :
    b ∈ (w.getTokenBalances sort db).1 ↔
      ∃ t, 0 < w.total db t ∧ b = (described db.records t (w.total db t)).formatted := by
  have hspec := aggregate_spec h (walletScripts_nodup w)
  rw [CWallet.getTokenBalances, (sort.perm _).mem_iff, listBalances, List.mem_map]
  constructor
  · rintro ⟨balance, hbalance, rfl⟩
    rw [List.mem_filter, List.mem_map] at hbalance
    obtain ⟨⟨⟨t, v⟩, hentry, rfl⟩, -⟩ := hbalance
    have hfind := (OrderedMap.mem_entries_iff _ t v).mp hentry
    rw [hspec.find t, heldBy_walletScripts, Option.ite_none_right_eq_some,
      Option.some.injEq] at hfind
    exact ⟨t, hfind.1, congrArg _ hfind.2.symm⟩
  · rintro ⟨t, hpos, rfl⟩
    refine ⟨_, ?_, rfl⟩
    rw [List.mem_filter, List.mem_map]
    refine ⟨⟨(t, described db.records t (w.total db t)), ?_, rfl⟩, by simpa using hpos⟩
    rw [OrderedMap.mem_entries_iff, hspec.find t, heldBy_walletScripts, if_pos hpos]

/-- No token has two entries. -/
theorem getTokenBalances_nodup (h : Reach nHeight root chain db) (sort : BalanceSort)
    (w : CWallet) :
    ((w.getTokenBalances sort db).1.map WalletTokenBalance.tokenId).Nodup := by
  have hspec := aggregate_spec h (walletScripts_nodup w)
  have hkeys : ((aggregate db w.walletScripts).1.entries.map Prod.snd).map
      WalletTokenBalance.tokenId =
      (aggregate db w.walletScripts).1.entries.map Prod.fst := by
    rw [List.map_map]
    refine List.map_congr_left fun e he => ?_
    have hfind := (OrderedMap.mem_entries_iff _ e.1 e.2).mp he
    rw [hspec.find, Option.ite_none_right_eq_some, Option.some.injEq] at hfind
    show e.2.tokenId = e.1
    rw [← hfind.2, described_tokenId]
  have hnodup : ((aggregate db w.walletScripts).1.entries.map Prod.fst).Nodup :=
    (List.pairwise_map.mpr (aggregate db w.walletScripts).1.sorted).imp ne_of_lt
  rw [CWallet.getTokenBalances, ((sort.perm _).map _).nodup_iff, listBalances, List.map_map]
  show (((_ : List WalletTokenBalance).filter _).map WalletTokenBalance.tokenId).Nodup
  rw [← hkeys] at hnodup
  exact hnodup.sublist (List.filter_sublist.map _)

/-- The balance of one token is described as it is in the list. -/
theorem getTokenBalance_eq (h : Reach nHeight root chain db) (w : CWallet) (t : TokenId) :
    (w.getTokenBalance db t).1 =
      (db.records.info t).map fun _ => (described db.records t (w.total db t)).formatted := by
  have horder : InOrder db := ⟨h.cacheCoherent, h.storeSound.infoWF⟩
  have hread : (db.getTokenInfo t).1 = db.records.info t :=
    readTokenInfo_fst horder.cache horder.filed t
  have hsum : sumBalances (db.getTokenInfo t).2 t w.walletScripts = w.total db t := by
    have hrecords := (horder.getTokenInfo t).1.records
    have hsame : sumBalances (db.getTokenInfo t).2 t w.walletScripts =
        sumBalances db t w.walletScripts := by
      simp only [sumBalances, TokenDB.getBalance, hrecords]
    rw [hsame, sumBalances_eq h t (walletScripts_nodup w), heldBy_walletScripts]
  rw [CWallet.getTokenBalance]
  generalize db.getTokenInfo t = read at hread hsum
  obtain ⟨found, db'⟩ := read
  cases hinfo : db.records.info t with
  | none =>
    rw [hinfo] at hread
    cases hread
    rfl
  | some info =>
    rw [hinfo] at hread
    cases hread
    simp only [described, hinfo, WalletTokenBalance.formatted, Option.map_some]
    rw [hsum]

/-- **The balance views of a wallet agree.**  The list names a token exactly if the scripts of the
wallet hold some of it, once, with the sum, and as `GetTokenBalance` has it.  After any number of
scripts both loops have the sum so far, which fits: no addition saturates. -/
theorem balance_views_agree (h : Reach nHeight root chain db) (w : CWallet) (sort : BalanceSort) :
    let listed := (w.getTokenBalances sort db).1
    (listed.map WalletTokenBalance.tokenId).Nodup ∧
    (∀ t, (∃ b ∈ listed, b.tokenId = t) ↔ 0 < w.total db t) ∧
    (∀ b ∈ listed, b.balance = w.total db b.tokenId ∧ (w.getTokenBalance db b.tokenId).1 = some b) ∧
    (∀ t b, (w.getTokenBalance db t).1 = some b → b.balance = w.total db t) ∧
    ∀ t k, heldBy db t (w.walletScripts.take k) ≤ uint64Max ∧
      sumBalances db t (w.walletScripts.take k) = heldBy db t (w.walletScripts.take k) ∧
      (((aggregate db (w.walletScripts.take k)).1.find t).map WalletTokenBalance.balance).getD 0 =
        heldBy db t (w.walletScripts.take k) := by
  intro listed
  refine ⟨getTokenBalances_nodup h sort w, fun t => ?_, fun b hb => ?_, fun t b hb => ?_,
    fun t k => ?_⟩
  · constructor
    · rintro ⟨b, hb, rfl⟩
      obtain ⟨t, hpos, rfl⟩ := (mem_getTokenBalances h sort w b).mp hb
      simpa [WalletTokenBalance.formatted] using hpos
    · intro hpos
      exact ⟨_, (mem_getTokenBalances h sort w _).mpr ⟨t, hpos, rfl⟩, described_tokenId _ _ _⟩
  · obtain ⟨t, hpos, rfl⟩ := (mem_getTokenBalances h sort w b).mp hb
    have htoken : ((described db.records t (w.total db t)).formatted).tokenId = t :=
      described_tokenId _ _ _
    rw [htoken, getTokenBalance_eq h]
    refine ⟨described_balance _ _ _, ?_⟩
    -- a token that somebody holds is registered
    cases hinfo : db.records.info t with
    | none =>
      have hzero : w.total db t = 0 :=
        Finset.sum_eq_zero fun script _ => h.balance_unregistered hinfo script
      omega
    | some info => rfl
  · rw [getTokenBalance_eq h, Option.map_eq_some_iff] at hb
    obtain ⟨info, -, rfl⟩ := hb
    exact described_balance _ _ _
  · have hnodup : (w.walletScripts.take k).Nodup :=
      (walletScripts_nodup w).sublist (List.take_sublist k _)
    refine ⟨heldBy_le h t hnodup, sumBalances_eq h t hnodup, ?_⟩
    rw [(aggregate_spec h hnodup).find t]
    split_ifs with hpos
    · exact described_balance _ _ _
    · exact (Nat.eq_zero_of_not_pos hpos).symm

end Reached

/-- A wallet that has one address twice, in its book and in a script manager. -/
theorem balance_views_agree_twice :
    let w : CWallet := ⟨[.noDestination Sample.bob], [[Sample.bob, Sample.alice]], [], 2⟩
    w.total Sample.moved 7 = 10 ∧
      ∃ b ∈ (w.getTokenBalances byTicker Sample.moved).1, b.tokenId = 7 ∧ b.balance = 10 := by
  intro w
  have hagree := balance_views_agree Sample.reach_moved w byTicker
  have htotal : w.total Sample.moved 7 = 10 := by decide +kernel
  obtain ⟨b, hb, ht⟩ := (hagree.2.1 7).mpr (by rw [htotal]; decide)
  exact ⟨htotal, b, hb, ht, by rw [(hagree.2.2.1 b hb).1, ht, htotal]⟩

end OpenSY.Wallet
