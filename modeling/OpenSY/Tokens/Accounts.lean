import OpenSY.Tokens.Ledger

/-!
# Accounts in the store

A balance is kept in three places: the balance record, the holder index of the token and the token
list of the address.  `HolderIndex` says that the three agree, and `rebook` is the one change that
keeps them so: set the balance of an account and bring the other two along.

Every part of an operation that touches an account, forwards or backwards, is a `rebook`
(`writeBatch_debit`, `writeBatch_credit`, `writeBatch_writeBalance_listed`), although each writes a
different selection of the three records.  Under `HolderIndex` the ledger of a store determines all
its token records (`agreeOn_of_ledger_eq`), so that it is enough to argue about ledgers.
-/

namespace OpenSY.Tokens

open OpenSY.Chain OpenSY.Src20 OpenSY.KeyValueStore

/-! ### Kinds of keys -/

/-- The three families a balance is kept in. -/
def IsAccountKey : Key → Prop
  | .balance _ _ | .tokenHolders _ _ | .addrTokens _ => True
  | _ => False

/-- The six families that make up the token state, as opposed to undo data and block pointers. -/
def IsTokenKey : Key → Prop
  | .undo _ _ _ | .blockTokens _ | .bestBlock => False
  | _ => True

/-- The ledger a store represents. -/
def Records.ledger (r : Records) : Ledger where
  balance t a := r.balance a t
  info t := r.info t
  ticker k := r.read (.ticker k)
  history t k := r.read (.transfer t k.1 k.2.1 k.2.2)

@[simp] theorem ledger_empty : Records.ledger (∅ : Records) = Ledger.empty := by
  simp [Records.ledger, Ledger.empty, Records.balance, Records.info]

theorem balance_congr {r r' : Records} (h : AgreeOn IsTokenKey r r') (a : CScript) (t : TokenId) :
    r.balance a t = r'.balance a t := by
  unfold Records.balance
  rw [h (.balance a t) trivial]

theorem addrTokens_congr {r r' : Records} (h : AgreeOn IsTokenKey r r') (a : CScript) :
    r.addrTokens a = r'.addrTokens a := by
  unfold Records.addrTokens
  rw [h (.addrTokens a) trivial]

theorem ledger_congr {r r' : Records} (h : AgreeOn IsTokenKey r r') : r.ledger = r'.ledger := by
  refine Ledger.ext (funext fun t => funext fun a => balance_congr h a t) (funext fun t => ?_)
    (funext fun k => ?_) (funext fun t => funext fun k => ?_)
  · exact h (.tokenInfo t) trivial
  · exact h (.ticker k) trivial
  · exact h (.transfer t k.1 k.2.1 k.2.2) trivial

/-! ### The three records agree -/

structure HolderIndex (r : Records) : Prop where
  /-- no zero balance is stored -/
  stored : ∀ a t n, r.read (.balance a t) = some n → 0 < n
  holders : ∀ t a, r.read (.tokenHolders t a) = if 0 < r.balance a t then some true else none
  listed : ∀ a t, t ∈ r.addrTokens a ↔ 0 < r.balance a t
  /-- no empty token list is stored -/
  nonempty : ∀ a S, r.read (.addrTokens a) = some S → S ≠ ∅

theorem holderIndex_empty : HolderIndex (∅ : Records) where
  stored := fun a t n h => by simp at h
  holders := fun t a => by simp [Records.balance]
  listed := fun a t => by simp [Records.balance, Records.addrTokens]
  nonempty := fun a S h => by simp at h

theorem HolderIndex.congr {r r' : Records} (h : HolderIndex r) (hag : AgreeOn IsAccountKey r r') :
    HolderIndex r' := by
  have hbal : ∀ a t, r'.balance a t = r.balance a t := fun a t => by
    unfold Records.balance
    rw [hag (.balance a t) trivial]
  have haddr : ∀ a, r'.addrTokens a = r.addrTokens a := fun a => by
    unfold Records.addrTokens
    rw [hag (.addrTokens a) trivial]
  refine ⟨?_, ?_, ?_, ?_⟩
  · intro a t n hn
    exact h.stored a t n ((hag (.balance a t) trivial).trans hn)
  · intro t a
    rw [← hag (.tokenHolders t a) trivial, hbal]
    exact h.holders t a
  · intro a t
    rw [haddr, hbal]
    exact h.listed a t
  · intro a S hS
    exact h.nonempty a S ((hag (.addrTokens a) trivial).trans hS)

/-- A write outside the three families keeps their agreement. -/
theorem HolderIndex.applyOp {r : Records} (h : HolderIndex r) (op : BatchOp Value)
    (hop : ¬ IsAccountKey op.key) : HolderIndex (r.applyOp op) :=
  h.congr fun _ hk => (read_applyOp_of_ne r op fun hkey => hop (hkey ▸ hk)).symm

theorem HolderIndex.read_balance {r : Records} (h : HolderIndex r) (a : CScript) (t : TokenId) :
    r.read (.balance a t) = if 0 < r.balance a t then some (r.balance a t) else none := by
  cases hread : r.read (.balance a t) with
  | none => simp [Records.balance, hread]
  | some n =>
    have hbal : r.balance a t = n := by simp [Records.balance, hread]
    rw [hbal, if_pos (h.stored a t n hread)]

/-- A listed token list is stored as it is. -/
theorem HolderIndex.read_addrTokens {r : Records} (h : HolderIndex r) (a : CScript) :
    r.read (.addrTokens a) = if r.addrTokens a = ∅ then none else some (r.addrTokens a) := by
  cases hread : r.read (.addrTokens a) with
  | none => simp [Records.addrTokens, hread]
  | some S =>
    have haddr : r.addrTokens a = S := by simp [Records.addrTokens, hread]
    rw [haddr, if_neg (h.nonempty a S hread)]

/-- **Balances determine the three families.** -/
theorem HolderIndex.agreeOn {r r' : Records} (h : HolderIndex r) (h' : HolderIndex r')
    (hbal : ∀ a t, r.balance a t = r'.balance a t) : AgreeOn IsAccountKey r r' := by
  intro k hk
  cases k with
  | balance a t => rw [h.read_balance, h'.read_balance, hbal]
  | tokenHolders t a => rw [h.holders, h'.holders, hbal]
  | addrTokens a =>
    have haddr : r.addrTokens a = r'.addrTokens a := by
      ext t
      rw [h.listed, h'.listed, hbal]
    rw [h.read_addrTokens, h'.read_addrTokens, haddr]
  | _ => exact absurd hk (by simp [IsAccountKey])

/-- **The ledger determines all token records.** -/
theorem agreeOn_of_ledger_eq {r r' : Records} (h : HolderIndex r) (h' : HolderIndex r')
    (hledger : r.ledger = r'.ledger) : AgreeOn IsTokenKey r r' := by
  have hacc : AgreeOn IsAccountKey r r' :=
    h.agreeOn h' fun a t => congrFun (congrFun (congrArg Ledger.balance hledger) t) a
  intro k hk
  cases k with
  | tokenInfo t => exact congrFun (congrArg Ledger.info hledger) t
  | ticker k => exact congrFun (congrArg Ledger.ticker hledger) k
  | transfer t height txid i =>
    exact congrFun (congrFun (congrArg Ledger.history hledger) t) (height, txid, i)
  | balance a t => exact hacc _ trivial
  | tokenHolders t a => exact hacc _ trivial
  | addrTokens a => exact hacc _ trivial
  | _ => exact absurd hk (by simp [IsTokenKey])

/-! ### Setting one balance -/

/-- The token list of an address after its balance of `t` has become `v`. -/
def relist (tokens : Finset TokenId) (t : TokenId) (v : ℕ) : Finset TokenId :=
  if 0 < v then insert t tokens else tokens.erase t

/-- Set the balance of an account, and its two index entries with it. -/
def rebook (r : Records) (a : CScript) (t : TokenId) (v : ℕ) : Records :=
  r.writeBatch [balanceWrite a t v, holderWrite a t v,
    addrTokensWrite a (relist (r.addrTokens a) t v)]

@[simp] theorem balanceWrite_key (a : CScript) (t : TokenId) (v : ℕ) :
    (balanceWrite a t v).key = .balance a t := by
  unfold balanceWrite
  split_ifs <;> rfl

@[simp] theorem holderWrite_key (a : CScript) (t : TokenId) (v : ℕ) :
    (holderWrite a t v).key = .tokenHolders t a := by
  unfold holderWrite
  split_ifs <;> rfl

@[simp] theorem addrTokensWrite_key (a : CScript) (S : Finset TokenId) :
    (addrTokensWrite a S).key = .addrTokens a := by
  unfold addrTokensWrite
  split_ifs <;> rfl

section ReadAfterAccountWrite

variable (r : Records)

theorem read_balanceWrite (a a' : CScript) (t t' : TokenId) (v : ℕ) :
    (r.applyOp (balanceWrite a t v)).read (.balance a' t') =
      if a' = a ∧ t' = t then (if 0 < v then some v else none) else r.read (.balance a' t') := by
  unfold balanceWrite
  split_ifs with hv hk hk <;> simp [hk]

theorem read_holderWrite (a a' : CScript) (t t' : TokenId) (v : ℕ) :
    (r.applyOp (holderWrite a t v)).read (.tokenHolders t' a') =
      if t' = t ∧ a' = a then (if 0 < v then some true else none)
      else r.read (.tokenHolders t' a') := by
  unfold holderWrite
  split_ifs with hv hk hk <;> simp [hk]

theorem read_addrTokensWrite (a a' : CScript) (S : Finset TokenId) :
    (r.applyOp (addrTokensWrite a S)).read (.addrTokens a') =
      if a' = a then (if S = ∅ then none else some S) else r.read (.addrTokens a') := by
  unfold addrTokensWrite
  split_ifs with hS hk hk <;> simp [hk]

theorem balance_balanceWrite (a a' : CScript) (t t' : TokenId) (v : ℕ) :
    Records.balance (r.applyOp (balanceWrite a t v)) a' t' =
      if a' = a ∧ t' = t then v else r.balance a' t' := by
  unfold Records.balance
  rw [read_balanceWrite]
  split_ifs with hk hv
  · rfl
  · simp only [Option.getD_none]
    omega
  · rfl

theorem addrTokens_addrTokensWrite (a a' : CScript) (S : Finset TokenId) :
    Records.addrTokens (r.applyOp (addrTokensWrite a S)) a' =
      if a' = a then S else r.addrTokens a' := by
  unfold Records.addrTokens
  rw [read_addrTokensWrite]
  split_ifs with hk hS
  · exact hS.symm
  · rfl
  · rfl

theorem rebook_read_balance (a a' : CScript) (t t' : TokenId) (v : ℕ) :
    (rebook r a t v).read (.balance a' t') =
      if a' = a ∧ t' = t then (if 0 < v then some v else none) else r.read (.balance a' t') := by
  simp only [rebook, writeBatch_cons, writeBatch_nil]
  rw [read_applyOp_of_ne _ _ (by simp), read_applyOp_of_ne _ _ (by simp), read_balanceWrite]

theorem rebook_read_holders (a a' : CScript) (t t' : TokenId) (v : ℕ) :
    (rebook r a t v).read (.tokenHolders t' a') =
      if t' = t ∧ a' = a then (if 0 < v then some true else none)
      else r.read (.tokenHolders t' a') := by
  simp only [rebook, writeBatch_cons, writeBatch_nil]
  rw [read_applyOp_of_ne _ _ (by simp), read_holderWrite, read_applyOp_of_ne _ _ (by simp)]

theorem rebook_read_addrTokens (a a' : CScript) (t : TokenId) (v : ℕ) :
    (rebook r a t v).read (.addrTokens a') =
      if a' = a then
        (if relist (r.addrTokens a) t v = ∅ then none else some (relist (r.addrTokens a) t v))
      else r.read (.addrTokens a') := by
  simp only [rebook, writeBatch_cons, writeBatch_nil]
  rw [read_addrTokensWrite, read_applyOp_of_ne _ _ (by simp), read_applyOp_of_ne _ _ (by simp)]

theorem rebook_read_of_other (a : CScript) (t : TokenId) (v : ℕ) {k : Key}
    (hk : ¬ IsAccountKey k) : (rebook r a t v).read k = r.read k := by
  refine read_writeBatch_of_forall_ne r _ k fun op hop hkey => hk ?_
  subst hkey
  simp only [List.mem_cons, List.not_mem_nil, or_false] at hop
  rcases hop with rfl | rfl | rfl <;> simp [IsAccountKey]

@[simp] theorem rebook_balance (a a' : CScript) (t t' : TokenId) (v : ℕ) :
    (rebook r a t v).balance a' t' = if a' = a ∧ t' = t then v else r.balance a' t' := by
  simp only [rebook, writeBatch_cons, writeBatch_nil]
  rw [balance_applyOp_of_ne _ (by simp), balance_applyOp_of_ne _ (by simp), balance_balanceWrite]

@[simp] theorem rebook_addrTokens (a a' : CScript) (t : TokenId) (v : ℕ) :
    (rebook r a t v).addrTokens a' =
      if a' = a then relist (r.addrTokens a) t v else r.addrTokens a' := by
  simp only [rebook, writeBatch_cons, writeBatch_nil]
  rw [addrTokens_addrTokensWrite, addrTokens_applyOp_of_ne _ (by simp),
    addrTokens_applyOp_of_ne _ (by simp)]

end ReadAfterAccountWrite

theorem mem_relist {tokens : Finset TokenId} {t t' : TokenId} {v : ℕ} :
    t' ∈ relist tokens t v ↔ if t' = t then 0 < v else t' ∈ tokens := by
  unfold relist
  split_ifs with hv ht ht <;> simp [ht, hv]

/-- **Setting a balance keeps the three records in agreement.** -/
theorem HolderIndex.rebook {r : Records} (h : HolderIndex r) (a : CScript) (t : TokenId) (v : ℕ) :
    HolderIndex (rebook r a t v) := by
  refine ⟨?_, ?_, ?_, ?_⟩
  · intro a' t' n hn
    rw [rebook_read_balance] at hn
    split_ifs at hn with hk hv
    · obtain rfl := Option.some.inj hn
      exact hv
    · exact h.stored a' t' n hn
  · intro t' a'
    rw [rebook_read_holders, rebook_balance]
    by_cases hk : t' = t ∧ a' = a
    · simp only [if_pos hk, if_pos hk.symm]
    · have hk' : ¬ (a' = a ∧ t' = t) := fun hk' => hk hk'.symm
      simp only [if_neg hk, if_neg hk']
      exact h.holders t' a'
  · intro a' t'
    rw [rebook_addrTokens, rebook_balance]
    by_cases ha : a' = a
    · subst ha
      rw [if_pos rfl, mem_relist]
      by_cases ht : t' = t
      · simp [ht]
      · simp [ht, h.listed a' t']
    · simp [ha, h.listed a' t']
  · intro a' S hS
    rw [rebook_read_addrTokens] at hS
    split_ifs at hS with ha hempty
    · obtain rfl := Option.some.inj hS
      exact hempty
    · exact h.nonempty a' S hS

theorem ledger_rebook (r : Records) (a : CScript) (t : TokenId) (v : ℕ) :
    (rebook r a t v).ledger = r.ledger.setBalance t a v := by
  refine Ledger.ext (funext fun t' => funext fun x => ?_) (funext fun t' => ?_)
    (funext fun k => ?_) (funext fun t' => funext fun k => ?_)
  · show (rebook r a t v).balance x t' = _
    rw [rebook_balance]
    by_cases ht : t' = t
    · subst ht
      by_cases hx : x = a
      · subst hx
        simp [Ledger.setBalance]
      · simp [Ledger.setBalance, hx, Records.ledger]
    · simp [Ledger.setBalance, ht, Records.ledger]
  · exact rebook_read_of_other r a t v (k := .tokenInfo t') not_false
  · exact rebook_read_of_other r a t v (k := .ticker k) not_false
  · exact rebook_read_of_other r a t v (k := .transfer t' k.1 k.2.1 k.2.2) not_false

/-! ### What operations write to an account is a `rebook` -/

/-- A positive balance, written out. -/
theorem rebook_of_pos (r : Records) (a : CScript) (t : TokenId) {v : ℕ} (hv : 0 < v) :
    rebook r a t v = r.writeBatch [.write (.balance a t) v, .write (.tokenHolders t a) true,
      .write (.addrTokens a) (insert t (r.addrTokens a))] := by
  simp [rebook, balanceWrite, holderWrite, addrTokensWrite, relist, hv]

/-- For a holder who stays one, the token list need not be written. -/
theorem writeBatch_writeBalance_listed {r : Records} (h : HolderIndex r) {a : CScript}
    {t : TokenId} {v : ℕ} (hbal : 0 < r.balance a t) (hv : 0 < v) :
    r.writeBatch (writeBalanceToBatch a t v) = rebook r a t v := by
  have hmem : t ∈ r.addrTokens a := (h.listed a t).mpr hbal
  have hne : r.addrTokens a ≠ ∅ := Finset.ne_empty_of_mem hmem
  simp only [rebook, writeBalanceToBatch, relist, if_pos hv, Finset.insert_eq_self.mpr hmem,
    addrTokensWrite, if_neg hne, writeBatch_cons, writeBatch_nil]
  refine (applyOp_write_of_read ?_).symm
  rw [read_applyOp_of_ne _ _ (by simp), read_applyOp_of_ne _ _ (by simp), h.read_addrTokens,
    if_neg hne]

/-- For a holder who stays one, neither index entry need be written. -/
theorem applyOp_balanceWrite_listed {r : Records} (h : HolderIndex r) {a : CScript} {t : TokenId}
    {v : ℕ} (hbal : 0 < r.balance a t) (hv : 0 < v) :
    r.applyOp (balanceWrite a t v) = rebook r a t v := by
  rw [← writeBatch_writeBalance_listed h hbal hv]
  simp only [writeBalanceToBatch, holderWrite, if_pos hv, writeBatch_cons, writeBatch_nil]
  refine (applyOp_write_of_read ?_).symm
  rw [read_applyOp_of_ne _ _ (by simp), h.holders, if_pos hbal]

theorem writeBatch_debit {r : Records} (h : HolderIndex r) {f : CScript} {t : TokenId} {n : ℕ}
    (hpos : 0 < n) (hn : n ≤ r.balance f t) :
    r.writeBatch (debitWrites t f n (r.balance f t) (r.addrTokens f)) =
      rebook r f t (r.balance f t - n) := by
  unfold debitWrites
  split_ifs with hdrained
  · have hzero : r.balance f t - n = 0 := by omega
    simp [rebook, hzero, holderWrite, relist]
  · exact applyOp_balanceWrite_listed h (by omega) (by omega)

theorem writeBatch_credit {r : Records} (h : HolderIndex r) {d : CScript} {t : TokenId} {n : ℕ}
    (hpos : 0 < n) :
    r.writeBatch (creditWrites t d n (r.balance d t) (r.addrTokens d)) =
      rebook r d t (r.balance d t + n) := by
  have hv : 0 < r.balance d t + n := by omega
  unfold creditWrites
  split_ifs with hnew
  · rw [rebook_of_pos r d t hv]
  · rw [← writeBatch_writeBalance_listed h (by omega) hv]
    simp [writeBalanceToBatch, balanceWrite, holderWrite, hv]

/-- Giving a sender its balance back: the token list is rewritten at least when the sender had none
left. -/
theorem writeBatch_restoreSender {r : Records} (h : HolderIndex r) {a : CScript} {t : TokenId}
    {v : ℕ} (hv : 0 < v) (c : Prop) [Decidable c] (hc : ¬ c → 0 < r.balance a t) :
    r.writeBatch (writeBalanceToBatch a t v ++
      if c then [.write (.addrTokens a) (insert t (r.addrTokens a))] else []) =
      rebook r a t v := by
  split_ifs with hc'
  · rw [rebook_of_pos r a t hv]
    simp [writeBalanceToBatch, balanceWrite, holderWrite, hv]
  · rw [List.append_nil]
    exact writeBatch_writeBalance_listed h (hc hc') hv

/-- Taking a balance back from a holder: the token list is rewritten when nothing is left. -/
theorem writeBatch_restoreRecipient {r : Records} (h : HolderIndex r) {a : CScript} {t : TokenId}
    {v : ℕ} (hbal : 0 < r.balance a t) :
    r.writeBatch (writeBalanceToBatch a t v ++
      if v = 0 then [addrTokensWrite a ((r.addrTokens a).erase t)] else []) =
      rebook r a t v := by
  split_ifs with hv
  · subst hv
    simp [rebook, writeBalanceToBatch, relist]
  · rw [List.append_nil]
    exact writeBatch_writeBalance_listed h hbal (Nat.pos_of_ne_zero hv)

/-- A burn rewrites the holder entry in any case. -/
theorem writeBatch_burnDebit {r : Records} (h : HolderIndex r) {f : CScript} {t : TokenId} {n : ℕ}
    (hpos : 0 < n) (hn : n ≤ r.balance f t) :
    r.writeBatch (writeBalanceToBatch f t (r.balance f t - n) ++
      if r.balance f t = n then [addrTokensWrite f ((r.addrTokens f).erase t)] else []) =
      rebook r f t (r.balance f t - n) := by
  have hdrained : (r.balance f t = n) = (r.balance f t - n = 0) := by
    rw [eq_iff_iff]
    omega
  simp only [hdrained]
  exact writeBatch_restoreRecipient h (by omega)

/-! ### Writes outside the accounts -/

theorem ledger_write_tokenInfo (r : Records) (t : TokenId) (i : TokenInfo) :
    Records.ledger (r.applyOp (.write (.tokenInfo t) i)) = r.ledger.setInfo t (some i) := by
  refine Ledger.ext (funext fun t' => funext fun a => ?_) (funext fun t' => ?_)
    (funext fun k => ?_) (funext fun t' => funext fun k => ?_)
  · simp [Records.ledger, Records.balance, Ledger.setInfo]
  · by_cases ht : t' = t
    · subst ht; simp [Records.ledger, Records.info, Ledger.setInfo]
    · simp [Records.ledger, Records.info, Ledger.setInfo, ht]
  · simp [Records.ledger, Ledger.setInfo]
  · simp [Records.ledger, Ledger.setInfo]

theorem ledger_write_ticker (r : Records) (k : Bytes) (t : TokenId) :
    Records.ledger (r.applyOp (.write (.ticker k) t)) = r.ledger.setTicker k t := by
  refine Ledger.ext (funext fun t' => funext fun a => ?_) (funext fun t' => ?_)
    (funext fun k' => ?_) (funext fun t' => funext fun k' => ?_)
  · simp [Records.ledger, Records.balance, Ledger.setTicker]
  · simp [Records.ledger, Records.info, Ledger.setTicker]
  · by_cases hk : k' = k
    · subst hk; simp [Records.ledger, Ledger.setTicker]
    · simp [Records.ledger, Ledger.setTicker, hk]
  · simp [Records.ledger, Ledger.setTicker]

theorem ledger_transferWrite (r : Records) (site : OpSite) (t : TokenId) (f d : CScript) (n : ℕ) :
    Records.ledger (r.applyOp (transferWrite site t f d n)) = r.ledger.record site t f d n := by
  refine Ledger.ext (funext fun t' => funext fun a => ?_) (funext fun t' => ?_)
    (funext fun k => ?_) (funext fun t' => funext fun k => ?_)
  · simp [Records.ledger, Records.balance, Ledger.record, transferWrite]
  · simp [Records.ledger, Records.info, Ledger.record, transferWrite]
  · simp [Records.ledger, Ledger.record, transferWrite]
  · obtain ⟨height, txid, i⟩ := k
    by_cases ht : t' = t
    · subst ht
      by_cases hk : height = site.height ∧ txid = site.txid ∧ i = site.opIndex
      · obtain ⟨rfl, rfl, rfl⟩ := hk
        simp [Records.ledger, Ledger.record, transferWrite, OpSite.historyKey]
      · have hkey := mt site.mk_eq_historyKey.mp hk
        simp [Records.ledger, Ledger.record, transferWrite, hk, hkey]
    · simp [Records.ledger, Ledger.record, transferWrite, ht]

theorem ledger_erase_tokenInfo (r : Records) (t : TokenId) :
    Records.ledger (r.applyOp (.erase (.tokenInfo t))) = r.ledger.setInfo t none := by
  refine Ledger.ext (funext fun t' => funext fun a => ?_) (funext fun t' => ?_)
    (funext fun k => ?_) (funext fun t' => funext fun k => ?_)
  · simp [Records.ledger, Records.balance, Ledger.setInfo]
  · by_cases ht : t' = t
    · subst ht; simp [Records.ledger, Records.info, Ledger.setInfo]
    · simp [Records.ledger, Records.info, Ledger.setInfo, ht]
  · simp [Records.ledger, Ledger.setInfo]
  · simp [Records.ledger, Ledger.setInfo]

theorem ledger_erase_ticker (r : Records) (k : Bytes) :
    Records.ledger (r.applyOp (.erase (.ticker k))) = r.ledger.dropTicker k := by
  refine Ledger.ext (funext fun t' => funext fun a => ?_) (funext fun t' => ?_)
    (funext fun k' => ?_) (funext fun t' => funext fun k' => ?_)
  · simp [Records.ledger, Records.balance, Ledger.dropTicker]
  · simp [Records.ledger, Records.info, Ledger.dropTicker]
  · by_cases hk : k' = k
    · subst hk; simp [Records.ledger, Ledger.dropTicker]
    · simp [Records.ledger, Ledger.dropTicker, hk]
  · simp [Records.ledger, Ledger.dropTicker]

theorem ledger_erase_transfer (r : Records) (site : OpSite) (t : TokenId) :
    Records.ledger (r.applyOp (.erase (.transfer t site.height site.txid site.opIndex))) =
      r.ledger.unrecord site t := by
  refine Ledger.ext (funext fun t' => funext fun a => ?_) (funext fun t' => ?_)
    (funext fun k => ?_) (funext fun t' => funext fun k => ?_)
  · simp [Records.ledger, Records.balance, Ledger.unrecord]
  · simp [Records.ledger, Records.info, Ledger.unrecord]
  · simp [Records.ledger, Ledger.unrecord]
  · obtain ⟨height, txid, i⟩ := k
    by_cases ht : t' = t
    · subst ht
      by_cases hk : height = site.height ∧ txid = site.txid ∧ i = site.opIndex
      · obtain ⟨rfl, rfl, rfl⟩ := hk
        simp [Records.ledger, Ledger.unrecord, OpSite.historyKey]
      · have hkey := mt site.mk_eq_historyKey.mp hk
        simp [Records.ledger, Ledger.unrecord, hk, hkey]
    · simp [Records.ledger, Ledger.unrecord, ht]

end OpenSY.Tokens
