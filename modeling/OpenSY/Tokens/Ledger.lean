import OpenSY.Lib.FiniteTotal
import OpenSY.Tokens.Block

/-!
# The abstract ledger

What the token index is for, without keys, batches and overlays: for every token who holds how much,
its statistics, which ticker belongs to it, and its history.  `Ledger.Accepts` says when an
operation goes through and `Ledger.apply` what it then does.

* `Sound.apply` — every accepted operation keeps the books: balances add up to the circulating
  supply, the holder count counts the holders, tickers and tokens belong to each other one to one;
* `Sound.accepts_transfer`, `Sound.accepts_burn` — in a sound ledger a transfer or burn is refused
  for want of balance only, never for an overflow or for a missing token;
* `HistoryComplete.apply` — an operation recorded under a fresh key keeps the history complete: what
  an address received minus what it sent is what it holds.
-/

namespace OpenSY.Tokens

open OpenSY.Chain OpenSY.Src20 OpenSY.FiniteTotal

/-- The place of a history record among those of its token. -/
abbrev HistoryKey : Type := ℕ × Uint256 × ℕ

def OpSite.historyKey (site : OpSite) : HistoryKey := (site.height, site.txid, site.opIndex)

theorem OpSite.mk_eq_historyKey (site : OpSite) {height : ℕ} {txid : Uint256} {i : ℕ} :
    (height, txid, i) = site.historyKey ↔ height = site.height ∧ txid = site.txid ∧
      i = site.opIndex := by
  simp [OpSite.historyKey]

@[ext] structure Ledger where
  balance : TokenId → CScript → ℕ
  info : TokenId → Option TokenInfo
  ticker : Bytes → Option TokenId
  history : TokenId → HistoryKey → Option TokenTransferRecord

/-- What is true of every operation a block can ask for. -/
def TokenOp.WellFormed : TokenOp → Prop
  | .issue issuance issuer =>
    issuance.ticker.length ≤ maxTickerLength ∧ issuance.name.length ≤ maxNameLength ∧
      0 < issuance.totalSupply ∧ issuance.totalSupply ≤ int64Max ∧ issuer ≠ []
  | .transfer _ _ toAddr amount => 0 < amount ∧ toAddr ≠ []
  | .burn _ _ amount => 0 < amount

theorem request_wellFormed {reserved : List Bytes} {tx : CTransaction} {txundo : CTxUndo} {n : ℕ}
    {op : SRC20Operation} {req : TokenOp} (h : request reserved tx txundo n op = some req) :
    req.WellFormed := by
  obtain ⟨issuance, -, hvalid, hissuer, rfl⟩ | ⟨x, recipient, -, -, hvalid, hrecipient, rfl⟩ |
    ⟨x, -, -, hvalid, rfl⟩ := request_cases h
  · obtain ⟨hticker, hname, hpos, hmax⟩ := TokenIssuance.isValid_bounds hvalid
    exact ⟨hticker, hname, hpos, hmax, hissuer⟩
  · exact ⟨(isValidMove_bounds hvalid).1, (getTransferRecipient_spec hrecipient).1⟩
  · exact (isValidMove_bounds hvalid).1

namespace Ledger

/-- The ledger of an empty database. -/
def empty : Ledger := ⟨fun _ _ => 0, fun _ => none, fun _ => none, fun _ _ => none⟩

def setBalance (L : Ledger) (t : TokenId) (a : CScript) (v : ℕ) : Ledger :=
  { L with balance := Function.update L.balance t (Function.update (L.balance t) a v) }

def setInfo (L : Ledger) (t : TokenId) (i : Option TokenInfo) : Ledger :=
  { L with info := Function.update L.info t i }

def setTicker (L : Ledger) (k : Bytes) (t : TokenId) : Ledger :=
  { L with ticker := Function.update L.ticker k (some t) }

def record (L : Ledger) (site : OpSite) (t : TokenId) (fromAddr toAddr : CScript) (amount : ℕ) :
    Ledger :=
  { L with history := Function.update L.history t (Function.update (L.history t) site.historyKey
      (some (transferRecord site t fromAddr toAddr amount))) }

def dropTicker (L : Ledger) (k : Bytes) : Ledger :=
  { L with ticker := Function.update L.ticker k none }

/-- Take the record at a place out of the history. -/
def unrecord (L : Ledger) (site : OpSite) (t : TokenId) : Ledger :=
  { L with history := Function.update L.history t (Function.update (L.history t) site.historyKey
      none) }

/-- When an operation goes through. -/
def Accepts (L : Ledger) (site : OpSite) : TokenOp → Prop
  | .issue issuance _ => L.ticker issuance.ticker = none ∧ L.info site.txid = none
  | .transfer t f d n =>
    0 < n ∧ n ≤ L.balance t f ∧ (f = d ∨ L.balance t d + n ≤ uint64Max)
  | .burn t f n => n ≤ L.balance t f ∧ ∃ i, L.info t = some i ∧ n ≤ i.circulatingSupply

/-- What an accepted operation does. -/
def apply (L : Ledger) (site : OpSite) : TokenOp → Ledger
  | .issue issuance issuer =>
    (((L.setBalance site.txid issuer issuance.totalSupply).setInfo site.txid
      (some (issueInfo issuance site))).setTicker issuance.ticker site.txid).record site site.txid
        [] issuer issuance.totalSupply
  | .transfer t f d n =>
    if f = d then (L.setInfo t ((L.info t).map selfTransferInfo)).record site t f d n
    else
      (((L.setBalance t f (L.balance t f - n)).setBalance t d (L.balance t d + n)).setInfo t
        ((L.info t).map (transferInfo (L.balance t f) (L.balance t d) n))).record site t f d n
  | .burn t f n =>
    ((L.setBalance t f (L.balance t f - n)).setInfo t
      ((L.info t).map (burnInfo (L.balance t f) n))).record site t f [] n

end Ledger

/-- The token an operation is about. -/
def TokenOp.token (site : OpSite) : TokenOp → TokenId
  | .issue _ _ => site.txid
  | .transfer t _ _ _ => t
  | .burn t _ _ => t

/-! ### Statistics after each operation -/

/-- **A transfer changes the two counters of a token info and nothing else.** -/
theorem transferInfo_eq (bf bd n : ℕ) (i : TokenInfo) :
    transferInfo bf bd n i = { i with
      transferCount := i.transferCount + 1
      holderCount := i.holderCount + (if bd = 0 then 1 else 0) - (if bf = n then 1 else 0) } := by
  unfold transferInfo
  by_cases hbd : bd = 0 <;> by_cases hbf : bf = n <;> simp only [hbd, hbf, if_true, if_false]
  · simp
  · simp
  · split_ifs with hpos
    · rfl
    · simp only [TokenInfo.mk.injEq, true_and, and_true]
      simp only [gt_iff_lt, not_lt] at hpos
      omega
  · rfl

/-- **A burn changes the supply and the holder count of a token info and nothing else.** -/
theorem burnInfo_eq (bf n : ℕ) (i : TokenInfo) :
    burnInfo bf n i = { i with
      circulatingSupply := i.circulatingSupply - n
      holderCount := i.holderCount - (if bf = n then 1 else 0) } := by
  unfold burnInfo
  by_cases hbf : bf = n
  · simp only [hbf, true_and, if_true]
    split_ifs with hpos
    · rfl
    · simp only [TokenInfo.mk.injEq, true_and, and_true]
      omega
  · simp [hbf]

/-- The info of the token an operation is about, after the operation. -/
def Ledger.infoAfter (L : Ledger) (site : OpSite) : TokenOp → Option TokenInfo
  | .issue issuance _ => some (issueInfo issuance site)
  | .transfer t f d n =>
    (L.info t).map (if f = d then selfTransferInfo
      else transferInfo (L.balance t f) (L.balance t d) n)
  | .burn t f n => (L.info t).map (burnInfo (L.balance t f) n)

/-- **An operation changes the info of its own token only.** -/
theorem Ledger.apply_info (L : Ledger) (site : OpSite) (op : TokenOp) :
    (L.apply site op).info = Function.update L.info (op.token site) (L.infoAfter site op) := by
  cases op with
  | issue issuance issuer => rfl
  | transfer t f d n =>
    simp only [Ledger.apply, Ledger.infoAfter, TokenOp.token]
    split_ifs <;> rfl
  | burn t f n => rfl

/-! ### Balances after each operation -/

theorem Ledger.setBalance_balance (L : Ledger) (t t' : TokenId) (a a' : CScript) (v : ℕ) :
    (L.setBalance t a v).balance t' a' = if t' = t ∧ a' = a then v else L.balance t' a' := by
  show Function.update L.balance t (Function.update (L.balance t) a v) t' a' = _
  by_cases ht : t' = t
  · subst ht
    by_cases ha : a' = a
    · simp [ha]
    · simp [ha]
  · simp [ht]

theorem Ledger.apply_issue_balance (L : Ledger) (site : OpSite) (issuance : TokenIssuance)
    (issuer : CScript) (t : TokenId) (a : CScript) :
    (L.apply site (.issue issuance issuer)).balance t a =
      if t = site.txid ∧ a = issuer then issuance.totalSupply else L.balance t a :=
  L.setBalance_balance _ _ _ _ _

theorem Ledger.apply_transfer_balance (L : Ledger) (site : OpSite) (t : TokenId) (f d : CScript)
    (n : ℕ) (t' : TokenId) (a : CScript) :
    (L.apply site (.transfer t f d n)).balance t' a =
      if f = d then L.balance t' a
      else if t' = t ∧ a = d then L.balance t d + n
      else if t' = t ∧ a = f then L.balance t f - n
      else L.balance t' a := by
  by_cases hfd : f = d
  · simp only [Ledger.apply, if_pos hfd]
    rfl
  · simp only [Ledger.apply, if_neg hfd]
    show ((L.setBalance t f _).setBalance t d _).balance t' a = _
    rw [Ledger.setBalance_balance, Ledger.setBalance_balance]

theorem Ledger.apply_burn_balance (L : Ledger) (site : OpSite) (t : TokenId) (f : CScript) (n : ℕ)
    (t' : TokenId) (a : CScript) :
    (L.apply site (.burn t f n)).balance t' a =
      if t' = t ∧ a = f then L.balance t f - n else L.balance t' a :=
  L.setBalance_balance _ _ _ _ _

/-! ### What each operation records -/

/-- The transfer record an operation leaves. -/
def TokenOp.record (site : OpSite) : TokenOp → TokenTransferRecord
  | .issue issuance issuer => transferRecord site site.txid [] issuer issuance.totalSupply
  | .transfer t f d n => transferRecord site t f d n
  | .burn t f n => transferRecord site t f [] n

/-- **An operation adds its record to the history of its own token.** -/
theorem Ledger.apply_history (L : Ledger) (site : OpSite) (op : TokenOp) :
    (L.apply site op).history = Function.update L.history (op.token site)
      (Function.update (L.history (op.token site)) site.historyKey (some (op.record site))) := by
  cases op with
  | issue issuance issuer => rfl
  | transfer t f d n =>
    simp only [Ledger.apply]
    split_ifs <;> rfl
  | burn t f n => rfl

/-- **An operation leaves every other token alone.** -/
theorem Ledger.apply_of_ne (L : Ledger) {site : OpSite} {op : TokenOp} {t : TokenId}
    (ht : t ≠ op.token site) :
    (L.apply site op).balance t = L.balance t ∧ (L.apply site op).history t = L.history t ∧
      (L.apply site op).info t = L.info t := by
  refine ⟨?_, ?_, ?_⟩
  · funext a
    cases op with
    | issue issuance issuer =>
      change t ≠ site.txid at ht
      rw [Ledger.apply_issue_balance, if_neg (by simp [ht])]
    | transfer t' f d n =>
      change t ≠ t' at ht
      rw [Ledger.apply_transfer_balance, if_neg (c := t = t' ∧ a = d) (by simp [ht]),
        if_neg (c := t = t' ∧ a = f) (by simp [ht]), ite_self]
    | burn t' f n =>
      change t ≠ t' at ht
      rw [Ledger.apply_burn_balance, if_neg (by simp [ht])]
  · rw [Ledger.apply_history, Function.update_of_ne ht]
  · rw [Ledger.apply_info, Function.update_of_ne ht]

/-! ### The books of one token -/

/-- One for a holder, zero for everybody else. -/
def mark (n : ℕ) : ℕ := if 0 < n then 1 else 0

theorem mark_update (bal : CScript → ℕ) (a : CScript) (v : ℕ) (b : CScript) :
    mark (Function.update bal a v b) =
      Function.update (fun c => mark (bal c)) a (mark v) b := by
  by_cases hb : b = a
  · subst hb; simp
  · simp [Function.update_of_ne hb]

/-- The balances of a token agree with its statistics. -/
structure Books (bal : CScript → ℕ) (i : TokenInfo) : Prop where
  supply : HasTotal bal i.circulatingSupply
  holders : HasTotal (fun a => mark (bal a)) i.holderCount
  circulating_le : i.circulatingSupply ≤ i.totalSupply
  total_le : i.totalSupply ≤ int64Max
  nobody : bal [] = 0

/-- The same for a token that may not be registered: nobody holds any of it then. -/
def TokenBooks (bal : CScript → ℕ) : Option TokenInfo → Prop
  | none => ∀ a, bal a = 0
  | some i => Books bal i

theorem TokenBooks.nobody {bal : CScript → ℕ} {i : Option TokenInfo} (h : TokenBooks bal i) :
    bal [] = 0 := by
  cases i with
  | none => exact h []
  | some i => exact Books.nobody h

/-- A token somebody holds is registered. -/
theorem TokenBooks.registered {bal : CScript → ℕ} {i : Option TokenInfo} (h : TokenBooks bal i)
    {a : CScript} (ha : 0 < bal a) : ∃ j, i = some j ∧ Books bal j := by
  cases i with
  | none =>
    have := h a
    omega
  | some j => exact ⟨j, rfl, h⟩

theorem books_issue {issuance : TokenIssuance} {issuer : CScript} (site : OpSite)
    (hop : (TokenOp.issue issuance issuer).WellFormed) :
    Books (Function.update (fun _ => 0) issuer issuance.totalSupply)
      (issueInfo issuance site) := by
  obtain ⟨-, -, hpos, hmax, hissuer⟩ := hop
  refine ⟨?_, ?_, le_rfl, hmax, ?_⟩
  · have h := (hasTotal_zero (α := CScript)).update issuer issuance.totalSupply
    simpa [issueInfo] using h
  · have h := (hasTotal_zero (α := CScript)).update issuer 1
    refine HasTotal.congr (f := Function.update (fun _ => 0) issuer 1)
      (by simpa [issueInfo] using h) ?_
    intro b
    rw [mark_update]
    simp [mark, hpos]
  · exact Function.update_of_ne (Ne.symm hissuer) _ _

theorem Books.selfTransfer {bal : CScript → ℕ} {i : TokenInfo} (h : Books bal i) :
    Books bal (selfTransferInfo i) :=
  ⟨h.supply, h.holders, h.circulating_le, h.total_le, h.nobody⟩

theorem Books.transfer {bal : CScript → ℕ} {i : TokenInfo} (h : Books bal i) {f d : CScript}
    (hfd : f ≠ d) {n : ℕ} (hpos : 0 < n) (hn : n ≤ bal f) (hd : d ≠ []) :
    Books (Function.update (Function.update bal f (bal f - n)) d (bal d + n))
      (transferInfo (bal f) (bal d) n i) := by
  have hf : f ≠ [] := by
    rintro rfl
    have := h.nobody
    omega
  rw [transferInfo_eq]
  refine ⟨h.supply.move hfd hn, ?_, h.circulating_le, h.total_le, ?_⟩
  · -- the sender may drop out of the count, the recipient may enter it
    have hcount := (h.holders.update f (mark (bal f - n))).update d (mark (bal d + n))
    rw [Function.update_of_ne (Ne.symm hfd)] at hcount
    have hle := h.holders.le f
    have hpair := h.holders.add_le hfd
    have hvalue : i.holderCount - mark (bal f) + mark (bal f - n) - mark (bal d) +
        mark (bal d + n) =
        i.holderCount + (if bal d = 0 then 1 else 0) - (if bal f = n then 1 else 0) := by
      simp only [mark] at hle hpair ⊢
      split_ifs at hle hpair ⊢ <;> omega
    rw [hvalue] at hcount
    refine hcount.congr ?_
    intro b
    rw [mark_update]
    congr 1
    funext c
    exact mark_update bal f _ c
  · rw [Function.update_of_ne (Ne.symm hd), Function.update_of_ne (Ne.symm hf)]
    exact h.nobody

theorem Books.burn {bal : CScript → ℕ} {i : TokenInfo} (h : Books bal i) {f : CScript} {n : ℕ}
    (hpos : 0 < n) (hn : n ≤ bal f) :
    Books (Function.update bal f (bal f - n)) (burnInfo (bal f) n i) := by
  have hf : f ≠ [] := by
    rintro rfl
    have := h.nobody
    omega
  have hsupply := h.supply.le f
  rw [burnInfo_eq]
  refine ⟨?_, ?_, ?_, h.total_le, ?_⟩
  · have htotal := h.supply.update f (bal f - n)
    rwa [show i.circulatingSupply - bal f + (bal f - n) = i.circulatingSupply - n from by omega]
      at htotal
  · have hcount := h.holders.update f (mark (bal f - n))
    have hle := h.holders.le f
    have hvalue : i.holderCount - mark (bal f) + mark (bal f - n) =
        i.holderCount - (if bal f = n then 1 else 0) := by
      simp only [mark] at hle ⊢
      split_ifs at hle ⊢ <;> omega
    rw [hvalue] at hcount
    exact hcount.congr fun b => mark_update bal f _ b
  · have := h.circulating_le
    show i.circulatingSupply - n ≤ i.totalSupply
    omega
  · rw [Function.update_of_ne (Ne.symm hf)]
    exact h.nobody

/-! ### Soundness of the whole ledger -/

/-- The fields that identify a token. -/
def SameToken (i j : TokenInfo) : Prop :=
  j.tokenId = i.tokenId ∧ j.ticker = i.ticker ∧ j.name = i.name

/-- A token info is filed under its own id and within its length limits. -/
def Filed (t : TokenId) (i : TokenInfo) : Prop :=
  i.tokenId = t ∧ i.ticker.length ≤ maxTickerLength ∧ i.name.length ≤ maxNameLength

structure Sound (L : Ledger) : Prop where
  books : ∀ t, TokenBooks (L.balance t) (L.info t)
  filed : ∀ t i, L.info t = some i → Filed t i
  ticker_of_info : ∀ t i, L.info t = some i → L.ticker i.ticker = some t
  info_of_ticker : ∀ k t, L.ticker k = some t → ∃ i, L.info t = some i ∧ i.ticker = k

theorem sound_empty : Sound Ledger.empty where
  books := fun _ _ => rfl
  filed := fun t i h => by simp [Ledger.empty] at h
  ticker_of_info := fun t i h => by simp [Ledger.empty] at h
  info_of_ticker := fun k t h => by simp [Ledger.empty] at h

/-- **One token moves.**  Soundness survives a change to the balances and the statistics of a single
token, as long as the books of that token stay right. -/
theorem Sound.of_move {L L' : Ledger} (h : Sound L) (t : TokenId) (g : TokenInfo → TokenInfo)
    (hg : ∀ i, SameToken i (g i)) (hticker : L'.ticker = L.ticker)
    (hinfo : L'.info = Function.update L.info t ((L.info t).map g))
    (hbal : ∀ t', t' ≠ t → L'.balance t' = L.balance t')
    (hbooks : TokenBooks (L'.balance t) ((L.info t).map g)) : Sound L' := by
  -- an info of the new ledger is an old one with the same identity
  have hold : ∀ t' i', L'.info t' = some i' → ∃ i, L.info t' = some i ∧ SameToken i i' := by
    intro t' i' hi'
    rw [hinfo] at hi'
    by_cases ht : t' = t
    · subst ht
      rw [Function.update_self, Option.map_eq_some_iff] at hi'
      obtain ⟨i, hi, rfl⟩ := hi'
      exact ⟨i, hi, hg i⟩
    · rw [Function.update_of_ne ht] at hi'
      exact ⟨i', hi', rfl, rfl, rfl⟩
  refine ⟨?_, ?_, ?_, ?_⟩
  · intro t'
    by_cases ht : t' = t
    · subst ht
      rw [hinfo, Function.update_self]
      exact hbooks
    · rw [hbal t' ht, hinfo, Function.update_of_ne ht]
      exact h.books t'
  · intro t' i' hi'
    obtain ⟨i, hi, hid, htick, hname⟩ := hold t' i' hi'
    obtain ⟨h1, h2, h3⟩ := h.filed t' i hi
    exact ⟨by rw [hid, h1], by rw [htick]; exact h2, by rw [hname]; exact h3⟩
  · intro t' i' hi'
    obtain ⟨i, hi, -, htick, -⟩ := hold t' i' hi'
    rw [hticker, htick]
    exact h.ticker_of_info t' i hi
  · intro k t' hk
    rw [hticker] at hk
    obtain ⟨i, hi, hik⟩ := h.info_of_ticker k t' hk
    by_cases ht : t' = t
    · subst ht
      exact ⟨g i, by rw [hinfo, Function.update_self, hi]; rfl, by rw [(hg i).2.1, hik]⟩
    · exact ⟨i, by rw [hinfo, Function.update_of_ne ht, hi], hik⟩

/-- No registered token has the new ticker, and none is the new token. -/
theorem Sound.other_of_free {L : Ledger} (h : Sound L) {txid : TokenId} {ticker : Bytes}
    (hfree : L.ticker ticker = none) (hnew : L.info txid = none) {t : TokenId} {i : TokenInfo}
    (hi : L.info t = some i) : t ≠ txid ∧ i.ticker ≠ ticker := by
  constructor
  · intro ht
    rw [ht, hnew] at hi
    cases hi
  · intro hk
    have hticker := h.ticker_of_info t i hi
    rw [hk, hfree] at hticker
    cases hticker

theorem Sound.issue {L : Ledger} (h : Sound L) {site : OpSite} {issuance : TokenIssuance}
    {issuer : CScript} (hop : (TokenOp.issue issuance issuer).WellFormed)
    (hacc : L.Accepts site (.issue issuance issuer)) :
    Sound (L.apply site (.issue issuance issuer)) := by
  obtain ⟨hfree, hnew⟩ := hacc
  have hzero : L.balance site.txid = fun _ => 0 := by
    have hbooks := h.books site.txid
    rw [hnew] at hbooks
    exact funext hbooks
  have hother : ∀ t i, L.info t = some i → t ≠ site.txid ∧ i.ticker ≠ issuance.ticker :=
    fun t i hi => h.other_of_free hfree hnew hi
  simp only [Ledger.apply, Ledger.record, Ledger.setTicker, Ledger.setInfo, Ledger.setBalance]
  refine ⟨?_, ?_, ?_, ?_⟩
  · intro t
    by_cases ht : t = site.txid
    · subst ht
      simp only [Function.update_self, hzero]
      exact books_issue site hop
    · simp only [Function.update_of_ne ht]
      exact h.books t
  · intro t i hi
    by_cases ht : t = site.txid
    · subst ht
      simp only [Function.update_self, Option.some.injEq] at hi
      subst hi
      exact ⟨rfl, hop.1, hop.2.1⟩
    · simp only [Function.update_of_ne ht] at hi
      exact h.filed t i hi
  · intro t i hi
    by_cases ht : t = site.txid
    · subst ht
      simp only [Function.update_self, Option.some.injEq] at hi
      subst hi
      simp [issueInfo]
    · simp only [Function.update_of_ne ht] at hi
      simp only [Function.update_of_ne (hother t i hi).2]
      exact h.ticker_of_info t i hi
  · intro k t hk
    by_cases hkt : k = issuance.ticker
    · subst hkt
      simp only [Function.update_self, Option.some.injEq] at hk
      subst hk
      exact ⟨issueInfo issuance site, by simp, rfl⟩
    · simp only [Function.update_of_ne hkt] at hk
      obtain ⟨i, hi, hik⟩ := h.info_of_ticker k t hk
      exact ⟨i, by simp only [Function.update_of_ne (hother t i hi).1, hi], hik⟩

/-- **Every accepted operation keeps the books.** -/
theorem Sound.apply {L : Ledger} (h : Sound L) {site : OpSite} {op : TokenOp}
    (hop : op.WellFormed) (hacc : L.Accepts site op) : Sound (L.apply site op) := by
  cases op with
  | issue issuance issuer => exact h.issue hop hacc
  | transfer t f d n =>
    obtain ⟨hpos, hn, -⟩ := hacc
    obtain ⟨i, hi, hbooks⟩ := (h.books t).registered (show 0 < L.balance t f by omega)
    simp only [Ledger.apply]
    split_ifs with hfd
    · refine h.of_move t selfTransferInfo (fun _ => ⟨rfl, rfl, rfl⟩) rfl rfl (fun _ _ => rfl) ?_
      rw [hi]
      exact hbooks.selfTransfer
    · refine h.of_move t (transferInfo (L.balance t f) (L.balance t d) n)
        (fun i => by rw [transferInfo_eq]; exact ⟨rfl, rfl, rfl⟩) rfl rfl ?_ ?_
      · intro t' ht
        simp only [Ledger.record, Ledger.setInfo, Ledger.setBalance, Function.update_of_ne ht]
      · rw [hi]
        simp only [Ledger.record, Ledger.setInfo, Ledger.setBalance, Function.update_self]
        exact hbooks.transfer hfd hpos hn hop.2
  | burn t f n =>
    obtain ⟨hn, -⟩ := hacc
    have hpos : 0 < n := hop
    obtain ⟨i, hi, hbooks⟩ := (h.books t).registered (show 0 < L.balance t f by omega)
    refine h.of_move t (burnInfo (L.balance t f) n)
      (fun i => by rw [burnInfo_eq]; exact ⟨rfl, rfl, rfl⟩) rfl rfl ?_ ?_
    · intro t' ht
      simp only [Ledger.apply, Ledger.record, Ledger.setInfo, Ledger.setBalance,
        Function.update_of_ne ht]
    · rw [hi]
      simp only [Ledger.apply, Ledger.record, Ledger.setInfo, Ledger.setBalance,
        Function.update_self]
      exact hbooks.burn hpos hn

/-- Nobody holds any of a token before it is issued. -/
theorem Sound.balance_unissued {L : Ledger} (h : Sound L) {t : TokenId} (hnone : L.info t = none)
    (a : CScript) : L.balance t a = 0 := by
  have hbooks := h.books t
  rw [hnone] at hbooks
  exact hbooks a

/-- The empty script holds nothing, so nothing is ever sent from it. -/
theorem Sound.sender_ne_nil {L : Ledger} (h : Sound L) {t : TokenId} {f : CScript}
    (hpos : 0 < L.balance t f) : f ≠ [] := by
  rintro rfl
  have hnobody := (h.books t).nobody
  omega

/-- **In a sound ledger a transfer fails for want of balance only**: the recipient's balance cannot
overflow. -/
theorem Sound.accepts_transfer {L : Ledger} (h : Sound L) {site : OpSite} {t : TokenId}
    {f d : CScript} {n : ℕ} (hpos : 0 < n) :
    L.Accepts site (.transfer t f d n) ↔ n ≤ L.balance t f := by
  refine ⟨fun hacc => hacc.2.1, fun hn => ⟨hpos, hn, ?_⟩⟩
  by_cases hfd : f = d
  · exact Or.inl hfd
  · obtain ⟨i, -, hbooks⟩ := (h.books t).registered (show 0 < L.balance t f by omega)
    have hpair := hbooks.supply.add_le hfd
    have hcirc := hbooks.circulating_le
    have htotal := hbooks.total_le
    refine Or.inr ?_
    simp only [uint64Max, int64Max] at htotal ⊢
    omega

/-- **In a sound ledger a burn fails for want of balance only**: the token is there and its supply
covers every balance. -/
theorem Sound.accepts_burn {L : Ledger} (h : Sound L) {site : OpSite} {t : TokenId} {f : CScript}
    {n : ℕ} (hpos : 0 < n) : L.Accepts site (.burn t f n) ↔ n ≤ L.balance t f := by
  refine ⟨fun hacc => hacc.1, fun hn => ⟨hn, ?_⟩⟩
  obtain ⟨i, hi, hbooks⟩ := (h.books t).registered (show 0 < L.balance t f by omega)
  exact ⟨i, hi, hn.trans (hbooks.supply.le f)⟩

/-! ### The history of one token -/

/-- The weight of the record at each key, zero where there is none. -/
def weigh (w : TokenTransferRecord → ℕ) (hist : HistoryKey → Option TokenTransferRecord)
    (k : HistoryKey) : ℕ :=
  ((hist k).map w).getD 0

def receivedBy (a : CScript) (x : TokenTransferRecord) : ℕ :=
  if x.toAddress = a then x.amount else 0

def sentBy (a : CScript) (x : TokenTransferRecord) : ℕ :=
  if x.fromAddress = a then x.amount else 0

/-- A record between two addresses, neither an issuance nor a burn. -/
def isMove (x : TokenTransferRecord) : ℕ :=
  if x.fromAddress ≠ [] ∧ x.toAddress ≠ [] then 1 else 0

section TransferRecord

variable (a : CScript) (site : OpSite) (t : TokenId) (f d : CScript) (n : ℕ)

@[simp] theorem sentBy_transferRecord :
    sentBy a (transferRecord site t f d n) = if f = a then n else 0 := rfl

@[simp] theorem receivedBy_transferRecord :
    receivedBy a (transferRecord site t f d n) = if d = a then n else 0 := rfl

end TransferRecord

/-- **A record under a fresh key adds its weight.** -/
theorem HasTotal.record {w : TokenTransferRecord → ℕ}
    {hist : HistoryKey → Option TokenTransferRecord} {n : ℕ} (h : HasTotal (weigh w hist) n)
    {k : HistoryKey} (hk : hist k = none) (x : TokenTransferRecord) :
    HasTotal (weigh w (Function.update hist k (some x))) (n + w x) := by
  have hupdate := h.update k (w x)
  have hzero : weigh w hist k = 0 := by simp [weigh, hk]
  rw [hzero, Nat.sub_zero] at hupdate
  refine hupdate.congr ?_
  intro k'
  by_cases hk' : k' = k
  · subst hk'; simp [weigh]
  · simp [weigh, Function.update_of_ne hk']

/-- The history explains the balances and the statistics. -/
structure HistoryBooks (bal : CScript → ℕ) (hist : HistoryKey → Option TokenTransferRecord)
    (i : TokenInfo) : Prop where
  accounts : ∀ a, a ≠ [] → ∃ m, HasTotal (weigh (sentBy a) hist) m ∧
    HasTotal (weigh (receivedBy a) hist) (bal a + m)
  burned : HasTotal (weigh (receivedBy []) hist) (i.totalSupply - i.circulatingSupply)
  moves : HasTotal (weigh isMove hist) i.transferCount

/-- The same for a token that may not be registered: it has no history then. -/
def TokenHistory (bal : CScript → ℕ) (hist : HistoryKey → Option TokenTransferRecord) :
    Option TokenInfo → Prop
  | none => ∀ k, hist k = none
  | some i => HistoryBooks bal hist i

def HistoryComplete (L : Ledger) : Prop :=
  ∀ t, TokenHistory (L.balance t) (L.history t) (L.info t)

theorem historyComplete_empty : HistoryComplete Ledger.empty := fun _ _ => rfl

/-- One more record, for any change of balances it accounts for. -/
theorem HistoryBooks.record {bal bal' : CScript → ℕ}
    {hist : HistoryKey → Option TokenTransferRecord} {i j : TokenInfo}
    (h : HistoryBooks bal hist i) {k : HistoryKey} (hk : hist k = none) (x : TokenTransferRecord)
    (hbal : ∀ a, a ≠ [] → bal' a + sentBy a x = bal a + receivedBy a x)
    (hburned : j.totalSupply - j.circulatingSupply =
      i.totalSupply - i.circulatingSupply + receivedBy [] x)
    (hmoves : j.transferCount = i.transferCount + isMove x) :
    HistoryBooks bal' (Function.update hist k (some x)) j := by
  refine ⟨?_, ?_, ?_⟩
  · intro a ha
    obtain ⟨m, hsent, hreceived⟩ := h.accounts a ha
    refine ⟨m + sentBy a x, HasTotal.record hsent hk x, ?_⟩
    have hnew := HasTotal.record hreceived hk x
    have hsum := hbal a ha
    rwa [show bal a + m + receivedBy a x = bal' a + (m + sentBy a x) from by omega] at hnew
  · rw [hburned]
    exact HasTotal.record h.burned hk x
  · rw [hmoves]
    exact HasTotal.record h.moves hk x

theorem weigh_none (w : TokenTransferRecord → ℕ) {hist : HistoryKey → Option TokenTransferRecord}
    (h : ∀ k, hist k = none) : HasTotal (weigh w hist) 0 :=
  hasTotal_zero.congr fun k => by simp [weigh, h k]

/-- The first record of a token: it accounts for the whole supply. -/
theorem historyAfter_issue {L : Ledger} (hh : HistoryComplete L) (h : Sound L) {site : OpSite}
    {issuance : TokenIssuance} {issuer : CScript} (hissuer : issuer ≠ [])
    (hnew : L.info site.txid = none) :
    HistoryBooks ((L.apply site (.issue issuance issuer)).balance site.txid)
      ((L.apply site (.issue issuance issuer)).history site.txid) (issueInfo issuance site) := by
  have hempty : ∀ k, L.history site.txid k = none := by
    have hhist := hh site.txid
    rwa [hnew] at hhist
  have hstart : HistoryBooks (fun _ => 0) (L.history site.txid) (issueInfo issuance site) :=
    ⟨fun a _ => ⟨0, weigh_none _ hempty, weigh_none _ hempty⟩,
      by simpa [issueInfo] using weigh_none _ hempty, weigh_none _ hempty⟩
  rw [Ledger.apply_history, TokenOp.token, Function.update_self, TokenOp.record]
  refine hstart.record (hempty _) _ ?_ ?_ ?_
  · intro a ha
    rw [Ledger.apply_issue_balance, h.balance_unissued hnew, sentBy_transferRecord,
      receivedBy_transferRecord, if_neg (Ne.symm ha)]
    by_cases hai : a = issuer
    · simp [hai]
    · simp [hai, Ne.symm hai]
  · simp [hissuer]
  · simp [isMove, transferRecord]

theorem historyAfter_transfer {L : Ledger} {site : OpSite} {t : TokenId} {f d : CScript} {n : ℕ}
    {i j : TokenInfo} (hhist : HistoryBooks (L.balance t) (L.history t) i)
    (hfresh : L.history t site.historyKey = none) (hf : f ≠ []) (hd : d ≠ [])
    (hn : n ≤ L.balance t f) (hburned : j.totalSupply - j.circulatingSupply =
      i.totalSupply - i.circulatingSupply) (hcount : j.transferCount = i.transferCount + 1) :
    HistoryBooks ((L.apply site (.transfer t f d n)).balance t)
      ((L.apply site (.transfer t f d n)).history t) j := by
  rw [Ledger.apply_history, TokenOp.token, Function.update_self, TokenOp.record]
  refine hhist.record hfresh _ ?_ ?_ ?_
  · intro a _
    rw [Ledger.apply_transfer_balance, sentBy_transferRecord, receivedBy_transferRecord]
    by_cases hfd : f = d
    · rw [if_pos hfd, hfd]
    · by_cases had : a = d
      · subst had
        simp [hfd]
      · by_cases haf : a = f
        · subst haf
          simp only [hfd, Ne.symm had, and_false, and_self, if_true, if_false]
          omega
        · simp [hfd, had, haf, Ne.symm had, Ne.symm haf]
  · simp [hd, hburned]
  · simp [isMove, transferRecord, hf, hd, hcount]

theorem historyAfter_burn {L : Ledger} {site : OpSite} {t : TokenId} {f : CScript} {n : ℕ}
    {i j : TokenInfo} (hhist : HistoryBooks (L.balance t) (L.history t) i)
    (hfresh : L.history t site.historyKey = none) (hn : n ≤ L.balance t f)
    (hburned : j.totalSupply - j.circulatingSupply =
      i.totalSupply - i.circulatingSupply + n) (hcount : j.transferCount = i.transferCount) :
    HistoryBooks ((L.apply site (.burn t f n)).balance t)
      ((L.apply site (.burn t f n)).history t) j := by
  rw [Ledger.apply_history, TokenOp.token, Function.update_self, TokenOp.record]
  refine hhist.record hfresh _ ?_ ?_ ?_
  · intro a ha
    rw [Ledger.apply_burn_balance, sentBy_transferRecord, receivedBy_transferRecord,
      if_neg (Ne.symm ha)]
    by_cases haf : a = f
    · subst haf
      simp only [and_self, if_true]
      omega
    · simp [haf, Ne.symm haf]
  · simp [hburned]
  · simp [isMove, transferRecord, hcount]

/-- **An accepted operation recorded under a fresh key keeps the history complete.** -/
theorem HistoryComplete.apply {L : Ledger} (hh : HistoryComplete L) (h : Sound L) {site : OpSite}
    {op : TokenOp} (hop : op.WellFormed) (hacc : L.Accepts site op)
    (hfresh : L.history (op.token site) site.historyKey = none) :
    HistoryComplete (L.apply site op) := by
  intro t'
  by_cases ht : t' = op.token site
  · subst ht
    have hhist := hh (op.token site)
    rw [Ledger.apply_info, Function.update_self]
    cases op with
    | issue issuance issuer => exact historyAfter_issue hh h hop.2.2.2.2 hacc.2
    | transfer t f d n =>
      obtain ⟨hpos, hn, -⟩ := hacc
      have hbal : 0 < L.balance t f := by omega
      obtain ⟨i, hi, -⟩ := (h.books t).registered hbal
      simp only [TokenOp.token, Ledger.infoAfter, hi, Option.map_some] at hhist ⊢
      refine historyAfter_transfer hhist hfresh (h.sender_ne_nil hbal) hop.2 hn ?_ ?_
      · split_ifs
        · rfl
        · rw [transferInfo_eq]
      · split_ifs
        · rfl
        · rw [transferInfo_eq]
    | burn t f n =>
      obtain ⟨hn, -⟩ := hacc
      have hpos : 0 < n := hop
      obtain ⟨i, hi, hbooks⟩ := (h.books t).registered (show 0 < L.balance t f by omega)
      have hsupply := hbooks.supply.le f
      have hcirc := hbooks.circulating_le
      simp only [TokenOp.token, Ledger.infoAfter, hi, Option.map_some] at hhist ⊢
      refine historyAfter_burn hhist hfresh hn ?_ ?_
      · simp only [burnInfo_eq]
        omega
      · rw [burnInfo_eq]
  · obtain ⟨hbal, hhist, hinfo⟩ := L.apply_of_ne ht
    rw [hbal, hhist, hinfo]
    exact hh t'

/-! ### Taking an operation back

The ledger before an operation is determined by the ledger after it and by the values an undo record
keeps, provided that the place of its record was fresh. -/

theorem Ledger.apply_issue_undone {L : Ledger} (h : Sound L) {site : OpSite}
    {issuance : TokenIssuance} {issuer : CScript} (hacc : L.Accepts site (.issue issuance issuer))
    (hfresh : L.history site.txid site.historyKey = none) :
    (((((L.apply site (.issue issuance issuer)).setInfo site.txid none).dropTicker
      issuance.ticker).setBalance site.txid issuer 0).unrecord site site.txid) = L := by
  obtain ⟨hticker, hinfo⟩ := hacc
  have hzero : L.balance site.txid issuer = 0 := by
    have hbooks := h.books site.txid
    rw [hinfo] at hbooks
    exact hbooks issuer
  apply Ledger.ext
  · simp [Ledger.apply, Ledger.unrecord, Ledger.setBalance, Ledger.dropTicker, Ledger.setInfo,
      Ledger.record, Ledger.setTicker, ← hzero]
  · simp [Ledger.apply, Ledger.unrecord, Ledger.setBalance, Ledger.dropTicker, Ledger.setInfo,
      Ledger.record, Ledger.setTicker, ← hinfo]
  · simp [Ledger.apply, Ledger.unrecord, Ledger.setBalance, Ledger.dropTicker, Ledger.setInfo,
      Ledger.record, Ledger.setTicker, ← hticker]
  · simp [Ledger.apply, Ledger.unrecord, Ledger.setBalance, Ledger.dropTicker, Ledger.setInfo,
      Ledger.record, Ledger.setTicker, ← hfresh]

theorem Ledger.apply_transfer_undone {L : Ledger} (h : Sound L) {site : OpSite} {t : TokenId}
    {f d : CScript} {n : ℕ} {i : TokenInfo} (hi : L.info t = some i)
    (hfresh : L.history t site.historyKey = none) :
    ((((((L.apply site (.transfer t f d n)).setBalance t f (L.balance t f)).setBalance t d
      (L.balance t d)).setInfo t (some i)).setTicker i.ticker t).unrecord site t) = L := by
  have hticker := h.ticker_of_info t i hi
  simp only [Ledger.apply]
  split_ifs with hfd
  · subst hfd
    apply Ledger.ext
    · simp [Ledger.unrecord, Ledger.setBalance, Ledger.setInfo, Ledger.record, Ledger.setTicker]
    · simp [Ledger.unrecord, Ledger.setBalance, Ledger.setInfo, Ledger.record, Ledger.setTicker,
        ← hi]
    · simp [Ledger.unrecord, Ledger.setBalance, Ledger.setInfo, Ledger.record, Ledger.setTicker,
        ← hticker]
    · simp [Ledger.unrecord, Ledger.setBalance, Ledger.setInfo, Ledger.record, Ledger.setTicker,
        ← hfresh]
  · apply Ledger.ext
    · have hbal : Function.update (Function.update (Function.update (Function.update (L.balance t)
          f (L.balance t f - n)) d (L.balance t d + n)) f (L.balance t f)) d (L.balance t d) =
          L.balance t := by
        funext a
        by_cases had : a = d
        · subst had; simp
        · by_cases haf : a = f
          · subst haf; simp [had]
          · simp [had, haf]
      simp [Ledger.unrecord, Ledger.setBalance, Ledger.setInfo, Ledger.record, Ledger.setTicker,
        hbal]
    · simp [Ledger.unrecord, Ledger.setBalance, Ledger.setInfo, Ledger.record, Ledger.setTicker,
        ← hi]
    · simp [Ledger.unrecord, Ledger.setBalance, Ledger.setInfo, Ledger.record, Ledger.setTicker,
        ← hticker]
    · simp [Ledger.unrecord, Ledger.setBalance, Ledger.setInfo, Ledger.record, Ledger.setTicker,
        ← hfresh]

theorem Ledger.apply_burn_undone {L : Ledger} (h : Sound L) {site : OpSite} {t : TokenId}
    {f : CScript} {n : ℕ} {i : TokenInfo} (hi : L.info t = some i)
    (hfresh : L.history t site.historyKey = none) :
    (((((L.apply site (.burn t f n)).setBalance t f (L.balance t f)).setInfo t
      (some i)).setTicker i.ticker t).unrecord site t) = L := by
  have hticker := h.ticker_of_info t i hi
  apply Ledger.ext
  · simp [Ledger.apply, Ledger.unrecord, Ledger.setBalance, Ledger.setInfo, Ledger.record,
      Ledger.setTicker]
  · simp [Ledger.apply, Ledger.unrecord, Ledger.setBalance, Ledger.setInfo, Ledger.record,
      Ledger.setTicker, ← hi]
  · simp [Ledger.apply, Ledger.unrecord, Ledger.setBalance, Ledger.setInfo, Ledger.record,
      Ledger.setTicker, ← hticker]
  · simp [Ledger.apply, Ledger.unrecord, Ledger.setBalance, Ledger.setInfo, Ledger.record,
      Ledger.setTicker, ← hfresh]

end OpenSY.Tokens
