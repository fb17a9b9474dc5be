import OpenSY.Script.Codec
import OpenSY.Tokens.BlockByView
import OpenSY.Tokens.Origin
import OpenSY.Wallet.Tokens

/-!
# Token transactions built by a wallet

`CreateTransferTransaction` and `CreateBurnTransaction` look for a coin at an address that holds
enough of the token, since the owner of the first coin spent is whom the token database takes for
the sender.  The outputs are the operation, for a transfer the recipient, and a marker that goes
back to the sender if tokens are left.  The wallet's `CreateTransaction` is a parameter, with what
is assumed of it in `PutsTogether`.

* `selectTokenCoin_spec` — the coin that is chosen;
* `parse_built`, `getTransferRecipient_built` — what the outputs say;
* `walkBlock_single` — a block with one token transaction;
* `built_transactions_take_effect` — the token database does what the transaction was built for.
-/

namespace OpenSY.Wallet

open OpenSY.Chain OpenSY.Script OpenSY.Src20 OpenSY.Tokens OpenSY.Selection

/-! ### Building -/

structure CRecipient where
  dest : CTxDestination
  nAmount : CAmount
  fSubtractFeeFromAmount : Bool
  deriving DecidableEq

/-- The rate at which a fee is paid for a number of bytes. -/
structure CFeeRate where
  nFeePaid : CAmount
  numBytes : ℕ

structure CCoinControl where
  /-- the preselected coins in the order of their selection -/
  selected : List COutPoint := []
  allowOtherInputs : Bool := true
  maxTxFee : Option CAmount := none
  feerate : Option CFeeRate := none
  fOverrideFeeRate : Bool := false

structure CreatedTransactionResult where
  tx : CTransaction
  fee : CAmount

/-- `CreateTransaction` of the wallet: recipients, position of the change, coin control. -/
abbrev CreateTransaction : Type :=
  List CRecipient → ℕ → CCoinControl → Except String CreatedTransactionResult

/-- The amount of the outputs that only mark an address. -/
def dustRelayTxFee : CAmount := 3000

/-- Pay for the issuance at the wallet's rate, and at a rate that meets the minimum if that was too
little. -/
def createIssuanceTransaction (create : CreateTransaction)
    (getVirtualTransactionSize : CTransaction → ℕ) (reserved : List Bytes)
    (issuance : TokenIssuance) (issuerDest : CTxDestination) :
    Except String CreatedTransactionResult :=
  if !issuance.isValid reserved then .error "Invalid issuance parameters"
  else do
    let recipients : List CRecipient :=
      [⟨.noDestination (buildIssuanceScript issuance), 0, false⟩,
        ⟨issuerDest, dustRelayTxFee, false⟩]
    let control : CCoinControl := { maxTxFee := some (minTokenIssuanceFee * 3) }
    let result ← create recipients 2 control
    if result.fee < minTokenIssuanceFee then
      let retry ← create recipients 2 { control with
        feerate := some ⟨minTokenIssuanceFee + 1 * coin, getVirtualTransactionSize result.tx⟩
        fOverrideFeeRate := true }
      if retry.fee < minTokenIssuanceFee then
        .error "Could not construct transaction meeting minimum issuance fee"
      else .ok retry
    else .ok result

/-- The error texts in which a transfer and a burn differ. -/
structure MoveTexts where
  zeroAmount : String
  insufficient : String
  split : String

def transferTexts : MoveTexts where
  zeroAmount := "Transfer amount must be greater than zero"
  insufficient := "Insufficient token balance"
  split := "No single wallet address holds enough tokens for this transfer. " ++
    "Tokens are split across multiple addresses."

def burnTexts : MoveTexts where
  zeroAmount := "Burn amount must be greater than zero"
  insufficient := "Insufficient token balance for burn"
  split := "No single wallet address holds enough tokens for this burn. " ++
    "Tokens are split across multiple addresses."

/-- The scripts of the wallet that hold the token. -/
def CWallet.tokenHolderScripts (w : CWallet) (db : TokenDB) (t : TokenId) : List CScript :=
  w.scripts.filter fun script => 0 < db.getBalance script t

/-- The checks and the choice of the coin, the same for both: the wallet's balance and the coin. -/
def CWallet.selectTokenCoin (w : CWallet) (texts : MoveTexts) (db : TokenDB) (t : TokenId)
    (amount : ℕ) :
    Except String (ℕ × COutput) × TokenDB :=
  if amount = 0 then (.error texts.zeroAmount, db)
  else
    match w.getTokenBalance db t with
    | (none, db) => (.error texts.insufficient, db)
    | (some balance, db) =>
      if balance.balance < amount then (.error texts.insufficient, db)
      else if (w.tokenHolderScripts db t).isEmpty then
        (.error "No wallet addresses hold this token", db)
      else
        match w.availableCoins.find? fun coin =>
          coin.txout.scriptPubKey ∈ w.tokenHolderScripts db t &&
            amount ≤ db.getBalance coin.txout.scriptPubKey t with
        | none => (.error texts.split, db)
        | some coin => (.ok (balance.balance, coin), db)

/-- The output that goes back to the sender if the wallet keeps some of the token. -/
def markerRecipients (balance amount : ℕ) (senderScript : CScript) :
    Except String (List CRecipient) :=
  if amount < balance then
    match extractDestination senderScript with
    | none => .error "Could not extract sender destination"
    | some senderDest => .ok [⟨senderDest, dustRelayTxFee, false⟩]
  else .ok []

/-- The destination for tokens that are left is not read. -/
def CWallet.createTransferTransaction (create : CreateTransaction) (w : CWallet) (db : TokenDB)
    (t : TokenId) (recipient : CTxDestination) (amount : ℕ) (_tokenChangeDest : CTxDestination) :
    Except String CreatedTransactionResult × TokenDB :=
  let selected := w.selectTokenCoin transferTexts db t amount
  (do
    let (balance, coin) ← selected.1
    let marker ← markerRecipients balance amount coin.txout.scriptPubKey
    create
      (⟨.noDestination (buildTransferScript ⟨t, amount⟩), 0, false⟩ ::
        ⟨recipient, dustRelayTxFee, false⟩ :: marker)
      (if amount < balance then 3 else 2)
      { selected := [coin.outpoint], allowOtherInputs := true },
    selected.2)

def CWallet.createBurnTransaction (create : CreateTransaction) (w : CWallet) (db : TokenDB)
    (t : TokenId) (amount : ℕ) : Except String CreatedTransactionResult × TokenDB :=
  let selected := w.selectTokenCoin burnTexts db t amount
  (do
    let (balance, coin) ← selected.1
    let marker ← markerRecipients balance amount coin.txout.scriptPubKey
    create (⟨.noDestination (buildBurnScript ⟨t, amount⟩), 0, false⟩ :: marker)
      (if amount < balance then 2 else 1) { selected := [coin.outpoint], allowOtherInputs := true },
        selected.2)

/-! ### What is assumed of the wallet -/

def CRecipient.script (r : CRecipient) : CScript := getScriptForDestination r.dest

def outputScripts (tx : CTransaction) : List CScript := tx.vout.map CTxOut.scriptPubKey

/-- The outputs go to the recipients in their order, with the change, if there is any, at its
position; the change goes to an address.  The preselected coin is the first input. -/
structure PutsTogether (create : CreateTransaction) : Prop where
  outputs : ∀ {recipients changePos control result},
    create recipients changePos control = .ok result →
    outputScripts result.tx = recipients.map CRecipient.script ∨
    ∃ change : CTxDestination, isValidDestination change = true ∧
      outputScripts result.tx =
        (recipients.map CRecipient.script).insertIdx changePos (getScriptForDestination change)
  inputs : ∀ {recipients changePos control result outpoint},
    create recipients changePos control = .ok result →
    control.selected = [outpoint] → result.tx.vin.head? = some ⟨outpoint⟩

/-! ### The transaction that is built -/

theorem getTokenBalance_snd (w : CWallet) (db : TokenDB) (t : TokenId) :
    (w.getTokenBalance db t).2 = (db.getTokenInfo t).2 := by
  unfold CWallet.getTokenBalance
  split
  · rename_i db' h
    rw [h]
  · rename_i info db' h
    rw [h]

/-- **The coin that is chosen** is at an address of the wallet that holds enough of the token. -/
theorem selectTokenCoin_spec {w : CWallet} {texts : MoveTexts} {db : TokenDB} {t : TokenId}
    {amount balance : ℕ} {coin : COutput}
    (h : (w.selectTokenCoin texts db t amount).1 = .ok (balance, coin)) :
    let db' := (w.selectTokenCoin texts db t amount).2
    db' = (db.getTokenInfo t).2 ∧ 0 < amount ∧ coin ∈ w.availableCoins ∧
      coin.txout.scriptPubKey ∈ w.scripts ∧
      amount ≤ db'.getBalance coin.txout.scriptPubKey t := by
  have hread := getTokenBalance_snd w db t
  unfold CWallet.selectTokenCoin at h ⊢
  by_cases hzero : amount = 0
  · simp [hzero] at h
  · simp only [if_neg hzero] at h ⊢
    cases hbalance : w.getTokenBalance db t with
    | mk found db' =>
      rw [hbalance] at hread
      cases found with
      | none => simp [hbalance] at h
      | some total =>
        simp only [hbalance] at h ⊢
        split_ifs at h ⊢ with hless hnobody
        cases hcoin : w.availableCoins.find? fun coin =>
            decide (coin.txout.scriptPubKey ∈ w.tokenHolderScripts db' t) &&
              decide (amount ≤ db'.getBalance coin.txout.scriptPubKey t) with
        | none => simp [hcoin] at h
        | some coin' =>
          simp only [hcoin] at h ⊢
          obtain ⟨-, rfl⟩ := Prod.mk.inj (Except.ok.inj h)
          have hfound := List.find?_some hcoin
          simp only [Bool.and_eq_true, decide_eq_true_eq] at hfound
          exact ⟨hread, Nat.pos_of_ne_zero hzero, List.mem_of_find?_eq_some hcoin,
            List.mem_of_mem_filter hfound.1, hfound.2⟩

/-- Markers go to addresses, and there is one if the wallet keeps some of the token. -/
theorem markerRecipients_spec {balance amount : ℕ} {senderScript : CScript}
    {marker : List CRecipient} (h : markerRecipients balance amount senderScript = .ok marker)
    (reserved : List Bytes) :
    marker.length = (if amount < balance then 1 else 0) ∧
      ∀ script ∈ marker.map CRecipient.script, parseSRC20Script reserved script = none := by
  unfold markerRecipients at h
  split_ifs at h ⊢ with hkeeps
  · cases hdest : extractDestination senderScript with
    | none => simp [hdest] at h
    | some dest =>
      simp only [hdest] at h
      obtain rfl := Except.ok.inj h
      refine ⟨rfl, fun script hscript => ?_⟩
      rw [List.map_singleton, List.mem_singleton] at hscript
      rw [hscript]
      exact parse_getScriptForDestination (getScript_of_extract hdest).2
  · obtain rfl := Except.ok.inj h
    exact ⟨rfl, fun script hscript => absurd hscript List.not_mem_nil⟩

/-- A transaction of the wallet that pays `outs` first and spends the coin first, and has no token
operation behind these outputs. -/
structure BuiltFor (reserved : List Bytes) (w : CWallet) (db : TokenDB) (t : TokenId) (amount : ℕ)
    (outs : List CScript) (tx : CTransaction) (coin : COutput) : Prop where
  available : coin ∈ w.availableCoins
  owned : coin.txout.scriptPubKey ∈ w.scripts
  pos : 0 < amount
  enough : amount ≤ db.getBalance coin.txout.scriptPubKey t
  input : tx.vin.head? = some ⟨coin.outpoint⟩
  outputs : ∃ rest, outputScripts tx = outs ++ rest ∧ ∀ script ∈ rest,
    parseSRC20Script reserved script = none

/-- Both builders: select a coin, add the marker, and ask the wallet for the transaction, with the
change behind all other outputs. -/
theorem built_of_create {create : CreateTransaction} (hcreate : PutsTogether create)
    (reserved : List Bytes) {w : CWallet} {texts : MoveTexts} {db : TokenDB} {t : TokenId}
    {amount : ℕ} (first : List CRecipient) {result : CreatedTransactionResult}
    (h : (do
      let (balance, coin) ← (w.selectTokenCoin texts db t amount).1
      let marker ← markerRecipients balance amount coin.txout.scriptPubKey
      create (first ++ marker) (if amount < balance then first.length + 1 else first.length)
        { selected := [coin.outpoint], allowOtherInputs := true }) = Except.ok result) :
    (w.selectTokenCoin texts db t amount).2 = (db.getTokenInfo t).2 ∧
      ∃ coin, BuiltFor reserved w (w.selectTokenCoin texts db t amount).2 t amount
        (first.map CRecipient.script)
        result.tx coin := by
  cases hselect : (w.selectTokenCoin texts db t amount).1 with
  | error e =>
    rw [hselect] at h
    simp [bind, Except.bind] at h
  | ok found =>
    obtain ⟨balance, coin⟩ := found
    obtain ⟨hdb, hpos, havailable, howned, henough⟩ := selectTokenCoin_spec hselect
    rw [hselect] at h
    simp only [bind, Except.bind] at h
    cases hmarker : markerRecipients balance amount coin.txout.scriptPubKey with
    | error e => simp [hmarker] at h
    | ok marker =>
      simp only [hmarker] at h
      obtain ⟨hlength, hplain⟩ := markerRecipients_spec hmarker reserved
      refine ⟨hdb, coin, havailable, howned, hpos, henough, hcreate.inputs h rfl, ?_⟩
      rcases hcreate.outputs h with hvout | ⟨change, hchange, hvout⟩
      · exact ⟨marker.map CRecipient.script, by rw [hvout, List.map_append], hplain⟩
      · -- the change is behind the marker
        have hposition : (if amount < balance then first.length + 1 else first.length) =
            ((first ++ marker).map CRecipient.script).length := by
          rw [List.length_map, List.length_append, hlength]
          split_ifs <;> rfl
        refine ⟨marker.map CRecipient.script ++ [getScriptForDestination change], ?_, ?_⟩
        · rw [hvout, hposition, List.insertIdx_length_self, List.map_append, List.append_assoc]
        · intro script hscript
          rcases List.mem_append.mp hscript with hscript | hscript
          · exact hplain script hscript
          · rw [List.mem_singleton.mp hscript]
            exact parse_getScriptForDestination hchange

theorem createTransfer_built {create : CreateTransaction} (hcreate : PutsTogether create)
    (reserved : List Bytes) {w : CWallet} {db : TokenDB} {t : TokenId}
    {recipient change : CTxDestination} {amount : ℕ} {result : CreatedTransactionResult}
    (h : (w.createTransferTransaction create db t recipient amount change).1 = .ok result) :
    (w.createTransferTransaction create db t recipient amount change).2 = (db.getTokenInfo t).2 ∧
      ∃ coin, BuiltFor reserved w
        (w.createTransferTransaction create db t recipient amount change).2 t amount
        [buildTransferScript ⟨t, amount⟩, getScriptForDestination recipient] result.tx coin :=
  built_of_create hcreate reserved [⟨.noDestination (buildTransferScript ⟨t, amount⟩), 0, false⟩,
    ⟨recipient, dustRelayTxFee, false⟩] h

theorem createBurn_built {create : CreateTransaction} (hcreate : PutsTogether create)
    (reserved : List Bytes) {w : CWallet} {db : TokenDB} {t : TokenId} {amount : ℕ}
    {result : CreatedTransactionResult}
    (h : (w.createBurnTransaction create db t amount).1 = .ok result) :
    (w.createBurnTransaction create db t amount).2 = (db.getTokenInfo t).2 ∧
      ∃ coin, BuiltFor reserved w (w.createBurnTransaction create db t amount).2 t amount
        [buildBurnScript ⟨t, amount⟩] result.tx coin :=
  built_of_create hcreate reserved [⟨.noDestination (buildBurnScript ⟨t, amount⟩), 0, false⟩] h

/-! ### What the outputs say -/

/-- One operation in the first output, and none behind. -/
theorem parseTransactionSRC20_of_first {reserved : List Bytes} {tx : CTransaction}
    {script : CScript} {rest : List CScript} {op : SRC20Operation}
    (hvout : outputScripts tx = script :: rest) (hop : parseSRC20Script reserved script = some op)
    (hrest : ∀ script ∈ rest, parseSRC20Script reserved script = none) :
    parseTransactionSRC20 reserved tx = [op] := by
  have hparsed : (tx.vout.filterMap fun out => parseSRC20Script reserved out.scriptPubKey) =
      [op] := by
    show tx.vout.filterMap (parseSRC20Script reserved ∘ CTxOut.scriptPubKey) = [op]
    rw [← List.filterMap_map, show tx.vout.map CTxOut.scriptPubKey = script :: rest from hvout,
      List.filterMap_cons_some hop, List.filterMap_eq_nil_iff.mpr hrest]
  rw [parseTransactionSRC20_eq, hparsed]
  rfl

section Built

variable {reserved : List Bytes} {w : CWallet} {db : TokenDB} {t : TokenId} {amount : ℕ}
  {tx : CTransaction} {coin : COutput} {outs : List CScript}

/-- It is no coinbase, since its first input spends a coin. -/
theorem BuiltFor.not_coinbase (h : BuiltFor reserved w db t amount outs tx coin) :
    tx.isCoinBase = false := by
  have hinput := h.input
  unfold CTransaction.isCoinBase
  match hvin : tx.vin with
  | [] => rfl
  | [txin] =>
    rw [hvin] at hinput
    obtain rfl := Option.some.inj hinput
    exact coin.created
  | _ :: _ :: _ => rfl

/-- The sender is the owner of the coin. -/
theorem BuiltFor.getSender (h : BuiltFor reserved w db t amount outs tx coin) {txundo : CTxUndo}
    (hundo : txundo.vprevout.head? = some ⟨coin.txout⟩) :
    getSender tx txundo = coin.txout.scriptPubKey := by
  have hvin : tx.vin.isEmpty = false := by
    have hinput := h.input
    cases hv : tx.vin with
    | nil => rw [hv] at hinput; simp at hinput
    | cons txin rest => rfl
  obtain ⟨prev, rest, hprev⟩ : ∃ prev rest, txundo.vprevout = prev :: rest := by
    cases hv : txundo.vprevout with
    | nil => rw [hv] at hundo; simp at hundo
    | cons prev rest => exact ⟨prev, rest, rfl⟩
  rw [hprev] at hundo
  obtain rfl := Option.some.inj hundo
  simp [Tokens.getSender, hvin, hprev]

end Built

/-! ### A block with one token transaction -/

/-- The transaction at position `i`, behind the coinbase, is the only one with token operations. -/
structure OnlyTokenTx (reserved : List Bytes) (block : CBlock) (i : ℕ)
    (tx : CTransaction) : Prop where
  pos : 0 < i
  here : block.vtx[i]? = some tx
  others : ∀ j tx', block.vtx[j]? = some tx' → 0 < j → j ≠ i →
    parseTransactionSRC20 reserved tx' = []

section Walk

variable {σ : Type} (apply : σ → OpSite → TokenOp → σ × Bool) {reserved : List Bytes} (height : ℕ)
  (time : ℤ) (blockundo : CBlockUndo)

theorem walkTx_of_nil {i : ℕ} {tx : CTransaction}
    (h : 0 < i → parseTransactionSRC20 reserved tx = []) (v : Walk σ) :
    walkTx apply reserved height time blockundo v i tx = v := by
  unfold walkTx
  split_ifs with hskip
  · rfl
  · rfl
  · have hpos : 0 < i := by
      simp only [Bool.or_eq_true, decide_eq_true_eq, not_or] at hskip
      exact Nat.pos_of_ne_zero hskip.2
    rw [h hpos]
    rfl

theorem walkTxs_of_nil {l : List (CTransaction × ℕ)}
    (h : ∀ p ∈ l, 0 < p.2 → parseTransactionSRC20 reserved p.1 = []) (v : Walk σ) :
    l.foldl (fun v p => if v.opsCount < maxTokensPerBlock then
      walkTx apply reserved height time blockundo v p.2 p.1 else v) v = v := by
  induction l with
  | nil => rfl
  | cons p l ih =>
    rw [List.foldl_cons, walkTx_of_nil apply height time blockundo (h p List.mem_cons_self),
      ite_self]
    exact ih fun q hq => h q (List.mem_cons_of_mem p hq)

/-- **The walk over such a block** is the walk over that transaction. -/
theorem walkBlock_single {block : CBlock} {i : ℕ} {tx : CTransaction}
    (h : OnlyTokenTx reserved block i tx) (s : σ) :
    walkBlock apply reserved height block blockundo s =
      walkTx apply reserved height block.getBlockTime blockundo { state := s } i tx := by
  obtain ⟨hlt, htx⟩ := List.getElem?_eq_some_iff.mp h.here
  have hsplit : block.vtx = block.vtx.take i ++ tx :: block.vtx.drop (i + 1) := by
    rw [← htx, ← List.drop_eq_getElem_cons hlt, List.take_append_drop]
  have hlen : (block.vtx.take i).length = i := by
    rw [List.length_take]
    omega
  have hbefore : ∀ p ∈ (block.vtx.take i).zipIdx, 0 < p.2 →
      parseTransactionSRC20 reserved p.1 = [] := by
    intro p hp hpos
    have hget := List.mem_zipIdx_iff_getElem?.mp hp
    have hp2 : p.2 < i := by
      rw [← hlen]
      exact (List.getElem?_eq_some_iff.mp hget).1
    rw [List.getElem?_take_of_lt hp2] at hget
    exact h.others p.2 p.1 hget hpos (by omega)
  have hafter : ∀ p ∈ (block.vtx.drop (i + 1)).zipIdx (i + 1), 0 < p.2 →
      parseTransactionSRC20 reserved p.1 = [] := by
    intro p hp hpos
    obtain ⟨hle, hget⟩ := List.mem_zipIdx_iff_le_and_getElem?_sub.mp hp
    rw [List.getElem?_drop, Nat.add_sub_cancel' hle] at hget
    exact h.others p.2 p.1 hget hpos (by omega)
  have hroom : (0 : ℕ) < maxTokensPerBlock := by decide
  rw [walkBlock, hsplit, List.zipIdx_append, List.foldl_append, walkTxs_of_nil _ _ _ _ hbefore,
    hlen, Nat.zero_add, List.zipIdx_cons, List.foldl_cons, if_pos hroom,
    walkTxs_of_nil _ _ _ _ hafter]

end Walk

section Block

variable {reserved : List Bytes} {db : TokenDB} {block : CBlock} {i : ℕ} {tx : CTransaction}
  {height : ℕ} {blockundo : CBlockUndo} {txundo : CTxUndo}

/-- **Processing such a block** applies the one operation, if the ledger accepts it. -/
theorem process_single (h : Healthy db) (honly : OnlyTokenTx reserved block i tx)
    (hcoinbase : tx.isCoinBase = false) (hentry : blockundo.vtxundo[i - 1]? = some txundo)
    (hbest : db.getBestBlock ≠ block.hash) {op : SRC20Operation} {req : TokenOp}
    (hops : parseTransactionSRC20 reserved tx = [op])
    (hreq : request reserved tx txundo 0 op = some req)
    (hacc : db.records.ledger.Accepts ⟨tx.hash, height, block.getBlockTime, 0⟩ req) :
    (processBlock reserved db block height blockundo).2 = .ok 1 ∧
      (processBlock reserved db block height blockundo).1.records.ledger =
        db.records.ledger.apply ⟨tx.hash, height, block.getBlockTime, 0⟩ req := by
  obtain ⟨writes, hw⟩ :=
    Option.isSome_iff_exists.mp ((opWrites_isSome_iff db.records _ req).mpr hacc)
  have hstep : walkOp plainOp reserved height block.getBlockTime tx txundo
      ⟨{ state := db.records }, 0, 0⟩ op =
      TxWalk.accept ⟨{ state := db.records }, 0, 0⟩ (db.records.writeBatch (writes ++
        [undoWrite ⟨tx.hash, height, block.getBlockTime, 0⟩
          (undoOf db.records ⟨tx.hash, height, block.getBlockTime, 0⟩ req)])) tx.hash req := by
    have hroom : ¬(0 : ℕ) ≥ maxTokensPerBlock := by decide
    simp only [walkOp, if_neg hroom, hreq, plainOp, hw, if_true]
  have hwalk : walkBlock plainOp reserved height block blockundo db.records =
      (TxWalk.accept ⟨{ state := db.records }, 0, 0⟩ (db.records.writeBatch (writes ++
        [undoWrite ⟨tx.hash, height, block.getBlockTime, 0⟩
          (undoOf db.records ⟨tx.hash, height, block.getBlockTime, 0⟩ req)])) tx.hash
            req).toWalk := by
    rw [walkBlock_single plainOp height blockundo honly, walkTx_at hcoinbase honly.pos hentry, hops,
      List.foldl_cons, List.foldl_nil, hstep]
  obtain ⟨hcount, -, -⟩ :=
    processBlock_spec h.cache h.sound h.writable reserved height blockundo hbest
  constructor
  · rw [hcount, hwalk, accept_opsCount]
  · rw [h.process_ledger reserved hbest, hwalk, accept_state]
    exact ledger_step h.sound (request_wellFormed hreq) hw _

end Block

/-! ### The effect -/

/-- Exactly `n` of the token went from one account to another, and nothing else was moved.  Sent to
oneself, nothing changes. -/
def Moved (before after : TokenDB) (t : TokenId) (f d : CScript) (n : ℕ) : Prop :=
  ∀ t' a, after.getBalance a t' + (if t' = t ∧ a = f then n else 0) =
    before.getBalance a t' + (if t' = t ∧ a = d then n else 0)

/-- Exactly `n` of the token were taken from an account and from the supply. -/
structure Destroyed (before after : TokenDB) (t : TokenId) (f : CScript) (n : ℕ) : Prop where
  balances : ∀ t' a, after.getBalance a t' + (if t' = t ∧ a = f then n else 0) =
    before.getBalance a t'
  supply : ∃ i i', before.records.info t = some i ∧ after.records.info t = some i' ∧
    i'.circulatingSupply + n = i.circulatingSupply

theorem moved_of_apply {before after : TokenDB} {site : OpSite} {t : TokenId} {f d : CScript}
    {n : ℕ} (h : after.records.ledger = before.records.ledger.apply site (.transfer t f d n))
    (hn : n ≤ before.getBalance f t) : Moved before after t f d n := by
  intro t' a
  have hafter : after.getBalance a t' =
      (before.records.ledger.apply site (.transfer t f d n)).balance t' a := by
    rw [← h]
    rfl
  have hbalance : ∀ t a, before.records.ledger.balance t a = before.getBalance a t := fun _ _ => rfl
  rw [hafter, Ledger.apply_transfer_balance]
  simp only [hbalance]
  by_cases ht : t' = t
  · subst ht
    by_cases hfd : f = d
    · simp [hfd]
    · by_cases hd : a = d
      · simp [hfd, hd, Ne.symm hfd]
      · by_cases hf : a = f
        · subst hf
          simp only [hfd, if_false, and_false, and_self, if_true]
          omega
        · simp [hd, hf]
  · simp [ht]

theorem destroyed_of_apply {before after : TokenDB} {site : OpSite} {t : TokenId} {f : CScript}
    {n : ℕ} (h : after.records.ledger = before.records.ledger.apply site (.burn t f n))
    (hacc : before.records.ledger.Accepts site (.burn t f n)) : Destroyed before after t f n := by
  obtain ⟨hn, i, hi, hsupply⟩ := hacc
  refine ⟨fun t' a => ?_, i, burnInfo (before.getBalance f t) n i, hi, ?_, ?_⟩
  · have hafter : after.getBalance a t' =
        (before.records.ledger.apply site (.burn t f n)).balance t' a := by
      rw [← h]
      rfl
    have hbalance : ∀ t a, before.records.ledger.balance t a = before.getBalance a t :=
      fun _ _ => rfl
    rw [hafter, Ledger.apply_burn_balance]
    simp only [hbalance] at hn ⊢
    split_ifs with hboth
    · rw [hboth.1, hboth.2]
      omega
    · rfl
  · have hinfo : after.records.ledger.info t = some (burnInfo (before.getBalance f t) n i) := by
      rw [h, Ledger.apply_info, show TokenOp.token site (.burn t f n) = t from rfl,
        Function.update_self]
      show (before.records.ledger.info t).map _ = _
      rw [hi]
      rfl
    exact hinfo
  · rw [burnInfo_eq]
    exact Nat.sub_add_cancel hsupply

section Effect

variable {nHeight : Uint256 → ℕ} {root : Uint256} {chain : List BlockEntry} {db : TokenDB}
  {reserved : List Bytes} {w : CWallet} {t : TokenId} {amount : ℕ} {tx : CTransaction}
  {coin : COutput} {outs : List CScript}

/-- No transaction has the null hash for its txid. -/
def TxidsNotNull (chain : List BlockEntry) : Prop := ∀ e ∈ chain, ∀ tx ∈ e.block.vtx, tx.hash ≠ 0

/-- What a holder can pay passes the check of the script: a balance is no greater than the supply,
and the id of the token is a txid. -/
theorem BuiltFor.valid (hbuilt : BuiltFor reserved w db t amount outs tx coin)
    (h : Reach nHeight root chain db) (hnull : TxidsNotNull chain) :
    isValidMove t amount = true := by
  have hpos : 0 < db.getBalance coin.txout.scriptPubKey t := hbuilt.pos.trans_le hbuilt.enough
  obtain ⟨i, hi, -⟩ := h.storeSound.registered hpos
  have hbooks := h.books hi
  have hmax : amount ≤ int64Max :=
    calc amount ≤ db.getBalance coin.txout.scriptPubKey t := hbuilt.enough
      _ ≤ i.circulatingSupply := hbooks.supply.le _
      _ ≤ i.totalSupply := hbooks.circulating_le
      _ ≤ int64Max := hbooks.total_le
  have hid : t ≠ 0 := by
    obtain ⟨e, he, ht⟩ := h.issued (show db.records.info t ≠ none by simp [hi])
    obtain ⟨issuance, hissuance, hhash⟩ := List.mem_map.mp ht
    rw [← hhash]
    exact hnull e he issuance hissuance
  simp only [isValidMove, Bool.and_eq_true, decide_eq_true_eq]
  exact ⟨⟨hid, hbuilt.pos⟩, hmax⟩

variable {block : CBlock} {i height : ℕ} {blockundo : CBlockUndo} {txundo : CTxUndo}

theorem BuiltFor.transfer_effect {recipient : CScript}
    (hbuilt : BuiltFor reserved w db t amount [buildTransferScript ⟨t, amount⟩, recipient] tx coin)
    (h : Reach nHeight root chain db) (hnull : TxidsNotNull chain)
    (honly : OnlyTokenTx reserved block i tx) (hentry : blockundo.vtxundo[i - 1]? = some txundo)
    (hundo : txundo.vprevout.head? = some ⟨coin.txout⟩) (hbest : db.getBestBlock ≠ block.hash)
    (hspendable : isUnspendable recipient = false) (hrecipient : recipient ≠ []) :
    (processBlock reserved db block height blockundo).2 = .ok 1 ∧
      Moved db (processBlock reserved db block height blockundo).1 t coin.txout.scriptPubKey
        recipient amount := by
  have hvalid : TokenTransfer.isValid ⟨t, amount⟩ = true := hbuilt.valid h hnull
  have hparse : parseSRC20Script reserved (buildTransferScript ⟨t, amount⟩) =
      some ⟨.transfer, .transfer ⟨t, amount⟩⟩ :=
    parse_buildTransferScript hvalid
  obtain ⟨rest, hvout, hplain⟩ := hbuilt.outputs
  have hops : parseTransactionSRC20 reserved tx = [⟨.transfer, .transfer ⟨t, amount⟩⟩] :=
    parseTransactionSRC20_of_first hvout hparse
      (List.forall_mem_cons.mpr ⟨parse_of_spendable hspendable, hplain⟩)
  have hto : getTransferRecipient reserved tx = some recipient := by
    obtain ⟨out₀, outs₀, hcons, hout₀, hrest⟩ := List.map_eq_cons_iff.mp hvout
    obtain ⟨out₁, outs₁, rfl, rfl, -⟩ := List.map_eq_cons_iff.mp hrest
    simp [getTransferRecipient, hcons, hout₀, hparse, hspendable, hrecipient]
  have hreq : request reserved tx txundo 0 ⟨.transfer, .transfer ⟨t, amount⟩⟩ =
      some (.transfer t coin.txout.scriptPubKey recipient amount) := by
    simp [request, SRC20Operation.getTransfer, hvalid, hto, hbuilt.getSender hundo]
  have hacc : db.records.ledger.Accepts ⟨tx.hash, height, block.getBlockTime, 0⟩
      (.transfer t coin.txout.scriptPubKey recipient amount) :=
    (h.storeSound.ledger.accepts_transfer hbuilt.pos).mpr hbuilt.enough
  obtain ⟨hcount, hledger⟩ :=
    process_single h.healthy honly hbuilt.not_coinbase hentry hbest hops hreq hacc
  exact ⟨hcount, moved_of_apply hledger hbuilt.enough⟩

theorem BuiltFor.burn_effect
    (hbuilt : BuiltFor reserved w db t amount [buildBurnScript ⟨t, amount⟩] tx coin)
    (h : Reach nHeight root chain db) (hnull : TxidsNotNull chain)
    (honly : OnlyTokenTx reserved block i tx) (hentry : blockundo.vtxundo[i - 1]? = some txundo)
    (hundo : txundo.vprevout.head? = some ⟨coin.txout⟩) (hbest : db.getBestBlock ≠ block.hash) :
    (processBlock reserved db block height blockundo).2 = .ok 1 ∧
      Destroyed db (processBlock reserved db block height blockundo).1 t coin.txout.scriptPubKey
        amount := by
  have hvalid : TokenBurn.isValid ⟨t, amount⟩ = true := hbuilt.valid h hnull
  have hparse : parseSRC20Script reserved (buildBurnScript ⟨t, amount⟩) =
      some ⟨.burn, .burn ⟨t, amount⟩⟩ :=
    parse_buildBurnScript hvalid
  obtain ⟨rest, hvout, hplain⟩ := hbuilt.outputs
  have hops : parseTransactionSRC20 reserved tx = [⟨.burn, .burn ⟨t, amount⟩⟩] :=
    parseTransactionSRC20_of_first hvout hparse hplain
  have hreq : request reserved tx txundo 0 ⟨.burn, .burn ⟨t, amount⟩⟩ =
      some (.burn t coin.txout.scriptPubKey amount) := by
    simp [request, SRC20Operation.getBurn, hvalid, hbuilt.getSender hundo]
  have hacc : db.records.ledger.Accepts ⟨tx.hash, height, block.getBlockTime, 0⟩
      (.burn t coin.txout.scriptPubKey amount) :=
    (h.storeSound.ledger.accepts_burn hbuilt.pos).mpr hbuilt.enough
  obtain ⟨hcount, hledger⟩ :=
    process_single h.healthy honly hbuilt.not_coinbase hentry hbest hops hreq hacc
  exact ⟨hcount, destroyed_of_apply hledger hacc⟩

/-- **Transactions built by the wallet take effect.**  In a block where it is the only token
transaction, and whose undo data have the coin the wallet chose, a transfer to a spendable script
moves exactly the amount from one wallet address to the recipient, and a burn destroys exactly the
amount held by one wallet address.  Either is one operation. -/
theorem built_transactions_take_effect (h : Reach nHeight root chain db)
    (hnull : TxidsNotNull chain) {create : CreateTransaction} (hcreate : PutsTogether create)
    (w : CWallet) (t : TokenId) (amount height : ℕ) (blockundo : CBlockUndo)
    {result : CreatedTransactionResult} (honly : OnlyTokenTx reserved block i result.tx)
    (hentry : blockundo.vtxundo[i - 1]? = some txundo)
    (hcoins : ∀ coin ∈ w.availableCoins, result.tx.vin.head? = some ⟨coin.outpoint⟩ →
      txundo.vprevout.head? = some ⟨coin.txout⟩)
    (hbest : db.getBestBlock ≠ block.hash) :
    (∀ recipient change built,
      built = w.createTransferTransaction create db t recipient amount change →
      built.1 = .ok result → isUnspendable (getScriptForDestination recipient) = false →
      getScriptForDestination recipient ≠ [] →
      (processBlock reserved built.2 block height blockundo).2 = .ok 1 ∧
      ∃ sender ∈ w.scripts,
        Moved built.2 (processBlock reserved built.2 block height blockundo).1 t sender
        (getScriptForDestination recipient) amount) ∧
    (∀ built, built = w.createBurnTransaction create db t amount → built.1 = .ok result →
      (processBlock reserved built.2 block height blockundo).2 = .ok 1 ∧
      ∃ holder ∈ w.scripts,
        Destroyed built.2 (processBlock reserved built.2 block height blockundo).1 t holder
        amount) := by
  -- asking for the balance has touched the cache of the database only
  have hlookup : Reach nHeight root chain (db.getTokenInfo t).2 := h.lookup t
  have hbest' : (db.getTokenInfo t).2.getBestBlock ≠ block.hash := by
    rwa [TokenDB.getBestBlock, show (db.getTokenInfo t).2.records = db.records from
      (readTokenInfo_snd h.cacheCoherent t).1.records]
  constructor
  · rintro recipient change built rfl hok hspendable hrecipient
    obtain ⟨hdb, coin, hbuilt⟩ := createTransfer_built hcreate reserved hok
    rw [hdb] at hbuilt ⊢
    obtain ⟨hcount, hmoved⟩ := hbuilt.transfer_effect hlookup hnull honly hentry
      (hcoins coin hbuilt.available hbuilt.input) hbest' hspendable hrecipient
    exact ⟨hcount, coin.txout.scriptPubKey, hbuilt.owned, hmoved⟩
  · rintro built rfl hok
    obtain ⟨hdb, coin, hbuilt⟩ := createBurn_built hcreate reserved hok
    rw [hdb] at hbuilt ⊢
    obtain ⟨hcount, hdestroyed⟩ := hbuilt.burn_effect hlookup hnull honly hentry
      (hcoins coin hbuilt.available hbuilt.input) hbest'
    exact ⟨hcount, coin.txout.scriptPubKey, hbuilt.owned, hdestroyed⟩

end Effect

/-! ### A small wallet -/

namespace Sample

open OpenSY.Tokens.Sample

/-- A wallet that can spend one coin of the holder of the sample token. -/
def spender : CWallet := ⟨[], [[alice]], [⟨⟨6, 0⟩, ⟨50000, alice⟩, rfl⟩], 1⟩

/-- Spend the preselected coin, without change. -/
def createPlain : CreateTransaction := fun recipients _ control =>
  match control.selected with
  | [outpoint] => .ok ⟨⟨8, [⟨outpoint⟩], recipients.map fun r => ⟨r.nAmount, r.script⟩⟩, 1000⟩
  | _ => .error "Unable to create transaction"

theorem createPlain_putsTogether : PutsTogether createPlain where
  outputs {recipients changePos control result} h := by
    unfold createPlain at h
    split at h
    · obtain rfl := Except.ok.inj h
      exact Or.inl (by simp [outputScripts])
    · simp at h
  inputs {recipients changePos control result outpoint} h hselected := by
    unfold createPlain at h
    rw [hselected] at h
    obtain rfl := Except.ok.inj h
    rfl

def payAll : CreatedTransactionResult :=
  ⟨⟨8, [⟨⟨6, 0⟩⟩], [⟨0, buildTransferScript ⟨7, 10⟩⟩, ⟨dustRelayTxFee, bob⟩]⟩, 1000⟩

def burnAll : CreatedTransactionResult := ⟨⟨8, [⟨⟨6, 0⟩⟩], [⟨0, buildBurnScript ⟨7, 10⟩⟩]⟩, 1000⟩

/-- A block with a coinbase and one transaction that spends the coin. -/
def blockWith (tx : CTransaction) : CBlock := ⟨102, 101, 0, [coinbase 2, tx]⟩

def spentCoin : CBlockUndo := ⟨[⟨[⟨⟨50000, alice⟩⟩]⟩]⟩

theorem onlyTokenTx_blockWith (tx : CTransaction) : OnlyTokenTx [] (blockWith tx) 1 tx where
  pos := Nat.one_pos
  here := rfl
  others j tx' hj hpos hne := by
    have hlt := (List.getElem?_eq_some_iff.mp hj).1
    simp only [blockWith, List.length_cons, List.length_nil] at hlt
    omega

end Sample

open OpenSY.Tokens.Sample Sample

/-- All ten units of the sample token, once paid to somebody else and once burned. -/
theorem built_transactions_take_effect_sample :
    (∃ sender ∈ spender.scripts, Moved (issued.getTokenInfo 7).2
      (processBlock [] (issued.getTokenInfo 7).2 (blockWith payAll.tx) 2 spentCoin).1 7
        sender bob 10) ∧
    ∃ holder ∈ spender.scripts, Destroyed (issued.getTokenInfo 7).2
      (processBlock [] (issued.getTokenInfo 7).2 (blockWith burnAll.tx) 2 spentCoin).1 7
        holder 10 := by
  have hnull : TxidsNotNull [issueEntry] := by unfold TxidsNotNull; decide
  have hcoins : ∀ tx : CTransaction, ∀ coin ∈ spender.availableCoins,
      tx.vin.head? = some ⟨coin.outpoint⟩ →
      (⟨[⟨⟨50000, alice⟩⟩]⟩ : CTxUndo).vprevout.head? = some ⟨coin.txout⟩ := by
    intro tx coin hcoin _
    rw [List.mem_singleton.mp hcoin]
    rfl
  have hbest : ∀ tx, issued.getBestBlock ≠ (blockWith tx).hash := fun tx => by
    show issued.getBestBlock ≠ 102
    decide +kernel
  have htransfer :=
    (built_transactions_take_effect reach_issued hnull createPlain_putsTogether spender 7 10 2
      spentCoin (onlyTokenTx_blockWith payAll.tx) rfl (hcoins payAll.tx) (hbest payAll.tx)).1
      (.noDestination bob) (.noDestination []) _ rfl rfl (by decide) (by decide)
  have hburn :=
    (built_transactions_take_effect reach_issued hnull createPlain_putsTogether spender 7 10 2
      spentCoin (onlyTokenTx_blockWith burnAll.tx) rfl (hcoins burnAll.tx) (hbest burnAll.tx)).2 _ rfl rfl
  exact ⟨htransfer.2, hburn.2⟩

end OpenSY.Wallet
