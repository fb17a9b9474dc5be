import OpenSY.Tokens.Replay

/-!
# Who can move tokens

No signature is checked in the token code.  That only the owner of a token balance spends from it
rests on how the parties of an operation are read off its transaction: the sender is the owner of
the first coin spent, the recipient is output 1, the issuer is the first output that can be spent.

* `TokenOp.outflow`, `TokenOp.inflow` — what one operation can take from an account and give to it;
* `Flow` — the balance of an account moves within given bounds, and a token that is registered keeps
  its supply; flows add up along a walk;
* `only_owner_spends` — the bounds for a block, in terms of the amounts parsed from its
  transactions, and for every single transaction of it.
-/

namespace OpenSY.Tokens

open OpenSY.Chain OpenSY.Src20 OpenSY.KeyValueStore

/-! ### What one operation moves -/

/-- What an operation takes from an account. -/
def TokenOp.outflow (t : TokenId) (a : CScript) : TokenOp → ℕ
  | .issue _ _ => 0
  | .transfer t' f _ n => if t' = t ∧ f = a then n else 0
  | .burn t' f n => if t' = t ∧ f = a then n else 0

/-- What a transfer gives to an account. -/
def TokenOp.inflow (t : TokenId) (a : CScript) : TokenOp → ℕ
  | .transfer t' _ d n => if t' = t ∧ d = a then n else 0
  | _ => 0

/-- The operation issues the token, and to the account. -/
def TokenOp.IssuesTo (site : OpSite) (t : TokenId) (a : CScript) : TokenOp → Prop
  | .issue _ issuer => site.txid = t ∧ issuer = a
  | _ => False

/-- The supply of a token that is registered after and was not before. -/
def issuedSupply : Option TokenInfo → Option TokenInfo → ℕ
  | none, some i => i.totalSupply
  | _, _ => 0

/-- A registered token keeps its total supply. -/
def SupplyKept (before after : Option TokenInfo) : Prop :=
  ∀ i, before = some i → ∃ i', after = some i' ∧ i'.totalSupply = i.totalSupply

theorem SupplyKept.refl (i : Option TokenInfo) : SupplyKept i i := fun j hj => ⟨j, hj, rfl⟩

theorem SupplyKept.map (i : Option TokenInfo) {f : TokenInfo → TokenInfo}
    (hf : ∀ j, (f j).totalSupply = j.totalSupply) : SupplyKept i (i.map f) := by
  intro j hj
  exact ⟨f j, by rw [hj, Option.map_some], hf j⟩

theorem SupplyKept.trans {i j k : Option TokenInfo} (h : SupplyKept i j) (h' : SupplyKept j k) :
    SupplyKept i k := by
  intro x hx
  obtain ⟨y, hy, hxy⟩ := h x hx
  obtain ⟨z, hz, hyz⟩ := h' y hy
  exact ⟨z, hz, hyz.trans hxy⟩

@[simp] theorem issuedSupply_self (i : Option TokenInfo) : issuedSupply i i = 0 := by
  cases i <;> rfl

/-- A token is issued once, so its supply is counted once. -/
theorem issuedSupply_add {i j k : Option TokenInfo} (h : SupplyKept i j) (h' : SupplyKept j k) :
    issuedSupply i j + issuedSupply j k = issuedSupply i k := by
  cases j with
  | none =>
    cases i with
    | none => simp
    | some x =>
      obtain ⟨y, hy, -⟩ := h x rfl
      exact absurd hy (by simp)
  | some y =>
    obtain ⟨z, rfl, hyz⟩ := h' y rfl
    cases i with
    | none => exact hyz.symm
    | some x => rfl

theorem Ledger.balance_le_apply {L : Ledger} (hs : Sound L) {site : OpSite} {op : TokenOp}
    (hacc : L.Accepts site op) (t : TokenId) (a : CScript) :
    L.balance t a ≤ (L.apply site op).balance t a + op.outflow t a := by
  cases op with
  | issue issuance issuer =>
    rw [Ledger.apply_issue_balance]
    split_ifs with h
    · rw [h.1, hs.balance_unissued hacc.2]
      exact Nat.zero_le _
    · exact Nat.le_add_right _ _
  | transfer t' f d n =>
    obtain ⟨-, hn, -⟩ := hacc
    rw [Ledger.apply_transfer_balance]
    split_ifs with hfd hd hf
    · exact Nat.le_add_right _ _
    · rw [hd.1, hd.2]
      omega
    · rw [hf.1, hf.2]
      simp only [TokenOp.outflow, and_self, if_true]
      omega
    · exact Nat.le_add_right _ _
  | burn t' f n =>
    obtain ⟨hn, -⟩ := hacc
    rw [Ledger.apply_burn_balance]
    split_ifs with hf
    · rw [hf.1, hf.2]
      simp only [TokenOp.outflow, and_self, if_true]
      omega
    · exact Nat.le_add_right _ _

theorem Ledger.supplyKept_apply {L : Ledger} {site : OpSite} {op : TokenOp}
    (hacc : L.Accepts site op) (t : TokenId) :
    SupplyKept (L.info t) ((L.apply site op).info t) := by
  rw [Ledger.apply_info]
  by_cases ht : t = op.token site
  · subst ht
    rw [Function.update_self]
    cases op with
    | issue issuance issuer =>
      intro i hi
      rw [TokenOp.token, hacc.2] at hi
      exact absurd hi (by simp)
    | transfer t' f d n =>
      refine SupplyKept.map _ ?_
      intro j
      split_ifs
      · rfl
      · rw [transferInfo_eq]
    | burn t' f n =>
      refine SupplyKept.map _ ?_
      intro j
      rw [burnInfo_eq]
  · rw [Function.update_of_ne ht]
    exact .refl _

theorem Ledger.apply_balance_le {L : Ledger} {site : OpSite} {op : TokenOp}
    (hacc : L.Accepts site op) {t : TokenId} {a : CScript} {issuing : Bool}
    (hissuing : op.IssuesTo site t a → issuing = true) :
    (L.apply site op).balance t a ≤ L.balance t a + op.inflow t a +
      (if issuing then issuedSupply (L.info t) ((L.apply site op).info t) else 0) := by
  cases op with
  | issue issuance issuer =>
    rw [Ledger.apply_issue_balance]
    by_cases h : t = site.txid ∧ a = issuer
    · obtain ⟨rfl, rfl⟩ := h
      have hissued : issuedSupply (L.info site.txid)
          ((L.apply site (.issue issuance a)).info site.txid) = issuance.totalSupply := by
        rw [Ledger.apply_info, TokenOp.token, Function.update_self, hacc.2]
        rfl
      rw [if_pos ⟨rfl, rfl⟩, if_pos (hissuing ⟨rfl, rfl⟩), hissued]
      exact Nat.le_add_left _ _
    · rw [if_neg h, Nat.add_assoc]
      exact Nat.le_add_right _ _
  | transfer t' f d n =>
    refine le_trans ?_ (Nat.le_add_right _ _)
    rw [Ledger.apply_transfer_balance]
    split_ifs with hfd hd hf
    · exact Nat.le_add_right _ _
    · rw [hd.1, hd.2]
      simp only [TokenOp.inflow, and_self, if_true, le_refl]
    · rw [hf.1, hf.2]
      omega
    · exact Nat.le_add_right _ _
  | burn t' f n =>
    refine le_trans ?_ (Nat.le_add_right _ _)
    rw [Ledger.apply_burn_balance]
    split_ifs with hf
    · rw [hf.1, hf.2]
      omega
    · exact Nat.le_add_right _ _

/-! ### Flows -/

/-- From `L` to `L'` the account loses at most `out`, gains at most `inn` and what is issued to it,
and a registered token keeps its supply. -/
structure Flow (t : TokenId) (a : CScript) (issuing : Bool) (out inn : ℕ) (L L' : Ledger) :
    Prop where
  lower : L.balance t a ≤ L'.balance t a + out
  upper : L'.balance t a ≤ L.balance t a + inn +
    (if issuing then issuedSupply (L.info t) (L'.info t) else 0)
  kept : SupplyKept (L.info t) (L'.info t)

section Flow

variable {t : TokenId} {a : CScript} {issuing : Bool} {out inn out' inn' : ℕ} {L L' L'' : Ledger}

theorem Flow.refl (L : Ledger) : Flow t a issuing out inn L L where
  lower := Nat.le_add_right _ _
  upper := by omega
  kept := .refl _

/-- Flows add up. -/
theorem Flow.trans (h : Flow t a issuing out inn L L') (h' : Flow t a issuing out' inn' L' L'') :
    Flow t a issuing (out + out') (inn + inn') L L'' where
  lower := by
    have hfirst := h.lower
    have hsecond := h'.lower
    omega
  upper := by
    have hfirst := h.upper
    have hsecond := h'.upper
    have hissued := issuedSupply_add h.kept h'.kept
    split_ifs at hfirst hsecond ⊢ <;> omega
  kept := h.kept.trans h'.kept

theorem Flow.mono (h : Flow t a issuing out inn L L') (hout : out ≤ out') (hinn : inn ≤ inn') :
    Flow t a issuing out' inn' L L' where
  lower := h.lower.trans (Nat.add_le_add_left hout _)
  upper := h.upper.trans (Nat.add_le_add_right (Nat.add_le_add_left hinn _) _)
  kept := h.kept

theorem Flow.apply (hs : Sound L) {site : OpSite} {op : TokenOp} (hacc : L.Accepts site op)
    (hissuing : op.IssuesTo site t a → issuing = true) :
    Flow t a issuing (op.outflow t a) (op.inflow t a) L (L.apply site op) where
  lower := Ledger.balance_le_apply hs hacc t a
  upper := Ledger.apply_balance_le hacc hissuing
  kept := Ledger.supplyKept_apply hacc t

end Flow

/-! ### What the transactions of a block say -/

/-- The amount of a parsed transfer of the token. -/
def transferAmount (t : TokenId) (op : SRC20Operation) : ℕ :=
  match op.action, op.getTransfer with
  | .transfer, some x => if x.tokenId = t then x.amount else 0
  | _, _ => 0

/-- The amount of a parsed burn of the token. -/
def burnAmount (t : TokenId) (op : SRC20Operation) : ℕ :=
  match op.action, op.getBurn with
  | .burn, some x => if x.tokenId = t then x.amount else 0
  | _, _ => 0

/-- The script of the coin that the first input of a transaction spends. -/
def firstInputScript (tx : CTransaction) (txundo : CTxUndo) : Option CScript :=
  if tx.vin.isEmpty then none else txundo.vprevout.head?.map fun prev => prev.out.scriptPubKey

/-- The script of output 1. -/
def secondOutputScript (tx : CTransaction) : Option CScript :=
  (tx.vout[1]?).map CTxOut.scriptPubKey

/-- The transaction at position `i` is not the coinbase. -/
def notCoinbase (i : ℕ) (tx : CTransaction) : Bool := !tx.isCoinBase && i ≠ 0

section Amounts

variable (reserved : List Bytes) (t : TokenId) (a : CScript)

/-- The transfers and burns parsed from a transaction whose first input spends a coin of `a`. -/
def txSpentBy (blockundo : CBlockUndo) (i : ℕ) (tx : CTransaction) : ℕ :=
  if notCoinbase i tx ∧ firstInputScript tx (txUndoAt blockundo i) = some a then
    ((parseTransactionSRC20 reserved tx).map fun op => transferAmount t op + burnAmount t op).sum
  else 0

/-- The transfers parsed from a transaction whose output 1 belongs to `a`. -/
def txSentTo (i : ℕ) (tx : CTransaction) : ℕ :=
  if notCoinbase i tx ∧ secondOutputScript tx = some a then
    ((parseTransactionSRC20 reserved tx).map (transferAmount t)).sum
  else 0

def spentBy (blockundo : CBlockUndo) (block : CBlock) : ℕ :=
  (block.vtx.zipIdx.map fun p => txSpentBy reserved t a blockundo p.2 p.1).sum

def sentTo (block : CBlock) : ℕ :=
  (block.vtx.zipIdx.map fun p => txSentTo reserved t a p.2 p.1).sum

/-- Some transaction of the block has the token's id as its txid, and `a` as its first output that
can be spent. -/
def issuedTo (block : CBlock) : Bool :=
  block.vtx.zipIdx.any fun p => notCoinbase p.2 p.1 && p.1.hash = t && getIssuer p.1 = a

end Amounts

/-- A sender that is not the empty script owns the coin of the first input. -/
theorem firstInputScript_of_getSender {tx : CTransaction} {txundo : CTxUndo}
    (h : getSender tx txundo ≠ []) : firstInputScript tx txundo = some (getSender tx txundo) := by
  unfold getSender at h ⊢
  unfold firstInputScript
  split_ifs at h ⊢ with hvin
  · exact absurd rfl h
  · cases hundo : txundo.vprevout with
    | nil => exact absurd (by rw [hundo]) h
    | cons prev rest => rfl

section Request

variable {reserved : List Bytes} {tx : CTransaction} {txundo : CTxUndo} {issueCountThisTx : ℕ}
  {op : SRC20Operation} {req : TokenOp} {L : Ledger} {site : OpSite}

/-- An operation takes its parsed amount from the owner of the first input, and nothing from anybody
else. -/
theorem outflow_le (hreq : request reserved tx txundo issueCountThisTx op = some req) (hs : Sound L)
    (hacc : L.Accepts site req) (t : TokenId) (a : CScript) :
    req.outflow t a ≤
      if firstInputScript tx txundo = some a then transferAmount t op + burnAmount t op else 0 := by
  have hwell := request_wellFormed hreq
  obtain ⟨issuance, -, -, -, rfl⟩ | ⟨x, recipient, haction, hdata, -, -, rfl⟩ |
    ⟨x, haction, hdata, -, rfl⟩ := request_cases hreq
  · exact Nat.zero_le _
  · have hholds : 0 < L.balance x.tokenId (getSender tx txundo) := lt_of_lt_of_le hacc.1 hacc.2.1
    have howner := firstInputScript_of_getSender (hs.sender_ne_nil hholds)
    rw [howner]
    by_cases h : x.tokenId = t ∧ getSender tx txundo = a
    · obtain ⟨rfl, rfl⟩ := h
      simp [TokenOp.outflow, transferAmount, haction, hdata]
    · simp [TokenOp.outflow, h]
  · have hholds : 0 < L.balance x.tokenId (getSender tx txundo) := lt_of_lt_of_le hwell hacc.1
    have howner := firstInputScript_of_getSender (hs.sender_ne_nil hholds)
    rw [howner]
    by_cases h : x.tokenId = t ∧ getSender tx txundo = a
    · obtain ⟨rfl, rfl⟩ := h
      simp [TokenOp.outflow, burnAmount, haction, hdata]
    · simp [TokenOp.outflow, h]

/-- A transfer gives its parsed amount to output 1. -/
theorem inflow_le (hreq : request reserved tx txundo issueCountThisTx op = some req) (t : TokenId)
    (a : CScript) :
    req.inflow t a ≤ if secondOutputScript tx = some a then transferAmount t op else 0 := by
  obtain ⟨issuance, -, -, -, rfl⟩ | ⟨x, recipient, haction, hdata, -, hrecipient, rfl⟩ |
    ⟨x, -, -, -, rfl⟩ := request_cases hreq
  · exact Nat.zero_le _
  · have hout : secondOutputScript tx = some recipient := (getTransferRecipient_spec hrecipient).2
    rw [hout]
    by_cases h : x.tokenId = t ∧ recipient = a
    · obtain ⟨rfl, rfl⟩ := h
      simp [TokenOp.inflow, transferAmount, haction, hdata]
    · simp [TokenOp.inflow, h]
  · exact Nat.zero_le _

/-- An issuance goes to the first output that can be spent. -/
theorem issuesTo_of_request (hreq : request reserved tx txundo issueCountThisTx op = some req)
    {t : TokenId} {a : CScript} (h : req.IssuesTo site t a) : site.txid = t ∧ getIssuer tx = a := by
  obtain ⟨issuance, -, -, -, rfl⟩ | ⟨x, recipient, -, -, -, -, rfl⟩ | ⟨x, -, -, -, rfl⟩ :=
    request_cases hreq
  · exact h
  · exact h.elim
  · exact h.elim

end Request

/-! ### The walk -/

section Walk

variable (reserved : List Bytes) (height : ℕ) (time : ℤ) {t : TokenId} {a : CScript}
  {issuing : Bool}

theorem walkOp_flow (tx : CTransaction) (txundo : CTxUndo)
    (hissuing : tx.hash = t → getIssuer tx = a → issuing = true) {w : TxWalk Records}
    (hs : StoreSound w.state) (op : SRC20Operation) :
    StoreSound (walkOp plainOp reserved height time tx txundo w op).state ∧
    Flow t a issuing
      (if firstInputScript tx txundo = some a then transferAmount t op + burnAmount t op else 0)
      (if secondOutputScript tx = some a then transferAmount t op else 0)
      w.state.ledger (walkOp plainOp reserved height time tx txundo w op).state.ledger := by
  obtain hsame | ⟨req, writes, hreq, hw, hstep⟩ :=
    walkOp_plainOp_cases reserved height time tx txundo w op
  · rw [hsame]
    exact ⟨hs, .refl _⟩
  · have hwell := request_wellFormed hreq
    have hacc := (opWrites_isSome_iff w.state _ req).mp (by rw [hw]; rfl)
    rw [hstep, accept_state, ledger_step hs hwell hw]
    refine ⟨storeSound_step hs hwell hw _, (Flow.apply hs.ledger hacc ?_).mono
      (outflow_le hreq hs.ledger hacc t a) (inflow_le hreq t a)⟩
    intro hto
    obtain ⟨hid, hto⟩ := issuesTo_of_request hreq hto
    exact hissuing hid hto

/-- **What the operations of one transaction move**, whichever of them are accepted. -/
theorem walkOps_flow (tx : CTransaction) (txundo : CTxUndo)
    (hissuing : tx.hash = t → getIssuer tx = a → issuing = true) (ops : List SRC20Operation)
    {w : TxWalk Records} (hs : StoreSound w.state) :
    StoreSound (ops.foldl (walkOp plainOp reserved height time tx txundo) w).state ∧
    Flow t a issuing
      (if firstInputScript tx txundo = some a then
        (ops.map fun op => transferAmount t op + burnAmount t op).sum else 0)
      (if secondOutputScript tx = some a then (ops.map (transferAmount t)).sum else 0)
      w.state.ledger
        (ops.foldl (walkOp plainOp reserved height time tx txundo) w).state.ledger := by
  induction ops generalizing w with
  | nil => exact ⟨hs, .refl _⟩
  | cons op ops ih =>
    obtain ⟨hs', hflow⟩ := walkOp_flow reserved height time tx txundo hissuing hs op
    obtain ⟨hs'', hrest⟩ := ih hs'
    refine ⟨hs'', (hflow.trans hrest).mono ?_ ?_⟩
    · rw [List.map_cons, List.sum_cons]
      split_ifs <;> omega
    · rw [List.map_cons, List.sum_cons]
      split_ifs <;> omega

theorem walkTx_flow (blockundo : CBlockUndo) (i : ℕ) (tx : CTransaction)
    (hissuing : notCoinbase i tx = true → tx.hash = t → getIssuer tx = a → issuing = true)
    {w : Walk Records} (hs : StoreSound w.state) :
    StoreSound (walkTx plainOp reserved height time blockundo w i tx).state ∧
    Flow t a issuing (txSpentBy reserved t a blockundo i tx) (txSentTo reserved t a i tx)
      w.state.ledger (walkTx plainOp reserved height time blockundo w i tx).state.ledger := by
  unfold walkTx
  split_ifs with hcoinbase hundo
  · exact ⟨hs, .refl _⟩
  · exact ⟨hs, .refl _⟩
  · have hnot : notCoinbase i tx = true := by
      simpa [notCoinbase] using hcoinbase
    have hops := walkOps_flow reserved height time tx (txUndoAt blockundo i) (hissuing hnot)
      (parseTransactionSRC20 reserved tx) (w := ⟨w, 0, 0⟩) hs
    simpa [txSpentBy, txSentTo, hnot] using hops

/-- **What the transactions of a block move**, from any state on. -/
theorem walkTxs_flow (blockundo : CBlockUndo) (l : List (CTransaction × ℕ))
    (hissuing : ∀ p ∈ l, notCoinbase p.2 p.1 = true → p.1.hash = t → getIssuer p.1 = a →
      issuing = true) {w : Walk Records} (hs : StoreSound w.state) :
    let w' := l.foldl (fun w p => if w.opsCount < maxTokensPerBlock then
      walkTx plainOp reserved height time blockundo w p.2 p.1 else w) w
    StoreSound w'.state ∧
    Flow t a issuing (l.map fun p => txSpentBy reserved t a blockundo p.2 p.1).sum
      (l.map fun p => txSentTo reserved t a p.2 p.1).sum w.state.ledger w'.state.ledger := by
  intro w'
  induction l generalizing w with
  | nil => exact ⟨hs, .refl _⟩
  | cons p l ih =>
    have hissuing' : ∀ q ∈ l, notCoinbase q.2 q.1 = true → q.1.hash = t → getIssuer q.1 = a →
        issuing = true := fun q hq => hissuing q (List.mem_cons_of_mem p hq)
    simp only [w', List.foldl_cons, List.map_cons, List.sum_cons]
    split_ifs with hroom
    · obtain ⟨hs', hflow⟩ := walkTx_flow reserved height time blockundo p.2 p.1
        (hissuing p List.mem_cons_self) hs
      obtain ⟨hs'', hrest⟩ := ih hissuing' hs'
      exact ⟨hs'', hflow.trans hrest⟩
    · obtain ⟨hs', hflow⟩ := ih hissuing' hs
      exact ⟨hs', hflow.mono (Nat.le_add_left _ _) (Nat.le_add_left _ _)⟩

/-- Cutting a block off one transaction later is one more turn of the outer loop. -/
theorem walkBlock_take_succ {block : CBlock} (blockundo : CBlockUndo) {n : ℕ} {tx : CTransaction}
    (htx : block.vtx[n]? = some tx) (r : Records) :
    let w := walkBlock plainOp reserved height { block with vtx := block.vtx.take n } blockundo r
    walkBlock plainOp reserved height { block with vtx := block.vtx.take (n + 1) } blockundo r =
      if w.opsCount < maxTokensPerBlock then
        walkTx plainOp reserved height block.getBlockTime blockundo w n tx
      else w := by
  intro w
  have hlt : n < block.vtx.length := (List.getElem?_eq_some_iff.mp htx).1
  have htake : block.vtx.take (n + 1) = block.vtx.take n ++ [tx] := by
    rw [List.take_add_one, htx]
    rfl
  have hindex : (block.vtx.take (n + 1)).zipIdx = (block.vtx.take n).zipIdx ++ [(tx, n)] := by
    rw [htake, List.zipIdx_append, List.length_take_of_le hlt.le]
    simp
  unfold walkBlock
  rw [hindex, List.foldl_append]
  rfl

end Walk

/-! ### Blocks -/

/-- The ledger after a new block is that of the plain walk. -/
theorem Healthy.process_ledger {db : TokenDB} (h : Healthy db) (reserved : List Bytes)
    {block : CBlock} (hbest : db.getBestBlock ≠ block.hash) (height : ℕ) (blockundo : CBlockUndo) :
    (processBlock reserved db block height blockundo).1.records.ledger =
      (walkBlock plainOp reserved height block blockundo db.records).state.ledger := by
  obtain ⟨-, hmdb, -⟩ :=
    processBlock_spec h.cache h.sound h.writable reserved height blockundo hbest
  rw [TokenDB.records, hmdb]
  exact ledger_congr (agreeOn_blockStore reserved db.records block height blockundo)

theorem Healthy.process_flow {db : TokenDB} (h : Healthy db) (reserved : List Bytes)
    (block : CBlock) (height : ℕ) (blockundo : CBlockUndo) (t : TokenId) (a : CScript) :
    Flow t a (issuedTo t a block) (spentBy reserved t a blockundo block) (sentTo reserved t a block)
      db.records.ledger (processBlock reserved db block height blockundo).1.records.ledger := by
  by_cases hbest : db.getBestBlock = block.hash
  · rw [processBlock_again reserved hbest]
    exact .refl _
  · rw [h.process_ledger reserved hbest]
    refine (walkTxs_flow reserved height block.getBlockTime blockundo block.vtx.zipIdx ?_
      (w := { state := db.records }) h.sound).2
    intro p hp hnot hid hto
    refine List.any_eq_true.mpr ⟨p, hp, ?_⟩
    simp [hnot, hid, hto]

/-- One more transaction that does not spend a coin of `a` does not lower the balance of `a`. -/
theorem Healthy.process_take_succ {db : TokenDB} (h : Healthy db) (reserved : List Bytes)
    {block : CBlock} (height : ℕ) (blockundo : CBlockUndo) (t : TokenId) {a : CScript} {n : ℕ}
    {tx : CTransaction} (htx : block.vtx[n]? = some tx)
    (hother : tx.isCoinBase = true ∨ firstInputScript tx (txUndoAt blockundo n) ≠ some a) :
    (processBlock reserved db { block with vtx := block.vtx.take n } height
        blockundo).1.getBalance a t ≤
      (processBlock reserved db { block with vtx := block.vtx.take (n + 1) } height
        blockundo).1.getBalance a t := by
  let cut (m : ℕ) : CBlock := { block with vtx := block.vtx.take m }
  show (processBlock reserved db (cut n) height blockundo).1.getBalance a t ≤
    (processBlock reserved db (cut (n + 1)) height blockundo).1.getBalance a t
  by_cases hbest : db.getBestBlock = block.hash
  · have hhash : ∀ m, db.getBestBlock = (cut m).hash := fun _ => hbest
    rw [processBlock_again reserved (hhash n), processBlock_again reserved (hhash (n + 1))]
  · have hhash : ∀ m, db.getBestBlock ≠ (cut m).hash := fun _ => hbest
    show (Records.ledger _).balance t a ≤ (Records.ledger _).balance t a
    rw [h.process_ledger reserved (hhash n), h.process_ledger reserved (hhash (n + 1)),
      walkBlock_take_succ reserved height blockundo htx]
    split_ifs with hroom
    · have hsound : StoreSound (walkBlock plainOp reserved height (cut n) blockundo
          db.records).state :=
        walk_invariant (fun r site op hop hr => hr.plainOp site hop) reserved height (cut n)
          blockundo h.sound
      have hflow : Flow t a true (txSpentBy reserved t a blockundo n tx)
          (txSentTo reserved t a n tx) _ _ :=
        (walkTx_flow reserved height block.getBlockTime blockundo n tx (fun _ _ _ => rfl) hsound).2
      have hnone : txSpentBy reserved t a blockundo n tx = 0 := by
        refine if_neg ?_
        intro hspends
        obtain hcoinbase | howner := hother
        · simp [notCoinbase, hcoinbase] at hspends
        · exact howner hspends.2
      have hlower := hflow.lower
      rw [hnone] at hlower
      exact hlower
    · exact le_rfl

/-- **Only the owner spends.**  A block lowers a balance by at most the transfers and burns parsed
from transactions whose first input spends a coin of that owner.  It raises it by at most the
transfers parsed from transactions whose output 1 belongs to the owner, and the supply of the token
if it is issued in the block to the owner.  A coinbase, and a transaction whose first input spends
somebody else's coin, never lowers it. -/
theorem only_owner_spends {nHeight : Uint256 → ℕ} {root : Uint256} {chain : List BlockEntry}
    {db : TokenDB} (h : Reach nHeight root chain db) (reserved : List Bytes) (block : CBlock)
    (height : ℕ) (blockundo : CBlockUndo) (a : CScript) (t : TokenId) :
    let db' := (processBlock reserved db block height blockundo).1
    db.getBalance a t ≤ db'.getBalance a t + spentBy reserved t a blockundo block ∧
    db'.getBalance a t ≤ db.getBalance a t + sentTo reserved t a block +
      (if issuedTo t a block then issuedSupply (db.records.info t) (db'.records.info t) else 0) ∧
    ∀ n tx, block.vtx[n]? = some tx →
      tx.isCoinBase = true ∨ firstInputScript tx (txUndoAt blockundo n) ≠ some a →
      (processBlock reserved db { block with vtx := block.vtx.take n } height
          blockundo).1.getBalance a t ≤
        (processBlock reserved db { block with vtx := block.vtx.take (n + 1) } height
          blockundo).1.getBalance a t := by
  have hflow := h.healthy.process_flow reserved block height blockundo t a
  refine ⟨hflow.lower, hflow.upper, ?_⟩
  intro n tx htx hother
  exact h.healthy.process_take_succ reserved height blockundo t htx hother

/-- In the block that transfers three units from one owner to another, the first loses three and the
second gains three. -/
theorem only_owner_spends_sample :
    Reach Sample.sampleHeight 100 [Sample.issueEntry] Sample.issued ∧
    Sample.issued.getBalance Sample.alice 7 ≤ Sample.moved.getBalance Sample.alice 7 + 3 ∧
    Sample.moved.getBalance Sample.bob 7 ≤ Sample.issued.getBalance Sample.bob 7 + 3 := by
  have halice := only_owner_spends Sample.reach_issued [] Sample.moveEntry.block 2
    Sample.moveEntry.blockundo Sample.alice 7
  have hbob := only_owner_spends Sample.reach_issued [] Sample.moveEntry.block 2
    Sample.moveEntry.blockundo Sample.bob 7
  have hspent : spentBy [] 7 Sample.alice Sample.moveEntry.blockundo Sample.moveEntry.block =
      3 := by
    decide +kernel
  have hsent : sentTo [] 7 Sample.bob Sample.moveEntry.block = 3 := by decide +kernel
  have hissued : issuedTo 7 Sample.bob Sample.moveEntry.block = false := by decide +kernel
  have hlower := halice.1
  have hupper := hbob.2.1
  rw [hspent] at hlower
  rw [hsent, hissued] at hupper
  exact ⟨Sample.reach_issued, hlower, hupper⟩

end OpenSY.Tokens
