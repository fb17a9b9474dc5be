import OpenSY.Tokens.UndoLog

/-!
# What calls do to the token infos

The results about blocks of one chain rest on everything a sound store satisfies.  Here only the
token infos are followed, and for calls in any order: nothing is assumed of the balances, the
indexes and the undo records.

* `InfoEffect w j` — the batch `w` writes the info `j` under its own id and no other;
* `InfoView` — through the overlay one sees the infos that the batch will leave;
* `Disconnect.InfoOK` — a disconnection rewrites infos of tokens it will invalidate, and files them
  properly.
-/

namespace OpenSY.Tokens

open OpenSY.Chain OpenSY.Src20 OpenSY.KeyValueStore OpenSY.RecencyCache OpenSY.Ordered

/-! ### Properly filed infos -/

theorem Filed.self {t : TokenId} {i : TokenInfo} (h : Filed t i) : Filed i.tokenId i := ⟨rfl, h.2⟩

theorem Filed.selfTransfer {t : TokenId} {i : TokenInfo} (h : Filed t i) :
    Filed t (selfTransferInfo i) := h

theorem Filed.transfer {t : TokenId} {i : TokenInfo} (h : Filed t i) (b c n : ℕ) :
    Filed t (transferInfo b c n i) := by
  rw [transferInfo_eq]
  exact h

theorem Filed.burn {t : TokenId} {i : TokenInfo} (h : Filed t i) (b n : ℕ) :
    Filed t (burnInfo b n i) := by
  unfold burnInfo
  split_ifs <;> exact h

/-! ### The infos a batch writes -/

theorem key_write (k : Key) (v : Value k) : (BatchOp.write k v : BatchOp Value).key = k := rfl

theorem key_erase (k : Key) : (BatchOp.erase k : BatchOp Value).key = k := rfl

/-- The batch writes `j`, if there is one, and no other info. -/
def InfoEffect (w : CDBBatch) (j : Option TokenInfo) : Prop :=
  ∀ (r : Records) (t : TokenId), (r.writeBatch w).read (.tokenInfo t) =
    (j.filter fun i => i.tokenId = t).or (r.read (.tokenInfo t))

namespace InfoEffect

theorem of_keys {w : CDBBatch} (h : ∀ op ∈ w, ∀ t, op.key ≠ .tokenInfo t) : InfoEffect w none :=
  fun r t => read_writeBatch_of_forall_ne r w (.tokenInfo t) fun op hop => h op hop t

theorem write (i : TokenInfo) : InfoEffect [.write (.tokenInfo i.tokenId) i] (some i) := by
  intro r t
  rw [writeBatch_cons, writeBatch_nil, read_write_tokenInfo]
  by_cases ht : t = i.tokenId
  · simp [Option.filter, ht]
  · simp [Option.filter, ht, Ne.symm ht]

theorem append_right {w w' : CDBBatch} {j : Option TokenInfo} (h : InfoEffect w none)
    (h' : InfoEffect w' j) : InfoEffect (w ++ w') j := by
  intro r t
  rw [writeBatch_append, h', h]
  rfl

theorem append_left {w w' : CDBBatch} {j : Option TokenInfo} (h : InfoEffect w j)
    (h' : InfoEffect w' none) : InfoEffect (w ++ w') j := by
  intro r t
  rw [writeBatch_append, h', h]
  rfl

theorem infoWrite (j : Option TokenInfo) : InfoEffect (infoWrite j) j := by
  cases j with
  | none => exact .of_keys (by simp [Tokens.infoWrite])
  | some i => exact .write i

theorem transferWrite (site : OpSite) (t : TokenId) (f d : CScript) (n : ℕ) :
    InfoEffect [transferWrite site t f d n] none :=
  .of_keys (by simp [Tokens.transferWrite, BatchOp.key])

theorem issueWrites (issuance : TokenIssuance) (issuer : CScript) (site : OpSite)
    (S : Finset TokenId) :
    InfoEffect (issueWrites issuance issuer site S) (some (issueInfo issuance site)) := by
  refine append_left (.write (issueInfo issuance site)) (.of_keys ?_)
  simp [Tokens.transferWrite, BatchOp.key]

theorem selfTransferWrites (site : OpSite) (t : TokenId) (a : CScript) (n : ℕ)
    (j : Option TokenInfo) :
    InfoEffect (selfTransferWrites site t a n j) j :=
  append_right (.transferWrite site t a a n) (.infoWrite j)

theorem transferWrites (site : OpSite) (t : TokenId) (f d : CScript) (n b c : ℕ)
    (S T : Finset TokenId) (j : Option TokenInfo) :
    InfoEffect (transferWrites site t f d n b c S T j) j := by
  have hdebit : InfoEffect (debitWrites t f n b S) none := by
    refine .of_keys ?_
    unfold debitWrites
    split_ifs <;> simp [key_erase]
  have hcredit : InfoEffect (creditWrites t d n c T) none := by
    refine .of_keys ?_
    unfold creditWrites
    split_ifs <;> simp [key_write]
  exact (hdebit.append_left hcredit).append_right
    (append_right (.transferWrite site t f d n) (.infoWrite j))

theorem burnWrites (site : OpSite) (t : TokenId) (f : CScript) (n b : ℕ) (S : Finset TokenId)
    (i : TokenInfo) : InfoEffect (burnWrites site t f n b S i) (some i) := by
  have hhead : InfoEffect (writeBalanceToBatch f t (b - n) ++
      if b = n then [addrTokensWrite f (S.erase t)] else []) none := by
    refine .of_keys ?_
    unfold writeBalanceToBatch
    split_ifs <;> simp
  have hinfo : InfoEffect (writeTokenInfoToBatch i) (some i) :=
    append_left (.write i) (.of_keys (by simp [key_write]))
  exact (hhead.append_right hinfo).append_left (.transferWrite site t f [] n)

end InfoEffect

/-- A batch that files its info properly keeps the infos properly filed. -/
theorem InfoWF.effect {r : Records} (h : InfoWF r) {w : CDBBatch} {j : Option TokenInfo}
    (hw : InfoEffect w j) (hj : ∀ i, j = some i → Filed i.tokenId i) : InfoWF (r.writeBatch w) := by
  intro t i hi
  rw [hw] at hi
  cases j with
  | none => exact h t i hi
  | some k =>
    by_cases hk : k.tokenId = t
    · obtain rfl : k = i := by simpa [Option.filter, hk] using hi
      exact hk ▸ hj k rfl
    · exact h t i (by simpa [Option.filter, hk] using hi)

/-- The same for any batch, entry by entry. -/
theorem InfoWF.writeBatch {r : Records} (h : InfoWF r) {w : CDBBatch}
    (hw : ∀ t i, BatchOp.write (.tokenInfo t) i ∈ w → Filed t i) : InfoWF (r.writeBatch w) := by
  induction w generalizing r with
  | nil => exact h
  | cons op w ih =>
    refine ih ?_ fun t i hmem => hw t i (List.mem_cons_of_mem _ hmem)
    intro t i hi
    by_cases hkey : op.key = .tokenInfo t
    · cases op with
      | erase k =>
        obtain rfl : k = .tokenInfo t := hkey
        rw [read_erase_self] at hi
        cases hi
      | write k v =>
        obtain rfl : k = .tokenInfo t := hkey
        rw [read_write_self] at hi
        exact Option.some.inj hi ▸ hw t v List.mem_cons_self
    · rw [read_applyOp_of_ne r op hkey] at hi
      exact h t i hi

/-! ### Lookups -/

/-- `db` after at most one lookup of a token info. -/
inductive Looks (db : TokenDB) : TokenDB → Prop
  | none : Looks db db
  | read (t : TokenId) : Looks db (db.readTokenInfo t).2

theorem Looks.spec {db db' : TokenDB} (h : Looks db db') (hc : CacheCoherent db) :
    SameData db db' ∧ CacheCoherent db' := by
  cases h with
  | none => exact ⟨.refl db, hc⟩
  | read t => exact readTokenInfo_snd hc t

theorem opTokenInfo_looks (db : TokenDB) (overlay : Option BalanceOverlay) (t : TokenId) :
    Looks db (opTokenInfo db overlay t).2 := by
  unfold opTokenInfo getTokenInfoWithOverlay
  split
  · split
    · exact .none
    · exact .read t
  · exact .read t

/-- Infos found by an operation are properly filed. -/
theorem opTokenInfo_filed {db : TokenDB} (hc : CacheCoherent db) (hw : InfoWF db.records)
    {overlay : Option BalanceOverlay}
    (ho : ∀ o, overlay = some o → ∀ t i, o.tokenInfos.find t = some i → Filed t i) {t : TokenId}
    {i : TokenInfo} (h : (opTokenInfo db overlay t).1 = some i) : Filed t i := by
  have hdb : (db.readTokenInfo t).1 = some i → Filed t i := by
    intro hread
    rw [readTokenInfo_fst hc hw] at hread
    exact hw t i hread
  cases overlay with
  | none => exact hdb h
  | some o =>
    simp only [opTokenInfo, getTokenInfoWithOverlay] at h
    cases hfind : o.tokenInfos.find t with
    | none =>
      rw [hfind] at h
      exact hdb h
    | some k =>
      rw [hfind] at h
      obtain rfl : k = i := Option.some.inj h
      exact ho o rfl t k hfind

/-! ### A block in progress -/

/-- Through the overlay one sees the infos that the batch will leave. -/
structure InfoView (base : Records) (batch : CDBBatch) (o : BalanceOverlay) : Prop where
  view : ∀ t, (base.writeBatch batch).read (.tokenInfo t) =
    (o.tokenInfos.find t).or (base.read (.tokenInfo t))
  filed : ∀ t i, o.tokenInfos.find t = some i → Filed t i

theorem infoView_empty (base : Records) : InfoView base [] .empty where
  view := fun t => by simp [BalanceOverlay.empty]
  filed := fun t i h => by simp [BalanceOverlay.empty] at h

namespace InfoView

variable {base : Records} {batch : CDBBatch} {o o' : BalanceOverlay}

/-- Writes that are no infos. -/
theorem other (h : InfoView base batch o) {w : CDBBatch} (hw : InfoEffect w none)
    (ho : o'.tokenInfos = o.tokenInfos) : InfoView base (batch ++ w) o' := by
  refine ⟨fun t => ?_, fun t i hi => h.filed t i (ho ▸ hi)⟩
  rw [writeBatch_append, hw, ho]
  exact h.view t

/-- An info is written and entered in the overlay. -/
theorem record (h : InfoView base batch o) {w : CDBBatch} {t : TokenId} {i : TokenInfo}
    (hw : InfoEffect w (some i)) (hi : Filed t i) (ho : o'.tokenInfos = o.tokenInfos.insert t i) :
    InfoView base (batch ++ w) o' := by
  obtain rfl := hi.1
  refine ⟨fun t' => ?_, fun t' i' hfind => ?_⟩
  · rw [writeBatch_append, hw, ho]
    by_cases ht : t' = i.tokenId
    · simp [Option.filter, ht]
    · rw [OrderedMap.find_insert_of_ne _ _ ht, ← h.view t']
      simp [Option.filter, Ne.symm ht]
  · rw [ho] at hfind
    by_cases ht : t' = i.tokenId
    · subst ht
      rw [OrderedMap.find_insert_self] at hfind
      exact Option.some.inj hfind ▸ hi
    · rw [OrderedMap.find_insert_of_ne _ _ ht] at hfind
      exact h.filed t' i' hfind

/-- The info of a move, which may be missing. -/
theorem move (h : InfoView base batch o) {w : CDBBatch} {t : TokenId} {j : Option TokenInfo}
    (hw : InfoEffect w j) (hj : ∀ i, j = some i → Filed t i) (ho : o'.tokenInfos = o.tokenInfos) :
    InfoView base (batch ++ w) (infoOverlay t j o') := by
  cases j with
  | none => exact h.other hw ho
  | some i =>
    refine h.record hw (hj i rfl) ?_
    rw [infoOverlay, setTokenInfoInOverlay, ho]

end InfoView

theorem senderOverlay_tokenInfos (t : TokenId) (f : CScript) (n b : ℕ) (S : Finset TokenId)
    (o : BalanceOverlay) : (senderOverlay t f n b S o).tokenInfos = o.tokenInfos := by
  unfold senderOverlay
  split_ifs <;> rfl

theorem recipientOverlay_tokenInfos (t : TokenId) (d : CScript) (n b : ℕ) (S : Finset TokenId)
    (o : BalanceOverlay) : (recipientOverlay t d n b S o).tokenInfos = o.tokenInfos := by
  unfold recipientOverlay
  split_ifs <;> rfl

section Calls

variable {base : Records} {p : PendingBlock} {db : TokenDB} (h : InfoView base p.batch p.overlay)
  (hc : CacheCoherent db) (hw : InfoWF db.records)

include h

/-- An issuance. -/
theorem registerToken_view {issuance : TokenIssuance} {issuer : CScript}
    (hop : (TokenOp.issue issuance issuer).WellFormed) (site : OpSite) :
    let call := registerToken db issuance issuer site (some p.batch) (some p.overlay)
    InfoView base (p.after call).batch (p.after call).overlay ∧ call.db = db := by
  simp only [registerToken]
  split_ifs
  · exact ⟨h, rfl⟩
  · exact ⟨h, rfl⟩
  · exact ⟨h, rfl⟩
  · exact ⟨h.record (.issueWrites issuance issuer site _) ⟨rfl, hop.1, hop.2.1⟩ rfl, rfl⟩

include hc hw

theorem transferTokens_view (t : TokenId) (f d : CScript) (n : ℕ) (site : OpSite) :
    let call := transferTokens db t f d n site (some p.batch) (some p.overlay)
    InfoView base (p.after call).batch (p.after call).overlay ∧ Looks db call.db := by
  have hfiled : ∀ g : TokenInfo → TokenInfo, (∀ i, Filed t i → Filed t (g i)) → ∀ i,
      (opTokenInfo db (some p.overlay) t).1.map g = some i → Filed t i := by
    intro g hg i hi
    obtain ⟨k, hk, rfl⟩ := Option.map_eq_some_iff.mp hi
    exact hg k (opTokenInfo_filed hc hw (fun o ho => Option.some.inj ho ▸ h.filed) hk)
  simp only [transferTokens]
  split_ifs
  · exact ⟨h, .none⟩
  · exact ⟨h, .none⟩
  · exact ⟨h.move (.selfTransferWrites site t f n _) (hfiled _ fun i hi => hi.selfTransfer) rfl,
      opTokenInfo_looks db _ t⟩
  · exact ⟨h, .none⟩
  · split
    · exact ⟨h, .none⟩
    · rw [opTokenInfo_accounts]
      refine ⟨h.move (.transferWrites site t f d n _ _ _ _ _) (hfiled _ fun i hi =>
        hi.transfer _ _ n) ?_, opTokenInfo_looks db _ t⟩
      rw [recipientOverlay_tokenInfos, senderOverlay_tokenInfos]

theorem burnTokens_view (t : TokenId) (f : CScript) (n : ℕ) (site : OpSite) :
    let call := burnTokens db t f n site (some p.batch) (some p.overlay)
    InfoView base (p.after call).batch (p.after call).overlay ∧ Looks db call.db := by
  simp only [burnTokens]
  split_ifs
  · exact ⟨h, .none⟩
  · cases hread : (opTokenInfo db (some p.overlay) t).1 with
    | none => exact ⟨h, opTokenInfo_looks db _ t⟩
    | some i =>
      have hi : Filed t i :=
        opTokenInfo_filed hc hw (fun o ho => Option.some.inj ho ▸ h.filed) hread
      dsimp only
      split_ifs
      · exact ⟨h, opTokenInfo_looks db _ t⟩
      · refine ⟨h.record (.burnWrites site t f n _ _ _) (hi.burn _ n) ?_, opTokenInfo_looks db _ t⟩
        exact congrArg (OrderedMap.insert · t _) (senderOverlay_tokenInfos t f n _ _ p.overlay)

end Calls

/-! ### A disconnection in progress -/

namespace Disconnect

/-- Infos are written or erased only for tokens of `ids`, and those in the batch and in the overlay
are properly filed. -/
structure InfoOK (ids : List TokenId) (s : Disconnect) : Prop where
  keys : ∀ op ∈ s.batch, ∀ t, op.key = .tokenInfo t → t ∈ ids
  written : ∀ t i, BatchOp.write (.tokenInfo t) i ∈ s.batch → Filed t i
  overlay : ∀ t i, s.disconnectInfoOverlay.lookup t = some i → Filed t i

variable {ids : List TokenId} {s : Disconnect}

theorem InfoOK.mono (h : InfoOK ids s) {ids' : List TokenId} (hids : ids ⊆ ids') : InfoOK ids' s :=
  ⟨fun op hop t ht => hids (h.keys op hop t ht), h.written, h.overlay⟩

theorem InfoOK.emit (h : InfoOK ids s) {w : CDBBatch}
    (hkeys : ∀ op ∈ w, ∀ t, op.key = .tokenInfo t → t ∈ ids)
    (hwritten : ∀ t i, BatchOp.write (.tokenInfo t) i ∈ w → Filed t i) : InfoOK ids (s.emit w) := by
  refine ⟨fun op hop => ?_, fun t i hmem => ?_, h.overlay⟩
  · rcases List.mem_append.mp hop with hop | hop
    · exact h.keys op hop
    · exact hkeys op hop
  · rcases List.mem_append.mp hmem with hmem | hmem
    · exact h.written t i hmem
    · exact hwritten t i hmem

/-- Writes that are no infos. -/
theorem InfoOK.emit_other (h : InfoOK ids s) {w : CDBBatch}
    (hw : ∀ op ∈ w, ∀ t, op.key ≠ .tokenInfo t) :
    InfoOK ids (s.emit w) :=
  h.emit (fun op hop t ht => absurd ht (hw op hop t)) fun t _ hmem => absurd rfl (hw _ hmem t)

theorem InfoOK.addAddrToken (h : InfoOK ids s) (a : CScript) (t : TokenId) :
    InfoOK ids (s.addAddrToken a t) := by
  have hwrite :=
      h.emit_other (w := [.write (.addrTokens a) (insert t (s.getAddrTokensForDisconnect a))])
    (by simp [key_write])
  exact ⟨hwrite.keys, hwrite.written, hwrite.overlay⟩

theorem InfoOK.removeAddrToken (h : InfoOK ids s) (a : CScript) (t : TokenId) :
    InfoOK ids (s.removeAddrToken a t) := by
  have hwrite :=
      h.emit_other (w := [addrTokensWrite a ((s.getAddrTokensForDisconnect a).erase t)]) (by simp)
  exact ⟨hwrite.keys, hwrite.written, hwrite.overlay⟩

theorem InfoOK.writeBalance (h : InfoOK ids s) (a : CScript) (t : TokenId) (v : ℕ) :
    InfoOK ids (s.emit (writeBalanceToBatch a t v)) :=
  h.emit_other (by simp [writeBalanceToBatch])

theorem InfoOK.erase_other (h : InfoOK ids s) {k : Key} (hk : ∀ t, k ≠ .tokenInfo t) :
    InfoOK ids (s.emit [.erase k]) := by
  refine h.emit_other fun op hop t => ?_
  rw [List.mem_singleton.mp hop, key_erase]
  exact hk t

theorem InfoOK.eraseTransfer (h : InfoOK ids s) (t : TokenId) (height : ℕ) (txid : Uint256)
    (opIdx : ℕ) :
    InfoOK ids (s.eraseTransfer t height txid opIdx) :=
  h.erase_other nofun

theorem getInfoForDisconnect_looks (s : Disconnect) (t : TokenId) :
    Looks s.db (s.getInfoForDisconnect t).2.db := by
  unfold getInfoForDisconnect
  split
  · exact .none
  · exact .read t

theorem restoreInfo_looks (s : Disconnect) (t : TokenId) (g : TokenInfo → TokenInfo) :
    Looks s.db (s.restoreInfo t g).db := by
  have hget := getInfoForDisconnect_looks s t
  simp only [restoreInfo]
  split <;> exact hget

theorem InfoOK.getInfo (h : InfoOK ids s) (hc : CacheCoherent s.db) (hw : InfoWF s.db.records)
    (t : TokenId) :
    InfoOK ids (s.getInfoForDisconnect t).2 ∧
      ∀ i, (s.getInfoForDisconnect t).1 = some i → Filed t i := by
  unfold getInfoForDisconnect
  cases hlook : s.disconnectInfoOverlay.lookup t with
  | some k => exact ⟨h, fun i hi => Option.some.inj hi ▸ h.overlay t k hlook⟩
  | none =>
    refine ⟨⟨h.keys, h.written, h.overlay⟩, fun i hi => ?_⟩
    rw [show (s.db.getTokenInfo t).1 = _ from readTokenInfo_fst hc hw t] at hi
    exact hw t i hi

theorem InfoOK.restoreInfo (h : InfoOK ids s) (hc : CacheCoherent s.db) (hw : InfoWF s.db.records)
    {t : TokenId} (ht : t ∈ ids) {g : TokenInfo → TokenInfo} (hg : ∀ i, Filed t i → Filed t (g i)) :
    InfoOK ids (s.restoreInfo t g) := by
  obtain ⟨hok, hfiled⟩ := h.getInfo hc hw t
  simp only [Disconnect.restoreInfo]
  split
  · exact hok
  · rename_i i hi
    have hgi : Filed t (g i) := hg i (hfiled i hi)
    have hemit : InfoOK ids ((s.getInfoForDisconnect t).2.emit (writeTokenInfoToBatch (g i))) := by
      refine hok.emit ?_ ?_
      · simp [writeTokenInfoToBatch, key_write, hgi.1, ht]
      · intro t' i' hmem
        simp only [writeTokenInfoToBatch, List.mem_cons, List.not_mem_nil, or_false, reduceCtorEq,
          BatchOp.write.injEq, Key.tokenInfo.injEq, false_and] at hmem
        obtain ⟨rfl, hi'⟩ := hmem
        exact eq_of_heq hi' ▸ hgi.self
    refine ⟨hemit.keys, hemit.written, fun t' i' hlook => ?_⟩
    by_cases ht' : t' = t
    · subst ht'
      rw [Finmap.lookup_insert] at hlook
      exact Option.some.inj hlook ▸ hgi
    · rw [Finmap.lookup_insert_of_ne _ ht'] at hlook
      exact hemit.overlay t' i' hlook

/-- The sender of an undone move. -/
def restoreSender (s : Disconnect) (undo : TokenUndoRecord) : Disconnect :=
  let s := s.emit (writeBalanceToBatch undo.fromAddress undo.tokenId undo.prevFromBalance)
  if undo.prevFromBalance = undo.amount && !undo.fromAddress.isEmpty then
    s.addAddrToken undo.fromAddress undo.tokenId
  else s

/-- The recipient of an undone transfer. -/
def restoreRecipient (s : Disconnect) (undo : TokenUndoRecord) : Disconnect :=
  let s := s.emit (writeBalanceToBatch undo.toAddress undo.tokenId undo.prevToBalance)
  if undo.prevToBalance = 0 && !undo.toAddress.isEmpty then
    s.removeAddrToken undo.toAddress undo.tokenId
  else s

theorem restoreSender_db (s : Disconnect) (undo : TokenUndoRecord) :
    (s.restoreSender undo).db = s.db := by
  simp only [restoreSender]
  split_ifs <;> rfl

theorem restoreRecipient_db (s : Disconnect) (undo : TokenUndoRecord) :
    (s.restoreRecipient undo).db = s.db := by
  simp only [restoreRecipient]
  split_ifs <;> rfl

theorem InfoOK.restoreSender (h : InfoOK ids s) (undo : TokenUndoRecord) :
    InfoOK ids (s.restoreSender undo) := by
  simp only [Disconnect.restoreSender]
  split_ifs
  · exact (h.writeBalance _ _ _).addAddrToken _ _
  · exact h.writeBalance _ _ _

theorem InfoOK.restoreRecipient (h : InfoOK ids s) (undo : TokenUndoRecord) :
    InfoOK ids (s.restoreRecipient undo) := by
  simp only [Disconnect.restoreRecipient]
  split_ifs
  · exact (h.writeBalance _ _ _).removeAddrToken _ _
  · exact h.writeBalance _ _ _

/-- Restore the info and forget the transfer record. -/
theorem InfoOK.restored (h : InfoOK ids s) (hc : CacheCoherent s.db) (hw : InfoWF s.db.records)
    {t : TokenId} (ht : t ∈ ids) {g : TokenInfo → TokenInfo} (hg : ∀ i, Filed t i → Filed t (g i))
    (height : ℕ) (txid : Uint256) (opIdx : ℕ) :
    InfoOK ids ((s.restoreInfo t g).eraseTransfer t height txid opIdx) ∧
      Looks s.db ((s.restoreInfo t g).eraseTransfer t height txid opIdx).db :=
  ⟨(h.restoreInfo hc hw ht hg).eraseTransfer t height txid opIdx, restoreInfo_looks s t g⟩

theorem InfoOK.undoIssue (h : InfoOK ids s) {undo : TokenUndoRecord} (ht : undo.tokenId ∈ ids)
    (height : ℕ) (txid : Uint256) (opIdx : ℕ) :
    InfoOK ids (s.undoIssue height txid opIdx undo) ∧
      Looks s.db (s.undoIssue height txid opIdx undo).db := by
  have herased :
      InfoOK ids (s.emit [.erase (.tokenInfo undo.tokenId), .erase (.ticker undo.ticker)]) :=
    h.emit (by simp [key_erase, ht]) (by simp)
  have hcounted : InfoOK ids { (s.emit [.erase (.tokenInfo undo.tokenId),
      .erase (.ticker undo.ticker)]).invalidate undo.tokenId with issueUndoCount :=
        s.issueUndoCount + 1 } :=
    ⟨herased.keys, herased.written, herased.overlay⟩
  have hclosed := (hcounted.emit_other (w := [.erase (.balance undo.fromAddress undo.tokenId),
    .erase (.tokenHolders undo.tokenId undo.fromAddress)]) (by simp [key_erase])).removeAddrToken
      undo.fromAddress undo.tokenId
  simp only [Disconnect.undoIssue]
  split_ifs
  · exact ⟨hcounted.eraseTransfer undo.tokenId height txid opIdx, .none⟩
  · exact ⟨hclosed.eraseTransfer undo.tokenId height txid opIdx, .none⟩

/-- **Undoing an operation** touches the info of a token it notes for invalidation, and looks one
info up at most. -/
theorem InfoOK.undoOp (h : InfoOK s.tokensToInvalidate s) (hc : CacheCoherent s.db)
    (hw : InfoWF s.db.records) (height : ℕ) (txid : Uint256) (opIdx : ℕ) (undo : TokenUndoRecord) :
    InfoOK (s.undoOp height txid opIdx undo).tokensToInvalidate (s.undoOp height txid opIdx undo) ∧
      Looks s.db (s.undoOp height txid opIdx undo).db := by
  have htokens : (s.undoOp height txid opIdx undo).tokensToInvalidate = s.tokensToInvalidate ++
      [undo.tokenId] :=
    undoEntry_tokensToInvalidate s (⟨txid, height, 0, opIdx⟩, undo)
  have hmore : InfoOK (s.tokensToInvalidate ++ [undo.tokenId]) s :=
    h.mono (List.subset_append_left _ _)
  have ht : undo.tokenId ∈ s.tokensToInvalidate ++ [undo.tokenId] := by simp
  -- the undo record goes last, whatever the operation
  have hlast : ∀ s' : Disconnect,
      s.undoOp height txid opIdx undo = s'.emit [.erase (.undo height txid opIdx)] →
      InfoOK (s.tokensToInvalidate ++ [undo.tokenId]) s' → Looks s.db s'.db →
      InfoOK (s.undoOp height txid opIdx undo).tokensToInvalidate
        (s.undoOp height txid opIdx undo) ∧
        Looks s.db (s.undoOp height txid opIdx undo).db := by
    intro s' heq hok hlooks
    rw [htokens, heq]
    exact ⟨hok.erase_other nofun, hlooks⟩
  cases htype : undo.opType with
  | issue =>
    obtain ⟨hok, hlooks⟩ := hmore.undoIssue ht height txid opIdx
    exact hlast (s.undoIssue height txid opIdx undo) (by simp only [Disconnect.undoOp, htype])
      hok hlooks
  | transfer =>
    have hdb : ((s.restoreSender undo).restoreRecipient undo).db = s.db :=
      (restoreRecipient_db _ undo).trans (restoreSender_db s undo)
    obtain ⟨hok, hlooks⟩ :=
      ((hmore.restoreSender undo).restoreRecipient undo).restored (hdb ▸ hc) (hdb ▸ hw) ht
        (g := untransferInfo undo) (fun i hi => hi) height txid opIdx
    exact hlast (s.undoTransfer height txid opIdx undo) (by simp only [Disconnect.undoOp, htype])
      ⟨hok.keys, hok.written, hok.overlay⟩ (hdb ▸ hlooks)
  | burn =>
    have hdb : (s.restoreSender undo).db = s.db := restoreSender_db s undo
    obtain ⟨hok, hlooks⟩ := (hmore.restoreSender undo).restored (hdb ▸ hc) (hdb ▸ hw) ht
      (g := unburnInfo undo) (fun i hi => hi) height txid opIdx
    exact hlast (s.undoBurn height txid opIdx undo) (by simp only [Disconnect.undoOp, htype])
      ⟨hok.keys, hok.written, hok.overlay⟩ (hdb ▸ hlooks)

end Disconnect

end OpenSY.Tokens
