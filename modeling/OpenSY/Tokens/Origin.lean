import OpenSY.Tokens.Ownership

/-!
# Where tokens come from

The id of a token is the txid of its issuance.  A block registers tokens under the txids of its own
transactions only (`processBlock_registers`), and a disconnected block takes its tokens away again,
so every token of a database that a node can reach was issued by a transaction of its chain
(`Reach.issued`).
-/

namespace OpenSY.Tokens

open OpenSY.Chain OpenSY.Src20 OpenSY.KeyValueStore

/-- A token that is there after an operation was there before, or has the txid of the operation. -/
theorem Ledger.apply_registers {L : Ledger} {site : OpSite} {op : TokenOp} {t : TokenId}
    (h : (L.apply site op).info t ≠ none) : L.info t ≠ none ∨ site.txid = t := by
  by_cases ht : t = op.token site
  · rw [Ledger.apply_info, ht, Function.update_self] at h
    cases op with
    | issue issuance issuer => exact Or.inr ht.symm
    | transfer t' f d n =>
      rw [ht]
      exact Or.inl fun hnone => h (Option.map_eq_none_iff.mpr hnone)
    | burn t' f n =>
      rw [ht]
      exact Or.inl fun hnone => h (Option.map_eq_none_iff.mpr hnone)
  · rw [Ledger.apply_info, Function.update_of_ne ht] at h
    exact Or.inl h

theorem Applied.registers {r r' : Records} {log : OpLog} (happ : Applied r log r')
    (hs : StoreSound r) {t : TokenId} (h : r'.info t ≠ none) :
    r.info t ≠ none ∨ ∃ e ∈ log, e.1.txid = t := by
  induction happ with
  | nil r => exact Or.inl h
  | @cons r r' site op w log hop hw _ ih =>
    rcases ih (storeSound_step hs hop hw _) h with hstep | ⟨e, he, htxid⟩
    · have hledger : (r.ledger.apply site op).info t ≠ none := by
        rw [← ledger_step hs hop hw (undoOf r site op)]
        exact hstep
      refine (Ledger.apply_registers hledger).imp id fun htxid => ?_
      exact ⟨_, List.mem_cons_self, htxid⟩
    · exact Or.inr ⟨e, List.mem_cons_of_mem _ he, htxid⟩

/-- **A block registers tokens under the txids of its own transactions.** -/
theorem Healthy.processBlock_registers {db : TokenDB} (h : Healthy db) (reserved : List Bytes)
    (block : CBlock) (height : ℕ) (blockundo : CBlockUndo) {t : TokenId}
    (ht : (processBlock reserved db block height blockundo).1.records.info t ≠ none) :
    db.records.info t ≠ none ∨ t ∈ block.vtx.map CTransaction.hash := by
  by_cases hbest : db.getBestBlock = block.hash
  · rw [processBlock_again reserved hbest] at ht
    exact Or.inl ht
  · obtain ⟨groups, hsub, -, happ, -, -⟩ :=
      walkBlock_log_aux reserved height block.getBlockTime blockundo block.vtx.zipIdx
      { state := db.records }
    have hledger := h.process_ledger reserved hbest height blockundo
    have hinfo : (walkBlock plainOp reserved height block blockundo db.records).state.info t ≠
        none := by
      have hsame := congrArg (fun L : Ledger => L.info t) hledger
      exact fun hnone => ht (hsame.trans hnone)
    refine (happ.registers h.sound hinfo).imp id fun ⟨e, he, htxid⟩ => ?_
    obtain ⟨-, g, hg, hgroup, -⟩ := mem_keys_blockLog (List.mem_map_of_mem he)
    have hmem := hsub.subset (List.mem_map_of_mem hg)
    obtain ⟨p, hp, hhash⟩ := List.mem_map.mp hmem
    rw [← htxid, show e.1.txid = g.1 from hgroup, ← hhash]
    exact List.mem_map_of_mem (List.fst_mem_of_mem_zipIdx hp)

/-- The tokens of every store on the stack are issued by transactions of the blocks below. -/
def IssuedIn : List BlockEntry → Records → List Records → Prop
  | [], r, _ => ∀ t, r.info t = none
  | _ :: _, _, [] => False
  | e :: chain, r', r :: rs =>
    (∀ t, r'.info t ≠ none → r.info t ≠ none ∨ t ∈ e.block.vtx.map CTransaction.hash) ∧
      IssuedIn chain r rs

theorem IssuedIn.exists {chain : List BlockEntry} {r : Records} {rs : List Records}
    (h : IssuedIn chain r rs) {t : TokenId} (ht : r.info t ≠ none) :
    ∃ e ∈ chain, t ∈ e.block.vtx.map CTransaction.hash := by
  induction chain generalizing r rs with
  | nil => exact absurd (h t) ht
  | cons e chain ih =>
    cases rs with
    | nil => exact h.elim
    | cons r₁ rs₁ =>
      rcases h.1 t ht with hbelow | hhere
      · obtain ⟨e', he', ht'⟩ := ih h.2 hbelow
        exact ⟨e', List.mem_cons_of_mem e he', ht'⟩
      · exact ⟨e, List.mem_cons_self, hhere⟩

section Run

variable {nHeight : Uint256 → ℕ} {root : Uint256} {chain : List BlockEntry} {db : TokenDB}

theorem Tracks.healthy {r : Records} {rs : List Records}
    (h : Tracks nHeight root chain db r rs) : Healthy db :=
  ⟨h.cache, h.storeSound, h.writable⟩

theorem Tracks.info {r : Records} {rs : List Records} (h : Tracks nHeight root chain db r rs)
    (t : TokenId) :
    db.records.info t = r.info t :=
  congrArg (fun L : Ledger => L.info t) h.ledger

/-- **A run keeps the stack**, with the tokens of each store issued below it. -/
theorem Run.issuedIn {allowed : TokenDB → BlockEntry → Prop}
    (h : Run nHeight allowed root TokenDB.empty chain db) :
    ∃ (r : Records) (rs : List Records), Tracks nHeight root chain db r rs ∧
      IssuedIn chain r rs := by
  induction h with
  | start => exact ⟨∅, [], tracks_empty nHeight root, fun t => read_empty _⟩
  | @connect chain db db' e n _ hext reserved fails hcall ih =>
    obtain ⟨r, rs, htr, hissued⟩ := ih
    obtain ⟨m, r', -, htr'⟩ := htr.connect hext reserved
    have hregisters : ∀ t, r'.info t ≠ none → r.info t ≠ none ∨
        t ∈ e.block.vtx.map CTransaction.hash := by
      intro t ht
      rw [← htr'.info] at ht
      rw [← htr.info]
      exact htr.healthy.processBlock_registers reserved e.block (nHeight e.block.hash)
        e.blockundo ht
    rw [htr.connectDone hext hcall] at htr'
    exact ⟨r', r :: rs, htr', hregisters, hissued⟩
  | @connectFailed chain db db' e err _ reserved fails hcall ih =>
    obtain ⟨r, rs, htr, hissued⟩ := ih
    obtain ⟨hdata, hcache⟩ := htr.connectFailed hcall
    exact ⟨r, rs, htr.of_sameData hdata hcache, hissued⟩
  | @disconnect chain db db' e _ _ fails hcall ih =>
    obtain ⟨r', rs', htr, hissued⟩ := ih
    cases rs' with
    | nil => exact hissued.elim
    | cons r rs => exact ⟨r, rs, htr.disconnectDone hcall, hissued.2⟩
  | @disconnectFailed chain db db' e _ fails hcall ih =>
    obtain ⟨r, rs, htr, hissued⟩ := ih
    exact ⟨r, rs, (htr.disconnectFailed hcall).2, hissued⟩
  | @lookup chain db _ t ih =>
    obtain ⟨r, rs, htr, hissued⟩ := ih
    exact ⟨r, rs, htr.lookup t, hissued⟩

/-- **Every token was issued by a transaction of the chain.** -/
theorem Reach.issued (h : Reach nHeight root chain db) {t : TokenId}
    (ht : db.records.info t ≠ none) :
    ∃ e ∈ chain, t ∈ e.block.vtx.map CTransaction.hash := by
  obtain ⟨r, rs, htr, hissued⟩ := h.issuedIn
  rw [htr.info] at ht
  exact hissued.exists ht

end Run

end OpenSY.Tokens
