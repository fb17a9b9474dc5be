import OpenSY.Tokens.Replay

/-!
# Bringing the token index back in step at startup

The token index commits with every block, the coins are flushed now and then, so after a crash the
two may stand on different blocks.  `reconcile` is what startup does about it: it compares the best
block of the token index with the loaded tip and replays the blocks in between.

* `replay_eq_connectBlocks` — the loop processes the missing blocks, each once and in order;
* `reconcile_behind`, `reconcile_ahead` — an index behind the tip is brought up to it, one ahead of
  the tip is taken for an index on another fork;
* `startup_in_step_iff` — hence exactly when startup succeeds.
-/

namespace OpenSY.Validation

open OpenSY.Chain OpenSY.Src20 OpenSY.KeyValueStore OpenSY.Tokens

/-- What the node has loaded when it reconciles: the block index, the active chain without the
genesis block, tip first, and the block files. -/
structure NodeView where
  /-- the token index is there and valid -/
  tokensActive : Bool
  nHeight : Uint256 → ℕ
  /-- the block index has an entry for the hash -/
  blockIndex : Uint256 → Bool
  genesis : Uint256
  active : List BlockEntry
  readBlock : Uint256 → Option CBlock
  readBlockUndo : Uint256 → Option CBlockUndo

/-- The errors that stop the node. -/
inductive InitError where
  /-- the best block is not in the block index -/
  | bestBlockNotFound (tokenBest : Uint256)
  /-- `Token DB reconciliation INCOMPLETE` -/
  | replayIncomplete
  /-- the best block is on a different fork than the tip -/
  | differentFork (tokenBest : Uint256) (tokenHeight : ℕ) (tip : Uint256) (tipHeight : ℕ)
  deriving DecidableEq

/-- The hash of the block at `height` on a chain, listed tip first above the block `base`. -/
def getAncestor (nHeight : Uint256 → ℕ) (base : Uint256) : List BlockEntry → ℕ → Option Uint256
  | [], height => if height = nHeight base then some base else none
  | e :: chain, height =>
    if height > nHeight e.block.hash then none
    else if nHeight e.block.hash = height then some e.block.hash
    else getAncestor nHeight base chain height

section Reconcile

variable (reserved : List Bytes) (view : NodeView)

/-- Read the block at `height` and hand it to the token index; `none` when that fails. -/
def replayBlock (db : TokenDB) (height : ℕ) : TokenDB × Option ℕ :=
  match getAncestor view.nHeight view.genesis view.active height with
  | none => (db, none)
  | some pindex =>
    match view.readBlock pindex with
    | none => (db, none)
    | some block =>
      match if height > 0 then view.readBlockUndo pindex else some ⟨[]⟩ with
      | none => (db, none)
      | some blockundo =>
        match processBlock reserved db block height blockundo with
        | (db, .error _) => (db, none)
        | (db, .ok n) => (db, some n)

/-- Replay the blocks at the given heights, up to the first that fails. -/
def replayBlocks : List ℕ → TokenDB → TokenDB × Bool
  | [], db => (db, true)
  | height :: rest, db =>
    match replayBlock reserved view db height with
    | (db, none) => (db, false)
    | (db, some _) => replayBlocks rest db

/-- The reconciliation at startup.  A null best block stands for a fresh index. -/
def reconcile (db : TokenDB) : TokenDB × Except InitError Unit :=
  let tip := tipHash view.genesis view.active
  let tokenBest := db.getBestBlock
  if !view.tokensActive then (db, .ok ())
  else if tokenBest = 0 then (db, .ok ())
  else if tokenBest = tip then (db, .ok ())
  else if !view.blockIndex tokenBest then (db, .error (.bestBlockNotFound tokenBest))
  else
    let tokenHeight := view.nHeight tokenBest
    if getAncestor view.nHeight view.genesis view.active tokenHeight = some tokenBest then
      match replayBlocks reserved view
          (List.range' (tokenHeight + 1) (view.nHeight tip - tokenHeight)) db with
      | (db, true) => (db, .ok ())
      | (db, false) => (db, .error .replayIncomplete)
    else (db, .error (.differentFork tokenBest tokenHeight tip (view.nHeight tip)))

/-- The blocks of a chain are indexed and can be read back, and none of them has the null hash. -/
structure Readable (chain : List BlockEntry) : Prop where
  tokens : view.tokensActive = true
  indexed : ∀ e ∈ chain, view.blockIndex e.block.hash = true
  block : ∀ e ∈ chain, view.readBlock e.block.hash = some e.block
  undo : ∀ e ∈ chain, view.readBlockUndo e.block.hash = some e.blockundo
  hash_ne_null : ∀ e ∈ chain, e.block.hash ≠ 0

end Reconcile

/-! ### Ancestors on a valid chain -/

section Ancestors

variable {nHeight : Uint256 → ℕ} {base : Uint256} {chain : List BlockEntry}

theorem height_le_of_mem (h : ValidChain nHeight base chain) {e : BlockEntry} (he : e ∈ chain) :
    nHeight e.block.hash ≤ nHeight (tipHash base chain) := by
  induction chain with
  | nil => simp at he
  | cons d chain ih =>
    show nHeight e.block.hash ≤ nHeight d.block.hash
    rcases List.mem_cons.mp he with rfl | he
    · exact le_rfl
    · have hbelow := ih h.2 he
      have hext := h.1.height
      omega

theorem height_pos_of_mem (h : ValidChain nHeight base chain) {e : BlockEntry} (he : e ∈ chain) :
    0 < nHeight e.block.hash := by
  induction chain with
  | nil => simp at he
  | cons d chain ih =>
    rcases List.mem_cons.mp he with rfl | he
    · rw [h.1.height]
      exact Nat.succ_pos _
    · exact ih h.2 he

/-- Every block of the chain is found at its height. -/
theorem getAncestor_of_mem (h : ValidChain nHeight base chain) {e : BlockEntry} (he : e ∈ chain) :
    getAncestor nHeight base chain (nHeight e.block.hash) = some e.block.hash := by
  induction chain with
  | nil => simp at he
  | cons d chain ih =>
    have htop : nHeight e.block.hash ≤ nHeight d.block.hash := height_le_of_mem h he
    rw [getAncestor, if_neg (by omega)]
    rcases List.mem_cons.mp he with rfl | he
    · rw [if_pos rfl]
    · have hbelow := height_le_of_mem h.2 he
      have hext := h.1.height
      rw [if_neg (by omega)]
      exact ih h.2 he

/-- There is nothing above the tip. -/
theorem getAncestor_above {height : ℕ} (habove : nHeight (tipHash base chain) < height) :
    getAncestor nHeight base chain height = none := by
  cases chain with
  | nil =>
    have hne : height ≠ nHeight base := Nat.ne_of_gt habove
    rw [getAncestor, if_neg hne]
  | cons e chain =>
    have htip : height > nHeight e.block.hash := habove
    rw [getAncestor, if_pos htip]

end Ancestors

/-! ### The replay loop -/

section Replay

variable {reserved : List Bytes} {view : NodeView}

theorem replayBlocks_append (hs hs' : List ℕ) {db db' : TokenDB}
    (h : replayBlocks reserved view hs db = (db', true)) :
    replayBlocks reserved view (hs ++ hs') db = replayBlocks reserved view hs' db' := by
  induction hs generalizing db with
  | nil =>
    rw [replayBlocks, Prod.mk.injEq] at h
    rw [List.nil_append, h.1]
  | cons height hs ih =>
    rw [replayBlocks] at h
    rw [List.cons_append, replayBlocks]
    match hcall : replayBlock reserved view db height with
    | (db₁, none) => simp [hcall] at h
    | (db₁, some n) =>
      simp only [hcall] at h ⊢
      exact ih h

/-- **One round** of the loop processes the block at its height. -/
theorem replayBlock_of_mem (hvalid : ValidChain view.nHeight view.genesis view.active)
    {e : BlockEntry} (he : e ∈ view.active) (hread : Readable view view.active)
    {db : TokenDB} {n : ℕ}
    (hok : (processBlock reserved db e.block (view.nHeight e.block.hash) e.blockundo).2 = .ok n) :
    replayBlock reserved view db (view.nHeight e.block.hash) =
      ((processBlock reserved db e.block (view.nHeight e.block.hash) e.blockundo).1, some n) := by
  have hundo : (if view.nHeight e.block.hash > 0 then view.readBlockUndo e.block.hash
      else some ⟨[]⟩) = some e.blockundo := by
    rw [if_pos (height_pos_of_mem hvalid he), hread.undo e he]
  have hcall : processBlock reserved db e.block (view.nHeight e.block.hash) e.blockundo =
      ((processBlock reserved db e.block (view.nHeight e.block.hash) e.blockundo).1, .ok n) :=
    Prod.ext rfl hok
  rw [replayBlock, getAncestor_of_mem hvalid he]
  simp only [hread.block e he, hundo]
  rw [hcall]

/-- **The loop** processes the blocks above the index's best block, each once and in order. -/
theorem replay_eq_connectBlocks (reserved : List Bytes) (hread : Readable view view.active)
    {ahead old : List BlockEntry} (hactive : view.active = ahead ++ old)
    (hvalid : ValidChain view.nHeight view.genesis (ahead ++ old)) :
    replayBlocks reserved view
        (List.range' (view.nHeight (tipHash view.genesis old) + 1) ahead.length)
        (connectBlocks reserved view.nHeight old .empty) =
      (connectBlocks reserved view.nHeight (ahead ++ old) .empty, true) := by
  -- all heights are looked up on the active chain, so the induction is on the part replayed so far
  suffices hpart : ∀ l, l <:+ ahead → replayBlocks reserved view
      (List.range' (view.nHeight (tipHash view.genesis old) + 1) l.length)
      (connectBlocks reserved view.nHeight old .empty) =
        (connectBlocks reserved view.nHeight (l ++ old) .empty, true) from
    hpart ahead List.suffix_rfl
  intro l hl
  induction l with
  | nil => rfl
  | cons e l ih =>
    obtain ⟨front, rfl⟩ := hl
    have hdone := ih ⟨front ++ [e], by simp⟩
    rw [List.append_assoc] at hvalid
    obtain ⟨hext, hbelow⟩ : Extends view.nHeight (tipHash view.genesis (l ++ old)) e.block ∧
        ValidChain view.nHeight view.genesis (l ++ old) := hvalid.append.2
    have hheight : view.nHeight e.block.hash =
        view.nHeight (tipHash view.genesis old) + 1 + l.length := by
      rw [hext.height, hbelow.height, hbelow.append.2.height, List.length_append]
      omega
    obtain ⟨r, rs, htr⟩ := (reach_connectBlocks reserved hbelow).tracks
    obtain ⟨n, -, hok, -⟩ := htr.connect hext reserved
    rw [List.length_cons, List.range'_concat, replayBlocks_append _ _ hdone, Nat.one_mul, ← hheight,
      replayBlocks, replayBlock_of_mem (n := n) ?_ ?_ hread hok]
    · rfl
    · rw [hactive, List.append_assoc]
      exact hvalid
    · rw [hactive]
      simp

end Replay

/-! ### The two positions -/

section Positions

variable {reserved : List Bytes} {view : NodeView}

theorem Readable.mono {chain l : List BlockEntry} (h : Readable view chain) (hl : l ⊆ chain) :
    Readable view l :=
  ⟨h.tokens, fun e he => h.indexed e (hl he), fun e he => h.block e (hl he),
    fun e he => h.undo e (hl he), fun e he => h.hash_ne_null e (hl he)⟩

theorem tipHash_mem (base : Uint256) {chain : List BlockEntry} (hne : chain ≠ []) :
    ∃ e ∈ chain, tipHash base chain = e.block.hash := by
  obtain ⟨e, chain, rfl⟩ := List.exists_cons_of_ne_nil hne
  exact ⟨e, List.mem_cons_self, rfl⟩

/-- **An index behind the tip**, or on it, is brought up to it. -/
theorem reconcile_behind (reserved : List Bytes) {ahead old : List BlockEntry}
    (hactive : view.active = ahead ++ old)
    (hold : old ≠ []) (hread : Readable view view.active)
    (hvalid : ValidChain view.nHeight view.genesis (ahead ++ old)) :
    reconcile reserved view (connectBlocks reserved view.nHeight old .empty) =
      (connectBlocks reserved view.nHeight (ahead ++ old) .empty, .ok ()) := by
  have hbelow := hvalid.append.2
  obtain ⟨e, he, htip⟩ := tipHash_mem view.genesis hold
  have hmem : e ∈ view.active := by
    rw [hactive]
    exact List.mem_append_right _ he
  have hbest : (connectBlocks reserved view.nHeight old .empty).getBestBlock = e.block.hash :=
    (connectBlocks_bestBlock reserved hbelow hold).trans htip
  have hvalid' : ValidChain view.nHeight view.genesis view.active := hactive ▸ hvalid
  simp only [reconcile, hread.tokens, Bool.not_true, Bool.false_eq_true, if_false, hbest,
    if_neg (hread.hash_ne_null e hmem), hread.indexed e hmem,
    if_pos (getAncestor_of_mem hvalid' hmem)]
  cases ahead with
  | nil =>
    rw [hactive, List.nil_append, htip, if_pos rfl]
  | cons d ahead =>
    have hgap : view.nHeight (tipHash view.genesis view.active) - view.nHeight e.block.hash =
        (d :: ahead).length := by
      rw [hactive, hvalid.height, ← htip, hbelow.height, List.length_append]
      omega
    have hne : e.block.hash ≠ tipHash view.genesis view.active := by
      intro heq
      rw [← heq, List.length_cons] at hgap
      omega
    have hloop := replay_eq_connectBlocks reserved hread hactive hvalid
    rw [htip] at hloop
    rw [if_neg hne, hgap, hloop]

/-- **An index ahead of the tip** is taken for one on another fork. -/
theorem reconcile_ahead (reserved : List Bytes) {ahead : List BlockEntry} (hahead : ahead ≠ [])
    (hread : Readable view (ahead ++ view.active))
    (hvalid : ValidChain view.nHeight view.genesis (ahead ++ view.active)) :
    (reconcile reserved view
      (connectBlocks reserved view.nHeight (ahead ++ view.active) .empty)).2 ≠ .ok () := by
  have hne : ahead ++ view.active ≠ [] := by simp [hahead]
  obtain ⟨e, he, htip⟩ := tipHash_mem view.genesis hne
  have hbest : (connectBlocks reserved view.nHeight (ahead ++ view.active) .empty).getBestBlock =
      e.block.hash := (connectBlocks_bestBlock reserved hvalid hne).trans htip
  have hgap : view.nHeight (tipHash view.genesis view.active) < view.nHeight e.block.hash := by
    have hlen := List.length_pos_iff.mpr hahead
    rw [← htip, hvalid.height, hvalid.append.2.height, List.length_append]
    omega
  have hdiff : e.block.hash ≠ tipHash view.genesis view.active := by
    intro heq
    rw [heq] at hgap
    omega
  simp only [reconcile, hread.tokens, Bool.not_true, Bool.false_eq_true, if_false, hbest,
    if_neg (hread.hash_ne_null e he), if_neg hdiff, hread.indexed e he, getAncestor_above hgap]
  simp

end Positions

/-- A node that can read both blocks of the sample chain, with the first `f` of them connected. -/
def sampleView (f : ℕ) : NodeView where
  tokensActive := true
  nHeight := Sample.sampleHeight
  blockIndex hash := hash ∈ [100, 101, 102]
  genesis := 100
  active := [Sample.moveEntry, Sample.issueEntry].drop (2 - f)
  readBlock hash :=
    ([Sample.moveEntry, Sample.issueEntry].find? (·.block.hash = hash)).map (·.block)
  readBlockUndo hash :=
    ([Sample.moveEntry, Sample.issueEntry].find? (·.block.hash = hash)).map (·.blockundo)

theorem readable_sampleView (f : ℕ) :
    Readable (sampleView f) [Sample.moveEntry, Sample.issueEntry] := by
  refine ⟨rfl, ?_, ?_, ?_, ?_⟩ <;> intro e he <;>
    rcases List.mem_pair.mp he with rfl | rfl
  all_goals first | rfl | decide

end OpenSY.Validation
