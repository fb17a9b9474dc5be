import OpenSY.Tokens.Replay

/-!
# Chain verification and the token index

`verifyDB` walks back from the tip, checks the blocks on the way and, at level 4, connects them
again. The coins it disconnects and connects live in a scratch view, but `ConnectBlock` also hands
every block to the token index, which has no scratch copy.

What the walk finds on disk, in the coins and in memory is taken as given (`VerifyEnv`).  From it,
the level and the depth follows which blocks are connected again (`reconnected`), whatever the token
index holds.

* `verifyDB_records` — the call processes the reconnected blocks a second time and does nothing else
  to the token index;
* `verifyDB_frame_iff` — hence exactly when it leaves all token records alone.
-/

namespace OpenSY.Validation

open OpenSY.Chain OpenSY.Src20 OpenSY.KeyValueStore OpenSY.Tokens

inductive VerifyDBResult where
  | success
  | corruptedBlockDb
  | interrupted
  | skippedL3Checks
  | skippedMissingBlocks
  deriving DecidableEq

inductive DisconnectResult where
  | ok
  | unclean
  | failed
  deriving DecidableEq

/-- What verification meets outside the token index, block by block. -/
structure VerifyEnv where
  /-- the node prunes blocks or runs on a snapshot -/
  mayLackData : Bool
  haveData : BlockEntry → Bool
  readBlock : BlockEntry → Bool
  checkBlock : BlockEntry → Bool
  /-- the block has no undo position or its undo data can be read -/
  readBlockUndo : BlockEntry → Bool
  /-- the coins in memory do not exceed the cache when the block is reached -/
  coinsFit : BlockEntry → Bool
  /-- the outcome of disconnecting the block from the scratch view -/
  disconnectBlock : BlockEntry → DisconnectResult
  interruptBack : BlockEntry → Bool
  readBlockAgain : BlockEntry → Bool
  /-- the block passes everything that `ConnectBlock` checks on the scratch view -/
  connectBlock : BlockEntry → Bool
  interruptForward : BlockEntry → Bool
  /-- the token index is there and valid, and the chain state is not a background one -/
  tokensActive : Bool

/-- How far the walk back got. -/
structure WalkBack where
  walked : ℕ := 0
  failure : Bool := false
  skippedNoBlockData : Bool := false
  skippedL3Checks : Bool := false

section Verify

variable (env : VerifyEnv)

/-- Check level 3 on one block, after the block and its undo data have been read. -/
def WalkBack.checkLevel3 (w : WalkBack) (nCheckLevel : ℕ) (e : BlockEntry) :
    Except VerifyDBResult WalkBack :=
  if nCheckLevel ≥ 3 then
    if env.coinsFit e then
      match env.disconnectBlock e with
      | .failed => .error .corruptedBlockDb
      | .unclean => .ok { w with failure := true }
      | .ok => .ok w
    else .ok { w with skippedL3Checks := true }
  else .ok w

/-- Walk back over at most `n` blocks, tip first. -/
def walkBack (nCheckLevel : ℕ) : ℕ → List BlockEntry → WalkBack → Except VerifyDBResult WalkBack
  | 0, _, w => .ok w
  | _ + 1, [], w => .ok w
  | n + 1, e :: chain, w =>
    if env.mayLackData && !env.haveData e then .ok { w with skippedNoBlockData := true }
    else if !env.readBlock e then .error .corruptedBlockDb
    else if nCheckLevel ≥ 1 && !env.checkBlock e then .error .corruptedBlockDb
    else if nCheckLevel ≥ 2 && !env.readBlockUndo e then .error .corruptedBlockDb
    else
      match w.checkLevel3 env nCheckLevel e with
      | .error r => .error r
      | .ok w =>
        if env.interruptBack e then .error .interrupted
        else walkBack nCheckLevel n chain { w with walked := w.walked + 1 }

variable (reserved : List Bytes) (nHeight : Uint256 → ℕ)

/-- The part of `ConnectBlock` that reaches the token index: errors are logged there and dropped. -/
def connectTokens (db : TokenDB) (e : BlockEntry) : TokenDB :=
  if env.tokensActive then
    (processBlock reserved db e.block (nHeight e.block.hash) e.blockundo).1
  else db

/-- Connect blocks again, oldest first, up to the first that cannot be read or connected. -/
def reconnectBlocks : List BlockEntry → TokenDB → Option VerifyDBResult × TokenDB
  | [], db => (none, db)
  | e :: l, db =>
    if !env.readBlockAgain e then (some .corruptedBlockDb, db)
    else if !env.connectBlock e then (some .corruptedBlockDb, db)
    else
      let db := connectTokens env reserved nHeight db e
      if env.interruptForward e then (some .interrupted, db) else reconnectBlocks l db

/-- The verdict when nothing wrong was found. -/
def WalkBack.verdict (w : WalkBack) : VerifyDBResult :=
  if w.skippedL3Checks then .skippedL3Checks
  else if w.skippedNoBlockData then .skippedMissingBlocks
  else .success

/-- A depth that is not positive or beyond the chain stands for the whole chain. -/
def checkDepth (chain : List BlockEntry) (nCheckDepth : ℤ) : ℕ :=
  if nCheckDepth ≤ 0 ∨ nCheckDepth > chain.length then chain.length else nCheckDepth.toNat

def checkLevel (nCheckLevel : ℤ) : ℕ := (max 0 (min 4 nCheckLevel)).toNat

/-- Verify the chain: all its blocks but the genesis block, tip first. -/
def verifyDB (chain : List BlockEntry) (nCheckLevel nCheckDepth : ℤ) (db : TokenDB) :
    VerifyDBResult × TokenDB :=
  if chain.isEmpty then (.success, db)
  else
    match walkBack env (checkLevel nCheckLevel) (checkDepth chain nCheckDepth) chain {} with
    | .error r => (r, db)
    | .ok w =>
      if w.failure then (.corruptedBlockDb, db)
      else if checkLevel nCheckLevel ≥ 4 && !w.skippedL3Checks then
        match reconnectBlocks env reserved nHeight (chain.take w.walked).reverse db with
        | (some r, db) => (r, db)
        | (none, db) => (w.verdict, db)
      else (w.verdict, db)

/-! ### Which blocks are connected again -/

/-- Of blocks to be connected again, oldest first, those that are. -/
def connectable : List BlockEntry → List BlockEntry
  | [] => []
  | e :: l =>
    if env.readBlockAgain e && env.connectBlock e then
      if env.interruptForward e then [e] else e :: connectable l
    else []

/-- The walk back goes on to the block: its data are there or must be. -/
def VerifyEnv.available (e : BlockEntry) : Bool := !(env.mayLackData && !env.haveData e)

/-- The blocks within the depth, tip first, that the walk back can come to. -/
def examined (chain : List BlockEntry) (nCheckDepth : ℤ) : List BlockEntry :=
  (chain.take (checkDepth chain nCheckDepth)).takeWhile env.available

/-- Nothing is wrong with the block at any level, and nothing stops the walk back at it. -/
def VerifyEnv.clean (e : BlockEntry) : Bool :=
  env.readBlock e && env.checkBlock e && env.readBlockUndo e &&
    (env.coinsFit e && env.disconnectBlock e = .ok) && !env.interruptBack e

/-- The blocks that the token index gets to see again, tip first.  None below level 4, none while
the token index is off, and none unless all the blocks examined are clean. -/
def reconnected (chain : List BlockEntry) (nCheckLevel nCheckDepth : ℤ) : List BlockEntry :=
  if env.tokensActive && nCheckLevel ≥ 4 && (examined env chain nCheckDepth).all env.clean then
    (connectable env (examined env chain nCheckDepth).reverse).reverse
  else []

theorem connectable_prefix_of (l : List BlockEntry) : connectable env l <+: l := by
  induction l with
  | nil => exact List.prefix_rfl
  | cons e l ih =>
    unfold connectable
    split_ifs
    · exact List.prefix_cons_inj e |>.mpr (List.nil_prefix)
    · exact (List.prefix_cons_inj e).mpr ih
    · exact List.nil_prefix

/-- The blocks examined are the ones next to the tip. -/
theorem examined_eq_take (chain : List BlockEntry) (nCheckDepth : ℤ) :
    examined env chain nCheckDepth = chain.take (examined env chain nCheckDepth).length := by
  have hseen : examined env chain nCheckDepth <+: chain.take (checkDepth chain nCheckDepth) :=
    List.takeWhile_prefix _
  exact List.prefix_iff_eq_take.mp (hseen.trans <| List.take_prefix _ _)

/-- The blocks connected again are the oldest of those examined. -/
theorem reconnected_suffix (chain : List BlockEntry) (nCheckLevel nCheckDepth : ℤ) :
    ∃ n, reconnected env chain nCheckLevel nCheckDepth <:+ chain.take n := by
  refine ⟨(examined env chain nCheckDepth).length, ?_⟩
  rw [← examined_eq_take]
  unfold reconnected
  split_ifs
  · rw [← List.reverse_prefix, List.reverse_reverse]
    exact connectable_prefix_of env _
  · exact List.nil_suffix

/-! ### What the walk back finds -/

/-- Neither of the two flags is up that keep the walk from connecting blocks again. -/
def WalkBack.sound (w : WalkBack) : Bool := !w.failure && !w.skippedL3Checks

theorem checkLevel3_spec (w : WalkBack) (e : BlockEntry) :
    (∃ r, w.checkLevel3 env 4 e = .error r ∧ env.clean e = false) ∨
    ∃ w', w.checkLevel3 env 4 e = .ok w' ∧ w'.walked = w.walked ∧
      w'.sound = (w.sound && (env.coinsFit e && env.disconnectBlock e = .ok)) := by
  cases hfit : env.coinsFit e with
  | false =>
    right
    refine ⟨{ w with skippedL3Checks := true }, ?_, rfl, ?_⟩
    · simp [WalkBack.checkLevel3, hfit]
    · simp [WalkBack.sound]
  | true =>
    cases hresult : env.disconnectBlock e with
    | failed =>
      left
      refine ⟨.corruptedBlockDb, ?_, ?_⟩
      · simp [WalkBack.checkLevel3, hfit, hresult]
      · simp [VerifyEnv.clean, hresult]
    | unclean =>
      right
      refine ⟨{ w with failure := true }, ?_, rfl, ?_⟩
      · simp [WalkBack.checkLevel3, hfit, hresult]
      · simp [WalkBack.sound]
    | ok =>
      right
      refine ⟨w, ?_, rfl, ?_⟩
      · simp [WalkBack.checkLevel3, hfit, hresult]
      · simp

/-- One block of the walk at level 4: the walk ends at a block that is not clean, or goes on with
the flags that the block leaves. -/
theorem walkBack_step (n : ℕ) {e : BlockEntry} (chain : List BlockEntry) (w : WalkBack)
    (hdata : (env.mayLackData && !env.haveData e) = false) :
    (∃ r, walkBack env 4 (n + 1) (e :: chain) w = .error r ∧ env.clean e = false) ∨
    ∃ w', walkBack env 4 (n + 1) (e :: chain) w = walkBack env 4 n chain w' ∧
      w'.walked = w.walked + 1 ∧
      w'.sound = (w.sound && env.clean e) := by
  rw [walkBack, hdata]
  by_cases hread : env.readBlock e = true ∧ env.checkBlock e = true ∧ env.readBlockUndo e = true
  · obtain ⟨hread, hcheck, hundo⟩ := hread
    simp only [hread, hcheck, hundo, Bool.not_true, Bool.and_false, Bool.false_eq_true, if_false]
    obtain ⟨r, herror, hclean⟩ | ⟨w', hok, hwalked, hsound⟩ := checkLevel3_spec env w e
    · exact Or.inl ⟨r, by rw [herror], hclean⟩
    · rw [hok]
      cases hstop : env.interruptBack e with
      | true => exact Or.inl ⟨.interrupted, if_pos rfl, by simp [VerifyEnv.clean, hstop]⟩
      | false =>
        have hclean : env.clean e = (env.coinsFit e && env.disconnectBlock e = .ok) := by
          simp [VerifyEnv.clean, hread, hcheck, hundo, hstop]
        refine Or.inr ⟨{ w' with walked := w'.walked + 1 }, if_neg Bool.false_ne_true, ?_, ?_⟩
        · show w'.walked + 1 = w.walked + 1
          rw [hwalked]
        · rw [hclean]
          exact hsound
  · -- the walk ends at the first of the three checks that fails
    have hclean : env.clean e = false := by
      by_contra hclean
      simp only [VerifyEnv.clean, Bool.not_eq_false, Bool.and_eq_true] at hclean
      exact hread ⟨hclean.1.1.1.1, hclean.1.1.1.2, hclean.1.1.2⟩
    refine Or.inl ⟨.corruptedBlockDb, ?_, hclean⟩
    cases hblock : env.readBlock e <;> cases hcheck : env.checkBlock e <;>
      cases hundo : env.readBlockUndo e <;> simp_all

/-- At level 4 the walk ends without a verdict and with both flags down exactly if they were down
and all the blocks it came to are clean; it then has walked over all of these. -/
theorem walkBack_spec (n : ℕ) (chain : List BlockEntry) (w : WalkBack) :
    let seen := (chain.take n).takeWhile env.available
    (∃ r, walkBack env 4 n chain w = .error r ∧ seen.all env.clean = false) ∨
    ∃ w', walkBack env 4 n chain w = .ok w' ∧ w'.walked = w.walked + seen.length ∧
      w'.sound = (w.sound && seen.all env.clean) := by
  intro seen
  induction n generalizing chain w with
  | zero => exact Or.inr ⟨w, rfl, rfl, by simp [seen]⟩
  | succ n ih =>
    cases chain with
    | nil => exact Or.inr ⟨w, rfl, rfl, by simp [seen]⟩
    | cons e chain =>
      cases hdata : env.mayLackData && !env.haveData e with
      | true =>
        have hseen : seen = [] := by simp [seen, VerifyEnv.available, hdata]
        refine Or.inr ⟨_, if_pos hdata, ?_, ?_⟩
        · rw [hseen]
          rfl
        · rw [hseen]
          simp [WalkBack.sound]
      | false =>
        have hseen : seen = e :: (chain.take n).takeWhile env.available := by
          simp [seen, VerifyEnv.available, hdata]
        rw [hseen, List.all_cons]
        obtain ⟨r, herror, hclean⟩ | ⟨w', hnext, hwalked, hsound⟩ :=
          walkBack_step env n chain w hdata
        · exact Or.inl ⟨r, herror, by rw [hclean, Bool.false_and]⟩
        · rw [hnext]
          obtain ⟨r, herror, hrest⟩ | ⟨w'', hok, hwalked', hsound'⟩ := ih chain w'
          · exact Or.inl ⟨r, herror, by rw [hrest, Bool.and_false]⟩
          · refine Or.inr ⟨w'', hok, ?_, ?_⟩
            · rw [hwalked', hwalked, List.length_cons, Nat.add_right_comm, Nat.add_assoc]
            · rw [hsound', hsound, Bool.and_assoc]

theorem checkLevel_eq_four {nCheckLevel : ℤ} (h : 4 ≤ nCheckLevel) :
    checkLevel nCheckLevel = 4 := by
  unfold checkLevel
  omega

theorem checkLevel_lt_four {nCheckLevel : ℤ} (h : ¬ 4 ≤ nCheckLevel) :
    checkLevel nCheckLevel < 4 := by
  unfold checkLevel
  omega

theorem reconnectBlocks_snd (l : List BlockEntry) (db : TokenDB) :
    (reconnectBlocks env reserved nHeight l db).2 =
      if env.tokensActive then connectBlocks reserved nHeight (connectable env l).reverse db
      else db := by
  induction l generalizing db with
  | nil => simp [reconnectBlocks, connectable, connectBlocks]
  | cons e l ih =>
    unfold reconnectBlocks connectable
    cases hread : env.readBlockAgain e with
    | false => simp [connectBlocks]
    | true =>
      cases hconnect : env.connectBlock e with
      | false => simp [connectBlocks]
      | true =>
        cases hinterrupt : env.interruptForward e with
        | true => simp [connectTokens, connectBlocks]
        | false =>
          simp only [Bool.not_true, Bool.false_eq_true, if_false, ih, Bool.and_self, if_true,
            List.reverse_cons, connectTokens]
          split_ifs
          · simp [connectBlocks]
          · rfl

/-- What is left of the call once the walk back has ended in `w`. -/
theorem verifyDB_of_walkBack {chain : List BlockEntry} {nCheckLevel nCheckDepth : ℤ} {w : WalkBack}
    (hne : chain ≠ [])
    (hw : walkBack env (checkLevel nCheckLevel) (checkDepth chain nCheckDepth) chain {} = .ok w)
    (db : TokenDB) :
    (verifyDB env reserved nHeight chain nCheckLevel nCheckDepth db).2 =
      if w.sound && checkLevel nCheckLevel ≥ 4 then
        (reconnectBlocks env reserved nHeight (chain.take w.walked).reverse db).2
      else db := by
  have hsome : chain.isEmpty = false := by simpa using hne
  simp only [verifyDB, hsome, hw, Bool.false_eq_true, if_false]
  generalize reconnectBlocks env reserved nHeight (chain.take w.walked).reverse db = again
  by_cases hgo : (w.sound && decide (checkLevel nCheckLevel ≥ 4)) = true
  · rw [if_pos hgo]
    simp only [WalkBack.sound, Bool.and_eq_true, Bool.not_eq_true', decide_eq_true_eq] at hgo
    obtain ⟨⟨hfailure, hskipped⟩, hlevel⟩ := hgo
    obtain ⟨_ | r, db'⟩ := again <;> simp [hfailure, hskipped, hlevel]
  · rw [if_neg hgo]
    split_ifs with hfailure hagain
    · rfl
    · -- the condition of the call is the flags being down at level 4
      refine absurd ?_ hgo
      simp_all [WalkBack.sound]
    · rfl

/-- **All that verification does to the token index** is to process the reconnected blocks again. -/
theorem verifyDB_records (chain : List BlockEntry) (nCheckLevel nCheckDepth : ℤ) (db : TokenDB) :
    (verifyDB env reserved nHeight chain nCheckLevel nCheckDepth db).2 =
      connectBlocks reserved nHeight (reconnected env chain nCheckLevel nCheckDepth) db := by
  by_cases hempty : chain = []
  · -- nothing to verify, and nothing to connect
    subst hempty
    obtain ⟨n, hsuffix⟩ := reconnected_suffix env [] nCheckLevel nCheckDepth
    rw [List.take_nil, List.suffix_nil] at hsuffix
    rw [hsuffix]
    rfl
  · by_cases hlevel : 4 ≤ nCheckLevel
    · obtain ⟨r, herror, hclean⟩ | ⟨w, hok, hwalked, hsound⟩ :=
        walkBack_spec env (checkDepth chain nCheckDepth) chain {}
      · have hnone : reconnected env chain nCheckLevel nCheckDepth = [] := by
          simp [reconnected, examined, hclean]
        rw [hnone, verifyDB, checkLevel_eq_four hlevel, herror]
        simp [hempty, connectBlocks]
      · rw [← checkLevel_eq_four hlevel] at hok
        have hseen : chain.take w.walked = examined env chain nCheckDepth := by
          rw [hwalked, Nat.zero_add]
          exact (examined_eq_take env chain nCheckDepth).symm
        have hflags : w.sound = (examined env chain nCheckDepth).all env.clean := hsound
        rw [verifyDB_of_walkBack env reserved nHeight hempty hok, hseen, hflags,
          reconnectBlocks_snd, checkLevel_eq_four hlevel, reconnected]
        cases (examined env chain nCheckDepth).all env.clean <;> cases env.tokensActive <;>
          simp [hlevel, connectBlocks]
    · have hnone : reconnected env chain nCheckLevel nCheckDepth = [] := by
        simp [reconnected, hlevel]
      rw [hnone]
      cases hw : walkBack env (checkLevel nCheckLevel) (checkDepth chain nCheckDepth) chain {} with
      | error r =>
        rw [verifyDB, hw]
        simp [hempty, connectBlocks]
      | ok w =>
        have hbelow := checkLevel_lt_four hlevel
        rw [verifyDB_of_walkBack env reserved nHeight hempty hw]
        simp [hbelow.not_ge, connectBlocks]

end Verify

/-- **When chain verification leaves the token index alone.**  Let the token index be in step with
the tip.  Then all its records are the same after the call exactly if no block is connected again,
or the reconnection gets through to the tip and the blocks are just the tip block, which the guard
of `processBlock` catches, or blocks without any operation that is still applicable. -/
theorem verifyDB_frame_iff (env : VerifyEnv) (reserved : List Bytes) {nHeight : Uint256 → ℕ}
    {root : Uint256} {chain : List BlockEntry} {db : TokenDB} (h : Reach nHeight root chain db)
    (hstep : chain ≠ [] → db.records.read .bestBlock = some (tipHash root chain))
    (nCheckLevel nCheckDepth : ℤ) :
    (∀ k, (verifyDB env reserved nHeight chain nCheckLevel nCheckDepth db).2.records.read k =
      db.records.read k) ↔
    reconnected env chain nCheckLevel nCheckDepth = [] ∨
      (reconnected env chain nCheckLevel nCheckDepth).head? = chain.head? ∧
      ((reconnected env chain nCheckLevel nCheckDepth).length = 1 ∨
        ∀ e ∈ reconnected env chain nCheckLevel nCheckDepth,
          Inapplicable reserved nHeight db.records.ledger e) := by
  rw [verifyDB_records]
  obtain ⟨n, front, hfront⟩ := reconnected_suffix env chain nCheckLevel nCheckDepth
  generalize reconnected env chain nCheckLevel nCheckDepth = again at hfront
  have hchain : chain = front ++ (again ++ chain.drop n) := by
    rw [← List.append_assoc, hfront, List.take_append_drop]
  have hvalid : ValidChain nHeight root (front ++ (again ++ chain.drop n)) := by
    obtain ⟨r, rs, htr⟩ := h.tracks
    rw [← hchain]
    exact htr.valid
  have hiff := reconnect_frame_iff h.healthy reserved hvalid (by rw [← hchain]; exact hstep)
  rw [hiff]
  refine or_congr_right' fun hne => and_congr_left' ?_
  -- the tip block is among the blocks connected again only if none is left in front of them
  obtain ⟨e, again, rfl⟩ := List.exists_cons_of_ne_nil hne
  constructor
  · intro hnil
    rw [hchain, hnil]
    rfl
  · intro hhead
    by_contra hsome
    obtain ⟨e', front, rfl⟩ := List.exists_cons_of_ne_nil hsome
    rw [hchain] at hhead
    obtain rfl : e = e' := by simpa using hhead
    have hheight := hvalid.height
    have hheight' := hvalid.append.2.height
    simp only [tipHash, List.cons_append, List.length_cons, List.length_append] at hheight hheight'
    omega

open OpenSY.Tokens.Sample

namespace Sample

/-- Nothing is wrong, missing or interrupted. -/
def flawless : VerifyEnv where
  mayLackData := false
  haveData _ := true
  readBlock _ := true
  checkBlock _ := true
  readBlockUndo _ := true
  coinsFit _ := true
  disconnectBlock _ := .ok
  interruptBack _ := false
  readBlockAgain _ := true
  connectBlock _ := true
  interruptForward _ := false
  tokensActive := true

end Sample

/-- Level 4 over the tip block only, after an issuance and a transfer. -/
theorem verifyDB_frame_sample :
    Reach sampleHeight 100 [moveEntry, issueEntry] moved ∧
    moved.records.read .bestBlock = some (tipHash 100 [moveEntry, issueEntry]) ∧
    ∀ k, (verifyDB Sample.flawless [] sampleHeight [moveEntry, issueEntry] 4 1 moved).2.records.read
      k = moved.records.read k :=
  have hstep : moved.records.read .bestBlock = some (tipHash 100 [moveEntry, issueEntry]) := by
    decide +kernel
  ⟨reach_moved, hstep, (verifyDB_frame_iff Sample.flawless [] reach_moved (fun _ => hstep) 4 1).mpr
    (Or.inr ⟨rfl, Or.inl rfl⟩)⟩

/-- Level 4 over both blocks: the transfer of three units is carried out a second time. -/
theorem verifyDB_transfers_again :
    Reach sampleHeight 100 [moveEntry, issueEntry] moved ∧
    moved.records.read .bestBlock = some (tipHash 100 [moveEntry, issueEntry]) ∧
    moved.records.read (.balance bob 7) = some (3 : ℕ) ∧
    (verifyDB Sample.flawless [] sampleHeight [moveEntry, issueEntry] 4 2 moved).2.records.read
      (.balance bob 7) = some (6 : ℕ) :=
  ⟨reach_moved, by decide +kernel, by decide +kernel, by decide +kernel⟩

end OpenSY.Validation
