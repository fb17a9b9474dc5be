import OpenSY.Mempool.Limits
import OpenSY.Lib.SlidingWindow

/-!
# The rate limit per address

`AddTransaction` notes the time of every transaction it records, and refuses a sender with
`maxOpsPerAddressPerWindow` notes in the last `rateLimitWindowSeconds`.  The notes are trimmed in
three places: when one is added, when one is looked up, and by the periodic sweep.  `Kept` says that
the trimming never loses a note that still counts, as long as the clock does not go back.

There is one note for each transaction, whatever it carries.  So the limit holds for transactions in
every window, and for operations where no transaction carries more than one
(`rate_limit_in_windows`).
-/

namespace OpenSY.Mempool

open OpenSY.Chain OpenSY.Src20 OpenSY.Tokens OpenSY.Transition OpenSY.SlidingWindow
  MempoolTokenState

variable {reserved : List Bytes}

/-! ### Calls and what they accept -/

/-- A call of the pending state; additions and sweeps read the clock. -/
inductive LimiterCall where
  | add (now : ℤ) (tx : CTransaction) (sender : CScript)
  | remove (txid : Uint256)
  | clear
  | prune (now : ℤ)

def LimiterCall.now : LimiterCall → Option ℤ
  | .add now _ _ => some now
  | .prune now => some now
  | _ => none

/-- A token transaction that was recorded. -/
structure Accepted where
  time : ℤ
  sender : CScript
  ops : ℕ
  deriving DecidableEq

/-- The pending state with a log of what it has accepted, and the latest time read. -/
structure Limiter where
  st : MempoolTokenState
  log : List Accepted
  clock : ℤ

def Limiter.start (clock : ℤ) : Limiter := ⟨empty, [], clock⟩

/-- Whether a call records its transaction. -/
def Limiter.records (reserved : List Bytes) (s : Limiter) (now : ℤ) (tx : CTransaction)
    (sender : CScript) : Bool :=
  (addTransaction reserved s.st now tx sender).2 ∧ parseTransactionSRC20 reserved tx ≠ [] ∧
    s.st.mTxOps.lookup tx.hash = none

def Limiter.step (reserved : List Bytes) (s : Limiter) : LimiterCall → Limiter
  | .add now tx sender =>
    ⟨(addTransaction reserved s.st now tx sender).1,
      if s.records reserved now tx sender then
        s.log ++ [⟨now, sender, (parseTransactionSRC20 reserved tx).length⟩]
      else s.log, now⟩
  | .remove txid => { s with st := s.st.removeTransaction txid }
  | .clear => { s with st := s.st.clear }
  | .prune now => { s with st := (s.st.pruneStaleRateLimitEntries now).1, clock := now }

/-- The clock does not go back. -/
def OnTime (s : Limiter) (call : LimiterCall) : Prop := ∀ now, call.now = some now → s.clock ≤ now

/-- What a sender had accepted, oldest first. -/
def Limiter.logOf (s : Limiter) (a : CScript) : List Accepted := s.log.filter fun e => e.sender = a

/-- What is added carries at most `c` token operations. -/
def LimiterCall.CarriesAtMost (reserved : List Bytes) (c : ℕ) : LimiterCall → Prop
  | .add _ tx _ => (parseTransactionSRC20 reserved tx).length ≤ c
  | _ => True

/-! ### The notes of the rate limit -/

/-- The notes of an address. -/
def MempoolTokenState.timestampsOf (st : MempoolTokenState) (a : CScript) : List ℤ :=
  (st.mRateLimitTimestamps.lookup a).getD []

theorem filter_inWindow (now : ℤ) (l : List ℤ) :
    l.filter (inWindow now) = recent id rateLimitWindowSeconds now l := rfl

theorem isRateLimited_iff (st : MempoolTokenState) (a : CScript) (now : ℤ) :
    st.isRateLimited a now = true ↔ maxOpsPerAddressPerWindow ≤
      (recent id rateLimitWindowSeconds now (st.timestampsOf a)).length := by
  rw [isRateLimited, timestampsOf]
  cases st.mRateLimitTimestamps.lookup a with
  | none => simp [recent, maxOpsPerAddressPerWindow]
  | some timestamps => exact decide_eq_true_iff

theorem timestampsOf_recordOperation (st : MempoolTokenState) (a a' : CScript) (now : ℤ) :
    (st.recordOperation a now).timestampsOf a' =
      if a' = a then recent id rateLimitWindowSeconds now (st.timestampsOf a) ++ [now]
      else st.timestampsOf a' := by
  rw [timestampsOf, recordOperation]
  by_cases h : a' = a
  · rw [if_pos h, h, AList.lookup_insert, Option.getD_some]
    rfl
  · rw [if_neg h, AList.lookup_insert_ne h, timestampsOf]

/-- Removing a transaction does not give its sender the time back. -/
theorem removeTransaction_timestamps (st : MempoolTokenState) (txid : Uint256) :
    (st.removeTransaction txid).mRateLimitTimestamps = st.mRateLimitTimestamps := by
  simp only [removeTransaction]
  split
  · rfl
  · -- the two inner maps decide which other fields change
    cases hdeltas : st.mTxBalanceDeltas.lookup txid with
    | none => cases hsender : st.mTxSender.lookup txid <;> rfl
    | some deltas => cases hsender : st.mTxSender.lookup txid <;> rfl

/-- One address of the sweep. -/
def sweepEntry (now : ℤ) (p : AList (fun _ : CScript => List ℤ) × ℕ)
    (e : Sigma fun _ : CScript => List ℤ) :
    AList (fun _ : CScript => List ℤ) × ℕ :=
  let timestamps := e.2.filter (inWindow now)
  if timestamps.isEmpty then (p.1.erase e.1, p.2 + 1) else (p.1.insert e.1 timestamps, p.2)

theorem sweepEntry_getD (now : ℤ) (p : AList (fun _ : CScript => List ℤ) × ℕ)
    (e : Sigma fun _ : CScript => List ℤ) (a : CScript) :
    ((sweepEntry now p e).1.lookup a).getD [] =
      if a = e.1 then recent id rateLimitWindowSeconds now e.2 else (p.1.lookup a).getD [] := by
  rw [sweepEntry]
  by_cases ha : a = e.1
  · rw [if_pos ha, ha]
    split_ifs with hempty
    · rw [AList.lookup_erase, Option.getD_none, ← filter_inWindow, List.isEmpty_iff.mp hempty]
    · rw [AList.lookup_insert, Option.getD_some, filter_inWindow]
  · rw [if_neg ha]
    split_ifs
    · rw [AList.lookup_erase_ne ha]
    · rw [AList.lookup_insert_ne ha]

/-- The sweep over a list of entries: an address in the list keeps what is recent, any other all it
has. -/
theorem foldl_sweepEntry_getD (now : ℤ) {l : List (Sigma fun _ : CScript => List ℤ)}
    (hl : l.NodupKeys) (p : AList (fun _ : CScript => List ℤ) × ℕ) (a : CScript) :
    ((l.foldl (sweepEntry now) p).1.lookup a).getD [] =
      match l.dlookup a with
      | none => (p.1.lookup a).getD []
      | some timestamps => recent id rateLimitWindowSeconds now timestamps := by
  induction l generalizing p with
  | nil => rfl
  | cons e l ih =>
    obtain ⟨hfresh, hrest⟩ := List.nodupKeys_cons.mp hl
    rw [List.foldl_cons, ih hrest, sweepEntry_getD]
    by_cases ha : a = e.1
    · subst ha
      rw [List.dlookup_eq_none.mpr hfresh, if_pos rfl, List.dlookup_cons_eq]
    · rw [if_neg ha, List.dlookup_cons_ne _ _ ha]

theorem timestampsOf_prune (st : MempoolTokenState) (now : ℤ) (a : CScript) :
    (st.pruneStaleRateLimitEntries now).1.timestampsOf a =
      recent id rateLimitWindowSeconds now (st.timestampsOf a) := by
  have hfold :=
    foldl_sweepEntry_getD now st.mRateLimitTimestamps.nodupKeys (st.mRateLimitTimestamps, 0) a
  rw [timestampsOf, timestampsOf]
  show ((st.mRateLimitTimestamps.entries.foldl (sweepEntry now)
    (st.mRateLimitTimestamps, 0)).1.lookup a).getD [] = _
  rw [hfold]
  show (match st.mRateLimitTimestamps.lookup a with | none => _ | some timestamps => _) = _
  cases st.mRateLimitTimestamps.lookup a with
  | none => rfl
  | some timestamps => rfl

/-! ### Nothing that counts is lost -/

/-- The notes and the log agree on what is recent, now and later. -/
def Kept (s : Limiter) : Prop :=
  ∀ a now, s.clock ≤ now → recent id rateLimitWindowSeconds now (s.st.timestampsOf a) =
    (recent Accepted.time rateLimitWindowSeconds now (s.logOf a)).map Accepted.time

theorem logOf_append (s : Limiter) (e : Accepted) (a : CScript) :
    (⟨s.st, s.log ++ [e], s.clock⟩ : Limiter).logOf a =
      if e.sender = a then s.logOf a ++ [e] else s.logOf a := by
  rw [Limiter.logOf, List.filter_append]
  by_cases h : e.sender = a
  · rw [if_pos h, List.filter_cons_of_pos (by simpa using h)]
    rfl
  · rw [if_neg h, List.filter_cons_of_neg (by simpa using h)]
    exact List.append_nil _

/-- Notes trimmed at one time are as good as untrimmed ones at any later time. -/
theorem Kept.trim {s : Limiter} (h : Kept s) {now later : ℤ} (hclock : s.clock ≤ now)
    (hlater : now ≤ later) (a : CScript) :
    recent id rateLimitWindowSeconds later
      (recent id rateLimitWindowSeconds now (s.st.timestampsOf a)) =
      (recent Accepted.time rateLimitWindowSeconds later (s.logOf a)).map Accepted.time := by
  rw [recent_recent hlater]
  exact h a later (hclock.trans hlater)

/-- **Step: an addition.** -/
theorem Kept.add {s : Limiter} (h : Kept s) {now : ℤ} (hclock : s.clock ≤ now) (tx : CTransaction)
    (sender : CScript) : Kept (s.step reserved (.add now tx sender)) := by
  intro a later hlater
  replace hlater : now ≤ later := hlater
  by_cases hrec : s.records reserved now tx sender = true
  · have hpassed : (addTransaction reserved s.st now tx sender).2 = true ∧
        parseTransactionSRC20 reserved tx ≠ [] ∧ s.st.mTxOps.lookup tx.hash = none := by
      simpa [Limiter.records] using hrec
    obtain ⟨-, -, -, hnotes⟩ := addTransaction_passed hpassed.2.1 hpassed.2.2 hpassed.1
    have hst : (s.step reserved (.add now tx sender)).st.timestampsOf a =
        (s.st.recordOperation sender now).timestampsOf a := by
      rw [timestampsOf, timestampsOf, ← hnotes]
      rfl
    have hlog : (s.step reserved (.add now tx sender)).logOf a =
        if sender = a then s.logOf a ++ [⟨now, sender, (parseTransactionSRC20 reserved tx).length⟩]
        else s.logOf a := by
      rw [← logOf_append s ⟨now, sender, _⟩ a]
      simp only [Limiter.logOf, Limiter.step, if_pos hrec]
    rw [hst, hlog, timestampsOf_recordOperation]
    by_cases ha : a = sender
    · subst ha
      rw [if_pos rfl, if_pos rfl, recent_append, recent_append, List.map_append,
        h.trim hclock hlater]
      refine congrArg _ ?_
      -- the new note and the new entry carry the same time
      rw [recent_singleton, recent_singleton, id]
      by_cases hin : later - rateLimitWindowSeconds ≤ now
      · rw [if_pos hin, if_pos hin, List.map_cons, List.map_nil]
      · rw [if_neg hin, if_neg hin, List.map_nil]
    · rw [if_neg ha, if_neg (Ne.symm ha)]
      exact h a later (hclock.trans hlater)
  · have hsame : (addTransaction reserved s.st now tx sender).1.mRateLimitTimestamps =
        s.st.mRateLimitTimestamps := by
      refine addTransaction_timestamps fun htrue hops => ?_
      rw [← Option.ne_none_iff_isSome]
      intro hnone
      exact hrec (by simp [Limiter.records, htrue, hops, hnone])
    have hst : (s.step reserved (.add now tx sender)).st.timestampsOf a = s.st.timestampsOf a := by
      rw [timestampsOf, timestampsOf, ← hsame]
      rfl
    have hlog : (s.step reserved (.add now tx sender)).logOf a = s.logOf a := by
      simp only [Limiter.logOf, Limiter.step, if_neg hrec]
    rw [hst, hlog]
    exact h a later (hclock.trans hlater)

/-- **Step.** -/
theorem Kept.step {s : Limiter} (h : Kept s) {call : LimiterCall} (htime : OnTime s call) :
    Kept (s.step reserved call) := by
  cases call with
  | add now tx sender => exact h.add (htime now rfl) tx sender
  | remove txid =>
    intro a later hlater
    have hst : (s.st.removeTransaction txid).timestampsOf a = s.st.timestampsOf a := by
      rw [timestampsOf, removeTransaction_timestamps, timestampsOf]
    show recent id _ later ((s.st.removeTransaction txid).timestampsOf a) = _
    rw [hst]
    exact h a later hlater
  | clear => exact h
  | prune now =>
    intro a later hlater
    show recent id _ later ((s.st.pruneStaleRateLimitEntries now).1.timestampsOf a) = _
    rw [timestampsOf_prune]
    exact h.trim (htime now rfl) hlater a

/-! ### The limit in every window -/

/-- Transactions that a sender had accepted in the closed window from `t`. -/
def Limiter.transactionsIn (s : Limiter) (a : CScript) (t : ℤ) : ℕ :=
  windowWeight Accepted.time (fun _ => 1) rateLimitWindowSeconds t (s.logOf a)

/-- Operations that a sender had accepted in the closed window from `t`. -/
def Limiter.opsIn (s : Limiter) (a : CScript) (t : ℤ) : ℕ :=
  windowWeight Accepted.time Accepted.ops rateLimitWindowSeconds t (s.logOf a)

/-- A log either stays as it is, or grows by an entry of a sender who was not limited. -/
theorem Limiter.step_log_cases (reserved : List Bytes) (s : Limiter) (call : LimiterCall) :
    (s.step reserved call).log = s.log ∨
    ∃ now tx sender, call = .add now tx sender ∧ s.st.isRateLimited sender now = false ∧
      (s.step reserved call).log =
        s.log ++ [⟨now, sender, (parseTransactionSRC20 reserved tx).length⟩] := by
  cases call with
  | add now tx sender =>
    by_cases hrec : s.records reserved now tx sender = true
    · have hpassed : (addTransaction reserved s.st now tx sender).2 = true ∧
          parseTransactionSRC20 reserved tx ≠ [] ∧ s.st.mTxOps.lookup tx.hash = none := by
        simpa [Limiter.records] using hrec
      obtain ⟨-, -, hrate, -⟩ := addTransaction_passed hpassed.2.1 hpassed.2.2 hpassed.1
      exact Or.inr ⟨now, tx, sender, rfl, hrate, if_pos hrec⟩
    · exact Or.inl (if_neg hrec)
  | remove txid => exact Or.inl rfl
  | clear => exact Or.inl rfl
  | prune now => exact Or.inl rfl

theorem length_recent_lt {s : Limiter} (hkept : Kept s) {sender : CScript} {now : ℤ}
    (hclock : s.clock ≤ now) (hrate : s.st.isRateLimited sender now = false) :
    (recent Accepted.time rateLimitWindowSeconds now (s.logOf sender)).length <
      maxOpsPerAddressPerWindow := by
  have hnot : ¬ maxOpsPerAddressPerWindow ≤
      (recent id rateLimitWindowSeconds now (s.st.timestampsOf sender)).length := by
    rw [← isRateLimited_iff, hrate]
    simp
  rw [hkept sender now hclock, List.length_map] at hnot
  exact not_le.mp hnot

/-- **Step: the limit on transactions.**  One that is added fits the window that ends with it. -/
theorem transactionsIn_step {s : Limiter} (hkept : Kept s) {call : LimiterCall}
    (htime : OnTime s call) (h : ∀ a t, s.transactionsIn a t ≤ maxOpsPerAddressPerWindow)
    (a : CScript) (t : ℤ) :
    (s.step reserved call).transactionsIn a t ≤ maxOpsPerAddressPerWindow := by
  rw [Limiter.transactionsIn]
  rcases s.step_log_cases reserved call with hlog | ⟨now, tx, sender, hcall, hrate, hlog⟩
  · rw [Limiter.logOf, hlog]
    exact h a t
  · have hof : (s.step reserved call).logOf a = if sender = a then
        s.logOf a ++ [⟨now, sender, (parseTransactionSRC20 reserved tx).length⟩]
          else s.logOf a := by
      rw [← logOf_append s ⟨now, sender, _⟩ a, Limiter.logOf, hlog]
      rfl
    rw [hof]
    by_cases ha : sender = a
    · subst ha
      have hfew := length_recent_lt hkept (htime now (by rw [hcall]; rfl)) hrate
      have hroom : ((recent Accepted.time rateLimitWindowSeconds now (s.logOf sender)).map
          fun _ => 1).sum + 1 ≤ maxOpsPerAddressPerWindow := by
        rw [sum_map_one]
        omega
      rw [if_pos rfl]
      exact windowWeight_append_le (h sender) rfl hroom t
    · rw [if_neg ha]
      exact h a t

/-- What is in the log has been added. -/
theorem log_carriesAtMost {c : ℕ} {calls : List LimiterCall}
    (h : ∀ call ∈ calls, call.CarriesAtMost reserved c) (clock : ℤ) :
    ∀ e ∈ (calls.foldl (Limiter.step reserved) (.start clock)).log, e.ops ≤ c := by
  have halong : Along (Limiter.step reserved) (fun _ call => call.CarriesAtMost reserved c)
      (.start clock) calls := along_of_forall_mem h _
  refine halong.invariant (P := fun s => ∀ e ∈ s.log, e.ops ≤ c) (fun s call hs hcarries e he => ?_)
    fun e he => absurd he List.not_mem_nil
  rcases s.step_log_cases reserved call with hlog | ⟨now, tx, sender, rfl, -, hlog⟩
  · exact hs e (hlog ▸ he)
  · rw [hlog] at he
    rcases List.mem_append.mp he with hold | hnew
    · exact hs e hold
    · rw [List.mem_singleton.mp hnew]
      exact hcarries

/-- The limit holds for transactions in every window. -/
theorem transactionsIn_le {clock : ℤ} {calls : List LimiterCall}
    (hclock : Along (Limiter.step reserved) OnTime (.start clock) calls) (a : CScript) (t : ℤ) :
    (calls.foldl (Limiter.step reserved) (.start clock)).transactionsIn a t ≤
      maxOpsPerAddressPerWindow := by
  have hrun : Kept (calls.foldl (Limiter.step reserved) (.start clock)) ∧
      ∀ a t, (calls.foldl (Limiter.step reserved) (.start clock)).transactionsIn a t ≤
        maxOpsPerAddressPerWindow :=
    hclock.invariant
      (P := fun s => Kept s ∧ ∀ a t, s.transactionsIn a t ≤ maxOpsPerAddressPerWindow)
      (fun s call hs htime => ⟨hs.1.step htime, transactionsIn_step hs.1 htime hs.2⟩)
      ⟨fun _ _ _ => rfl, fun _ _ => Nat.zero_le _⟩
  exact hrun.2 a t

theorem opsIn_le {clock : ℤ} {calls : List LimiterCall}
    (hclock : Along (Limiter.step reserved) OnTime (.start clock) calls) {c : ℕ}
    (hcarries : ∀ call ∈ calls, call.CarriesAtMost reserved c) (a : CScript) (t : ℤ) :
    (calls.foldl (Limiter.step reserved) (.start clock)).opsIn a t ≤
      maxOpsPerAddressPerWindow * c := by
  have hall : ∀ e ∈ (calls.foldl (Limiter.step reserved) (.start clock)).logOf a, e.ops ≤ c :=
    fun e he => log_carriesAtMost hcarries clock e (List.mem_of_mem_filter he)
  exact (windowWeight_le_mul hall t).trans (Nat.mul_le_mul_right c (transactionsIn_le hclock a t))

/-! ### Operations beyond the limit -/

/-- Transactions of one sender with `m` operations, each removed before the next. -/
def churn (m n : ℕ) : List LimiterCall :=
  (List.range n).flatMap fun k => [.add 0 (floodTx m k) [9], .remove (floodTx m k).hash]

theorem mem_churn {m n : ℕ} {call : LimiterCall} (h : call ∈ churn m n) :
    ∃ k, call = .add 0 (floodTx m k) [9] ∨ call = .remove (floodTx m k).hash := by
  simp only [churn, List.mem_flatMap, List.mem_cons, List.not_mem_nil, or_false] at h
  obtain ⟨k, -, hk⟩ := h
  exact ⟨k, hk⟩

theorem Limiter.step_clock (s : Limiter) (call : LimiterCall) :
    (s.step reserved call).clock = call.now.getD s.clock := by
  cases call <;> rfl

/-- A clock that stands still does not go back. -/
theorem onTime_of_constant {t : ℤ} {calls : List LimiterCall}
    (hcalls : ∀ call ∈ calls, ∀ now, call.now = some now → now = t) {s : Limiter}
    (hs : s.clock = t) :
    Along (Limiter.step reserved) OnTime s calls := by
  induction calls generalizing s with
  | nil => trivial
  | cons call calls ih =>
    have hhead := hcalls call List.mem_cons_self
    refine ⟨fun now hnow => by rw [hs, hhead now hnow],
      ih (fun c hc => hcalls c (List.mem_cons_of_mem _ hc)) ?_⟩
    rw [s.step_clock]
    cases hnow : call.now with
    | none => exact hs
    | some now => exact hhead now hnow

theorem onTime_churn (m n : ℕ) : Along (Limiter.step reserved) OnTime (.start 0) (churn m n) := by
  refine onTime_of_constant (fun call hcall now hnow => ?_) rfl
  obtain ⟨k, rfl | rfl⟩ := mem_churn hcall
  · exact (Option.some.inj hnow).symm
  · exact absurd hnow (by simp [LimiterCall.now])

theorem churn_carriesAtMost {m c : ℕ} (hm : m ≤ maxOpsPerTx) (hc : m ≤ c) (n : ℕ) :
    ∀ call ∈ churn m n, call.CarriesAtMost reserved c := by
  intro call hcall
  obtain ⟨k, rfl | rfl⟩ := mem_churn hcall
  · show (parseTransactionSRC20 reserved (floodTx m k)).length ≤ c
    rwa [parse_floodTx reserved hm, List.length_replicate]
  · trivial

/-- **The rate limit.**  With a clock that does not go back, no sender gets more than
`maxOpsPerAddressPerWindow` transactions accepted within any `rateLimitWindowSeconds`, nor more than
`c` times as many operations, where nothing that is added carries more than `c`.  The operations
stay within `maxOpsPerAddressPerWindow` in all such runs just for `c` up to one. -/
theorem rate_limit_in_windows (c : ℕ) :
    (∀ reserved clock calls, Along (Limiter.step reserved) OnTime (.start clock) calls → ∀ a t,
      (calls.foldl (Limiter.step reserved) (.start clock)).transactionsIn a t ≤
        maxOpsPerAddressPerWindow ∧
      ((∀ call ∈ calls, call.CarriesAtMost reserved c) →
        (calls.foldl (Limiter.step reserved) (.start clock)).opsIn a t ≤
          maxOpsPerAddressPerWindow * c)) ∧
    ((∀ reserved clock calls, Along (Limiter.step reserved) OnTime (.start clock) calls →
      (∀ call ∈ calls, call.CarriesAtMost reserved c) → ∀ a t,
        (calls.foldl (Limiter.step reserved) (.start clock)).opsIn a t ≤
          maxOpsPerAddressPerWindow) ↔
      c ≤ 1) := by
  refine ⟨fun reserved clock calls hclock a t => ⟨transactionsIn_le hclock a t, fun hcarries =>
    opsIn_le hclock hcarries a t⟩, fun hall => ?_,
      fun hc reserved clock calls hclock hcarries a t => ?_⟩
  · -- two operations in each of 26 transactions
    by_contra hmore
    have hmany := hall [] 0 (churn 2 26) (onTime_churn 2 26)
      (churn_carriesAtMost (by decide) (by omega) 26) [9] 0
    exact absurd hmany (by decide +kernel)
  · calc (calls.foldl (Limiter.step reserved) (.start clock)).opsIn a t
          ≤ maxOpsPerAddressPerWindow * c := opsIn_le hclock hcarries a t
      _ ≤ maxOpsPerAddressPerWindow * 1 := Nat.mul_le_mul_left _ hc
      _ = maxOpsPerAddressPerWindow := Nat.mul_one _

/-- Twelve transactions of one sender at one time, with one operation each. -/
theorem rate_limit_in_windows_churn :
    ((churn 1 12).foldl (Limiter.step []) (.start 0)).opsIn [9] 0 = 12 ∧
      Along (Limiter.step []) OnTime (.start 0) (churn 1 12) ∧
      (∀ call ∈ churn 1 12, call.CarriesAtMost [] 1) ∧
      ∀ a t, ((churn 1 12).foldl (Limiter.step []) (.start 0)).opsIn a t ≤
        maxOpsPerAddressPerWindow := by
  have hcarries : ∀ call ∈ churn 1 12, call.CarriesAtMost [] 1 :=
    churn_carriesAtMost (by decide) le_rfl 12
  exact ⟨by decide +kernel, onTime_churn 1 12, hcarries,
    (rate_limit_in_windows 1).2.mpr le_rfl [] 0 _ (onTime_churn 1 12) hcarries⟩

/-- Thirteen transactions at one time are accepted, with 52 operations. -/
theorem rate_limit_counts_transactions :
    Along (Limiter.step []) OnTime (.start 0) (churn 4 13) ∧
      maxOpsPerAddressPerWindow < ((churn 4 13).foldl (Limiter.step []) (.start 0)).opsIn [9] 0 :=
  ⟨onTime_churn 4 13, by decide +kernel⟩

end OpenSY.Mempool
