import OpenSY.Mempool.Tracking
import OpenSY.Mempool.Overflow
import OpenSY.Script.Codec

/-!
# Refusals and limits of the pending state

`AddTransaction` refuses a transaction for one of six reasons, some of them in the middle of
entering its operations.  `refused_unchanged` says that nothing a caller can ask afterwards tells a
refusal from no call at all.

Of the limits it checks, the one per address counts operations, and holds in every run.  The one on
the whole state compares `MAX_TOTAL_PENDING_OPS` with the number of tracked *transactions*.  So the
operations are at most `c` times the limit where transactions carry at most `c` of them, and
`pending_limits` says that no `c` above one keeps them below the limit itself.
-/

namespace OpenSY.Mempool

open OpenSY.Chain OpenSY.Src20 OpenSY.Tokens OpenSY.Tallies OpenSY.Transition MempoolTokenState

variable {reserved : List Bytes}

/-! ### Refusals -/

/-- **A refused transaction leaves no trace**: pending balances, tickers, both counts and the
decisions of the rate limit are those from before the call. -/
theorem refused_unchanged (reserved : List Bytes) (st : MempoolTokenState) (now : ℤ)
    (tx : CTransaction) (sender : CScript)
    (h : (addTransaction reserved st now tx sender).2 = false) :
    (∀ a t, (addTransaction reserved st now tx sender).1.getPendingBalanceDelta a t =
      st.getPendingBalanceDelta a t) ∧
    (∀ ticker, (addTransaction reserved st now tx sender).1.isTickerPending ticker =
      st.isTickerPending ticker) ∧
    (addTransaction reserved st now tx sender).1.getPendingCount = st.getPendingCount ∧
    (∀ a, (addTransaction reserved st now tx sender).1.getPendingOpsForAddress a =
      st.getPendingOpsForAddress a) ∧
    ∀ a time, (addTransaction reserved st now tx sender).1.isRateLimited a time =
      st.isRateLimited a time := by
  rcases addTransaction_cases reserved st now tx sender with
    ⟨heq, -⟩ | ⟨balances, hvalue, heq⟩ | ⟨-, -, st', deltas, heq, -⟩
  · simp [heq] at h
  · rw [heq]
    exact ⟨fun a t => hvalue (a, t), fun _ => rfl, rfl, fun _ => rfl, fun _ _ => rfl⟩
  · simp [heq] at h

/-- A second transfer of the whole supply to one recipient is refused after its sender has been
debited. -/
theorem refused_unchanged_credit :
    (addTransaction [] (run [] [.add 0 (fundTx 20) [1]]).1 0 (fundTx 24) [3]).2 = false ∧
      ∀ a t, (addTransaction [] (run [] [.add 0 (fundTx 20) [1]]).1 0 (fundTx 24)
        [3]).1.getPendingBalanceDelta
        a t = (run [] [.add 0 (fundTx 20) [1]]).1.getPendingBalanceDelta a t := by
  have hrefused : (addTransaction [] (run [] [.add 0 (fundTx 20) [1]]).1 0 (fundTx 24) [3]).2 =
      false := by
    decide +kernel
  exact ⟨hrefused, (refused_unchanged [] _ _ _ _ hrefused).1⟩

/-! ### What a recorded transaction has passed -/

/-- **The checks before the loop**, and what the rate limit keeps of the call. -/
theorem addTransaction_passed {st : MempoolTokenState} {now : ℤ} {tx : CTransaction}
    {sender : CScript} (hops : parseTransactionSRC20 reserved tx ≠ [])
    (hnew : st.mTxOps.lookup tx.hash = none)
    (h : (addTransaction reserved st now tx sender).2 = true) :
    st.getPendingCount < maxTotalPendingOps ∧
      st.getPendingOpsForAddress sender + (parseTransactionSRC20 reserved tx).length ≤
        maxPendingOpsPerAddress ∧
      st.isRateLimited sender now = false ∧
      (addTransaction reserved st now tx sender).1.mRateLimitTimestamps =
        (st.recordOperation sender now).mRateLimitTimestamps := by
  simp only [addTransaction] at h ⊢
  simp only [List.isEmpty_iff, hops, if_false, hnew, Option.isSome_none, Bool.false_eq_true] at h ⊢
  by_cases hfull : maxTotalPendingOps ≤ st.getPendingCount
  · rw [if_pos hfull] at h
    exact absurd h (by simp)
  by_cases haddr : maxPendingOpsPerAddress <
      st.getPendingOpsForAddress sender + (parseTransactionSRC20 reserved tx).length
  · rw [if_neg hfull, if_pos haddr] at h
    exact absurd h (by simp)
  by_cases hrate : st.isRateLimited sender now = true
  · rw [if_neg hfull, if_neg haddr, if_pos hrate] at h
    exact absurd h (by simp)
  rw [if_neg hfull, if_neg haddr, if_neg hrate] at h ⊢
  refine ⟨not_le.mp hfull, not_lt.mp haddr, by simpa using hrate, ?_⟩
  cases hloop : (parseTransactionSRC20 reserved tx).foldlM
      (addOp reserved st.mPendingTickers tx sender) ⟨st.mPendingBalances, ∅, []⟩ with
  | error d =>
    rw [hloop] at h
    exact absurd h (by simp)
  | ok d => rfl

/-- A refused or idle call leaves the timestamps alone. -/
theorem addTransaction_timestamps {st : MempoolTokenState} {now : ℤ} {tx : CTransaction}
    {sender : CScript} (h : (addTransaction reserved st now tx sender).2 = true →
      parseTransactionSRC20 reserved tx ≠ [] → (st.mTxOps.lookup tx.hash).isSome) :
    (addTransaction reserved st now tx sender).1.mRateLimitTimestamps =
      st.mRateLimitTimestamps := by
  rcases addTransaction_cases reserved st now tx sender with
    ⟨heq, -⟩ | ⟨balances, -, heq⟩ | ⟨hops, hnew, st', deltas, heq, -⟩
  · rw [heq]
  · rw [heq]
  · have htracked := h (by rw [heq]) hops
    rw [hnew] at htracked
    simp at htracked

/-! ### Counting -/

/-- The operations of all tracked transactions. -/
def trackedOps (reserved : List Bytes) (tracked : List Tracked) : ℕ :=
  totalOps reserved (tracked.map Tracked.tx)

/-- The operations of the tracked transactions of one sender. -/
def opsOfSender (reserved : List Bytes) (tracked : List Tracked) (s : CScript) : ℕ :=
  (tracked.map fun e =>
    if e.sender = s then (parseTransactionSRC20 reserved e.tx).length else 0).sum

theorem trackedOps_cons (e : Tracked) (tracked : List Tracked) :
    trackedOps reserved (e :: tracked) =
      (parseTransactionSRC20 reserved e.tx).length + trackedOps reserved tracked := by
  simp only [trackedOps, totalOps, List.map_cons, List.sum_cons]

theorem trackedOps_le {tracked : List Tracked} {c : ℕ}
    (h : ∀ e ∈ tracked, (parseTransactionSRC20 reserved e.tx).length ≤ c) :
    trackedOps reserved tracked ≤ tracked.length * c := by
  induction tracked with
  | nil => simp [trackedOps, totalOps]
  | cons e tracked ih =>
    have hhead := h e List.mem_cons_self
    have hrest := ih fun e' he' => h e' (List.mem_cons_of_mem e he')
    rw [trackedOps_cons, List.length_cons, Nat.succ_mul]
    omega

theorem opsOfSender_untrack_le (tracked : List Tracked) (txid : Uint256) (s : CScript) :
    opsOfSender reserved (untrack tracked txid) s ≤ opsOfSender reserved tracked s :=
  (List.filter_sublist.map _).sum_le_sum fun _ _ => Nat.zero_le _

/-- The size of the per-transaction map is the number of tracked transactions. -/
theorem Ledgered.getPendingCount_eq {st : MempoolTokenState} {tracked : List Tracked}
    (h : Ledgered reserved st tracked) : st.getPendingCount = tracked.length := by
  have hperm : st.mTxOps.keys.Perm (tracked.map fun e => e.tx.hash) := by
    refine (List.perm_ext_iff_of_nodup st.mTxOps.keys_nodup h.nodup).mpr fun txid => ?_
    rw [List.mem_map, ← AList.mem_keys, ← AList.lookup_isSome]
    exact h.txOps.isSome_iff txid
  have hlength := hperm.length_eq
  rw [List.length_map] at hlength
  rw [← hlength, getPendingCount, AList.keys, List.keys, List.length_map]

/-! ### Steps -/

/-- Both limits, as far as they are kept in every run. -/
structure WithinLimits (reserved : List Bytes) (s : MempoolTokenState × List Tracked) : Prop where
  ledgered : Ledgered reserved s.1 s.2
  transactions : s.2.length ≤ maxTotalPendingOps
  address : ∀ a, opsOfSender reserved s.2 a ≤ maxPendingOpsPerAddress

/-- A call that records does so within its limits; what it adds to the list is the transaction. -/
theorem step_add_cases {s : MempoolTokenState × List Tracked} (h : Ledgered reserved s.1 s.2)
    (now : ℤ) (tx : CTransaction) (sender : CScript) :
    (step reserved s (.add now tx sender)).2 = s.2 ∨
    ((step reserved s (.add now tx sender)).2 = ⟨tx, sender⟩ :: s.2 ∧
      (∀ e ∈ s.2, e.tx.hash ≠ tx.hash) ∧ s.2.length < maxTotalPendingOps ∧
      opsOfSender reserved s.2 sender + (parseTransactionSRC20 reserved tx).length ≤
        maxPendingOpsPerAddress) := by
  by_cases hrec : (addTransaction reserved s.1 now tx sender).2 ∧
    parseTransactionSRC20 reserved tx ≠ [] ∧
      ∀ e ∈ s.2, e.tx.hash ≠ tx.hash
  · right
    have hnew : s.1.mTxOps.lookup tx.hash = none := by
      rw [← Option.not_isSome_iff_eq_none, h.txOps.isSome_iff]
      rintro ⟨e, he, hhash⟩
      exact hrec.2.2 e he hhash
    obtain ⟨hroom, haddress, -, -⟩ := addTransaction_passed hrec.2.1 hnew hrec.1
    rw [h.getPendingCount_eq] at hroom
    rw [h.ops] at haddress
    exact ⟨if_pos hrec, hrec.2.2, hroom, haddress⟩
  · exact Or.inl (if_neg hrec)

/-- **Step.** -/
theorem WithinLimits.step {s : MempoolTokenState × List Tracked} (h : WithinLimits reserved s)
    (event : Event) : WithinLimits reserved (Mempool.step reserved s event) := by
  refine ⟨h.ledgered.step event, ?_, ?_⟩
  · cases event with
    | add now tx sender =>
      rcases step_add_cases h.ledgered now tx sender with heq | ⟨heq, -, hroom, -⟩
      · rw [heq]
        exact h.transactions
      · rw [heq, List.length_cons]
        exact hroom
    | remove txid => exact (List.length_filter_le _ _).trans h.transactions
    | clear => exact Nat.zero_le _
  · intro a
    cases event with
    | add now tx sender =>
      rcases step_add_cases h.ledgered now tx sender with heq | ⟨heq, -, -, haddress⟩
      · rw [heq]
        exact h.address a
      · rw [heq, opsOfSender, List.map_cons, List.sum_cons]
        show _ + opsOfSender reserved s.2 a ≤ _
        by_cases ha : sender = a
        · rw [if_pos ha, ← ha, Nat.add_comm]
          exact haddress
        · rw [if_neg ha, Nat.zero_add]
          exact h.address a
    | remove txid => exact (opsOfSender_untrack_le s.2 txid a).trans (h.address a)
    | clear => exact Nat.zero_le _

theorem withinLimits_run (reserved : List Bytes) (events : List Event) :
    WithinLimits reserved (run reserved events) := by
  have hany : Along (step reserved) AnyAction (empty, []) events := along_any _ _
  exact hany.invariant (fun _ event h _ => h.step event)
    ⟨ledgered_empty ∅, Nat.zero_le _, fun _ => Nat.zero_le _⟩

/-- What is added carries at most `c` token operations. -/
def Event.CarriesAtMost (reserved : List Bytes) (c : ℕ) : Event → Prop
  | .add _ tx _ => (parseTransactionSRC20 reserved tx).length ≤ c
  | _ => True

/-- What is tracked has been added. -/
theorem tracked_carriesAtMost {c : ℕ} {events : List Event}
    (h : ∀ event ∈ events, event.CarriesAtMost reserved c) :
    ∀ e ∈ (run reserved events).2, (parseTransactionSRC20 reserved e.tx).length ≤ c := by
  have halong : Along (step reserved) (fun _ event => event.CarriesAtMost reserved c)
      (empty, []) events :=
    along_of_forall_mem h _
  refine halong.invariant
    (P := fun s => ∀ e ∈ s.2, (parseTransactionSRC20 reserved e.tx).length ≤ c)
    (fun s event hs hcarries e he => ?_) fun e he => absurd he List.not_mem_nil
  cases event with
  | add now tx sender =>
    rcases mem_step_add he with rfl | hold
    · exact hcarries
    · exact hs e hold
  | remove txid => exact hs e (List.mem_of_mem_filter he)
  | clear => exact absurd he List.not_mem_nil

/-! ### As many operations as the limits allow -/

/-- `m` burns of one unit each. -/
def floodTx (m k : ℕ) : CTransaction :=
  ⟨BitVec.ofNat 256 k, [⟨⟨1, 0⟩⟩], List.replicate m ⟨0, buildBurnScript ⟨7, 1⟩⟩⟩

def floodSender (k : ℕ) : CScript := [UInt8.ofNat k, UInt8.ofNat (k / 256)]

/-- `n` transactions, each of another sender. -/
def flood (m n : ℕ) : List Event := (List.range n).map fun k => .add 0 (floodTx m k) (floodSender k)

def flooded (m n : ℕ) : List Tracked :=
  ((List.range n).map fun k => ⟨floodTx m k, floodSender k⟩).reverse

theorem floodTx_hash_injective {m j k : ℕ} (hj : j < 1000) (hk : k < 1000)
    (h : (floodTx m j).hash = (floodTx m k).hash) : j = k := by
  have hnat := congrArg BitVec.toNat h
  simp only [floodTx, BitVec.toNat_ofNat] at hnat
  omega

theorem floodSender_injective {j k : ℕ} (hj : j < 1000) (hk : k < 1000)
    (h : floodSender j = floodSender k) : j = k := by
  simp only [floodSender, List.cons.injEq, and_true] at h
  have hlow := congrArg UInt8.toNat h.1
  have hhigh := congrArg UInt8.toNat h.2
  simp only [UInt8.toNat_ofNat'] at hlow hhigh
  omega

theorem mem_flooded {m n : ℕ} {e : Tracked} :
    e ∈ flooded m n ↔ ∃ k < n, e = ⟨floodTx m k, floodSender k⟩ := by
  simp [flooded, eq_comm]

/-- Burns of one unit are in range as long as the pending sum is. -/
theorem opsInRange_burns {recipient : Option CScript} {sender : CScript} {pending : Account → ℤ}
    {m : ℕ} (hpending : int64Min + m ≤ pending (sender, 7)) :
    OpsInRange recipient sender pending (List.replicate m ⟨.burn, .burn ⟨7, 1⟩⟩) := by
  induction m generalizing pending with
  | zero => trivial
  | succ m ih =>
    rw [Nat.cast_succ] at hpending
    refine ⟨fun x hx => ?_, ih ?_⟩
    · obtain rfl := Option.some.inj hx
      exact ⟨by decide, by show int64Min + 1 ≤ pending (sender, 7); omega⟩
    · rw [opDelta_burn rfl rfl, if_pos rfl]
      show int64Min + (m : ℤ) ≤ pending (sender, 7) + -1
      omega

section Flood

variable (reserved) {m : ℕ} (hm : m ≤ maxOpsPerTx)
include hm

theorem parse_floodTx (k : ℕ) :
    parseTransactionSRC20 reserved (floodTx m k) = List.replicate m ⟨.burn, .burn ⟨7, 1⟩⟩ := by
  have hall : (List.replicate m (⟨0, buildBurnScript ⟨7, 1⟩⟩ : CTxOut)).filterMap
      (fun out => parseSRC20Script reserved out.scriptPubKey) =
      List.replicate m ⟨.burn, .burn ⟨7, 1⟩⟩ :=
    List.filterMap_replicate_of_some (parse_buildBurnScript (by decide))
  rw [parseTransactionSRC20_eq, floodTx, hall, List.take_of_length_le (by simpa using hm)]

/-- None of the earlier transactions concerns the next sender, so nothing of theirs is pending. -/
theorem trackable_flood {n : ℕ} (hn : n < 1000) {st : MempoolTokenState}
    (h : Ledgered reserved st (flooded m n))
    (hidle : st.mRateLimitTimestamps.lookup (floodSender n) = none) :
    Trackable reserved st 0 (floodTx m n) (floodSender n) := by
  have hother : ∀ e ∈ flooded m n, e.sender ≠ floodSender n := by
    intro e he hsame
    obtain ⟨k, hk, rfl⟩ := mem_flooded.mp he
    exact absurd (floodSender_injective (by omega) hn hsame) (by omega)
  have hops : st.getPendingOpsForAddress (floodSender n) = 0 := by
    rw [h.ops, List.sum_eq_zero_iff]
    intro m hm
    obtain ⟨e, he, rfl⟩ := List.mem_map.mp hm
    exact if_neg (hother e he)
  have hpending : value st.mPendingBalances (floodSender n, 7) = 0 := by
    rw [h.balances]
    refine List.sum_eq_zero fun v hv => ?_
    obtain ⟨e, he, rfl⟩ := List.mem_map.mp hv
    obtain ⟨k, -, rfl⟩ := mem_flooded.mp he
    have hne : ¬ floodSender n = floodSender k := fun heq => hother _ he heq.symm
    simp [netDelta, parse_floodTx reserved hm, opDelta, SRC20Operation.getTransfer,
      SRC20Operation.getBurn, hne]
  have htickers : issueTickers (parseTransactionSRC20 reserved (floodTx m n)) = [] := by
    rw [parse_floodTx reserved hm]
    simp [issueTickers]
  refine ⟨?_, ?_, ?_, by simp [htickers], by simp [htickers], ?_⟩
  · rw [h.getPendingCount_eq]
    simpa [flooded, maxTotalPendingOps] using hn
  · rw [hops, parse_floodTx reserved hm, List.length_replicate, Nat.zero_add]
    exact hm.trans (by decide)
  · simp [isRateLimited, hidle]
  · rw [parse_floodTx reserved hm]
    refine opsInRange_burns ?_
    change m ≤ 4 at hm
    rw [hpending, int64Min]
    omega

/-- Every transaction of the flood is recorded. -/
theorem run_flood (hpos : 0 < m) (n : ℕ) (hn : n ≤ 1000) :
    (run reserved (flood m n)).2 = flooded m n ∧
      ∀ k, n ≤ k → k < 1000 →
        (run reserved (flood m n)).1.mRateLimitTimestamps.lookup (floodSender k) = none := by
  induction n with
  | zero => exact ⟨rfl, fun _ _ _ => rfl⟩
  | succ n ih =>
    obtain ⟨htracked, hidle⟩ := ih (by omega)
    have hledger := ledgered_run reserved (flood m n)
    have hnext : run reserved (flood m (n + 1)) =
        step reserved (run reserved (flood m n)) (.add 0 (floodTx m n) (floodSender n)) := by
      simp only [run, flood, List.range_succ, List.map_append, List.map_cons, List.map_nil,
        List.foldl_append, List.foldl_cons, List.foldl_nil]
    have hfresh : ∀ e ∈ (run reserved (flood m n)).2, e.tx.hash ≠ (floodTx m n).hash := by
      intro e he hsame
      obtain ⟨k, hk, rfl⟩ := mem_flooded.mp (htracked ▸ he)
      exact absurd (floodTx_hash_injective (by omega) (by omega) hsame) (by omega)
    have hops : parseTransactionSRC20 reserved (floodTx m n) ≠ [] := by
      rw [parse_floodTx reserved hm, Ne, List.replicate_eq_nil_iff]
      omega
    have hadded := addTransaction_of_trackable
      (trackable_flood reserved hm (by omega) (htracked ▸ hledger) (hidle n le_rfl (by omega)))
    have hnew : (run reserved (flood m n)).1.mTxOps.lookup (floodTx m n).hash = none := by
      rw [← Option.not_isSome_iff_eq_none, hledger.txOps.isSome_iff]
      rintro ⟨e, he, hhash⟩
      exact hfresh e he hhash
    rw [hnext]
    refine ⟨?_, fun k hk hlt => ?_⟩
    · show (if _ then _ else _) = _
      rw [if_pos ⟨hadded, hops, hfresh⟩, htracked, flooded, flooded, List.range_succ]
      simp
    · show AList.lookup _ (addTransaction _ _ _ _ _).1.mRateLimitTimestamps = none
      have hne : floodSender k ≠ floodSender n := fun heq =>
        absurd (floodSender_injective hlt (by omega) heq) (by omega)
      rw [(addTransaction_passed hops hnew hadded).2.2.2, recordOperation]
      simp only
      rw [AList.lookup_insert_ne hne]
      exact hidle k (by omega) hlt

theorem trackedOps_flooded (n : ℕ) : trackedOps reserved (flooded m n) = n * m := by
  have hall : trackedOps reserved (flooded m n) = ((List.range n).map fun _ => m).sum := by
    rw [trackedOps, totalOps, flooded, List.map_reverse, List.map_reverse, List.sum_reverse,
      List.map_map, List.map_map]
    refine congrArg List.sum (List.map_congr_left fun k _ => ?_)
    show (parseTransactionSRC20 reserved (floodTx m k)).length = m
    rw [parse_floodTx reserved hm, List.length_replicate]
  rw [hall, List.map_const', List.sum_replicate, List.length_range, smul_eq_mul]

theorem flood_carriesAtMost (n : ℕ) : ∀ event ∈ flood m n, event.CarriesAtMost reserved m := by
  intro event hevent
  obtain ⟨k, -, rfl⟩ := List.mem_map.mp hevent
  show (parseTransactionSRC20 reserved (floodTx m k)).length ≤ m
  rw [parse_floodTx reserved hm, List.length_replicate]

end Flood

theorem Event.CarriesAtMost.mono {c c' : ℕ} (hc : c ≤ c') {event : Event}
    (h : event.CarriesAtMost reserved c) : event.CarriesAtMost reserved c' := by
  cases event with
  | add now tx sender => exact Nat.le_trans h hc
  | remove txid => trivial
  | clear => trivial

/-! ### The limits -/

/-- **Pending limits.**  No sender ever has more than `maxPendingOpsPerAddress` operations tracked,
and the tracked transactions are at most `maxTotalPendingOps`.  Their operations are at most `c`
times as many, where nothing that is added carries more than `c`; and they stay within
`maxTotalPendingOps` in all such runs just for `c` up to one. -/
theorem pending_limits (reserved : List Bytes) (c : ℕ) :
    (∀ events,
      (∀ a, opsOfSender reserved (run reserved events).2 a ≤ maxPendingOpsPerAddress) ∧
      (run reserved events).2.length ≤ maxTotalPendingOps ∧
      trackedOps reserved (run reserved events).2 ≤ maxTotalPendingOps * maxOpsPerTx ∧
      ((∀ event ∈ events, event.CarriesAtMost reserved c) →
        trackedOps reserved (run reserved events).2 ≤ maxTotalPendingOps * c)) ∧
    ((∀ events, (∀ event ∈ events, event.CarriesAtMost reserved c) →
        trackedOps reserved (run reserved events).2 ≤ maxTotalPendingOps) ↔ c ≤ 1) := by
  have hbound : ∀ {c : ℕ} {events : List Event},
      (∀ e ∈ (run reserved events).2, (parseTransactionSRC20 reserved e.tx).length ≤ c) →
      trackedOps reserved (run reserved events).2 ≤ maxTotalPendingOps * c := fun h =>
    (trackedOps_le h).trans (Nat.mul_le_mul_right _ (withinLimits_run reserved _).transactions)
  refine ⟨fun events => ?_, fun hall => ?_, fun hc events hevents => ?_⟩
  · have hrun := withinLimits_run reserved events
    exact ⟨hrun.address, hrun.transactions,
      hbound fun e _ => parseTransactionSRC20_length_le reserved e.tx,
      fun hevents => hbound (tracked_carriesAtMost hevents)⟩
  · -- two operations in each of a thousand transactions
    by_contra hmore
    have htwo : 2 ≤ maxOpsPerTx := by decide
    have hflood := hall (flood 2 1000) fun event hevent =>
      (flood_carriesAtMost reserved htwo 1000 event hevent).mono (by omega)
    rw [(run_flood reserved htwo (by omega) 1000 le_rfl).1,
      trackedOps_flooded reserved htwo] at hflood
    exact absurd hflood (by decide)
  · have hle := hbound (tracked_carriesAtMost hevents)
    calc trackedOps reserved (run reserved events).2 ≤ maxTotalPendingOps * c := hle
      _ ≤ maxTotalPendingOps * 1 := Nat.mul_le_mul_left _ hc
      _ = maxTotalPendingOps := Nat.mul_one _

/-- Three transactions of one operation each, one of them removed again. -/
theorem pending_limits_single :
    trackedOps [] (run [] (flood 1 3 ++ [.remove 1])).2 = 2 ∧
      (∀ event ∈ flood 1 3 ++ [.remove 1], event.CarriesAtMost [] 1) ∧
      trackedOps [] (run [] (flood 1 3 ++ [.remove 1])).2 ≤ maxTotalPendingOps := by
  have hcarries : ∀ event ∈ flood 1 3 ++ [.remove 1], event.CarriesAtMost [] 1 := by
    intro event hevent
    rcases List.mem_append.mp hevent with hflood | hremove
    · exact flood_carriesAtMost [] (by decide) 3 event hflood
    · rw [List.mem_singleton.mp hremove]
      trivial
  exact ⟨by decide +kernel, hcarries, (pending_limits [] 1).2.mpr le_rfl _ hcarries⟩

/-- 251 transactions are well below the limit and carry 1004 operations. -/
theorem limit_counts_transactions :
    (run [] (flood 4 251)).2.length = 251 ∧
      maxTotalPendingOps < trackedOps [] (run [] (flood 4 251)).2 := by
  have hmax : 4 ≤ maxOpsPerTx := le_rfl
  rw [(run_flood [] hmax (by omega) 251 (by omega)).1, trackedOps_flooded [] hmax]
  exact ⟨by simp [flooded], by decide⟩

end OpenSY.Mempool
