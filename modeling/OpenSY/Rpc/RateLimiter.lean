import OpenSY.Chain.Primitives
import OpenSY.Lib.OrderedMap
import OpenSY.Lib.SlidingWindow
import OpenSY.Lib.Transition
import Mathlib.Data.List.Lex
import Mathlib.Data.Prod.Lex

/-!
# The rate limit of the token calls

`checkAndRecord` keeps, for each endpoint and peer, the times of the calls it has accepted in the
last `defaultWindowSeconds`, and refuses a call when there are `max_calls` of them.  Every minute a
sweep removes what has gone out of the window, and then the smallest keys until `maxTrackedIps` are
left.

* `Recorded` — the times on record are those of accepted calls, so a refusal always has a reason;
* `Kept` — they are all of those that count, as long as the sweep does not throw the pair out;
* `evicted_exceeds` — the sweep throws pairs out whose calls still count, and such a pair can go
  beyond its limit at once.
-/

namespace OpenSY.Rpc

open OpenSY.Chain OpenSY.Ordered OpenSY.SlidingWindow OpenSY.Transition

def defaultWindowSeconds : ℤ := 60
def maxTrackedIps : ℕ := 10000
def cleanupIntervalSeconds : ℤ := 60

/-- A pair of strings. -/
structure CallKey where
  endpoint : Bytes
  peerId : Bytes
  deriving DecidableEq

/-- Strings are compared byte by byte, pairs by their first component first. -/
def CallKey.rank (key : CallKey) : List ℕ ×ₗ List ℕ :=
  toLex (key.endpoint.map UInt8.toNat, key.peerId.map UInt8.toNat)

theorem map_toNat_injective : Function.Injective (List.map UInt8.toNat) :=
  List.map_injective_iff.mpr fun _ _ h => UInt8.toNat.inj h

theorem CallKey.rank_injective : Function.Injective CallKey.rank := by
  intro key key' h
  obtain ⟨hendpoint, hpeer⟩ := Prod.mk.inj (toLex_inj.mp h)
  cases key
  cases key'
  exact congr (congrArg CallKey.mk (map_toNat_injective hendpoint)) (map_toNat_injective hpeer)

instance : LinearOrder CallKey := LinearOrder.lift' CallKey.rank CallKey.rank_injective

structure RPCRateLimiter where
  callTimes : OrderedMap CallKey (List ℤ)
  lastCleanup : ℤ

namespace RPCRateLimiter

def new : RPCRateLimiter := ⟨.empty, 0⟩

/-- Take what has gone out of the window from the front. -/
def pruneTimes (now : ℤ) (times : List ℤ) : List ℤ :=
  times.dropWhile fun t => t < now - defaultWindowSeconds

/-- The first loop of the sweep: buckets that have become empty are erased. -/
def sweep (now : ℤ) (callTimes : OrderedMap CallKey (List ℤ)) : OrderedMap CallKey (List ℤ) :=
  callTimes.filterMap fun times => if (pruneTimes now times).isEmpty then none
    else some (pruneTimes now times)

/-- The number of buckets that the second loop erases, from the smallest key on. -/
def excess (callTimes : OrderedMap CallKey (List ℤ)) : ℕ := callTimes.entries.length - maxTrackedIps

def cleanupOldEntries (limiter : RPCRateLimiter) (now : ℤ) : RPCRateLimiter :=
  if now - limiter.lastCleanup < cleanupIntervalSeconds then limiter
  else
    let callTimes := sweep now limiter.callTimes
    { callTimes := callTimes.dropSmallest (excess callTimes), lastCleanup := now }

/-- The times on record for a pair. -/
def timesOf (limiter : RPCRateLimiter) (key : CallKey) : List ℤ :=
  (limiter.callTimes.find key).getD []

def checkAndRecord (limiter : RPCRateLimiter) (now : ℤ) (key : CallKey)
    (maxCalls : ℕ) : Bool × RPCRateLimiter :=
  let limiter := limiter.cleanupOldEntries now
  let times := pruneTimes now (limiter.timesOf key)
  if times.length ≥ maxCalls then
    (false, { limiter with callTimes := limiter.callTimes.insert key times })
  else (true, { limiter with callTimes := limiter.callTimes.insert key (times ++ [now]) })

end RPCRateLimiter

open RPCRateLimiter

/-! ### Calls and what they accept -/

structure RateCall where
  now : ℤ
  key : CallKey
  maxCalls : ℕ

/-- A call that was let through. -/
structure AcceptedCall where
  time : ℤ
  key : CallKey
  deriving DecidableEq

/-- The limiter with a log of what it has let through, and the time of the last call. -/
structure RateState where
  limiter : RPCRateLimiter
  log : List AcceptedCall
  clock : ℤ

namespace RateState

def start (clock : ℤ) : RateState := ⟨.new, [], clock⟩

/-- Whether a call is let through. -/
def accepts (s : RateState) (c : RateCall) : Bool :=
  (s.limiter.checkAndRecord c.now c.key c.maxCalls).1

def call (s : RateState) (c : RateCall) : RateState where
  limiter := (s.limiter.checkAndRecord c.now c.key c.maxCalls).2
  log := if s.accepts c then s.log ++ [⟨c.now, c.key⟩] else s.log
  clock := c.now

/-- The times at which calls of a pair were let through. -/
def acceptedTimes (s : RateState) (key : CallKey) : List ℤ :=
  (s.log.filter fun e => e.key = key).map (·.time)

/-- The calls of a pair that were let through in the window that starts at `t`. -/
def acceptedIn (t : ℤ) (key : CallKey) (s : RateState) : ℕ :=
  windowWeight id (fun _ => 1) defaultWindowSeconds t (s.acceptedTimes key)

/-- The clock does not go back. -/
def OnTime (s : RateState) (c : RateCall) : Prop := s.clock ≤ c.now

/-- The sweep is due, and the pair is among those it throws out although some of its calls still
count. -/
def Evicts (s : RateState) (now : ℤ) (key : CallKey) : Prop :=
  cleanupIntervalSeconds ≤ now - s.limiter.lastCleanup ∧
    ∃ times, (key, times) ∈
      (sweep now s.limiter.callTimes).entries.take (excess (sweep now s.limiter.callTimes))

end RateState

open RateState

/-! ### The times on record -/

theorem pruneTimes_eq {now : ℤ} {times : List ℤ} (h : times.Pairwise (· ≤ ·)) :
    pruneTimes now times = recent id defaultWindowSeconds now times := by
  induction times with
  | nil => rfl
  | cons t times ih =>
    obtain ⟨ht, htimes⟩ := List.pairwise_cons.mp h
    by_cases hold : t < now - defaultWindowSeconds
    · have hout : ¬ now - defaultWindowSeconds ≤ t := not_le.mpr hold
      rw [pruneTimes, List.dropWhile_cons_of_pos (by rw [decide_eq_true_eq]; exact hold), recent,
        List.filter_cons_of_neg (by rw [decide_eq_true_eq]; exact hout)]
      exact ih htimes
    · -- from the first one that stays on, all stay
      rw [pruneTimes, List.dropWhile_cons_of_neg (by simpa using hold)]
      refine (List.filter_eq_self.mpr fun t' ht' => ?_).symm
      have hle : t ≤ t' := by
        rcases List.mem_cons.mp ht' with rfl | ht'
        · exact le_rfl
        · exact ht t' ht'
      simp only [id_eq, decide_eq_true_eq]
      omega

theorem timesOf_sweep (limiter : RPCRateLimiter) (now : ℤ) (key : CallKey) :
    ((sweep now limiter.callTimes).find key).getD [] = pruneTimes now (limiter.timesOf key) := by
  rw [sweep, OrderedMap.find_filterMap, timesOf]
  cases limiter.callTimes.find key with
  | none => rfl
  | some times =>
    rw [Option.bind_some, Option.getD_some]
    split_ifs with hempty
    · exact (List.isEmpty_iff.mp hempty).symm
    · rfl

/-- A cleanup leaves on record some of what was there. -/
theorem timesOf_cleanup_sublist (limiter : RPCRateLimiter) (now : ℤ) (key : CallKey) :
    ((limiter.cleanupOldEntries now).timesOf key).Sublist (limiter.timesOf key) := by
  rw [cleanupOldEntries]
  split_ifs with hdue
  · exact List.Sublist.refl _
  · by_cases hout : ∃ times, (key, times) ∈ (sweep now limiter.callTimes).entries.take
        (excess (sweep now limiter.callTimes))
    · obtain ⟨times, hmem⟩ := hout
      rw [timesOf]
      simp only [OrderedMap.find_dropSmallest_of_mem _ hmem]
      exact List.nil_sublist _
    · rw [timesOf]
      simp only [OrderedMap.find_dropSmallest_of_not_mem _ (not_exists.mp hout)]
      rw [timesOf_sweep]
      exact List.dropWhile_sublist _

/-- Of a pair that stays, it leaves all that still counts. -/
theorem recent_cleanup {s : RateState} {now : ℤ} {key : CallKey}
    (hsorted : (s.limiter.timesOf key).Pairwise (· ≤ ·)) (h : ¬ s.Evicts now key) :
    recent id defaultWindowSeconds now ((s.limiter.cleanupOldEntries now).timesOf key) =
      recent id defaultWindowSeconds now (s.limiter.timesOf key) := by
  rw [cleanupOldEntries]
  split_ifs with hdue
  · rfl
  · have hin : ∀ times, (key, times) ∉ (sweep now s.limiter.callTimes).entries.take
        (excess (sweep now s.limiter.callTimes)) :=
      fun times hmem => h ⟨not_lt.mp hdue, times, hmem⟩
    rw [timesOf]
    simp only [OrderedMap.find_dropSmallest_of_not_mem _ hin]
    rw [timesOf_sweep, pruneTimes_eq hsorted, recent_recent le_rfl]

/-- Of a pair that is thrown out, nothing. -/
theorem timesOf_cleanup_evicted {s : RateState} {now : ℤ} {key : CallKey} (h : s.Evicts now key) :
    (s.limiter.cleanupOldEntries now).timesOf key = [] := by
  obtain ⟨hdue, times, hmem⟩ := h
  rw [cleanupOldEntries, if_neg (not_lt.mpr hdue), timesOf]
  simp only [OrderedMap.find_dropSmallest_of_mem _ hmem]
  rfl

/-- **What a call does**, in terms of what is on record after the cleanup. -/
theorem call_cases (s : RateState) (c : RateCall) :
    let limiter := s.limiter.cleanupOldEntries c.now
    let times := pruneTimes c.now (limiter.timesOf c.key)
    (times.length < c.maxCalls ∧ s.accepts c = true ∧
      s.call c = ⟨{ limiter with callTimes := limiter.callTimes.insert c.key (times ++ [c.now]) },
        s.log ++ [⟨c.now, c.key⟩], c.now⟩) ∨
    (c.maxCalls ≤ times.length ∧ s.accepts c = false ∧
      s.call c = ⟨{ limiter with callTimes := limiter.callTimes.insert c.key times }, s.log,
        c.now⟩) := by
  intro limiter times
  by_cases h : c.maxCalls ≤ times.length
  · refine Or.inr ⟨h, ?_, ?_⟩
    · rw [accepts, checkAndRecord, if_pos h]
    · rw [RateState.call, accepts, checkAndRecord, if_pos h]
      rfl
  · refine Or.inl ⟨not_le.mp h, ?_, ?_⟩
    · rw [accepts, checkAndRecord, if_neg h]
    · rw [RateState.call, accepts, checkAndRecord, if_neg h]
      rfl

theorem timesOf_insert (limiter : RPCRateLimiter) (key key' : CallKey) (times : List ℤ) :
    timesOf { limiter with callTimes := limiter.callTimes.insert key times } key' =
      if key' = key then times else limiter.timesOf key' := by
  rw [timesOf]
  split_ifs with h
  · rw [h, OrderedMap.find_insert_self, Option.getD_some]
  · rw [OrderedMap.find_insert_of_ne _ _ h, timesOf]

theorem acceptedTimes_append (s : RateState) (limiter : RPCRateLimiter) (now clock : ℤ)
    (key key' : CallKey) :
    acceptedTimes ⟨limiter, s.log ++ [⟨now, key⟩], clock⟩ key' =
      s.acceptedTimes key' ++ if key' = key then [now] else [] := by
  rw [acceptedTimes, List.filter_append, List.map_append, acceptedTimes]
  split_ifs with h
  · rw [List.filter_cons_of_pos (by simp [h])]
    rfl
  · rw [List.filter_cons_of_neg (by simpa using fun heq => h heq.symm)]
    rfl

/-- The times on record are times of accepted calls, in order and not after the last call. -/
structure Recorded (s : RateState) : Prop where
  sorted : ∀ key, (s.acceptedTimes key).Pairwise (· ≤ ·)
  past : ∀ key, ∀ t ∈ s.acceptedTimes key, t ≤ s.clock
  onRecord : ∀ key, (s.limiter.timesOf key).Sublist (s.acceptedTimes key)

theorem Recorded.start (clock : ℤ) : Recorded (.start clock) where
  sorted _ := List.Pairwise.nil
  past _ _ ht := absurd ht (by simp [acceptedTimes, RateState.start])
  onRecord _ := List.Sublist.refl _

theorem Recorded.timesOf_sorted {s : RateState} (h : Recorded s) (key : CallKey) :
    (s.limiter.timesOf key).Pairwise (· ≤ ·) :=
  (h.sorted key).sublist (h.onRecord key)

/-- What the limit is compared with, after the cleanup and the look at the pair's own times. -/
theorem Recorded.prune_sublist {s : RateState} (h : Recorded s) (now : ℤ) (key : CallKey) :
    (pruneTimes now ((s.limiter.cleanupOldEntries now).timesOf key)).Sublist
      (recent id defaultWindowSeconds now (s.acceptedTimes key)) := by
  have hsub := timesOf_cleanup_sublist s.limiter now key
  rw [pruneTimes_eq ((h.timesOf_sorted key).sublist hsub)]
  exact (hsub.trans (h.onRecord key)).filter _

theorem Recorded.call {s : RateState} (h : Recorded s) {c : RateCall} (hc : OnTime s c) :
    Recorded (s.call c) := by
  have hlast : s.clock ≤ c.now := hc
  have hpast : ∀ key, ∀ t ∈ s.acceptedTimes key, t ≤ c.now :=
    fun key t ht => (h.past key t ht).trans hlast
  have hclean : ∀ key,
      ((s.limiter.cleanupOldEntries c.now).timesOf key).Sublist (s.acceptedTimes key) :=
    fun key => (timesOf_cleanup_sublist s.limiter c.now key).trans (h.onRecord key)
  have hprune : ∀ key, (pruneTimes c.now ((s.limiter.cleanupOldEntries c.now).timesOf key)).Sublist
      (s.acceptedTimes key) := fun key => (h.prune_sublist c.now key).trans List.filter_sublist
  obtain ⟨-, -, heq⟩ | ⟨-, -, heq⟩ := call_cases s c
  · rw [heq]
    refine ⟨fun key => ?_, fun key t ht => ?_, fun key => ?_⟩
    · rw [acceptedTimes_append]
      refine List.pairwise_append.mpr ⟨h.sorted key, ?_, fun t ht t' ht' => ?_⟩
      · split_ifs
        · exact List.pairwise_singleton _ _
        · exact List.Pairwise.nil
      · split_ifs at ht'
        · rw [List.mem_singleton.mp ht']
          exact hpast key t ht
        · cases ht'
    · rw [acceptedTimes_append] at ht
      rcases List.mem_append.mp ht with ht | ht
      · exact hpast key t ht
      · split_ifs at ht
        · rw [List.mem_singleton.mp ht]
        · cases ht
    · rw [acceptedTimes_append]
      simp only [timesOf_insert]
      split_ifs with hkey
      · rw [hkey]
        exact (hprune c.key).append (List.Sublist.refl _)
      · rw [List.append_nil]
        exact hclean key
  · rw [heq]
    refine ⟨h.sorted, hpast, fun key => ?_⟩
    simp only [timesOf_insert]
    split_ifs with hkey
    · rw [hkey]
      exact hprune c.key
    · exact hclean key

/-- A refusal has a reason. -/
theorem Recorded.refused {s : RateState} (h : Recorded s) {c : RateCall}
    (hc : s.accepts c = false) :
    c.maxCalls ≤ (recent id defaultWindowSeconds c.now (s.acceptedTimes c.key)).length := by
  obtain ⟨-, haccepts, -⟩ | ⟨hfull, -, -⟩ := call_cases s c
  · rw [haccepts] at hc
    cases hc
  · exact hfull.trans (h.prune_sublist c.now c.key).length_le

/-! ### The limit -/

/-- All accepted calls of the pair that still count are on record. -/
def Kept (key : CallKey) (s : RateState) : Prop :=
  recent id defaultWindowSeconds s.clock (s.limiter.timesOf key) =
    recent id defaultWindowSeconds s.clock (s.acceptedTimes key)

theorem Kept.later {key : CallKey} {s : RateState} (h : Kept key s) {now : ℤ}
    (hnow : s.clock ≤ now) :
    recent id defaultWindowSeconds now (s.limiter.timesOf key) =
      recent id defaultWindowSeconds now (s.acceptedTimes key) := by
  rw [← recent_recent hnow, h, recent_recent hnow]

/-- So the limit is compared with the number of those calls, unless the pair is thrown out. -/
theorem Kept.prune_eq {key : CallKey} {s : RateState} (h : Kept key s) (hrec : Recorded s) {now : ℤ}
    (hnow : s.clock ≤ now) (hkeep : ¬ s.Evicts now key) :
    pruneTimes now ((s.limiter.cleanupOldEntries now).timesOf key) =
      recent id defaultWindowSeconds now (s.acceptedTimes key) := by
  have hsorted := hrec.timesOf_sorted key
  rw [pruneTimes_eq (hsorted.sublist (timesOf_cleanup_sublist s.limiter now key)),
    recent_cleanup hsorted hkeep, h.later hnow]

theorem Kept.call {key : CallKey} {s : RateState} (h : Kept key s) (hrec : Recorded s)
    {c : RateCall} (hc : OnTime s c) (hkeep : ¬ s.Evicts c.now key) : Kept key (s.call c) := by
  have hclean :
      recent id defaultWindowSeconds c.now ((s.limiter.cleanupOldEntries c.now).timesOf key) =
      recent id defaultWindowSeconds c.now (s.acceptedTimes key) := by
    rw [recent_cleanup (hrec.timesOf_sorted key) hkeep, h.later hc]
  obtain ⟨-, -, heq⟩ | ⟨-, -, heq⟩ := call_cases s c
  · rw [heq]
    simp only [Kept, acceptedTimes_append, timesOf_insert]
    split_ifs with hkey
    · subst hkey
      rw [h.prune_eq hrec hc hkeep, recent_append, recent_append, recent_recent le_rfl]
    · rw [List.append_nil]
      exact hclean
  · rw [heq]
    simp only [Kept, timesOf_insert]
    split_ifs with hkey
    · subst hkey
      rw [h.prune_eq hrec hc hkeep, recent_recent le_rfl]
      rfl
    · exact hclean

/-- **One call** keeps the limit of a pair that is not thrown out. -/
theorem Kept.acceptedIn_le {key : CallKey} {s : RateState} (h : Kept key s) (hrec : Recorded s)
    {c : RateCall} (hc : OnTime s c) (hkeep : ¬ s.Evicts c.now key) {m : ℕ}
    (hm : c.key = key → c.maxCalls = m) (hlimit : ∀ t, acceptedIn t key s ≤ m) (t : ℤ) :
    acceptedIn t key (s.call c) ≤ m := by
  obtain ⟨hroom, -, heq⟩ | ⟨-, -, heq⟩ := call_cases s c
  · rw [heq, acceptedIn, acceptedTimes_append]
    split_ifs with hkey
    · subst hkey
      refine windowWeight_append_le hlimit rfl ?_ t
      rw [h.prune_eq hrec hc hkeep, hm rfl] at hroom
      rw [sum_map_one]
      exact hroom
    · rw [List.append_nil]
      exact hlimit t
  · rw [heq]
    exact hlimit t

/-! ### Pairs that are thrown out -/

theorem cleanup_recent (limiter : RPCRateLimiter) (now : ℤ) :
    now - (limiter.cleanupOldEntries now).lastCleanup < cleanupIntervalSeconds := by
  rw [cleanupOldEntries]
  split_ifs with hdue
  · exact hdue
  · show now - now < cleanupIntervalSeconds
    rw [Int.sub_self]
    decide

/-- Calls of a pair at one moment are let through as long as its record has room. -/
theorem acceptedTimes_replicate (now : ℤ) (key : CallKey) (m : ℕ) : ∀ (n : ℕ) (s : RateState),
    (pruneTimes now ((s.limiter.cleanupOldEntries now).timesOf key)).length + n ≤ m →
    ((List.replicate n ⟨now, key, m⟩).foldl RateState.call s).acceptedTimes key =
      s.acceptedTimes key ++ List.replicate n now := by
  intro n
  induction n with
  | zero =>
    intro s _
    exact (List.append_nil _).symm
  | succ n ih =>
    intro s hroom
    obtain ⟨-, -, heq⟩ | ⟨hfull, -, -⟩ := call_cases s ⟨now, key, m⟩
    · -- no second cleanup is due, and the record has grown by one at most
      have hclean : (s.call ⟨now, key, m⟩).limiter.cleanupOldEntries now =
          (s.call ⟨now, key, m⟩).limiter := by
        rw [heq]
        exact if_pos (cleanup_recent s.limiter now)
      have htimes : (s.call ⟨now, key, m⟩).limiter.timesOf key =
          pruneTimes now ((s.limiter.cleanupOldEntries now).timesOf key) ++ [now] := by
        rw [heq]
        simp only [timesOf_insert, if_true]
      rw [List.replicate_succ, List.foldl_cons, ih (s.call ⟨now, key, m⟩), heq,
        acceptedTimes_append, if_pos rfl, List.append_assoc]
      · rfl
      · have hle := (List.dropWhile_sublist (l := (s.call ⟨now, key, m⟩).limiter.timesOf key)
          fun t => decide (t < now - defaultWindowSeconds)).length_le
        rw [hclean]
        rw [htimes, List.length_append, List.length_singleton] at hle
        have hle' : (pruneTimes now ((s.call ⟨now, key, m⟩).limiter.timesOf key)).length ≤
            (pruneTimes now ((s.limiter.cleanupOldEntries now).timesOf key)).length + 1 := by
          rw [htimes]
          exact hle
        omega
    · have hle : m ≤ (pruneTimes now ((s.limiter.cleanupOldEntries now).timesOf key)).length :=
        hfull
      omega

/-- **A pair that is thrown out can go beyond its limit at once.** -/
theorem evicted_exceeds {s : RateState} (hrec : Recorded s) {now : ℤ} (hnow : s.clock ≤ now)
    {key : CallKey} (h : s.Evicts now key) (m : ℕ) :
    m < acceptedIn (now - defaultWindowSeconds) key
      ((List.replicate m ⟨now, key, m⟩).foldl RateState.call s) := by
  have hempty := timesOf_cleanup_evicted h
  obtain ⟨-, times, hmem⟩ := h
  have hfind : (sweep now s.limiter.callTimes).find key = some times :=
    (OrderedMap.mem_entries_iff _ key times).mp (List.mem_of_mem_take hmem)
  -- a bucket that survives the first loop of the sweep is not empty
  have hlive : pruneTimes now (s.limiter.timesOf key) ≠ [] := by
    rw [sweep, OrderedMap.find_filterMap] at hfind
    obtain ⟨old, hold, hsome⟩ := Option.bind_eq_some_iff.mp hfind
    rw [timesOf, hold, Option.getD_some]
    intro hnil
    rw [hnil] at hsome
    cases hsome
  have hpos : 0 < (recent id defaultWindowSeconds now (s.acceptedTimes key)).length := by
    have hsub := (hrec.onRecord key).filter fun t => decide (now - defaultWindowSeconds ≤ id t)
    rw [pruneTimes_eq (hrec.timesOf_sorted key)] at hlive
    exact (List.length_pos_iff.mpr hlive).trans_le hsub.length_le
  rw [acceptedIn,
    acceptedTimes_replicate now key m m s (by rw [hempty]; exact le_of_eq (Nat.zero_add _)),
    windowWeight_append_replicate (by decide) fun t ht => (hrec.past key t ht).trans hnow]
  omega

/-- A sweep that finds no more pairs than are tracked throws none out. -/
theorem not_evicts_of_fit {s : RateState} {now : ℤ}
    (h : (sweep now s.limiter.callTimes).entries.length ≤ maxTrackedIps) (key : CallKey) :
    ¬ s.Evicts now key := by
  rintro ⟨-, times, hmem⟩
  rw [excess, Nat.sub_eq_zero_of_le h] at hmem
  cases hmem

/-! ### Whole runs -/

theorem recorded_run {clock : ℤ} {calls : List RateCall}
    (h : Along RateState.call OnTime (.start clock) calls) :
    Recorded (calls.foldl RateState.call (.start clock)) :=
  h.invariant (fun _ _ hs hc => hs.call hc) (.start clock)

/-- The limit of a pair along a run that never throws it out. -/
theorem limit_run {clock : ℤ} {calls : List RateCall}
    (h : Along RateState.call OnTime (.start clock) calls) {key : CallKey} {m : ℕ}
    (hm : ∀ c ∈ calls, c.key = key → c.maxCalls = m)
    (hkeep : Along RateState.call (fun s c => ¬ s.Evicts c.now key) (.start clock) calls) (t : ℤ) :
    acceptedIn t key (calls.foldl RateState.call (.start clock)) ≤ m := by
  refine (((h.and hkeep).and (along_of_forall_mem hm _)).invariant
    (P := fun s => Recorded s ∧ Kept key s ∧ ∀ t, acceptedIn t key s ≤ m) ?_ ?_).2.2 t
  · intro s c ⟨hrec, hkept, hlimit⟩ ⟨⟨hc, hin⟩, hmax⟩
    exact ⟨hrec.call hc, hkept.call hrec hc hin, hkept.acceptedIn_le hrec hc hin hmax hlimit⟩
  · exact ⟨.start clock, rfl, fun _ => Nat.zero_le m⟩

/-- **The rate limit.**  A call is refused only if as many calls of its pair as it allows were
accepted within the last window.  A pair whose calls all allow `m` has at most `m` accepted in every
window as long as no sweep throws it out; one that a sweep is about to throw out can have more at
once. -/
theorem rpc_rate_limit (clock : ℤ) (calls : List RateCall)
    (hclock : Along RateState.call OnTime (.start clock) calls) :
    let s := calls.foldl RateState.call (.start clock)
    (∀ c, OnTime s c → s.accepts c = false →
      c.maxCalls ≤ (recent id defaultWindowSeconds c.now (s.acceptedTimes c.key)).length) ∧
    ∀ key m, (∀ c ∈ calls, c.key = key → c.maxCalls = m) →
      (Along RateState.call (fun s c => ¬ s.Evicts c.now key) (.start clock) calls →
        ∀ t, acceptedIn t key s ≤ m) ∧
      (∀ now, s.clock ≤ now → s.Evicts now key →
        ∃ t, m < acceptedIn t key ((List.replicate m ⟨now, key, m⟩).foldl RateState.call s)) := by
  intro s
  have hrec : Recorded s := recorded_run hclock
  refine ⟨fun c _ hrefused => hrec.refused hrefused,
    fun key m hm => ⟨fun hkeep t => ?_, fun now hnow hout => ?_⟩⟩
  · exact limit_run hclock hm hkeep t
  · exact ⟨_, evicted_exceeds hrec hnow hout m⟩

/-- Three calls of one pair that allows one. -/
theorem rpc_rate_limit_three :
    let key : CallKey := ⟨[1], [2]⟩
    let calls : List RateCall := [⟨100, key, 1⟩, ⟨130, key, 1⟩, ⟨170, key, 1⟩]
    Along RateState.call OnTime (.start 0) calls ∧
      (calls.foldl RateState.call (.start 0)).acceptedTimes key = [100, 170] ∧
      ∀ t, acceptedIn t key (calls.foldl RateState.call (.start 0)) ≤ 1 := by
  intro key calls
  have hclock : Along RateState.call OnTime (.start 0) calls := by
    simp only [calls, Along, OnTime]
    decide
  refine ⟨hclock, by decide +kernel, ((rpc_rate_limit 0 calls hclock).2 key 1 (by decide)).1 ?_⟩
  refine ⟨not_evicts_of_fit ?_ key, not_evicts_of_fit ?_ key, not_evicts_of_fit ?_ key, trivial⟩
  all_goals decide +kernel

/-! ### A flood of pairs -/

/-- Peers in the order of their numbers. -/
def floodKey (i : ℕ) : CallKey := ⟨[], [UInt8.ofNat (i / 256), UInt8.ofNat (i % 256)]⟩

theorem floodKey_lt {i j : ℕ} (h : i < j) (hj : j < 65536) : floodKey i < floodKey j := by
  have hbyte : ∀ n < 256, (UInt8.ofNat n).toNat = n := fun n hn => UInt8.toNat_ofNat_of_lt' hn
  show CallKey.rank (floodKey i) < CallKey.rank (floodKey j)
  rw [CallKey.rank, CallKey.rank, Prod.Lex.toLex_lt_toLex]
  refine Or.inr ⟨rfl, ?_⟩
  simp only [floodKey, List.map_cons, List.map_nil, hbyte _ (Nat.mod_lt _ (by decide : 0 < 256)),
    hbyte (i / 256) (by omega), hbyte (j / 256) (by omega), List.cons_lt_cons_iff, List.not_lt_nil,
    and_false, or_false]
  omega

/-- A call that allows one, by peer `i`. -/
def floodCall (i : ℕ) : RateCall := ⟨61, floodKey i, 1⟩

/-- Peer `n - 1` first, peer `0` last. -/
def floodCalls (n : ℕ) : List RateCall := (List.range n).reverse.map floodCall

theorem floodCalls_succ (n : ℕ) : floodCalls (n + 1) = floodCall n :: floodCalls n := by
  rw [floodCalls, List.range_succ, List.reverse_append]
  rfl

/-- The limiter while the flood goes on: no sweep is due, and the entries are given. -/
structure Flooding (entries : List (CallKey × List ℤ)) (s : RateState) : Prop where
  entries_eq : s.limiter.callTimes.entries = entries
  cleanup_eq : s.limiter.lastCleanup = 60
  clock_le : s.clock ≤ 61

/-- A smaller key than all others comes to the front. -/
theorem Flooding.call {entries : List (CallKey × List ℤ)} {s : RateState} (h : Flooding entries s)
    {n : ℕ} (hsmall : ∀ e ∈ entries, floodKey n < e.1) :
    Flooding ((floodKey n, [61]) :: entries) (s.call (floodCall n)) := by
  have hclean : s.limiter.cleanupOldEntries 61 = s.limiter := by
    rw [cleanupOldEntries, h.cleanup_eq]
    rfl
  have hnone : s.limiter.timesOf (floodKey n) = [] := by
    have hfind : s.limiter.callTimes.find (floodKey n) = none := by
      rw [Option.eq_none_iff_forall_not_mem]
      intro times htimes
      have hmem := (OrderedMap.mem_entries_iff _ _ _).mpr htimes
      rw [h.entries_eq] at hmem
      exact lt_irrefl _ (hsmall _ hmem)
    rw [timesOf, hfind]
    rfl
  obtain ⟨-, -, heq⟩ | ⟨hfull, -, -⟩ := call_cases s (floodCall n)
  · rw [heq]
    refine ⟨?_, ?_, le_rfl⟩
    · simp only [floodCall, hclean, hnone]
      show insertEntry (floodKey n) _ s.limiter.callTimes.entries = _
      rw [h.entries_eq]
      cases entries with
      | nil => rfl
      | cons e rest => exact if_pos (hsmall e List.mem_cons_self)
    · simp only [floodCall, hclean, h.cleanup_eq]
  · simp only [floodCall, hclean, hnone] at hfull
    exact absurd hfull (by decide)

theorem Flooding.run :
    ∀ {n : ℕ} {entries : List (CallKey × List ℤ)} {s : RateState}, Flooding entries s →
    (∀ e ∈ entries, ∀ i < n, floodKey i < e.1) → n < 65536 →
    Flooding ((List.range n).map (fun i => (floodKey i, [61])) ++ entries)
        ((floodCalls n).foldl RateState.call s) ∧
      Along RateState.call OnTime s (floodCalls n) := by
  intro n
  induction n with
  | zero => exact fun h _ _ => ⟨h, trivial⟩
  | succ n ih =>
    intro entries s h hsmall hn
    have hnext := h.call fun e he => hsmall e he n (Nat.lt_succ_self n)
    obtain ⟨hrun, htime⟩ := ih hnext (fun e he i hi => by
      rcases List.mem_cons.mp he with rfl | he
      · exact floodKey_lt hi (by omega)
      · exact hsmall e he i (Nat.lt_succ_of_lt hi)) (by omega)
    rw [floodCalls_succ, List.range_succ, List.map_append, List.append_assoc]
    exact ⟨hrun, h.clock_le, htime⟩

/-- The sweep a minute later finds all of them alive, and throws the smallest out. -/
theorem Flooding.evicts {n : ℕ} (hn : maxTrackedIps ≤ n) {s : RateState}
    (h : Flooding ((List.range n).map (fun i => (floodKey i, [61])) ++ [(floodKey n, [60])]) s) :
    s.Evicts 120 (floodKey 0) := by
  have hsweep : (sweep 120 s.limiter.callTimes).entries = s.limiter.callTimes.entries := by
    have hall : ∀ e ∈ s.limiter.callTimes.entries,
        (if (pruneTimes 120 e.2).isEmpty then none
          else some (pruneTimes 120 e.2)).map (e.1, ·) = some e := by
      intro e he
      rw [h.entries_eq] at he
      rcases List.mem_append.mp he with he | he
      · obtain ⟨i, -, rfl⟩ := List.mem_map.mp he
        rfl
      · rw [List.mem_singleton.mp he]
        rfl
    exact (List.filterMap_congr hall).trans List.filterMap_some
  have hlength : s.limiter.callTimes.entries.length = n + 1 := by
    rw [h.entries_eq, List.length_append, List.length_map, List.length_range, List.length_singleton]
  obtain ⟨k, rfl⟩ : ∃ k, n = k + 1 := ⟨n - 1, by unfold maxTrackedIps at hn; omega⟩
  refine ⟨by rw [h.cleanup_eq]; decide, [61], ?_⟩
  obtain ⟨d, hd⟩ : ∃ d, excess (sweep 120 s.limiter.callTimes) = d + 1 := by
    refine ⟨k + 1 - maxTrackedIps, ?_⟩
    rw [excess, hsweep, hlength]
    omega
  rw [hsweep, hd, h.entries_eq, List.range_succ_eq_map, List.map_cons, List.cons_append,
    List.take_succ_cons]
  exact List.mem_cons_self

/-- The flood and another call of the smallest pair. -/
def floodRun (n : ℕ) : List RateCall :=
  ⟨60, floodKey n, 1⟩ :: floodCalls n ++ [⟨120, floodKey 0, 1⟩]

theorem floodRun_exceeds {n : ℕ} (hn : maxTrackedIps ≤ n) (hlt : n < 65536) :
    Along RateState.call OnTime (.start 0) (floodRun n) ∧
      1 < acceptedIn 60 (floodKey 0) ((floodRun n).foldl RateState.call (.start 0)) := by
  have hclean : RPCRateLimiter.new.cleanupOldEntries 60 = ⟨.empty, 60⟩ := by
    rw [cleanupOldEntries, if_neg (by decide)]
    rfl
  have hstart : Flooding [(floodKey n, [60])] ((RateState.start 0).call ⟨60, floodKey n, 1⟩) := by
    simp only [RateState.call, RateState.start, checkAndRecord, hclean]
    exact ⟨rfl, rfl, show (60 : ℤ) ≤ 61 by decide⟩
  obtain ⟨hflood, htime⟩ := hstart.run (fun e he i hi => by
    rw [List.mem_singleton.mp he]
    exact floodKey_lt hi hlt) hlt
  have hclock : Along RateState.call OnTime (.start 0) (⟨60, floodKey n, 1⟩ :: floodCalls n) :=
    ⟨show (0 : ℤ) ≤ 60 by decide, htime⟩
  have hrec := recorded_run hclock
  rw [← List.foldl_cons] at hflood
  generalize hs : (⟨60, floodKey n, 1⟩ :: floodCalls n).foldl RateState.call (.start 0) =
    s at hrec hflood
  have hlate : s.clock ≤ 120 := hflood.clock_le.trans (by decide)
  have hmore := evicted_exceeds hrec hlate (hflood.evicts hn) 1
  refine ⟨hclock.append ?_, ?_⟩
  · rw [hs]
    exact ⟨hlate, trivial⟩
  · rw [floodRun, List.foldl_append, hs]
    exact hmore

theorem floodRun_maxCalls (n : ℕ) : ∀ c ∈ floodRun n, c.maxCalls = 1 := by
  intro c hc
  simp only [floodRun, floodCalls, List.cons_append, List.mem_append, List.mem_cons, List.mem_map,
    List.not_mem_nil, or_false] at hc
  obtain rfl | ⟨i, -, rfl⟩ | rfl := hc <;> rfl

/-- One pair more than are tracked: two calls of the smallest within a minute, although it allows
one. -/
theorem flooded_pair_exceeds :
    Along RateState.call OnTime (.start 0) (floodRun 10000) ∧
      (∀ c ∈ floodRun 10000, c.maxCalls = 1) ∧
      1 < acceptedIn 60 (floodKey 0) ((floodRun 10000).foldl RateState.call (.start 0)) :=
  ⟨(floodRun_exceeds le_rfl (by decide)).1, floodRun_maxCalls 10000,
    (floodRun_exceeds le_rfl (by decide)).2⟩

end OpenSY.Rpc
