import OpenSY.Lib.SlidingWindow
import OpenSY.Lib.Transition

/-!
# The limit on RandomX checks when blocks are served

Before an old block is served its proof of work is checked again, at most
`maxRandomXValidationsPerMinute` times a minute for each peer.  `tryConsumeRandomXServeSlot` counts
in windows of one minute: the first call after a window has run out starts the next one at zero.

The windows do not overlap, but a minute may lie across two of them.  So a peer gets up to twice the
limit in some minutes (`Windowed.call` with as many slots before the window as in it), and the limit
itself as long as no window is restarted within a minute of a granted call (`QuietRestart`).  Any
other restart can be followed by calls that exceed it.
-/

namespace OpenSY.Net

open OpenSY.SlidingWindow OpenSY.Transition

def maxRandomXValidationsPerMinute : ℕ := 10

/-- `std::chrono::minutes{1}`, in the nanoseconds of the steady clock. -/
def oneMinute : ℤ := 60 * 10 ^ 9

/-- The two fields of a peer that the limiter uses. -/
structure Peer where
  randomxServeCount : ℕ
  randomxServeWindowStart : ℤ
  deriving DecidableEq

/-- A peer that connects at time `now`. -/
def Peer.new (now : ℤ) : Peer := ⟨0, now⟩

def tryConsumeRandomXServeSlot (peer : Peer) (now : ℤ) : Bool × Peer :=
  let peer : Peer :=
    if now - peer.randomxServeWindowStart > oneMinute then
      { randomxServeCount := 0, randomxServeWindowStart := now }
    else peer
  if peer.randomxServeCount ≥ maxRandomXValidationsPerMinute then (false, peer)
  else (true, { peer with randomxServeCount := peer.randomxServeCount + 1 })

/-! ### Calls on one peer -/

/-- A peer with the times at which it was granted a slot, and the time of its last call. -/
structure Served where
  peer : Peer
  granted : List ℤ
  clock : ℤ

def Served.start (now : ℤ) : Served := ⟨.new now, [], now⟩

def Served.call (s : Served) (now : ℤ) : Served where
  peer := (tryConsumeRandomXServeSlot s.peer now).2
  granted := if (tryConsumeRandomXServeSlot s.peer now).1 then s.granted ++ [now] else s.granted
  clock := now

/-- The clock does not go back. -/
def OnTime (s : Served) (now : ℤ) : Prop := s.clock ≤ now

/-- The call finds the window of the peer run out. -/
def Restarts (s : Served) (now : ℤ) : Prop := now - s.peer.randomxServeWindowStart > oneMinute

/-- If the call restarts the window, no slot was granted within the last minute. -/
def QuietRestart (s : Served) (now : ℤ) : Prop :=
  Restarts s now → ∀ g ∈ s.granted, g < now - oneMinute

/-- The slots granted in the minute that starts at `t`. -/
def grantedInMinute (t : ℤ) (s : Served) : ℕ := windowWeight id (fun _ => 1) oneMinute t s.granted

/-- The window after a call at `now`, with the slots used in it so far. -/
def windowAt (peer : Peer) (now : ℤ) : Peer :=
  if now - peer.randomxServeWindowStart > oneMinute then ⟨0, now⟩ else peer

theorem tryConsumeRandomXServeSlot_eq (peer : Peer) (now : ℤ) :
    tryConsumeRandomXServeSlot peer now =
      if (windowAt peer now).randomxServeCount ≥ maxRandomXValidationsPerMinute then
        (false, windowAt peer now)
      else (true,
        ⟨(windowAt peer now).randomxServeCount + 1, (windowAt peer now).randomxServeWindowStart⟩) :=
  rfl

/-- **What a call does**: it moves to the window of its time and takes a slot there if one is left.
-/
theorem call_cases (s : Served) (now : ℤ) :
    let w := windowAt s.peer now
    (w.randomxServeCount < maxRandomXValidationsPerMinute ∧
      s.call now = ⟨⟨w.randomxServeCount + 1, w.randomxServeWindowStart⟩,
        s.granted ++ [now], now⟩) ∨
    (maxRandomXValidationsPerMinute ≤ w.randomxServeCount ∧ s.call now = ⟨w, s.granted, now⟩) := by
  intro w
  by_cases h : maxRandomXValidationsPerMinute ≤ w.randomxServeCount
  · refine Or.inr ⟨h, ?_⟩
    rw [Served.call, tryConsumeRandomXServeSlot_eq, if_pos h]
    rfl
  · refine Or.inl ⟨not_le.mp h, ?_⟩
    rw [Served.call, tryConsumeRandomXServeSlot_eq, if_neg h]
    rfl

/-! ### The window and the minute before it -/

/-- The slots granted since `t`. -/
def grantedSince (t : ℤ) (granted : List ℤ) : ℕ := (granted.filter fun g => t ≤ g).length

/-- The slots granted from `t` to before `t'`. -/
def grantedBetween (t t' : ℤ) (granted : List ℤ) : ℕ :=
  (granted.filter fun g => t ≤ g ∧ g < t').length

theorem grantedSince_append (t now : ℤ) (granted : List ℤ) :
    grantedSince t (granted ++ [now]) = grantedSince t granted + if t ≤ now then 1 else 0 := by
  rw [grantedSince, List.filter_append, List.length_append, grantedSince]
  by_cases h : t ≤ now
  · rw [if_pos h, List.filter_cons_of_pos (by simpa using h)]
    rfl
  · rw [if_neg h, List.filter_cons_of_neg (by simpa using h)]
    rfl

theorem grantedBetween_append {t t' now : ℤ} (h : t' ≤ now) (granted : List ℤ) :
    grantedBetween t t' (granted ++ [now]) = grantedBetween t t' granted := by
  have hout : ¬ (t ≤ now ∧ now < t') := by omega
  rw [grantedBetween, List.filter_append, List.filter_cons_of_neg (by simpa using hout),
    List.filter_nil, List.append_nil, grantedBetween]

theorem grantedSince_split {t t' : ℤ} (h : t ≤ t') (granted : List ℤ) :
    grantedSince t granted = grantedBetween t t' granted + grantedSince t' granted := by
  induction granted with
  | nil => rfl
  | cons g granted ih =>
    simp only [grantedSince, grantedBetween, List.filter_cons, decide_eq_true_eq] at ih ⊢
    by_cases hlow : t' ≤ g
    · rw [if_pos (by omega), if_neg (by omega), if_pos hlow, List.length_cons, List.length_cons]
      omega
    · by_cases hmid : t ≤ g
      · rw [if_pos hmid, if_pos (by omega), if_neg hlow, List.length_cons, List.length_cons]
        omega
      · rw [if_neg hmid, if_neg (by omega), if_neg hlow]
        exact ih

theorem grantedSince_antitone {t t' : ℤ} (h : t ≤ t') (granted : List ℤ) :
    grantedSince t' granted ≤ grantedSince t granted := by
  rw [grantedSince_split h]
  omega

/-- The minute that ends now, in the terms of sliding windows. -/
theorem recent_weight (now : ℤ) (granted : List ℤ) :
    ((recent id oneMinute now granted).map fun _ => 1).sum =
      grantedSince (now - oneMinute) granted :=
  sum_map_one _

/-- The slots granted so far, when at most `before` of them lie in the minute before the window. -/
structure Windowed (before : ℕ) (s : Served) : Prop where
  /-- Every slot was granted before the window ran out. -/
  granted_le : ∀ g ∈ s.granted, g ≤ s.peer.randomxServeWindowStart + oneMinute
  /-- The counter is the number of slots since the window started. -/
  count_eq : grantedSince s.peer.randomxServeWindowStart s.granted = s.peer.randomxServeCount
  count_le : s.peer.randomxServeCount ≤ maxRandomXValidationsPerMinute
  before_le : grantedBetween (s.peer.randomxServeWindowStart - oneMinute)
    s.peer.randomxServeWindowStart s.granted ≤ before
  minutes : ∀ t, grantedInMinute t s ≤ before + maxRandomXValidationsPerMinute

theorem Windowed.start (before : ℕ) (now : ℤ) : Windowed before (.start now) where
  granted_le _ hg := absurd hg (by simp [Served.start])
  count_eq := rfl
  count_le := Nat.zero_le _
  before_le := Nat.zero_le _
  minutes _ := Nat.zero_le _

/-- A window that is restarted has nothing in it yet. -/
theorem Windowed.restart {before : ℕ} {s : Served} (h : Windowed before s) {now : ℤ}
    (hnow : Restarts s now) (hbefore : grantedSince (now - oneMinute) s.granted ≤ before) :
    Windowed before { s with peer := ⟨0, now⟩ } := by
  have hold : ∀ g ∈ s.granted, g < now := by
    intro g hg
    have hle := h.granted_le g hg
    have hgap : now - s.peer.randomxServeWindowStart > oneMinute := hnow
    omega
  have hnone : grantedSince now s.granted = 0 := by
    rw [grantedSince, List.length_eq_zero_iff, List.filter_eq_nil_iff]
    intro g hg
    simpa using hold g hg
  have hminute : (0 : ℤ) ≤ oneMinute := by decide
  refine ⟨fun g hg => ?_, hnone, Nat.zero_le _, ?_, h.minutes⟩
  · have hlt := hold g hg
    show g ≤ now + oneMinute
    omega
  · show grantedBetween (now - oneMinute) now s.granted ≤ before
    rw [grantedSince_split (show now - oneMinute ≤ now by omega)] at hbefore
    omega

/-- **One call** keeps the count, if a restart finds few slots in its minute. -/
theorem Windowed.call {before : ℕ} {s : Served} (h : Windowed before s) {now : ℤ}
    (hstart : s.peer.randomxServeWindowStart ≤ now)
    (hbefore : Restarts s now → grantedSince (now - oneMinute) s.granted ≤ before) :
    Windowed before (s.call now) := by
  have hminute : (0 : ℤ) ≤ oneMinute := by decide
  -- first the window, then the slot
  have hw : Windowed before { s with peer := windowAt s.peer now } ∧
      (windowAt s.peer now).randomxServeWindowStart ≤ now ∧
      now ≤ (windowAt s.peer now).randomxServeWindowStart + oneMinute := by
    rw [windowAt]
    split_ifs with hrestart
    · exact ⟨h.restart hrestart (hbefore hrestart), le_rfl, by show now ≤ now + oneMinute; omega⟩
    · exact ⟨h, hstart, by omega⟩
  obtain ⟨hw, hle, hend⟩ := hw
  obtain ⟨hroom, heq⟩ | ⟨-, heq⟩ := call_cases s now
  · rw [heq]
    refine ⟨fun g hg => ?_, ?_, hroom, ?_, ?_⟩
    · rcases List.mem_append.mp hg with hg | hg
      · exact hw.granted_le g hg
      · rw [List.mem_singleton.mp hg]
        exact hend
    · have hcount := hw.count_eq
      simp only at hcount ⊢
      rw [grantedSince_append, if_pos hle, hcount]
    · rw [grantedBetween_append hle]
      exact hw.before_le
    · refine windowWeight_append_le hw.minutes rfl ?_
      show ((recent id oneMinute now s.granted).map fun _ => 1).sum + 1 ≤ _
      have hcount := hw.count_eq
      have hold := hw.before_le
      simp only at hcount hold
      generalize windowAt s.peer now = w at *
      have hsince : grantedSince (now - oneMinute) s.granted ≤
          grantedSince (w.randomxServeWindowStart - oneMinute) s.granted :=
        grantedSince_antitone (by omega) _
      have hsplit := grantedSince_split
        (show w.randomxServeWindowStart - oneMinute ≤ w.randomxServeWindowStart by omega) s.granted
      rw [recent_weight]
      omega
  · rw [heq]
    exact ⟨hw.granted_le, hw.count_eq, hw.count_le, hw.before_le, hw.minutes⟩

/-! ### Whole runs -/

/-- No time on record is later than the last call. -/
structure Past (s : Served) : Prop where
  window_le : s.peer.randomxServeWindowStart ≤ s.clock
  granted_le : ∀ g ∈ s.granted, g ≤ s.clock

theorem Past.start (now : ℤ) : Past (.start now) :=
  ⟨le_rfl, fun _ hg => absurd hg (by simp [Served.start])⟩

theorem Past.call {s : Served} (h : Past s) {now : ℤ}
    (hnow : OnTime s now) : Past (s.call now) := by
  have hlast : s.clock ≤ now := hnow
  have hgranted : ∀ g ∈ s.granted, g ≤ now := fun g hg => (h.granted_le g hg).trans hlast
  have hwindow : (windowAt s.peer now).randomxServeWindowStart ≤ now := by
    rw [windowAt]
    split_ifs
    · exact le_rfl
    · exact h.window_le.trans hlast
  obtain ⟨-, heq⟩ | ⟨-, heq⟩ := call_cases s now
  · rw [heq]
    refine ⟨hwindow, fun g hg => ?_⟩
    rcases List.mem_append.mp hg with hg | hg
    · exact hgranted g hg
    · rw [List.mem_singleton.mp hg]
  · rw [heq]
    exact ⟨hwindow, hgranted⟩

theorem past_run {now : ℤ} {calls : List ℤ} (h : Along Served.call OnTime (.start now) calls) :
    Past (calls.foldl Served.call (.start now)) :=
  h.invariant (fun _ _ hs hnow => hs.call hnow) (.start now)

/-- A restart finds in its minute slots of the last window only. -/
theorem Windowed.minute_le {before : ℕ} {s : Served} (h : Windowed before s) {now : ℤ}
    (hnow : Restarts s now) :
    grantedSince (now - oneMinute) s.granted ≤ maxRandomXValidationsPerMinute := by
  have hgap : now - s.peer.randomxServeWindowStart > oneMinute := hnow
  calc grantedSince (now - oneMinute) s.granted
      ≤ grantedSince s.peer.randomxServeWindowStart s.granted := grantedSince_antitone (by omega) _
    _ = s.peer.randomxServeCount := h.count_eq
    _ ≤ maxRandomXValidationsPerMinute := h.count_le

theorem windowed_run {now : ℤ} {calls : List ℤ} (h : Along Served.call OnTime (.start now) calls) :
    Windowed maxRandomXValidationsPerMinute (calls.foldl Served.call (.start now)) := by
  refine (h.invariant (P := fun s => Windowed maxRandomXValidationsPerMinute s ∧ Past s) ?_ ?_).1
  · intro s now hs hnow
    exact ⟨hs.1.call (hs.2.window_le.trans hnow) hs.1.minute_le, hs.2.call hnow⟩
  · exact ⟨.start _ _, .start _⟩

theorem windowed_quiet_run {now : ℤ} {calls : List ℤ}
    (h : Along Served.call OnTime (.start now) calls)
    (hquiet : Along Served.call QuietRestart (.start now) calls) :
    Windowed 0 (calls.foldl Served.call (.start now)) := by
  refine ((h.and hquiet).invariant (P := fun s => Windowed 0 s ∧ Past s) ?_ ?_).1
  · intro s now hs ⟨hnow, hrestart⟩
    refine ⟨hs.1.call (hs.2.window_le.trans hnow) fun hwindow => ?_, hs.2.call hnow⟩
    rw [Nat.le_zero, grantedSince, List.length_eq_zero_iff, List.filter_eq_nil_iff]
    intro g hg
    have hlt := hrestart hwindow g hg
    simp only [decide_eq_true_eq]
    omega
  · exact ⟨.start _ _, .start _⟩

/-- As long as the window has slots left, calls at one moment are all granted. -/
theorem granted_replicate (now : ℤ) : ∀ (k : ℕ) (s : Served),
    (windowAt s.peer now).randomxServeCount + k ≤ maxRandomXValidationsPerMinute →
    ((List.replicate k now).foldl Served.call s).granted = s.granted ++ List.replicate k now := by
  intro k
  induction k with
  | zero =>
    intro s _
    exact (List.append_nil _).symm
  | succ k ih =>
    intro s hroom
    obtain ⟨-, heq⟩ | ⟨hfull, -⟩ := call_cases s now
    · have hwindow : windowAt (s.call now).peer now = (s.call now).peer := by
        rw [heq, windowAt, if_neg]
        rw [windowAt]
        split_ifs with hrestart
        · show ¬ now - now > oneMinute
          rw [Int.sub_self]
          decide
        · exact hrestart
      rw [List.replicate_succ, List.foldl_cons, ih (s.call now), heq, List.append_assoc]
      · rfl
      · rw [hwindow, heq]
        show (windowAt s.peer now).randomxServeCount + 1 + k ≤ _
        omega
    · omega

/-- A restart within a minute of a granted call, and as many calls as a window allows, exceed the
limit. -/
theorem restart_exceeds {s : Served} (hpast : Past s) {now : ℤ} (hnow : OnTime s now)
    (hrestart : Restarts s now) (hquiet : ¬ QuietRestart s now) :
    maxRandomXValidationsPerMinute < grantedInMinute (now - oneMinute)
      ((List.replicate maxRandomXValidationsPerMinute now).foldl Served.call s) := by
  obtain ⟨g, hg, hlate⟩ : ∃ g ∈ s.granted, now - oneMinute ≤ g := by
    simp only [QuietRestart, not_forall, not_lt] at hquiet
    obtain ⟨-, g, hg, hlate⟩ := hquiet
    exact ⟨g, hg, hlate⟩
  have hwindow : windowAt s.peer now = ⟨0, now⟩ := if_pos hrestart
  have hin : g ∈ recent id oneMinute now s.granted := List.mem_filter.mpr ⟨hg, decide_eq_true hlate⟩
  have hpos := List.length_pos_of_mem hin
  rw [grantedInMinute, granted_replicate now _ s (by rw [hwindow]; exact le_of_eq (Nat.zero_add _)),
    windowWeight_append_replicate (by decide) fun g hg => (hpast.granted_le g hg).trans hnow]
  omega

/-- **Slots in a minute.**  There are never more than twice the limit.  The limit holds if every
restart is quiet, and a restart that is not can be followed by calls that exceed it. -/
theorem serve_slots_per_minute (now : ℤ) (calls : List ℤ)
    (hclock : Along Served.call OnTime (.start now) calls) :
    let s := calls.foldl Served.call (.start now)
    (Along Served.call QuietRestart (.start now) calls →
      ∀ t, grantedInMinute t s ≤ maxRandomXValidationsPerMinute) ∧
    (∀ t, grantedInMinute t s ≤ 2 * maxRandomXValidationsPerMinute) ∧
    (∀ later, OnTime s later → Restarts s later → ¬ QuietRestart s later →
      ∃ t, maxRandomXValidationsPerMinute <
        grantedInMinute t
          ((List.replicate maxRandomXValidationsPerMinute later).foldl Served.call s)) := by
  intro s
  refine ⟨fun hquiet t => ?_, fun t => ?_, fun later hlater hrestart hquiet => ?_⟩
  · exact ((windowed_quiet_run hclock hquiet).minutes t).trans (by rw [Nat.zero_add])
  · exact ((windowed_run hclock).minutes t).trans (by omega)
  · exact ⟨_, restart_exceeds (past_run hclock) hlater hrestart hquiet⟩

/-- Two calls in the first minute and one in the third. -/
theorem serve_slots_per_minute_quiet :
    Along Served.call OnTime (.start 0) [1, 2, 3 * oneMinute] ∧
      Along Served.call QuietRestart (.start 0) [1, 2, 3 * oneMinute] ∧
      ∀ t, grantedInMinute t ([1, 2, 3 * oneMinute].foldl Served.call (.start 0)) ≤
        maxRandomXValidationsPerMinute := by
  have hclock : Along Served.call OnTime (.start 0) [1, 2, 3 * oneMinute] := by
    simp only [Along, OnTime]
    decide
  have hquiet : Along Served.call QuietRestart (.start 0) [1, 2, 3 * oneMinute] := by
    simp only [Along, QuietRestart, Restarts]
    decide
  exact ⟨hclock, hquiet, (serve_slots_per_minute 0 _ hclock).1 hquiet⟩

/-- All slots of a window at its last moment, all of the next a nanosecond later: twenty in one
minute. -/
theorem two_windows_in_a_minute :
    let calls := List.replicate 10 oneMinute ++ List.replicate 10 (oneMinute + 1)
    Along Served.call OnTime (.start 0) calls ∧
      grantedInMinute oneMinute (calls.foldl Served.call (.start 0)) = 20 := by
  intro calls
  refine ⟨?_, by decide +kernel⟩
  simp only [calls, List.replicate, List.cons_append, List.nil_append, Along, OnTime]
  decide +kernel

end OpenSY.Net
