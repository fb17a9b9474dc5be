import OpenSY.Lib.AtomicRegister
import OpenSY.Rpc.Tokens

/-!
# The cooldown of the wallet's token calls

`EnforceWalletTokenRateLimit` has one atomic integer, the time of the last call that it let through.
A call reads the clock, loads the integer, and tries to put its own time in place of the one it has
loaded, as long as that is old enough.  Calls of all threads run at the same time, and what the
clock shows is arbitrary at every step.

* `enforceWalletTokenRateLimit` — one step of a call, up to its next access to the clock or to the
  integer;
* `Limiter.Sound` — the invariant: a call that is about to exchange has checked its time against the
  value that it expects, and that value is what it has read last;
* `cooldown_admits_one` — the times of the calls that pass are a cooldown apart, and a call goes
  round its loop again only if another call has passed since it read the integer.
-/

namespace OpenSY.Rpc.Cooldown

open OpenSY.AtomicRegister OpenSY.Transition

/-! ### The clock -/

/-- The system clock counts ticks.  How many make a second depends on the platform. -/
structure SystemClock where
  ticksPerSecond : Int64
  ticks_pos : 0 < ticksPerSecond

/-- What the node's clock finds: the seconds set for a test, 0 if there are none, and the ticks of
the system clock. -/
structure ClockState where
  gMockTime : Int64
  systemTime : Int64

/-- `NodeClock::now`, in ticks.  If the assertion fails then the process ends. -/
def nodeClockNow (clock : SystemClock) (t : ClockState) : Option Int64 :=
  -- the product wraps if the seconds are too many
  let ret := if t.gMockTime ≠ 0 then t.gMockTime * clock.ticksPerSecond else t.systemTime
  if ret > 0 then some ret else none

def getTime (clock : SystemClock) (t : ClockState) : Option Int64 :=
  (nodeClockNow clock t).map (· / clock.ticksPerSecond)

/-- The assertion keeps the time from being negative. -/
theorem getTime_nonneg {clock : SystemClock} {t : ClockState} {now : Int64}
    (h : getTime clock t = some now) :
    0 ≤ now.toInt := by
  obtain ⟨ret, hret, rfl⟩ := Option.map_eq_some_iff.mp h
  simp only [nodeClockNow, gt_iff_lt, Option.ite_none_right_eq_some, Option.some.injEq] at hret
  obtain ⟨hpos, rfl⟩ := hret
  have hret_pos := Int64.lt_iff_toInt_lt.mp hpos
  have hticks_pos : 0 < clock.ticksPerSecond.toInt := Int64.lt_iff_toInt_lt.mp clock.ticks_pos
  have hne : clock.ticksPerSecond ≠ -1 := by
    intro hticks
    rw [hticks] at hticks_pos
    exact absurd hticks_pos (by decide)
  rw [Int64.toInt_div_of_ne_right _ _ hne]
  exact Int.tdiv_nonneg hret_pos.le hticks_pos.le

/-! ### A call -/

inductive ChainType where
  | main | testnet | signet | regtest | testnet4
  deriving DecidableEq

def walletTokenRpcCooldownSecs : Int64 := 1

def rateLimited : JSONRPCError :=
  ⟨rpcMiscError, "Token wallet RPC rate limited. Try again shortly."⟩

/-- How far a call has got, with its local variables. -/
inductive Stage where
  | waiting
  /-- about to read the clock -/
  | entered
  /-- about to load the integer -/
  | timed (now : Int64)
  /-- at the top of the loop -/
  | checking (now last : Int64)
  /-- about to exchange -/
  | exchanging (now last : Int64)
  /-- without an error; with the time that it has put into the integer, if it has -/
  | returned (slot : Option Int64)
  | threw (error : JSONRPCError)
  deriving DecidableEq

/-- The integer, with its accesses by the numbers of the calls. -/
abbrev LastCall : Type := Register ℕ Int64 0

/-- One step of call `i`, while the clock shows `t`.  There is none if the call is over, or if the
process ends. -/
def enforceWalletTokenRateLimit (clock : SystemClock) (chainType : ChainType) (t : ClockState)
    (i : ℕ) (g : LastCall) : Stage → Option (Stage × LastCall)
  | .waiting => some (if chainType = .regtest then .returned none else .entered, g)
  | .entered => (getTime clock t).map fun now => (.timed now, g)
  | .timed now =>
    let loaded := g.load i
    some (.checking now loaded.1, loaded.2)
  | .checking now last =>
    if now - last < walletTokenRpcCooldownSecs then some (.threw rateLimited, g)
    else some (.exchanging now last, g)
  | .exchanging now last =>
    let swapped := g.compareExchangeStrong i last now
    if swapped.1 then some (.returned (some now), swapped.2.2)
    -- `last` is the value that was found, and the loop goes round again
    else some (.checking now swapped.2.1, swapped.2.2)
  | .returned _ => none
  | .threw _ => none

/-- What a step of call `i` makes of its stage and of the integer. -/
inductive Stepped (clock : SystemClock) (chainType : ChainType) (i : ℕ) (g : LastCall) :
    Stage → Stage → LastCall → Prop
  | skip (hchain : chainType = .regtest) : Stepped clock chainType i g .waiting (.returned none) g
  | enter : Stepped clock chainType i g .waiting .entered g
  | readClock {now : Int64} (hnow : 0 ≤ now.toInt) :
      Stepped clock chainType i g .entered (.timed now) g
  | load (now : Int64) :
      Stepped clock chainType i g (.timed now) (.checking now g.value)
        (g.record ⟨.loaded, i, g.value⟩ (g.fits_loaded i))
  | refuse {now last : Int64} :
      Stepped clock chainType i g (.checking now last) (.threw rateLimited) g
  | accept {now last : Int64} (hcooldown : ¬ now - last < walletTokenRpcCooldownSecs) :
      Stepped clock chainType i g (.checking now last) (.exchanging now last) g
  | exchange {now last : Int64} (hvalue : g.value = last) :
      Stepped clock chainType i g (.exchanging now last) (.returned (some now))
        (g.record ⟨.exchanged, i, now⟩ (g.fits_exchanged i now))
  | retry {now last : Int64} (hvalue : g.value ≠ last) :
      Stepped clock chainType i g (.exchanging now last) (.checking now g.value)
        (g.record ⟨.kept, i, g.value⟩ (g.fits_kept i))

/-- **The inversion of a step.** -/
theorem stepped {clock : SystemClock} {chainType : ChainType} {t : ClockState} {i : ℕ}
    {g g' : LastCall} {stage stage' : Stage}
    (h : enforceWalletTokenRateLimit clock chainType t i g stage = some (stage', g')) :
    Stepped clock chainType i g stage stage' g' := by
  cases stage with
  | waiting =>
    simp only [enforceWalletTokenRateLimit, Option.some.injEq, Prod.mk.injEq] at h
    obtain ⟨rfl, rfl⟩ := h
    by_cases hchain : chainType = .regtest
    · rw [if_pos hchain]
      exact .skip hchain
    · rw [if_neg hchain]
      exact .enter
  | entered =>
    obtain ⟨now, hnow, hnext⟩ := Option.map_eq_some_iff.mp h
    obtain ⟨rfl, rfl⟩ := Prod.mk.inj hnext
    exact .readClock (getTime_nonneg hnow)
  | timed now =>
    obtain ⟨rfl, rfl⟩ := Prod.mk.inj (Option.some.inj h)
    exact .load now
  | checking now last =>
    simp only [enforceWalletTokenRateLimit] at h
    by_cases hcooldown : now - last < walletTokenRpcCooldownSecs
    · rw [if_pos hcooldown] at h
      obtain ⟨rfl, rfl⟩ := Prod.mk.inj (Option.some.inj h)
      exact .refuse
    · rw [if_neg hcooldown] at h
      obtain ⟨rfl, rfl⟩ := Prod.mk.inj (Option.some.inj h)
      exact .accept hcooldown
  | exchanging now last =>
    simp only [enforceWalletTokenRateLimit] at h
    by_cases hvalue : g.value = last
    · simp only [g.compareExchangeStrong_of_eq i now hvalue, if_true] at h
      obtain ⟨rfl, rfl⟩ := Prod.mk.inj (Option.some.inj h)
      exact .exchange hvalue
    · simp only [g.compareExchangeStrong_of_ne i now hvalue, Bool.false_eq_true, if_false] at h
      obtain ⟨rfl, rfl⟩ := Prod.mk.inj (Option.some.inj h)
      exact .retry hvalue
  | returned slot => cases h
  | threw error => cases h

/-! ### All calls -/

/-- The integer and the calls, which have not begun at first.  A thread that calls again has another
number then. -/
structure Limiter where
  gLastWalletTokenRpc : LastCall := .new 0
  calls : ℕ → Stage := fun _ => .waiting

/-- Which call does its next step, and what the clock shows then. -/
structure Action where
  call : ℕ
  clock : ClockState

namespace Limiter

def move (s : Limiter) (i : ℕ) (stage : Stage) (g : LastCall) : Limiter where
  gLastWalletTokenRpc := g
  calls := Function.update s.calls i stage

theorem move_calls_self (s : Limiter) (i : ℕ) (stage : Stage) (g : LastCall) :
    (s.move i stage g).calls i = stage :=
  Function.update_self ..

theorem move_calls_of_ne (s : Limiter) {i j : ℕ} (hji : j ≠ i) (stage : Stage) (g : LastCall) :
    (s.move i stage g).calls j = s.calls j :=
  Function.update_of_ne hji ..

def step (clock : SystemClock) (chainType : ChainType) (s : Limiter)
    (a : Action) : Option Limiter :=
  (enforceWalletTokenRateLimit clock chainType a.clock a.call s.gLastWalletTokenRpc
    (s.calls a.call)).map fun next => s.move a.call next.1 next.2

def history (s : Limiter) : List (Access ℕ Int64) := s.gLastWalletTokenRpc.history

/-- The calls that have exchanged the integer, in this order, with the times they have put there. -/
def passes (s : Limiter) : List (ℕ × Int64) := exchanges s.history

theorem passes_move_read (s : Limiter) (i : ℕ) (stage : Stage) {a : Access ℕ Int64}
    (ha : a.kind ≠ .exchanged) (hfits : a.Fits s.gLastWalletTokenRpc.value) :
    (s.move i stage (s.gLastWalletTokenRpc.record a hfits)).passes = s.passes :=
  exchanges_concat_read s.history ha

theorem passes_move_exchange (s : Limiter) (i : ℕ) (stage : Stage) {a : Access ℕ Int64}
    (ha : a.kind = .exchanged) (hfits : a.Fits s.gLastWalletTokenRpc.value) :
    (s.move i stage (s.gLastWalletTokenRpc.record a hfits)).passes = s.passes ++
      [(a.caller, a.value)] :=
  exchanges_concat_exchange s.history ha

theorem step_eq_some {clock : SystemClock} {chainType : ChainType} {s s' : Limiter} {a : Action}
    (h : s.step clock chainType a = some s') :
    ∃ stage g, Stepped clock chainType a.call s.gLastWalletTokenRpc (s.calls a.call) stage g ∧
      s' = s.move a.call stage g := by
  obtain ⟨next, hnext, rfl⟩ := Option.map_eq_some_iff.mp h
  exact ⟨next.1, next.2, stepped hnext, rfl⟩

end Limiter

def cooldownMachine (clock : SystemClock) (chainType : ChainType) : Machine Limiter Action where
  start s := s = {}
  step := Limiter.step clock chainType

/-! ### The invariant -/

/-- A call at `now` may follow one at `last`. -/
def Spaced (last now : Int64) : Prop := last.toInt + walletTokenRpcCooldownSecs.toInt ≤ now.toInt

/-- Times that are not negative have a difference. -/
theorem toInt_sub_of_nonneg {now last : Int64} (hnow : 0 ≤ now.toInt) (hlast : 0 ≤ last.toInt) :
    (now - last).toInt = now.toInt - last.toInt := by
  have hnow_lt := now.toInt_lt
  have hlast_lt := last.toInt_lt
  rw [Int64.toInt_sub]
  apply Int.bmod_eq_of_le <;> omega

theorem spaced_of_not_lt {now last : Int64} (hnow : 0 ≤ now.toInt) (hlast : 0 ≤ last.toInt)
    (h : ¬ now - last < walletTokenRpcCooldownSecs) : Spaced last now := by
  rw [Int64.lt_iff_toInt_lt, toInt_sub_of_nonneg hnow hlast] at h
  unfold Spaced
  omega

/-- What call `i` has made sure of at its stage. -/
def Stage.Sound (history : List (Access ℕ Int64)) (i : ℕ) : Stage → Prop
  | .waiting | .entered | .threw _ => True
  | .timed now => 0 ≤ now.toInt
  | .checking now last => 0 ≤ now.toInt ∧ 0 ≤ last.toInt ∧ LastRead i last history
  | .exchanging now last => 0 ≤ now.toInt ∧ Spaced last now ∧ LastRead i last history
  | .returned slot => ∃ now, slot = some now ∧ (i, now) ∈ exchanges history

/-- Accesses of other calls take nothing from it. -/
theorem Stage.Sound.concat {history : List (Access ℕ Int64)} {i : ℕ} {stage : Stage}
    (h : stage.Sound history i) {a : Access ℕ Int64} (ha : a.caller ≠ i) :
    stage.Sound (history ++ [a]) i := by
  cases stage with
  | waiting | entered | threw error => trivial
  | timed now => exact h
  | checking now last => exact ⟨h.1, h.2.1, h.2.2.concat ha⟩
  | exchanging now last => exact ⟨h.1, h.2.1, h.2.2.concat ha⟩
  | returned slot =>
    obtain ⟨now, hslot, hmem⟩ := h
    exact ⟨now, hslot, mem_exchanges_concat hmem a⟩

structure Limiter.Sound (s : Limiter) : Prop where
  value_nonneg : 0 ≤ s.gLastWalletTokenRpc.value.toInt
  spaced : Admits Spaced 0 s.history
  calls : ∀ i, (s.calls i).Sound s.history i
  passed : ∀ i now, (i, now) ∈ s.passes → s.calls i = .returned (some now)
  nodup : (s.passes.map Prod.fst).Nodup

theorem Limiter.sound_start : Limiter.Sound {} where
  value_nonneg := by decide
  spaced := trivial
  calls := fun _ => trivial
  passed := fun _ _ h => absurd h List.not_mem_nil
  nodup := .nil

namespace Limiter.Sound

variable {s : Limiter} {i : ℕ} {stage : Stage}

/-- A call that is not over is none of those that have passed. -/
theorem passed_move (h : s.Sound) (hgoing : ∀ slot, s.calls i ≠ .returned slot) (stage : Stage)
    (g : LastCall) {j : ℕ} {now : Int64} (hmem : (j, now) ∈ s.passes) :
    (s.move i stage g).calls j = .returned (some now) := by
  have hj := h.passed j now hmem
  have hji : j ≠ i := by
    rintro rfl
    exact hgoing _ hj
  rw [s.move_calls_of_ne hji]
  exact hj

/-- The call that moves is sound afterwards, and so are the others. -/
theorem calls_move (h : s.Sound) {a : Access ℕ Int64} (ha : a.caller = i)
    (hstage : stage.Sound (s.history ++ [a]) i) (g : LastCall) (j : ℕ) :
    ((s.move i stage g).calls j).Sound (s.history ++ [a]) j := by
  by_cases hji : j = i
  · subst hji
    rw [s.move_calls_self]
    exact hstage
  · rw [s.move_calls_of_ne hji]
    apply (h.calls j).concat
    rw [ha]
    exact Ne.symm hji

/-- A step without an access to the integer. -/
theorem move_local (h : s.Sound) (hgoing : ∀ slot, s.calls i ≠ .returned slot)
    (hstage : stage.Sound s.history i) : (s.move i stage s.gLastWalletTokenRpc).Sound where
  value_nonneg := h.value_nonneg
  spaced := h.spaced
  calls := by
    intro j
    by_cases hji : j = i
    · subst hji
      rw [s.move_calls_self]
      exact hstage
    · rw [s.move_calls_of_ne hji]
      exact h.calls j
  passed := fun _ _ hmem => h.passed_move hgoing stage _ hmem
  nodup := h.nodup

/-- A load, and an exchange that fails. -/
theorem move_read (h : s.Sound) (hgoing : ∀ slot, s.calls i ≠ .returned slot) {now : Int64}
    (hnow : 0 ≤ now.toInt) {kind : Kind} (hkind : kind ≠ .exchanged)
    (hfits : (Access.mk kind i s.gLastWalletTokenRpc.value).Fits s.gLastWalletTokenRpc.value) :
    (s.move i (.checking now s.gLastWalletTokenRpc.value)
      (s.gLastWalletTokenRpc.record ⟨kind, i, s.gLastWalletTokenRpc.value⟩ hfits)).Sound where
  value_nonneg := h.value_nonneg
  spaced := s.gLastWalletTokenRpc.along_concat h.spaced fun hexchanged => absurd hexchanged hkind
  calls := by
    have hcall : Stage.Sound (s.history ++ [⟨kind, i, s.gLastWalletTokenRpc.value⟩]) i
        (.checking now s.gLastWalletTokenRpc.value) :=
      ⟨hnow, h.value_nonneg, lastRead_concat s.history hkind⟩
    exact h.calls_move rfl hcall _
  passed := by
    intro j time hmem
    rw [s.passes_move_read i _ hkind] at hmem
    exact h.passed_move hgoing _ _ hmem
  nodup := by
    rw [s.passes_move_read i _ hkind]
    exact h.nodup

/-- An exchange that succeeds: the value it replaces is the one that was checked. -/
theorem move_exchange (h : s.Sound) {now : Int64}
    (hstage : s.calls i = .exchanging now s.gLastWalletTokenRpc.value) :
    (s.move i (.returned (some now))
      (s.gLastWalletTokenRpc.record ⟨.exchanged, i, now⟩
        (s.gLastWalletTokenRpc.fits_exchanged i now))).Sound := by
  have hcall := h.calls i
  rw [hstage] at hcall
  obtain ⟨hnow, hspaced, -⟩ := hcall
  have hgoing : ∀ slot, s.calls i ≠ .returned slot := by
    intro slot
    rw [hstage]
    simp
  constructor
  case value_nonneg => exact hnow
  case spaced =>
    exact s.gLastWalletTokenRpc.along_concat h.spaced fun _ => hspaced
  case calls =>
    have hcall : Stage.Sound (s.history ++ [⟨.exchanged, i, now⟩]) i (.returned (some now)) := by
      refine ⟨now, rfl, ?_⟩
      rw [exchanges_concat_exchange s.history rfl]
      exact List.mem_append_right _ List.mem_cons_self
    exact h.calls_move rfl hcall _
  case passed =>
    intro j time hmem
    rw [s.passes_move_exchange i _ rfl] at hmem
    rcases List.mem_append.mp hmem with hold | hnew
    · exact h.passed_move hgoing _ _ hold
    · obtain ⟨rfl, rfl⟩ := Prod.mk.inj (List.mem_singleton.mp hnew)
      exact s.move_calls_self ..
  case nodup =>
    rw [s.passes_move_exchange i _ rfl, List.map_append, List.map_singleton,
      ← List.concat_eq_append]
    refine List.Nodup.concat (fun hmem => ?_) h.nodup
    -- it has not passed before, since it is not over
    obtain ⟨⟨j, time⟩, hpair, rfl⟩ := List.mem_map.mp hmem
    exact hgoing _ (h.passed j time hpair)

/-- **One step.** -/
theorem step {clock : SystemClock} {chainType : ChainType} (hchain : chainType ≠ .regtest)
    {s' : Limiter} {a : Action} (h : s.Sound)
    (hstep : s.step clock chainType a = some s') : s'.Sound := by
  obtain ⟨stage', g, hstepped, rfl⟩ := step_eq_some hstep
  have hcall := h.calls a.call
  generalize hstage : s.calls a.call = stage at hstepped hcall
  have hgoing : (∀ slot, stage ≠ .returned slot) → ∀ slot, s.calls a.call ≠ .returned slot := by
    rw [hstage]
    exact id
  cases hstepped with
  | skip hregtest => exact absurd hregtest hchain
  | enter => exact h.move_local (hgoing (by simp)) trivial
  | readClock hnow => exact h.move_local (hgoing (by simp)) hnow
  | load now => exact h.move_read (hgoing (by simp)) hcall (by decide) _
  | refuse => exact h.move_local (hgoing (by simp)) trivial
  | accept hcooldown =>
    obtain ⟨hnow, hlast, hread⟩ := hcall
    exact h.move_local (hgoing (by simp)) ⟨hnow, spaced_of_not_lt hnow hlast hcooldown, hread⟩
  | exchange hvalue =>
    rw [← hvalue] at hstage
    exact h.move_exchange hstage
  | retry hvalue => exact h.move_read (hgoing (by simp)) hcall.1 (by decide) _

/-- **Every run.** -/
theorem run {clock : SystemClock} {chainType : ChainType} (hchain : chainType ≠ .regtest)
    (hrun : (cooldownMachine clock chainType).Run AnyAction s) : s.Sound := by
  refine hrun.induct ?_ ?_
  · rintro _ rfl
    exact sound_start
  · intro _ _ _ hsound _ hstep
    exact hsound.step hchain hstep

/-- A call that goes round again no longer finds the value that it has read last. -/
theorem overtaken (h : s.Sound) {now last : Int64} (hstage : s.calls i = .exchanging now last)
    (hvalue : s.gLastWalletTokenRpc.value ≠ last) : Overtaken i s.history := by
  have hcall := h.calls i
  rw [hstage] at hcall
  apply hcall.2.2.overtaken s.gLastWalletTokenRpc.coherent
  change valueAfter 0 s.gLastWalletTokenRpc.history ≠ last
  rw [s.gLastWalletTokenRpc.valueAfter_eq]
  exact hvalue

end Limiter.Sound

/-- Call `i` has tried to exchange and is at the top of its loop again. -/
def GoesRound (i : ℕ) (s s' : Limiter) : Prop :=
  (∃ now last, s.calls i = .exchanging now last) ∧ ∃ now last, s'.calls i = .checking now last

/-- **One call per interval.**  The calls that have returned without an error are those of `passes`,
each of them once, and their times, in the order of the exchanges, are a cooldown apart.  A call
goes round its loop again only if another call has passed behind its last read of the integer.  No
difference of times overflows. -/
theorem cooldown_admits_one (clock : SystemClock) {chainType : ChainType}
    (hchain : chainType ≠ .regtest) {s : Limiter}
    (hrun : (cooldownMachine clock chainType).Run AnyAction s) :
    ((s.passes.map Prod.snd).IsChain fun now now' =>
        now.toInt + walletTokenRpcCooldownSecs.toInt ≤ now'.toInt) ∧
      (∀ i slot, s.calls i = .returned slot ↔ ∃ now, slot = some now ∧ (i, now) ∈ s.passes) ∧
      (s.passes.map Prod.fst).Nodup ∧
      (∀ i t s', s.step clock chainType ⟨i, t⟩ = some s' → GoesRound i s s' →
        Overtaken i s.history) ∧
      ∀ i now last, s.calls i = .checking now last →
        (now - last).toInt = now.toInt - last.toInt := by
  have hsound := Limiter.Sound.run hchain hrun
  refine ⟨?_, ?_, hsound.nodup, ?_, ?_⟩
  · -- the chain begins with the 0 that no call has put there
    have hspaced := isChain_exchanges s.gLastWalletTokenRpc.coherent hsound.spaced
    exact hspaced.tail
  · intro i slot
    constructor
    · intro hstage
      have hcall := hsound.calls i
      rw [hstage] at hcall
      exact hcall
    · rintro ⟨now, rfl, hmem⟩
      exact hsound.passed i now hmem
  · rintro i t s' hstep ⟨⟨now, last, hstage⟩, now', last', hstage'⟩
    obtain ⟨stage', g, hstepped, rfl⟩ := Limiter.step_eq_some hstep
    rw [hstage] at hstepped
    cases hstepped with
    | exchange hvalue =>
      rw [Limiter.move_calls_self] at hstage'
      cases hstage'
    | retry hvalue => exact hsound.overtaken hstage hvalue
  · intro i now last hstage
    have hcall := hsound.calls i
    rw [hstage] at hcall
    exact toInt_sub_of_nonneg hcall.1 hcall.2.1

/-- Calls 0 and 1 load the 0 at the same time and read the seconds 5 and 6.  Call 0 passes, so call
1 goes round once more and passes then.  Call 2 has read the clock at 5 as well, and is refused. -/
theorem cooldown_admits_one_race :
    let clock : SystemClock := ⟨1000000000, by decide⟩
    let action : ℕ × Int64 → Action := fun p => ⟨p.1, ⟨0, p.2 * 1000000000⟩⟩
    let actions := [(0, 5), (0, 5), (0, 5), (0, 5), (1, 6), (1, 6), (1, 6), (1, 6), (2, 5), (2, 5),
      (0, 7), (1, 7), (1, 7), (1, 7), (2, 7), (2, 7)].map action
    ∃ s, (cooldownMachine clock .main).steps {} actions = some s ∧ s.passes = [(0, 5), (1, 6)] ∧
      s.calls 0 = .returned (some 5) ∧ s.calls 1 = .returned (some 6) ∧
        s.calls 2 = .threw rateLimited ∧
      ((s.passes.map Prod.snd).IsChain fun now now' =>
        now.toInt + walletTokenRpcCooldownSecs.toInt ≤ now'.toInt) := by
  intro clock action actions
  have hend : ((cooldownMachine clock .main).steps {} actions).map
        (fun s => (s.passes, s.calls 0, s.calls 1, s.calls 2)) =
      some ([(0, 5), (1, 6)], .returned (some 5), .returned (some 6), .threw rateLimited) := by
        decide
  obtain ⟨s, hsteps, hs⟩ := Option.map_eq_some_iff.mp hend
  simp only [Prod.mk.injEq] at hs
  obtain ⟨hpasses, hfirst, hsecond, hthird⟩ := hs
  have hrun : (cooldownMachine clock .main).Run AnyAction s := Machine.Run.steps (.start rfl) hsteps
  exact ⟨s, hsteps, hpasses, hfirst, hsecond, hthird,
    (cooldown_admits_one clock (by decide) hrun).1⟩

end OpenSY.Rpc.Cooldown
