import OpenSY.Lib.Transition
import OpenSY.Mining.NonceRange
import OpenSY.Pow.Check
import Mathlib.Algebra.Order.BigOperators.Group.Finset

/-!
# The parallel nonce search

`GenerateBlock` divides the nonces among its mining threads.  Each one patches its nonce into the
serialised header, hashes it and checks the result; the first to find a solution wins a
compare-and-swap on `found` and then stores its nonce.  Between the reads and writes of the shared
variables the threads run in any order, and the relaxed read of `found` may be stale: a thread may
go on after another has won.

* `step_stepped` — what a step of a thread can do;
* `Searching` — what holds between any two steps;
* `nonce_search_sound` — a solution that is found is the one that is used, and it is used.
-/

namespace OpenSY.Mining

open OpenSY.Chain OpenSY.Consensus OpenSY.Pow OpenSY.Src20 OpenSY.Transition

/-! ### The threads -/

/-- What a call of `GenerateBlock` fixes before it starts the threads.  The VMs of an unchanged
dataset all compute one function. -/
structure MiningCall where
  params : Params
  block : CBlockHeader
  nHeight : ℤ
  numThreads : ℕ
  maxTries : ℕ
  hash : Bytes → Uint256
  one_le : 1 ≤ numThreads
  le_max : numThreads ≤ nonceMax

namespace MiningCall

variable (call : MiningCall)

def passes (headerData : Bytes) : Bool :=
  checkProofOfWorkImplAt call.params (call.hash headerData) call.block.nBits call.nHeight

def header (nonce : ℕ) : Bytes := serHeader (withNonce call.block nonce)

def maxThreadTries : ℕ := call.maxTries / call.numThreads

end MiningCall

/-- Where a thread is: before its VM, at the head of the loop, at the compare-and-swap, at the store
of the winner, at the end of the loop's body, at its end. -/
inductive Phase where
  | starting | looping | solved | publishing | counting | stopped
  deriving DecidableEq

structure MiningThread where
  phase : Phase := .starting
  nonce : ℕ := 0
  tries : ℕ := 0
  headerData : Bytes := []

/-- What a thread reads in a step from outside the search. -/
structure View where
  vmCreated : Bool := true
  sawFound : Bool := false
  interrupted : Bool := false
  epochChanged : Bool := false
  deriving DecidableEq

/-- The threads and what they share, with the log of the hashed nonces and bytes. -/
structure Search where
  threads : ℕ → MiningThread := fun _ => {}
  found : Bool := false
  winningNonce : ℕ := 0
  totalTries : ℕ := 0
  hashed : List (ℕ × Bytes) := []

def epochCheckInterval : ℕ := 1000

def Search.put (s : Search) (t : ℕ) (thread : MiningThread) : Search :=
  { s with threads := Function.update s.threads t thread }

section Steps

variable (call : MiningCall)

/-- The head of the loop and its body up to the check. -/
def Search.loop (s : Search) (t : ℕ) (view : View) : Search :=
  let thread := s.threads t
  if view.sawFound ∨ ¬ thread.nonce < endNonce call.numThreads t ∨
    ¬ thread.tries < call.maxThreadTries ∨
      view.interrupted then
    s.put t { thread with phase := .stopped }
  else if thread.tries % epochCheckInterval = 0 ∧ view.epochChanged then
    s.put t { thread with phase := .stopped }
  else
    let data := patchNonce thread.headerData thread.nonce
    { s.put t { thread with
      headerData := data, phase := if call.passes data then .solved else .counting } with hashed :=
      (thread.nonce, data) :: s.hashed }

/-- One step of thread `t`.  A read of `found` may be stale, but it does not see what was never
written. -/
def Search.step (s : Search) (a : ℕ × View) : Option Search :=
  let t := a.1
  let view := a.2
  let thread := s.threads t
  if t < call.numThreads ∧ (view.sawFound → s.found) then
    match thread.phase with
    | .starting =>
      if view.epochChanged ∨ ¬ view.vmCreated then some (s.put t { thread with phase := .stopped })
      else
        let nonce := startNonce call.numThreads t
        some (s.put t ⟨.looping, nonce, 0, call.header nonce⟩)
    | .looping => some (s.loop call t view)
    | .solved =>
      if s.found then some (s.put t { thread with phase := .stopped })
      else some { s.put t { thread with phase := .publishing } with found := true }
    | .publishing =>
      some { s.put t { thread with phase := .stopped } with winningNonce := thread.nonce }
    | .counting =>
      some { s.put t { thread with
        phase := .looping, nonce := (thread.nonce + 1) % 2 ^ 32, tries := thread.tries + 1 }
        with totalTries := s.totalTries + 1 }
    | .stopped => none
  else none

def machine : Machine Search (ℕ × View) where
  start s := s = {}
  step := Search.step call

/-- The threads have all been joined. -/
def Search.Joined (s : Search) : Prop := ∀ t < call.numThreads, (s.threads t).phase = .stopped

structure GenerateResult where
  returned : Bool
  maxTries : ℕ
  blockOut : Option CBlockHeader
  deriving DecidableEq

/-- What follows the joins, up to `ProcessNewBlock`. -/
def finish (s : Search) (interrupted : Bool) : GenerateResult :=
  let maxTries := if s.totalTries ≥ call.maxTries then 0 else call.maxTries - s.totalTries
  if s.found then
    if maxTries = 0 ∨ interrupted then ⟨false, maxTries, none⟩
    else if s.winningNonce = nonceMax then ⟨true, maxTries, none⟩
    else ⟨true, maxTries, some (withNonce call.block s.winningNonce)⟩
  else if maxTries = 0 ∨ interrupted then ⟨false, maxTries, none⟩
  else ⟨true, maxTries, none⟩

end Steps

/-! ### What a step can do -/

section Inversion

variable {call : MiningCall} {s s' : Search} {t : ℕ} {view : View}

/-- The steps of thread `t`, with what each one needs. -/
inductive Stepped (call : MiningCall) (s : Search) (t : ℕ) (view : View) : Search → Prop
  | abort (hphase : (s.threads t).phase = .starting) (hwhy : view.epochChanged ∨ ¬ view.vmCreated) :
      Stepped call s t view (s.put t { s.threads t with phase := .stopped })
  | enter (hphase : (s.threads t).phase = .starting) :
      Stepped call s t view
        (s.put t ⟨.looping, startNonce call.numThreads t, 0,
          call.header (startNonce call.numThreads t)⟩)
  | leave (hphase : (s.threads t).phase = .looping)
      (hwhy : s.found ∨ ¬ (s.threads t).nonce < endNonce call.numThreads t ∨
        ¬ (s.threads t).tries < call.maxThreadTries ∨ view.interrupted ∨ view.epochChanged) :
      Stepped call s t view (s.put t { s.threads t with phase := .stopped })
  | hash (hphase : (s.threads t).phase = .looping)
      (hnonce : (s.threads t).nonce < endNonce call.numThreads t)
      (htries : (s.threads t).tries < call.maxThreadTries) {data : Bytes}
      (hdata : data = patchNonce (s.threads t).headerData (s.threads t).nonce) :
      Stepped call s t view
        { s.put t { s.threads t with
            headerData := data, phase := if call.passes data then .solved else .counting } with
          hashed := ((s.threads t).nonce, data) :: s.hashed }
  | lose (hphase : (s.threads t).phase = .solved) (hfound : s.found) :
      Stepped call s t view (s.put t { s.threads t with phase := .stopped })
  | win (hphase : (s.threads t).phase = .solved) (hfound : s.found = false) :
      Stepped call s t view { s.put t { s.threads t with phase := .publishing } with found := true }
  | publish (hphase : (s.threads t).phase = .publishing) :
      Stepped call s t view
        { s.put t { s.threads t with phase := .stopped } with winningNonce := (s.threads t).nonce }
  | count (hphase : (s.threads t).phase = .counting) :
      Stepped call s t view
        { s.put t { s.threads t with
            phase := .looping, nonce := ((s.threads t).nonce + 1) % 2 ^ 32,
            tries := (s.threads t).tries + 1 } with
          totalTries := s.totalTries + 1 }

theorem loop_stepped (hphase : (s.threads t).phase = .looping) (hseen : view.sawFound → s.found) :
    Stepped call s t view (s.loop call t view) := by
  unfold Search.loop
  by_cases hleave : view.sawFound ∨ ¬ (s.threads t).nonce < endNonce call.numThreads t ∨
      ¬ (s.threads t).tries < call.maxThreadTries ∨ view.interrupted
  · rw [if_pos hleave]
    refine .leave hphase ?_
    rcases hleave with h | h | h | h
    · exact .inl (hseen h)
    · exact .inr (.inl h)
    · exact .inr (.inr (.inl h))
    · exact .inr (.inr (.inr (.inl h)))
  · rw [if_neg hleave]
    push Not at hleave
    by_cases hepoch : (s.threads t).tries % epochCheckInterval = 0 ∧ view.epochChanged
    · rw [if_pos hepoch]
      exact .leave hphase (.inr (.inr (.inr (.inr hepoch.2))))
    · rw [if_neg hepoch]
      exact .hash hphase hleave.2.1 hleave.2.2.1 rfl

/-- **The inversion of a step.** -/
theorem step_stepped (h : s.step call (t, view) = some s') :
    t < call.numThreads ∧ Stepped call s t view s' := by
  unfold Search.step at h
  by_cases hguard : t < call.numThreads ∧ (view.sawFound → s.found)
  · rw [if_pos hguard] at h
    refine ⟨hguard.1, ?_⟩
    cases hphase : (s.threads t).phase with
    | starting =>
      simp only [hphase] at h
      by_cases hwhy : view.epochChanged ∨ ¬ view.vmCreated
      · rw [if_pos hwhy] at h
        obtain rfl := Option.some.inj h
        exact .abort hphase hwhy
      · rw [if_neg hwhy] at h
        obtain rfl := Option.some.inj h
        exact .enter hphase
    | looping =>
      simp only [hphase] at h
      obtain rfl := Option.some.inj h
      exact loop_stepped hphase hguard.2
    | solved =>
      simp only [hphase] at h
      by_cases hfound : s.found
      · rw [if_pos hfound] at h
        obtain rfl := Option.some.inj h
        exact .lose hphase hfound
      · rw [if_neg hfound] at h
        obtain rfl := Option.some.inj h
        exact .win hphase (by simpa using hfound)
    | publishing =>
      simp only [hphase] at h
      obtain rfl := Option.some.inj h
      exact .publish hphase
    | counting =>
      simp only [hphase] at h
      obtain rfl := Option.some.inj h
      exact .count hphase
    | stopped =>
      simp only [hphase] at h
      cases h
  · rw [if_neg hguard] at h
    cases h

end Inversion

/-! ### The invariant -/

section Invariant

variable {call : MiningCall} {s s' : Search} {t w : ℕ} {thread : MiningThread}

/-- The thread has counted its tries and is at the nonce they lead to. -/
structure InRange (call : MiningCall) (t : ℕ) (thread : MiningThread) : Prop where
  nonce : thread.nonce = startNonce call.numThreads t + thread.tries
  header : ∃ old, thread.headerData = call.header old

/-- The thread has a try left and is at one of its nonces. -/
structure AtNonce (call : MiningCall) (t : ℕ) (thread : MiningThread) :
    Prop extends InRange call t thread where
  lt_end : thread.nonce < endNonce call.numThreads t
  lt_tries : thread.tries < call.maxThreadTries

/-- The thread is at a nonce that passes. -/
structure Solution (call : MiningCall) (t : ℕ) (thread : MiningThread) :
    Prop extends AtNonce call t thread where
  passes : call.passes (call.header thread.nonce)

/-- What holds of a thread in each phase. -/
def ThreadOk (call : MiningCall) (t : ℕ) (thread : MiningThread) : Prop :=
  thread.tries ≤ call.maxThreadTries ∧
    match thread.phase with
    | .starting => thread.tries = 0
    | .looping => InRange call t thread ∧ thread.nonce ≤ endNonce call.numThreads t
    | .solved | .publishing => Solution call t thread
    | .counting => AtNonce call t thread
    | .stopped => True

/-- Thread `w` has won: it is about to store its nonce, or has stored it, and no other thread ever
stores one. -/
structure Winner (call : MiningCall) (s : Search) (w : ℕ) : Prop where
  solution : Solution call w (s.threads w)
  stored : (s.threads w).phase = .publishing ∨
    (s.threads w).phase = .stopped ∧ s.winningNonce = (s.threads w).nonce
  only : ∀ t < call.numThreads, (s.threads t).phase = .publishing → t = w
  checked : ((s.threads w).nonce, call.header (s.threads w).nonce) ∈ s.hashed

/-- What holds between any two steps. -/
structure Searching (call : MiningCall) (s : Search) : Prop where
  threadOk : ∀ t < call.numThreads, ThreadOk call t (s.threads t)
  total : s.totalTries = ∑ t ∈ Finset.range call.numThreads, (s.threads t).tries
  publisher : ∀ t < call.numThreads, (s.threads t).phase = .publishing → s.found
  winner : s.found → ∃ w < call.numThreads, Winner call s w
  logged : ∀ e ∈ s.hashed, e.2 = call.header e.1 ∧
    ∃ t < call.numThreads, startNonce call.numThreads t ≤ e.1 ∧ e.1 < endNonce call.numThreads t
  seen : ∀ e ∈ s.hashed, call.passes e.2 → s.found ∨ ∃ t < call.numThreads,
    (s.threads t).phase = .solved
  checked : ∀ t < call.numThreads, (s.threads t).phase = .solved →
    ((s.threads t).nonce, call.header (s.threads t).nonce) ∈ s.hashed

@[simp] theorem put_threads_self (s : Search) (t : ℕ) (thread : MiningThread) :
    (s.put t thread).threads t = thread :=
  Function.update_self ..

theorem put_threads_of_ne (s : Search) (thread : MiningThread) {u : ℕ} (h : u ≠ t) :
    (s.put t thread).threads u = s.threads u :=
  Function.update_of_ne h ..

/-- In a phase that the moved thread is not in there are only threads that have not moved. -/
theorem stayed_of_phase (s : Search) {thread : MiningThread} {u : ℕ} {phase : Phase}
    (hnew : thread.phase ≠ phase) (hphase : ((s.put t thread).threads u).phase = phase) :
    u ≠ t ∧ (s.put t thread).threads u = s.threads u := by
  have hut : u ≠ t := by
    rintro rfl
    rw [put_threads_self] at hphase
    exact hnew hphase
  exact ⟨hut, put_threads_of_ne s thread hut⟩

/-- How the sum of the tries changes when one thread moves. -/
theorem sum_put {f : MiningThread → ℕ} (s : Search) (thread : MiningThread) {n : ℕ} (ht : t < n) :
    ∑ u ∈ Finset.range n, f ((s.put t thread).threads u) + f (s.threads t) =
      ∑ u ∈ Finset.range n, f (s.threads u) + f thread := by
  have hmem : t ∈ Finset.range n := Finset.mem_range.mpr ht
  have hrest : ∑ u ∈ (Finset.range n).erase t, f ((s.put t thread).threads u) =
      ∑ u ∈ (Finset.range n).erase t, f (s.threads u) := by
    refine Finset.sum_congr rfl fun u hu => ?_
    rw [put_threads_of_ne s thread (Finset.ne_of_mem_erase hu)]
  rw [← Finset.add_sum_erase _ _ hmem, ← Finset.add_sum_erase _ (fun u => f (s.threads u)) hmem,
    hrest, put_threads_self]
  omega

theorem searching_start : Searching call {} where
  threadOk := fun t _ => ⟨Nat.zero_le _, rfl⟩
  total := by simp
  publisher := fun t _ h => by cases h
  winner := fun h => by cases h
  logged := fun e h => by cases h
  seen := fun e h => by cases h
  checked := fun t _ h => by cases h

/-- What holds of every thread holds again after one of them has moved to where it holds. -/
theorem threadOk_put (h : ∀ u < call.numThreads, ThreadOk call u (s.threads u))
    (hok : ThreadOk call t thread) :
    ∀ u < call.numThreads, ThreadOk call u ((s.put t thread).threads u) := by
  intro u hu
  by_cases hut : u = t
  · rw [hut, put_threads_self]
    exact hok
  · rw [put_threads_of_ne s thread hut]
    exact h u hu

/-- The winner stays the winner while a thread moves that has neither won nor stopped. -/
theorem Winner.put (h : Winner call s w) (hs' : s'.threads = (s.put t thread).threads)
    (hnonce : s'.winningNonce = s.winningNonce) (hpublishing : (s.threads t).phase ≠ .publishing)
    (hstopped : (s.threads t).phase ≠ .stopped) (hnew : thread.phase ≠ .publishing)
    (hkept : s.hashed ⊆ s'.hashed) : Winner call s' w := by
  have hne : w ≠ t := by
    rintro rfl
    rcases h.stored with h | h
    · exact hpublishing h
    · exact hstopped h.1
  have hw : s'.threads w = s.threads w := by rw [hs', put_threads_of_ne s thread hne]
  refine ⟨hw ▸ h.solution, ?_, ?_, hw ▸ hkept h.checked⟩
  · rw [hw, hnonce]
    exact h.stored
  · intro u hu hphase
    rw [hs'] at hphase
    exact h.only u hu ((stayed_of_phase s hnew hphase).2 ▸ hphase)

/-- A thread that moves within the search, without a change to `found` or to the winner. -/
theorem Searching.put (h : Searching call s) (ht : t < call.numThreads)
    (hok : ThreadOk call t thread) (hs' : s'.threads = (s.put t thread).threads)
    (hfound : s'.found = s.found) (hnonce : s'.winningNonce = s.winningNonce)
    (htotal : s'.totalTries + (s.threads t).tries = s.totalTries + thread.tries)
    (hpublishing : (s.threads t).phase ≠ .publishing) (hstopped : (s.threads t).phase ≠ .stopped)
    (hnew : thread.phase ≠ .publishing) (hkept : s.hashed ⊆ s'.hashed)
    (hchecked : thread.phase = .solved → (thread.nonce, call.header thread.nonce) ∈ s'.hashed)
    (hlogged : ∀ e ∈ s'.hashed, e ∈ s.hashed ∨ e.2 = call.header e.1 ∧
      startNonce call.numThreads t ≤ e.1 ∧ e.1 < endNonce call.numThreads t)
    (hseen : ∀ e ∈ s'.hashed, call.passes e.2 → s.found ∨ thread.phase = .solved ∨
      (s.threads t).phase ≠ .solved ∧ e ∈ s.hashed) :
    Searching call s' where
  threadOk := by
    rw [hs']
    exact threadOk_put h.threadOk hok
  total := by
    have hsum := sum_put (f := MiningThread.tries) s thread ht
    rw [← h.total] at hsum
    rw [hs']
    omega
  publisher := by
    intro u hu hphase
    rw [hs'] at hphase
    rw [hfound]
    exact h.publisher u hu ((stayed_of_phase s hnew hphase).2 ▸ hphase)
  winner := by
    intro hf
    obtain ⟨w, hw, hwin⟩ := h.winner (hfound ▸ hf)
    exact ⟨w, hw, hwin.put hs' hnonce hpublishing hstopped hnew hkept⟩
  logged := by
    intro e he
    rcases hlogged e he with hold | ⟨hdata, hrange⟩
    · exact h.logged e hold
    · exact ⟨hdata, t, ht, hrange⟩
  seen := by
    intro e he hpass
    rw [hfound]
    rcases hseen e he hpass with hf | hsolved | ⟨hnot, hold⟩
    · exact .inl hf
    · exact .inr ⟨t, ht, by rw [hs', put_threads_self, hsolved]⟩
    · -- another thread is at its solution, and it has not moved
      refine (h.seen e hold hpass).imp_right ?_
      rintro ⟨u, hu, hsolved⟩
      have hut : u ≠ t := by
        rintro rfl
        exact hnot hsolved
      exact ⟨u, hu, by rw [hs', put_threads_of_ne s thread hut, hsolved]⟩
  checked := by
    intro u hu hsolved
    by_cases hut : u = t
    · rw [hs', hut, put_threads_self] at hsolved ⊢
      exact hchecked hsolved
    · rw [hs', put_threads_of_ne s thread hut] at hsolved ⊢
      exact hkept (h.checked u hu hsolved)

end Invariant

/-! ### Every step keeps it -/

section Preserved

variable {call : MiningCall} {s s' : Search} {t : ℕ} {view : View}

/-- A thread may stop that is at no solution, or at one that comes too late. -/
theorem Searching.stop (h : Searching call s) (ht : t < call.numThreads)
    (hpublishing : (s.threads t).phase ≠ .publishing) (hstopped : (s.threads t).phase ≠ .stopped)
    (hsolved : s.found ∨ (s.threads t).phase ≠ .solved) :
    Searching call (s.put t { s.threads t with phase := .stopped }) := by
  have hok : ThreadOk call t { s.threads t with phase := .stopped } :=
    ⟨(h.threadOk t ht).1, trivial⟩
  refine h.put ht hok rfl rfl rfl rfl hpublishing hstopped (by simp) (List.Subset.refl _) (by simp)
    (fun e he => .inl he) ?_
  intro e he _
  rcases hsolved with hfound | hsolved
  · exact .inl hfound
  · exact .inr (.inr ⟨hsolved, he⟩)

theorem Searching.enter (h : Searching call s) (ht : t < call.numThreads)
    (hphase : (s.threads t).phase = .starting) :
    Searching call
      (s.put t ⟨.looping, startNonce call.numThreads t, 0,
        call.header (startNonce call.numThreads t)⟩) := by
  have hold := (h.threadOk t ht).2
  simp only [hphase] at hold
  have hok : ThreadOk call t
      ⟨.looping, startNonce call.numThreads t, 0, call.header (startNonce call.numThreads t)⟩ :=
    ⟨Nat.zero_le _, ⟨rfl, _, rfl⟩, (startNonce_lt_endNonce call.one_le call.le_max ht).le⟩
  refine h.put ht hok rfl rfl rfl ?_ (by simp [hphase]) (by simp [hphase]) (by simp)
    (List.Subset.refl _) (by simp) (fun e he => .inl he) ?_
  · show s.totalTries + (s.threads t).tries = s.totalTries + 0
    rw [hold]
  · exact fun e he _ => .inr (.inr ⟨by simp [hphase], he⟩)

theorem lt_two_pow_of_lt_endNonce {n x : ℕ} (ht : t < n)
    (hx : x < endNonce n t) : x + 1 < 2 ^ 32 := by
  have hle := endNonce_le ht
  have hmax : nonceMax < 2 ^ 32 := by decide
  omega

theorem Searching.hash (h : Searching call s) (ht : t < call.numThreads)
    (hphase : (s.threads t).phase = .looping)
    (hnonce : (s.threads t).nonce < endNonce call.numThreads t)
    (htries : (s.threads t).tries < call.maxThreadTries) {data : Bytes}
    (hdata : data = patchNonce (s.threads t).headerData (s.threads t).nonce) :
    Searching call
      { s.put t { s.threads t with
          headerData := data, phase := if call.passes data then .solved else .counting } with
        hashed := ((s.threads t).nonce, data) :: s.hashed } := by
  have hold := (h.threadOk t ht).2
  simp only [hphase] at hold
  obtain ⟨⟨hstart, old, hheader⟩, -⟩ := hold
  -- the patched bytes are the header with the thread's nonce
  have hbytes : data = call.header (s.threads t).nonce := by
    rw [hdata, hheader]
    exact patchNonce_serHeader call.block old
      (by have := lt_two_pow_of_lt_endNonce ht hnonce; omega)
  have hat : ∀ phase, AtNonce call t { s.threads t with headerData := data, phase := phase } :=
    fun phase => ⟨⟨hstart, _, hbytes⟩, hnonce, htries⟩
  have hok : ThreadOk call t
      { s.threads t with
        headerData := data, phase := if call.passes data then .solved else .counting } := by
    refine ⟨htries.le, ?_⟩
    by_cases hpass : call.passes data
    · simp only [if_pos hpass]
      exact ⟨hat _, hbytes ▸ hpass⟩
    · simp only [if_neg hpass]
      exact hat _
  refine h.put ht hok rfl rfl rfl rfl (by simp [hphase]) (by simp [hphase]) ?_
    (List.subset_cons_self _ _) (fun _ => ?_) ?_ ?_
  · by_cases hpass : call.passes data <;> simp [hpass]
  · rw [← hbytes]
    exact List.mem_cons_self
  · intro e he
    rcases List.mem_cons.mp he with rfl | he
    · exact .inr ⟨hbytes, by rw [hstart]; exact Nat.le_add_right _ _, hnonce⟩
    · exact .inl he
  · intro e he hpass
    rcases List.mem_cons.mp he with rfl | he
    · exact .inr (.inl (if_pos hpass))
    · exact .inr (.inr ⟨by simp [hphase], he⟩)

theorem Searching.count (h : Searching call s) (ht : t < call.numThreads)
    (hphase : (s.threads t).phase = .counting) :
    Searching call
      { s.put t { s.threads t with
          phase := .looping, nonce := ((s.threads t).nonce + 1) % 2 ^ 32,
          tries := (s.threads t).tries + 1 } with
        totalTries := s.totalTries + 1 } := by
  have hold := (h.threadOk t ht).2
  simp only [hphase] at hold
  have hmod : ((s.threads t).nonce + 1) % 2 ^ 32 = (s.threads t).nonce + 1 :=
    Nat.mod_eq_of_lt (lt_two_pow_of_lt_endNonce ht hold.lt_end)
  have hok : ThreadOk call t { s.threads t with
      phase := .looping, nonce := ((s.threads t).nonce + 1) % 2 ^ 32, tries :=
        (s.threads t).tries + 1 } := by
    refine ⟨hold.lt_tries, ⟨?_, hold.header⟩, ?_⟩
    · show ((s.threads t).nonce + 1) % 2 ^ 32 = startNonce call.numThreads t +
          ((s.threads t).tries + 1)
      rw [hmod, hold.nonce, Nat.add_assoc]
    · show ((s.threads t).nonce + 1) % 2 ^ 32 ≤ endNonce call.numThreads t
      rw [hmod]
      exact hold.lt_end
  refine h.put ht hok rfl rfl rfl ?_ (by simp [hphase]) (by simp [hphase]) (by simp)
    (List.Subset.refl _) (by simp) (fun e he => .inl he) ?_
  · show s.totalTries + 1 + (s.threads t).tries = s.totalTries + ((s.threads t).tries + 1)
    omega
  · exact fun e he _ => .inr (.inr ⟨by simp [hphase], he⟩)

/-- A change of phase alone keeps the sum of the tries. -/
theorem sum_phase (s : Search) (phase : Phase) {n : ℕ} (ht : t < n) :
    ∑ u ∈ Finset.range n, ((s.put t { s.threads t with phase := phase }).threads u).tries =
      ∑ u ∈ Finset.range n, (s.threads u).tries :=
  Nat.add_right_cancel (sum_put (f := MiningThread.tries) s { s.threads t with phase := phase } ht)

/-- The other threads at a solution have been checked before. -/
theorem checked_of_put (h : Searching call s) {thread : MiningThread} {u : ℕ}
    (hu : u < call.numThreads) (hnew : thread.phase ≠ .solved)
    (hsolved : ((s.put t thread).threads u).phase = .solved) :
    (((s.put t thread).threads u).nonce, call.header ((s.put t thread).threads u).nonce) ∈
      s.hashed := by
  have hstayed := (stayed_of_phase s hnew hsolved).2
  rw [hstayed] at hsolved ⊢
  exact h.checked u hu hsolved

/-- The first thread at the compare-and-swap wins. -/
theorem Searching.win (h : Searching call s) (ht : t < call.numThreads)
    (hphase : (s.threads t).phase = .solved) (hfound : s.found = false) :
    Searching call { s.put t { s.threads t with phase := .publishing } with found := true } := by
  have hold := (h.threadOk t ht).2
  simp only [hphase] at hold
  have hsol : Solution call t { s.threads t with phase := .publishing } :=
    ⟨⟨⟨hold.nonce, hold.header⟩, hold.lt_end, hold.lt_tries⟩, hold.passes⟩
  have hok : ThreadOk call t { s.threads t with phase := .publishing } :=
    ⟨(h.threadOk t ht).1, hsol⟩
  refine ⟨threadOk_put h.threadOk hok, ?_, fun _ _ _ => rfl, fun _ => ⟨t, ht, ?_⟩, h.logged,
    fun _ _ _ => .inl rfl, ?_⟩
  · exact h.total.trans (sum_phase s .publishing ht).symm
  · -- nobody was publishing before, since `found` was not set
    refine ⟨?_, .inl ?_, ?_, ?_⟩
    · show Solution call t ((s.put t _).threads t)
      rw [put_threads_self]
      exact hsol
    · show ((s.put t _).threads t).phase = .publishing
      rw [put_threads_self]
    · intro u hu hpub
      by_contra hut
      change ((s.put t _).threads u).phase = .publishing at hpub
      rw [put_threads_of_ne s _ hut] at hpub
      have := h.publisher u hu hpub
      rw [hfound] at this
      cases this
    · show (((s.put t _).threads t).nonce, call.header ((s.put t _).threads t).nonce) ∈ s.hashed
      rw [put_threads_self]
      exact h.checked t ht hphase
  · intro u hu hsolved
    exact checked_of_put h hu (by simp) hsolved

/-- The winner stores its nonce. -/
theorem Searching.publish (h : Searching call s) (ht : t < call.numThreads)
    (hphase : (s.threads t).phase = .publishing) :
    Searching call
      { s.put t { s.threads t with phase := .stopped } with
        winningNonce := (s.threads t).nonce } := by
  have hfound := h.publisher t ht hphase
  obtain ⟨w, -, hwin⟩ := h.winner hfound
  obtain rfl := hwin.only t ht hphase
  have hsol := hwin.solution
  have hothers : ∀ u < call.numThreads,
      ((s.put t { s.threads t with phase := .stopped }).threads u).phase ≠ .publishing := by
    intro u hu hpub
    obtain ⟨hut, hstayed⟩ := stayed_of_phase s (by simp) hpub
    exact hut (hwin.only u hu (hstayed ▸ hpub))
  have hok : ThreadOk call t { s.threads t with phase := .stopped } :=
    ⟨(h.threadOk t ht).1, trivial⟩
  refine ⟨threadOk_put h.threadOk hok, ?_, fun u hu hpub => absurd hpub (hothers u hu),
    fun _ => ⟨t, ht, ?_⟩, h.logged, fun _ _ _ => .inl hfound,
    fun u hu => checked_of_put h hu (by simp)⟩
  · exact h.total.trans (sum_phase s .stopped ht).symm
  · refine ⟨?_, .inr ?_, fun u hu hpub => absurd hpub (hothers u hu), ?_⟩
    · show Solution call t ((s.put t _).threads t)
      rw [put_threads_self]
      exact ⟨⟨⟨hsol.nonce, hsol.header⟩, hsol.lt_end, hsol.lt_tries⟩, hsol.passes⟩
    · show ((s.put t _).threads t).phase = .stopped ∧
          (s.threads t).nonce = ((s.put t _).threads t).nonce
      rw [put_threads_self]
      exact ⟨rfl, rfl⟩
    · show (((s.put t _).threads t).nonce, call.header ((s.put t _).threads t).nonce) ∈ s.hashed
      rw [put_threads_self]
      exact hwin.checked

/-- **One step keeps the invariant.** -/
theorem Searching.step (h : Searching call s)
    (hstep : s.step call (t, view) = some s') : Searching call s' := by
  obtain ⟨ht, hstepped⟩ := step_stepped hstep
  cases hstepped with
  | abort hphase => exact h.stop ht (by simp [hphase]) (by simp [hphase]) (.inr (by simp [hphase]))
  | enter hphase => exact h.enter ht hphase
  | leave hphase => exact h.stop ht (by simp [hphase]) (by simp [hphase]) (.inr (by simp [hphase]))
  | hash hphase hnonce htries hdata => exact h.hash ht hphase hnonce htries hdata
  | lose hphase hfound => exact h.stop ht (by simp [hphase]) (by simp [hphase]) (.inl hfound)
  | win hphase hfound => exact h.win ht hphase hfound
  | publish hphase => exact h.publish ht hphase
  | count hphase => exact h.count ht hphase

/-- **It holds throughout every search.** -/
theorem searching_of_run {allowed : Search → ℕ × View → Prop} (h : (machine call).Run allowed s) :
    Searching call s := by
  refine h.induct ?_ ?_
  · rintro s rfl
    exact searching_start
  · rintro s s' ⟨t, view⟩ hs - hstep
    exact hs.step hstep

end Preserved

/-! ### After the joins -/

section Joined

variable {call : MiningCall} {s : Search}

theorem mul_maxThreadTries_le (call : MiningCall) :
    call.numThreads * call.maxThreadTries ≤ call.maxTries :=
  Nat.mul_div_le _ _

theorem sum_maxThreadTries (call : MiningCall) :
    ∑ _t ∈ Finset.range call.numThreads,
      call.maxThreadTries = call.numThreads * call.maxThreadTries := by
  rw [Finset.sum_const_nat fun _ _ => rfl, Finset.card_range]

/-- The tries of all threads together are within the limit. -/
theorem Searching.totalTries_le (h : Searching call s) :
    s.totalTries ≤ call.numThreads * call.maxThreadTries := by
  rw [h.total]
  calc ∑ t ∈ Finset.range call.numThreads, (s.threads t).tries
      ≤ ∑ _t ∈ Finset.range call.numThreads, call.maxThreadTries :=
        Finset.sum_le_sum fun t ht => (h.threadOk t (Finset.mem_range.mp ht)).1
    _ = call.numThreads * call.maxThreadTries := sum_maxThreadTries call

/-- The winner does not count its last try, so some of the limit is left. -/
theorem Searching.totalTries_lt (h : Searching call s) (hfound : s.found) :
    s.totalTries < call.maxTries := by
  obtain ⟨w, hw, hwin⟩ := h.winner hfound
  refine Nat.lt_of_lt_of_le ?_ (mul_maxThreadTries_le call)
  rw [h.total]
  calc ∑ t ∈ Finset.range call.numThreads, (s.threads t).tries
      < ∑ _t ∈ Finset.range call.numThreads, call.maxThreadTries :=
        Finset.sum_lt_sum (fun t ht => (h.threadOk t (Finset.mem_range.mp ht)).1)
          ⟨w, Finset.mem_range.mpr hw, hwin.solution.lt_tries⟩
    _ = call.numThreads * call.maxThreadTries := sum_maxThreadTries call

/-- Once the threads are joined, `found` says whether a hash passed. -/
theorem Searching.found_iff (h : Searching call s) (hjoined : s.Joined call) :
    s.found ↔ ∃ e ∈ s.hashed, call.passes e.2 := by
  constructor
  · intro hfound
    obtain ⟨w, -, hwin⟩ := h.winner hfound
    exact ⟨_, hwin.checked, hwin.solution.passes⟩
  · rintro ⟨e, he, hpass⟩
    rcases h.seen e he hpass with hfound | ⟨t, ht, hsolved⟩
    · exact hfound
    · rw [hjoined t ht] at hsolved
      cases hsolved

/-- A solution passes both exit checks. -/
theorem Searching.finish_found (h : Searching call s) (hjoined : s.Joined call) (hfound : s.found) :
    (s.winningNonce, call.header s.winningNonce) ∈ s.hashed ∧
      call.passes (call.header s.winningNonce) ∧
      finish call s false =
        ⟨true, call.maxTries - s.totalTries, some (withNonce call.block s.winningNonce)⟩ := by
  obtain ⟨w, hw, hwin⟩ := h.winner hfound
  have hnonce : s.winningNonce = (s.threads w).nonce := by
    rcases hwin.stored with hpub | hstored
    · rw [hjoined w hw] at hpub
      cases hpub
    · exact hstored.2
  have htries := h.totalTries_lt hfound
  have hmax : s.winningNonce ≠ nonceMax := by
    have hend := endNonce_le hw
    have hlt := hwin.solution.lt_end
    omega
  refine ⟨hnonce ▸ hwin.checked, hnonce ▸ hwin.solution.passes, ?_⟩
  have hleft : ¬ (call.maxTries - s.totalTries = 0 ∨ false = true) := by
    rintro (h | h)
    · omega
    · cases h
  simp only [finish, if_neg (not_le.mpr htries), if_pos hfound, if_neg hleft, if_neg hmax]

end Joined

namespace Sample

/-- Two threads, and a hash that always passes. -/
def twoThreads : MiningCall where
  params := mainParams
  block := ⟨4, 0, 0, 2, 0x1e00ffff, 0⟩
  nHeight := 1
  numThreads := 2
  maxTries := 4
  hash := fun _ => 0
  one_le := by decide
  le_max := by decide

/-- Both threads find a solution before the second one wins. -/
def race : List (ℕ × View) := [(0, {}), (1, {}), (0, {}), (1, {}), (1, {}), (0, {}), (1, {})]

def raced : Search := ((machine twoThreads).steps {} race).getD {}

theorem raced_eq : (machine twoThreads).steps {} race = some raced := by
  have hsome : ((machine twoThreads).steps {} race).isSome = true := by decide +kernel
  obtain ⟨s, hs⟩ := Option.isSome_iff_exists.mp hsome
  rw [raced, hs]
  rfl

end Sample

/-- **The parallel nonce search is sound.**  The intervals divide the nonces below the greatest up
among the threads and no bound wraps.  In every order of the threads' steps, what is hashed is the
header with a nonce of the thread.  Once the threads are joined, if a hash has passed, the call
returns a block with a nonce whose hash has passed: neither the count of the tries nor the greatest
nonce has it dropped. -/
theorem nonce_search_sound (call : MiningCall) :
    (∀ x, x < nonceMax ↔ ∃! t, t < call.numThreads ∧ startNonce call.numThreads t ≤ x ∧
      x < endNonce call.numThreads t) ∧
      (∀ t < call.numThreads, startNonce call.numThreads t = t * nonceRange call.numThreads ∧
        t * nonceRange call.numThreads < 2 ^ 32 ∧ (t + 1) * nonceRange call.numThreads < 2 ^ 32) ∧
      ∀ s, (machine call).Run AnyAction s →
        (∀ e ∈ s.hashed, e.2 = serHeader (withNonce call.block e.1) ∧
          ∃ t < call.numThreads, startNonce call.numThreads t ≤ e.1 ∧
            e.1 < endNonce call.numThreads t) ∧
        (s.Joined call → (∃ e ∈ s.hashed, call.passes e.2) →
          ∃ e ∈ s.hashed, call.passes e.2 ∧ (finish call s false).returned = true ∧
            (finish call s false).blockOut = some (withNonce call.block e.1)) := by
  have hmax : nonceMax < 2 ^ 32 := by decide
  refine ⟨nonces_divided call.one_le call.le_max, ?_, ?_⟩
  · intro t ht
    exact ⟨startNonce_eq ht, (mul_nonceRange_le ht.le).trans_lt hmax,
      (mul_nonceRange_le ht).trans_lt hmax⟩
  · intro s hrun
    have hs := searching_of_run hrun
    refine ⟨hs.logged, fun hjoined hpassed => ?_⟩
    obtain ⟨hchecked, hpass, hfinish⟩ :=
      hs.finish_found hjoined ((hs.found_iff hjoined).mpr hpassed)
    exact ⟨_, hchecked, hpass, by rw [hfinish], by rw [hfinish]⟩

open Sample in
theorem nonce_search_sound_two :
    raced.Joined twoThreads ∧ (∃ e ∈ raced.hashed, twoThreads.passes e.2) ∧
      ∃ e ∈ raced.hashed, twoThreads.passes e.2 ∧ (finish twoThreads raced false).returned = true ∧
        (finish twoThreads raced false).blockOut = some (withNonce twoThreads.block e.1) := by
  have hjoined : raced.Joined twoThreads := by
    unfold Search.Joined
    decide +kernel
  have hpassed : ∃ e ∈ raced.hashed, twoThreads.passes e.2 := by decide +kernel
  have hrun : (machine twoThreads).Run AnyAction raced := Machine.Run.steps (.start rfl) raced_eq
  exact ⟨hjoined, hpassed, ((nonce_search_sound twoThreads).2.2 raced hrun).2 hjoined hpassed⟩

end OpenSY.Mining
