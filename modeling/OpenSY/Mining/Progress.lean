import OpenSY.Mining.NonceSearch

/-!
# Progress of mining

`GenerateBlock` divides the tries that are left among its threads and truncates; `generateBlocks`
calls it again while it returns true.  However the threads are scheduled, a search ends, and its
tries are taken off exactly.  With at least as many tries as threads every thread makes one, so a
call without a block has fewer tries left, and the loop ends.  With fewer tries than threads no
thread makes any: the call returns true with everything as it was, and the loop goes on forever.

* `search_ends` — every search can be run to its end, and no schedule goes on forever;
* `finish_accounts` — the tries that are left and those made add up;
* `mining_progress` — progress of one call and of the loop.
-/

namespace OpenSY.Mining

open OpenSY.Chain OpenSY.Transition

/-! ### A search ends -/

section Ranks

variable {call : MiningCall} {s s' : Search} {t : ℕ} {view : View}

/-- How far a thread is from its end. -/
def rank (call : MiningCall) (thread : MiningThread) : ℕ :=
  match thread.phase with
  | .starting => 2 * call.maxThreadTries + 4
  | .looping => 2 * (call.maxThreadTries - thread.tries) + 3
  | .solved | .counting => 2 * (call.maxThreadTries - thread.tries) + 2
  | .publishing => 1
  | .stopped => 0

def Search.rank (call : MiningCall) (s : Search) : ℕ :=
  ∑ t ∈ Finset.range call.numThreads, Mining.rank call (s.threads t)

/-- A step moves one thread, and does not take `found` back. -/
theorem Stepped.frame (h : Stepped call s t view s') :
    (∃ thread, s'.threads = (s.put t thread).threads) ∧ (s.found → s'.found) := by
  cases h with
  | win => exact ⟨⟨_, rfl⟩, fun _ => rfl⟩
  | abort | enter | leave | hash | lose | publish | count => exact ⟨⟨_, rfl⟩, id⟩

/-- The thread that moves comes closer to its end. -/
theorem Stepped.rank_lt (hs : Searching call s) (ht : t < call.numThreads)
    (h : Stepped call s t view s') :
    rank call (s'.threads t) < rank call (s.threads t) := by
  have hok := (hs.threadOk t ht).2
  cases h with
  | abort hphase =>
    rw [put_threads_self]
    simp only [rank, hphase]
    omega
  | enter hphase =>
    rw [put_threads_self]
    simp only [rank, hphase]
    omega
  | leave hphase =>
    rw [put_threads_self]
    simp only [rank, hphase]
    omega
  | @hash hphase hnonce htries data hdata =>
    show rank call ((s.put t _).threads t) < _
    rw [put_threads_self]
    by_cases hpass : call.passes data <;> simp [rank, hphase, hpass]
  | lose hphase =>
    rw [put_threads_self]
    simp only [rank, hphase]
    omega
  | win hphase =>
    show rank call ((s.put t _).threads t) < _
    rw [put_threads_self]
    simp only [rank, hphase]
    omega
  | publish hphase =>
    show rank call ((s.put t _).threads t) < _
    rw [put_threads_self]
    simp only [rank, hphase]
    omega
  | count hphase =>
    simp only [hphase] at hok
    have hlt := hok.lt_tries
    show rank call ((s.put t _).threads t) < _
    rw [put_threads_self]
    simp only [rank, hphase]
    omega

/-- **Every step brings the search closer to its end.** -/
theorem rank_step (hs : Searching call s) (h : s.step call (t, view) = some s') :
    s'.rank call < s.rank call := by
  obtain ⟨ht, hstepped⟩ := step_stepped h
  have hlt := hstepped.rank_lt hs ht
  obtain ⟨⟨thread, hthreads⟩, -⟩ := hstepped.frame
  have hsum := sum_put (f := Mining.rank call) s thread ht
  rw [hthreads, put_threads_self] at hlt
  unfold Search.rank
  rw [hthreads]
  omega

/-- No schedule of the threads goes on forever. -/
theorem no_endless_search (call : MiningCall) (states : ℕ → Search) (schedule : ℕ → ℕ × View)
    (hstart : states 0 = {}) :
    ¬ ∀ i, (states i).step call (schedule i) = some (states (i + 1)) := by
  intro hsteps
  have hsearching : ∀ i, Searching call (states i) := by
    intro i
    induction i with
    | zero => exact hstart ▸ searching_start
    | succ i ih => exact ih.step (hsteps i)
  -- after as many steps as the rank at the start there is nothing left to lower
  have hrank : ∀ i, (states i).rank call + i ≤ (states 0).rank call := by
    intro i
    induction i with
    | zero => exact Nat.le_refl _
    | succ i ih =>
      have hlt := rank_step (hsearching i) (hsteps i)
      omega
  have hlast := hrank ((states 0).rank call + 1)
  omega

/-- A thread that has not stopped can take a step. -/
theorem step_of_not_stopped (ht : t < call.numThreads) (h : (s.threads t).phase ≠ .stopped) :
    ∃ s', s.step call (t, {}) = some s' := by
  unfold Search.step
  rw [if_pos ⟨ht, by simp⟩]
  cases hphase : (s.threads t).phase with
  | stopped => exact absurd hphase h
  | starting => exact ⟨_, rfl⟩
  | looping => exact ⟨_, rfl⟩
  | solved => by_cases hfound : s.found <;> simp [hfound]
  | publishing => exact ⟨_, rfl⟩
  | counting => exact ⟨_, rfl⟩

end Ranks

/-! ### Quiet searches -/

/-- The node is not interrupted, the VM is created and the epoch stays. -/
def Quiet (_ : Search) (a : ℕ × View) : Prop :=
  a.2.vmCreated = true ∧ a.2.interrupted = false ∧ a.2.epochChanged = false

instance (s : Search) (a : ℕ × View) : Decidable (Quiet s a) :=
  inferInstanceAs
    (Decidable (a.2.vmCreated = true ∧ a.2.interrupted = false ∧ a.2.epochChanged = false))

section QuietRuns

variable {call : MiningCall} {s s' : Search} {t : ℕ} {view : View}

theorem quiet_start (call : MiningCall) : (machine call).Run Quiet {} := .start rfl

/-- **Every search can be run to its end**, by letting the threads take steps in some order. -/
theorem search_ends (h : (machine call).Run Quiet s) :
    ∃ (order : List ℕ) (s' : Search),
      (machine call).steps s (order.map fun t => (t, {})) = some s' ∧
      (machine call).Run Quiet s' ∧ s'.Joined call := by
  -- by induction on the rank
  induction hrank : s.rank call using Nat.strong_induction_on generalizing s with
  | _ r ih =>
    by_cases hjoined : s.Joined call
    · exact ⟨[], s, rfl, h, hjoined⟩
    · unfold Search.Joined at hjoined
      push Not at hjoined
      obtain ⟨t, ht, hphase⟩ := hjoined
      obtain ⟨next, hstep⟩ := step_of_not_stopped ht hphase
      have hlt := rank_step (searching_of_run h) hstep
      obtain ⟨order, s', hsteps, hrest⟩ := ih _ (hrank ▸ hlt) (.next h ⟨rfl, rfl, rfl⟩ hstep) rfl
      refine ⟨t :: order, s', ?_, hrest⟩
      rw [Machine.steps, List.map_cons, List.foldlM_cons,
        show (machine call).step s (t, {}) = some next from hstep]
      exact hsteps

/-- A thread that stops in a quiet search has made a try, unless a solution was found. -/
def Tried (call : MiningCall) (s : Search) : Prop :=
  ∀ t < call.numThreads, (s.threads t).phase = .stopped → 1 ≤ call.maxThreadTries →
    s.found ∨ 1 ≤ (s.threads t).tries

theorem Tried.step (hs : Searching call s) (h : Tried call s) (hquiet : Quiet s (t, view))
    (hstep : s.step call (t, view) = some s') : Tried call s' := by
  obtain ⟨ht, hstepped⟩ := step_stepped hstep
  obtain ⟨⟨thread, hthreads⟩, hfound⟩ := hstepped.frame
  obtain ⟨hcreated, hinterrupted, hepoch⟩ : view.vmCreated = true ∧ view.interrupted = false ∧
    view.epochChanged = false := hquiet
  intro u hu hphase hk
  by_cases hut : u = t
  · subst hut
    have hok := (hs.threadOk u hu).2
    cases hstepped with
    | abort _ hwhy => simp [hcreated, hepoch] at hwhy
    | enter =>
      rw [put_threads_self] at hphase
      cases hphase
    | leave hlooping hwhy =>
      rw [put_threads_self]
      simp only [hlooping] at hok
      have hstart := startNonce_lt_endNonce call.one_le call.le_max hu
      have hnonce := hok.1.nonce
      rcases hwhy with hwhy | hwhy | hwhy | hwhy | hwhy
      · exact .inl hwhy
      · right
        show 1 ≤ (s.threads u).tries
        omega
      · right
        show 1 ≤ (s.threads u).tries
        omega
      · rw [hinterrupted] at hwhy
        cases hwhy
      · rw [hepoch] at hwhy
        cases hwhy
    | @hash _ _ _ data =>
      change ((s.put u _).threads u).phase = .stopped at hphase
      rw [put_threads_self] at hphase
      by_cases hpass : call.passes data <;> simp [hpass] at hphase
    | lose _ hf => exact .inl hf
    | win => exact .inl rfl
    | publish hpub => exact .inl (hs.publisher u hu hpub)
    | count =>
      change ((s.put u _).threads u).phase = .stopped at hphase
      rw [put_threads_self] at hphase
      cases hphase
  · rw [hthreads, put_threads_of_ne s thread hut] at hphase ⊢
    exact (h u hu hphase hk).imp_left hfound

theorem tried_of_run (h : (machine call).Run Quiet s) : Tried call s := by
  have hboth : Searching call s ∧ Tried call s := by
    refine Machine.Run.induct (P := fun s => Searching call s ∧ Tried call s) ?_ ?_ h
    · rintro s rfl
      exact ⟨searching_start, fun t _ hphase => by cases hphase⟩
    · rintro s s' ⟨t, view⟩ ⟨hs, htried⟩ hquiet hstep
      exact ⟨hs.step hstep, htried.step hs hquiet hstep⟩
  exact hboth.2

end QuietRuns

/-! ### One call -/

section Calls

variable {call : MiningCall} {s : Search}

/-- **The tries add up**: none is taken off that was not made, and the count does not go below zero.
-/
theorem finish_accounts (hs : Searching call s) :
    (finish call s false).maxTries + s.totalTries = call.maxTries := by
  have hle := hs.totalTries_le.trans (mul_maxThreadTries_le call)
  have hleft : (finish call s false).maxTries =
      if s.totalTries ≥ call.maxTries then 0 else call.maxTries - s.totalTries := by
    simp only [finish]
    split_ifs <;> rfl
  rw [hleft]
  split_ifs <;> omega

/-- Without a solution the call returns whether tries are left, and no block. -/
theorem finish_not_found (call : MiningCall) {s : Search} (hfound : s.found = false) :
    finish call s false =
      ⟨decide (s.totalTries < call.maxTries), call.maxTries - s.totalTries, none⟩ := by
  by_cases hlt : s.totalTries < call.maxTries
  · have hleft : ¬ (call.maxTries - s.totalTries = 0 ∨ false = true) := by
      rintro (h | h)
      · omega
      · cases h
    simp only [finish, hfound, if_neg (not_le.mpr hlt), if_neg hleft, hlt, decide_true]
    rfl
  · have hzero : call.maxTries - s.totalTries = 0 := by omega
    simp only [finish, hfound, if_pos (not_lt.mp hlt), hlt, decide_false, hzero]
    rfl

/-- A call that returns true without a block has fewer tries left, in every quiet search. -/
def Progresses (call : MiningCall) : Prop :=
  ∀ s, (machine call).Run Quiet s → s.Joined call → (finish call s false).returned = true →
    (finish call s false).blockOut = none → (finish call s false).maxTries < call.maxTries

/-- With enough tries for each thread the first thread makes one. -/
theorem totalTries_pos (hrun : (machine call).Run Quiet s) (hjoined : s.Joined call)
    (hfound : s.found = false) (hle : call.numThreads ≤ call.maxTries) : 0 < s.totalTries := by
  have hfirst : 0 < call.numThreads := call.one_le
  have hk : 1 ≤ call.maxThreadTries := Nat.div_pos hle hfirst
  have htried : 1 ≤ (s.threads 0).tries := by
    rcases tried_of_run hrun 0 hfirst (hjoined 0 hfirst) hk with h | h
    · rw [hfound] at h
      cases h
    · exact h
  rw [(searching_of_run hrun).total]
  exact htried.trans (Finset.single_le_sum (f := fun t => (s.threads t).tries)
    (fun _ _ => Nat.zero_le _) (Finset.mem_range.mpr hfirst))

/-- With fewer tries than threads, no thread makes one and nothing is found. -/
theorem idle_of_lt (hs : Searching call s) (hlt : call.maxTries < call.numThreads) :
    s.found = false ∧ s.totalTries = 0 := by
  have hk : call.maxThreadTries = 0 := Nat.div_eq_of_lt hlt
  constructor
  · by_contra hfound
    obtain ⟨w, -, hwin⟩ := hs.winner (by simpa using hfound)
    have hlt := hwin.solution.lt_tries
    omega
  · have hle := hs.totalTries_le
    rw [hk, Nat.mul_zero] at hle
    omega

/-- Such a call returns true and leaves everything as it was. -/
theorem finish_idle (hs : Searching call s) (hpos : 0 < call.maxTries)
    (hlt : call.maxTries < call.numThreads) :
    finish call s false = ⟨true, call.maxTries, none⟩ := by
  obtain ⟨hfound, htotal⟩ := idle_of_lt hs hlt
  rw [finish_not_found call hfound, htotal, Nat.sub_zero, decide_eq_true hpos]

theorem progresses_iff (call : MiningCall) (hpos : 0 < call.maxTries) :
    Progresses call ↔ call.numThreads ≤ call.maxTries := by
  constructor
  · intro h
    by_contra hlt
    obtain ⟨-, s, -, hrun, hjoined⟩ := search_ends (quiet_start call)
    have hfinish := finish_idle (searching_of_run hrun) hpos (not_le.mp hlt)
    have hless := h s hrun hjoined (by rw [hfinish]) (by rw [hfinish])
    rw [hfinish] at hless
    exact lt_irrefl _ hless
  · intro hle s hrun hjoined hreturned hnone
    have hs := searching_of_run hrun
    have hfound : s.found = false := by
      by_contra hfound
      obtain ⟨-, -, hfinish⟩ := hs.finish_found hjoined (by simpa using hfound)
      rw [hfinish] at hnone
      cases hnone
    have hmade := totalTries_pos hrun hjoined hfound hle
    have hsum := finish_accounts hs
    omega

end Calls

/-! ### The loop of `generateBlocks` -/

structure Generating where
  nGenerate : ℤ
  nMaxTries : ℕ
  blocks : List CBlockHeader := []
  broke : Bool := false
  calls : ℕ := 0

def Generating.Running (g : Generating) : Prop := 0 < g.nGenerate ∧ g.broke = false

instance running_decidable (g : Generating) : Decidable g.Running :=
  inferInstanceAs (Decidable (0 < g.nGenerate ∧ g.broke = false))

/-- The body of the loop after a call. -/
def Generating.after (g : Generating) (result : GenerateResult) : Generating :=
  let g := { g with nMaxTries := result.maxTries, calls := g.calls + 1 }
  if result.returned = false then { g with broke := true }
  else
    match result.blockOut with
    | some block => { g with nGenerate := g.nGenerate - 1, blocks := g.blocks ++ [block] }
    | none => g

/-- The loop, with a joined search as each call's. -/
def generateBlocks (nGenerate : ℤ) (nMaxTries : ℕ) : Machine Generating (MiningCall × Search) where
  start g := g = { nGenerate := nGenerate, nMaxTries := nMaxTries }
  step g a := if g.Running then some (g.after (finish a.1 a.2 false)) else none

/-- A call with the tries that are left and a quiet search that has ended. -/
structure QuietCall (g : Generating) (a : MiningCall × Search) : Prop where
  maxTries : a.1.maxTries = g.nMaxTries
  run : (machine a.1).Run Quiet a.2
  joined : a.2.Joined a.1

/-- There is a try for every thread, or none at all. -/
structure EnoughTries (g : Generating) (a : MiningCall × Search) : Prop extends QuietCall g a where
  enough : a.1.numThreads ≤ g.nMaxTries ∨ g.nMaxTries = 0

/-- What a call does to the loop: it finds a block, lowers the tries, or breaks with none left. -/
theorem QuietCall.cases {g : Generating} {call : MiningCall} {s : Search}
    (h : QuietCall g (call, s)) :
    (∃ block left, left ≤ g.nMaxTries ∧ finish call s false = ⟨true, left, some block⟩) ∨
      (∃ left, left ≤ g.nMaxTries ∧ 0 < left ∧ finish call s false = ⟨true, left, none⟩) ∨
      finish call s false = ⟨false, 0, none⟩ := by
  have hs : Searching call s := searching_of_run h.run
  have hmax : call.maxTries = g.nMaxTries := h.maxTries
  by_cases hfound : s.found
  · obtain ⟨-, -, hfinish⟩ := hs.finish_found h.joined hfound
    exact .inl ⟨_, _, by omega, hfinish⟩
  · have hfinish := finish_not_found call (s := s) (by simpa using hfound)
    by_cases hlt : s.totalTries < call.maxTries
    · rw [decide_eq_true hlt] at hfinish
      exact .inr (.inl ⟨_, by omega, by omega, hfinish⟩)
    · have hzero : call.maxTries - s.totalTries = 0 := by omega
      rw [decide_eq_false hlt, hzero] at hfinish
      exact .inr (.inr hfinish)

/-- What holds after any number of calls with enough tries. -/
structure Advancing (nGenerate : ℤ) (nMaxTries : ℕ) (g : Generating) : Prop where
  blocks : g.blocks.length + g.nGenerate.toNat = nGenerate.toNat
  measure : g.calls + g.nGenerate.toNat + g.nMaxTries ≤ nGenerate.toNat + nMaxTries + g.broke.toNat
  broke : g.broke → g.nMaxTries = 0

theorem Advancing.step {nGenerate : ℤ} {nMaxTries : ℕ} {g : Generating} {call : MiningCall}
    {s : Search} (h : Advancing nGenerate nMaxTries g) (hcall : EnoughTries g (call, s))
    (hrunning : g.Running) :
    Advancing nGenerate nMaxTries (g.after (finish call s false)) := by
  obtain ⟨hpos, hbroke⟩ := hrunning
  have hblocks := h.blocks
  have hmeasure := h.measure
  rw [hbroke, Bool.toNat_false] at hmeasure
  rcases hcall.toQuietCall.cases with
    ⟨block, left, hle, hfinish⟩ | ⟨left, hle, hleft, hfinish⟩ | hfinish
  · -- a block: one less to generate
    rw [hfinish]
    refine ⟨?_, ?_, fun hb => ?_⟩
    · show (g.blocks ++ [block]).length + (g.nGenerate - 1).toNat = nGenerate.toNat
      rw [List.length_append, List.length_singleton]
      omega
    · show g.calls + 1 + (g.nGenerate - 1).toNat + left ≤ nGenerate.toNat + nMaxTries +
          g.broke.toNat
      omega
    · change g.broke = true at hb
      rw [hbroke] at hb
      cases hb
  · -- no block: fewer tries
    have hmax : call.maxTries = g.nMaxTries := hcall.maxTries
    have hless : left < g.nMaxTries := by
      have henough : call.numThreads ≤ g.nMaxTries ∨ g.nMaxTries = 0 := hcall.enough
      have hprogress := (progresses_iff call (by omega)).mpr (by omega) s hcall.run hcall.joined
        (by rw [hfinish]) (by rw [hfinish])
      rw [hfinish] at hprogress
      exact hmax ▸ hprogress
    rw [hfinish]
    refine ⟨hblocks, ?_, fun hb => ?_⟩
    · show g.calls + 1 + g.nGenerate.toNat + left ≤ nGenerate.toNat + nMaxTries + g.broke.toNat
      omega
    · change g.broke = true at hb
      rw [hbroke] at hb
      cases hb
  · rw [hfinish]
    refine ⟨hblocks, ?_, fun _ => rfl⟩
    show g.calls + 1 + g.nGenerate.toNat + 0 ≤ nGenerate.toNat + nMaxTries + 1
    omega

theorem advancing_of_run {nGenerate : ℤ} {nMaxTries : ℕ} {g : Generating}
    (h : (generateBlocks nGenerate nMaxTries).Run EnoughTries g) :
    Advancing nGenerate nMaxTries g := by
  refine h.induct ?_ ?_
  · rintro g rfl
    exact ⟨Nat.zero_add _, by simp, fun hb => by cases hb⟩
  · rintro g g' ⟨call, s⟩ hg hcall hstep
    change (if g.Running then some (g.after (finish call s false)) else none) = some g' at hstep
    by_cases hrunning : g.Running
    · rw [if_pos hrunning] at hstep
      obtain rfl := Option.some.inj hstep
      exact hg.step hcall hrunning
    · rw [if_neg hrunning] at hstep
      cases hstep

/-- With too few tries the loop stays where it is. -/
theorem stuck_run {call : MiningCall} (hpos : 0 < call.maxTries)
    (hlt : call.maxTries < call.numThreads) {nGenerate : ℤ} (hgenerate : 0 < nGenerate)
    (calls : ℕ) :
    (generateBlocks nGenerate call.maxTries).Run QuietCall
      ⟨nGenerate, call.maxTries, [], false, calls⟩ := by
  obtain ⟨-, s, -, hrun, hjoined⟩ := search_ends (quiet_start call)
  have hfinish := finish_idle (searching_of_run hrun) hpos hlt
  induction calls with
  | zero => exact .start rfl
  | succ calls ih =>
    refine .next (a := (call, s)) ih ⟨rfl, hrun, hjoined⟩ ?_
    show (if Generating.Running _ then some (Generating.after _ (finish call s false))
      else none) = _
    rw [if_pos ⟨hgenerate, rfl⟩, hfinish]
    rfl

/-- **Progress of mining.**  A search ends in whatever order its threads run, and the tries that are
left and those made add up.  A call with some tries left that returns true without a block has
lowered them in every quiet search exactly if there is a try for each thread.  If every call of the
loop has that, it ends within the given number of calls, with all the blocks or with no tries left;
with fewer tries than threads it may be called any number of times and is still where it was. -/
theorem mining_progress (call : MiningCall) (hpos : 0 < call.maxTries) :
    (Progresses call ↔ call.numThreads ≤ call.maxTries) ∧
      (∀ (states : ℕ → Search) (schedule : ℕ → ℕ × View), states 0 = {} →
        ¬ ∀ i, (states i).step call (schedule i) = some (states (i + 1))) ∧
      (∀ s, (machine call).Run Quiet s →
        (finish call s false).maxTries + s.totalTries = call.maxTries ∧
          ∃ (order : List ℕ) (s' : Search),
            (machine call).steps s (order.map fun t => (t, {})) = some s' ∧
            s'.Joined call) ∧
      (∀ (nGenerate : ℤ) (g : Generating),
        (generateBlocks nGenerate call.maxTries).Run EnoughTries g →
        g.calls ≤ nGenerate.toNat + call.maxTries + 1 ∧
          (¬ g.Running → g.blocks.length = nGenerate.toNat ∨ g.nMaxTries = 0)) ∧
      (call.maxTries < call.numThreads → ∀ nGenerate : ℤ, 0 < nGenerate → ∀ calls,
        ∃ g, (generateBlocks nGenerate call.maxTries).Run QuietCall g ∧
          g.calls = calls ∧ g.Running ∧ g.nMaxTries = call.maxTries ∧ g.blocks = []) := by
  refine ⟨progresses_iff call hpos, no_endless_search call, ?_, ?_, ?_⟩
  · intro s hrun
    obtain ⟨order, s', hsteps, -, hjoined⟩ := search_ends hrun
    exact ⟨finish_accounts (searching_of_run hrun), order, s', hsteps, hjoined⟩
  · intro nGenerate g hrun
    have hg := advancing_of_run hrun
    have hmeasure := hg.measure
    have hblocks := hg.blocks
    have hone : g.broke.toNat ≤ 1 := Bool.toNat_le g.broke
    refine ⟨by omega, fun hended => ?_⟩
    by_cases hbroke : g.broke
    · exact .inr (hg.broke hbroke)
    · left
      have hnone : ¬ 0 < g.nGenerate := fun hpos => hended ⟨hpos, by simpa using hbroke⟩
      omega
  · intro hlt nGenerate hgenerate calls
    exact ⟨_, stuck_run hpos hlt hgenerate calls, rfl, ⟨hgenerate, rfl⟩, rfl, rfl⟩

namespace Sample

/-- Two threads with five tries, and a hash that never passes. -/
def fruitless : MiningCall := { twoThreads with maxTries := 5, hash := fun _ => -1 }

/-- One thread with the try that is left. -/
def lastTry : MiningCall :=
  { fruitless with numThreads := 1, maxTries := 1, one_le := by decide, le_max := by decide }

/-- A quiet search that ends, from the order in which its threads take steps. -/
theorem exists_quiet_search {call : MiningCall} (order : List ℕ) {result : GenerateResult}
    (h : ((machine call).stepsIf Quiet {} (order.map fun t => (t, {}))).map
      (fun s => ((List.range call.numThreads).all fun t => (s.threads t).phase = .stopped,
      finish call s false)) = some (true, result)) :
    ∃ s, (machine call).Run Quiet s ∧ s.Joined call ∧ finish call s false = result := by
  obtain ⟨s, hs, heq⟩ := Option.map_eq_some_iff.mp h
  obtain ⟨hstopped, hfinish⟩ := Prod.mk.inj heq
  refine ⟨s, Machine.Run.stepsIf (.start rfl) hs, fun t ht => ?_, hfinish⟩
  exact of_decide_eq_true (List.all_eq_true.mp hstopped t (List.mem_range.mpr ht))

end Sample

open Sample in
/-- The first call makes four of its five tries without success, the second one the last: the loop
ends. -/
theorem mining_progress_fruitless :
    0 < fruitless.maxTries ∧
    (∃ s, (machine fruitless).Run Quiet s ∧ s.Joined fruitless ∧
      finish fruitless s false = ⟨true, 1, none⟩ ∧ 1 < fruitless.maxTries) ∧
    ∃ g, (generateBlocks 1 fruitless.maxTries).Run EnoughTries g ∧ ¬ g.Running ∧ g.calls = 2 ∧
      g.calls ≤ 1 + 5 + 1 ∧ (g.blocks.length = 1 ∨ g.nMaxTries = 0) := by
  have hpos : 0 < fruitless.maxTries := by decide
  have hmain := mining_progress fruitless hpos
  obtain ⟨s, hrun, hjoined, hfinish⟩ : ∃ s, (machine fruitless).Run Quiet s ∧ s.Joined fruitless ∧
      finish fruitless s false = ⟨true, 1, none⟩ :=
    exists_quiet_search (List.replicate 6 [0, 1]).flatten (by decide +kernel)
  obtain ⟨s', hrun', hjoined', hfinish'⟩ : ∃ s, (machine lastTry).Run Quiet s ∧ s.Joined lastTry ∧
      finish lastTry s false = ⟨false, 0, none⟩ :=
    exists_quiet_search (List.replicate 4 0) (by decide +kernel)
  have hlowered := hmain.1.mpr (by decide) s hrun hjoined (by rw [hfinish]) (by rw [hfinish])
  rw [hfinish] at hlowered
  have hfirst : (generateBlocks 1 5).Run EnoughTries ⟨1, 1, [], false, 1⟩ :=
    .next (a := (fruitless, s)) (.start rfl) ⟨⟨rfl, hrun, hjoined⟩, .inl (show 2 ≤ 5 by decide)⟩ (by
      show some (Generating.after _ (finish fruitless s false)) = _
      rw [hfinish]
      rfl)
  have hloop : (generateBlocks 1 5).Run EnoughTries ⟨1, 0, [], true, 2⟩ :=
    .next (a := (lastTry, s')) hfirst ⟨⟨rfl, hrun', hjoined'⟩, .inl le_rfl⟩ (by
      show some (Generating.after _ (finish lastTry s' false)) = _
      rw [hfinish']
      rfl)
  obtain ⟨hcalls, hended⟩ := hmain.2.2.2.1 1 _ hloop
  exact ⟨hpos, ⟨s, hrun, hjoined, hfinish, hlowered⟩, _, hloop, by decide, rfl, hcalls,
    hended (by decide)⟩

/-- Two threads and a single try: the call returns true, without a block and with the try unused. -/
theorem single_try_unused :
    let call := { Sample.twoThreads with maxTries := 1 }
    0 < call.maxTries ∧
      ∃ s, (machine call).Run Quiet s ∧ s.Joined call ∧ finish call s false = ⟨true, 1, none⟩ := by
  intro call
  obtain ⟨-, s, -, hrun, hjoined⟩ := search_ends (quiet_start call)
  have hfinish : finish call s false = ⟨true, call.maxTries, none⟩ :=
    finish_idle (searching_of_run hrun) (by decide) (by decide)
  exact ⟨by decide, s, hrun, hjoined, hfinish⟩

end OpenSY.Mining
