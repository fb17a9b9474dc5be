import OpenSY.Crypto.RandomXPool

/-!
# The pool of RandomX contexts: guards, size and waiting counters

Any number of threads ask for contexts, under any keys, wait, are turned away, and give contexts
back.  That every guard has a context of its own is `Handed`; what is counted here does not depend
on keys or on initialisation:

* `Counted` — as many contexts are in use as there are guards, the pool keeps to its maximum, and
  each waiting counter counts the calls of its priority that have not returned;
* `pool_counted` — this holds in every reachable state.
-/

namespace OpenSY.Crypto

open OpenSY.Chain OpenSY.Transition

namespace RandomXContextPool

/-- The counter of a priority. -/
def waiting (pool : RandomXContextPool) : AcquisitionPriority → ℕ
  | .consensusCritical => pool.mWaitingConsensusCritical
  | .high => pool.mWaitingHigh
  | .normal => pool.mWaitingNormal
  | .low => pool.mWaitingLow

/-- The number of contexts marked in use. -/
def inUseCount (pool : RandomXContextPool) : ℕ := pool.mPool.countP PoolEntry.inUse

theorem waiting_increment (pool : RandomXContextPool) (p q : AcquisitionPriority) :
    (pool.incrementWaitingCount p).waiting q = pool.waiting q + if p = q then 1 else 0 := by
  cases p <;> cases q <;> rfl

theorem waiting_decrement (pool : RandomXContextPool) (p q : AcquisitionPriority) :
    (pool.decrementWaitingCount p).waiting q = pool.waiting q - if p = q then 1 else 0 := by
  cases p <;> cases q <;> rfl

@[simp] theorem incrementWaitingCount_mMaxContexts (pool : RandomXContextPool)
    (p : AcquisitionPriority) :
    (pool.incrementWaitingCount p).mMaxContexts = pool.mMaxContexts := by
  cases p <;> rfl

@[simp] theorem decrementWaitingCount_mMaxContexts (pool : RandomXContextPool)
    (p : AcquisitionPriority) :
    (pool.decrementWaitingCount p).mMaxContexts = pool.mMaxContexts := by
  cases p <;> rfl

@[simp] theorem setEntry_waiting (pool : RandomXContextPool) (index : ℕ) (entry : PoolEntry) :
    (pool.setEntry index entry).waiting = pool.waiting := by
  funext p
  cases p <;> rfl

end RandomXContextPool

open RandomXContextPool

/-! ### Contexts in use -/

section Turn

variable {pool : RandomXContextPool} {base entries : List PoolEntry} {key : Uint256}
  {alloc : Allocation} {result : Attempt}

theorem Grown.countP_inUse (h : Grown pool base) :
    base.countP PoolEntry.inUse = pool.inUseCount := by
  cases h with
  | same => rfl
  | created room =>
    rw [List.countP_append]
    rfl

theorem Grown.length_le (h : Grown pool base) (hsize : pool.mPool.length ≤ pool.mMaxContexts) :
    base.length ≤ pool.mMaxContexts := by
  cases h with
  | same => exact hsize
  | created room =>
    rw [List.length_append]
    exact room

/-- Marking or unmarking one context. -/
theorem countP_inUse_set {index : ℕ} {entry : PoolEntry} (hindex : entries[index]? = some entry)
    (new : PoolEntry) :
    (entries.set index new).countP PoolEntry.inUse =
      (entries.countP PoolEntry.inUse - if entry.inUse then 1 else 0) +
        if new.inUse then 1 else 0 := by
  obtain ⟨hlt, hentry⟩ := List.getElem?_eq_some_iff.mp hindex
  rw [List.countP_set hlt, hentry]

/-- A turn that writes a free entry changes the count by the mark it writes. -/
theorem Grown.countP_set_free (h : Grown pool base) {index : ℕ} {entry new : PoolEntry}
    (hindex : base[index]? = some entry) (hfree : entry.inUse = false) :
    (base.set index new).countP PoolEntry.inUse = pool.inUseCount + if new.inUse then 1 else 0 := by
  rw [countP_inUse_set hindex, hfree, h.countP_inUse]
  rfl

/-- **Contexts are marked as they are handed out.** -/
theorem Tried.countP_inUse (h : Tried pool key alloc result entries) :
    entries.countP PoolEntry.inUse = pool.inUseCount + (result.guards key).length := by
  cases h with
  | blocked grown => exact grown.countP_inUse
  | kept grown at_index free same first => exact grown.countP_set_free at_index free
  | fresh grown at_index free missing init => exact grown.countP_set_free at_index free
  | failed grown at_index free init => exact grown.countP_set_free at_index free

theorem Tried.length_le (h : Tried pool key alloc result entries)
    (hsize : pool.mPool.length ≤ pool.mMaxContexts) : entries.length ≤ pool.mMaxContexts := by
  cases h with
  | blocked grown => exact grown.length_le hsize
  | kept grown at_index free same first =>
    exact (List.length_set ..).trans_le (grown.length_le hsize)
  | fresh grown at_index free missing init =>
    exact (List.length_set ..).trans_le (grown.length_le hsize)
  | failed grown at_index free init => exact (List.length_set ..).trans_le (grown.length_le hsize)

theorem returnContext_eq {index : ℕ} {entry : PoolEntry}
    (hindex : pool.mPool[index]? = some entry) :
    pool.returnContext index = pool.setEntry index { entry with inUse := false } := by
  simp only [returnContext, hindex]

end Turn

/-! ### The counters -/

theorem findOrCreateContext_waiting (pool : RandomXContextPool) (key : Uint256) :
    (pool.findOrCreateContext key).2.waiting = pool.waiting ∧
      (pool.findOrCreateContext key).2.mMaxContexts = pool.mMaxContexts := by
  unfold findOrCreateContext
  split
  · exact ⟨rfl, rfl⟩
  · split
    · exact ⟨rfl, rfl⟩
    · split_ifs
      · exact ⟨funext fun p => by cases p <;> rfl, rfl⟩
      · exact ⟨rfl, rfl⟩

theorem takeContext_waiting (pool : RandomXContextPool) (index : ℕ) (entry : PoolEntry)
    (key : Uint256) (alloc : Allocation) :
    (pool.takeContext index entry key alloc).1 ≠ .blocked ∧
      (pool.takeContext index entry key alloc).2.waiting = pool.waiting ∧
      (pool.takeContext index entry key alloc).2.mMaxContexts = pool.mMaxContexts := by
  unfold takeContext
  split_ifs
  · dsimp only
    split_ifs
    · exact ⟨nofun, setEntry_waiting .., rfl⟩
    · exact ⟨nofun, setEntry_waiting .., rfl⟩
  · exact ⟨nofun, setEntry_waiting .., rfl⟩

/-- A turn takes its thread off the counter exactly if it does not end in waiting. -/
theorem tryAcquire_waiting (pool : RandomXContextPool) (key : Uint256)
    (priority : AcquisitionPriority) (starved : Bool) (alloc : Allocation) :
    let tried := pool.tryAcquire key priority starved alloc
    tried.2.mMaxContexts = pool.mMaxContexts ∧
      (tried.1 = .blocked → tried.2.waiting = pool.waiting) ∧
      (tried.1 ≠ .blocked → tried.2.waiting = (pool.decrementWaitingCount priority).waiting) := by
  obtain ⟨hwaiting, hmax⟩ := findOrCreateContext_waiting pool key
  unfold tryAcquire
  generalize pool.findOrCreateContext key = found at hwaiting hmax ⊢
  dsimp only
  split
  · exact ⟨hmax, fun _ => hwaiting, fun hne => absurd rfl hne⟩
  next index entry _ =>
    split_ifs
    · exact ⟨hmax, fun _ => hwaiting, fun hne => absurd rfl hne⟩
    · obtain ⟨hresult, htaken, hmax'⟩ := takeContext_waiting found.2 index entry key alloc
      refine ⟨(decrementWaitingCount_mMaxContexts ..).trans (hmax'.trans hmax),
        fun h => absurd h hresult, fun _ => funext fun p => ?_⟩
      rw [waiting_decrement, waiting_decrement, htaken, hwaiting]

/-- The calls of a priority that have started and not returned. -/
def PoolState.waitingCalls (s : PoolState) (p : AcquisitionPriority) : ℕ :=
  s.requests.countP fun r => r.priority = p

/-- A call that returns is no longer counted. -/
theorem countP_eraseIdx {requests : List Request} {i : ℕ} {r : Request} (hr : requests[i]? = some r)
    (p : AcquisitionPriority) :
    ((requests.eraseIdx i).countP fun r => r.priority = p) =
      (requests.countP fun r => r.priority = p) - if r.priority = p then 1 else 0 := by
  obtain ⟨hlt, hentry⟩ := List.getElem?_eq_some_iff.mp hr
  have hperm := List.getElem_cons_eraseIdx_perm hlt
  rw [hentry] at hperm
  rw [← hperm.countP_eq, List.countP_cons]
  simp only [decide_eq_true_eq, Nat.add_sub_cancel]

/-- The counters after a call of the priority has returned. -/
theorem PoolState.waiting_return {s : PoolState} (h : ∀ p, s.pool.waiting p = s.waitingCalls p)
    {i : ℕ} {r : Request} (hr : s.requests[i]? = some r) (p : AcquisitionPriority) :
    (s.pool.decrementWaitingCount r.priority).waiting p =
      (s.requests.eraseIdx i).countP fun r => r.priority = p := by
  rw [waiting_decrement, countP_eraseIdx hr, h p]
  rfl

/-! ### Steps of all threads -/

/-- What holds in every state that the threads can reach, besides `Handed`. -/
structure Counted (s : PoolState) : Prop where
  used : s.pool.inUseCount = s.guards.length
  size : s.pool.mPool.length ≤ s.pool.mMaxContexts
  counters : ∀ p, s.pool.waiting p = s.waitingCalls p

/-- A call that has not returned is counted: its counter does not go below zero when it does. -/
theorem Counted.waiting_pos {s : PoolState} (h : Counted s) {r : Request} (hr : r ∈ s.requests) :
    0 < s.pool.waiting r.priority := by
  rw [h.counters]
  exact List.countP_pos_iff.mpr ⟨r, hr, decide_eq_true rfl⟩

section Steps

variable {s s' : PoolState} {a : PoolAction}

theorem Stepped.used (h : Stepped s a s') (hs : Handed s)
    (hused : s.pool.inUseCount = s.guards.length) :
    s'.pool.inUseCount = s'.guards.length := by
  cases h with
  | untouched pool guards => rw [inUseCount, pool, guards, ← hused, inUseCount]
  | tried action request turn guards =>
    rw [inUseCount, turn.countP_inUse, guards, List.length_append, hused]
  | returned mem pool guards =>
    obtain ⟨entry, hindex, hmarked, -⟩ := hs.holds _ (List.mem_of_getElem? mem)
    rw [pool, returnContext_eq hindex, guards, List.length_eraseIdx,
      if_pos (List.getElem?_eq_some_iff.mp mem).1, ← hused]
    exact (countP_inUse_set hindex _).trans (by rw [hmarked]; rfl)

theorem Stepped.length_le (h : Stepped s a s') (hsize : s.pool.mPool.length ≤ s.pool.mMaxContexts) :
    s'.pool.mPool.length ≤ s.pool.mMaxContexts := by
  cases h with
  | untouched pool guards => rwa [pool]
  | tried action request turn guards => exact turn.length_le hsize
  | returned mem pool guards =>
    rw [pool]
    unfold returnContext
    split
    · exact (List.length_set ..).trans_le hsize
    · exact hsize

/-- The maximum changes only while the pool is empty, the counters with the calls. -/
theorem step_counters (hstep : s.step a = some s') :
    (s'.pool.mMaxContexts = s.pool.mMaxContexts ∨ s'.pool.mPool = []) ∧
      ((∀ p, s.pool.waiting p = s.waitingCalls p) →
        ∀ p, s'.pool.waiting p = s'.waitingCalls p) := by
  cases a with
  | request r =>
    obtain rfl := Option.some.inj hstep
    refine ⟨.inl (incrementWaitingCount_mMaxContexts ..), fun h p => ?_⟩
    show (s.pool.incrementWaitingCount r.priority).waiting p = (s.requests ++ [r]).countP _
    rw [waiting_increment, h p, List.countP_append, List.countP_singleton]
    simp [PoolState.waitingCalls]
  | attempt i starved alloc =>
    simp only [PoolState.step] at hstep
    cases hr : s.requests[i]? with
    | none => simp [hr] at hstep
    | some r =>
      simp only [hr] at hstep
      obtain ⟨hmax, hblocked, hreturned⟩ := tryAcquire_waiting s.pool r.key r.priority starved alloc
      generalize s.pool.tryAcquire r.key r.priority starved alloc =
        tried at hstep hmax hblocked hreturned
      obtain ⟨result, pool⟩ := tried
      cases result with
      | acquired index =>
        obtain rfl := Option.some.inj hstep
        have hwaiting := hreturned (by simp)
        exact ⟨.inl hmax, fun h p => (congrFun hwaiting p).trans (PoolState.waiting_return h hr p)⟩
      | failed =>
        obtain rfl := Option.some.inj hstep
        have hwaiting := hreturned (by simp)
        exact ⟨.inl hmax, fun h p => (congrFun hwaiting p).trans (PoolState.waiting_return h hr p)⟩
      | blocked =>
        obtain rfl := Option.some.inj hstep
        exact ⟨.inl hmax, fun h p => (congrFun (hblocked rfl) p).trans (h p)⟩
  | timeout i =>
    simp only [PoolState.step] at hstep
    cases hr : s.requests[i]? with
    | none => simp [hr] at hstep
    | some r =>
      simp only [hr, Option.ite_none_left_eq_some, Option.some.injEq] at hstep
      obtain ⟨-, rfl⟩ := hstep
      exact ⟨.inl (decrementWaitingCount_mMaxContexts ..), fun h => PoolState.waiting_return h hr⟩
  | release i =>
    simp only [PoolState.step] at hstep
    cases hg : s.guards[i]? with
    | none => simp [hg] at hstep
    | some g =>
      simp only [hg, Option.some.injEq] at hstep
      obtain rfl := hstep
      unfold returnContext
      split
      · exact ⟨.inl rfl, fun h p => (congrFun (setEntry_waiting ..) p).trans (h p)⟩
      · exact ⟨.inl rfl, fun h => h⟩
  | configure n =>
    obtain rfl := Option.some.inj hstep
    unfold setMaxContexts
    split_ifs with hempty hrange
    · exact ⟨.inl rfl, fun h => h⟩
    · exact ⟨.inl rfl, fun h => h⟩
    · exact ⟨.inr (by simpa using hempty), fun h p => Eq.trans (by cases p <;> rfl) (h p)⟩

/-- **One step of any thread.** -/
theorem Counted.step (h : Counted s) (hs : Handed s) (hstep : s.step a = some s') : Counted s' := by
  obtain ⟨hmax, hcounters⟩ := step_counters hstep
  have hstepped := step_stepped hstep
  refine ⟨hstepped.used hs h.used, ?_, hcounters h.counters⟩
  cases hmax with
  | inl hsame => exact (hstepped.length_le h.size).trans_eq hsame.symm
  | inr hempty => simp [hempty]

end Steps

theorem counted_of_run {allowed : PoolState → PoolAction → Prop} {s : PoolState}
    (h : poolMachine.Run allowed s) : Counted s := by
  induction h with
  | start h =>
    obtain rfl := h
    exact ⟨rfl, Nat.zero_le _, fun p => by cases p <;> rfl⟩
  | next before ok taken ih => exact ih.step (handed_of_run before) taken

/-- **Guards, size and counters** in every state that the threads can reach. -/
theorem pool_counted {s : PoolState} (h : poolMachine.Run AnyAction s) :
    (s.guards.map ContextGuard.index).Nodup ∧
    (∀ g ∈ s.guards, ∃ entry, s.pool.mPool[g.index]? = some entry ∧ entry.inUse = true) ∧
    s.pool.inUseCount = s.guards.length ∧
    s.pool.mPool.length ≤ s.pool.mMaxContexts ∧
    (∀ p, s.pool.waiting p = s.waitingCalls p) ∧
    ∀ r ∈ s.requests, 0 < s.pool.waiting r.priority :=
  have hhanded := handed_of_run h
  have hs := counted_of_run h
  ⟨hhanded.apart, fun g hg => (hhanded.holds g hg).imp fun _ hentry =>
    ⟨hentry.1, hentry.2.1⟩, hs.used, hs.size, hs.counters, fun _ hr => hs.waiting_pos hr⟩

/-- Two threads hold a context each, a third waits for one. -/
theorem pool_counted_two :
    let actions : List PoolAction :=
      [.configure 2, .request ⟨1, .normal⟩, .attempt 0 false .granted, .request ⟨0, .low⟩,
      .attempt 0 false .granted, .request ⟨2, .high⟩, .attempt 0 false .granted]
    ∃ s, poolMachine.steps {} actions = some s ∧ s.guards.length = 2 ∧ s.pool.inUseCount = 2 ∧
      s.pool.waiting .high = 1 ∧ s.pool.mPool.length ≤ s.pool.mMaxContexts := by
  intro actions
  obtain ⟨s, hs⟩ : ∃ s, poolMachine.steps {} actions = some s :=
    Option.isSome_iff_exists.mp (by decide)
  have hcounted := pool_counted (Machine.Run.steps (.start rfl) hs)
  have hguards : s.guards.length = 2 := by
    have hlength : (poolMachine.steps {} actions).map (fun s => s.guards.length) = some 2 := by
      decide
    rw [hs] at hlength
    exact Option.some.inj hlength
  have hrequests : s.waitingCalls .high = 1 := by
    have hcalls : (poolMachine.steps {} actions).map (fun s => s.waitingCalls .high) = some 1 := by
      decide
    rw [hs] at hcalls
    exact Option.some.inj hcalls
  exact ⟨s, hs, hguards, hcounted.2.2.1.trans hguards, (hcounted.2.2.2.2.1 .high).trans hrequests,
    hcounted.2.2.2.1⟩

end OpenSY.Crypto
