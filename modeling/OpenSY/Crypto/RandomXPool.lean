import OpenSY.Chain.Primitives
import OpenSY.Lib.Transition

/-!
# The pool of RandomX contexts

Threads that need a RandomX hash take a context from a bounded pool, initialised with the key of
their block, and give it back when their guard goes out of scope.  The pool files every context
under the key it was last initialised with, and skips the initialisation when that is the key asked
for.

`Acquire` holds the mutex of the pool except while it waits, so one turn of its loop is one step
here (`RandomXContextPool.tryAcquire`).  How long a thread has waited and whether the storage for a
context can be allocated are arguments of the step.

* `Filed` — a context is initialised with the key it is filed under, or not initialised at all;
* `Handed` — every guard has a context of its own, in use and filed under the key that was asked
  for;
* `guard_has_key` — a guard works, exactly if its context was not left behind by a failed
  initialisation.
-/

namespace OpenSY.Crypto

open OpenSY.Chain OpenSY.Transition

/-! ### A context -/

/-- A RandomX virtual machine is known by the key its cache was built from. -/
structure RandomXContext where
  mVm : Option Uint256
  mKeyBlockHash : Uint256
  mInitialized : Bool
  deriving DecidableEq

/-- What the RandomX library answers to the two allocations of `Initialize`. -/
inductive Allocation where
  | granted
  | noCache
  | noVm
  deriving DecidableEq

inductive HashError where
  /-- `RandomX context not initialized` -/
  | notInitialized
  /-- `RandomX input exceeds maximum size` -/
  | inputTooLong
  deriving DecidableEq

namespace RandomXContext

def new : RandomXContext := ⟨none, 0, false⟩

def cleanup (_ : RandomXContext) : RandomXContext := ⟨none, 0, false⟩

/-- `Initialize` -/
def initializeWith (ctx : RandomXContext) (keyBlockHash : Uint256) (alloc : Allocation) :
    Bool × RandomXContext :=
  if ctx.mInitialized && ctx.mKeyBlockHash = keyBlockHash then (true, ctx)
  else
    match alloc with
    | .noCache => (false, ctx.cleanup)
    | .noVm => (false, ctx.cleanup)
    | .granted => (true, ⟨some keyBlockHash, keyBlockHash, true⟩)

def maxRandomXInput : ℕ := 1024

/-- The hash of `input`, where `randomx` is the hash function for each key. -/
def calculateHash (randomx : Uint256 → Bytes → Uint256) (ctx : RandomXContext) (input : Bytes) :
    Except HashError Uint256 :=
  match ctx.mVm with
  | none => .error .notInitialized
  | some key =>
    if !ctx.mInitialized then .error .notInitialized
    else if maxRandomXInput < input.length then .error .inputTooLong
    else .ok (randomx key input)

/-- Ready for hashing under `key`. -/
def Ready (ctx : RandomXContext) (key : Uint256) : Prop := ctx = ⟨some key, key, true⟩

instance (ctx : RandomXContext) (key : Uint256) : Decidable (ctx.Ready key) :=
  inferInstanceAs (Decidable (_ = _))

end RandomXContext

/-! ### The pool -/

inductive AcquisitionPriority where
  | low
  | normal
  | high
  | consensusCritical
  deriving DecidableEq

structure PoolEntry where
  context : RandomXContext
  keyHash : Uint256
  inUse : Bool
  deriving DecidableEq

def PoolEntry.new : PoolEntry := ⟨.new, 0, false⟩

def maxContexts : ℕ := 8

structure RandomXContextPool where
  mPool : List PoolEntry := []
  mMaxContexts : ℕ := maxContexts
  mWaitingConsensusCritical : ℕ := 0
  mWaitingHigh : ℕ := 0
  mWaitingNormal : ℕ := 0
  mWaitingLow : ℕ := 0
  deriving DecidableEq

/-- How one turn of the loop in `Acquire` ends. -/
inductive Attempt where
  | acquired (index : ℕ)
  /-- initialisation failed: `Acquire` returns nothing -/
  | failed
  /-- no context, or a more urgent thread is waiting -/
  | blocked
  deriving DecidableEq

namespace RandomXContextPool

def shouldYieldToHigherPriority (pool : RandomXContextPool) : AcquisitionPriority → Bool
  | .low => pool.mWaitingNormal > 0 || pool.mWaitingHigh > 0 || pool.mWaitingConsensusCritical > 0
  | .normal => pool.mWaitingHigh > 0 || pool.mWaitingConsensusCritical > 0
  | .high => pool.mWaitingConsensusCritical > 0
  | .consensusCritical => false

/-- A thread that has waited past the threshold (`starved`) no longer yields. -/
def shouldYieldWithStarvationCheck (pool : RandomXContextPool) (priority : AcquisitionPriority)
    (starved : Bool) : Bool :=
  if starved then false else pool.shouldYieldToHigherPriority priority

def incrementWaitingCount (pool : RandomXContextPool) : AcquisitionPriority → RandomXContextPool
  | .consensusCritical =>
    { pool with mWaitingConsensusCritical := pool.mWaitingConsensusCritical + 1 }
  | .high => { pool with mWaitingHigh := pool.mWaitingHigh + 1 }
  | .normal => { pool with mWaitingNormal := pool.mWaitingNormal + 1 }
  | .low => { pool with mWaitingLow := pool.mWaitingLow + 1 }

def decrementWaitingCount (pool : RandomXContextPool) : AcquisitionPriority → RandomXContextPool
  | .consensusCritical =>
    { pool with mWaitingConsensusCritical := pool.mWaitingConsensusCritical - 1 }
  | .high => { pool with mWaitingHigh := pool.mWaitingHigh - 1 }
  | .normal => { pool with mWaitingNormal := pool.mWaitingNormal - 1 }
  | .low => { pool with mWaitingLow := pool.mWaitingLow - 1 }

/-- A free context filed under the key, else any free one, else a new one if there is room. -/
def findOrCreateContext (pool : RandomXContextPool) (keyBlockHash : Uint256) :
    Option ℕ × RandomXContextPool :=
  match pool.mPool.findIdx? fun entry => !entry.inUse && entry.keyHash = keyBlockHash with
  | some i => (some i, pool)
  | none =>
    match pool.mPool.findIdx? fun entry => !entry.inUse with
    | some i => (some i, pool)
    | none =>
      if pool.mPool.length < pool.mMaxContexts then
        (some pool.mPool.length, { pool with mPool := pool.mPool ++ [.new] })
      else (none, pool)

def setEntry (pool : RandomXContextPool) (index : ℕ) (entry : PoolEntry) : RandomXContextPool :=
  { pool with mPool := pool.mPool.set index entry }

/-- Take the context at `index`, reinitialised if it is filed under another key. -/
def takeContext (pool : RandomXContextPool) (index : ℕ) (entry : PoolEntry) (keyBlockHash : Uint256)
    (alloc : Allocation) : Attempt × RandomXContextPool :=
  if entry.keyHash ≠ keyBlockHash then
    let init := entry.context.initializeWith keyBlockHash alloc
    -- on failure the context has lost its key, but the pool still has it filed under it
    if !init.1 then (.failed, pool.setEntry index { entry with context := init.2, inUse := false })
    else (.acquired index, pool.setEntry index ⟨init.2, keyBlockHash, true⟩)
  else (.acquired index, pool.setEntry index { entry with inUse := true })

/-- One turn of the loop in `Acquire`. -/
def tryAcquire (pool : RandomXContextPool) (keyBlockHash : Uint256) (priority : AcquisitionPriority)
    (starved : Bool) (alloc : Allocation) : Attempt × RandomXContextPool :=
  let found := pool.findOrCreateContext keyBlockHash
  match found.1.bind fun index => (found.2.mPool[index]?).map fun entry => (index, entry) with
  | none => (.blocked, found.2)
  | some (index, entry) =>
    if found.2.shouldYieldWithStarvationCheck priority starved then (.blocked, found.2)
    else
      let taken := found.2.takeContext index entry keyBlockHash alloc
      (taken.1, taken.2.decrementWaitingCount priority)

/-- Give a context back. -/
def returnContext (pool : RandomXContextPool) (index : ℕ) : RandomXContextPool :=
  match pool.mPool[index]? with
  | some entry => pool.setEntry index { entry with inUse := false }
  | none => pool

def setMaxContexts (pool : RandomXContextPool) (n : ℕ) : RandomXContextPool :=
  if !pool.mPool.isEmpty then pool
  else if n = 0 ∨ 64 < n then pool
  else { pool with mMaxContexts := n }

end RandomXContextPool

/-! ### Threads -/

/-- A thread inside `Acquire`. -/
structure Request where
  key : Uint256
  priority : AcquisitionPriority
  deriving DecidableEq

/-- A guard that has not been destroyed, with the key it was acquired for. -/
structure ContextGuard where
  index : ℕ
  key : Uint256
  deriving DecidableEq

structure PoolState where
  pool : RandomXContextPool := {}
  requests : List Request := []
  guards : List ContextGuard := []
  deriving DecidableEq

inductive PoolAction where
  /-- a thread calls `Acquire` -/
  | request (r : Request)
  /-- the `i`-th thread in `Acquire` goes through the loop once -/
  | attempt (i : ℕ) (starved : Bool) (alloc : Allocation)
  /-- the `i`-th thread in `Acquire` gives up -/
  | timeout (i : ℕ)
  /-- the `i`-th guard is destroyed -/
  | release (i : ℕ)
  | configure (n : ℕ)

def PoolState.step (s : PoolState) : PoolAction → Option PoolState
  | .request r =>
    some { s with pool := s.pool.incrementWaitingCount r.priority, requests := s.requests ++ [r] }
  | .attempt i starved alloc =>
    match s.requests[i]? with
    | none => none
    | some r =>
      let tried := s.pool.tryAcquire r.key r.priority starved alloc
      match tried.1 with
      | .acquired index => some {
          pool := tried.2
          requests := s.requests.eraseIdx i
          guards := s.guards ++ [⟨index, r.key⟩] }
      | .failed => some { s with pool := tried.2, requests := s.requests.eraseIdx i }
      | .blocked => some { s with pool := tried.2 }
  | .timeout i =>
    match s.requests[i]? with
    | none => none
    | some r =>
      -- block validation waits for as long as it takes
      if r.priority = .consensusCritical then none
      else some { s with
        pool := s.pool.decrementWaitingCount r.priority, requests := s.requests.eraseIdx i }
  | .release i =>
    match s.guards[i]? with
    | none => none
    | some g => some { s with pool := s.pool.returnContext g.index, guards := s.guards.eraseIdx i }
  | .configure n => some { s with pool := s.pool.setMaxContexts n }

/-- A pool without contexts, and nobody who asks for one. -/
def poolMachine : Machine PoolState PoolAction where
  start s := s = {}
  step := PoolState.step

/-! ### One turn of the loop -/

namespace RandomXContext

/-- Ready for `key`, or not ready at all: a new context, or one that a failed initialisation left
behind. -/
def ReadyOrNew (ctx : RandomXContext) (key : Uint256) : Prop := ctx.Ready key ∨ ctx = .new

/-- **Initialisation makes a context ready or leaves it uninitialised.** -/
theorem ReadyOrNew.initializeWith_cases {ctx : RandomXContext} {old : Uint256}
    (h : ctx.ReadyOrNew old) (key : Uint256) (alloc : Allocation) :
    (ctx.initializeWith key alloc).1 = true ∧ (ctx.initializeWith key alloc).2.Ready key ∨
      (ctx.initializeWith key alloc).1 = false ∧ (ctx.initializeWith key alloc).2 = .new := by
  unfold initializeWith
  split_ifs with hsame
  · -- skipped: only a context that is ready says that it is initialised
    left
    refine ⟨rfl, ?_⟩
    cases h with
    | inl h =>
      obtain rfl := h
      have hkey : old = key := by simpa using hsame
      rw [hkey]
      rfl
    | inr h => simp [h, RandomXContext.new] at hsame
  · cases alloc with
    | granted => exact .inl ⟨rfl, rfl⟩
    | noCache => exact .inr ⟨rfl, rfl⟩
    | noVm => exact .inr ⟨rfl, rfl⟩

theorem Ready.calculateHash {ctx : RandomXContext} {key : Uint256} (h : ctx.Ready key)
    (randomx : Uint256 → Bytes → Uint256) (input : Bytes) :
    ctx.calculateHash randomx input =
      if maxRandomXInput < input.length then .error .inputTooLong else .ok (randomx key input) := by
  rw [show ctx = _ from h]
  rfl

theorem not_ready_new (key : Uint256) : ¬ new.Ready key := by
  intro h
  cases congrArg mInitialized h

end RandomXContext

namespace RandomXContextPool

@[simp] theorem incrementWaitingCount_mPool (pool : RandomXContextPool)
    (priority : AcquisitionPriority) :
    (pool.incrementWaitingCount priority).mPool = pool.mPool := by
  cases priority <;> rfl

@[simp] theorem decrementWaitingCount_mPool (pool : RandomXContextPool)
    (priority : AcquisitionPriority) :
    (pool.decrementWaitingCount priority).mPool = pool.mPool := by
  cases priority <;> rfl

/-- The free context filed under `key` that `FindOrCreateContext` comes upon first. -/
def filedUnder (pool : RandomXContextPool) (key : Uint256) : Option PoolEntry :=
  pool.mPool.find? fun entry => !entry.inUse && entry.keyHash = key

/-- The context that a request for `key` is given has been left behind by a failed initialisation.
-/
def Stale (pool : RandomXContextPool) (key : Uint256) : Prop :=
  ∃ entry, pool.filedUnder key = some entry ∧ entry.context.mInitialized = false

instance (pool : RandomXContextPool) (key : Uint256) : Decidable (pool.Stale key) :=
  decidable_of_iff (((pool.filedUnder key).any fun entry => !entry.context.mInitialized) = true) (by
    cases h : pool.filedUnder key <;> simp [Stale, h])

end RandomXContextPool

/-- The contexts of the pool, and a new one at the end if it has been created. -/
inductive Grown (pool : RandomXContextPool) : List PoolEntry → Prop
  | same : Grown pool pool.mPool
  | created (room : pool.mPool.length < pool.mMaxContexts) : Grown pool (pool.mPool ++ [.new])

/-- What one turn of the loop can do to the contexts of the pool. -/
inductive Tried (pool : RandomXContextPool) (key : Uint256) (alloc : Allocation) :
    Attempt → List PoolEntry → Prop
  | blocked {base : List PoolEntry} (grown : Grown pool base) : Tried pool key alloc .blocked base
  /-- a context filed under the key is handed out as it is -/
  | kept {base : List PoolEntry} {index : ℕ} {entry : PoolEntry} (grown : Grown pool base)
      (at_index : base[index]? = some entry) (free : entry.inUse = false)
      (same : entry.keyHash = key) (first : key ≠ 0 → pool.filedUnder key = some entry) :
      Tried pool key alloc (.acquired index) (base.set index ⟨entry.context, key, true⟩)
  /-- any other context is initialised first -/
  | fresh {base : List PoolEntry} {index : ℕ} {entry : PoolEntry} (grown : Grown pool base)
      (at_index : base[index]? = some entry) (free : entry.inUse = false)
      (missing : pool.filedUnder key = none)
      (init : (entry.context.initializeWith key alloc).1 = true) :
      Tried pool key alloc (.acquired index)
        (base.set index ⟨(entry.context.initializeWith key alloc).2, key, true⟩)
  | failed {base : List PoolEntry} {index : ℕ} {entry : PoolEntry} (grown : Grown pool base)
      (at_index : base[index]? = some entry) (free : entry.inUse = false)
      (init : (entry.context.initializeWith key alloc).1 = false) :
      Tried pool key alloc .failed
        (base.set index ⟨(entry.context.initializeWith key alloc).2, entry.keyHash, false⟩)

/-- What `FindOrCreateContext` comes up with.  New contexts are filed under the null key. -/
inductive Found (pool : RandomXContextPool) (key : Uint256) : Option ℕ → List PoolEntry → Prop
  | filed {base : List PoolEntry} {index : ℕ} {entry : PoolEntry} (grown : Grown pool base)
      (at_index : base[index]? = some entry) (free : entry.inUse = false)
      (same : entry.keyHash = key) (first : key ≠ 0 → pool.filedUnder key = some entry) :
      Found pool key (some index) base
  | other {base : List PoolEntry} {index : ℕ} {entry : PoolEntry} (grown : Grown pool base)
      (at_index : base[index]? = some entry) (free : entry.inUse = false)
      (differs : entry.keyHash ≠ key) (missing : pool.filedUnder key = none) :
      Found pool key (some index) base
  | full : Found pool key none pool.mPool

theorem findOrCreateContext_found (pool : RandomXContextPool) (key : Uint256) :
    Found pool key (pool.findOrCreateContext key).1 (pool.findOrCreateContext key).2.mPool := by
  have hfirst : pool.filedUnder key = _ := List.find?_eq_bind_findIdx?_getElem?
  unfold RandomXContextPool.findOrCreateContext
  split
  next index hfiled =>
    rw [hfiled, Option.bind_some] at hfirst
    obtain ⟨hlt, hp, -⟩ := List.findIdx?_eq_some_iff_getElem.mp hfiled
    rw [List.getElem?_eq_getElem hlt] at hfirst
    simp only [Bool.and_eq_true, Bool.not_eq_true', decide_eq_true_eq] at hp
    exact .filed .same (List.getElem?_eq_getElem hlt) hp.1 hp.2 fun _ => hfirst
  next hfiled =>
    rw [hfiled, Option.bind_none] at hfirst
    split
    next index hfree =>
      obtain ⟨hlt, hp, -⟩ := List.findIdx?_eq_some_iff_getElem.mp hfree
      have hdiffers := List.findIdx?_eq_none_iff.mp hfiled _ (List.getElem_mem hlt)
      simp only [Bool.not_eq_true'] at hp
      simp only [hp, Bool.not_false, Bool.true_and, decide_eq_false_iff_not] at hdiffers
      exact .other .same (List.getElem?_eq_getElem hlt) hp hdiffers hfirst
    next =>
      split_ifs with hroom
      · by_cases hkey : key = 0
        · exact .filed (.created hroom) List.getElem?_concat_length rfl hkey.symm fun hne =>
            absurd hkey hne
        · exact .other (.created hroom) List.getElem?_concat_length rfl (Ne.symm hkey) hfirst
      · exact .full

/-- **The loop of `Acquire`, turn by turn.** -/
theorem tryAcquire_tried (pool : RandomXContextPool) (key : Uint256)
    (priority : AcquisitionPriority) (starved : Bool) (alloc : Allocation) :
    Tried pool key alloc (pool.tryAcquire key priority starved alloc).1
      (pool.tryAcquire key priority starved alloc).2.mPool := by
  have hfound := findOrCreateContext_found pool key
  unfold RandomXContextPool.tryAcquire
  generalize pool.findOrCreateContext key = found at hfound ⊢
  obtain ⟨index, found⟩ := found
  generalize hbase : found.mPool = base at hfound
  cases hfound with
  | full =>
    simp only [Option.bind_none, hbase]
    exact .blocked .same
  | filed grown at_index free same first =>
    simp only [Option.bind_some, hbase, at_index, Option.map_some]
    split_ifs
    · rw [hbase]
      exact .blocked grown
    · simp only [RandomXContextPool.takeContext, same, ne_eq, not_true_eq_false, if_false,
        RandomXContextPool.decrementWaitingCount_mPool, RandomXContextPool.setEntry, hbase]
      exact .kept grown at_index free same first
  | other grown at_index free differs missing =>
    simp only [Option.bind_some, hbase, at_index, Option.map_some]
    split_ifs
    · rw [hbase]
      exact .blocked grown
    · simp only [RandomXContextPool.takeContext, differs, ne_eq, not_false_eq_true, if_true]
      split_ifs with hinit
      · simp only [RandomXContextPool.decrementWaitingCount_mPool,
          RandomXContextPool.setEntry, hbase]
        exact .failed grown at_index free (by simpa using hinit)
      · simp only [RandomXContextPool.decrementWaitingCount_mPool,
          RandomXContextPool.setEntry, hbase]
        exact .fresh grown at_index free missing (by simpa using hinit)

/-! ### Guards and their contexts -/

/-- A context is ready for the key it is filed under, if it is ready at all. -/
def PoolEntry.Filed (entry : PoolEntry) : Prop := entry.context.ReadyOrNew entry.keyHash

/-- The context behind a guard is in use and filed under the key asked for. -/
def PoolState.Holds (s : PoolState) (g : ContextGuard) : Prop :=
  ∃ entry, s.pool.mPool[g.index]? = some entry ∧ entry.inUse = true ∧ entry.keyHash = g.key

/-- The context behind a guard is ready for the key asked for. -/
def PoolState.Serves (s : PoolState) (g : ContextGuard) : Prop :=
  ∃ entry, s.pool.mPool[g.index]? = some entry ∧ entry.context.Ready g.key

/-- What holds in every state that the threads can reach. -/
structure Handed (s : PoolState) : Prop where
  filed : ∀ entry ∈ s.pool.mPool, entry.Filed
  holds : ∀ g ∈ s.guards, s.Holds g
  apart : (s.guards.map ContextGuard.index).Nodup

section Turn

variable {pool : RandomXContextPool} {base entries : List PoolEntry} {key : Uint256}
  {alloc : Allocation} {result : Attempt}

theorem Grown.getElem? (h : Grown pool base) {i : ℕ} {entry : PoolEntry}
    (hi : pool.mPool[i]? = some entry) :
    base[i]? = some entry := by
  cases h with
  | same => exact hi
  | created room => rw [List.getElem?_append_left (List.getElem?_eq_some_iff.mp hi).1, hi]

theorem Grown.filed (h : Grown pool base) (hfiled : ∀ entry ∈ pool.mPool, entry.Filed) :
    ∀ entry ∈ base, entry.Filed := by
  cases h with
  | same => exact hfiled
  | created room =>
    intro entry hentry
    cases List.mem_append.mp hentry with
    | inl hold => exact hfiled entry hold
    | inr hnew => exact .inr (congrArg PoolEntry.context (List.mem_singleton.mp hnew))

/-- The place of a context in use is not touched by a turn of the loop. -/
theorem Grown.set_getElem? (h : Grown pool base) {i index : ℕ} {entry found new : PoolEntry}
    (hi : pool.mPool[i]? = some entry) (hused : entry.inUse = true)
    (hindex : base[index]? = some found) (hfree : found.inUse = false) :
    (base.set index new)[i]? = some entry := by
  have hne : index ≠ i := by
    intro heq
    rw [heq, h.getElem? hi] at hindex
    rw [← Option.some.inj hindex, hused] at hfree
    cases hfree
  rw [List.getElem?_set_ne hne, h.getElem? hi]

theorem Tried.getElem? (h : Tried pool key alloc result entries) {i : ℕ} {entry : PoolEntry}
    (hi : pool.mPool[i]? = some entry) (hused : entry.inUse = true) : entries[i]? = some entry := by
  cases h with
  | blocked grown => exact grown.getElem? hi
  | kept grown at_index free same first => exact grown.set_getElem? hi hused at_index free
  | fresh grown at_index free missing init => exact grown.set_getElem? hi hused at_index free
  | failed grown at_index free init => exact grown.set_getElem? hi hused at_index free

/-- An index that is handed out was not in use. -/
theorem Tried.not_inUse {index : ℕ} (h : Tried pool key alloc (.acquired index) entries)
    {entry : PoolEntry} (hindex : pool.mPool[index]? = some entry) : entry.inUse = false := by
  cases h with
  | kept grown at_index free same first =>
    rw [grown.getElem? hindex] at at_index
    rwa [Option.some.inj at_index]
  | fresh grown at_index free missing init =>
    rw [grown.getElem? hindex] at at_index
    rwa [Option.some.inj at_index]

theorem Filed.set (h : ∀ entry ∈ entries, entry.Filed) {new : PoolEntry} (hnew : new.Filed)
    (index : ℕ) :
    ∀ entry ∈ entries.set index new, entry.Filed := by
  intro entry hentry
  cases List.mem_or_eq_of_mem_set hentry with
  | inl hold => exact h entry hold
  | inr heq => rwa [heq]

theorem Tried.filed (h : Tried pool key alloc result entries)
    (hfiled : ∀ entry ∈ pool.mPool, entry.Filed) :
    ∀ entry ∈ entries, entry.Filed := by
  cases h with
  | blocked grown => exact grown.filed hfiled
  | @kept _ index entry grown at_index free same first =>
    have hentry : entry.context.ReadyOrNew entry.keyHash :=
      grown.filed hfiled _ (List.mem_of_getElem? at_index)
    rw [same] at hentry
    exact Filed.set (grown.filed hfiled)
      (show PoolEntry.Filed ⟨entry.context, key, true⟩ from hentry) _
  | fresh grown at_index free missing init =>
    have hold := grown.filed hfiled _ (List.mem_of_getElem? at_index)
    cases hold.initializeWith_cases key alloc with
    | inl hready => exact Filed.set (grown.filed hfiled) (.inl hready.2) _
    | inr hnew => rw [init] at hnew; cases hnew.1
  | failed grown at_index free init =>
    have hold := grown.filed hfiled _ (List.mem_of_getElem? at_index)
    cases hold.initializeWith_cases key alloc with
    | inl hready => rw [init] at hready; cases hready.1
    | inr hnew => exact Filed.set (grown.filed hfiled) (.inr hnew.2) _

/-- A context that is handed out is filed under the key, and ready for it exactly if the one the
pool had for the key was not stale. -/
theorem Tried.acquired {index : ℕ} (h : Tried pool key alloc (.acquired index) entries)
    (hfiled : ∀ entry ∈ pool.mPool, entry.Filed) :
    ∃ entry, entries[index]? = some entry ∧ entry.inUse = true ∧ entry.keyHash = key ∧
      (key ≠ 0 → (entry.context.Ready key ↔ ¬ pool.Stale key)) := by
  cases h with
  | @kept _ _ entry grown at_index free same first =>
    have hentry : entry.context.ReadyOrNew entry.keyHash :=
      grown.filed hfiled _ (List.mem_of_getElem? at_index)
    refine ⟨_, List.getElem?_set_self (List.getElem?_eq_some_iff.mp at_index).1, rfl, rfl,
      fun hkey => ?_⟩
    show entry.context.Ready key ↔ ¬ ∃ e, pool.filedUnder key = some e ∧
        e.context.mInitialized = false
    simp only [first hkey, Option.some.injEq, exists_eq_left']
    rw [same] at hentry
    cases hentry with
    | inl hready =>
      rw [show entry.context = _ from hready]
      simp [RandomXContext.Ready]
    | inr hnew =>
      rw [hnew]
      exact iff_of_false (RandomXContext.not_ready_new key) (not_not_intro rfl)
  | fresh grown at_index free missing init =>
    refine ⟨_, List.getElem?_set_self (List.getElem?_eq_some_iff.mp at_index).1, rfl, rfl,
      fun _ => ?_⟩
    have hold := grown.filed hfiled _ (List.mem_of_getElem? at_index)
    have hready := (hold.initializeWith_cases key alloc).resolve_right fun h => by
      rw [init] at h
      cases h.1
    refine iff_of_true hready.2 ?_
    simp [RandomXContextPool.Stale, missing]

end Turn

theorem returnContext_getElem? (pool : RandomXContextPool) {index i : ℕ} (hne : index ≠ i) :
    (pool.returnContext index).mPool[i]? = pool.mPool[i]? := by
  unfold RandomXContextPool.returnContext
  split
  · exact List.getElem?_set_ne hne
  · rfl

theorem setMaxContexts_mPool (pool : RandomXContextPool) (n : ℕ) :
    (pool.setMaxContexts n).mPool = pool.mPool := by
  unfold RandomXContextPool.setMaxContexts
  split_ifs <;> rfl

/-- The guard that a turn of the loop comes up with. -/
def Attempt.guards (key : Uint256) : Attempt → List ContextGuard
  | .acquired index => [⟨index, key⟩]
  | .failed | .blocked => []

/-- What a step can do to the contexts and the guards. -/
inductive Stepped (s : PoolState) (a : PoolAction) (s' : PoolState) : Prop
  | untouched (pool : s'.pool.mPool = s.pool.mPool) (guards : s'.guards = s.guards)
  | tried {i : ℕ} {starved : Bool} {alloc : Allocation} {r : Request} {result : Attempt}
      (action : a = .attempt i starved alloc) (request : s.requests[i]? = some r)
      (turn : Tried s.pool r.key alloc result s'.pool.mPool)
      (guards : s'.guards = s.guards ++ result.guards r.key)
  | returned {i : ℕ} {g : ContextGuard} (mem : s.guards[i]? = some g)
      (pool : s'.pool = s.pool.returnContext g.index) (guards : s'.guards = s.guards.eraseIdx i)

theorem step_stepped {s s' : PoolState} {a : PoolAction}
    (hstep : s.step a = some s') : Stepped s a s' := by
  cases a with
  | request r =>
    obtain rfl := Option.some.inj hstep
    exact .untouched (by simp) rfl
  | attempt i starved alloc =>
    simp only [PoolState.step] at hstep
    cases hr : s.requests[i]? with
    | none => simp [hr] at hstep
    | some r =>
      simp only [hr] at hstep
      have hturn := tryAcquire_tried s.pool r.key r.priority starved alloc
      generalize s.pool.tryAcquire r.key r.priority starved alloc = tried at hstep hturn
      obtain ⟨result, pool⟩ := tried
      cases result with
      | acquired index =>
        obtain rfl := Option.some.inj hstep
        exact .tried rfl hr hturn rfl
      | failed =>
        obtain rfl := Option.some.inj hstep
        exact .tried rfl hr hturn (List.append_nil _).symm
      | blocked =>
        obtain rfl := Option.some.inj hstep
        exact .tried rfl hr hturn (List.append_nil _).symm
  | timeout i =>
    simp only [PoolState.step] at hstep
    cases hr : s.requests[i]? with
    | none => simp [hr] at hstep
    | some r =>
      simp only [hr, Option.ite_none_left_eq_some, Option.some.injEq] at hstep
      obtain ⟨-, rfl⟩ := hstep
      exact .untouched (by simp) rfl
  | release i =>
    simp only [PoolState.step] at hstep
    cases hg : s.guards[i]? with
    | none => simp [hg] at hstep
    | some g =>
      simp only [hg] at hstep
      obtain rfl := Option.some.inj hstep
      exact .returned hg rfl rfl
  | configure n =>
    obtain rfl := Option.some.inj hstep
    exact .untouched (setMaxContexts_mPool _ _) rfl

/-- A guard after a step is one from before, with the same context, or was handed out by the step.
-/
inductive Origin (s s' : PoolState) (a : PoolAction) (g : ContextGuard) : Prop
  | old (mem : g ∈ s.guards)
      (same : ∀ entry, s.pool.mPool[g.index]? = some entry → entry.inUse = true →
        s'.pool.mPool[g.index]? = some entry)
  | acquired {i : ℕ} {starved : Bool} {alloc : Allocation} {r : Request}
      (action : a = .attempt i starved alloc) (request : s.requests[i]? = some r)
      (key : g.key = r.key)
      (turn : Tried s.pool g.key alloc (.acquired g.index) s'.pool.mPool)

theorem Stepped.origin {s s' : PoolState} {a : PoolAction} (h : Stepped s a s') (hs : Handed s)
    {g : ContextGuard} (hg : g ∈ s'.guards) : Origin s s' a g := by
  cases h with
  | untouched pool guards =>
    exact .old (guards ▸ hg) fun entry hi _ => by rw [pool, hi]
  | @tried i starved alloc r result action request turn guards =>
    rw [guards] at hg
    cases List.mem_append.mp hg with
    | inl hold => exact .old hold fun entry hi hused => turn.getElem? hi hused
    | inr hnew =>
      cases result with
      | acquired index =>
        obtain rfl := List.mem_singleton.mp hnew
        exact .acquired action request rfl turn
      | failed => cases hnew
      | blocked => cases hnew
  | @returned i gone mem pool guards =>
    rw [guards] at hg
    -- the guard that is destroyed was the only one for its context
    have hne : gone.index ≠ g.index := by
      obtain ⟨j, hji, hj⟩ := List.mem_eraseIdx_iff_getElem?.mp hg
      intro heq
      refine hji ((List.getElem?_inj (List.getElem?_eq_some_iff.mp
        (by rw [List.getElem?_map, hj]; rfl)).1 hs.apart).mp ?_)
      rw [List.getElem?_map, List.getElem?_map, hj, mem]
      exact congrArg some heq.symm
    exact .old (List.mem_of_mem_eraseIdx hg) fun entry hi _ => by
      rw [pool, returnContext_getElem? _ hne, hi]

theorem returnContext_filed {pool : RandomXContextPool} (h : ∀ entry ∈ pool.mPool, entry.Filed)
    (index : ℕ) :
    ∀ entry ∈ (pool.returnContext index).mPool, entry.Filed := by
  unfold RandomXContextPool.returnContext
  split
  next entry hi =>
    have hentry := h _ (List.mem_of_getElem? hi)
    exact Filed.set h (show PoolEntry.Filed { entry with inUse := false } from hentry) index
  next => exact h

theorem Handed.step {s s' : PoolState} {a : PoolAction} (h : Handed s)
    (hstep : s.step a = some s') :
    Handed s' := by
  have hs := step_stepped hstep
  have holds : ∀ g ∈ s'.guards, s'.Holds g := by
    intro g hg
    cases hs.origin h hg with
    | old mem same =>
      obtain ⟨entry, hi, hused, hkey⟩ := h.holds g mem
      exact ⟨entry, same entry hi hused, hused, hkey⟩
    | acquired action request key turn =>
      obtain ⟨entry, hi, hused, hkey, -⟩ := turn.acquired h.filed
      exact ⟨entry, hi, hused, hkey⟩
  cases hs with
  | untouched pool guards =>
    refine ⟨?_, holds, ?_⟩
    · rw [pool]
      exact h.filed
    · rw [guards]
      exact h.apart
  | @tried i starved alloc r result action request turn guards =>
    refine ⟨turn.filed h.filed, holds, ?_⟩
    rw [guards, List.map_append]
    cases result with
    | acquired index =>
      -- the context was free, so no guard has it
      refine List.nodup_append.mpr ⟨h.apart, List.nodup_singleton _, ?_⟩
      intro j hj k hk
      obtain rfl := List.mem_singleton.mp hk
      obtain ⟨g, hg, rfl⟩ := List.mem_map.mp hj
      intro heq
      obtain ⟨entry, hi, hused, -⟩ := h.holds g hg
      have hfree := turn.not_inUse (heq ▸ hi)
      rw [hused] at hfree
      cases hfree
    | failed => simpa [Attempt.guards] using h.apart
    | blocked => simpa [Attempt.guards] using h.apart
  | returned mem pool guards =>
    refine ⟨?_, holds, ?_⟩
    · rw [pool]
      exact returnContext_filed h.filed _
    · rw [guards, ← List.eraseIdx_map]
      exact h.apart.eraseIdx _

/-- **Every guard has a context of its own, filed under the key asked for.** -/
theorem handed_of_run {allowed : PoolState → PoolAction → Prop} {s : PoolState}
    (h : poolMachine.Run allowed s) : Handed s := by
  refine h.induct ?_ fun s s' a hs _ hstep => hs.step hstep
  intro s hs
  obtain rfl := hs
  exact ⟨by simp, by simp, by simp⟩

/-! ### When a guard works -/

/-- No thread is given a context that a failed initialisation left behind. -/
def UnlessStale (s : PoolState) : PoolAction → Prop
  | .attempt i _ _ => ∀ r ∈ s.requests[i]?, r.key ≠ 0 → ¬ s.pool.Stale r.key
  | _ => True

/-- Every initialisation succeeds. -/
def Granted (_ : PoolState) : PoolAction → Prop
  | .attempt _ _ alloc => alloc = .granted
  | _ => True

instance (s : PoolState) : (a : PoolAction) → Decidable (UnlessStale s a)
  | .attempt i _ _ =>
    inferInstanceAs (Decidable (∀ r ∈ s.requests[i]?, r.key ≠ 0 → ¬ s.pool.Stale r.key))
  | .request _ | .timeout _ | .release _ | .configure _ => inferInstanceAs (Decidable True)

/-- Contexts filed under a key are ready for it. -/
def AllReady (entries : List PoolEntry) : Prop :=
  ∀ entry ∈ entries, entry.keyHash ≠ 0 → entry.context.Ready entry.keyHash

section Granted

variable {pool : RandomXContextPool} {base entries : List PoolEntry}

theorem AllReady.set (h : AllReady entries) {new : PoolEntry}
    (hnew : new.keyHash ≠ 0 → new.context.Ready new.keyHash) (index : ℕ) :
    AllReady (entries.set index new) := by
  intro entry hentry
  cases List.mem_or_eq_of_mem_set hentry with
  | inl hold => exact h entry hold
  | inr heq => rwa [heq]

theorem AllReady.grown (h : AllReady pool.mPool) (hgrown : Grown pool base) : AllReady base := by
  cases hgrown with
  | same => exact h
  | created room =>
    intro entry hentry hne
    cases List.mem_append.mp hentry with
    | inl hold => exact h entry hold hne
    | inr hnew => exact absurd (congrArg PoolEntry.keyHash (List.mem_singleton.mp hnew)) hne

theorem AllReady.tried {key : Uint256} {result : Attempt} (h : AllReady pool.mPool)
    (hfiled : ∀ entry ∈ pool.mPool, entry.Filed) (hturn : Tried pool key .granted result entries) :
    AllReady entries := by
  cases hturn with
  | blocked grown => exact h.grown grown
  | @kept _ index entry grown at_index free same first =>
    refine (h.grown grown).set (fun hne => ?_) index
    have hready := h.grown grown entry (List.mem_of_getElem? at_index) (same ▸ hne)
    rwa [same] at hready
  | fresh grown at_index free missing init =>
    have hold := grown.filed hfiled _ (List.mem_of_getElem? at_index)
    cases hold.initializeWith_cases key .granted with
    | inl hready => exact (h.grown grown).set (fun _ => hready.2) _
    | inr hnew => rw [init] at hnew; cases hnew.1
  | failed grown at_index free init =>
    unfold RandomXContext.initializeWith at init
    split_ifs at init

theorem allReady_of_granted {s : PoolState} (h : poolMachine.Run Granted s) :
    AllReady s.pool.mPool := by
  induction h with
  | start h =>
    obtain rfl := h
    exact fun entry hentry => nomatch hentry
  | @next s s' a before ok taken ih =>
    cases step_stepped taken with
    | untouched pool guards => rwa [pool]
    | tried action request turn guards =>
      subst action
      obtain rfl := ok
      exact ih.tried (handed_of_run before).filed turn
    | @returned i g mem pool guards =>
      rw [pool]
      unfold RandomXContextPool.returnContext
      split
      next entry hi =>
        have hready := ih entry (List.mem_of_getElem? hi)
        exact @AllReady.set _ ih { entry with inUse := false } hready _
      next => exact ih

/-- Nothing is stale as long as every initialisation succeeds. -/
theorem unlessStale_of_granted {s : PoolState} (h : poolMachine.Run Granted s) :
    poolMachine.Run UnlessStale s := by
  induction h with
  | start h => exact .start h
  | @next s s' a before ok taken ih =>
    refine .next ih ?_ taken
    cases a with
    | attempt i starved alloc =>
      intro r hr hkey hstale
      obtain ⟨entry, hfirst, hinit⟩ := hstale
      have hfound : entry.inUse = false ∧ entry.keyHash = r.key := by
        simpa using List.find?_some hfirst
      have hready :=
        allReady_of_granted before entry (List.mem_of_find?_eq_some hfirst) (hfound.2 ▸ hkey)
      rw [show entry.context = _ from hready] at hinit
      cases hinit
    | request r => trivial
    | timeout i => trivial
    | release i => trivial
    | configure n => trivial

end Granted

theorem serves_of_run {s : PoolState} (h : poolMachine.Run UnlessStale s) :
    ∀ g ∈ s.guards, g.key ≠ 0 → s.Serves g := by
  induction h with
  | start h =>
    obtain rfl := h
    exact fun g hg => nomatch hg
  | @next s s' a before ok taken ih =>
    have hs := handed_of_run before
    intro g hg hkey
    cases (step_stepped taken).origin hs hg with
    | old mem same =>
      obtain ⟨entry, hi, hused, -⟩ := hs.holds g mem
      obtain ⟨entry', hi', hready⟩ := ih g mem hkey
      obtain rfl := Option.some.inj (hi.symm.trans hi')
      exact ⟨entry, same entry hi hused, hready⟩
    | @acquired i starved alloc r action request key turn =>
      obtain ⟨entry, hi, -, -, hready⟩ := turn.acquired hs.filed
      subst action
      rw [key] at hkey
      exact ⟨entry, hi, (hready (key ▸ hkey)).mpr (key ▸ ok r request hkey)⟩

/-- Guards work as long as every initialisation succeeds. -/
theorem serves_of_granted {s : PoolState} (h : poolMachine.Run Granted s) :
    ∀ g ∈ s.guards, g.key ≠ 0 → s.Serves g := serves_of_run (unlessStale_of_granted h)

/-- **Guards hash under the key they were acquired for** in every run in which no thread is given a
context that a failed initialisation left behind; and a guard just acquired is ready exactly if its
context was not one of those. -/
theorem guard_has_key (randomx : Uint256 → Bytes → Uint256) :
    (∀ s, poolMachine.Run UnlessStale s → ∀ g ∈ s.guards, g.key ≠ 0 → ∃ entry,
      s.pool.mPool[g.index]? = some entry ∧ entry.context.Ready g.key ∧
      ∀ input, entry.context.calculateHash randomx input =
        if RandomXContext.maxRandomXInput < input.length then .error .inputTooLong
        else .ok (randomx g.key input)) ∧
    ∀ s s' i starved alloc r index, poolMachine.Run AnyAction s → s.requests[i]? = some r →
      r.key ≠ 0 →
      (s.pool.tryAcquire r.key r.priority starved alloc).1 = .acquired index →
      s.step (.attempt i starved alloc) = some s' →
      (s'.Serves ⟨index, r.key⟩ ↔ ¬ s.pool.Stale r.key) := by
  constructor
  · intro s hrun g hg hkey
    obtain ⟨entry, hi, hready⟩ := serves_of_run hrun g hg hkey
    exact ⟨entry, hi, hready, hready.calculateHash randomx⟩
  · intro s s' i starved alloc r index hrun hr hkey hacquired hstep
    have hturn := tryAcquire_tried s.pool r.key r.priority starved alloc
    simp only [PoolState.step, hr, hacquired] at hstep
    obtain rfl := Option.some.inj hstep
    rw [hacquired] at hturn
    obtain ⟨entry, hi, -, -, hready⟩ := hturn.acquired (handed_of_run hrun).filed
    rw [← hready hkey]
    constructor
    · intro hserves
      obtain ⟨entry', hi', hready'⟩ := hserves
      obtain rfl := Option.some.inj (hi.symm.trans hi')
      exact hready'
    · exact fun hready => ⟨entry, hi, hready⟩

namespace Sample

/-- A context initialised with the key 1 and given back, and a failed request for the key 2. -/
def actions : List PoolAction :=
  [.request ⟨1, .normal⟩, .attempt 0 false .granted, .release 0,
    .request ⟨2, .normal⟩, .attempt 0 false .noCache]

/-- Then a request for the key 3, which initialises the context anew, and one for the key 1, which
gets a context of its own. -/
def working : PoolState :=
  { pool := { mPool := [⟨⟨some 3, 3, true⟩, 3, true⟩, ⟨⟨some 1, 1, true⟩, 1, true⟩] }
    guards := [⟨0, 3⟩, ⟨1, 1⟩] }

/-- Then a request for the key 1, which gets the context as it is. -/
def broken : PoolState :=
  { pool := { mPool := [⟨.new, 1, true⟩] }, guards := [⟨0, 1⟩] }

end Sample

theorem guard_has_key_working :
    poolMachine.Run UnlessStale Sample.working ∧
    ∀ g ∈ Sample.working.guards, ∃ entry, Sample.working.pool.mPool[g.index]? = some entry ∧
      entry.context.Ready g.key ∧ ∀ input, entry.context.calculateHash (fun key _ => key) input =
        if RandomXContext.maxRandomXInput < input.length then .error .inputTooLong
          else .ok g.key := by
  have htaken : poolMachine.stepsIf UnlessStale {} (Sample.actions ++
      [.request ⟨3, .high⟩, .attempt 0 false .granted, .request ⟨1, .low⟩,
        .attempt 0 false .granted]) =
        some Sample.working := by decide
  have hrun : poolMachine.Run UnlessStale Sample.working := Machine.Run.stepsIf (.start rfl) htaken
  have hkeys : ∀ g ∈ Sample.working.guards, g.key ≠ 0 := by decide
  exact ⟨hrun, fun g hg => (guard_has_key fun key _ => key).1 _ hrun g hg (hkeys g hg)⟩

theorem guard_without_context :
    poolMachine.Run AnyAction Sample.broken ∧ ⟨0, 1⟩ ∈ Sample.broken.guards ∧
    ∀ (randomx : Uint256 → Bytes → Uint256) (input : Bytes), ∃ entry,
      Sample.broken.pool.mPool[0]? = some entry ∧
      entry.context.calculateHash randomx input = .error .notInitialized :=
  have htaken : poolMachine.steps {} (Sample.actions ++
      [.request ⟨1, .consensusCritical⟩, .attempt 0 false .granted]) =
        some Sample.broken := by decide
  ⟨Machine.Run.steps (.start rfl) htaken, List.mem_singleton.mpr rfl, fun _ _ => ⟨_, rfl, rfl⟩⟩

end OpenSY.Crypto
