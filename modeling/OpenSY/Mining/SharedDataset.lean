import OpenSY.Mining.NonceRange
import OpenSY.Lib.Transition
import OpenSY.Pow.Check

/-!
# The dataset that mining calls share

All calls of `GenerateBlock` share one mining context.  A call makes sure under the mutex that the
context has its key, reads the epoch of the dataset without the mutex, and then has its threads
create their VMs under the mutex, each of them only if the epoch is still the one that was read.
Cleaning the context up raises the epoch if there is a dataset.

The epoch that is read is that of the call's own dataset only if no other call has cleaned the
context up in between.  If one has, the epoch is the other dataset's, it stays as it is, and the
threads hash under the other key.

* `Shared.step` — the steps of all calls, in any order; the epoch may be read while another call
  fills its dataset;
* `Guarded` — what holds if every epoch is read while the context has the call's key;
* `vms_have_the_key` — then every VM has the key of its call.
-/

namespace OpenSY.Mining

open OpenSY.Chain OpenSY.Consensus OpenSY.Pow OpenSY.Src20 OpenSY.Transition

/-! ### The context -/

/-- A dataset is given by the key that it was allocated for. -/
structure MiningContext where
  datasetEpoch : ℕ := 0
  dataset : Option Uint256 := none
  initialized : Bool := false
  keyBlockHash : Uint256 := 0

namespace MiningContext

def cleanup (c : MiningContext) : MiningContext where
  datasetEpoch := if c.dataset.isSome then c.datasetEpoch + 1 else c.datasetEpoch

/-- How the rest of `Initialize` may end: there may be no memory for the cache or for the dataset,
and the threads that fill the dataset may fail to start. -/
inductive FillOutcome where
  | filled | noCache | noDataset | noThread
  deriving DecidableEq

def fill (c : MiningContext) (keyBlockHash : Uint256) : FillOutcome → MiningContext
  | .filled =>
    { c with dataset := some keyBlockHash, initialized := true, keyBlockHash := keyBlockHash }
  | .noCache | .noDataset => c
  | .noThread => { c with dataset := some keyBlockHash }

/-- The dataset of a new VM. -/
def createVM (c : MiningContext) : Option Uint256 := if c.initialized then c.dataset else none

end MiningContext

/-! ### The calls -/

/-- What a call computes before it uses the context; it throws if the key is null. -/
structure Request where
  params : Params
  block : CBlockHeader
  nHeight : ℤ
  keyBlockHash : Uint256
  key_ne : keyBlockHash ≠ 0

/-- The check of a nonce with a hash function. -/
def Request.passes (r : Request) (hash : Bytes → Uint256) (nonce : ℕ) : Bool :=
  checkProofOfWorkImplAt r.params (hash (serHeader (withNonce r.block nonce)))
    r.block.nBits r.nHeight

/-- Where a call is: before the mutex, filling the dataset with it, after it, mining with the epoch
that it has read. -/
inductive Stage where
  | started
  | filling
  | ready
  | mining (miningEpoch : ℕ)
  | failed
  deriving DecidableEq

/-- The context, who holds its mutex, the calls, and what their threads have done: the VMs with
their call and dataset, and the nonces reported as found with their call. -/
structure Shared where
  context : MiningContext := {}
  holder : Option ℕ := none
  stage : ℕ → Stage := fun _ => .started
  vms : List (ℕ × Uint256) := []
  reported : List (ℕ × ℕ) := []

inductive SharedAction where
  | setUp (i : ℕ)
  | fill (i : ℕ) (outcome : MiningContext.FillOutcome)
  | readEpoch (i : ℕ)
  | createVM (i : ℕ) (created : Bool)
  | hash (vm : ℕ) (nonce : ℕ)

def Shared.move (s : Shared) (i : ℕ) (stage : Stage) : Shared :=
  { s with stage := Function.update s.stage i stage }

section Steps

variable (requests : ℕ → Request) (randomX : Uint256 → Bytes → Uint256)

def Shared.step (s : Shared) : SharedAction → Option Shared
  -- `Initialize` compares the keys once more, which differ here
  | .setUp i =>
    if s.stage i = .started ∧ s.holder = none then
      if s.context.keyBlockHash ≠ (requests i).keyBlockHash then
        some { s.move i .filling with context := s.context.cleanup, holder := some i }
      else some (s.move i .ready)
    else none
  | .fill i outcome =>
    if s.stage i = .filling then
      some { s.move i (if outcome = .filled then .ready else .failed) with
        context := s.context.fill (requests i).keyBlockHash outcome, holder := none }
    else none
  -- an atomic read, whoever holds the mutex
  | .readEpoch i =>
    if s.stage i = .ready then some (s.move i (.mining s.context.datasetEpoch)) else none
  | .createVM i created =>
    match s.stage i with
    | .mining miningEpoch =>
      if s.holder = none then
        if s.context.datasetEpoch ≠ miningEpoch then some s
        else
          match s.context.createVM with
          | some key => if created then some { s with vms := s.vms ++ [(i, key)] } else some s
          | none => some s
      else none
    | _ => none
  | .hash vm nonce =>
    match s.vms[vm]? with
    | some (i, key) =>
      if (requests i).passes (randomX key) nonce then
        some { s with reported := s.reported ++ [(i, nonce)] } else some s
    | none => none

def sharedMachine : Machine Shared SharedAction where
  start s := s = {}
  step := Shared.step requests randomX

/-- Every epoch is read while the context has the dataset of the call. -/
def ReadsOwn (s : Shared) (a : SharedAction) : Prop :=
  ∀ i, a = .readEpoch i → s.context.initialized = true ∧
    s.context.keyBlockHash = (requests i).keyBlockHash

instance (s : Shared) : (a : SharedAction) → Decidable (ReadsOwn requests s a)
  | .readEpoch i =>
    decidable_of_iff (s.context.initialized = true ∧
      s.context.keyBlockHash = (requests i).keyBlockHash) ⟨fun h _ heq =>
      SharedAction.readEpoch.inj heq ▸ h, fun h => h i rfl⟩
  | .setUp _ | .fill _ _ | .createVM _ _ | .hash _ _ => isTrue nofun

end Steps

/-! ### What a step can do -/

section Inversion

variable {requests : ℕ → Request} {randomX : Uint256 → Bytes → Uint256} {s s' : Shared}
  {a : SharedAction}

inductive SharedStepped (requests : ℕ → Request) (randomX : Uint256 → Bytes →
  Uint256) (s : Shared) :
    SharedAction → Shared → Prop
  | clean (i : ℕ) (hstage : s.stage i = .started) (hfree : s.holder = none) :
      SharedStepped requests randomX s (.setUp i)
        { s.move i .filling with context := s.context.cleanup, holder := some i }
  | keep (i : ℕ) (hstage : s.stage i = .started) :
      SharedStepped requests randomX s (.setUp i) (s.move i .ready)
  | fill (i : ℕ) (outcome : MiningContext.FillOutcome) (hstage : s.stage i = .filling) :
      SharedStepped requests randomX s (.fill i outcome)
        { s.move i (if outcome = .filled then .ready else .failed) with
          context := s.context.fill (requests i).keyBlockHash outcome, holder := none }
  | readEpoch (i : ℕ) (hstage : s.stage i = .ready) :
      SharedStepped requests randomX s (.readEpoch i) (s.move i (.mining s.context.datasetEpoch))
  | createVM (i : ℕ) (created : Bool) {key : Uint256}
      (hstage : s.stage i = .mining s.context.datasetEpoch) (hkey : s.context.createVM = some key) :
      SharedStepped requests randomX s (.createVM i created) { s with vms := s.vms ++ [(i, key)] }
  | report (vm nonce : ℕ) {i : ℕ} {key : Uint256} (hvm : (i, key) ∈ s.vms)
      (hpasses : (requests i).passes (randomX key) nonce) :
      SharedStepped requests randomX s (.hash vm nonce)
        { s with reported := s.reported ++ [(i, nonce)] }
  | idle (a : SharedAction) : SharedStepped requests randomX s a s

theorem createVM_stepped {i : ℕ} {created : Bool}
    (h : s.step requests randomX (.createVM i created) = some s') :
    SharedStepped requests randomX s (.createVM i created) s' := by
  cases hstage : s.stage i with
  | mining miningEpoch =>
    simp only [Shared.step, hstage] at h
    by_cases hfree : s.holder = none
    · rw [if_pos hfree] at h
      by_cases hepoch : s.context.datasetEpoch ≠ miningEpoch
      · rw [if_pos hepoch] at h
        obtain rfl := Option.some.inj h
        exact .idle _
      · rw [if_neg hepoch] at h
        cases hkey : s.context.createVM with
        | none =>
          simp only [hkey] at h
          obtain rfl := Option.some.inj h
          exact .idle _
        | some key =>
          simp only [hkey] at h
          by_cases hcreated : created
          · rw [if_pos hcreated] at h
            obtain rfl := Option.some.inj h
            exact .createVM i created (by rw [hstage, not_not.mp hepoch]) hkey
          · rw [if_neg hcreated] at h
            obtain rfl := Option.some.inj h
            exact .idle _
    · rw [if_neg hfree] at h
      cases h
  | started | filling | ready | failed =>
    simp only [Shared.step, hstage] at h
    cases h

theorem hash_stepped {vm nonce : ℕ} (h : s.step requests randomX (.hash vm nonce) = some s') :
    SharedStepped requests randomX s (.hash vm nonce) s' := by
  cases hvm : s.vms[vm]? with
  | none =>
    simp only [Shared.step, hvm] at h
    cases h
  | some entry =>
    obtain ⟨i, key⟩ := entry
    simp only [Shared.step, hvm] at h
    by_cases hpasses : (requests i).passes (randomX key) nonce
    · rw [if_pos hpasses] at h
      obtain rfl := Option.some.inj h
      exact .report vm nonce (List.mem_of_getElem? hvm) hpasses
    · rw [if_neg hpasses] at h
      obtain rfl := Option.some.inj h
      exact .idle _

/-- **The inversion of a step.** -/
theorem shared_stepped (h : s.step requests randomX a = some s') :
    SharedStepped requests randomX s a s' := by
  cases a with
  | setUp i =>
    simp only [Shared.step] at h
    by_cases hguard : s.stage i = .started ∧ s.holder = none
    · rw [if_pos hguard] at h
      by_cases hkey : s.context.keyBlockHash ≠ (requests i).keyBlockHash
      · rw [if_pos hkey] at h
        obtain rfl := Option.some.inj h
        exact .clean i hguard.1 hguard.2
      · rw [if_neg hkey] at h
        obtain rfl := Option.some.inj h
        exact .keep i hguard.1
    · rw [if_neg hguard] at h
      cases h
  | fill i outcome =>
    simp only [Shared.step] at h
    by_cases hstage : s.stage i = .filling
    · rw [if_pos hstage] at h
      obtain rfl := Option.some.inj h
      exact .fill i outcome hstage
    · rw [if_neg hstage] at h
      cases h
  | readEpoch i =>
    simp only [Shared.step] at h
    by_cases hstage : s.stage i = .ready
    · rw [if_pos hstage] at h
      obtain rfl := Option.some.inj h
      exact .readEpoch i hstage
    · rw [if_neg hstage] at h
      cases h
  | createVM i created => exact createVM_stepped h
  | hash vm nonce => exact hash_stepped h

end Inversion

/-! ### The mutex -/

section Mutex

variable {requests : ℕ → Request} {randomX : Uint256 → Bytes → Uint256} {s s' : Shared}
  {a : SharedAction} {i : ℕ}

/-- The stage of a call after another, or itself, has moved. -/
theorem stage_move (s : Shared) (i j : ℕ) (stage : Stage) :
    (s.move i stage).stage j = if j = i then stage else s.stage j := by
  by_cases hji : j = i
  · rw [if_pos hji, hji]
    exact Function.update_self ..
  · rw [if_neg hji]
    exact Function.update_of_ne hji ..

/-- A stage that the moved call did not take is that of another call. -/
theorem of_stage_move {j : ℕ} {stage stage' : Stage} (h : (s.move i stage).stage j = stage')
    (hne : stage ≠ stage') :
    j ≠ i ∧ s.stage j = stage' := by
  rw [stage_move] at h
  by_cases hji : j = i
  · rw [if_pos hji] at h
    exact absurd h hne
  · rw [if_neg hji] at h
    exact ⟨hji, h⟩

/-- What the mutex gives in every run: an initialised context has the dataset of its key, and only
the holder fills it. -/
structure Locked (s : Shared) : Prop where
  filled : s.context.initialized = true → s.context.dataset = some s.context.keyBlockHash
  filling : ∀ i, s.stage i = .filling → s.holder = some i ∧ s.context.initialized = false

theorem locked_start : Locked {} where
  filled := fun h => by cases h
  filling := fun i h => by cases h

theorem Locked.clean (h : Locked s) (hfree : s.holder = none) :
    Locked { s.move i .filling with context := s.context.cleanup, holder := some i } where
  filled := fun hinit => by cases hinit
  filling := by
    intro j hj
    by_cases hji : j = i
    · exact ⟨congrArg some hji.symm, rfl⟩
    · change (s.move i .filling).stage j = .filling at hj
      rw [stage_move, if_neg hji] at hj
      have hholder := (h.filling j hj).1
      rw [hfree] at hholder
      cases hholder

/-- Where a call goes that has filled the dataset or failed to. -/
theorem filled_stage_ne (outcome : MiningContext.FillOutcome) {stage : Stage}
    (h : stage = .filling ∨ ∃ e, stage = .mining e) :
    (if outcome = .filled then Stage.ready else Stage.failed) ≠ stage := by
  rcases h with rfl | ⟨e, rfl⟩ <;> split_ifs <;> simp

theorem Locked.fill (h : Locked s) (outcome : MiningContext.FillOutcome)
    (hstage : s.stage i = .filling) :
    Locked
      { s.move i (if outcome = .filled then .ready else .failed) with
        context := s.context.fill (requests i).keyBlockHash outcome, holder := none } := by
  obtain ⟨hholder, hctx⟩ := h.filling i hstage
  constructor
  · intro hinit
    cases outcome with
    | filled => rfl
    | noCache | noDataset | noThread =>
      change s.context.initialized = true at hinit
      rw [hctx] at hinit
      cases hinit
  · -- only the holder was filling
    intro j hj
    obtain ⟨hji, hold⟩ := of_stage_move hj (filled_stage_ne outcome (.inl rfl))
    have hother := (h.filling j hold).1
    rw [hholder, Option.some.injEq] at hother
    exact absurd hother.symm hji

theorem Locked.step (h : Locked s) (hstep : s.step requests randomX a = some s') : Locked s' := by
  cases shared_stepped hstep with
  | clean i hstage hfree => exact h.clean hfree
  | keep i hstage => exact ⟨h.filled, fun j hj => h.filling j (of_stage_move hj (by simp)).2⟩
  | fill i outcome hstage => exact h.fill outcome hstage
  | readEpoch i hstage => exact ⟨h.filled, fun j hj => h.filling j (of_stage_move hj (by simp)).2⟩
  | createVM | report | idle => exact ⟨h.filled, h.filling⟩

theorem locked_of_run {allowed : Shared → SharedAction → Prop}
    (h : (sharedMachine requests randomX).Run allowed s) : Locked s := by
  refine h.induct ?_ ?_
  · rintro s rfl
    exact locked_start
  · intro s s' a hs _ hstep
    exact hs.step hstep

end Mutex

/-! ### The epochs -/

section Epochs

variable {requests : ℕ → Request} {randomX : Uint256 → Bytes → Uint256} {s s' : Shared}
  {a : SharedAction} {i : ℕ}

/-- No call has an epoch from the future, and the context has the key of every call that has the
present one. -/
structure Current (requests : ℕ → Request) (s : Shared) : Prop where
  epoch_le : ∀ i e, s.stage i = .mining e → e ≤ s.context.datasetEpoch
  current : ∀ i, s.stage i = .mining s.context.datasetEpoch →
    s.context.initialized = true ∧ s.context.keyBlockHash = (requests i).keyBlockHash

theorem Current.clean (hlocked : Locked s) (h : Current requests s) :
    Current requests { s.move i .filling with context := s.context.cleanup, holder := some i } where
  epoch_le := by
    intro j e hj
    have hle := h.epoch_le j e (of_stage_move hj (by simp)).2
    show e ≤ if s.context.dataset.isSome then s.context.datasetEpoch + 1 else s.context.datasetEpoch
    split_ifs <;> omega
  current := by
    intro j hj
    have hold := (of_stage_move hj (by simp)).2
    change s.stage j = .mining (if s.context.dataset.isSome then s.context.datasetEpoch + 1
      else s.context.datasetEpoch) at hold
    by_cases hdataset : s.context.dataset.isSome
    · -- the epoch is new, and nobody has read it yet
      rw [if_pos hdataset] at hold
      have hle := h.epoch_le j _ hold
      omega
    · -- without a dataset the context was not initialised, and nobody had its epoch
      rw [if_neg hdataset] at hold
      obtain ⟨hinit, -⟩ := h.current j hold
      rw [hlocked.filled hinit] at hdataset
      exact absurd rfl hdataset

theorem fill_datasetEpoch (c : MiningContext) (key : Uint256)
    (outcome : MiningContext.FillOutcome) :
    (c.fill key outcome).datasetEpoch = c.datasetEpoch := by
  cases outcome <;> rfl

theorem Current.fill (hlocked : Locked s) (h : Current requests s)
    (outcome : MiningContext.FillOutcome) (hstage : s.stage i = .filling) :
    Current requests
      { s.move i (if outcome = .filled then .ready else .failed) with
        context := s.context.fill (requests i).keyBlockHash outcome, holder := none } := by
  constructor
  · intro j e hj
    show e ≤ (s.context.fill _ outcome).datasetEpoch
    rw [fill_datasetEpoch]
    exact h.epoch_le j e (of_stage_move hj (filled_stage_ne outcome (.inr ⟨e, rfl⟩))).2
  · -- the context was cleaned up, so nobody has its epoch
    intro j hj
    have hold := (of_stage_move hj (filled_stage_ne outcome (.inr ⟨_, rfl⟩))).2
    change s.stage j = .mining (s.context.fill _ outcome).datasetEpoch at hold
    rw [fill_datasetEpoch] at hold
    have hinit := (h.current j hold).1
    rw [(hlocked.filling i hstage).2] at hinit
    cases hinit

theorem Current.readEpoch (h : Current requests s) (hinit : s.context.initialized = true)
    (hkey : s.context.keyBlockHash = (requests i).keyBlockHash) :
    Current requests (s.move i (.mining s.context.datasetEpoch)) where
  epoch_le := by
    intro j e hj
    rw [stage_move] at hj
    by_cases hji : j = i
    · rw [if_pos hji] at hj
      exact (Stage.mining.inj hj).ge
    · rw [if_neg hji] at hj
      exact h.epoch_le j e hj
  current := by
    intro j hj
    by_cases hji : j = i
    · rw [hji]
      exact ⟨hinit, hkey⟩
    · rw [stage_move, if_neg hji] at hj
      exact h.current j hj

theorem Current.step (hlocked : Locked s) (h : Current requests s) (hreads : ReadsOwn requests s a)
    (hstep : s.step requests randomX a = some s') : Current requests s' := by
  cases shared_stepped hstep with
  | clean i hstage hfree => exact h.clean hlocked
  | keep i hstage =>
    exact ⟨fun j e hj => h.epoch_le j e (of_stage_move hj (by simp)).2,
      fun j hj => h.current j (of_stage_move hj (by simp)).2⟩
  | fill i outcome hstage => exact h.fill hlocked outcome hstage
  | readEpoch i hstage =>
    obtain ⟨hinit, hkey⟩ := hreads i rfl
    exact h.readEpoch hinit hkey
  | createVM | report | idle => exact ⟨h.epoch_le, h.current⟩

/-- A VM is created over the dataset whose epoch the call has read. -/
theorem Current.createVM (hlocked : Locked s) (h : Current requests s) {key : Uint256}
    (hstage : s.stage i = .mining s.context.datasetEpoch) (hkey : s.context.createVM = some key) :
    key = (requests i).keyBlockHash := by
  obtain ⟨hinit, hown⟩ := h.current i hstage
  rw [MiningContext.createVM, if_pos hinit, hlocked.filled hinit, Option.some.injEq] at hkey
  rw [← hkey, hown]

end Epochs

/-! ### What is hashed -/

section Results

variable {requests : ℕ → Request} {randomX : Uint256 → Bytes → Uint256} {s s' : Shared}
  {a : SharedAction} {i : ℕ}

/-- What holds as long as every call reads the epoch of its own dataset. -/
structure Guarded (requests : ℕ → Request) (randomX : Uint256 → Bytes → Uint256)
    (s : Shared) : Prop where
  locked : Locked s
  current : Current requests s
  vms : ∀ v ∈ s.vms, v.2 = (requests v.1).keyBlockHash
  reported : ∀ e ∈ s.reported, (requests e.1).passes (randomX (requests e.1).keyBlockHash) e.2

theorem guarded_start : Guarded requests randomX {} where
  locked := locked_start
  current := ⟨fun i e h => (by cases h), fun i h => (by cases h)⟩
  vms := fun v h => by cases h
  reported := fun e h => by cases h

/-- **One step keeps the invariant.** -/
theorem Guarded.step (h : Guarded requests randomX s) (hreads : ReadsOwn requests s a)
    (hstep : s.step requests randomX a = some s') : Guarded requests randomX s' := by
  refine ⟨h.locked.step hstep, h.current.step h.locked hreads hstep, ?_, ?_⟩
  · intro v hv
    cases shared_stepped hstep with
    | createVM i created hstage hkey =>
      rcases List.mem_append.mp hv with hv | hv
      · exact h.vms v hv
      · obtain rfl := List.mem_singleton.mp hv
        exact h.current.createVM h.locked hstage hkey
    | clean | keep | fill | readEpoch | report | idle => exact h.vms v hv
  · intro e he
    cases shared_stepped hstep with
    | report vm nonce hvm hpasses =>
      rcases List.mem_append.mp he with he | he
      · exact h.reported e he
      · obtain rfl := List.mem_singleton.mp he
        have hkey := h.vms _ hvm
        exact hkey ▸ hpasses
    | clean | keep | fill | readEpoch | createVM | idle => exact h.reported e he

theorem guarded_of_run (h : (sharedMachine requests randomX).Run (ReadsOwn requests) s) :
    Guarded requests randomX s := by
  refine h.induct ?_ ?_
  · rintro s rfl
    exact guarded_start
  · intro s s' a hs hreads hstep
    exact hs.step hreads hstep

/-- A call that reads the epoch of another key's dataset may go on to hash with it. -/
theorem wrong_vm (hlocked : Locked s) (hstage : s.stage i = .ready) (hfree : s.holder = none)
    (hinit : s.context.initialized = true) :
    ∃ s', (sharedMachine requests randomX).steps s [.readEpoch i, .createVM i true] = some s' ∧
      (i, s.context.keyBlockHash) ∈ s'.vms := by
  have hread : s.step requests randomX (.readEpoch i) =
      some (s.move i (.mining s.context.datasetEpoch)) := by
    rw [Shared.step, if_pos hstage]
  have hmining : (s.move i (.mining s.context.datasetEpoch)).stage i =
      .mining s.context.datasetEpoch := by
    rw [stage_move, if_pos rfl]
  have hvm : (s.move i (.mining s.context.datasetEpoch)).context.createVM =
      some s.context.keyBlockHash := by
    show s.context.createVM = _
    rw [MiningContext.createVM, if_pos hinit, hlocked.filled hinit]
  have hcreate : (s.move i (.mining s.context.datasetEpoch)).step requests randomX
      (.createVM i true) =
      some { s.move i (.mining s.context.datasetEpoch) with
        vms := s.vms ++ [(i, s.context.keyBlockHash)] } := by
    simp only [Shared.step, hmining, hvm]
    rw [if_pos (show (s.move i _).holder = none from hfree),
      if_neg (show ¬ (s.move i _).context.datasetEpoch ≠
        s.context.datasetEpoch from not_not.mpr rfl), if_pos trivial]
    rfl
  refine ⟨{ s.move i (.mining s.context.datasetEpoch) with
    vms := s.vms ++ [(i, s.context.keyBlockHash)] }, ?_,
    List.mem_append_right _ (List.mem_singleton_self _)⟩
  show (s.step requests randomX (.readEpoch i)).bind _ = _
  rw [hread, Option.bind_some]
  show ((s.move i _).step requests randomX (.createVM i true)).bind _ = _
  rw [hcreate]
  rfl

end Results

namespace Sample

/-- The first call mines under the key 1, every other one under the key 2. -/
def requests (i : ℕ) : Request where
  params := mainParams
  block := ⟨4, 0, 0, 2, 0x1e00ffff, 0⟩
  nHeight := 1
  keyBlockHash := if i = 0 then 1 else 2
  key_ne := by split_ifs <;> decide

/-- Everything passes under the key 2, and nothing under another. -/
def keyTwoPasses (key : Uint256) (_ : Bytes) : Uint256 := if key = 2 then 0 else -1

/-- The first call has its dataset, then the second one replaces it, and only then the first one
reads the epoch. -/
def crossing : List SharedAction :=
  [.setUp 0, .fill 0 .filled, .setUp 1, .fill 1 .filled, .readEpoch 0, .createVM 0 true, .hash 0 0]

/-- The second call replaces the dataset after the first one has read the epoch and hashed: the
first one's next thread is turned away. -/
def inTurn : List SharedAction :=
  [.setUp 0, .fill 0 .filled, .readEpoch 0, .createVM 0 true, .hash 0 0, .setUp 1, .fill 1 .filled,
    .createVM 0 true, .readEpoch 1, .createVM 1 true, .hash 1 5]

def crossed : Shared := ((sharedMachine requests keyTwoPasses).steps {} crossing).getD {}

theorem crossed_eq : (sharedMachine requests keyTwoPasses).steps {} crossing = some crossed := by
  have hsome : ((sharedMachine requests keyTwoPasses).steps {} crossing).isSome = true := by
    decide +kernel
  obtain ⟨s, hs⟩ := Option.isSome_iff_exists.mp hsome
  rw [crossed, hs]
  rfl

end Sample

/-- **Miners hash under their key, if they read the epoch in time.**  In every order of the steps of
any number of calls in which each one reads the epoch while the context has its key, every VM has
the dataset of its call's key, and every nonce reported as found passes with the hash under that
key.  A call that reads it while the context has another key may go on to create a VM over the other
dataset. -/
theorem vms_have_the_key (requests : ℕ → Request) (randomX : Uint256 → Bytes → Uint256) :
    (∀ s, (sharedMachine requests randomX).Run (ReadsOwn requests) s →
      (∀ v ∈ s.vms, v.2 = (requests v.1).keyBlockHash) ∧
        ∀ e ∈ s.reported, (requests e.1).passes (randomX (requests e.1).keyBlockHash) e.2) ∧
      ∀ s i, (sharedMachine requests randomX).Run AnyAction s → s.stage i = .ready →
        s.holder = none →
        s.context.initialized = true → s.context.keyBlockHash ≠ (requests i).keyBlockHash →
        ∃ s', (sharedMachine requests randomX).steps s [.readEpoch i, .createVM i true] = some s' ∧
          ∃ v ∈ s'.vms, v.1 = i ∧ v.2 ≠ (requests v.1).keyBlockHash := by
  constructor
  · intro s hrun
    have hs := guarded_of_run hrun
    exact ⟨hs.vms, hs.reported⟩
  · intro s i hrun hstage hfree hinit hkey
    obtain ⟨s', hsteps, hvm⟩ := wrong_vm (locked_of_run hrun) hstage hfree hinit
    exact ⟨s', hsteps, _, hvm, rfl, hkey⟩

open Sample in
theorem vms_have_the_key_in_turn :
    ∃ s, (sharedMachine requests keyTwoPasses).Run (ReadsOwn requests) s ∧
      s.vms = [(0, 1), (1, 2)] ∧
      s.reported = [(1, 5)] ∧ (∀ v ∈ s.vms, v.2 = (requests v.1).keyBlockHash) ∧
      ∀ e ∈ s.reported, (requests e.1).passes (keyTwoPasses (requests e.1).keyBlockHash) e.2 := by
  have htaken : ((sharedMachine requests keyTwoPasses).stepsIf (ReadsOwn requests) {} inTurn).map
      (fun s => (s.vms, s.reported)) = some ([(0, 1), (1, 2)], [(1, 5)]) := by decide +kernel
  obtain ⟨s, hs, heq⟩ := Option.map_eq_some_iff.mp htaken
  obtain ⟨hvms, hreported⟩ := Prod.mk.inj heq
  have hrun : (sharedMachine requests keyTwoPasses).Run (ReadsOwn requests) s :=
    Machine.Run.stepsIf (.start rfl) hs
  obtain ⟨hkeys, hpasses⟩ := (vms_have_the_key requests keyTwoPasses).1 s hrun
  exact ⟨s, hrun, hvms, hreported, hkeys, hpasses⟩

/-- Between the two critical sections of the first call the second one replaces the dataset: a
thread of the first call hashes under the second one's key and reports a nonce that does not pass
under its own. -/
theorem other_dataset_hashed :
    (sharedMachine Sample.requests Sample.keyTwoPasses).Run AnyAction Sample.crossed ∧
      (Sample.requests 0).keyBlockHash = 1 ∧ Sample.crossed.vms = [(0, 2)] ∧
        Sample.crossed.reported = [(0, 0)] ∧
      (Sample.requests 0).passes (Sample.keyTwoPasses 1) 0 = false :=
  ⟨Machine.Run.steps (.start rfl) Sample.crossed_eq,
    rfl, by decide +kernel, by decide +kernel, by decide +kernel⟩

end OpenSY.Mining
