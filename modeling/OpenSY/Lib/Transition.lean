import Mathlib.Data.List.Basic

/-!
# State machines and their runs

A machine starts in certain states and takes actions that may not be possible in every state.  A run
may be restricted to actions that meet a condition in the state they are taken in.

* `Machine.Run.induct` — what holds at the start and survives every step holds in every state of a
  run;
* `Machine.steps_invariant` — the same for a given list of actions;
* `Machine.Run.steps` — a list of actions that can be taken one after the other extends a run, and
  `Machine.Run.stepsIf` does so where the actions have to meet a condition;
* `Along.invariant` — the same for a step that is a function: its runs are folds, and `Along` says
  that every action of one meets a condition where it is taken;
* `forall_states_iff_along` — the runs that keep an invariant, where the steps that keep it are
  known.
-/

namespace OpenSY.Transition

variable {S A : Type}

/-- Where a machine can start, and what an action makes of a state if it can be taken there. -/
structure Machine (S A : Type) where
  start : S → Prop
  step : S → A → Option S

/-- The states reached by actions that are all `allowed` where they are taken. -/
inductive Machine.Run (m : Machine S A) (allowed : S → A → Prop) : S → Prop
  | start {s : S} (h : m.start s) : Run m allowed s
  | next {s s' : S} {a : A} (before : Run m allowed s) (ok : allowed s a)
      (taken : m.step s a = some s') :
      Run m allowed s'

/-- The condition that every action meets. -/
abbrev AnyAction (_ : S) (_ : A) : Prop := True

/-- Take several actions, if they can all be taken. -/
def Machine.steps (m : Machine S A) (s : S) (actions : List A) : Option S := actions.foldlM m.step s

variable {m : Machine S A} {allowed : S → A → Prop}

/-- **Invariants of single steps are invariants of runs.** -/
theorem Machine.Run.induct {P : S → Prop} (hstart : ∀ s, m.start s → P s)
    (hstep : ∀ s s' a, P s → allowed s a → m.step s a = some s' → P s') {s : S}
    (h : m.Run allowed s) :
    P s := by
  induction h with
  | start h => exact hstart _ h
  | next before ok taken ih => exact hstep _ _ _ ih ok taken

/-- The same for a list of actions. -/
theorem Machine.steps_invariant {P : S → Prop} (hstep : ∀ s s' a, P s → m.step s a = some s' → P s')
    {actions : List A} {s s' : S} (h : P s) (htaken : m.steps s actions = some s') : P s' := by
  induction actions generalizing s with
  | nil =>
    obtain rfl := Option.some.inj htaken
    exact h
  | cons a actions ih =>
    rw [Machine.steps, List.foldlM_cons] at htaken
    obtain ⟨t, ht, hrest⟩ := Option.bind_eq_some_iff.mp htaken
    exact ih (hstep s t a h ht) hrest

theorem Machine.Run.steps {actions : List A} {s s' : S} (h : m.Run AnyAction s)
    (htaken : m.steps s actions = some s') : m.Run AnyAction s' :=
  Machine.steps_invariant (fun _ _ _ hrun hstep => .next hrun trivial hstep) h htaken

/-- Take several actions, if they can all be taken and are `allowed` where they are. -/
def Machine.stepsIf (m : Machine S A) (allowed : S → A → Prop) [∀ s a, Decidable (allowed s a)]
    (s : S) (actions : List A) : Option S :=
  Machine.steps ⟨m.start, fun s a => if allowed s a then m.step s a else none⟩ s actions

theorem Machine.Run.stepsIf [∀ s a, Decidable (allowed s a)] {actions : List A} {s s' : S}
    (h : m.Run allowed s) (htaken : m.stepsIf allowed s actions = some s') : m.Run allowed s' := by
  refine Machine.steps_invariant (fun s s' a hrun hstep => ?_) h htaken
  obtain ⟨hok, htaken⟩ := Option.ite_none_right_eq_some.mp hstep
  exact .next hrun hok htaken

/-! ### Steps that can always be taken -/

section Folds

variable {step : S → A → S}

/-- Every action of a run from `s` is `allowed` where it is taken. -/
def Along (step : S → A → S) (allowed : S → A → Prop) : S → List A → Prop
  | _, [] => True
  | s, a :: actions => allowed s a ∧ Along step allowed (step s a) actions

/-- **Invariants of allowed steps are invariants of folds.** -/
theorem Along.invariant {P : S → Prop} (hstep : ∀ s a, P s → allowed s a → P (step s a))
    {actions : List A} {s : S} (h : Along step allowed s actions) (hs : P s) :
    P (actions.foldl step s) := by
  induction actions generalizing s with
  | nil => exact hs
  | cons a actions ih => exact ih h.2 (hstep s a hs h.1)

/-- Two conditions along one run. -/
theorem Along.and {allowed' : S → A → Prop} {actions : List A} {s : S}
    (h : Along step allowed s actions) (h' : Along step allowed' s actions) :
    Along step (fun s a => allowed s a ∧ allowed' s a) s actions := by
  induction actions generalizing s with
  | nil => trivial
  | cons a actions ih => exact ⟨⟨h.1, h'.1⟩, ih h.2 h'.2⟩

theorem Along.append {actions actions' : List A} {s : S} (h : Along step allowed s actions)
    (h' : Along step allowed (actions.foldl step s) actions') :
    Along step allowed s (actions ++ actions') := by
  induction actions generalizing s with
  | nil => exact h'
  | cons a actions ih => exact ⟨h.1, ih h.2 h'⟩

theorem Along.of_append {actions actions' : List A} {s : S}
    (h : Along step allowed s (actions ++ actions')) :
    Along step allowed s actions ∧ Along step allowed (actions.foldl step s) actions' := by
  induction actions generalizing s with
  | nil => exact ⟨trivial, h⟩
  | cons a actions ih =>
    obtain ⟨hfront, hback⟩ := ih h.2
    exact ⟨⟨h.1, hfront⟩, hback⟩

/-- Where the allowed steps are exactly those that keep an invariant, the runs of allowed steps are
exactly those that keep it in every state they pass. -/
theorem forall_states_iff_along {P : S → Prop} (hstep : ∀ s a, P s → (P (step s a) ↔ allowed s a))
    {s : S} (hs : P s) (actions : List A) :
    (∀ front, front <+: actions → P (front.foldl step s)) ↔ Along step allowed s actions := by
  induction actions generalizing s with
  | nil =>
    refine ⟨fun _ => trivial, fun _ front hfront => ?_⟩
    rw [List.prefix_nil.mp hfront]
    exact hs
  | cons a actions ih =>
    constructor
    · intro h
      have ha : P (step s a) := h [a] ⟨actions, rfl⟩
      refine ⟨(hstep s a hs).mp ha, (ih ha).mp fun front hfront => ?_⟩
      exact h (a :: front) (List.cons_prefix_cons.mpr ⟨rfl, hfront⟩)
    · rintro ⟨ha, hrest⟩ front hfront
      cases front with
      | nil => exact hs
      | cons b front =>
        obtain ⟨rfl, htail⟩ := List.cons_prefix_cons.mp hfront
        exact (ih ((hstep s b hs).mpr ha)).mpr hrest front htail

/-- A condition on the actions alone. -/
theorem along_of_forall_mem {P : A → Prop} {actions : List A} (h : ∀ a ∈ actions, P a) (s : S) :
    Along step (fun _ a => P a) s actions := by
  induction actions generalizing s with
  | nil => trivial
  | cons a actions ih =>
    exact ⟨h a List.mem_cons_self, ih (fun b hb => h b (List.mem_cons_of_mem _ hb)) (step s a)⟩

/-- Every run meets the condition that every action meets. -/
theorem along_any (s : S) (actions : List A) : Along step AnyAction s actions := by
  induction actions generalizing s with
  | nil => trivial
  | cons a actions ih => exact ⟨trivial, ih (step s a)⟩

end Folds

end OpenSY.Transition
