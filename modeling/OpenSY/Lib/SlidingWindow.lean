import Mathlib.Data.Int.Order.Basic
import Mathlib.Algebra.BigOperators.Group.List.Basic
import Mathlib.Algebra.Order.BigOperators.Group.List
import Mathlib.Tactic.Ring

/-!
# Sliding windows over a log

Entries of a log carry a time and a weight.  A limiter looks back `width` from the present
(`recent`) and admits an entry if the weight it finds there, together with the new one, stays within
a cap.  That is enough for every window of that width, wherever it starts
(`windowWeight_append_le`): the newest entry of a window sees all others in it.

A limiter need not keep the whole log: dropping what is not recent now does not change what will be
recent later (`recent_recent`).
-/

namespace OpenSY.SlidingWindow

variable {E : Type} (time : E → ℤ) (weight : E → ℕ) (width : ℤ)

/-- The entries not older than `width` at time `now`. -/
def recent (now : ℤ) (log : List E) : List E := log.filter fun e => now - width ≤ time e

/-- The weight of the entries in the closed window that starts at `t`. -/
def windowWeight (t : ℤ) (log : List E) : ℕ :=
  ((log.filter fun e => t ≤ time e ∧ time e ≤ t + width).map weight).sum

variable {time weight width}

theorem recent_append (now : ℤ) (log log' : List E) :
    recent time width now (log ++ log') = recent time width now log ++ recent time width now log' :=
  List.filter_append ..

theorem recent_singleton (now : ℤ) (e : E) :
    recent time width now [e] = if now - width ≤ time e then [e] else [] := by
  rw [recent]
  by_cases h : now - width ≤ time e
  · rw [if_pos h, List.filter_cons_of_pos (by simpa using h), List.filter_nil]
  · rw [if_neg h, List.filter_cons_of_neg (by simpa using h), List.filter_nil]

/-- What is recent later is recent now. -/
theorem recent_recent {now later : ℤ} (h : now ≤ later) (log : List E) :
    recent time width later (recent time width now log) = recent time width later log := by
  rw [recent, recent, recent, List.filter_filter]
  refine List.filter_congr fun e _ => ?_
  simp only [← Bool.decide_and, decide_eq_decide]
  constructor
  · exact fun hboth => hboth.1
  · exact fun hlater => ⟨hlater, by omega⟩

theorem windowWeight_append (t : ℤ) (log : List E) (e : E) :
    windowWeight time weight width t (log ++ [e]) =
      windowWeight time weight width t log +
        if t ≤ time e ∧ time e ≤ t + width then weight e else 0 := by
  rw [windowWeight, List.filter_append, List.map_append, List.sum_append, windowWeight]
  by_cases h : t ≤ time e ∧ time e ≤ t + width
  · rw [if_pos h, List.filter_cons_of_pos (by simpa using h)]
    rfl
  · rw [if_neg h, List.filter_cons_of_neg (by simpa using h)]
    rfl

/-- A window that holds the present reaches back no further than the limiter does. -/
theorem windowWeight_le_recent {t now : ℤ} (hnow : now ≤ t + width) (log : List E) :
    windowWeight time weight width t log ≤ ((recent time width now log).map weight).sum := by
  have hsub : (log.filter fun e => t ≤ time e ∧ time e ≤ t + width).Sublist
      (recent time width now log) := by
    refine List.monotone_filter_right log fun e he => ?_
    simp only [decide_eq_true_eq] at he ⊢
    omega
  exact (hsub.map weight).sum_le_sum fun _ _ => Nat.zero_le _

theorem sum_map_one (log : List E) : (log.map fun _ => 1).sum = log.length := by
  simp

/-- What a window weighs if no entry weighs more than `c`. -/
theorem windowWeight_le_mul {c : ℕ} {log : List E} (h : ∀ e ∈ log, weight e ≤ c) (t : ℤ) :
    windowWeight time weight width t log ≤ windowWeight time (fun _ => 1) width t log * c := by
  have hall : ∀ w ∈ (log.filter fun e => t ≤ time e ∧ time e ≤ t + width).map weight, w ≤ c := by
    intro w hw
    obtain ⟨e, he, rfl⟩ := List.mem_map.mp hw
    exact h e (List.mem_of_mem_filter he)
  have hsum := List.sum_le_card_nsmul _ c hall
  rwa [List.length_map, Nat.nsmul_eq_mul, ← sum_map_one] at hsum

/-- The window that ends now, when nothing is later. -/
theorem windowWeight_ending {now : ℤ} {log : List E} (h : ∀ e ∈ log, time e ≤ now) :
    windowWeight time weight width (now - width) log =
      ((recent time width now log).map weight).sum := by
  rw [windowWeight, recent]
  refine congrArg (fun l => (l.map weight).sum) (List.filter_congr fun e he => ?_)
  have hle := h e he
  simp only [decide_eq_decide]
  omega

/-- Entries of one moment come on top of what is recent then. -/
theorem windowWeight_append_replicate {now : ℤ} {log : List ℤ} (hwidth : 0 ≤ width)
    (h : ∀ t ∈ log, t ≤ now) (n : ℕ) :
    windowWeight id (fun _ => 1) width (now - width) (log ++ List.replicate n now) =
      (recent id width now log).length + n := by
  have hlate : ∀ t ∈ log ++ List.replicate n now, id t ≤ now := by
    intro t ht
    rcases List.mem_append.mp ht with ht | ht
    · exact h t ht
    · exact (List.eq_of_mem_replicate ht).le
  have hnew : recent id width now (List.replicate n now) = List.replicate n now := by
    refine List.filter_eq_self.mpr fun t ht => ?_
    rw [List.eq_of_mem_replicate ht, id_eq, decide_eq_true_eq]
    omega
  rw [windowWeight_ending hlate, sum_map_one, recent_append, hnew, List.length_append,
    List.length_replicate]

/-- **An entry that fits the window ending with it fits every window.** -/
theorem windowWeight_append_le {cap : ℕ} {log : List E} {e : E} {now : ℤ}
    (hlog : ∀ t, windowWeight time weight width t log ≤ cap) (hnow : time e = now)
    (he : ((recent time width now log).map weight).sum + weight e ≤ cap) (t : ℤ) :
    windowWeight time weight width t (log ++ [e]) ≤ cap := by
  rw [windowWeight_append]
  subst hnow
  by_cases h : t ≤ time e ∧ time e ≤ t + width
  · have hrecent : windowWeight time weight width t log ≤ _ := windowWeight_le_recent h.2 log
    rw [if_pos h]
    omega
  · rw [if_neg h, Nat.add_zero]
    exact hlog t

end OpenSY.SlidingWindow
