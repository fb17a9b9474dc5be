import Mathlib.Algebra.Order.Ring.Nat
import Mathlib.Data.List.Basic

/-!
# Blocks that are handed on one block late

Data that arrives in pieces is cut into blocks of `b` elements, and a block is handed on only once
something is known to come after it, so that the last block stays behind whatever the length is.

* `drain b flush s data` hands the blocks of `data` but the last to `flush` and returns what stays
  behind.
* `drain_append`: draining a piece and then what stayed behind with the next piece drains the two
  together.
* `foldl_drain`: so does any number of pieces, of any sizes.
* `drain_eq`: the blocks handed on are the windows `window b data i` of the data in order, and what
  stays behind is the last window.
-/

namespace OpenSY.LazyBlocks

variable {α σ τ : Type} {b : ℕ} [NeZero b]

/-- Hand blocks of `b` elements to `flush` while more than one block is left. -/
def drain (b : ℕ) [NeZero b] (flush : σ → List α → σ) (s : σ) (data : List α) : σ × List α :=
  if b < data.length then drain b flush (flush s (data.take b)) (data.drop b) else (s, data)
termination_by data.length
decreasing_by
  have hb := Nat.pos_of_neZero b
  rw [List.length_drop]
  omega

/-- The `i`-th block of the data. -/
def window (b : ℕ) (data : List α) (i : ℕ) : List α := (data.drop (i * b)).take b

/-- The number of blocks before the last. -/
def before (b : ℕ) (data : List α) : ℕ := (data.length - 1) / b

theorem drain_of_le {flush : σ → List α → σ} (s : σ) {data : List α} (h : data.length ≤ b) :
    drain b flush s data = (s, data) := by
  rw [drain, if_neg (by omega)]

theorem drain_of_lt {flush : σ → List α → σ} (s : σ) {data : List α} (h : b < data.length) :
    drain b flush s data = drain b flush (flush s (data.take b)) (data.drop b) := by
  rw [drain, if_pos h]

/-- A first block that something follows. -/
theorem drain_block {flush : σ → List α → σ} (s : σ) {block data : List α}
    (hblock : block.length = b) (hdata : data ≠ []) :
    drain b flush s (block ++ data) = drain b flush (flush s block) data := by
  have hpos : 0 < data.length := List.length_pos_of_ne_nil hdata
  rw [drain_of_lt s (by rw [List.length_append]; omega), List.take_left' hblock,
    List.drop_left' hblock]

theorem drain_snd_length_le (flush : σ → List α → σ) (s : σ) (data : List α) :
    (drain b flush s data).2.length ≤ b := by
  fun_induction drain b flush s data with
  | case1 s data h ih => exact ih
  | case2 s data h => exact Nat.not_lt.mp h

/-- What one piece leaves behind is drained together with the next. -/
theorem drain_append (flush : σ → List α → σ) (s : σ) (front back : List α) :
    drain b flush s (front ++ back)
      = drain b flush (drain b flush s front).1 ((drain b flush s front).2 ++ back) := by
  fun_induction drain b flush s front with
  | case1 s front h ih =>
    have hlong : b < (front ++ back).length := by
      rw [List.length_append]
      omega
    have hle : b ≤ front.length := Nat.le_of_lt h
    rw [drain_of_lt s hlong, List.take_append_of_le_length hle,
      List.drop_append_of_le_length hle, ih]
  | case2 s front h => rfl

/-- Any number of pieces drains as their concatenation does. -/
theorem foldl_drain (flush : σ → List α → σ) (s : σ) (front : List α) (pieces : List (List α)) :
    pieces.foldl (fun p piece => drain b flush p.1 (p.2 ++ piece)) (drain b flush s front)
      = drain b flush s (front ++ pieces.flatten) := by
  induction pieces generalizing front with
  | nil => rw [List.flatten_nil, List.append_nil, List.foldl_nil]
  | cons piece pieces ih =>
    rw [List.foldl_cons, ← drain_append, ih, List.flatten_cons, List.append_assoc]

/-- A view that commutes with `flush` commutes with draining. -/
theorem map_drain {flush : σ → List α → σ} {flush' : τ → List α → τ} (view : σ → τ)
    (hview : ∀ s block, view (flush s block) = flush' (view s) block) (s : σ) (data : List α) :
    drain b flush' (view s) data = (view (drain b flush s data).1, (drain b flush s data).2) := by
  fun_induction drain b flush s data with
  | case1 s data h ih => rw [drain_of_lt _ h, ← hview, ih]
  | case2 s data h => exact drain_of_le _ (Nat.not_lt.mp h)

/-- Something that every flushed block preserves is preserved by draining. -/
theorem drain_fst_induct {flush : σ → List α → σ} {P : σ → Prop}
    (hstep : ∀ s block, P s → P (flush s block)) {s : σ} (hs : P s) (data : List α) :
    P (drain b flush s data).1 := by
  fun_induction drain b flush s data with
  | case1 s data h ih => exact ih (hstep s _ hs)
  | case2 s data h => exact hs

omit [NeZero b] in
theorem window_drop (data : List α) (i : ℕ) : window b (data.drop b) i = window b data (i + 1) := by
  rw [window, window, List.drop_drop, Nat.succ_mul, Nat.add_comm]

theorem before_of_le {data : List α} (h : data.length ≤ b) : before b data = 0 := by
  have hb := Nat.pos_of_neZero b
  exact Nat.div_eq_of_lt (by omega)

theorem before_of_lt {data : List α} (h : b < data.length) :
    before b data = before b (data.drop b) + 1 := by
  rw [before, before, List.length_drop, ← Nat.add_div_right _ (Nat.pos_of_neZero b)]
  congr 1
  omega

/-- The blocks handed on are the windows before the last, in order; the last window stays behind. -/
theorem drain_eq (flush : σ → List α → σ) (s : σ) (data : List α) :
    drain b flush s data
      = ((List.range (before b data)).foldl (fun s i => flush s (window b data i)) s,
          data.drop (before b data * b)) := by
  fun_induction drain b flush s data with
  | case1 s data h ih =>
    have hfirst : data.take b = window b data 0 := by rw [window, Nat.zero_mul, List.drop_zero]
    rw [ih, before_of_lt h, List.range_succ_eq_map, List.foldl_cons, List.foldl_map, hfirst,
      List.drop_drop, Nat.succ_mul, Nat.add_comm b]
    simp only [window_drop]
  | case2 s data h =>
    rw [before_of_le (Nat.not_lt.mp h), List.range_zero, List.foldl_nil, Nat.zero_mul,
      List.drop_zero]

end OpenSY.LazyBlocks
