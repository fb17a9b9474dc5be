import OpenSY.Lib.Utf8
import OpenSY.Script.CheckedReads
import Mathlib.Data.FinEnum

/-!
# The text of a memo

`IsValidUTF8` and `ValidateMemoContent` of `script/memo.h`, with every access to the bytes as a read
that can fail.

* `isValidUTF8_cases`: no read fails; the check accepts exactly the encodings of characters, and
  where it refuses a text it names a place in the sequence behind the longest valid beginning.
* `memo_text_spec`: the same, and the memos accepted are the encodings, of 1 to 80 bytes, of
  characters that are no control characters except tab and newline.
-/

namespace OpenSY.Memo

open OpenSY.Chain OpenSY.Utf8
open OpenSY.Src20 (ReadError byteAt ok_bind)

/-! ### `IsValidUTF8` -/

/-- `seq_len` by the lead byte; nothing where the lead byte alone is refused. -/
def leadLength (c : UInt8) : Option ℕ :=
  if c ≤ 0x7F then some 1
  else if c &&& 0xE0 = 0xC0 then
    if c < 0xC2 then none else some 2
  else if c &&& 0xF0 = 0xE0 then some 3
  else if c &&& 0xF8 = 0xF0 then
    if c ≥ 0xF5 then none else some 4
  else none

/-- The loop over the continuation bytes from the `j`-th on, with `n` of them left: the place of the
first that is none. -/
def badContinuation (data : Bytes) (i j : ℕ) : ℕ → Except ReadError (Option ℕ)
  | 0 => .ok none
  | n + 1 => do
    let b ← byteAt data (i + j)
    if b &&& 0xC0 ≠ 0x80 then .ok (some (i + j)) else badContinuation data i (j + 1) n

/-- Whether the second byte makes the sequence overlong, a surrogate or too large.  It is read only
after the lead bytes that restrict it. -/
def badSecond (data : Bytes) (i : ℕ) (c : UInt8) (seqLen : ℕ) : Except ReadError Bool :=
  if seqLen = 3 ∧ c = 0xE0 then do
    let b ← byteAt data (i + 1)
    .ok (decide (b < 0xA0))
  else if seqLen = 3 ∧ c = 0xED then do
    let b ← byteAt data (i + 1)
    .ok (decide (b ≥ 0xA0))
  else if seqLen = 4 ∧ c = 0xF0 then do
    let b ← byteAt data (i + 1)
    .ok (decide (b < 0x90))
  else if seqLen = 4 ∧ c = 0xF4 then do
    let b ← byteAt data (i + 1)
    .ok (decide (b > 0x8F))
  else .ok false

/-- The rest of a turn at `i`, for the length that the lead byte gives: the next index, or the place
of the error. -/
def scanSequence (data : Bytes) (i : ℕ) (c : UInt8) (seqLen : ℕ) : Except ReadError (Except ℕ ℕ) :=
  if data.length < i + seqLen then .ok (.error i)
  else do
    let bad ← badContinuation data i 1 (seqLen - 1)
    match bad with
    | some pos => .ok (.error pos)
    | none => do
      let second ← badSecond data i c seqLen
      if second then .ok (.error i) else .ok (.ok (i + seqLen))

/-- One turn of the loop at `i`. -/
def scanTurn (data : Bytes) (i : ℕ) : Except ReadError (Except ℕ ℕ) := do
  let c ← byteAt data i
  match leadLength c with
  | none => .ok (.error i)
  | some seqLen => scanSequence data i c seqLen

/-- The loop from `i` on; every turn moves on by a byte at least, so that `fuel` is never used up.
-/
def scan (data : Bytes) : ℕ → ℕ → Except ReadError (Except ℕ Unit)
  | 0, _ => .error .outOfRange
  | fuel + 1, i =>
    if i < data.length then do
      let turn ← scanTurn data i
      match turn with
      | .error pos => .ok (.error pos)
      | .ok next => scan data fuel next
    else .ok (.ok ())

/-- `IsValidUTF8`: true, or false with the place of the error. -/
def isValidUTF8 (data : Bytes) : Except ReadError (Except ℕ Unit) := scan data (data.length + 1) 0

/-! ### `ValidateMemoContent` -/

def maxMemoLength : ℕ := 80

/-- The control characters that are refused. -/
def isControl (b : UInt8) : Bool := b < 0x20 && b != 0x09 && b != 0x0A

/-- How far the second loop moves on. -/
def skipLength (b : UInt8) : ℕ :=
  if b < 0x80 then 1
  else if b &&& 0xE0 = 0xC0 then 2
  else if b &&& 0xF0 = 0xE0 then 3
  else 4

/-- The loop over the control characters from `i` on. -/
def scanControls (data : Bytes) : ℕ → ℕ → Except ReadError Bool
  | 0, _ => .error .outOfRange
  | fuel + 1, i =>
    if i < data.length then do
      let b ← byteAt data i
      if b < 0x80 ∧ isControl b then .ok false else scanControls data fuel (i + skipLength b)
    else .ok true

def validateMemoContent (memo : Bytes) : Except ReadError Bool :=
  if memo.length = 0 ∨ maxMemoLength < memo.length then .ok false
  else do
    let valid ← isValidUTF8 memo
    match valid with
    | .error _ => .ok false
    | .ok _ => scanControls memo (memo.length + 1) 0

/-! ### Bytes by their numbers -/

theorem leadLength_eq : ∀ c : UInt8,
    leadLength c = if c.toNat < 0x80 then some 1 else if c.toNat < 0xC2 then none
      else if c.toNat < 0xE0 then some 2 else if c.toNat < 0xF0 then some 3
      else if c.toNat < 0xF5 then some 4 else none := by
  decide +kernel

theorem continuation_iff : ∀ b : UInt8, b &&& 0xC0 = 0x80 ↔ Continuation b := by
  decide +kernel

/-- The lead bytes that are accepted, by the length they announce. -/
theorem leadLength_cases (a : UInt8) :
    leadLength a = none ∧ (0x80 ≤ a.toNat ∧ a.toNat < 0xC2 ∨ 0xF5 ≤ a.toNat) ∨
      leadLength a = some 1 ∧ a.toNat < 0x80 ∨
      leadLength a = some 2 ∧ 0xC2 ≤ a.toNat ∧ a.toNat < 0xE0 ∨
      leadLength a = some 3 ∧ 0xE0 ≤ a.toNat ∧ a.toNat < 0xF0 ∨
      leadLength a = some 4 ∧ 0xF0 ≤ a.toNat ∧ a.toNat < 0xF5 := by
  rw [leadLength_eq]
  split_ifs with h₁ h₂ h₃ h₄ h₅
  · exact .inr (.inl ⟨rfl, h₁⟩)
  · exact .inl ⟨rfl, .inl (by omega)⟩
  · exact .inr (.inr (.inl ⟨rfl, by omega⟩))
  · exact .inr (.inr (.inr (.inl ⟨rfl, by omega⟩)))
  · exact .inr (.inr (.inr (.inr ⟨rfl, by omega⟩)))
  · exact .inl ⟨rfl, .inr (by omega)⟩

theorem leadLength_of_sequence {a : UInt8} {tail : Bytes} (h : Sequence (a :: tail)) :
    leadLength a = some (a :: tail).length := by
  rw [leadLength_eq]
  cases h with
  | one lead => rw [if_pos lead]; rfl
  | two lead => rw [if_neg (by omega), if_neg (by omega), if_pos lead.2]; rfl
  | three lead => rw [if_neg (by omega), if_neg (by omega), if_neg (by omega), if_pos lead.2]; rfl
  | four lead =>
    rw [if_neg (by omega), if_neg (by omega), if_neg (by omega), if_neg (by omega), if_pos lead.2]
    rfl

/-- A lead byte that is accepted announces the length that UTF-8 gives it. -/
theorem sequenceLength_of_leadLength {a : UInt8} {n : ℕ} (h : leadLength a = some n) :
    sequenceLength a = n := by
  rw [sequenceLength]
  rcases leadLength_cases a with ⟨hn, -⟩ | ⟨hn, hlt⟩ | ⟨hn, hlt⟩ | ⟨hn, hlt⟩ | ⟨hn, hlt⟩
  · rw [hn] at h
    cases h
  all_goals
    rw [hn] at h
    obtain rfl := Option.some.inj h
  · rw [if_pos hlt]
  · rw [if_neg (by omega), if_neg (by omega), if_pos (by omega)]
  · rw [if_neg (by omega), if_neg (by omega), if_neg (by omega), if_pos (by omega)]
  · rw [if_neg (by omega), if_neg (by omega), if_neg (by omega), if_neg (by omega),
      if_pos (by omega)]

/-- What the lead byte asks of the second byte beyond being a continuation. -/
def SecondOk (a b : UInt8) : Prop :=
  (a.toNat = 0xE0 → 0xA0 ≤ b.toNat) ∧ (a.toNat = 0xED → b.toNat < 0xA0) ∧
    (a.toNat = 0xF0 → 0x90 ≤ b.toNat) ∧ (a.toNat = 0xF4 → b.toNat < 0x90)

instance (a b : UInt8) : Decidable (SecondOk a b) := inferInstanceAs (Decidable (_ ∧ _ ∧ _ ∧ _))

/-! ### One turn -/

section Turn

variable {data : Bytes} {i : ℕ}

theorem byteAt_of_drop (front : Bytes) {rest : Bytes} {b : UInt8}
    (h : data.drop i = front ++ b :: rest) :
    byteAt data (i + front.length) = .ok b := by
  have hget : data[i + front.length]? = some b := by
    rw [← List.getElem?_drop, h, List.getElem?_append_right (Nat.le_refl _), Nat.sub_self]
    rfl
  rw [byteAt, hget]

theorem drop_length {back : Bytes} (h : data.drop i = back) : data.length - i = back.length := by
  rw [← h, List.length_drop]

/-- The loop over the continuation bytes finds the first that is none, if there is one. -/
theorem badContinuation_spec {j n : ℕ} {tail : Bytes} (h : data.drop (i + j) = tail)
    (hn : n ≤ tail.length) :
    (∀ b ∈ tail.take n, Continuation b) ∧ badContinuation data i j n = .ok none ∨
      ¬ (∀ b ∈ tail.take n, Continuation b) ∧
        ∃ pos, badContinuation data i j n = .ok (some pos) ∧ i + j ≤ pos ∧ pos < i + j + n := by
  induction n generalizing j tail with
  | zero =>
    rw [List.take_zero]
    exact .inl ⟨fun b hb => absurd hb List.not_mem_nil, rfl⟩
  | succ n ih =>
    obtain ⟨b, rest, rfl⟩ := List.exists_cons_of_length_pos (Nat.lt_of_lt_of_le (Nat.succ_pos n) hn)
    have hread : byteAt data (i + j) = .ok b := byteAt_of_drop [] h
    have hnext : data.drop (i + (j + 1)) = rest := by
      rw [← Nat.add_assoc, ← List.drop_drop, h]
      rfl
    rw [List.take_succ_cons, badContinuation, hread, ok_bind]
    by_cases hb : b &&& 0xC0 = 0x80
    · rw [if_neg (not_not.mpr hb)]
      rcases ih hnext (Nat.le_of_succ_le_succ hn) with
        ⟨hall, hloop⟩ | ⟨hsome, pos, hloop, hlow, hhigh⟩
      · exact .inl ⟨List.forall_mem_cons.mpr ⟨(continuation_iff b).mp hb, hall⟩, hloop⟩
      · refine .inr ⟨fun hall => hsome (List.forall_mem_cons.mp hall).2, pos, hloop, ?_, ?_⟩
        · omega
        · omega
    · rw [if_pos hb]
      refine .inr ⟨fun hall => hb ((continuation_iff b).mpr (List.forall_mem_cons.mp hall).1),
        i + j, rfl, ?_, ?_⟩
      · omega
      · omega

theorem Sequence.continuation {a : UInt8} {tail : Bytes} (h : Sequence (a :: tail)) :
    ∀ b ∈ tail, Continuation b := by
  cases h with
  | one lead => exact fun b hb => absurd hb List.not_mem_nil
  | two lead second => simpa using second
  | three lead second third => simpa using And.intro second third
  | four lead second third fourth => simpa using And.intro second (And.intro third fourth)

theorem badSecond_eq_false {a : UInt8} {n : ℕ} (h : n < 3) : badSecond data i a n = .ok false := by
  rw [badSecond, if_neg (by omega), if_neg (by omega), if_neg (by omega), if_neg (by omega)]

theorem secondOk_E0 :
    ∀ b : UInt8, decide (b < 0xA0) = !decide (SecondOk 0xE0 b) := by decide +kernel

theorem secondOk_ED :
    ∀ b : UInt8, decide (b ≥ 0xA0) = !decide (SecondOk 0xED b) := by decide +kernel

theorem secondOk_F0 :
    ∀ b : UInt8, decide (b < 0x90) = !decide (SecondOk 0xF0 b) := by decide +kernel

theorem secondOk_F4 :
    ∀ b : UInt8, decide (b > 0x8F) = !decide (SecondOk 0xF4 b) := by decide +kernel

/-- The other lead bytes ask nothing of the second. -/
theorem secondOk_other {a : UInt8} (h₁ : a ≠ 0xE0) (h₂ : a ≠ 0xED) (h₃ : a ≠ 0xF0) (h₄ : a ≠ 0xF4)
    (b : UInt8) :
    SecondOk a b :=
  ⟨fun h => absurd (UInt8.toNat_inj.mp h) h₁, fun h => absurd (UInt8.toNat_inj.mp h) h₂,
    fun h => absurd (UInt8.toNat_inj.mp h) h₃, fun h => absurd (UInt8.toNat_inj.mp h) h₄⟩

/-- The condition on the second byte, where the lead byte announces three or four. -/
theorem badSecond_eq {a b : UInt8} {rest : Bytes} (h : data.drop i = a :: b :: rest) {n : ℕ}
    (hlead : leadLength a = some n) (hn : 3 ≤ n) :
    badSecond data i a n = .ok (!decide (SecondOk a b)) := by
  have hread : byteAt data (i + 1) = .ok b := byteAt_of_drop [a] h
  rw [badSecond, hread]
  simp only [ok_bind]
  by_cases h₁ : a = 0xE0
  · subst h₁
    obtain rfl : 3 = n := Option.some.inj hlead
    rw [if_pos ⟨rfl, rfl⟩, secondOk_E0]
  by_cases h₂ : a = 0xED
  · subst h₂
    obtain rfl : 3 = n := Option.some.inj hlead
    rw [if_neg (by decide), if_pos ⟨rfl, rfl⟩, secondOk_ED]
  by_cases h₃ : a = 0xF0
  · subst h₃
    obtain rfl : 4 = n := Option.some.inj hlead
    rw [if_neg (by decide), if_neg (by decide), if_pos ⟨rfl, rfl⟩, secondOk_F0]
  by_cases h₄ : a = 0xF4
  · subst h₄
    obtain rfl : 4 = n := Option.some.inj hlead
    rw [if_neg (by decide), if_neg (by decide), if_neg (by decide), if_pos ⟨rfl, rfl⟩, secondOk_F4]
  rw [if_neg (fun h => h₁ h.2), if_neg (fun h => h₂ h.2), if_neg (fun h => h₃ h.2),
    if_neg (fun h => h₄ h.2), decide_eq_true (secondOk_other h₁ h₂ h₃ h₄ b)]
  rfl

/-- Once the continuation bytes are there, the check of the second byte decides. -/
theorem badSecond_spec {a : UInt8} {tail : Bytes} (h : data.drop i = a :: tail) {n : ℕ}
    (hlead : leadLength a = some n) (hn : n ≤ (a :: tail).length)
    (hall : ∀ b ∈ tail.take (n - 1), Continuation b) :
    Sequence ((a :: tail).take n) ∧ badSecond data i a n = .ok false ∨
      ¬ Sequence ((a :: tail).take n) ∧ badSecond data i a n = .ok true := by
  rcases leadLength_cases a with
    ⟨hnone, -⟩ | ⟨hsome, hlt⟩ | ⟨hsome, hlt⟩ | ⟨hsome, hlt⟩ | ⟨hsome, hlt⟩
  · rw [hnone] at hlead
    cases hlead
  all_goals obtain rfl := Option.some.inj (hlead.symm.trans hsome)
  · exact .inl ⟨.one hlt, badSecond_eq_false (by omega)⟩
  · obtain ⟨b, rest, rfl⟩ := List.exists_cons_of_length_pos (Nat.le_of_succ_le_succ hn)
    exact .inl ⟨.two hlt (hall b List.mem_cons_self), badSecond_eq_false (by omega)⟩
  · obtain ⟨b, tail, rfl⟩ :=
      List.exists_cons_of_length_pos (show 0 < tail.length by rw [List.length_cons] at hn; omega)
    obtain ⟨c, tail, rfl⟩ := List.exists_cons_of_length_pos (show 0 < tail.length by
      rw [List.length_cons, List.length_cons] at hn; omega)
    have hb := hall b List.mem_cons_self
    have hc := hall c (List.mem_cons_of_mem _ List.mem_cons_self)
    rw [badSecond_eq h hlead (Nat.le_refl 3)]
    by_cases hok : SecondOk a b
    · exact .inl ⟨.three hlt hb hc hok.1 hok.2.1, by rw [decide_eq_true hok]; rfl⟩
    · refine .inr ⟨fun hseq => hok ?_, by rw [decide_eq_false hok]; rfl⟩
      cases hseq with
      | three lead second third overlong surrogate =>
        exact ⟨overlong, surrogate, fun h => by omega, fun h => by omega⟩
  · obtain ⟨b, tail, rfl⟩ :=
      List.exists_cons_of_length_pos (show 0 < tail.length by rw [List.length_cons] at hn; omega)
    obtain ⟨c, tail, rfl⟩ := List.exists_cons_of_length_pos (show 0 < tail.length by
      rw [List.length_cons, List.length_cons] at hn; omega)
    obtain ⟨d, tail, rfl⟩ := List.exists_cons_of_length_pos (show 0 < tail.length by
      rw [List.length_cons, List.length_cons, List.length_cons] at hn; omega)
    have hb := hall b List.mem_cons_self
    have hc := hall c (List.mem_cons_of_mem _ List.mem_cons_self)
    have hd := hall d (List.mem_cons_of_mem _ (List.mem_cons_of_mem _ List.mem_cons_self))
    rw [badSecond_eq h hlead (by omega)]
    by_cases hok : SecondOk a b
    · exact .inl ⟨.four hlt hb hc hd hok.2.2.1 hok.2.2.2, by rw [decide_eq_true hok]; rfl⟩
    · refine .inr ⟨fun hseq => hok ?_, by rw [decide_eq_false hok]; rfl⟩
      cases hseq with
      | four lead second third fourth overlong beyond =>
        exact ⟨fun h => by omega, fun h => by omega, overlong, beyond⟩

/-- The rest of a turn moves over the announced bytes if they are a sequence, and names the place
itself or one within them if not. -/
theorem scanSequence_spec {a : UInt8} {tail : Bytes} (h : data.drop i = a :: tail) {n : ℕ}
    (hlead : leadLength a = some n) (hpos : 0 < n) :
    n ≤ (a :: tail).length ∧ Sequence ((a :: tail).take n) ∧
      scanSequence data i a n = .ok (.ok (i + n)) ∨
      ¬ (n ≤ (a :: tail).length ∧ Sequence ((a :: tail).take n)) ∧
        ∃ pos, scanSequence data i a n = .ok (.error pos) ∧
          (pos = i ∨ i < pos ∧ pos < i + n ∧ i + n ≤ data.length) := by
  have hlen := drop_length h
  have hcons : (a :: tail).length = tail.length + 1 := List.length_cons
  rw [scanSequence]
  by_cases hshort : data.length < i + n
  · rw [if_pos hshort]
    exact .inr ⟨fun hfit => by omega, i, rfl, .inl rfl⟩
  have hfit : n ≤ (a :: tail).length := by omega
  have hnext : data.drop (i + 1) = tail := by
    rw [← List.drop_drop, h]
    rfl
  have htake : (a :: tail).take n = a :: tail.take (n - 1) := by
    rw [← Nat.succ_pred_eq_of_pos hpos, List.take_succ_cons]
    rfl
  rw [if_neg hshort]
  rcases badContinuation_spec (n := n - 1) hnext (by omega) with
    ⟨hall, hloop⟩ | ⟨hsome, pos, hloop, hlow, hhigh⟩
  · rw [hloop, ok_bind]
    rcases badSecond_spec h hlead hfit hall with ⟨hseq, hsecond⟩ | ⟨hseq, hsecond⟩
    · refine .inl ⟨hfit, hseq, ?_⟩
      show (badSecond data i a n >>= fun second => _) = _
      rw [hsecond]
      rfl
    · refine .inr ⟨fun hgood => hseq hgood.2, i, ?_, .inl rfl⟩
      show (badSecond data i a n >>= fun second => _) = _
      rw [hsecond]
      rfl
  · rw [hloop, ok_bind]
    refine .inr ⟨fun hgood => hsome ?_, pos, rfl, .inr (by omega)⟩
    rw [htake] at hgood
    exact Sequence.continuation hgood.2

/-- One turn inside the text: it moves over the sequence that stands there, or there is none, and it
names the place itself or one within the bytes that the lead byte announces. -/
theorem scanTurn_spec {a : UInt8} {tail : Bytes} (h : data.drop i = a :: tail) :
    (∃ s rest, Sequence s ∧ data.drop i = s ++ rest ∧ scanTurn data i = .ok (.ok (i + s.length))) ∨
      (∀ s rest, Sequence s → data.drop i ≠ s ++ rest) ∧
        ∃ pos, scanTurn data i = .ok (.error pos) ∧
          (pos = i ∨ i < pos ∧ pos < i + sequenceLength a ∧
            i + sequenceLength a ≤ data.length) := by
  have hread : byteAt data i = .ok a := byteAt_of_drop [] h
  rw [scanTurn, hread, ok_bind]
  cases hlead : leadLength a with
  | none =>
    refine .inr ⟨fun s rest hs heq => ?_, i, rfl, .inl rfl⟩
    -- a sequence here would have this lead byte
    obtain ⟨a', tail', rfl⟩ := List.exists_cons_of_ne_nil hs.ne_nil
    obtain rfl : a = a' := (List.cons.inj (h.symm.trans heq)).1
    rw [leadLength_of_sequence hs] at hlead
    cases hlead
  | some n =>
    have hn := sequenceLength_of_leadLength hlead
    have hpos : 0 < n := by
      rcases leadLength_cases a with ⟨hc, -⟩ | ⟨hc, -⟩ | ⟨hc, -⟩ | ⟨hc, -⟩ | ⟨hc, -⟩ <;>
        rw [hlead] at hc <;> cases hc <;> decide
    rcases scanSequence_spec h hlead hpos with ⟨hfit, hseq, hturn⟩ | ⟨hbad, pos, hturn, hplace⟩
    · refine .inl ⟨(a :: tail).take n, (a :: tail).drop n, hseq, ?_, ?_⟩
      · rw [h, List.take_append_drop]
      · rw [List.length_take_of_le hfit]
        exact hturn
    · rw [hn]
      refine .inr ⟨fun s rest hs heq => hbad ?_, pos, hturn, hplace⟩
      -- a sequence here would be the announced bytes
      rw [← hn]
      exact (exists_sequence_iff a tail).mp ⟨s, rest, hs, h.symm.trans heq⟩

/-! ### The whole text -/

/-- What the scan from `i` on says about the rest of the text. -/
theorem scan_spec {fuel : ℕ} (hi : i ≤ data.length) (hfuel : data.length - i < fuel) :
    scan data fuel i = .ok (.ok ()) ∧ IsUtf8 (data.drop i) ∨
      ∃ pos n b, scan data fuel i = .ok (.error pos) ∧ ¬ IsUtf8 (data.drop i) ∧
        Longest (data.drop i) n ∧
        data[i + n]? = some b ∧
        (pos = i + n ∨ i + n < pos ∧ pos < i + n + sequenceLength b ∧
          i + n + sequenceLength b ≤ data.length) := by
  -- each turn uses one unit of fuel and at least one byte
  induction fuel generalizing i with
  | zero => omega
  | succ fuel ih =>
    rw [scan]
    by_cases hend : i < data.length
    · rw [if_pos hend]
      have hback := List.drop_eq_getElem_cons hend
      rcases scanTurn_spec hback with ⟨s, rest, hs, heq, hturn⟩ | ⟨hnone, pos, hturn, hplace⟩
      · rw [hturn, ok_bind]
        show scan data fuel (i + s.length) = _ ∧ _ ∨ ∃ pos n b,
            scan data fuel (i + s.length) = _ ∧ _
        have hspos := List.length_pos_of_ne_nil hs.ne_nil
        have hlen := drop_length heq
        rw [List.length_append] at hlen
        have hrest : data.drop (i + s.length) = rest := by
          rw [← List.drop_drop, heq, List.drop_left]
        rw [heq, isUtf8_append_iff hs]
        rcases ih (i := i + s.length) (by omega) (by omega) with
          ⟨hscan, hvalid⟩ | ⟨pos, n, b, hscan, hvalid, hlongest, hb, hplace⟩
        · rw [hrest] at hvalid
          exact .inl ⟨hscan, hvalid⟩
        · rw [hrest] at hvalid hlongest
          refine .inr ⟨pos, s.length + n, b, hscan, hvalid, hlongest.append hs, ?_, ?_⟩
          · rw [← Nat.add_assoc]
            exact hb
          · rw [← Nat.add_assoc]
            exact hplace
      · rw [hturn, ok_bind]
        refine .inr ⟨pos, 0, data[i], rfl, fun hvalid => ?_, longest_zero hnone,
          List.getElem?_eq_getElem hend, hplace⟩
        rcases (isUtf8_iff _).mp hvalid with hnil | ⟨s, rest, hs, heq, -⟩
        · rw [hback] at hnil
          cases hnil
        · exact hnone s rest hs heq
    · rw [if_neg hend]
      refine .inl ⟨rfl, ?_⟩
      rw [List.drop_eq_nil_of_le (Nat.not_lt.mp hend)]
      exact isUtf8_nil

end Turn

/-- No read of `IsValidUTF8` is outside the text, and it accepts the encodings of characters; where
it refuses, it names a place in the sequence behind the longest valid beginning. -/
theorem isValidUTF8_cases (data : Bytes) :
    isValidUTF8 data = .ok (.ok ()) ∧ IsUtf8 data ∨
      ∃ pos n b, isValidUTF8 data = .ok (.error pos) ∧ ¬ IsUtf8 data ∧ Longest data n ∧
        data[n]? = some b ∧
        (pos = n ∨ n < pos ∧ pos < n + sequenceLength b ∧ n + sequenceLength b ≤ data.length) := by
  have hspec := scan_spec (Nat.zero_le data.length) (Nat.lt_succ_self (data.length - 0))
  simp only [Nat.zero_add, List.drop_zero] at hspec
  exact hspec

/-! ### Control characters -/

theorem isControl_iff : ∀ b : UInt8,
    b < 0x80 ∧ isControl b = true ↔ b.toNat < 0x20 ∧ b.toNat ≠ 0x09 ∧ b.toNat ≠ 0x0A := by
  decide +kernel

theorem skipLength_eq : ∀ b : UInt8, leadLength b = none ∨ leadLength b = some (skipLength b) := by
  decide +kernel

/-- A character that a memo may contain. -/
def Printable (c : Char) : Prop := 0x20 ≤ c.val.toNat ∨ c = '\t' ∨ c = '\n'

theorem printable_iff (c : Char) :
    Printable c ↔ ¬ (c.val.toNat < 0x20 ∧ c.val.toNat ≠ 0x09 ∧ c.val.toNat ≠ 0x0A) := by
  have htab : c = '\t' ↔ c.val.toNat = 0x09 :=
    ⟨fun h => by rw [h]; rfl, fun h => Char.ext (UInt32.toNat_inj.mp h)⟩
  have hnewline : c = '\n' ↔ c.val.toNat = 0x0A :=
    ⟨fun h => by rw [h]; rfl, fun h => Char.ext (UInt32.toNat_inj.mp h)⟩
  rw [Printable, htab, hnewline]
  omega

/-- The first byte of an encoding is a refused control character exactly where the character is. -/
theorem control_head {c : Char} {a : UInt8} {tail : Bytes}
    (h : String.utf8EncodeChar c = a :: tail) :
    a < 0x80 ∧ isControl a = true ↔ ¬ Printable c := by
  rw [isControl_iff, printable_iff, not_not]
  have hvalid : c.val.toNat < 0xD800 ∨ 0xDFFF < c.val.toNat ∧ c.val.toNat < 0x110000 := c.valid
  simp only [String.utf8EncodeChar] at h
  generalize c.val.toNat = v at h hvalid
  split_ifs at h with h₁ h₂ h₃
  · obtain ⟨rfl, -⟩ := List.cons.inj h
    rw [toNat_ofNat (by omega)]
  all_goals
    -- the first byte of a longer sequence is none, nor is the character
    obtain ⟨rfl, -⟩ := List.cons.inj h
    rw [toNat_ofNat (by omega)]
    omega

/-- The second loop moves from character to character of a valid text and stops at the first control
character. -/
theorem scanControls_eq (data : Bytes) (chars : List Char) {fuel i : ℕ}
    (hfuel : data.length - i < fuel) (h : data.drop i = encode chars) :
    scanControls data fuel i = .ok true ∧ (∀ c ∈ chars, Printable c) ∨
      scanControls data fuel i = .ok false ∧ ¬ ∀ c ∈ chars, Printable c := by
  induction chars generalizing fuel i with
  | nil =>
    obtain ⟨fuel, rfl⟩ := Nat.exists_eq_add_one_of_ne_zero (Nat.ne_zero_of_lt hfuel)
    have hend : ¬ i < data.length := Nat.not_lt.mpr (List.drop_eq_nil_iff.mp h)
    rw [scanControls, if_neg hend]
    exact .inl ⟨rfl, fun c hc => absurd hc List.not_mem_nil⟩
  | cons c chars ih =>
    obtain ⟨fuel, rfl⟩ := Nat.exists_eq_add_one_of_ne_zero (Nat.ne_zero_of_lt hfuel)
    have hseq := sequence_utf8EncodeChar c
    obtain ⟨a, tail, ha⟩ := List.exists_cons_of_ne_nil hseq.ne_nil
    have hcontrol := control_head ha
    rw [encode_cons, ha] at h
    rw [ha] at hseq
    have hlen := drop_length h
    rw [List.length_append, List.length_cons] at hlen
    have hread : byteAt data i = .ok a := byteAt_of_drop [] h
    have hskip : skipLength a = (a :: tail).length := by
      have hlead := leadLength_of_sequence hseq
      rcases skipLength_eq a with hnone | hsome
      · rw [hlead] at hnone
        cases hnone
      · exact Option.some.inj (hsome.symm.trans hlead)
    have hnext : data.drop (i + skipLength a) = encode chars := by
      rw [hskip, ← List.drop_drop, h, List.drop_left]
    rw [scanControls, if_pos (by omega), hread, ok_bind]
    by_cases hbad : a < 0x80 ∧ isControl a = true
    · rw [if_pos hbad]
      exact .inr ⟨rfl, fun hall => hcontrol.mp hbad (hall c List.mem_cons_self)⟩
    · rw [if_neg hbad]
      have hgood : Printable c := not_not.mp (mt hcontrol.mpr hbad)
      have hfuel' : data.length - (i + skipLength a) < fuel := by
        rw [hskip, List.length_cons]
        omega
      rcases ih hfuel' hnext with ⟨hscan, hall⟩ | ⟨hscan, hnot⟩
      · exact .inl ⟨hscan, List.forall_mem_cons.mpr ⟨hgood, hall⟩⟩
      · exact .inr ⟨hscan, fun hall => hnot (List.forall_mem_cons.mp hall).2⟩

/-- `ValidateMemoContent` on a text of an accepted length. -/
theorem validateMemoContent_of_length {memo : Bytes}
    (h : ¬ (memo.length = 0 ∨ maxMemoLength < memo.length)) :
    validateMemoContent memo = .ok true ∧
      (∃ chars, encode chars = memo ∧ ∀ c ∈ chars, Printable c) ∨
      validateMemoContent memo = .ok false ∧ ¬ ∃ chars, encode chars = memo ∧ ∀ c ∈ chars,
        Printable c := by
  have hloop : ∀ chars, encode chars = memo →
      scanControls memo (memo.length + 1) 0 = .ok true ∧ (∀ c ∈ chars, Printable c) ∨
        scanControls memo (memo.length + 1) 0 = .ok false ∧ ¬ ∀ c ∈ chars, Printable c :=
    fun chars hchars =>
      scanControls_eq memo chars (Nat.lt_succ_self _) (by rw [List.drop_zero, hchars])
  rw [validateMemoContent, if_neg h]
  rcases isValidUTF8_cases memo with ⟨hvalid, chars, hchars⟩ | ⟨pos, n, b, hvalid, hnot, -⟩
  · rw [hvalid, ok_bind]
    show scanControls memo (memo.length + 1) 0 = _ ∧ _ ∨
        scanControls memo (memo.length + 1) 0 = _ ∧ _
    rcases hloop chars hchars with ⟨hscan, hall⟩ | ⟨hscan, hsome⟩
    · exact .inl ⟨hscan, chars, hchars, hall⟩
    · refine .inr ⟨hscan, ?_⟩
      -- another decoding would have led the loop to another end
      rintro ⟨chars', hchars', hall'⟩
      rcases hloop chars' hchars' with ⟨htrue, -⟩ | ⟨-, hsome'⟩
      · exact absurd (hscan.symm.trans htrue) (by decide)
      · exact hsome' hall'
  · rw [hvalid, ok_bind]
    exact .inr ⟨rfl, fun ⟨chars, hchars, _⟩ => hnot ⟨chars, hchars⟩⟩

/-- `ValidateMemoContent` on any string. -/
theorem validateMemoContent_cases (data : Bytes) :
    let accepted := (1 ≤ data.length ∧ data.length ≤ 80) ∧ ∃ chars : List Char,
      chars.flatMap String.utf8EncodeChar = data ∧ ∀ c ∈ chars, 0x20 ≤ c.val.toNat ∨
        c = '\t' ∨ c = '\n'
    validateMemoContent data = .ok true ∧ accepted ∨ validateMemoContent data = .ok false ∧
      ¬ accepted := by
  intro accepted
  by_cases hlen : data.length = 0 ∨ maxMemoLength < data.length
  · refine .inr ⟨if_pos hlen, fun h => ?_⟩
    change data.length = 0 ∨ 80 < data.length at hlen
    omega
  · have hbounds : 1 ≤ data.length ∧ data.length ≤ 80 := by
      change ¬ (data.length = 0 ∨ 80 < data.length) at hlen
      omega
    rcases validateMemoContent_of_length hlen with ⟨htrue, hchars⟩ | ⟨hfalse, hnone⟩
    · exact .inl ⟨htrue, hbounds, hchars⟩
    · exact .inr ⟨hfalse, fun h => hnone h.2⟩

/-- For every byte string: `IsValidUTF8` reads nothing outside it, returns true exactly on the
concatenations of encodings of characters, and otherwise reports the end of the longest valid
beginning or a place within the sequence that starts there; `ValidateMemoContent` reads nothing
outside it either, and accepts exactly 1 to 80 bytes that encode characters, no control characters
among them but tab and newline. -/
theorem memo_text_spec (data : Bytes) :
    (∃ result, isValidUTF8 data = .ok result) ∧
      (isValidUTF8 data = .ok (.ok ()) ↔
        ∃ chars : List Char, chars.flatMap String.utf8EncodeChar = data) ∧
      (∀ pos, isValidUTF8 data = .ok (.error pos) →
        ∃ n b, Longest data n ∧ data[n]? = some b ∧
          (pos = n ∨ n < pos ∧ pos < n + sequenceLength b ∧ n + sequenceLength b ≤ data.length)) ∧
      (∃ result, validateMemoContent data = .ok result) ∧
      (validateMemoContent data = .ok true ↔
        (1 ≤ data.length ∧ data.length ≤ 80) ∧
          ∃ chars : List Char, chars.flatMap String.utf8EncodeChar = data ∧
            ∀ c ∈ chars, 0x20 ≤ c.val.toNat ∨ c = '\t' ∨ c = '\n') := by
  refine ⟨?_, ?_, fun pos hpos => ?_, ?_, ?_⟩
  · rcases isValidUTF8_cases data with ⟨hvalid, -⟩ | ⟨pos, n, b, hvalid, -⟩
    · exact ⟨_, hvalid⟩
    · exact ⟨_, hvalid⟩
  · rcases isValidUTF8_cases data with ⟨hvalid, hutf8⟩ | ⟨pos, n, b, hvalid, hnot, -⟩
    · exact iff_of_true hvalid hutf8
    · refine iff_of_false ?_ hnot
      rw [hvalid]
      intro h
      cases h
  · rcases isValidUTF8_cases data with ⟨hvalid, -⟩ | ⟨pos', n, b, hvalid, -, hlongest, hb, hplace⟩
    · rw [hvalid] at hpos
      cases hpos
    · rw [hvalid] at hpos
      cases hpos
      exact ⟨n, b, hlongest, hb, hplace⟩
  · rcases validateMemoContent_cases data with ⟨htrue, -⟩ | ⟨hfalse, -⟩
    · exact ⟨true, htrue⟩
    · exact ⟨false, hfalse⟩
  · rcases validateMemoContent_cases data with ⟨htrue, haccepted⟩ | ⟨hfalse, hnot⟩
    · exact iff_of_true htrue haccepted
    · refine iff_of_false ?_ hnot
      rw [hfalse]
      decide

-- the euro sign, a surrogate, and a sequence that breaks off inside
example :
    isValidUTF8 [0xE2, 0x82, 0xAC] = .ok (.ok ()) ∧
      isValidUTF8 [0x41, 0xED, 0xA0, 0x80] = .ok (.error 1) ∧
    isValidUTF8 [0x41, 0xE2, 0x82, 0x41] = .ok (.error 3) := by
  decide

end OpenSY.Memo
