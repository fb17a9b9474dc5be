import Mathlib.Data.List.Basic
import Mathlib.Tactic.SplitIfs

/-!
# UTF-8

The encoding of Unicode scalar values in the terms of its bytes, after the table of RFC 3629.

* `Sequence.exists_char`, `sequence_utf8EncodeChar`: the byte sequences of the table are the
  encodings of characters, each of one character.
* `IsUtf8` is the concatenation of such encodings; `isUtf8_append_iff`: a sequence at the front can
  be taken off.
* `Longest text n`: the longest valid beginning of the text has `n` bytes.  `longest_zero` and
  `Longest.append` give it along a scan from the front.
-/

namespace OpenSY.Utf8

/-! ### One character -/

/-- A byte `10xxxxxx`. -/
def Continuation (b : UInt8) : Prop := 0x80 ≤ b.toNat ∧ b.toNat < 0xC0

instance (b : UInt8) : Decidable (Continuation b) := inferInstanceAs (Decidable (_ ∧ _))

/-- The byte sequences of one character, by length.  A second byte is restricted where the sequence
would encode a smaller number than its length needs, a surrogate, or a number past the last
character. -/
inductive Sequence : List UInt8 → Prop
  | one {a : UInt8} (lead : a.toNat < 0x80) : Sequence [a]
  | two {a b : UInt8} (lead : 0xC2 ≤ a.toNat ∧ a.toNat < 0xE0)
      (second : Continuation b) : Sequence [a, b]
  | three {a b c : UInt8} (lead : 0xE0 ≤ a.toNat ∧ a.toNat < 0xF0) (second : Continuation b)
      (third : Continuation c) (overlong : a.toNat = 0xE0 → 0xA0 ≤ b.toNat)
      (surrogate : a.toNat = 0xED → b.toNat < 0xA0) : Sequence [a, b, c]
  | four {a b c d : UInt8} (lead : 0xF0 ≤ a.toNat ∧ a.toNat < 0xF5) (second : Continuation b)
      (third : Continuation c) (fourth : Continuation d)
      (overlong : a.toNat = 0xF0 → 0x90 ≤ b.toNat)
      (beyond : a.toNat = 0xF4 → b.toNat < 0x90) : Sequence [a, b, c, d]

/-- The number of bytes that a first byte announces; none for a byte that cannot be a first one. -/
def sequenceLength (a : UInt8) : ℕ :=
  if a.toNat < 0x80 then 1
  else if a.toNat < 0xC0 then 0
  else if a.toNat < 0xE0 then 2
  else if a.toNat < 0xF0 then 3
  else if a.toNat < 0xF8 then 4
  else 0

theorem Sequence.length_eq {a : UInt8} {rest : List UInt8} (h : Sequence (a :: rest)) :
    (a :: rest).length = sequenceLength a := by
  rw [sequenceLength]
  cases h with
  | one lead => rw [if_pos lead]; rfl
  | two lead => rw [if_neg (by omega), if_neg (by omega), if_pos lead.2]; rfl
  | three lead => rw [if_neg (by omega), if_neg (by omega), if_neg (by omega), if_pos lead.2]; rfl
  | four lead =>
    rw [if_neg (by omega), if_neg (by omega), if_neg (by omega), if_neg (by omega),
      if_pos (by omega)]
    rfl

theorem Sequence.ne_nil {s : List UInt8} (h : Sequence s) : s ≠ [] := by
  rintro rfl
  cases h

/-- Two sequences at the front of one text are the same. -/
theorem Sequence.eq_of_append {s s' rest rest' : List UInt8} (h : Sequence s) (h' : Sequence s')
    (heq : s ++ rest = s' ++ rest') : s = s' ∧ rest = rest' := by
  obtain ⟨a, tail, rfl⟩ := List.exists_cons_of_ne_nil h.ne_nil
  obtain ⟨a', tail', rfl⟩ := List.exists_cons_of_ne_nil h'.ne_nil
  have hhead : a = a' := (List.cons.inj heq).1
  refine List.append_inj heq ?_
  rw [h.length_eq, h'.length_eq, hhead]

/-- A text begins with a sequence exactly where the bytes that its first one announces are there and
are one. -/
theorem exists_sequence_iff (a : UInt8) (tail : List UInt8) :
    (∃ s rest, Sequence s ∧ a :: tail = s ++ rest)
      ↔ sequenceLength a ≤ (a :: tail).length ∧ Sequence ((a :: tail).take (sequenceLength a)) := by
  constructor
  · rintro ⟨s, rest, hs, h⟩
    obtain ⟨a', tail', rfl⟩ := List.exists_cons_of_ne_nil hs.ne_nil
    obtain rfl : a = a' := (List.cons.inj h).1
    rw [h, ← hs.length_eq, List.take_left, List.length_append]
    exact ⟨Nat.le_add_right _ _, hs⟩
  · rintro ⟨-, hs⟩
    exact ⟨_, _, hs, (List.take_append_drop _ _).symm⟩

/-- A scalar value is the number of a character. -/
theorem exists_char {v : ℕ} (h : v < 0xD800 ∨ 0xDFFF < v ∧ v < 0x110000) :
    ∃ c : Char, c.val.toNat = v :=
  ⟨Char.ofNatAux v h, rfl⟩

theorem ofNat_eq {n : ℕ} {b : UInt8} (h : n = b.toNat) : UInt8.ofNat n = b := by
  rw [h, UInt8.ofNat_toNat]

theorem Sequence.exists_char {s : List UInt8} (h : Sequence s) :
    ∃ c, String.utf8EncodeChar c = s := by
  cases h with
  | @one a lead =>
    obtain ⟨c, hc⟩ := Utf8.exists_char (v := a.toNat) (by omega)
    refine ⟨c, ?_⟩
    simp only [String.utf8EncodeChar, hc]
    rw [if_pos (by omega), ofNat_eq rfl]
  | @two a b lead second =>
    obtain ⟨hb, hb'⟩ := second
    obtain ⟨c, hc⟩ := Utf8.exists_char (v := (a.toNat - 0xC0) * 64 + (b.toNat - 0x80)) (by omega)
    refine ⟨c, ?_⟩
    simp only [String.utf8EncodeChar, hc]
    rw [if_neg (by omega), if_pos (by omega), ofNat_eq (b := a) (by omega),
      ofNat_eq (b := b) (by omega)]
  | @three a b c lead second third overlong surrogate =>
    obtain ⟨hb, hb'⟩ := second
    obtain ⟨hc, hc'⟩ := third
    obtain ⟨x, hx⟩ := Utf8.exists_char
      (v := (a.toNat - 0xE0) * 4096 + (b.toNat - 0x80) * 64 + (c.toNat - 0x80)) (by omega)
    refine ⟨x, ?_⟩
    simp only [String.utf8EncodeChar, hx]
    rw [if_neg (by omega), if_neg (by omega), if_pos (by omega), ofNat_eq (b := a) (by omega),
      ofNat_eq (b := b) (by omega), ofNat_eq (b := c) (by omega)]
  | @four a b c d lead second third fourth overlong beyond =>
    obtain ⟨hb, hb'⟩ := second
    obtain ⟨hc, hc'⟩ := third
    obtain ⟨hd, hd'⟩ := fourth
    obtain ⟨x, hx⟩ := Utf8.exists_char
      (v := (a.toNat - 0xF0) * 262144 + (b.toNat - 0x80) * 4096 + (c.toNat - 0x80) * 64 +
        (d.toNat - 0x80))
      (by omega)
    refine ⟨x, ?_⟩
    simp only [String.utf8EncodeChar, hx]
    rw [if_neg (by omega), if_neg (by omega), if_neg (by omega), ofNat_eq (b := a) (by omega),
      ofNat_eq (b := b) (by omega), ofNat_eq (b := c) (by omega), ofNat_eq (b := d) (by omega)]

/-- The bound as a numeral, for `omega`. -/
theorem toNat_ofNat {n : ℕ} (h : n < 256) : (UInt8.ofNat n).toNat = n := UInt8.toNat_ofNat_of_lt' h

theorem continuation_ofNat (n : ℕ) : Continuation (UInt8.ofNat (n % 64 + 128)) := by
  rw [Continuation, toNat_ofNat (by omega)]
  omega

theorem sequence_utf8EncodeChar (c : Char) : Sequence (String.utf8EncodeChar c) := by
  have hvalid : c.val.toNat < 0xD800 ∨ 0xDFFF < c.val.toNat ∧ c.val.toNat < 0x110000 := c.valid
  simp only [String.utf8EncodeChar]
  generalize c.val.toNat = v at hvalid
  split_ifs with h₁ h₂ h₃
  · exact .one (by rw [toNat_ofNat (by omega)]; omega)
  · exact .two (by rw [toNat_ofNat (by omega)]; omega) (continuation_ofNat _)
  · refine .three (by rw [toNat_ofNat (by omega)]; omega) (continuation_ofNat _)
      (continuation_ofNat _) ?_ ?_
    · rw [toNat_ofNat (by omega), toNat_ofNat (by omega)]
      omega
    · rw [toNat_ofNat (by omega), toNat_ofNat (by omega)]
      omega
  · refine .four (by rw [toNat_ofNat (by omega)]; omega) (continuation_ofNat _)
      (continuation_ofNat _) (continuation_ofNat _) ?_ ?_
    · rw [toNat_ofNat (by omega), toNat_ofNat (by omega)]
      omega
    · rw [toNat_ofNat (by omega), toNat_ofNat (by omega)]
      omega

/-! ### Texts -/

/-- The encoding of a list of characters. -/
def encode (chars : List Char) : List UInt8 := chars.flatMap String.utf8EncodeChar

/-- The bytes are the encoding of some characters. -/
def IsUtf8 (text : List UInt8) : Prop := ∃ chars, encode chars = text

theorem isUtf8_nil : IsUtf8 [] := ⟨[], rfl⟩

theorem encode_cons (c : Char) (chars : List Char) :
    encode (c :: chars) = String.utf8EncodeChar c ++ encode chars := List.flatMap_cons

/-- A text is empty, or begins with a sequence that a text follows. -/
theorem isUtf8_iff (text : List UInt8) :
    IsUtf8 text ↔ text = [] ∨ ∃ s rest, Sequence s ∧ text = s ++ rest ∧ IsUtf8 rest := by
  constructor
  · rintro ⟨chars, rfl⟩
    cases chars with
    | nil => exact .inl rfl
    | cons c chars => exact .inr ⟨_, _, sequence_utf8EncodeChar c, encode_cons c chars, chars, rfl⟩
  · rintro (rfl | ⟨s, rest, hs, rfl, chars, rfl⟩)
    · exact isUtf8_nil
    · obtain ⟨c, rfl⟩ := hs.exists_char
      exact ⟨c :: chars, encode_cons c chars⟩

theorem isUtf8_append_iff {s : List UInt8} (hs : Sequence s) (rest : List UInt8) :
    IsUtf8 (s ++ rest) ↔ IsUtf8 rest := by
  constructor
  · intro h
    rcases (isUtf8_iff _).mp h with hnil | ⟨s', rest', hs', heq, hrest'⟩
    · exact absurd (List.append_eq_nil_iff.mp hnil).1 hs.ne_nil
    · rw [(hs.eq_of_append hs' heq).2]
      exact hrest'
  · intro h
    exact (isUtf8_iff _).mpr (.inr ⟨s, rest, hs, rfl, h⟩)

/-! ### The longest valid beginning -/

/-- No longer beginning of the text is valid than its first `n` bytes, which are. -/
structure Longest (text : List UInt8) (n : ℕ) : Prop where
  le_length : n ≤ text.length
  valid : IsUtf8 (text.take n)
  longest : ∀ k ≤ text.length, IsUtf8 (text.take k) → k ≤ n

/-- A text that does not begin with a sequence has no valid beginning but the empty one. -/
theorem longest_zero {text : List UInt8} (h : ∀ s rest, Sequence s → text ≠ s ++ rest) :
    Longest text 0 where
  le_length := Nat.zero_le _
  valid := isUtf8_nil
  longest := by
    intro k hk hvalid
    rcases (isUtf8_iff _).mp hvalid with hnil | ⟨s, rest, hs, heq, -⟩
    · have hlen := congrArg List.length hnil
      rw [List.length_take_of_le hk] at hlen
      exact Nat.le_of_eq hlen
    · refine absurd ?_ (h s (rest ++ text.drop k) hs)
      rw [← List.append_assoc, ← heq, List.take_append_drop]

/-- A sequence in front makes the longest valid beginning that much longer. -/
theorem Longest.append {s rest : List UInt8} {n : ℕ} (hs : Sequence s) (h : Longest rest n) :
    Longest (s ++ rest) (s.length + n) where
  le_length := by
    rw [List.length_append]
    exact Nat.add_le_add_left h.le_length _
  valid := by
    rw [List.take_length_add_append, isUtf8_append_iff hs]
    exact h.valid
  longest := by
    intro k hk hvalid
    by_cases hshort : k < s.length
    · omega
    · obtain ⟨m, rfl⟩ := Nat.exists_eq_add_of_le (Nat.not_lt.mp hshort)
      rw [List.take_length_add_append, isUtf8_append_iff hs] at hvalid
      rw [List.length_append] at hk
      exact Nat.add_le_add_left (h.longest m (by omega) hvalid) _

end OpenSY.Utf8
