import OpenSY.Script.Grammar
import Mathlib.Tactic.Ring
import Mathlib.Tactic.Linarith

/-!
# Reads of the SRC-20 parser

`ParseSRC20Script` once more, with its offsets, its loops and every access to the payload as a read
that can fail.  No read does, and the result is that of the list model (`parseSRC20Checked_eq`), so
the grammar of accepted scripts is the grammar of the code with its offsets.
-/

namespace OpenSY.Src20

open OpenSY.Chain

inductive ReadError where
  | outOfRange
  deriving DecidableEq

/-- `data[i]` -/
def byteAt (data : Bytes) (i : ℕ) : Except ReadError UInt8 :=
  match data[i]? with
  | some b => .ok b
  | none => .error .outOfRange

/-- The bytes from `data.begin() + offset` to `data.begin() + offset + n`. -/
def bytesAt (data : Bytes) (offset n : ℕ) : Except ReadError Bytes :=
  if data.length < offset + n then .error .outOfRange else .ok ((data.drop offset).take n)

/-- The loop over a zero-padded slot, from index `i` on, with `n` bytes of the slot left. -/
def readText (data : Bytes) (i : ℕ) : ℕ → Except ReadError Bytes
  | 0 => .ok []
  | n + 1 =>
    if i < data.length then do
      let b ← byteAt data i
      if b = 0 then .ok []
      else do
        let text ← readText data (i + 1) n
        .ok (b :: text)
    else .ok []

/-- The loop over the bytes of a number, from its `i`-th byte on, with `n` bytes left. -/
def readNumber (data : Bytes) (offset i value : ℕ) : ℕ → Except ReadError ℕ
  | 0 => .ok value
  | n + 1 => do
    let b ← byteAt data offset
    readNumber data (offset + 1) (i + 1) (value ||| b.toNat <<< (i * 8)) n

def parseIssuanceChecked (data : Bytes) (offset : ℕ) : Except ReadError (Option TokenIssuance) :=
  if data.length < offset + 4 then .ok none
  else do
    let ticker ← readText data offset maxTickerLength
    let offset := offset + maxTickerLength
    if data.length < offset + maxNameLength then .ok none
    else do
      let name ← readText data offset maxNameLength
      let offset := offset + maxNameLength
      if data.length < offset + 1 + 8 + 32 then .ok none
      else do
        let decimals ← byteAt data offset
        let totalSupply ← readNumber data (offset + 1) 0 0 8
        let hash ← bytesAt data (offset + 9) 32
        .ok (some ⟨ticker, name, decimals.toNat, totalSupply, uint256OfBytes hash⟩)

def parseMoveChecked (data : Bytes) (offset : ℕ) : Except ReadError (Option (TokenId × ℕ)) :=
  if data.length < offset + 32 + 8 then .ok none
  else do
    let hash ← bytesAt data offset 32
    let amount ← readNumber data (offset + 32) 0 0 8
    .ok (some (uint256OfBytes hash, amount))

def parseSRC20Checked (reserved : List Bytes) (script : CScript) :
    Except ReadError (Option SRC20Operation) :=
  let data := getOpReturnData script
  if data.length < 7 then .ok none
  else do
    let id ← bytesAt data 0 src20ProtocolId.length
    if id ≠ src20ProtocolId then .ok none
    else do
      let offset := src20ProtocolId.length
      let version ← byteAt data offset
      if version < src20MinSupportedVersion ∨ src20MaxSupportedVersion < version then .ok none
      else do
        let byte ← byteAt data (offset + 1)
        let action := actionFromByte byte
        let offset := offset + 2
        match action with
        | .invalid => .ok none
        | .issue => do
          let parsed ← parseIssuanceChecked data offset
          .ok (parsed.bind fun x => if x.isValid reserved then some ⟨action, .issuance x⟩ else none)
        | .transfer => do
          let parsed ← parseMoveChecked data offset
          .ok (parsed.bind fun p =>
            if isValidMove p.1 p.2 then some ⟨action, .transfer ⟨p.1, p.2⟩⟩ else none)
        | .burn => do
          let parsed ← parseMoveChecked data offset
          .ok (parsed.bind fun p =>
            if isValidMove p.1 p.2 then some ⟨action, .burn ⟨p.1, p.2⟩⟩ else none)

/-! ### Every read succeeds -/

@[simp] theorem ok_bind {α β : Type} (a : α) (f : α → Except ReadError β) :
    (Except.ok a >>= f) = f a := rfl

theorem byteAt_eq {data : Bytes} {i : ℕ} (h : i < data.length) :
    byteAt data i = .ok (data.getD i 0) := by
  simp [byteAt, List.getElem?_eq_getElem h, List.getD_eq_getElem?_getD]

theorem bytesAt_eq {data : Bytes} {offset n : ℕ} (h : ¬ data.length < offset + n) :
    bytesAt data offset n = .ok ((data.drop offset).take n) := if_neg h

theorem drop_eq_byte_cons {data : Bytes} {i : ℕ} (h : i < data.length) :
    data.drop i = data.getD i 0 :: data.drop (i + 1) := by
  rw [List.drop_eq_getElem_cons h, List.getD_eq_getElem?_getD, List.getElem?_eq_getElem h,
    Option.getD_some]

theorem readText_eq (data : Bytes) (i n : ℕ) :
    readText data i n = .ok (untilNull ((data.drop i).take n)) := by
  induction n generalizing i with
  | zero => rfl
  | succ n ih =>
    unfold readText
    split_ifs with hi
    · rw [byteAt_eq hi, drop_eq_byte_cons hi, List.take_succ_cons]
      generalize data.getD i 0 = b
      by_cases hb : b = 0
      · subst hb
        rfl
      · rw [untilNull_cons hb]
        show (if b = 0 then _ else _) = _
        rw [if_neg hb, ih]
        rfl
    · rw [List.drop_eq_nil_of_le (Nat.not_lt.mp hi)]
      rfl

/-- The bytes read so far stay below the ones still to come. -/
theorem readNumber_eq (data : Bytes) {offset n : ℕ} (h : offset + n ≤ data.length) {i value : ℕ}
    (hvalue : value < 2 ^ (i * 8)) :
    readNumber data offset i value n =
      .ok (value + 2 ^ (i * 8) * readLE ((data.drop offset).take n)) := by
  induction n generalizing offset i value with
  | zero => simp [readNumber, readLE]
  | succ n ih =>
    have hi : offset < data.length := by omega
    rw [drop_eq_byte_cons hi, List.take_succ_cons, readLE]
    unfold readNumber
    rw [byteAt_eq hi]
    generalize data.getD offset 0 = b
    have hb : b.toNat < 256 := b.toNat_lt
    have hor : value ||| b.toNat <<< (i * 8) = value + b.toNat * 2 ^ (i * 8) := by
      rw [Nat.or_comm, ← Nat.shiftLeft_add_eq_or_of_lt hvalue, Nat.shiftLeft_eq, Nat.add_comm]
    have hpow : 2 ^ ((i + 1) * 8) = 2 ^ (i * 8) * 256 := by
      rw [Nat.add_mul, pow_add]
      rfl
    have hnext : value + b.toNat * 2 ^ (i * 8) < 2 ^ ((i + 1) * 8) := by
      rw [hpow]
      nlinarith
    rw [ok_bind, hor, ih (by omega) hnext, hpow]
    congr 1
    ring

theorem readNumber_eq_readLE {data : Bytes} {offset n : ℕ} (h : offset + n ≤ data.length) :
    readNumber data offset 0 0 n = .ok (readLE ((data.drop offset).take n)) := by
  rw [readNumber_eq data h (by decide), Nat.zero_mul, pow_zero, Nat.one_mul, Nat.zero_add]

theorem parseIssuanceChecked_eq (data : Bytes) (offset : ℕ) :
    parseIssuanceChecked data offset = .ok (parseIssuance data offset) := by
  simp only [parseIssuanceChecked, parseIssuance, readText_eq, ok_bind]
  split_ifs with hticker hname hrest
  · rfl
  · rfl
  · rfl
  · rw [byteAt_eq (by omega), readNumber_eq_readLE (by omega), bytesAt_eq (by omega)]
    rfl

theorem parseMoveChecked_eq (data : Bytes) (offset : ℕ) :
    parseMoveChecked data offset = .ok (parseMove data offset) := by
  unfold parseMoveChecked parseMove
  split_ifs with hshort
  · rfl
  · rw [bytesAt_eq (by omega), readNumber_eq_readLE (by omega)]
    rfl

/-- **No script makes the parser read outside the payload**, and with its reads checked it returns
the same. -/
theorem parseSRC20Checked_eq (reserved : List Bytes) (script : CScript) :
    parseSRC20Checked reserved script = .ok (parseSRC20Script reserved script) := by
  simp only [parseSRC20Checked, parseSRC20Script]
  generalize getOpReturnData script = data
  have hid : src20ProtocolId.length = 5 := rfl
  by_cases hlen : data.length < 7
  · rw [if_pos hlen, if_pos hlen]
  rw [if_neg hlen, if_neg hlen, bytesAt_eq (by omega), List.drop_zero, ok_bind]
  rw [byteAt_eq (show src20ProtocolId.length < data.length by omega),
    byteAt_eq (show src20ProtocolId.length + 1 < data.length by omega), ok_bind, ok_bind]
  split_ifs with hprotocol hversion
  · rfl
  · rfl
  cases actionFromByte (data.getD (src20ProtocolId.length + 1) 0) with
  | invalid => rfl
  | issue =>
    simp only [parseIssuanceChecked_eq, ok_bind]
    cases parseIssuance data (src20ProtocolId.length + 2) <;> rfl
  | transfer =>
    simp only [parseMoveChecked_eq, ok_bind]
    cases parseMove data (src20ProtocolId.length + 2) <;> rfl
  | burn =>
    simp only [parseMoveChecked_eq, ok_bind]
    cases parseMove data (src20ProtocolId.length + 2) <;> rfl

/-- **The parser accepts exactly its grammar** and reads nothing but the payload. -/
theorem src20_parser_accepts_grammar (reserved : List Bytes) (script : CScript) :
    parseSRC20Checked reserved script = .ok (parseSRC20Script reserved script) ∧
    ∀ op, parseSRC20Script reserved script = some op ↔ SRC20Grammar reserved op script :=
  ⟨parseSRC20Checked_eq reserved script, fun _ => parseSRC20Script_eq_some_iff⟩

end OpenSY.Src20
