import OpenSY.Script.Codec
import OpenSY.Script.MemoText

/-!
# Memo scripts

The memos of `script/memo.h`: an `OP_RETURN` that pushes the protocol id, a version, a type and the
content. The creating functions check the content, the parser has checks of its own.

* `parseMemoScript_eq`: what the parser makes of a payload.
* `memo_round_trip`: what was created is parsed as it was, and found in a transaction.
* `parsed_memo_wellFormed_iff`: the parser reports more as valid than can be created; the scripts
  for which it does not.
-/

namespace OpenSY.Memo

open OpenSY.Chain OpenSY.Utf8
open OpenSY.Src20 (Push pushData_push getScriptOp_push)

/-- `PROTOCOL_ID`, "SYMO" -/
def protocolId : Bytes := [0x53, 0x59, 0x4d, 0x4f]

def currentVersion : UInt8 := 0x01

/-- `HEADER_SIZE`: protocol id and version. -/
def headerSize : ℕ := 5

/-- `MemoType`: its underlying type is a byte, and the parser casts any byte to it. -/
structure MemoType where
  byte : UInt8
deriving DecidableEq

namespace MemoType

def text : MemoType := ⟨0x01⟩
def invoice : MemoType := ⟨0x02⟩
def receipt : MemoType := ⟨0x03⟩
def metadata : MemoType := ⟨0x04⟩
def tagged : MemoType := ⟨0x10⟩

/-- The types whose content is text. -/
def isTextual (type : MemoType) : Bool := type = text ∨ type = invoice ∨ type = receipt

/-- The enumerators. -/
def defined : List MemoType := [text, invoice, receipt, metadata, tagged]

end MemoType

structure ParsedMemo where
  version : UInt8
  type : MemoType
  content : Bytes
  rawData : Bytes
  isValid : Bool
  error : String
deriving DecidableEq

/-- `ParsedMemo()` -/
def ParsedMemo.new : ParsedMemo := ⟨0, .text, [], [], false, ""⟩

/-- A script that was created, and the size of its payload. -/
structure MemoScript where
  script : CScript
  dataSize : ℕ
deriving DecidableEq

/-! ### Creating -/

/-- The payload of a memo. -/
def payload (version : UInt8) (type : MemoType) (content : Bytes) : Bytes :=
  protocolId ++ version :: type.byte :: content

/-- `CScript() << OP_RETURN << data` -/
def memoScript (data : Bytes) : MemoScript := ⟨pushData [opReturn] data, data.length⟩

/-- The place that `IsValidUTF8` reports, if it returns false. -/
def utf8Error (data : Bytes) : Option ℕ :=
  match isValidUTF8 data with
  | .ok (.error pos) => some pos
  | _ => none

/-- The script, or the error text. -/
def createTypedMemoScript (memo : Bytes) (type : MemoType) : Except String MemoScript :=
  if memo.length = 0 then .error "Memo cannot be empty"
  else if maxMemoLength < memo.length then
    .error ("Memo exceeds maximum length of " ++ toString maxMemoLength ++ " bytes")
  else
    match if type.isTextual then utf8Error memo else none with
    | some errPos => .error ("Memo contains invalid UTF-8 at byte " ++ toString errPos)
    | none => .ok (memoScript (payload currentVersion type memo))

def createMemoScript (memo : Bytes) : Except String MemoScript := createTypedMemoScript memo .text

def createRawMemoScript (data : Bytes) (type : MemoType) : Except String MemoScript :=
  if data.length = 0 then .error "Data cannot be empty"
  else if maxMemoLength < data.length then .error "Data exceeds maximum length"
  else .ok (memoScript (payload currentVersion type data))

/-! ### Parsing -/

/-- The bytes that the instruction behind the `OP_RETURN` pushes, if `GetOp` can read it. -/
def pushedData (script : CScript) : Option Bytes :=
  (getScriptOp (script.drop 1)).map fun op => op.2.1

def isMemoScript (script : CScript) : Bool :=
  if script.length < 2 ∨ script.head? ≠ some opReturn then false
  else
    match pushedData script with
    | none => false
    | some data => !(data.length < headerSize + 2) && data.take protocolId.length = protocolId

def parseMemoScript (script : CScript) : ParsedMemo :=
  if !isMemoScript script then { ParsedMemo.new with error := "Not a valid memo script" }
  else
    let data := (pushedData script).getD []
    let result := { ParsedMemo.new with version := data.getD protocolId.length 0 }
    if result.version > currentVersion then { result with error := "Unsupported memo version" }
    else
      let result := { result with type := ⟨data.getD headerSize 0⟩ }
      let contentStart := headerSize + 1
      let result :=
        if contentStart < data.length then
          let result := { result with rawData := data.drop contentStart }
          if result.type.isTextual then { result with content := result.rawData } else result
        else result
      { result with isValid := true }

/-- The first output with a valid memo. -/
def extractMemoFromTx (tx : CTransaction) : Option ParsedMemo :=
  tx.vout.findSome? fun output =>
    if isMemoScript output.scriptPubKey then
      let memo := parseMemoScript output.scriptPubKey
      if memo.isValid then some memo else none
    else none

/-! ### What is parsed -/

/-- The script pushes a payload with these fields. -/
def Carries (script : CScript) (version : UInt8) (type : MemoType) (content : Bytes) : Prop :=
  2 ≤ script.length ∧ script.head? = some opReturn ∧
    pushedData script = some (payload version type content)

theorem payload_length (version : UInt8) (type : MemoType) (content : Bytes) :
    (payload version type content).length = headerSize + 1 + content.length := by
  rw [payload, List.length_append, List.length_cons, List.length_cons]
  show 4 + (content.length + 1 + 1) = 5 + 1 + content.length
  omega

theorem payload_inj {version version' : UInt8} {type type' : MemoType} {content content' : Bytes}
    (h : payload version type content = payload version' type' content') :
    version = version' ∧ type = type' ∧ content = content' := by
  have htail := List.append_cancel_left h
  obtain ⟨hversion, htail⟩ := List.cons.inj htail
  obtain ⟨htype, hcontent⟩ := List.cons.inj htail
  refine ⟨hversion, ?_, hcontent⟩
  cases type
  cases type'
  exact congrArg MemoType.mk htype

/-- A script carries one payload. -/
theorem Carries.unique {script : CScript} {version version' : UInt8} {type type' : MemoType}
    {content content' : Bytes} (h : Carries script version type content)
    (h' : Carries script version' type' content') :
    version = version' ∧ type = type' ∧ content = content' :=
  payload_inj (Option.some.inj (h.2.2.symm.trans h'.2.2))

/-- Seven bytes that start with the protocol id are a payload with some content. -/
theorem exists_payload {data : Bytes} (hlen : headerSize + 2 ≤ data.length)
    (hid : data.take protocolId.length = protocolId) :
    ∃ version type content, data = payload version type content ∧ content ≠ [] := by
  change 7 ≤ data.length at hlen
  have hsplit := List.take_append_drop protocolId.length data
  rw [hid] at hsplit
  have hdrop : (data.drop protocolId.length).length = data.length - 4 := List.length_drop
  obtain ⟨version, tail, htail⟩ := List.exists_cons_of_length_pos
    (show 0 < (data.drop protocolId.length).length by omega)
  rw [htail, List.length_cons] at hdrop
  obtain ⟨type, content, rfl⟩ := List.exists_cons_of_length_pos (show 0 < tail.length by omega)
  rw [List.length_cons] at hdrop
  refine ⟨version, ⟨type⟩, content, ?_, List.ne_nil_of_length_pos (by omega)⟩
  rw [← hsplit, htail]
  rfl

/-- `IsMemoScript` accepts the scripts that carry a payload with some content. -/
theorem isMemoScript_iff (script : CScript) :
    isMemoScript script = true ↔ ∃ version type content, Carries script version type content ∧
      content ≠ [] := by
  constructor
  · intro h
    rw [isMemoScript] at h
    by_cases hhead : script.length < 2 ∨ script.head? ≠ some opReturn
    · rw [if_pos hhead] at h
      cases h
    rw [if_neg hhead] at h
    obtain ⟨hlen, hreturn⟩ := not_or.mp hhead
    cases hdata : pushedData script with
    | none =>
      rw [hdata] at h
      cases h
    | some data =>
      rw [hdata] at h
      simp only [Bool.and_eq_true, Bool.not_eq_true', decide_eq_false_iff_not,
        decide_eq_true_eq] at h
      obtain ⟨version, type, content, rfl, hcontent⟩ := exists_payload (Nat.not_lt.mp h.1) h.2
      exact ⟨version, type, content, ⟨Nat.not_lt.mp hlen, not_not.mp hreturn, hdata⟩, hcontent⟩
  · rintro ⟨version, type, content, ⟨hlen, hreturn, hdata⟩, hcontent⟩
    have hpos := List.length_pos_of_ne_nil hcontent
    have hlong : ¬ (payload version type content).length < headerSize + 2 := by
      rw [payload_length]
      omega
    have hhead : ¬ (script.length < 2 ∨ script.head? ≠ some opReturn) :=
      not_or.mpr ⟨Nat.not_lt.mpr hlen, not_not.mpr hreturn⟩
    rw [isMemoScript, if_neg hhead, hdata]
    simp only [hlong, decide_false, Bool.not_false, Bool.true_and, decide_eq_true_eq]
    rfl

/-- What the parser makes of a payload with some content. -/
theorem parseMemoScript_eq {script : CScript} {version : UInt8} {type : MemoType} {content : Bytes}
    (h : Carries script version type content) (hcontent : content ≠ []) :
    parseMemoScript script =
      if version > currentVersion then ⟨version, .text, [], [], false, "Unsupported memo version"⟩
      else ⟨version, type, if type.isTextual then content else [], content, true, ""⟩ := by
  have hmemo := (isMemoScript_iff script).mpr ⟨version, type, content, h, hcontent⟩
  have hpos := List.length_pos_of_ne_nil hcontent
  have hlong : headerSize + 1 < (payload version type content).length := by
    rw [payload_length]
    omega
  rw [parseMemoScript, hmemo, if_neg (by decide), h.2.2]
  show (if version > currentVersion then _ else _) = _
  by_cases hversion : version > currentVersion
  · rw [if_pos hversion, if_pos hversion]
    rfl
  · rw [if_neg hversion, if_neg hversion]
    have hfields : (payload version type content).getD protocolId.length 0 = version ∧
        (⟨(payload version type content).getD headerSize 0⟩ : MemoType) = type ∧
        (payload version type content).drop (headerSize + 1) = content := ⟨rfl, rfl, rfl⟩
    simp only [Option.getD_some, if_pos hlong, hfields.1, hfields.2.1, hfields.2.2]
    by_cases htext : type.isTextual = true
    · rw [if_pos htext, if_pos htext]
      rfl
    · rw [if_neg htext, if_neg htext]
      rfl

/-- Valid are the payloads with some content whose version is at most the current one. -/
theorem parseMemoScript_isValid_iff (script : CScript) :
    (parseMemoScript script).isValid = true ↔
      ∃ version type content, Carries script version type content ∧ content ≠ [] ∧
        version ≤ currentVersion := by
  by_cases hmemo : isMemoScript script = true
  · obtain ⟨version, type, content, hcarries, hcontent⟩ := (isMemoScript_iff script).mp hmemo
    rw [parseMemoScript_eq hcarries hcontent]
    by_cases hversion : version > currentVersion
    · rw [if_pos hversion]
      refine iff_of_false Bool.false_ne_true ?_
      rintro ⟨version', type', content', hcarries', -, hle⟩
      rw [(hcarries'.unique hcarries).1] at hle
      exact UInt8.not_le.mpr hversion hle
    · rw [if_neg hversion]
      exact iff_of_true rfl ⟨version, type, content, hcarries, hcontent, UInt8.not_lt.mp hversion⟩
  · rw [parseMemoScript, if_pos (Bool.not_eq_true' _ ▸ Bool.eq_false_of_not_eq_true hmemo)]
    refine iff_of_false Bool.false_ne_true ?_
    rintro ⟨version, type, content, hcarries, hcontent, -⟩
    exact hmemo ((isMemoScript_iff script).mpr ⟨version, type, content, hcarries, hcontent⟩)

/-! ### Round trip -/

/-- A created script carries its payload. -/
theorem carries_memoScript (version : UInt8) (type : MemoType) {content : Bytes}
    (hlen : content.length ≤ 0xff) :
    Carries (memoScript (payload version type content)).script version type content := by
  have hsize : (payload version type content).length = 5 + 1 + content.length :=
    payload_length version type content
  obtain ⟨push, hpush, hscript⟩ := pushData_push [opReturn]
    (show 0 < (payload version type content).length by omega) (by omega)
  obtain ⟨opcode, -, hget⟩ := getScriptOp_push hpush []
  have hpos : 0 < push.length := by
    cases hpush with
    | direct => exact Nat.succ_pos _
    | sized => exact Nat.succ_pos _
  rw [memoScript, hscript]
  refine ⟨?_, rfl, ?_⟩
  · rw [List.singleton_append, List.length_cons]
    omega
  · rw [pushedData, List.singleton_append, List.drop_one, List.tail_cons,
      ← List.append_nil push, hget]
    rfl

theorem createTypedMemoScript_ok {memo : Bytes} {type : MemoType} {result : MemoScript}
    (h : createTypedMemoScript memo type = .ok result) :
    memo ≠ [] ∧ memo.length ≤ maxMemoLength ∧
      result = memoScript (payload currentVersion type memo) := by
  rw [createTypedMemoScript] at h
  by_cases hempty : memo.length = 0
  · rw [if_pos hempty] at h
    cases h
  rw [if_neg hempty] at h
  by_cases hlong : maxMemoLength < memo.length
  · rw [if_pos hlong] at h
    cases h
  rw [if_neg hlong] at h
  refine ⟨List.ne_nil_of_length_pos (Nat.pos_of_ne_zero hempty), Nat.not_lt.mp hlong, ?_⟩
  cases hutf8 : (if type.isTextual then utf8Error memo else none) with
  | some pos =>
    rw [hutf8] at h
    cases h
  | none =>
    rw [hutf8] at h
    exact (Except.ok.inj h).symm

theorem createRawMemoScript_ok {data : Bytes} {type : MemoType} {result : MemoScript}
    (h : createRawMemoScript data type = .ok result) :
    data ≠ [] ∧ data.length ≤ maxMemoLength ∧
      result = memoScript (payload currentVersion type data) := by
  rw [createRawMemoScript] at h
  by_cases hempty : data.length = 0
  · rw [if_pos hempty] at h
    cases h
  rw [if_neg hempty] at h
  by_cases hlong : maxMemoLength < data.length
  · rw [if_pos hlong] at h
    cases h
  rw [if_neg hlong] at h
  exact ⟨List.ne_nil_of_length_pos (Nat.pos_of_ne_zero hempty), Nat.not_lt.mp hlong,
    (Except.ok.inj h).symm⟩

/-- The first output with a memo script decides, if its memo is valid. -/
theorem extractMemoFromTx_eq {tx : CTransaction} {front back : List CTxOut} {out : CTxOut}
    (hvout : tx.vout = front ++ out :: back)
    (hfront : ∀ o ∈ front, isMemoScript o.scriptPubKey = false)
    (hmemo : isMemoScript out.scriptPubKey = true)
    (hvalid : (parseMemoScript out.scriptPubKey).isValid = true) :
    extractMemoFromTx tx = some (parseMemoScript out.scriptPubKey) := by
  rw [extractMemoFromTx, hvout, List.findSome?_append, List.findSome?_eq_none_iff.mpr,
    Option.none_or, List.findSome?_cons, if_pos hmemo]
  · simp only [hvalid, if_true]
  · intro o ho
    rw [hfront o ho]
    rfl

/-- What a parser has to say about a script that was created from `content`. -/
def ParsedAs (script : CScript) (type : MemoType) (content : Bytes) : Prop :=
  (parseMemoScript script).isValid = true ∧ (parseMemoScript script).version = 1 ∧
    (parseMemoScript script).type = type ∧ (parseMemoScript script).rawData = content ∧
    (type = .text ∨ type = .invoice ∨ type = .receipt →
      (parseMemoScript script).content = content) ∧
    ∀ (tx : CTransaction) (front back : List CTxOut) (out : CTxOut),
      tx.vout = front ++ out :: back →
      (∀ o ∈ front, isMemoScript o.scriptPubKey = false) → out.scriptPubKey = script →
      extractMemoFromTx tx = some (parseMemoScript script)

theorem parsedAs_memoScript {type : MemoType} {content : Bytes} (hcontent : content ≠ [])
    (hlen : content.length ≤ maxMemoLength) :
    ParsedAs (memoScript (payload currentVersion type content)).script type content := by
  have hcarries := carries_memoScript currentVersion type (hlen.trans (by decide))
  have hmemo := (isMemoScript_iff _).mpr ⟨_, _, _, hcarries, hcontent⟩
  have hparse := parseMemoScript_eq hcarries hcontent
  rw [if_neg (by decide)] at hparse
  rw [ParsedAs, hparse]
  refine ⟨rfl, rfl, rfl, rfl, fun htext => ?_, fun tx front back out hvout hfront hout => ?_⟩
  · exact if_pos (decide_eq_true htext)
  · rw [← hparse, ← hout]
    rw [← hout] at hmemo hparse
    exact extractMemoFromTx_eq hvout hfront hmemo (by rw [hparse])

/-- Whatever the type, a content for which `CreateTypedMemoScript` or `CreateRawMemoScript` succeeds
is parsed from the script as it was: valid, version 1, the same type and bytes, and as text for the
types that are text; and a transaction whose first memo output has the script gives it back. -/
theorem memo_round_trip (type : MemoType) (content : Bytes) :
    (∀ result, createTypedMemoScript content type = .ok result →
      ParsedAs result.script type content) ∧
      ∀ result, createRawMemoScript content type = .ok result →
        ParsedAs result.script type content := by
  constructor
  · intro result h
    obtain ⟨hcontent, hlen, rfl⟩ := createTypedMemoScript_ok h
    exact parsedAs_memoScript hcontent hlen
  · intro result h
    obtain ⟨hcontent, hlen, rfl⟩ := createRawMemoScript_ok h
    exact parsedAs_memoScript hcontent hlen

-- a payload just short of the one-byte length form, and one that needs it
example :
    (createRawMemoScript (List.replicate 69 7) .tagged).toOption.map (·.script.take 2) =
      some [0x6a, 75] ∧
    (createRawMemoScript (List.replicate 70 7) .tagged).toOption.map (·.script.take 3)
      = some [0x6a, 0x4c, 76] := by
  decide

/-! ### What else is parsed -/

/-- The format of a memo, as `CreateTypedMemoScript` enforces it (`createTypedMemoScript_isOk_iff`).
-/
structure WellFormed (version : UInt8) (type : MemoType) (content : Bytes) : Prop where
  version_eq : version = 1
  type_mem : type ∈ MemoType.defined
  pos : 1 ≤ content.length
  le_max : content.length ≤ 80
  utf8 : type = .text ∨ type = .invoice ∨ type = .receipt → IsUtf8 content

theorem utf8Error_eq_none_iff (data : Bytes) : utf8Error data = none ↔ IsUtf8 data := by
  rw [utf8Error]
  rcases isValidUTF8_cases data with ⟨hvalid, hutf8⟩ | ⟨pos, n, b, hvalid, hnot, -⟩
  · rw [hvalid]
    exact iff_of_true rfl hutf8
  · rw [hvalid]
    exact iff_of_false (Option.some_ne_none pos) hnot

/-- `CreateTypedMemoScript` succeeds, for the defined types, exactly on what is well formed. -/
theorem createTypedMemoScript_isOk_iff {type : MemoType} (htype : type ∈ MemoType.defined)
    (content : Bytes) :
    (∃ result, createTypedMemoScript content type = .ok result) ↔ WellFormed 1 type content := by
  constructor
  · rintro ⟨result, h⟩
    obtain ⟨hne, hlen, -⟩ := createTypedMemoScript_ok h
    refine ⟨rfl, htype, List.length_pos_of_ne_nil hne, hlen, fun htext => ?_⟩
    have htextual : type.isTextual = true := decide_eq_true htext
    by_contra hutf8
    obtain ⟨pos, hpos⟩ :=
      Option.ne_none_iff_exists'.mp (mt (utf8Error_eq_none_iff content).mp hutf8)
    rw [createTypedMemoScript, if_neg (Nat.ne_of_gt (List.length_pos_of_ne_nil hne)),
      if_neg (Nat.not_lt.mpr hlen), if_pos htextual, hpos] at h
    cases h
  · intro h
    have hnone : (if type.isTextual then utf8Error content else none) = none := by
      by_cases htext : type.isTextual = true
      · rw [if_pos htext]
        exact (utf8Error_eq_none_iff content).mpr (h.utf8 (of_decide_eq_true htext))
      · rw [if_neg htext]
    have hlen : ¬ maxMemoLength < content.length := Nat.not_lt.mpr h.le_max
    refine ⟨memoScript (payload currentVersion type content), ?_⟩
    rw [createTypedMemoScript, if_neg (Nat.ne_of_gt h.pos), if_neg hlen, hnone]

/-- For every script: "if the parser reports a valid memo, the payload is well formed" holds if and
only if a payload with some content and a version up to the current one, should the script carry
one, has not version 0, has a defined type, at most 80 bytes of content and, for the types that are
text, valid UTF-8. -/
theorem parsed_memo_wellFormed_iff (script : CScript) :
    ((parseMemoScript script).isValid = true →
        ∃ version type content, Carries script version type content ∧
          WellFormed version type content) ↔
      ∀ version type content, Carries script version type content → content ≠ [] →
        version ≤ currentVersion →
        version ≠ 0 ∧ type ∈ MemoType.defined ∧ content.length ≤ 80 ∧
          (type = .text ∨ type = .invoice ∨ type = .receipt → IsUtf8 content) := by
  constructor
  · intro h version type content hcarries hcontent hversion
    obtain ⟨version', type', content', hcarries', hwf⟩ :=
      h ((parseMemoScript_isValid_iff script).mpr
        ⟨version, type, content, hcarries, hcontent, hversion⟩)
    obtain ⟨rfl, rfl, rfl⟩ := hcarries.unique hcarries'
    refine ⟨?_, hwf.type_mem, hwf.le_max, hwf.utf8⟩
    rw [hwf.version_eq]
    decide
  · intro h hvalid
    obtain ⟨version, type, content, hcarries, hcontent, hversion⟩ :=
      (parseMemoScript_isValid_iff script).mp hvalid
    obtain ⟨hzero, htype, hlen, hutf8⟩ := h version type content hcarries hcontent hversion
    refine ⟨version, type, content, hcarries, ?_, htype, List.length_pos_of_ne_nil hcontent,
      hlen, hutf8⟩
    -- the only version up to 1 but 0
    rw [UInt8.le_iff_toNat_le] at hversion
    rw [Ne, ← UInt8.toNat_inj] at hzero
    rw [← UInt8.toNat_inj]
    change version.toNat ≤ 1 at hversion
    change version.toNat ≠ 0 at hzero
    show version.toNat = 1
    omega

/-- The script is reported as a valid memo, and what it carries is not well formed. -/
def Misreported (script : CScript) : Prop :=
  (parseMemoScript script).isValid = true ∧
    ∀ version type content, Carries script version type content → ¬ WellFormed version type content

theorem misreported_of_carries {script : CScript} {version : UInt8} {type : MemoType}
    {content : Bytes} (hvalid : (parseMemoScript script).isValid = true)
    (hcarries : Carries script version type content)
    (hnot : ¬ WellFormed version type content) : Misreported script := by
  refine ⟨hvalid, fun version' type' content' h => ?_⟩
  obtain ⟨rfl, rfl, rfl⟩ := h.unique hcarries
  exact hnot

/-- Version 0, an undefined type, 81 bytes of content, and a text that is no UTF-8. -/
theorem malformed_memos_parsed :
    Misreported (memoScript (payload 0 .text [0x41])).script ∧
      Misreported (memoScript (payload 1 ⟨0x7f⟩ [0x41])).script ∧
      Misreported (memoScript (payload 1 .tagged (List.replicate 81 0x41))).script ∧
      Misreported (memoScript (payload 1 .text [0xff])).script := by
  refine ⟨?_, ?_, ?_, ?_⟩
  · refine misreported_of_carries (by decide) (carries_memoScript 0 .text (by decide)) fun h => ?_
    exact absurd h.version_eq (by decide)
  · refine misreported_of_carries (by decide) (carries_memoScript 1 ⟨0x7f⟩ (by decide)) fun h => ?_
    exact absurd h.type_mem (by decide)
  · refine misreported_of_carries (by decide) (carries_memoScript 1 .tagged (by decide)) fun h => ?_
    exact absurd h.le_max (by decide)
  · refine misreported_of_carries (by decide) (carries_memoScript 1 .text (by decide)) fun h => ?_
    exact absurd ((utf8Error_eq_none_iff _).mpr (h.utf8 (.inl rfl))) (by decide)

end OpenSY.Memo
