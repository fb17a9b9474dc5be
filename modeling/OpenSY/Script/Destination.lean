import OpenSY.Script.Grammar
import OpenSY.Script.SigHash

/-!
# Destinations and their scripts

A destination is an output script by its template.  `getScriptForDestination` writes the script,
`extractDestination` recognises the templates that have an address.

* `getScript_of_extract` — a script that was recognised is written as it was;
* `parse_getScriptForDestination` — no script with an address carries a token operation.
-/

namespace OpenSY.Script

open OpenSY.Chain OpenSY.Src20

def op0 : UInt8 := 0x00
def op16 : UInt8 := 0x60
def opDup : UInt8 := 0x76
def opEqual : UInt8 := 0x87
def opEqualverify : UInt8 := 0x88
def opHash160 : UInt8 := 0xa9
def opChecksig : UInt8 := 0xac

/-- A byte string of fixed size. -/
abbrev Blob (n : ℕ) : Type := { bytes : Bytes // bytes.length = n }

def toBlob (n : ℕ) (bytes : Bytes) : Option (Blob n) :=
  if h : bytes.length = n then some ⟨bytes, h⟩ else none

/-- `PayToAnchor` is the witness program of its own kind that the source keeps apart. -/
inductive CTxDestination where
  | noDestination (script : CScript)
  | pubKeyDestination (pubkey : Bytes)
  | pkHash (hash : Blob 20)
  | scriptHash (hash : Blob 20)
  | witnessV0ScriptHash (hash : Blob 32)
  | witnessV0KeyHash (hash : Blob 20)
  | witnessV1Taproot (key : Blob 32)
  | payToAnchor
  | witnessUnknown (version : Fin 17) (program : Bytes)
  deriving DecidableEq

def anchorBytes : Bytes := [0x4e, 0x73]

/-- The opcode that pushes a small number. -/
def encodeOpN (n : Fin 17) : UInt8 := if n = 0 then op0 else op1 + (n.val - 1).toUInt8

def getScriptForDestination : CTxDestination → CScript
  | .noDestination script => script
  | .pubKeyDestination pubkey => pushData [] pubkey ++ [opChecksig]
  | .pkHash hash => pushData [opDup, opHash160] hash.1 ++ [opEqualverify, opChecksig]
  | .scriptHash hash => pushData [opHash160] hash.1 ++ [opEqual]
  | .witnessV0ScriptHash hash => pushData [op0] hash.1
  | .witnessV0KeyHash hash => pushData [op0] hash.1
  | .witnessV1Taproot key => pushData [op1] key.1
  | .payToAnchor => pushData [encodeOpN 1] anchorBytes
  | .witnessUnknown version program => pushData [encodeOpN version] program

/-- Whether a destination has an address. -/
def isValidDestination : CTxDestination → Bool
  | .noDestination _ => false
  | .pubKeyDestination _ => false
  | _ => true

/-! ### Templates -/

def isPayToScriptHash (script : CScript) : Bool :=
  script.length = 23 && script[0]? = some opHash160 && script[1]? = some 0x14 &&
    script[22]? = some opEqual

def isPayToAnchor (script : CScript) : Bool :=
  script.length = 4 && script[0]? = some op1 && script[1]? = some 0x02 && script[2]? = some 0x4e &&
    script[3]? = some 0x73

/-- The version an opcode stands for: `OP_0`, or `OP_1` to `OP_16`. -/
def decodeOpN (opcode : UInt8) : Option (Fin 17) :=
  if opcode = op0 then some 0
  else if op1 ≤ opcode && opcode ≤ op16 then some (Fin.ofNat 17 (opcode.toNat - 0x50))
  else none

/-- The version and the program of a witness script. -/
def isWitnessProgram (script : CScript) : Option (Fin 17 × Bytes) :=
  match script with
  | opcode :: size :: program =>
    if script.length < 4 || 42 < script.length then none
    else
      match decodeOpN opcode with
      | none => none
      | some version => if size.toNat + 2 = script.length then some (version, program) else none
  | _ => none

def matchPayToPubkeyHash (script : CScript) : Option (Blob 20) :=
  if script.length = 25 && script[0]? = some opDup && script[1]? = some opHash160 &&
      script[2]? = some 20 && script[23]? = some opEqualverify && script[24]? = some opChecksig then
    toBlob 20 ((script.drop 3).take 20)
  else none

/-- `ExtractDestination`, on top of `Solver`, where it returns true.  A public key, a bare multisig,
a data carrier and a nonstandard script have no address. -/
def extractDestination (script : CScript) : Option CTxDestination :=
  if isPayToScriptHash script then (toBlob 20 ((script.drop 2).take 20)).map .scriptHash
  else
    match isWitnessProgram script with
    | some (version, program) =>
      if version = 0 && program.length = 20 then (toBlob 20 program).map .witnessV0KeyHash
      else if version = 0 && program.length = 32 then (toBlob 32 program).map .witnessV0ScriptHash
      else if version = 1 && program.length = 32 then (toBlob 32 program).map .witnessV1Taproot
      else if isPayToAnchor script then some .payToAnchor
      else if version ≠ 0 then some (.witnessUnknown version program)
      else none
    | none => (matchPayToPubkeyHash script).map .pkHash

/-! ### Recognised scripts -/

theorem toBlob_eq_some {n : ℕ} {bytes : Bytes} {b : Blob n}
    (h : toBlob n bytes = some b) : b.1 = bytes := by
  unfold toBlob at h
  split_ifs at h
  exact congrArg Subtype.val (Option.some.inj h).symm

theorem pushData_small (script : CScript) {data : Bytes} (h : data.length < 76) :
    pushData script data = script ++ data.length.toUInt8 :: data := by
  have hlt : data.length < opPushdata1.toNat := h
  simp only [pushData, if_pos hlt, List.append_assoc, List.singleton_append]

theorem take_two {script : CScript} {a b : UInt8} (ha : script[0]? = some a)
    (hb : script[1]? = some b) :
    script = a :: b :: script.drop 2 := by
  match script, ha, hb with
  | x :: y :: rest, ha, hb =>
    obtain rfl := Option.some.inj ha
    obtain rfl := Option.some.inj hb
    rfl

theorem encodeOpN_of_le : ∀ opcode : UInt8, op1 ≤ opcode → opcode ≤ op16 →
    encodeOpN (Fin.ofNat 17 (opcode.toNat - 0x50)) = opcode := by
  intro opcode hlow hhigh
  have hlow' : 0x51 ≤ opcode.toNat := hlow
  have hhigh' : opcode.toNat ≤ 0x60 := hhigh
  refine UInt8.toNat_inj.mp ?_
  have hrange : opcode.toNat - 0x50 < 17 := by omega
  have hne : ¬Fin.ofNat 17 (opcode.toNat - 0x50) = 0 := by
    intro h
    have hval := congrArg Fin.val h
    rw [Fin.val_ofNat, Nat.mod_eq_of_lt hrange] at hval
    change opcode.toNat - 0x50 = 0 at hval
    omega
  rw [encodeOpN, if_neg hne, Fin.val_ofNat, Nat.mod_eq_of_lt hrange, UInt8.toNat_add]
  show (0x51 + (opcode.toNat - 0x50 - 1) % 2 ^ 8) % 2 ^ 8 = opcode.toNat
  omega

theorem encode_decode {opcode : UInt8} {version : Fin 17} (h : decodeOpN opcode = some version) :
    encodeOpN version = opcode := by
  unfold decodeOpN at h
  split_ifs at h with hzero hrange
  · rw [← Option.some.inj h, hzero]
    rfl
  · rw [← Option.some.inj h]
    simp only [Bool.and_eq_true, decide_eq_true_eq] at hrange
    exact encodeOpN_of_le opcode hrange.1 hrange.2

theorem script_of_isPayToScriptHash {script : CScript} (h : isPayToScriptHash script = true) :
    script = opHash160 :: 0x14 :: ((script.drop 2).take 20 ++ [opEqual]) ∧
      ((script.drop 2).take 20).length = 20 := by
  simp only [isPayToScriptHash, Bool.and_eq_true, decide_eq_true_eq] at h
  obtain ⟨⟨⟨hlen, h0⟩, h1⟩, h22⟩ := h
  have hlast : script.drop 22 = [opEqual] := by
    rw [List.drop_eq_getElem_cons (by omega : 22 < script.length),
      List.drop_eq_nil_of_le (by omega)]
    rw [List.getElem?_eq_getElem (by omega : 22 < script.length)] at h22
    rw [Option.some.inj h22]
  refine ⟨?_, by simp [hlen]⟩
  rw [← hlast, show script.drop 22 = (script.drop 2).drop 20 by rw [List.drop_drop],
    List.take_append_drop]
  exact take_two h0 h1

theorem script_of_isWitnessProgram {script program : CScript} {version : Fin 17}
    (h : isWitnessProgram script = some (version, program)) :
    script = encodeOpN version :: program.length.toUInt8 :: program ∧ program.length ≤ 40 := by
  unfold isWitnessProgram at h
  match script, h with
  | opcode :: size :: rest, h =>
    simp only at h
    cases hversion : decodeOpN opcode with
    | none => simp [hversion] at h
    | some v =>
      simp only [hversion] at h
      split_ifs at h with hsize hlen
      obtain ⟨rfl, rfl⟩ := Prod.mk.inj (Option.some.inj h)
      simp only [List.length_cons, Bool.or_eq_true, decide_eq_true_eq, not_or, not_lt] at hsize hlen
      have hrest : size = rest.length.toUInt8 := by
        rw [show rest.length = size.toNat by omega]
        exact UInt8.ofNat_toNat.symm
      refine ⟨?_, by omega⟩
      rw [encode_decode hversion, hrest]

theorem script_of_isPayToAnchor {script : CScript} (h : isPayToAnchor script = true) :
    script = [op1, 0x02, 0x4e, 0x73] := by
  simp only [isPayToAnchor, Bool.and_eq_true, decide_eq_true_eq] at h
  obtain ⟨⟨⟨⟨hlen, h0⟩, h1⟩, h2⟩, h3⟩ := h
  have hrest : script.drop 2 = [0x4e, 0x73] := by
    have hfirst : (script.drop 2)[0]? = some 0x4e := by simpa using h2
    have hsecond : (script.drop 2)[1]? = some 0x73 := by simpa using h3
    rw [take_two hfirst hsecond, List.drop_eq_nil_of_le (by simp [hlen])]
  rw [take_two h0 h1, hrest]

theorem script_of_matchPayToPubkeyHash {script : CScript} {hash : Blob 20}
    (h : matchPayToPubkeyHash script = some hash) :
    script = opDup :: opHash160 :: 20 :: (hash.1 ++ [opEqualverify, opChecksig]) := by
  unfold matchPayToPubkeyHash at h
  split_ifs at h with htemplate
  simp only [Bool.and_eq_true, decide_eq_true_eq] at htemplate
  obtain ⟨⟨⟨⟨⟨hlen, h0⟩, h1⟩, h2⟩, h23⟩, h24⟩ := htemplate
  have hlast : script.drop 23 = [opEqualverify, opChecksig] := by
    have htail : (script.drop 23).length = 2 := by simp [hlen]
    have hfirst : (script.drop 23)[0]? = some opEqualverify := by simpa using h23
    have hsecond : (script.drop 23)[1]? = some opChecksig := by simpa using h24
    rw [take_two hfirst hsecond, List.drop_eq_nil_of_le htail.le]
  rw [toBlob_eq_some h, ← hlast,
    show script.drop 23 = (script.drop 3).drop 20 by rw [List.drop_drop],
    List.take_append_drop]
  have htwo := take_two h0 h1
  have hthird : script.drop 2 = 20 :: script.drop 3 := by
    rw [List.drop_eq_getElem_cons (by omega : 2 < script.length)]
    rw [List.getElem?_eq_getElem (by omega : 2 < script.length)] at h2
    rw [Option.some.inj h2]
  rw [← hthird]
  exact htwo

/-- All witness destinations are written as version and program. -/
theorem pushData_of_isWitnessProgram {script program : CScript} {version : Fin 17}
    (h : isWitnessProgram script = some (version, program)) :
    pushData [encodeOpN version] program = script := by
  obtain ⟨hscript, hlen⟩ := script_of_isWitnessProgram h
  rw [pushData_small _ (by omega), hscript]
  rfl

theorem getScript_of_witness {script program : CScript} {version : Fin 17} {dest : CTxDestination}
    (hwitness : isWitnessProgram script = some (version, program))
    (hsh : ¬isPayToScriptHash script = true) (h : extractDestination script = some dest) :
    getScriptForDestination dest = script ∧ isValidDestination dest = true := by
  have hwrite := pushData_of_isWitnessProgram hwitness
  simp only [extractDestination, if_neg hsh, hwitness] at h
  split_ifs at h with hkey hhash htaproot hanchor hversion
  · obtain ⟨hash, hb, rfl⟩ := Option.map_eq_some_iff.mp h
    simp only [Bool.and_eq_true, decide_eq_true_eq] at hkey
    rw [hkey.1] at hwrite
    rw [getScriptForDestination, toBlob_eq_some hb]
    exact ⟨hwrite, rfl⟩
  · obtain ⟨hash, hb, rfl⟩ := Option.map_eq_some_iff.mp h
    simp only [Bool.and_eq_true, decide_eq_true_eq] at hhash
    rw [hhash.1] at hwrite
    rw [getScriptForDestination, toBlob_eq_some hb]
    exact ⟨hwrite, rfl⟩
  · obtain ⟨key, hb, rfl⟩ := Option.map_eq_some_iff.mp h
    simp only [Bool.and_eq_true, decide_eq_true_eq] at htaproot
    rw [htaproot.1] at hwrite
    rw [getScriptForDestination, toBlob_eq_some hb]
    exact ⟨hwrite, rfl⟩
  · rw [← Option.some.inj h, script_of_isPayToAnchor hanchor]
    exact ⟨rfl, rfl⟩
  · rw [← Option.some.inj h]
    exact ⟨hwrite, rfl⟩

/-- **A recognised script is written as it was**, and has an address. -/
theorem getScript_of_extract {script : CScript} {dest : CTxDestination}
    (h : extractDestination script = some dest) :
    getScriptForDestination dest = script ∧ isValidDestination dest = true := by
  by_cases hsh : isPayToScriptHash script = true
  · rw [extractDestination, if_pos hsh] at h
    obtain ⟨hash, hhash, rfl⟩ := Option.map_eq_some_iff.mp h
    obtain ⟨hscript, -⟩ := script_of_isPayToScriptHash hsh
    refine ⟨?_, rfl⟩
    rw [getScriptForDestination, pushData_small _ (by rw [hash.2]; decide), hash.2,
      toBlob_eq_some hhash]
    exact hscript.symm
  · cases hwitness : isWitnessProgram script with
    | some found => exact getScript_of_witness hwitness hsh h
    | none =>
      rw [extractDestination, if_neg hsh, hwitness] at h
      obtain ⟨hash, hhash, rfl⟩ := Option.map_eq_some_iff.mp h
      refine ⟨?_, rfl⟩
      rw [getScriptForDestination, pushData_small _ (by rw [hash.2]; decide), hash.2,
        script_of_matchPayToPubkeyHash hhash]
      simp

/-! ### No token operation -/

theorem parse_of_head {reserved : List Bytes} {script : CScript}
    (h : script.head? ≠ some opReturn) :
    parseSRC20Script reserved script = none := by
  rw [Option.eq_none_iff_forall_ne_some]
  intro op hop
  obtain ⟨data, push, rest, -, -, hscript⟩ := parseSRC20Script_eq_some_iff.mp hop
  rw [hscript] at h
  exact h rfl

/-- An output that can be spent carries no token operation. -/
theorem parse_of_spendable {reserved : List Bytes} {script : CScript}
    (h : isUnspendable script = false) :
    parseSRC20Script reserved script = none := by
  refine parse_of_head fun hhead => ?_
  cases script with
  | nil => simp at hhead
  | cons c rest =>
    simp [isUnspendable, hhead] at h

theorem head_pushData (c : UInt8) (script : CScript) (data : Bytes) :
    (pushData (c :: script) data).head? = some c := by
  simp only [pushData]
  split_ifs <;> rfl

theorem encodeOpN_ne_opReturn : ∀ version : Fin 17, encodeOpN version ≠ opReturn := by decide

theorem head_getScriptForDestination {dest : CTxDestination} (h : isValidDestination dest = true) :
    (getScriptForDestination dest).head? ≠ some opReturn := by
  have hpush : ∀ c : UInt8, c ≠ opReturn → ∀ (script : CScript) (data : Bytes),
      (pushData (c :: script) data).head? ≠ some opReturn := by
    intro c hc script data hhead
    rw [head_pushData] at hhead
    exact hc (Option.some.inj hhead)
  have happend : ∀ c : UInt8, c ≠ opReturn → ∀ (script : CScript) (data tail : Bytes),
      (pushData (c :: script) data ++ tail).head? ≠ some opReturn := by
    intro c hc script data tail hhead
    rw [List.head?_append, head_pushData] at hhead
    exact hc (Option.some.inj hhead)
  cases dest with
  | noDestination script => simp [isValidDestination] at h
  | pubKeyDestination pubkey => simp [isValidDestination] at h
  | pkHash hash => exact happend opDup (by decide) [opHash160] hash.1 _
  | scriptHash hash => exact happend opHash160 (by decide) [] hash.1 _
  | witnessV0ScriptHash hash => exact hpush op0 (by decide) [] hash.1
  | witnessV0KeyHash hash => exact hpush op0 (by decide) [] hash.1
  | witnessV1Taproot key => exact hpush op1 (by decide) [] key.1
  | payToAnchor => decide
  | witnessUnknown version program => exact hpush _ (encodeOpN_ne_opReturn version) [] program

/-- **An address carries no token operation.** -/
theorem parse_getScriptForDestination {reserved : List Bytes} {dest : CTxDestination}
    (h : isValidDestination dest = true) :
    parseSRC20Script reserved (getScriptForDestination dest) = none :=
  parse_of_head (head_getScriptForDestination h)

end OpenSY.Script
