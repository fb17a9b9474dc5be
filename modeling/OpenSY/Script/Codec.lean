import OpenSY.Script.Grammar

/-!
# Built scripts are parsed back

The three builders against the parser, by way of the grammar: what a builder writes is a push of a
payload with the fields of its operation.  A transaction is then parsed output by output
(`parseTransactionSRC20_eq`).
-/

namespace OpenSY.Src20

open OpenSY.Chain

/-! ### Pushes -/

theorem writeLE_four (n : ℕ) :
    writeLE 4 n = [n.toUInt8, (n / 256).toUInt8, (n / 65536).toUInt8, (n / 16777216).toUInt8] := by
  show [n.toUInt8, (n / 256).toUInt8, (n / 256 / 256).toUInt8, (n / 256 / 256 / 256).toUInt8] = _
  rw [Nat.div_div_eq_div_mul, Nat.div_div_eq_div_mul]

/-- `operator<<` writes a complete push, in the shortest of the four forms. -/
theorem pushData_push (script : CScript) {data : Bytes} (hpos : 0 < data.length)
    (hlt : data.length < 256 ^ 4) :
    ∃ push, Push data push ∧ pushData script data = script ++ push := by
  simp only [pushData]
  split_ifs with hdirect hone htwo
  · exact ⟨_, .direct hpos hdirect, by simp⟩
  · exact ⟨_, .sized .pushdata1 (by omega), by simp [writeLE]⟩
  · exact ⟨_, .sized .pushdata2 (by omega), by simp [writeLE]⟩
  · exact ⟨_, .sized .pushdata4 hlt, by simp [writeLE_four]⟩

/-- A pushed payload of the grammar is parsed. -/
theorem parse_pushData {reserved : List Bytes} {op : SRC20Operation} {body : Bytes}
    (h : Layout reserved op body) (hlen : body.length < 256) :
    parseSRC20Script reserved (pushData [opReturn] (payloadHead op.action ++ body)) = some op := by
  have hhead : (payloadHead op.action).length = 7 := rfl
  have hdata : (payloadHead op.action ++ body).length = 7 + body.length := by
    rw [List.length_append, hhead]
  obtain ⟨push, hpush, hscript⟩ := pushData_push [opReturn]
    (show 0 < (payloadHead op.action ++ body).length by omega) (by omega)
  rw [parseSRC20Script_eq_some_iff]
  refine ⟨_, push, [], ?_, hpush, ?_⟩
  · exact ⟨src20Version, body, [], by decide, by decide, h, by simp [payloadHead]⟩
  · rw [hscript, List.append_nil]
    rfl

/-! ### The three builders -/

theorem ne_zero_of_isTickerChar {c : UInt8} (h : isTickerChar c = true) : c ≠ 0 := by
  intro hc
  subst hc
  exact absurd h (by decide)

theorem ne_zero_of_isNameChar {c : UInt8} (h : isNameChar c = true) : c ≠ 0 := by
  intro hc
  subst hc
  exact absurd h (by decide)

/-- The texts of a valid issuance have no zero byte, so that padding can be told from text. -/
theorem TokenIssuance.no_null_of_isValid {reserved : List Bytes} {x : TokenIssuance}
    (h : x.isValid reserved = true) : 0 ∉ x.ticker ∧ 0 ∉ x.name := by
  simp only [TokenIssuance.isValid, isValidName, Bool.and_eq_true] at h
  obtain ⟨⟨⟨⟨⟨⟨⟨-, hticker⟩, hname⟩, -⟩, -⟩, -⟩, -⟩, -⟩ := h
  obtain ⟨⟨⟨⟨-, hname⟩, -⟩, -⟩, -⟩ := hname
  rw [List.all_eq_true] at hticker hname
  exact ⟨fun h => ne_zero_of_isTickerChar (hticker 0 h) rfl,
    fun h => ne_zero_of_isNameChar (hname 0 h) rfl⟩

theorem parse_buildIssuanceScript {reserved : List Bytes} {x : TokenIssuance}
    (h : x.isValid reserved = true) :
    parseSRC20Script reserved (buildIssuanceScript x) = some ⟨.issue, .issuance x⟩ := by
  obtain ⟨hticker, hname, -, -⟩ := TokenIssuance.isValid_bounds h
  obtain ⟨htickerNull, hnameNull⟩ := TokenIssuance.no_null_of_isValid h
  have hslot := padNull_slot hticker htickerNull
  have hslot' := padNull_slot hname hnameNull
  have hparse := parse_pushData (Layout.issue hslot hslot' h) (by
    rw [List.length_append, List.length_append, List.length_cons, List.length_append,
      hslot.1, hslot'.1, writeLE_length, uint256Bytes_length]
    decide)
  rw [← hparse, buildIssuanceScript]
  simp only [List.append_assoc, List.cons_append, List.nil_append]

theorem parse_buildTransferScript {reserved : List Bytes} {x : TokenTransfer}
    (h : x.isValid = true) :
    parseSRC20Script reserved (buildTransferScript x) = some ⟨.transfer, .transfer x⟩ := by
  have hlayout : Layout reserved ⟨.transfer, .transfer x⟩ _ := .transfer h
  rw [← parse_pushData hlayout (by simp), buildTransferScript, List.append_assoc]

theorem parse_buildBurnScript {reserved : List Bytes} {x : TokenBurn} (h : x.isValid = true) :
    parseSRC20Script reserved (buildBurnScript x) = some ⟨.burn, .burn x⟩ := by
  have hlayout : Layout reserved ⟨.burn, .burn x⟩ _ := .burn h
  rw [← parse_pushData hlayout (by simp), buildBurnScript, List.append_assoc]

/-! ### Transactions -/

theorem isSRC20Script_of_parse {reserved : List Bytes} {script : CScript} {op : SRC20Operation}
    (h : parseSRC20Script reserved script = some op) : isSRC20Script script = true := by
  obtain ⟨version, action, tail, hdata⟩ := head_of_parseSRC20Script h
  simp [isSRC20Script, hdata]

/-- One turn of the output loop, while there is room. -/
theorem parseOutput_eq {reserved : List Bytes} {ops : List SRC20Operation}
    (h : ops.length < maxOpsPerTx) (out : CTxOut) :
    parseOutput reserved ops out = ops ++ (parseSRC20Script reserved out.scriptPubKey).toList := by
  unfold parseOutput
  rw [if_neg (Nat.not_le.mpr h)]
  cases hparse : parseSRC20Script reserved out.scriptPubKey with
  | none => simp
  | some op => simp [isSRC20Script_of_parse hparse]

/-- **A transaction is parsed output by output, up to the limit.** -/
theorem parseTransactionSRC20_eq (reserved : List Bytes) (tx : CTransaction) :
    parseTransactionSRC20 reserved tx =
      (tx.vout.filterMap fun out => parseSRC20Script reserved out.scriptPubKey).take
        maxOpsPerTx := by
  have hloop : ∀ (outs : List CTxOut) (ops : List SRC20Operation), ops.length ≤ maxOpsPerTx →
      outs.foldl (parseOutput reserved) ops =
        (ops ++ outs.filterMap fun out => parseSRC20Script reserved out.scriptPubKey).take
          maxOpsPerTx := by
    intro outs
    induction outs with
    | nil =>
      intro ops h
      rw [List.filterMap_nil, List.append_nil, List.take_of_length_le h]
      rfl
    | cons out outs ih =>
      intro ops h
      rw [List.foldl_cons, ih _ (parseOutput_length_le reserved h out)]
      by_cases hroom : ops.length < maxOpsPerTx
      · rw [parseOutput_eq hroom, List.append_assoc, List.filterMap_cons]
        cases parseSRC20Script reserved out.scriptPubKey <;> rfl
      · -- the list is full: nothing that follows is taken
        have hfull : ops.length = maxOpsPerTx := Nat.le_antisymm h (Nat.not_lt.mp hroom)
        have hkeep : parseOutput reserved ops out = ops := if_pos (Nat.not_lt.mp hroom)
        rw [hkeep, ← hfull, List.take_left, List.take_left]
  exact hloop tx.vout [] (Nat.zero_le _)

/-- A script that one of the builders makes from a valid operation. -/
inductive Built (reserved : List Bytes) : SRC20Operation → CScript → Prop
  | issue {x : TokenIssuance} (valid : x.isValid reserved = true) :
      Built reserved ⟨.issue, .issuance x⟩ (buildIssuanceScript x)
  | transfer {x : TokenTransfer} (valid : x.isValid = true) :
      Built reserved ⟨.transfer, .transfer x⟩ (buildTransferScript x)
  | burn {x : TokenBurn} (valid : x.isValid = true) :
      Built reserved ⟨.burn, .burn x⟩ (buildBurnScript x)

theorem Built.parse_eq {reserved : List Bytes} {op : SRC20Operation} {script : CScript}
    (h : Built reserved op script) : parseSRC20Script reserved script = some op := by
  cases h with
  | issue valid => exact parse_buildIssuanceScript valid
  | transfer valid => exact parse_buildTransferScript valid
  | burn valid => exact parse_buildBurnScript valid

/-- What an output holds: a built script, or one that is not parseable. -/
inductive Carries (reserved : List Bytes) (out : CTxOut) : Option SRC20Operation → Prop
  | op {op : SRC20Operation} (built : Built reserved op out.scriptPubKey) :
      Carries reserved out (some op)
  | other (unparseable : parseSRC20Script reserved out.scriptPubKey = none) :
      Carries reserved out none

theorem Carries.parse_eq {reserved : List Bytes} {out : CTxOut} {op : Option SRC20Operation}
    (h : Carries reserved out op) : parseSRC20Script reserved out.scriptPubKey = op := by
  cases h with
  | op built => exact built.parse_eq
  | other unparseable => exact unparseable

theorem filterMap_of_carries {reserved : List Bytes} {outs : List CTxOut}
    {carried : List (Option SRC20Operation)} (h : List.Forall₂ (Carries reserved) outs carried) :
    (outs.filterMap fun out => parseSRC20Script reserved out.scriptPubKey) =
      carried.filterMap id := by
  induction h with
  | nil => rfl
  | cons head _ ih => simp only [List.filterMap_cons, head.parse_eq, ih, id]

/-- **Built scripts are parsed back**, alone and among the outputs of a transaction. -/
theorem src20_round_trip (reserved : List Bytes) :
    (∀ x : TokenIssuance, x.isValid reserved = true →
      parseSRC20Script reserved (buildIssuanceScript x) = some ⟨.issue, .issuance x⟩) ∧
    (∀ x : TokenTransfer, x.isValid = true →
      parseSRC20Script reserved (buildTransferScript x) = some ⟨.transfer, .transfer x⟩) ∧
    (∀ x : TokenBurn, x.isValid = true →
      parseSRC20Script reserved (buildBurnScript x) = some ⟨.burn, .burn x⟩) ∧
    ∀ (tx : CTransaction) (carried : List (Option SRC20Operation)),
      List.Forall₂ (Carries reserved) tx.vout carried →
      (carried.filterMap id).length ≤ maxOpsPerTx →
      parseTransactionSRC20 reserved tx = carried.filterMap id := by
  refine ⟨fun x h => parse_buildIssuanceScript h, fun x h => parse_buildTransferScript h,
    fun x h => parse_buildBurnScript h, fun tx carried hcarried hlen => ?_⟩
  rw [parseTransactionSRC20_eq, filterMap_of_carries hcarried, List.take_of_length_le hlen]

end OpenSY.Src20
