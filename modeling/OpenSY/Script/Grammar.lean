import OpenSY.Script.Bytes

/-!
# The grammar of SRC-20 scripts

What a script has to look like for `ParseSRC20Script` to return an operation, said without offsets:
an `OP_RETURN`, one data push, and a payload that is the concatenation of its fields.  What may
follow the fields, the push or the end of a text is bound by an existential quantifier, so nothing
can depend on it.

* `Push`, `Layout`, `SRC20Payload`, `SRC20Grammar` — the grammar;
* `getOpReturnData_push`, `exists_push_of_getOpReturnData` — the push;
* `parseSRC20Script_iff_grammar` — the parser accepts exactly the grammar.
-/

namespace OpenSY.Src20

open OpenSY.Chain

/-! ### The grammar -/

/-- The opcodes that are followed by a length field, with its width. -/
inductive LengthField : UInt8 → ℕ → Prop
  | pushdata1 : LengthField opPushdata1 1
  | pushdata2 : LengthField opPushdata2 2
  | pushdata4 : LengthField opPushdata4 4

/-- A complete push of `data`: the opcode is its length, or its length follows the opcode. -/
inductive Push (data : Bytes) : CScript → Prop
  | direct (nonempty : 0 < data.length) (short : data.length < opPushdata1.toNat) :
      Push data (data.length.toUInt8 :: data)
  | sized {opcode : UInt8} {width : ℕ} (field : LengthField opcode width)
      (bound : data.length < 256 ^ width) :
      Push data (opcode :: (writeLE width data.length ++ data))

/-- The fields of an operation, one after the other, and what they have to satisfy. -/
inductive Layout (reserved : List Bytes) : SRC20Operation → Bytes → Prop
  | issue {x : TokenIssuance} {tickerSlot nameSlot : Bytes}
      (ticker : Slot maxTickerLength x.ticker tickerSlot)
      (name : Slot maxNameLength x.name nameSlot) (valid : x.isValid reserved = true) :
      Layout reserved ⟨.issue, .issuance x⟩ (tickerSlot ++ (nameSlot ++
        (x.decimals.toUInt8 :: (writeLE 8 x.totalSupply ++ uint256Bytes x.metadataHash))))
  | transfer {x : TokenTransfer} (valid : x.isValid = true) :
      Layout reserved ⟨.transfer, .transfer x⟩ (uint256Bytes x.tokenId ++ writeLE 8 x.amount)
  | burn {x : TokenBurn} (valid : x.isValid = true) :
      Layout reserved ⟨.burn, .burn x⟩ (uint256Bytes x.tokenId ++ writeLE 8 x.amount)

/-- A payload with the fields of `op`; anything may come after them. -/
def SRC20Payload (reserved : List Bytes) (op : SRC20Operation) (data : Bytes) : Prop :=
  ∃ version body extra, src20MinSupportedVersion ≤ version ∧ version ≤ src20MaxSupportedVersion ∧
    Layout reserved op body ∧
    data = src20ProtocolId ++ (version :: op.action.toByte :: (body ++ extra))

/-- A script that carries `op`; anything may come after the push. -/
def SRC20Grammar (reserved : List Bytes) (op : SRC20Operation) (script : CScript) : Prop :=
  ∃ data push rest, SRC20Payload reserved op data ∧ Push data push ∧
    script = opReturn :: (push ++ rest)

/-! ### The push -/

/-- Opcodes that `GetOpReturnData` takes for a data push. -/
def IsPushOpcode (opcode : UInt8) : Prop :=
  (0x01 ≤ opcode && opcode ≤ 0x4b) ∨
    (opcode = opPushdata1 ∨ opcode = opPushdata2 ∨ opcode = opPushdata4)

theorem LengthField.isPushOpcode {opcode : UInt8} {width : ℕ} (h : LengthField opcode width) :
    IsPushOpcode opcode := by
  cases h with
  | pushdata1 => exact .inr (.inl rfl)
  | pushdata2 => exact .inr (.inr (.inl rfl))
  | pushdata4 => exact .inr (.inr (.inr rfl))

theorem LengthField.pushLength_eq {opcode : UInt8} {width : ℕ} (h : LengthField opcode width)
    (rest : CScript) :
    pushLength opcode rest =
      if rest.length < width then none else some (readLE (rest.take width), rest.drop width) := by
  cases h <;> rfl

theorem LengthField.le_opPushdata4 {opcode : UInt8} {width : ℕ} (h : LengthField opcode width) :
    opcode ≤ opPushdata4 := by
  cases h <;> decide

/-- A push with a length field, as `GetScriptOp` reads it. -/
theorem LengthField.getScriptOp_eq {opcode : UInt8} {width : ℕ} (h : LengthField opcode width)
    (tail : CScript) :
    getScriptOp (opcode :: tail) =
      if tail.length < width then none
      else if (tail.drop width).length < readLE (tail.take width) then none
      else some (opcode, (tail.drop width).take (readLE (tail.take width)),
        (tail.drop width).drop (readLE (tail.take width))) := by
  simp only [getScriptOp, h.le_opPushdata4, if_true, h.pushLength_eq]
  by_cases hwidth : tail.length < width
  · simp only [hwidth, if_true]
  · simp only [hwidth, if_false]

/-- A direct push, as `GetScriptOp` reads it. -/
theorem getScriptOp_direct {opcode : UInt8} (h : opcode < opPushdata1) (tail : CScript) :
    getScriptOp (opcode :: tail) =
      if tail.length < opcode.toNat then none
      else some (opcode, tail.take opcode.toNat, tail.drop opcode.toNat) := by
  have hle : opcode ≤ opPushdata4 := by
    rw [UInt8.lt_iff_toNat_lt] at h
    rw [UInt8.le_iff_toNat_le]
    exact Nat.le_trans (Nat.le_of_lt h) (by decide)
  simp only [getScriptOp, hle, if_true, pushLength, h]

theorem toNat_toUInt8 {n : ℕ} (h : n < 256) : n.toUInt8.toNat = n := Nat.mod_eq_of_lt h

theorem getScriptOp_push {data push : Bytes} (h : Push data push) (rest : CScript) :
    ∃ opcode, IsPushOpcode opcode ∧ getScriptOp (push ++ rest) = some (opcode, data, rest) := by
  cases h with
  | direct nonempty short =>
    have hlt : data.length < 76 := short
    have hto : data.length.toUInt8.toNat = data.length := toNat_toUInt8 (by omega)
    have hdirect : data.length.toUInt8 < opPushdata1 := by
      rw [UInt8.lt_iff_toNat_lt, hto]
      exact short
    refine ⟨data.length.toUInt8, .inl ?_, ?_⟩
    · simp only [Bool.and_eq_true, decide_eq_true_eq, UInt8.le_iff_toNat_le, hto]
      exact ⟨nonempty, Nat.le_of_lt_succ hlt⟩
    · rw [List.cons_append, getScriptOp_direct hdirect, hto]
      simp
  | @sized opcode width field bound =>
    refine ⟨opcode, field.isPushOpcode, ?_⟩
    rw [List.cons_append, List.append_assoc, field.getScriptOp_eq]
    simp [readLE_writeLE bound]

theorem getScriptOp_opcode {first opcode : UInt8} {tail data rest : Bytes}
    (h : getScriptOp (first :: tail) = some (opcode, data, rest)) : first = opcode := by
  simp only [getScriptOp] at h
  split_ifs at h with hle
  · split at h
    · cases h
    · split_ifs at h
      exact congrArg Prod.fst (Option.some.inj h)
  · exact congrArg Prod.fst (Option.some.inj h)

theorem exists_lengthField {opcode : UInt8}
    (h : opcode = opPushdata1 ∨ opcode = opPushdata2 ∨ opcode = opPushdata4) :
    ∃ width, LengthField opcode width := by
  obtain rfl | rfl | rfl := h
  · exact ⟨1, .pushdata1⟩
  · exact ⟨2, .pushdata2⟩
  · exact ⟨4, .pushdata4⟩

theorem push_of_getScriptOp {script : CScript} {opcode : UInt8} {data rest : Bytes}
    (hop : IsPushOpcode opcode) (h : getScriptOp script = some (opcode, data, rest)) :
    ∃ push, Push data push ∧ script = push ++ rest := by
  cases script with
  | nil => cases h
  | cons first tail =>
    obtain rfl := getScriptOp_opcode h
    cases hop with
    | inl hdirect =>
      simp only [Bool.and_eq_true, decide_eq_true_eq, UInt8.le_iff_toNat_le] at hdirect
      have hlt : first < opPushdata1 := by
        rw [UInt8.lt_iff_toNat_lt]
        exact Nat.lt_succ_of_le hdirect.2
      rw [getScriptOp_direct hlt] at h
      split_ifs at h with hshort
      obtain ⟨field, after, rfl, hlen⟩ := exists_field (Nat.not_lt.mp hshort)
      rw [← hlen, List.take_left, List.drop_left] at h
      cases h
      have hopcode : first = data.length.toUInt8 := by
        rw [← UInt8.toNat_inj, hlen, toNat_toUInt8 first.toNat_lt]
      refine ⟨_, .direct (hlen ▸ hdirect.1) (hlen ▸ Nat.lt_succ_of_le hdirect.2), ?_⟩
      rw [← hopcode, List.cons_append]
    | inr hsized =>
      obtain ⟨width, hfield⟩ := exists_lengthField hsized
      rw [hfield.getScriptOp_eq] at h
      split_ifs at h with hshort hdata
      obtain ⟨field, after, rfl, hlen⟩ := exists_field (Nat.not_lt.mp hshort)
      rw [← hlen, List.take_left, List.drop_left] at h hdata
      obtain ⟨payload, after, rfl, hpayload⟩ := exists_field (Nat.not_lt.mp hdata)
      rw [← hpayload, List.take_left, List.drop_left] at h
      cases h
      have hbound : data.length < 256 ^ width := by
        rw [hpayload, ← hlen]
        exact readLE_lt field
      have hfieldEq : writeLE width data.length = field := by
        rw [hpayload, ← hlen, writeLE_readLE]
      refine ⟨_, .sized hfield hbound, ?_⟩
      rw [hfieldEq, List.cons_append, List.append_assoc]

theorem script_of_opReturn {script vch tail : Bytes}
    (h : getScriptOp script = some (opReturn, vch, tail)) :
    script = opReturn :: tail := by
  cases script with
  | nil => cases h
  | cons first rest =>
    obtain rfl := getScriptOp_opcode h
    cases h
    rfl

theorem getOpReturnData_push {data push : Bytes} (h : Push data push) (rest : CScript) :
    getOpReturnData (opReturn :: (push ++ rest)) = data := by
  obtain ⟨opcode, hop, hget⟩ := getScriptOp_push h rest
  have hfirst : getScriptOp (opReturn :: (push ++ rest)) = some (opReturn, [], push ++ rest) := rfl
  simp only [getOpReturnData, hfirst, ne_eq, not_true_eq_false, if_false, hget]
  exact if_pos hop

/-- **Data is found only after an `OP_RETURN`, in a complete push.** -/
theorem exists_push_of_getOpReturnData {script : CScript} (h : getOpReturnData script ≠ []) :
    ∃ push rest, Push (getOpReturnData script) push ∧ script = opReturn :: (push ++ rest) := by
  unfold getOpReturnData at h ⊢
  cases hfirst : getScriptOp script with
  | none => simp [hfirst] at h
  | some first =>
    obtain ⟨opcode, vch, tail⟩ := first
    simp only [hfirst] at h ⊢
    by_cases hreturn : opcode = opReturn
    · simp only [hreturn, ne_eq, not_true_eq_false, if_false] at h ⊢
      cases hsecond : getScriptOp tail with
      | none => simp [hsecond] at h
      | some second =>
        obtain ⟨push, data, rest⟩ := second
        simp only [hsecond] at h ⊢
        split_ifs at h ⊢ with hop
        · obtain ⟨encoded, hpush, rfl⟩ := push_of_getScriptOp hop hsecond
          exact ⟨encoded, rest, hpush, script_of_opReturn (hreturn ▸ hfirst)⟩
        · exact absurd rfl h
    · simp [hreturn] at h

/-! ### The payload -/

theorem TokenIssuance.decimals_le_of_isValid {reserved : List Bytes} {x : TokenIssuance}
    (h : x.isValid reserved = true) : x.decimals ≤ maxDecimals := by
  simp only [TokenIssuance.isValid, Bool.and_eq_true, decide_eq_true_eq] at h
  exact h.1.1.1.1.2

theorem parseIssuance_fields (head : Bytes) {tickerSlot nameSlot supply hash : Bytes}
    (decimals : UInt8) (extra : Bytes) (hticker : tickerSlot.length = maxTickerLength)
    (hname : nameSlot.length = maxNameLength) (hsupply : supply.length = 8)
    (hhash : hash.length = 32) :
    parseIssuance (head ++ (tickerSlot ++ (nameSlot ++ (decimals :: (supply ++ (hash ++ extra))))))
        head.length =
      some ⟨untilNull tickerSlot, untilNull nameSlot, decimals.toNat, readLE supply,
        uint256OfBytes hash⟩ := by
  generalize hdata : head ++
    (tickerSlot ++ (nameSlot ++ (decimals :: (supply ++ (hash ++ extra))))) = data
  have hlen : data.length = head.length + (4 + (32 + (1 + (8 + (32 + extra.length))))) := by
    rw [← hdata]
    simp only [List.length_append, List.length_cons, hticker, hname, hsupply, hhash,
      maxTickerLength, maxNameLength]
    omega
  -- the payload from each field on
  have hdrop : ∀ k, data.drop (head.length + k) =
      (tickerSlot ++ (nameSlot ++ (decimals :: (supply ++ (hash ++ extra))))).drop k := by
    rw [← hdata]
    exact drop_field rfl _
  have hafter : ∀ k, data.drop (head.length + maxTickerLength + maxNameLength + k) =
      (decimals :: (supply ++ (hash ++ extra))).drop k := by
    intro k
    rw [Nat.add_assoc, Nat.add_assoc, hdrop, drop_field hticker, drop_field hname]
  have hget : data.getD (head.length + maxTickerLength + maxNameLength) 0 = decimals := by
    rw [List.getD_eq_getElem?_getD, ← List.head?_drop]
    exact congrArg (fun l => l.head?.getD 0) (hafter 0)
  unfold parseIssuance
  rw [if_neg (by omega)]
  simp only []
  rw [if_neg (by simp only [maxTickerLength, maxNameLength]; omega),
    if_neg (by simp only [maxTickerLength, maxNameLength]; omega), hget, hafter 1, hafter 9,
    hdrop maxTickerLength]
  have hticker0 := hdrop 0
  rw [Nat.add_zero, List.drop_zero] at hticker0
  have hname0 := drop_field hticker (nameSlot ++ (decimals :: (supply ++ (hash ++ extra)))) 0
  rw [Nat.add_zero, List.drop_zero] at hname0
  have hhash0 : (decimals :: (supply ++ (hash ++ extra))).drop 9 = hash ++ extra := by
    rw [List.drop_succ_cons, ← hsupply, List.drop_left]
  rw [hticker0, hname0, hhash0, List.drop_succ_cons, List.drop_zero, take_field hticker,
    take_field hname, take_field hsupply, take_field hhash]

theorem parseMove_fields (head : Bytes) {tokenId amount : Bytes} (extra : Bytes)
    (hid : tokenId.length = 32) (hamount : amount.length = 8) :
    parseMove (head ++ (tokenId ++ (amount ++ extra))) head.length =
      some (uint256OfBytes tokenId, readLE amount) := by
  unfold parseMove
  rw [if_neg (by simp [hid, hamount]; omega), List.drop_left, take_field hid, drop_field rfl,
    ← hid, List.drop_left, take_field hamount]

/-- The fields behind a parsed issuance. -/
theorem fields_of_parseIssuance {head tail : Bytes} {x : TokenIssuance}
    (h : parseIssuance (head ++ tail) head.length = some x) :
    ∃ tickerSlot nameSlot extra, Slot maxTickerLength x.ticker tickerSlot ∧
      Slot maxNameLength x.name nameSlot ∧
      tail = (tickerSlot ++ (nameSlot ++ (x.decimals.toUInt8 ::
        (writeLE 8 x.totalSupply ++ uint256Bytes x.metadataHash)))) ++ extra := by
  have hlen : 77 ≤ tail.length := by
    simp only [parseIssuance] at h
    split_ifs at h with hticker hname hrest
    rw [List.length_append] at hrest
    simp only [maxTickerLength, maxNameLength] at hrest
    omega
  obtain ⟨tickerSlot, tail, rfl, hticker⟩ := exists_field (show 4 ≤ tail.length by omega)
  rw [List.length_append, hticker] at hlen
  obtain ⟨nameSlot, tail, rfl, hname⟩ := exists_field (show 32 ≤ tail.length by omega)
  rw [List.length_append, hname] at hlen
  cases tail with
  | nil => simp at hlen
  | cons decimals tail =>
    rw [List.length_cons] at hlen
    obtain ⟨supply, tail, rfl, hsupply⟩ := exists_field (show 8 ≤ tail.length by omega)
    rw [List.length_append, hsupply] at hlen
    obtain ⟨hash, extra, rfl, hhash⟩ := exists_field (show 32 ≤ tail.length by omega)
    rw [parseIssuance_fields head decimals extra hticker hname hsupply hhash] at h
    obtain rfl := Option.some.inj h
    refine ⟨tickerSlot, nameSlot, extra, ⟨hticker, (untilNull_slot tickerSlot).2⟩,
      ⟨hname, (untilNull_slot nameSlot).2⟩, ?_⟩
    have hback := writeLE_readLE supply
    rw [hsupply] at hback
    simp [hback, uint256Bytes_uint256OfBytes hhash]

theorem fields_of_parseMove {head tail : Bytes} {tokenId : TokenId} {amount : ℕ}
    (h : parseMove (head ++ tail) head.length = some (tokenId, amount)) :
    ∃ extra, tail = (uint256Bytes tokenId ++ writeLE 8 amount) ++ extra := by
  have hlen : 40 ≤ tail.length := by
    unfold parseMove at h
    split_ifs at h with hshort
    rw [List.length_append] at hshort
    omega
  obtain ⟨hash, tail, rfl, hhash⟩ := exists_field (show 32 ≤ tail.length by omega)
  rw [List.length_append, hhash] at hlen
  obtain ⟨field, extra, rfl, hfield⟩ := exists_field (show 8 ≤ tail.length by omega)
  rw [parseMove_fields head extra hhash hfield] at h
  cases h
  have hback := writeLE_readLE field
  rw [hfield] at hback
  exact ⟨extra, by rw [uint256Bytes_uint256OfBytes hhash, hback, List.append_assoc]⟩

theorem parseIssuance_layout (head : Bytes) {reserved : List Bytes} {x : TokenIssuance}
    {tickerSlot nameSlot : Bytes} (hticker : Slot maxTickerLength x.ticker tickerSlot)
    (hname : Slot maxNameLength x.name nameSlot) (hvalid : x.isValid reserved = true)
    (extra : Bytes) :
    parseIssuance (head ++ ((tickerSlot ++ (nameSlot ++ (x.decimals.toUInt8 ::
      (writeLE 8 x.totalSupply ++ uint256Bytes x.metadataHash)))) ++ extra)) head.length =
        some x := by
  obtain ⟨-, -, -, hsupply⟩ := TokenIssuance.isValid_bounds hvalid
  have hdecimals := TokenIssuance.decimals_le_of_isValid hvalid
  have hassoc : (tickerSlot ++ (nameSlot ++ (x.decimals.toUInt8 ::
      (writeLE 8 x.totalSupply ++ uint256Bytes x.metadataHash)))) ++ extra =
      tickerSlot ++ (nameSlot ++ (x.decimals.toUInt8 ::
        (writeLE 8 x.totalSupply ++ (uint256Bytes x.metadataHash ++ extra)))) := by
    simp
  rw [hassoc, parseIssuance_fields head _ extra hticker.1 hname.1 (writeLE_length _ _)
    (uint256Bytes_length _), hticker.untilNull_eq, hname.untilNull_eq,
    toNat_toUInt8 (Nat.lt_of_le_of_lt hdecimals (by decide)),
    readLE_writeLE (Nat.lt_of_le_of_lt hsupply (by decide)), uint256OfBytes_uint256Bytes]

theorem parseMove_layout (head : Bytes) {tokenId : TokenId} {amount : ℕ}
    (hvalid : isValidMove tokenId amount = true) (extra : Bytes) :
    parseMove (head ++ ((uint256Bytes tokenId ++ writeLE 8 amount) ++ extra)) head.length =
      some (tokenId, amount) := by
  rw [List.append_assoc, parseMove_fields head extra (uint256Bytes_length _) (writeLE_length _ _),
    uint256OfBytes_uint256Bytes,
    readLE_writeLE (Nat.lt_of_le_of_lt (isValidMove_bounds hvalid).2 (by decide))]

/-! ### The parser -/

/-- The part of the parser that is left once protocol, version and action are known. -/
def parseBody (reserved : List Bytes) (data : Bytes) (offset : ℕ) :
    TokenAction → Option SRC20Operation
  | .invalid => none
  | .issue => (parseIssuance data offset).bind fun x =>
      if x.isValid reserved then some ⟨.issue, .issuance x⟩ else none
  | .transfer => (parseMove data offset).bind fun p =>
      if isValidMove p.1 p.2 then some ⟨.transfer, .transfer ⟨p.1, p.2⟩⟩ else none
  | .burn => (parseMove data offset).bind fun p =>
      if isValidMove p.1 p.2 then some ⟨.burn, .burn ⟨p.1, p.2⟩⟩ else none

theorem parseBody_iff {reserved : List Bytes} {head tail : Bytes} {action : TokenAction}
    {op : SRC20Operation} :
    parseBody reserved (head ++ tail) head.length action = some op ↔
      op.action = action ∧ ∃ body extra, Layout reserved op body ∧ tail = body ++ extra := by
  constructor
  · intro h
    cases action with
    | invalid => cases h
    | issue =>
      obtain ⟨x, hx, hop⟩ := Option.bind_eq_some_iff.mp h
      simp only [Option.ite_none_right_eq_some, Option.some.injEq] at hop
      obtain ⟨hvalid, rfl⟩ := hop
      obtain ⟨tickerSlot, nameSlot, extra, hticker, hname, htail⟩ := fields_of_parseIssuance hx
      exact ⟨rfl, _, extra, .issue hticker hname hvalid, htail⟩
    | transfer =>
      obtain ⟨⟨tokenId, amount⟩, hx, hop⟩ := Option.bind_eq_some_iff.mp h
      simp only [Option.ite_none_right_eq_some, Option.some.injEq] at hop
      obtain ⟨hvalid, rfl⟩ := hop
      obtain ⟨extra, htail⟩ := fields_of_parseMove hx
      exact ⟨rfl, _, extra, .transfer (x := ⟨tokenId, amount⟩) hvalid, htail⟩
    | burn =>
      obtain ⟨⟨tokenId, amount⟩, hx, hop⟩ := Option.bind_eq_some_iff.mp h
      simp only [Option.ite_none_right_eq_some, Option.some.injEq] at hop
      obtain ⟨hvalid, rfl⟩ := hop
      obtain ⟨extra, htail⟩ := fields_of_parseMove hx
      exact ⟨rfl, _, extra, .burn (x := ⟨tokenId, amount⟩) hvalid, htail⟩
  · intro h
    obtain ⟨rfl, body, extra, hlayout, rfl⟩ := h
    cases hlayout with
    | issue ticker name valid =>
      simp only [parseBody, parseIssuance_layout head ticker name valid extra, Option.bind_some,
        valid, if_true]
    | transfer valid =>
      simp only [parseBody, parseMove_layout head valid extra, Option.bind_some]
      exact if_pos valid
    | burn valid =>
      simp only [parseBody, parseMove_layout head valid extra, Option.bind_some]
      exact if_pos valid

theorem parseSRC20Script_head {script : CScript} {version action : UInt8} {tail : Bytes}
    (h : getOpReturnData script = src20ProtocolId ++ (version :: action :: tail))
    (reserved : List Bytes) :
    parseSRC20Script reserved script =
      if version < src20MinSupportedVersion ∨ src20MaxSupportedVersion < version then none
      else parseBody reserved ((src20ProtocolId ++ [version, action]) ++ tail)
        (src20ProtocolId ++ [version, action]).length (actionFromByte action) := by
  have hlen : ¬ (src20ProtocolId ++ (version :: action :: tail)).length < 7 := by
    simp [src20ProtocolId]
  have hversion :
      (src20ProtocolId ++ (version :: action :: tail)).getD src20ProtocolId.length 0 = version :=
    rfl
  have haction : (src20ProtocolId ++ (version :: action :: tail)).getD
      (src20ProtocolId.length + 1) 0 =
      action := rfl
  simp only [parseSRC20Script, h, hlen, if_false, List.take_left, ne_eq, not_true_eq_false,
    hversion, haction]
  split_ifs with hsupported
  · rfl
  · have hdata : src20ProtocolId ++ (version :: action :: tail) =
        (src20ProtocolId ++ [version, action]) ++ tail := by simp
    have hoffset : src20ProtocolId.length + 2 = (src20ProtocolId ++ [version, action]).length := rfl
    rw [hdata, hoffset]
    cases actionFromByte action with
    | invalid => rfl
    | issue => cases h : parseIssuance _ _ <;> simp only [parseBody, h] <;> rfl
    | transfer => cases h : parseMove _ _ <;> simp only [parseBody, h] <;> rfl
    | burn => cases h : parseMove _ _ <;> simp only [parseBody, h] <;> rfl

theorem head_of_parseSRC20Script {reserved : List Bytes} {script : CScript} {op : SRC20Operation}
    (h : parseSRC20Script reserved script = some op) :
    ∃ version action tail,
      getOpReturnData script = src20ProtocolId ++ (version :: action :: tail) := by
  simp only [parseSRC20Script] at h
  generalize getOpReturnData script = data at h ⊢
  split_ifs at h with hlen hprotocol
  have hlen : 7 ≤ data.length := Nat.not_lt.mp hlen
  obtain ⟨field, rest, rfl, hfield⟩ := exists_field (show 5 ≤ data.length by omega)
  rw [ne_eq, not_not, show src20ProtocolId.length = 5 from rfl, take_field hfield] at hprotocol
  rw [List.length_append, hfield] at hlen
  obtain ⟨version, rest, rfl⟩ := List.exists_cons_of_length_pos (l := rest) (by omega)
  rw [List.length_cons] at hlen
  obtain ⟨action, rest, rfl⟩ := List.exists_cons_of_length_pos (l := rest) (by omega)
  exact ⟨version, action, rest, by rw [hprotocol]⟩

theorem actionFromByte_toByte {action : TokenAction} (h : action ≠ .invalid) :
    actionFromByte action.toByte = action := by
  cases action with
  | invalid => exact absurd rfl h
  | issue => rfl
  | transfer => rfl
  | burn => rfl

theorem toByte_actionFromByte {byte : UInt8} (h : actionFromByte byte ≠ .invalid) :
    (actionFromByte byte).toByte = byte := by
  unfold actionFromByte at h ⊢
  split_ifs at h ⊢ with h1 h2 h3
  · exact h1.symm
  · exact h2.symm
  · exact h3.symm
  · exact absurd rfl h

theorem Layout.action_ne_invalid {reserved : List Bytes} {op : SRC20Operation} {body : Bytes}
    (h : Layout reserved op body) : op.action ≠ .invalid := by
  cases h <;> exact fun h => nomatch h

/-- **The parser accepts exactly the payloads of the grammar.** -/
theorem parseSRC20Script_iff_payload {reserved : List Bytes} {script : CScript}
    {op : SRC20Operation} :
    parseSRC20Script reserved script = some op ↔
      SRC20Payload reserved op (getOpReturnData script) := by
  constructor
  · intro h
    obtain ⟨version, byte, tail, hdata⟩ := head_of_parseSRC20Script h
    rw [parseSRC20Script_head hdata, Option.ite_none_left_eq_some, not_or, UInt8.not_lt,
      UInt8.not_lt, parseBody_iff] at h
    obtain ⟨⟨hmin, hmax⟩, haction, body, extra, hlayout, rfl⟩ := h
    refine ⟨version, body, extra, hmin, hmax, hlayout, ?_⟩
    rw [hdata, haction, toByte_actionFromByte (haction ▸ hlayout.action_ne_invalid)]
  · intro h
    obtain ⟨version, body, extra, hmin, hmax, hlayout, hdata⟩ := h
    rw [parseSRC20Script_head hdata, Option.ite_none_left_eq_some, not_or, UInt8.not_lt,
      UInt8.not_lt, actionFromByte_toByte hlayout.action_ne_invalid, parseBody_iff]
    exact ⟨⟨hmin, hmax⟩, rfl, body, extra, hlayout, rfl⟩

theorem SRC20Payload.ne_nil {reserved : List Bytes} {op : SRC20Operation} {data : Bytes}
    (h : SRC20Payload reserved op data) : data ≠ [] := by
  obtain ⟨version, body, extra, -, -, -, rfl⟩ := h
  exact fun h => nomatch h

/-- The parser against the grammar of whole scripts. -/
theorem parseSRC20Script_eq_some_iff {reserved : List Bytes} {script : CScript}
    {op : SRC20Operation} :
    parseSRC20Script reserved script = some op ↔ SRC20Grammar reserved op script := by
  rw [parseSRC20Script_iff_payload]
  constructor
  · intro h
    obtain ⟨push, rest, hpush, hscript⟩ := exists_push_of_getOpReturnData h.ne_nil
    exact ⟨_, push, rest, h, hpush, hscript⟩
  · intro h
    obtain ⟨data, push, rest, hpayload, hpush, rfl⟩ := h
    rwa [getOpReturnData_push hpush]

end OpenSY.Src20
