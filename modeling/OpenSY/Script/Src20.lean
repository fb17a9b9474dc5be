import OpenSY.Chain.Primitives

/-!
# The SRC-20 token protocol

Parsing and building of the data-carrier scripts that hold token operations.  A payload starts with
the protocol identifier, a version byte and an action byte; an issuance then has a 4-byte ticker, a
32-byte name, a decimals byte, an 8-byte supply and a 32-byte metadata hash, a transfer or burn a
32-byte token id and an 8-byte amount.

The set of tickers reserved at run time is process-wide state in the source, changed by
`AddReservedTicker` only; every function that consults it takes it as the argument `reserved`.

What block processing relies on is stated at the end: a transaction yields at most `maxOpsPerTx`
operations, and a transfer recipient is never the empty script.
-/

namespace OpenSY.Src20

open OpenSY.Chain

def src20Version : UInt8 := 1
def src20MinSupportedVersion : UInt8 := 1
def src20MaxSupportedVersion : UInt8 := 1

/-- Operations applied per block at most. -/
def maxTokensPerBlock : ℕ := 100

def minTokenIssuanceFee : CAmount := 100 * coin

/-- Operations parsed per transaction at most. -/
def maxOpsPerTx : ℕ := 4

/-- The bytes of `SRC20`. -/
def src20ProtocolId : Bytes := [0x53, 0x52, 0x43, 0x32, 0x30]

def maxTickerLength : ℕ := 4
def minTickerLength : ℕ := 3
def maxNameLength : ℕ := 32
def maxDecimals : ℕ := 18

inductive TokenAction where
  | issue
  | transfer
  | burn
  | invalid
  deriving DecidableEq

def actionFromByte (byte : UInt8) : TokenAction :=
  if byte = 0x01 then .issue
  else if byte = 0x02 then .transfer
  else if byte = 0x03 then .burn
  else .invalid

def TokenAction.toByte : TokenAction → UInt8
  | .issue => 0x01
  | .transfer => 0x02
  | .burn => 0x03
  | .invalid => 0xff

/-- A token is named by the txid of its issuance. -/
abbrev TokenId : Type := Uint256

/-! ### Reserved tickers -/

/-- `SYL`, `OSYL`, `ESYP`, `SUSD`, `SUST`, `BTC`, `ETH`, `USDT`, `USDC`. -/
def reservedTickers : List Bytes :=
  [[0x53, 0x59, 0x4c], [0x4f, 0x53, 0x59, 0x4c], [0x45, 0x53, 0x59, 0x50],
   [0x53, 0x55, 0x53, 0x44], [0x53, 0x55, 0x53, 0x54], [0x42, 0x54, 0x43],
   [0x45, 0x54, 0x48], [0x55, 0x53, 0x44, 0x54], [0x55, 0x53, 0x44, 0x43]]

def isReservedTicker (reserved : List Bytes) (ticker : Bytes) : Bool :=
  reservedTickers.contains ticker || reserved.contains ticker

/-! ### The three payloads and their validity -/

structure TokenIssuance where
  ticker : Bytes
  name : Bytes
  decimals : ℕ
  totalSupply : ℕ
  metadataHash : Uint256
  deriving DecidableEq

structure TokenTransfer where
  tokenId : TokenId
  amount : ℕ
  deriving DecidableEq

structure TokenBurn where
  tokenId : TokenId
  amount : ℕ
  deriving DecidableEq

/-- An upper-case ASCII letter or a digit. -/
def isTickerChar (c : UInt8) : Bool := (0x41 ≤ c && c ≤ 0x5a) || (0x30 ≤ c && c ≤ 0x39)

/-- A letter, a digit, space, hyphen, period or parenthesis. -/
def isNameChar (c : UInt8) : Bool :=
  !(c < 0x20 || c = 0x7f || 0x80 ≤ c) &&
    ((0x41 ≤ c && c ≤ 0x5a) || (0x61 ≤ c && c ≤ 0x7a) || (0x30 ≤ c && c ≤ 0x39) ||
      c = 0x20 || c = 0x2d || c = 0x2e || c = 0x28 || c = 0x29)

def hasDoubleSpace : Bytes → Bool
  | a :: b :: rest => (a = 0x20 && b = 0x20) || hasDoubleSpace (b :: rest)
  | _ => false

/-- The name rules: 1 to 32 allowed characters, no outer and no doubled spaces. -/
def isValidName (name : Bytes) : Bool :=
  !name.isEmpty && name.length ≤ maxNameLength && name.all isNameChar &&
    name.head? ≠ some 0x20 && name.getLast? ≠ some 0x20 && !hasDoubleSpace name

def TokenIssuance.isValid (reserved : List Bytes) (x : TokenIssuance) : Bool :=
  minTickerLength ≤ x.ticker.length && x.ticker.length ≤ maxTickerLength &&
    x.ticker.all isTickerChar && isValidName x.name && x.decimals ≤ maxDecimals &&
    x.totalSupply ≠ 0 && x.totalSupply ≤ int64Max &&
    (x.decimals = 0 || x.totalSupply ≤ uint64Max / 10 ^ x.decimals) &&
    !isReservedTicker reserved x.ticker

/-- The check shared by transfers and burns. -/
def isValidMove (tokenId : TokenId) (amount : ℕ) : Bool :=
  tokenId ≠ 0 && 0 < amount && amount ≤ int64Max

def TokenTransfer.isValid (x : TokenTransfer) : Bool := isValidMove x.tokenId x.amount

def TokenBurn.isValid (x : TokenBurn) : Bool := isValidMove x.tokenId x.amount

/-- The payload of a parsed operation, a `std::variant` in the source. -/
inductive TokenData where
  | issuance (x : TokenIssuance)
  | transfer (x : TokenTransfer)
  | burn (x : TokenBurn)
  deriving DecidableEq

structure SRC20Operation where
  action : TokenAction
  data : TokenData
  deriving DecidableEq

def SRC20Operation.getIssuance (op : SRC20Operation) : Option TokenIssuance :=
  match op.data with
  | .issuance x => some x
  | _ => none

def SRC20Operation.getTransfer (op : SRC20Operation) : Option TokenTransfer :=
  match op.data with
  | .transfer x => some x
  | _ => none

def SRC20Operation.getBurn (op : SRC20Operation) : Option TokenBurn :=
  match op.data with
  | .burn x => some x
  | _ => none

/-! ### Parsing -/

/-- The data pushed right after an `OP_RETURN`, or nothing. -/
def getOpReturnData (script : CScript) : Bytes :=
  match getScriptOp script with
  | none => []
  | some (opcode, _, rest) =>
    if opcode ≠ opReturn then []
    else
      match getScriptOp rest with
      | none => []
      | some (push, vch, _) =>
        if (0x01 ≤ push && push ≤ 0x4b) ∨
            (push = opPushdata1 ∨ push = opPushdata2 ∨ push = opPushdata4) then vch
        else []

def isSRC20Script (script : CScript) : Bool :=
  let data := getOpReturnData script
  if data.length < src20ProtocolId.length + 2 then false
  else data.take src20ProtocolId.length = src20ProtocolId

/-- A hash from its bytes in memory order. -/
def uint256OfBytes (bytes : Bytes) : Uint256 :=
  BitVec.ofNat 256 (bytes.foldl (fun acc b => acc * 256 + b.toNat) 0)

/-- The bytes of a slot up to its first zero byte. -/
def untilNull (slot : Bytes) : Bytes := slot.takeWhile (· ≠ 0)

/-- The fields of an issuance payload that starts at `offset`. -/
def parseIssuance (data : Bytes) (offset : ℕ) : Option TokenIssuance :=
  if data.length < offset + 4 then none
  else
    let ticker := untilNull ((data.drop offset).take maxTickerLength)
    let offset := offset + maxTickerLength
    if data.length < offset + maxNameLength then none
    else
      let name := untilNull ((data.drop offset).take maxNameLength)
      let offset := offset + maxNameLength
      if data.length < offset + 1 + 8 + 32 then none
      else
        some {
          ticker := ticker
          name := name
          decimals := (data.getD offset 0).toNat
          totalSupply := readLE ((data.drop (offset + 1)).take 8)
          metadataHash := uint256OfBytes ((data.drop (offset + 9)).take 32) }

/-- The token id and amount of a transfer or burn payload that starts at `offset`. -/
def parseMove (data : Bytes) (offset : ℕ) : Option (TokenId × ℕ) :=
  if data.length < offset + 32 + 8 then none
  else
    some (uint256OfBytes ((data.drop offset).take 32), readLE ((data.drop (offset + 32)).take 8))

def parseSRC20Script (reserved : List Bytes) (script : CScript) : Option SRC20Operation :=
  let data := getOpReturnData script
  if data.length < 7 then none
  else if data.take src20ProtocolId.length ≠ src20ProtocolId then none
  else
    let offset := src20ProtocolId.length
    let version := data.getD offset 0
    if version < src20MinSupportedVersion ∨ src20MaxSupportedVersion < version then none
    else
      let action := actionFromByte (data.getD (offset + 1) 0)
      let offset := offset + 2
      match action with
      | .invalid => none
      | .issue =>
        match parseIssuance data offset with
        | none => none
        | some x => if x.isValid reserved then some ⟨action, .issuance x⟩ else none
      | .transfer =>
        match parseMove data offset with
        | none => none
        | some (tokenId, amount) =>
          let x : TokenTransfer := ⟨tokenId, amount⟩
          if x.isValid then some ⟨action, .transfer x⟩ else none
      | .burn =>
        match parseMove data offset with
        | none => none
        | some (tokenId, amount) =>
          let x : TokenBurn := ⟨tokenId, amount⟩
          if x.isValid then some ⟨action, .burn x⟩ else none

/-- One turn of the output loop of `parseTransactionSRC20`. -/
def parseOutput (reserved : List Bytes) (ops : List SRC20Operation) (vout : CTxOut) :
    List SRC20Operation :=
  if ops.length ≥ maxOpsPerTx then ops
  else if isSRC20Script vout.scriptPubKey then
    match parseSRC20Script reserved vout.scriptPubKey with
    | some op => ops ++ [op]
    | none => ops
  else ops

/-- The token operations of a transaction, in output order, cut off at `maxOpsPerTx`. -/
def parseTransactionSRC20 (reserved : List Bytes) (tx : CTransaction) : List SRC20Operation :=
  tx.vout.foldl (parseOutput reserved) []

/-- The recipient of a transfer: output 1, if output 0 is a transfer and output 1 can be spent. -/
def getTransferRecipient (reserved : List Bytes) (tx : CTransaction) : Option CScript :=
  match tx.vout with
  | out0 :: out1 :: _ =>
    match parseSRC20Script reserved out0.scriptPubKey with
    | none => none
    | some op =>
      if op.action ≠ .transfer then none
      else if out1.scriptPubKey.isEmpty || isUnspendable out1.scriptPubKey then none
      else some out1.scriptPubKey
  | _ => none

/-! ### Building -/

/-- `width` bytes of `n`, least significant first. -/
def writeLE : ℕ → ℕ → Bytes
  | 0, _ => []
  | width + 1, n => n.toUInt8 :: writeLE width (n / 256)

/-- The 32 bytes of a hash in memory order. -/
def uint256Bytes (x : Uint256) : Bytes := (writeLE 32 x.toNat).reverse

/-- A byte string cut or zero-padded to `width` bytes. -/
def padNull (width : ℕ) (bytes : Bytes) : Bytes :=
  (List.range width).map fun i => bytes.getD i 0

/-- The payload bytes common to all actions. -/
def payloadHead (action : TokenAction) : Bytes := src20ProtocolId ++ [src20Version, action.toByte]

def buildIssuanceScript (x : TokenIssuance) : CScript :=
  pushData [opReturn] (payloadHead .issue ++ padNull maxTickerLength x.ticker ++
    padNull maxNameLength x.name ++ [x.decimals.toUInt8] ++ writeLE 8 x.totalSupply ++
    uint256Bytes x.metadataHash)

def buildTransferScript (x : TokenTransfer) : CScript :=
  pushData [opReturn] (payloadHead .transfer ++ uint256Bytes x.tokenId ++ writeLE 8 x.amount)

def buildBurnScript (x : TokenBurn) : CScript :=
  pushData [opReturn] (payloadHead .burn ++ uint256Bytes x.tokenId ++ writeLE 8 x.amount)

/-! ### What block processing relies on -/

theorem parseOutput_length_le (reserved : List Bytes) {ops : List SRC20Operation}
    (h : ops.length ≤ maxOpsPerTx) (vout : CTxOut) :
    (parseOutput reserved ops vout).length ≤ maxOpsPerTx := by
  unfold parseOutput
  split_ifs with hfull hscript
  · exact h
  · split
    · rw [List.length_append, List.length_singleton]
      omega
    · exact h
  · exact h

/-- **At most `maxOpsPerTx` operations per transaction.** -/
theorem parseTransactionSRC20_length_le (reserved : List Bytes) (tx : CTransaction) :
    (parseTransactionSRC20 reserved tx).length ≤ maxOpsPerTx := by
  have hloop : ∀ (outs : List CTxOut) (ops : List SRC20Operation), ops.length ≤ maxOpsPerTx →
      (outs.foldl (parseOutput reserved) ops).length ≤ maxOpsPerTx := by
    intro outs
    induction outs with
    | nil => exact fun ops h => h
    | cons out outs ih => exact fun ops h => ih _ (parseOutput_length_le reserved h out)
  exact hloop tx.vout [] (Nat.zero_le _)

/-- **A recipient is never the empty script, and it is output 1.** -/
theorem getTransferRecipient_spec {reserved : List Bytes} {tx : CTransaction}
    {recipient : CScript} (h : getTransferRecipient reserved tx = some recipient) :
    recipient ≠ [] ∧ (tx.vout[1]?).map CTxOut.scriptPubKey = some recipient := by
  unfold getTransferRecipient at h
  split at h
  · rename_i out0 out1 rest hvout
    split at h
    · simp at h
    · split_ifs at h with haction hspend
      obtain rfl := Option.some.inj h
      refine ⟨?_, by simp [hvout]⟩
      intro hempty
      simp [hempty] at hspend
  · simp at h

theorem TokenIssuance.isValid_bounds {reserved : List Bytes} {x : TokenIssuance}
    (h : x.isValid reserved = true) :
    x.ticker.length ≤ maxTickerLength ∧ x.name.length ≤ maxNameLength ∧ 0 < x.totalSupply ∧
      x.totalSupply ≤ int64Max := by
  simp only [TokenIssuance.isValid, isValidName, Bool.and_eq_true, decide_eq_true_eq] at h
  obtain ⟨⟨⟨⟨⟨⟨⟨⟨-, hticker⟩, -⟩, hname⟩, -⟩, hpos⟩, hmax⟩, -⟩, -⟩ := h
  obtain ⟨⟨⟨⟨⟨-, hlen⟩, -⟩, -⟩, -⟩, -⟩ := hname
  exact ⟨hticker, hlen, Nat.pos_of_ne_zero hpos, hmax⟩

theorem isValidMove_bounds {tokenId : TokenId} {amount : ℕ}
    (h : isValidMove tokenId amount = true) :
    0 < amount ∧ amount ≤ int64Max := by
  simp only [isValidMove, Bool.and_eq_true, decide_eq_true_eq] at h
  exact ⟨h.1.2, h.2⟩

end OpenSY.Src20
