import OpenSY.Rpc.Amount
import OpenSY.Wallet.Spend

/-!
# Token calls

`issuetoken`, `transfertoken` and `burntoken` read their arguments and return the script of the
operation; `walletissuetoken` reads the same arguments as `issuetoken` and builds the whole
transaction.  What a caller asked for is read off the arguments (`askedIssuance`, `askedTransfer`,
`askedBurn`).

* `readIssuance_ok` — the issuance that is built: what was asked for, but without its metadata hash,
  since the hash that was read is not stored;
* `parse_issuance_iff`, `parse_transfer_iff`, `parse_burn_iff` — what the scripts are parsed to; of
  a transfer and a burn the parser takes no more than `INT64_MAX`, the calls any amount of 64 bits;
* `scripts_mean_what_was_asked_iff` — so a script means what was asked for exactly if no metadata
  hash was given, and if the amount is one the parser takes.
-/

namespace OpenSY.Rpc

open OpenSY.Chain OpenSY.Script OpenSY.Src20 OpenSY.Tokens OpenSY.Wallet OpenSY.DecimalText

/-! ### Arguments -/

def uvTypeName : UniValue → String
  | .null => "null"
  | .bool _ => "bool"
  | .num _ => "number"
  | .str _ => "string"
  | .arr => "array"
  | .obj => "object"

def rpcMiscError : ℤ := -1
def rpcWalletError : ℤ := -4
def rpcInvalidAddressOrKey : ℤ := -5
def rpcInvalidParameter : ℤ := -8
def rpcWalletKeypoolRanOut : ℤ := -12

/-- `checkType` when the type is not the expected one. -/
def typeError (value : UniValue) (expected : String) : JSONRPCError :=
  ⟨rpcTypeError,
    "JSON value of type " ++ uvTypeName value ++ " is not of expected type " ++ expected⟩

def getStr : UniValue → Except JSONRPCError Bytes
  | .str val => .ok val
  | value => .error (typeError value "string")

/-- `getInt` for an unsigned type with the given greatest value. -/
def getUInt (max : ℕ) : UniValue → Except JSONRPCError ℕ
  | .num val =>
    if !val.isEmpty && val.all isDigit && decimalValue val ≤ max then .ok (decimalValue val)
    else .error ⟨rpcMiscError, "JSON integer out of range"⟩
  | value => .error (typeError value "number")

def uint8Max : ℕ := 2 ^ 8 - 1

def hexDigit (c : UInt8) : Option UInt8 :=
  if 0x30 ≤ c && c ≤ 0x39 then some (c - 0x30)
  else if 0x61 ≤ c && c ≤ 0x66 then some (c - 0x61 + 10)
  else if 0x41 ≤ c && c ≤ 0x46 then some (c - 0x41 + 10)
  else none

/-- The bytes of a text of hex digits, two for each byte. -/
def hexBytes : Bytes → Option Bytes
  | [] => some []
  | [_] => none
  | high :: low :: rest => do
    let h ← hexDigit high
    let l ← hexDigit low
    let bytes ← hexBytes rest
    some ((h * 16 + l) :: bytes)

/-- `FromHex`: 64 digits, the last byte in memory first. -/
def uint256FromHex (str : Bytes) : Option Uint256 :=
  if str.length ≠ 64 then none else (hexBytes str).map fun bytes => uint256OfBytes bytes.reverse

/-- Arguments that are not given are null. -/
def param (params : List UniValue) (i : ℕ) : UniValue := params.getD i .null

/-! ### The calls -/

/-- What the calls read besides their arguments.  `admitted` stands for the checks in front: the
database is there and the caller is within the rate limit. -/
structure TokenRpc where
  db : TokenDB
  reserved : List Bytes
  admitted : Except JSONRPCError Unit
  decodeDestination : Bytes → CTxDestination

/-- The arguments of an issuance. -/
def readIssuance (params : List UniValue) : Except JSONRPCError TokenIssuance := do
  let ticker ← getStr (param params 0)
  let name ← getStr (param params 1)
  let decimals ← getUInt uint8Max (param params 2)
  let totalSupply ← getUInt uint64Max (param params 3)
  let issuance : TokenIssuance := ⟨ticker, name, decimals, totalSupply, 0⟩
  if param params 4 = .null then .ok issuance
  else
    let hashHex ← getStr (param params 4)
    if hashHex.isEmpty then .ok issuance
    -- `FromHex` is a static function: the hash it returns is tested and dropped
    else if (uint256FromHex hashHex).isNone then
      .error ⟨rpcInvalidParameter, "Invalid metadata hash"⟩
    else .ok issuance

def checkIssuance (rpc : TokenRpc) (issuance : TokenIssuance) : Except JSONRPCError Unit :=
  if !issuance.isValid rpc.reserved then .error ⟨rpcInvalidParameter, "Invalid issuance parameters"⟩
  else if rpc.db.tickerExists issuance.ticker then
    .error ⟨rpcInvalidParameter, "Ticker already exists"⟩
  else if isReservedTicker rpc.reserved issuance.ticker then
    .error ⟨rpcInvalidParameter, "Ticker is reserved"⟩
  else .ok ()

structure IssueTokenResult where
  /-- printed as `op_return_hex` -/
  opReturnScript : CScript
  ticker : Bytes
  name : Bytes
  decimals : ℕ
  totalSupply : ℕ
  deriving DecidableEq

def issueToken (rpc : TokenRpc) (params : List UniValue) :
    Except JSONRPCError IssueTokenResult := do
  rpc.admitted
  let issuance ← readIssuance params
  checkIssuance rpc issuance
  .ok ⟨buildIssuanceScript issuance, issuance.ticker, issuance.name, issuance.decimals,
    issuance.totalSupply⟩

/-- The token of a transfer or a burn. -/
def readTokenId (rpc : TokenRpc) (value : UniValue) : Except JSONRPCError TokenId := do
  let tokenIdHex ← getStr value
  match uint256FromHex tokenIdHex with
  | none => .error ⟨rpcInvalidParameter, "Invalid token ID"⟩
  | some tokenId =>
    if !rpc.db.tokenExists tokenId then .error ⟨rpcInvalidAddressOrKey, "Token not found"⟩
      else .ok tokenId

/-- The amount of a transfer or a burn. -/
def readTokenAmount (value : UniValue) : Except JSONRPCError ℕ := do
  let amount ← getUInt uint64Max value
  if amount = 0 then .error ⟨rpcInvalidParameter, "Amount must be greater than zero"⟩
    else .ok amount

structure TransferTokenResult where
  opReturnScript : CScript
  recipientScript : CScript
  tokenId : TokenId
  amount : ℕ
  toAddress : Bytes
  deriving DecidableEq

def transferToken (rpc : TokenRpc) (params : List UniValue) :
    Except JSONRPCError TransferTokenResult := do
  rpc.admitted
  let tokenId ← readTokenId rpc (param params 0)
  let toAddress ← getStr (param params 1)
  let toDest := rpc.decodeDestination toAddress
  if !isValidDestination toDest then .error ⟨rpcInvalidAddressOrKey, "Invalid recipient address"⟩
  else
    let amount ← readTokenAmount (param params 2)
    .ok ⟨buildTransferScript ⟨tokenId, amount⟩, getScriptForDestination toDest, tokenId, amount,
      toAddress⟩

structure BurnTokenResult where
  opReturnScript : CScript
  tokenId : TokenId
  amount : ℕ
  deriving DecidableEq

def burnToken (rpc : TokenRpc) (params : List UniValue) : Except JSONRPCError BurnTokenResult := do
  rpc.admitted
  let tokenId ← readTokenId rpc (param params 0)
  let amount ← readTokenAmount (param params 1)
  .ok ⟨buildBurnScript ⟨tokenId, amount⟩, tokenId, amount⟩

/-- What `walletissuetoken` reads of the wallet.  The rate limit comes behind the transaction here.
-/
structure WalletRpc extends TokenRpc where
  getNewDestination : Except String CTxDestination
  create : CreateTransaction
  getVirtualTransactionSize : CTransaction → ℕ
  enforceRateLimit : Except JSONRPCError Unit
  commitTransaction : CTransaction → Except JSONRPCError Unit

structure WalletIssueTokenResult extends CreatedTransactionResult where
  ticker : Bytes
  name : Bytes
  decimals : ℕ
  totalSupply : ℕ
  issuerAddress : CTxDestination

def walletIssueToken (rpc : WalletRpc) (params : List UniValue) :
    Except JSONRPCError WalletIssueTokenResult := do
  rpc.admitted
  let issuance ← readIssuance params
  checkIssuance rpc.toTokenRpc issuance
  let dest ← rpc.getNewDestination.mapError fun text => ⟨rpcWalletKeypoolRanOut, text⟩
  let result ← (createIssuanceTransaction rpc.create rpc.getVirtualTransactionSize rpc.reserved
    issuance dest).mapError fun text => ⟨rpcWalletError, text⟩
  rpc.enforceRateLimit
  rpc.commitTransaction result.tx
  .ok ⟨result, issuance.ticker, issuance.name, issuance.decimals, issuance.totalSupply, dest⟩

/-! ### What was asked for -/

def textOf : UniValue → Bytes
  | .str val => val
  | _ => []

def numberOf : UniValue → ℕ
  | .num val => decimalValue val
  | _ => 0

/-- The hash an argument spells.  One that is not given, or empty, stands for the null hash. -/
def hashOf (value : UniValue) : Uint256 := (uint256FromHex (textOf value)).getD 0

def askedIssuance (params : List UniValue) : TokenIssuance :=
  ⟨textOf (param params 0), textOf (param params 1), numberOf (param params 2),
    numberOf (param params 3), hashOf (param params 4)⟩

def askedTransfer (params : List UniValue) : TokenTransfer :=
  ⟨hashOf (param params 0), numberOf (param params 2)⟩

def askedBurn (params : List UniValue) : TokenBurn :=
  ⟨hashOf (param params 0), numberOf (param params 1)⟩

/-! ### What the calls read -/

theorem bind_eq_ok {α β ε : Type} {e : Except ε α} {f : α → Except ε β} {b : β}
    (h : (e >>= f) = .ok b) :
    ∃ a, e = .ok a ∧ f a = .ok b := by
  cases e with
  | error err => simp [bind, Except.bind] at h
  | ok a => exact ⟨a, rfl, h⟩

theorem mapError_eq_ok {α ε δ : Type} {e : Except ε α} {f : ε → δ} {a : α}
    (h : e.mapError f = .ok a) : e = .ok a := by
  cases e with
  | error err => simp [Except.mapError] at h
  | ok b => rw [Except.ok.inj h]

theorem getStr_ok {value : UniValue} {text : Bytes} (h : getStr value = .ok text) :
    textOf value = text := by
  cases value with
  | str val => exact Except.ok.inj h
  | _ => simp [getStr] at h

theorem getUInt_ok {max n : ℕ} {value : UniValue} (h : getUInt max value = .ok n) :
    numberOf value = n ∧ n ≤ max := by
  cases value with
  | num val =>
    simp only [getUInt] at h
    split_ifs at h with hval
    simp only [Bool.and_eq_true, decide_eq_true_eq] at hval
    rw [← Except.ok.inj h]
    exact ⟨rfl, hval.2⟩
  | _ => simp [getUInt] at h

theorem readTokenId_ok {rpc : TokenRpc} {value : UniValue} {t : TokenId}
    (h : readTokenId rpc value = .ok t) :
    hashOf value = t := by
  obtain ⟨text, htext, h⟩ := bind_eq_ok h
  cases hhash : uint256FromHex text with
  | none => simp [hhash] at h
  | some found =>
    simp only [hhash] at h
    split_ifs at h
    rw [hashOf, getStr_ok htext, hhash, ← Except.ok.inj h]
    rfl

theorem readTokenAmount_ok {value : UniValue} {n : ℕ} (h : readTokenAmount value = .ok n) :
    numberOf value = n ∧ 0 < n := by
  obtain ⟨amount, hamount, h⟩ := bind_eq_ok h
  split_ifs at h with hzero
  rw [← Except.ok.inj h]
  exact ⟨(getUInt_ok hamount).1, Nat.pos_of_ne_zero hzero⟩

/-- **The issuance that is read** has every field but the metadata hash. -/
theorem readIssuance_ok {params : List UniValue} {x : TokenIssuance}
    (h : readIssuance params = .ok x) :
    x = { askedIssuance params with metadataHash := 0 } := by
  obtain ⟨ticker, hticker, h⟩ := bind_eq_ok h
  obtain ⟨name, hname, h⟩ := bind_eq_ok h
  obtain ⟨decimals, hdecimals, h⟩ := bind_eq_ok h
  obtain ⟨supply, hsupply, h⟩ := bind_eq_ok h
  have hx : x = ⟨ticker, name, decimals, supply, 0⟩ := by
    split_ifs at h
    · exact (Except.ok.inj h).symm
    · obtain ⟨text, -, h⟩ := bind_eq_ok h
      split_ifs at h
      · exact (Except.ok.inj h).symm
      · exact (Except.ok.inj h).symm
  rw [hx, askedIssuance, getStr_ok hticker, getStr_ok hname, (getUInt_ok hdecimals).1,
    (getUInt_ok hsupply).1]

theorem checkIssuance_ok {rpc : TokenRpc} {x : TokenIssuance} {u : Unit}
    (h : checkIssuance rpc x = .ok u) :
    x.isValid rpc.reserved = true := by
  unfold checkIssuance at h
  split_ifs at h with hvalid
  simpa using hvalid

/-! ### What the scripts mean -/

/-- An issuance without its metadata hash is the one asked for if that hash is null. -/
theorem parse_issuance_iff {reserved : List Bytes} {x : TokenIssuance} (params : List UniValue)
    (hx : x = { askedIssuance params with metadataHash := 0 })
    (hvalid : x.isValid reserved = true) :
    parseSRC20Script reserved (buildIssuanceScript x) =
      some ⟨.issue, .issuance (askedIssuance params)⟩ ↔
      hashOf (param params 4) = 0 := by
  rw [parse_buildIssuanceScript hvalid, hx]
  constructor
  · intro h
    have hdata := congrArg SRC20Operation.data (Option.some.inj h)
    have hhash := congrArg TokenIssuance.metadataHash (TokenData.issuance.inj hdata)
    exact hhash.symm
  · intro h
    rw [show askedIssuance params = { askedIssuance params with metadataHash := 0 } by
      rw [← h]
      rfl]

/-- What is parsed has been laid out as the grammar says. -/
theorem layout_of_parse {reserved : List Bytes} {script : CScript} {op : SRC20Operation}
    (h : parseSRC20Script reserved script = some op) : ∃ body, Layout reserved op body := by
  obtain ⟨data, push, rest, hpayload, -, -⟩ := parseSRC20Script_eq_some_iff.mp h
  obtain ⟨version, body, tail, -, -, hlayout, -⟩ := hpayload
  exact ⟨body, hlayout⟩

theorem isValidMove_iff {t : TokenId} {n : ℕ} (hpos : 0 < n) :
    isValidMove t n = true ↔ t ≠ 0 ∧ n ≤ int64Max := by
  simp only [isValidMove, Bool.and_eq_true, decide_eq_true_eq]
  exact ⟨fun h => ⟨h.1.1, h.2⟩, fun h => ⟨⟨h.1, hpos⟩, h.2⟩⟩

theorem parse_transfer_iff {reserved : List Bytes} {x : TokenTransfer} (hpos : 0 < x.amount) :
    parseSRC20Script reserved (buildTransferScript x) = some ⟨.transfer, .transfer x⟩ ↔
      x.tokenId ≠ 0 ∧ x.amount ≤ int64Max := by
  rw [← isValidMove_iff hpos]
  refine ⟨fun h => ?_, fun h => parse_buildTransferScript h⟩
  obtain ⟨body, hlayout⟩ := layout_of_parse h
  cases hlayout with
  | transfer hvalid => exact hvalid

theorem parse_burn_iff {reserved : List Bytes} {x : TokenBurn} (hpos : 0 < x.amount) :
    parseSRC20Script reserved (buildBurnScript x) = some ⟨.burn, .burn x⟩ ↔
      x.tokenId ≠ 0 ∧ x.amount ≤ int64Max := by
  rw [← isValidMove_iff hpos]
  refine ⟨fun h => ?_, fun h => parse_buildBurnScript h⟩
  obtain ⟨body, hlayout⟩ := layout_of_parse h
  cases hlayout with
  | burn hvalid => exact hvalid

/-! ### The calls -/

theorem issueToken_ok {rpc : TokenRpc} {params : List UniValue} {result : IssueTokenResult}
    (h : issueToken rpc params = .ok result) :
    ∃ x : TokenIssuance, result.opReturnScript = buildIssuanceScript x ∧
      x = { askedIssuance params with metadataHash := 0 } ∧ x.isValid rpc.reserved = true := by
  obtain ⟨_, -, h⟩ := bind_eq_ok h
  obtain ⟨x, hx, h⟩ := bind_eq_ok h
  obtain ⟨_, hcheck, h⟩ := bind_eq_ok h
  refine ⟨x, ?_, readIssuance_ok hx, checkIssuance_ok hcheck⟩
  rw [← Except.ok.inj h]

theorem transferToken_ok {rpc : TokenRpc} {params : List UniValue} {result : TransferTokenResult}
    (h : transferToken rpc params = .ok result) :
    result.opReturnScript = buildTransferScript (askedTransfer params) ∧
      0 < (askedTransfer params).amount := by
  obtain ⟨_, -, h⟩ := bind_eq_ok h
  obtain ⟨t, ht, h⟩ := bind_eq_ok h
  obtain ⟨address, -, h⟩ := bind_eq_ok h
  dsimp only at h
  split_ifs at h
  obtain ⟨n, hn, h⟩ := bind_eq_ok h
  obtain ⟨hamount, hpos⟩ := readTokenAmount_ok hn
  rw [← Except.ok.inj h, askedTransfer, readTokenId_ok ht, hamount]
  exact ⟨rfl, hpos⟩

theorem burnToken_ok {rpc : TokenRpc} {params : List UniValue} {result : BurnTokenResult}
    (h : burnToken rpc params = .ok result) :
    result.opReturnScript = buildBurnScript (askedBurn params) ∧ 0 < (askedBurn params).amount := by
  obtain ⟨_, -, h⟩ := bind_eq_ok h
  obtain ⟨t, ht, h⟩ := bind_eq_ok h
  obtain ⟨n, hn, h⟩ := bind_eq_ok h
  obtain ⟨hamount, hpos⟩ := readTokenAmount_ok hn
  rw [← Except.ok.inj h, askedBurn, readTokenId_ok ht, hamount]
  exact ⟨rfl, hpos⟩

/-- Either attempt has the issuance in its first output. -/
theorem createIssuance_head {create : CreateTransaction} (hcreate : PutsTogether create)
    {vsize : CTransaction → ℕ} {reserved : List Bytes} {x : TokenIssuance} {dest : CTxDestination}
    {result : CreatedTransactionResult}
    (h : createIssuanceTransaction create vsize reserved x dest = .ok result) :
    (outputScripts result.tx).head? = some (buildIssuanceScript x) := by
  have hhead : ∀ {control r}, create [⟨.noDestination (buildIssuanceScript x), 0, false⟩,
      ⟨dest, dustRelayTxFee, false⟩] 2 control = .ok r →
      (outputScripts r.tx).head? = some (buildIssuanceScript x) := by
    intro control r hr
    rcases hcreate.outputs hr with hvout | ⟨change, -, hvout⟩
    · rw [hvout]
      rfl
    · rw [hvout]
      rfl
  unfold createIssuanceTransaction at h
  split_ifs at h
  obtain ⟨first, hfirst, h⟩ := bind_eq_ok h
  split_ifs at h
  · obtain ⟨retry, hretry, h⟩ := bind_eq_ok h
    split_ifs at h
    rw [← Except.ok.inj h]
    exact hhead hretry
  · rw [← Except.ok.inj h]
    exact hhead hfirst

theorem walletIssueToken_ok {rpc : WalletRpc} (hcreate : PutsTogether rpc.create)
    {params : List UniValue} {result : WalletIssueTokenResult}
    (h : walletIssueToken rpc params = .ok result) :
    ∃ x : TokenIssuance, (outputScripts result.tx).head? = some (buildIssuanceScript x) ∧
      x = { askedIssuance params with metadataHash := 0 } ∧ x.isValid rpc.reserved = true := by
  obtain ⟨_, -, h⟩ := bind_eq_ok h
  obtain ⟨x, hx, h⟩ := bind_eq_ok h
  obtain ⟨_, hcheck, h⟩ := bind_eq_ok h
  obtain ⟨dest, -, h⟩ := bind_eq_ok h
  obtain ⟨created, hcreated, h⟩ := bind_eq_ok h
  obtain ⟨_, -, h⟩ := bind_eq_ok h
  obtain ⟨_, -, h⟩ := bind_eq_ok h
  refine ⟨x, ?_, readIssuance_ok hx, checkIssuance_ok hcheck⟩
  rw [← Except.ok.inj h]
  exact createIssuance_head hcreate (mapError_eq_ok hcreated)

/-- **When a script means what was asked for.**  For every call that is accepted: the script of an
issuance is parsed to the issuance asked for exactly if no metadata hash was given, or the null
hash; the script of a transfer or a burn exactly if the parser takes the token and the amount. -/
theorem scripts_mean_what_was_asked_iff (rpc : WalletRpc) (params : List UniValue) :
    (∀ result, issueToken rpc.toTokenRpc params = .ok result →
      (parseSRC20Script rpc.reserved result.opReturnScript =
        some ⟨.issue, .issuance (askedIssuance params)⟩ ↔ hashOf (param params 4) = 0)) ∧
    (∀ result, transferToken rpc.toTokenRpc params = .ok result →
      (parseSRC20Script rpc.reserved result.opReturnScript =
        some ⟨.transfer, .transfer (askedTransfer params)⟩ ↔ hashOf (param params 0) ≠ 0 ∧
        numberOf (param params 2) ≤ int64Max)) ∧
    (∀ result, burnToken rpc.toTokenRpc params = .ok result →
      (parseSRC20Script rpc.reserved result.opReturnScript =
        some ⟨.burn, .burn (askedBurn params)⟩ ↔ hashOf (param params 0) ≠ 0 ∧
        numberOf (param params 1) ≤ int64Max)) ∧
    (PutsTogether rpc.create → ∀ result, walletIssueToken rpc params = .ok result →
      ((outputScripts result.tx).head?.bind (parseSRC20Script rpc.reserved) =
          some ⟨.issue, .issuance (askedIssuance params)⟩ ↔ hashOf (param params 4) = 0)) := by
  refine ⟨fun result h => ?_, fun result h => ?_, fun result h => ?_, fun hcreate result h => ?_⟩
  · obtain ⟨x, hscript, hx, hvalid⟩ := issueToken_ok h
    rw [hscript]
    exact parse_issuance_iff params hx hvalid
  · obtain ⟨hscript, hpos⟩ := transferToken_ok h
    rw [hscript]
    exact parse_transfer_iff hpos
  · obtain ⟨hscript, hpos⟩ := burnToken_ok h
    rw [hscript]
    exact parse_burn_iff hpos
  · obtain ⟨x, hscript, hx, hvalid⟩ := walletIssueToken_ok hcreate h
    rw [hscript, Option.bind_some]
    exact parse_issuance_iff params hx hvalid

/-! ### Calls on a small chain -/

namespace Sample

/-- A node on the chain where token 7 has been issued. -/
def node : WalletRpc where
  db := Tokens.Sample.issued
  reserved := []
  admitted := .ok ()
  decodeDestination _ := .pkHash ⟨List.replicate 20 1, rfl⟩
  getNewDestination := .ok (.pkHash ⟨List.replicate 20 2, rfl⟩)
  create := Wallet.Sample.createPlain
  getVirtualTransactionSize _ := 200
  enforceRateLimit := .ok ()
  commitTransaction _ := .ok ()

/-- `issuetoken "XYZ" "X" 0 10` -/
def plainParams : List UniValue := [.str [0x58, 0x59, 0x5a], .str [0x58], .num [48], .num [49, 48]]

/-- The same with a metadata hash of 64 letters `a`. -/
def hashParams : List UniValue := plainParams ++ [.str (List.replicate 64 0x61)]

/-- The id of token 7 in hex. -/
def tokenText : UniValue := .str ([0x30, 0x37] ++ List.replicate 62 0x30)

/-- `9223372036854775808`, one above `INT64_MAX`. -/
def largeText : UniValue :=
  .num [57, 50, 50, 51, 51, 55, 50, 48, 51, 54, 56, 53, 52, 55, 55, 53, 56, 48, 56]

end Sample

open Sample

/-- Without a metadata hash the script is the issuance asked for. -/
theorem scripts_mean_what_was_asked_plain :
    parseSRC20Script [] (buildIssuanceScript (askedIssuance plainParams)) =
      some ⟨.issue, .issuance (askedIssuance plainParams)⟩ :=
  ((scripts_mean_what_was_asked_iff node plainParams).1 _ rfl).mpr (by decide +kernel)

/-- The script of an accepted issuance has the null hash in place of the one given, and those of an
accepted transfer and an accepted burn are not parsed at all. -/
theorem accepted_arguments_lost :
    (∃ result, issueToken node.toTokenRpc hashParams = .ok result ∧
      hashOf (param hashParams 4) ≠ 0 ∧ parseSRC20Script [] result.opReturnScript =
        some ⟨.issue, .issuance { askedIssuance hashParams with metadataHash := 0 }⟩) ∧
    (∃ result, transferToken node.toTokenRpc [tokenText, .str [], largeText] = .ok result ∧
      result.amount = int64Max + 1 ∧ parseSRC20Script [] result.opReturnScript = none) ∧
    ∃ result, burnToken node.toTokenRpc [tokenText, largeText] = .ok result ∧
      result.amount = int64Max + 1 ∧ parseSRC20Script [] result.opReturnScript = none :=
  ⟨⟨_, rfl, by decide +kernel, by decide +kernel⟩, ⟨_, rfl, by decide +kernel, by decide +kernel⟩,
    _, rfl, by decide +kernel, by decide +kernel⟩

end OpenSY.Rpc
