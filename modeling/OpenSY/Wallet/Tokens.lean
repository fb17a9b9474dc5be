import Mathlib.Data.Prod.Lex
import Mathlib.Data.List.DropRight
import Mathlib.Order.Lex
import OpenSY.Lib.DecimalText
import OpenSY.Lib.Selection
import OpenSY.Script.Destination
import OpenSY.Tokens.Counts

/-!
# The wallet's view of its tokens

What the token manager of a wallet reads from the wallet: the addresses, the scripts of the script
managers, the coins that can be spent, and the height of the last block.

* `walletScripts` — the scripts of the wallet, each once, in the order of a set of scripts;
* `formatTokenBalance` — an amount as text;
* `getTokenBalance` — what all scripts of the wallet hold of a token.
-/

namespace OpenSY.Wallet

open OpenSY.Chain OpenSY.Script OpenSY.Src20 OpenSY.Tokens OpenSY.Selection OpenSY.DecimalText

/-! ### The wallet -/

/-- A coin the wallet can spend.  It is an output of some transaction. -/
structure COutput where
  outpoint : COutPoint
  txout : CTxOut
  created : outpoint.isNull = false
  deriving DecidableEq

structure CWallet where
  /-- the destinations of `m_address_book` -/
  addressBook : List CTxDestination
  /-- `GetScriptPubKeys` of every script manager -/
  scriptPubKeyMans : List (List CScript)
  /-- `AvailableCoins(wallet).All()` -/
  availableCoins : List COutput
  lastBlockHeight : ℕ

/-- Every script of the wallet, in the order in which they are put into the set. -/
def CWallet.scripts (w : CWallet) : List CScript :=
  w.addressBook.map getScriptForDestination ++ w.scriptPubKeyMans.flatten

/-- Scripts are ordered by size, and byte by byte if they have the same size. -/
def scriptRank (script : CScript) : ℕ ×ₗ List ℕ := toLex (script.length, script.map UInt8.toNat)

theorem scriptRank_injective : Function.Injective scriptRank := by
  intro s s' h
  have hbytes : s.map UInt8.toNat = s'.map UInt8.toNat := congrArg (fun k => (ofLex k).2) h
  exact List.map_injective_iff.mpr (fun _ _ => UInt8.toNat_inj.mp) hbytes

def CWallet.walletScripts (w : CWallet) : List CScript := orderedSet scriptRank w.scripts

theorem mem_walletScripts {w : CWallet} {script : CScript} :
    script ∈ w.walletScripts ↔ script ∈ w.scripts :=
  mem_orderedSet

theorem walletScripts_pairwise (w : CWallet) :
    w.walletScripts.Pairwise fun s s' => scriptRank s < scriptRank s' :=
  orderedSet_pairwise scriptRank_injective w.scripts

/-! ### Amounts as text -/

/-- The divisor, multiplied by ten as often as there are decimals. -/
def decimalsDivisor : ℕ → ℕ
  | 0 => 1
  | n + 1 => decimalsDivisor n * 10 % 2 ^ 64

def formatTokenBalance (value decimals : ℕ) : Bytes :=
  let decimals := if 18 < decimals then 18 else decimals
  if decimals = 0 then decimalText value
  else
    let divisor := decimalsDivisor decimals
    let whole := value / divisor
    let frac := value % divisor
    let trimmed := (paddedText decimals frac).rdropWhile (· = zeroByte)
    decimalText whole ++ [pointByte] ++ if trimmed = [] then [zeroByte] else trimmed

/-! ### The balance of a token -/

structure WalletTokenBalance where
  tokenId : TokenId
  ticker : Bytes := []
  name : Bytes := []
  decimals : ℕ := 0
  balance : ℕ := 0
  balanceFormatted : Bytes := [zeroByte]
  deriving DecidableEq

/-- Add up what the scripts hold; a sum that does not fit is set to the greatest number. -/
def sumBalances (db : TokenDB) (t : TokenId) (scripts : List CScript) : ℕ :=
  scripts.foldl (fun sum script => (checkedAdd sum (db.getBalance script t)).getD uint64Max) 0

def CWallet.getTokenBalance (w : CWallet) (db : TokenDB) (t : TokenId) :
    Option WalletTokenBalance × TokenDB :=
  match db.getTokenInfo t with
  | (none, db) => (none, db)
  | (some info, db) =>
    let balance := sumBalances db t w.walletScripts
    (some
      { tokenId := t
        ticker := info.ticker
        name := info.name
        decimals := info.decimals
        balance := balance
        balanceFormatted := formatTokenBalance balance info.decimals }, db)

end OpenSY.Wallet
