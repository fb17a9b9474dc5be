import Mathlib.Data.Nat.Basic
import Mathlib.Order.Basic
import Mathlib.Data.BitVec

/-!
# Blocks, transactions, undo data and scripts

The parts of the chain's data model that the token code reads: hashes, scripts, transactions with
their inputs and outputs, blocks, and the undo data that holds the coins a block spent.

Hashes are opaque here.  A transaction carries its txid, as `CTransaction` caches it, and a block
its header hash; the only facts ever used about them are equalities between them.
-/

namespace OpenSY.Chain

/-- A `uint256`: the number its 32 bytes spell in memory order, so that the order of numbers is the
order `memcmp` puts on the blobs. -/
abbrev Uint256 : Type := BitVec 256

/-- This and the instances that follow are stated once, so that every membership test and every sort
has the same. -/
instance : LawfulBEq Uint256 := inferInstance

instance : LinearOrder Uint256 :=
  LinearOrder.lift' BitVec.toNat fun _ _ h => BitVec.eq_of_toNat_eq h

instance : IsTrans Uint256 (· ≤ ·) := inferInstance

instance : Std.Antisymm (α := Uint256) (· ≤ ·) := inferInstance

abbrev Bytes : Type := List UInt8

instance : LawfulBEq Bytes := inferInstance

/-- A script is its byte string. -/
abbrev CScript : Type := Bytes

/-- An amount in base units, `int64_t` in the source. -/
abbrev CAmount : Type := ℤ

def coin : CAmount := 100000000

/-- No amount larger than this is valid: 21 billion coins. -/
def maxMoney : CAmount := 21000000000 * coin

def moneyRange (nValue : CAmount) : Bool := 0 ≤ nValue && nValue ≤ maxMoney

def int64Max : ℕ := 2 ^ 63 - 1

def uint64Max : ℕ := 2 ^ 64 - 1

/-! ### Scripts -/

def opPushdata1 : UInt8 := 0x4c
def opPushdata2 : UInt8 := 0x4d
def opPushdata4 : UInt8 := 0x4e
def opReturn : UInt8 := 0x6a

def maxScriptSize : ℕ := 10000

/-- Outputs that can never be spent: data carriers and oversized scripts. -/
def isUnspendable (script : CScript) : Bool :=
  (0 < script.length && script.head? = some opReturn) || maxScriptSize < script.length

/-- Little-endian value of a byte string. -/
def readLE : Bytes → ℕ
  | [] => 0
  | b :: bs => b.toNat + 256 * readLE bs

/-- The number of bytes a push opcode announces, and the script after its length field. -/
def pushLength (opcode : UInt8) (rest : CScript) : Option (ℕ × CScript) :=
  if opcode < opPushdata1 then some (opcode.toNat, rest)
  else if opcode = opPushdata1 then
    if rest.length < 1 then none else some (readLE (rest.take 1), rest.drop 1)
  else if opcode = opPushdata2 then
    if rest.length < 2 then none else some (readLE (rest.take 2), rest.drop 2)
  else
    if rest.length < 4 then none else some (readLE (rest.take 4), rest.drop 4)

/-- Read one instruction: its opcode, the data it pushes and the rest of the script. -/
def getScriptOp : CScript → Option (UInt8 × Bytes × CScript)
  | [] => none
  | opcode :: rest =>
    if opcode ≤ opPushdata4 then
      match pushLength opcode rest with
      | none => none
      | some (nSize, rest) =>
        if rest.length < nSize then none else some (opcode, rest.take nSize, rest.drop nSize)
    else some (opcode, [], rest)

/-- Append a data push to a script, with the shortest of the four length forms. -/
def pushData (script : CScript) (data : Bytes) : CScript :=
  let n := data.length
  if n < opPushdata1.toNat then script ++ [n.toUInt8] ++ data
  else if n ≤ 0xff then script ++ [opPushdata1, n.toUInt8] ++ data
  else if n ≤ 0xffff then script ++ [opPushdata2, n.toUInt8, (n / 256).toUInt8] ++ data
  else script ++ [opPushdata4, n.toUInt8, (n / 256).toUInt8, (n / 65536).toUInt8,
    (n / 16777216).toUInt8] ++ data

/-! ### Transactions, blocks and undo data -/

structure COutPoint where
  hash : Uint256
  n : ℕ
  deriving DecidableEq

def COutPoint.isNull (o : COutPoint) : Bool := o.hash = 0 ∧ o.n = 0xffffffff

structure CTxIn where
  prevout : COutPoint
  deriving DecidableEq

structure CTxOut where
  nValue : CAmount
  scriptPubKey : CScript
  deriving DecidableEq

structure CTransaction where
  /-- the txid, computed once when the transaction is built -/
  hash : Uint256
  vin : List CTxIn
  vout : List CTxOut
  deriving DecidableEq

def CTransaction.isCoinBase (tx : CTransaction) : Bool :=
  match tx.vin with
  | [txin] => txin.prevout.isNull
  | _ => false

structure Coin where
  out : CTxOut
  deriving DecidableEq

/-- The coins one transaction spent, in input order. -/
structure CTxUndo where
  vprevout : List Coin
  deriving DecidableEq

/-- Undo data of a block: one entry for every transaction but the coinbase. -/
structure CBlockUndo where
  vtxundo : List CTxUndo
  deriving DecidableEq

structure CBlock where
  /-- the value of `GetHash()` -/
  hash : Uint256
  hashPrevBlock : Uint256
  nTime : ℕ
  vtx : List CTransaction
  deriving DecidableEq

def CBlock.getBlockTime (block : CBlock) : ℤ := block.nTime

end OpenSY.Chain
