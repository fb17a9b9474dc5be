import OpenSY.Lib.KeyValueStore
import OpenSY.Lib.FiniteTotal
import OpenSY.Lib.OrderedMap
import OpenSY.Lib.RecencyCache
import OpenSY.Lib.FloatTruncation
import OpenSY.Lib.Tally
import OpenSY.Lib.SlidingWindow
import OpenSY.Lib.Selection
import OpenSY.Chain.Primitives
import OpenSY.Script.Src20
import OpenSY.Tokens.Records
import OpenSY.Tokens.Operations
import OpenSY.Tokens.Block
import OpenSY.Tokens.Disconnect
import OpenSY.Tokens.Ledger
import OpenSY.Tokens.Accounts
import OpenSY.Tokens.Semantics
import OpenSY.Tokens.Refinement
import OpenSY.Tokens.BlockLog
import OpenSY.Tokens.UndoLog
import OpenSY.Tokens.RoundTrip
import OpenSY.Tokens.Reachable
import OpenSY.Tokens.Invariants
import OpenSY.Tokens.Reorg
import OpenSY.Tokens.Replay
import OpenSY.Tokens.Ownership
import OpenSY.Validation.VerifyDB
import OpenSY.Validation.Startup
import OpenSY.Chain.BlockIndex
import OpenSY.Consensus.Params
import OpenSY.Pow.Target
import OpenSY.Pow.Work
import OpenSY.Pow.Check
import OpenSY.Validation.Header
import OpenSY.Pow.Extend
import OpenSY.Validation.Presync
import OpenSY.Mempool.TokenState
import OpenSY.Mempool.PendingLedger
import OpenSY.Mempool.Accept
import OpenSY.Mempool.Mining
import OpenSY.Mempool.Node
import OpenSY.Mempool.Tracking
import OpenSY.Mempool.Window
import OpenSY.Mempool.Overflow
import OpenSY.Mempool.Limits
import OpenSY.Mempool.RateLimit
import OpenSY.Lib.Transition
import OpenSY.Crypto.RandomXPool
import OpenSY.Script.Bytes
import OpenSY.Script.Grammar
import OpenSY.Script.CheckedReads
import OpenSY.Script.Codec
import OpenSY.Consensus.Subsidy
import OpenSY.Lib.WordArithmetic
import OpenSY.Chain.Compressor
import OpenSY.Lib.DecimalText
import OpenSY.Util.MoneyStr
import OpenSY.Rpc.Amount
import OpenSY.Script.SigHash
import OpenSY.Script.SigHashBinding
import OpenSY.Script.Destination
import OpenSY.Lib.CoherentCache
import OpenSY.Tokens.Concurrent
import OpenSY.Tokens.InfoRecords
import OpenSY.Tokens.Coherence
import OpenSY.Tokens.Queries
import OpenSY.Tokens.FailedCommit
import OpenSY.Tokens.RowCounts
import OpenSY.Tokens.Counts
import OpenSY.Tokens.CountRace
import OpenSY.Tokens.BlockByView
import OpenSY.Tokens.History
import OpenSY.Tokens.Origin
import OpenSY.Wallet.Tokens
import OpenSY.Wallet.History
import OpenSY.Wallet.Spend
import OpenSY.Rpc.Tokens
import OpenSY.Pow.Retarget
import OpenSY.Net.ServeSlots
import OpenSY.Rpc.RateLimiter
import OpenSY.Crypto.PoolBounds
import OpenSY.Wallet.Balances
import OpenSY.Mining.NonceRange
import OpenSY.Mining.NonceSearch
import OpenSY.Mining.Progress
import OpenSY.Mining.SharedDataset
import OpenSY.Lib.LazyBlocks
import OpenSY.Crypto.Blake2b
import OpenSY.Crypto.Blake2bStream
import OpenSY.Wallet.Crypter
import OpenSY.Wallet.KeyDerivation
import OpenSY.Lib.Utf8
import OpenSY.Script.MemoText
import OpenSY.Script.Memo
import OpenSY.Lib.KeyOrder
import OpenSY.Tokens.TransferKey
import OpenSY.Lib.DecimalNumeral
import OpenSY.Rpc.Format
import OpenSY.Lib.RecencyHistory
import OpenSY.Util.LruCache
import OpenSY.Lib.AtomicRegister
import OpenSY.Rpc.Cooldown
