import OpenSY.Chain.Primitives

/-!
# Headers and the block index

A block index entry is its header together with the entry of the parent.  Heights are positions, and
`chainOf` turns a sequence of headers, one for each height, into the entry of the last.
-/

namespace OpenSY.Chain

structure CBlockHeader where
  nVersion : ℤ
  hashPrevBlock : Uint256
  hashMerkleRoot : Uint256
  nTime : ℕ
  nBits : BitVec 32
  nNonce : BitVec 32
  deriving DecidableEq

inductive CBlockIndex where
  | genesis (header : CBlockHeader)
  | child (header : CBlockHeader) (pprev : CBlockIndex)

namespace CBlockIndex

def header : CBlockIndex → CBlockHeader
  | genesis header => header
  | child header _ => header

def nHeight : CBlockIndex → ℕ
  | genesis _ => 0
  | child _ pprev => pprev.nHeight + 1

abbrev nBits (pindex : CBlockIndex) : BitVec 32 := pindex.header.nBits

abbrev getBlockTime (pindex : CBlockIndex) : ℤ := pindex.header.nTime

/-- Walk back along the parents as long as the height is above `height`. -/
def walkBack (height : ℕ) : CBlockIndex → CBlockIndex
  | genesis header => genesis header
  | child header pprev =>
    if pprev.nHeight + 1 > height then pprev.walkBack height else child header pprev

/-- The skip pointers of the source only shorten the walk. -/
def getAncestor (pindex : CBlockIndex) (height : ℤ) : Option CBlockIndex :=
  if height > pindex.nHeight ∨ height < 0 then none else some (pindex.walkBack height.toNat)

/-- The times of the last blocks, newest first. -/
def lastTimes : ℕ → CBlockIndex → List ℤ
  | 0, _ => []
  | _ + 1, genesis header => [(header.nTime : ℤ)]
  | n + 1, child header pprev => (header.nTime : ℤ) :: pprev.lastTimes n

def nMedianTimeSpan : ℕ := 11

def getMedianTimePast (pindex : CBlockIndex) : ℤ :=
  let times := (pindex.lastTimes nMedianTimeSpan).mergeSort
  times.getD (times.length / 2) 0

/-- The index entry at height `n` of a chain given by its headers. -/
def chainOf (f : ℕ → CBlockHeader) : ℕ → CBlockIndex
  | 0 => genesis (f 0)
  | n + 1 => child (f (n + 1)) (chainOf f n)

section ChainOf

variable (f : ℕ → CBlockHeader)

@[simp] theorem nHeight_chainOf (n : ℕ) : (chainOf f n).nHeight = n := by
  induction n with
  | zero => rfl
  | succ n ih => exact congrArg (· + 1) ih

@[simp] theorem header_chainOf (n : ℕ) : (chainOf f n).header = f n := by
  cases n <;> rfl

theorem walkBack_chainOf {k n : ℕ} (h : k ≤ n) : (chainOf f n).walkBack k = chainOf f k := by
  induction n with
  | zero =>
    obtain rfl : k = 0 := Nat.le_zero.mp h
    rfl
  | succ n ih =>
    show (if (chainOf f n).nHeight + 1 > k then (chainOf f n).walkBack k else chainOf f (n + 1)) =
      chainOf f k
    rw [nHeight_chainOf]
    by_cases hk : k ≤ n
    · rw [if_pos (by omega), ih hk]
    · rw [if_neg (by omega), show k = n + 1 by omega]

theorem getAncestor_chainOf {k n : ℕ} (h : k ≤ n) :
    (chainOf f n).getAncestor k = some (chainOf f k) := by
  have hguard : ¬ ((k : ℤ) > (chainOf f n).nHeight ∨ (k : ℤ) < 0) := by
    rw [nHeight_chainOf]
    omega
  rw [getAncestor, if_neg hguard, Int.toNat_natCast, walkBack_chainOf f h]

/-- Only the headers up to the height matter. -/
theorem chainOf_congr {f g : ℕ → CBlockHeader} {n : ℕ} (h : ∀ k ≤ n, f k = g k) :
    chainOf f n = chainOf g n := by
  induction n with
  | zero => exact congrArg genesis (h 0 le_rfl)
  | succ n ih =>
    show child (f (n + 1)) (chainOf f n) = child (g (n + 1)) (chainOf g n)
    rw [h (n + 1) le_rfl, ih fun k hk => h k (Nat.le_succ_of_le hk)]

/-- Every index entry is given by the headers of its chain. -/
theorem exists_chainOf (pindex : CBlockIndex) : ∃ f, pindex = chainOf f pindex.nHeight := by
  induction pindex with
  | genesis header => exact ⟨fun _ => header, rfl⟩
  | child header pprev ih =>
    obtain ⟨f, hf⟩ := ih
    refine ⟨fun k => if k = pprev.nHeight + 1 then header else f k, ?_⟩
    show child header pprev = child (if pprev.nHeight + 1 = pprev.nHeight + 1 then header else _) _
    rw [if_pos rfl]
    refine congrArg (child header) (hf.trans (chainOf_congr fun k hk => ?_))
    rw [if_neg (by omega)]

end ChainOf

end CBlockIndex

end OpenSY.Chain
