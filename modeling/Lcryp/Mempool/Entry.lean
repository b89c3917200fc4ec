import Lcryp.Framework.Stricter
import Lcryp.Primitives.Transaction

/-!
# Entries of the memory pool

An entry caches totals over its ancestors and over its descendants, itself included, and the ids of its
direct parents and children in the pool.
-/
namespace Lcryp
inductive PoolStop
  /-- A fee sum outside `int64_t`, or a count of signature operations outside `int`. -/
  | overflow
  | assertion
  /-- An iterator to an entry that is not in the pool. -/
  | dangling
deriving DecidableEq

def int64Min : Int := -2^63
def int64Max : Int := 2^63 - 1
def saturatingAdd (i j : Int) : Int :=
  if i > 0 ∧ j > int64Max - i then int64Max
  else if i < 0 ∧ j < int64Min - i then int64Min
  else i + j

/-- The result of a plain operation on amounts, which are of type `int64_t`. -/
def plain (amount : Int) : Except PoolStop Int := do
  require (int64Min ≤ amount ∧ amount ≤ int64Max) .overflow
  return amount

/-- How the totals of the pool treat a number that leaves its type. -/
class FeeArith where
  /-- `SaturatingAdd`. -/
  addFee : Int → Int → Except PoolStop Int
  /-- What `m_total_fee` becomes. -/
  totalFee : Int → Except PoolStop Int
  /-- A number of signature operations as an `int`. -/
  toInt : Int → Except PoolStop Int

namespace FeeArith
abbrev source : FeeArith where
  addFee i j := .ok (saturatingAdd i j)
  totalFee := .ok
  toInt sigOps := .ok (sigOps.bmod (2^32))

/-- Every number is checked: a pool with this arithmetic stops where that of the source saturates or wraps. -/
instance checked : FeeArith where
  addFee i j := do
    require (int64Min ≤ i + j ∧ i + j ≤ int64Max) .overflow
    return saturatingAdd i j
  totalFee := plain
  toInt sigOps := do
    require (-2^31 ≤ sigOps ∧ sigOps < 2^31) .overflow
    return sigOps
end FeeArith

def getVirtualTransactionSize (nWeight nSigOpCost bytesPerSigOp : Nat) : Nat :=
  (max nWeight (nSigOpCost*bytesPerSigOp) + witnessScaleFactor - 1) / witnessScaleFactor

/-- What the pool takes from the rest of the node. -/
structure MemPoolEnv where
  /-- `CTransaction::GetHash`. -/
  getHash : CTransaction → Uint256
  nBytesPerSigOp : Nat

structure CTxMemPoolEntry where
  tx : CTransaction
  parents : List Uint256
  children : List Uint256
  nFee : Int
  nTime : Int
  sigOpCost : Nat
  modifiedFee : Int
  nCountWithDescendants : Int
  nSizeWithDescendants : Int
  nModFeesWithDescendants : Int
  nCountWithAncestors : Int
  nSizeWithAncestors : Int
  nModFeesWithAncestors : Int
  nSigOpCostWithAncestors : Int
deriving DecidableEq

namespace CTxMemPoolEntry
open FeeArith
variable (env : MemPoolEnv) (entry : CTxMemPoolEntry)
def getTxSize : Nat := getVirtualTransactionSize entry.tx.weight entry.sigOpCost env.nBytesPerSigOp

def new (tx : CTransaction) (fee nTime : Int) (sigOpCost : Nat) : CTxMemPoolEntry :=
  let size := getVirtualTransactionSize tx.weight sigOpCost env.nBytesPerSigOp
  { tx := tx
    parents := []
    children := []
    nFee := fee
    nTime := nTime
    sigOpCost := sigOpCost
    modifiedFee := fee
    nCountWithDescendants := 1
    nSizeWithDescendants := size
    nModFeesWithDescendants := fee
    nCountWithAncestors := 1
    nSizeWithAncestors := size
    nModFeesWithAncestors := fee
    nSigOpCostWithAncestors := sigOpCost }

def updateModifiedFee [FeeArith] (entry : CTxMemPoolEntry) (feeDiff : Int) : Except PoolStop CTxMemPoolEntry := do
  let nModFeesWithDescendants ← addFee entry.nModFeesWithDescendants feeDiff
  let nModFeesWithAncestors ← addFee entry.nModFeesWithAncestors feeDiff
  let modifiedFee ← addFee entry.modifiedFee feeDiff
  return { entry with
    nModFeesWithDescendants := nModFeesWithDescendants
    nModFeesWithAncestors := nModFeesWithAncestors
    modifiedFee := modifiedFee }

def updateDescendantState [FeeArith] (modifySize modifyFee modifyCount : Int)
    (entry : CTxMemPoolEntry) : Except PoolStop CTxMemPoolEntry := do
  let nSizeWithDescendants := entry.nSizeWithDescendants + modifySize
  require (nSizeWithDescendants > 0) .assertion
  let nModFeesWithDescendants ← addFee entry.nModFeesWithDescendants modifyFee
  let nCountWithDescendants := entry.nCountWithDescendants + modifyCount
  require (nCountWithDescendants > 0) .assertion
  return { entry with
    nCountWithDescendants := nCountWithDescendants
    nSizeWithDescendants := nSizeWithDescendants
    nModFeesWithDescendants := nModFeesWithDescendants }

def updateAncestorState [FeeArith] (modifySize modifyFee modifyCount modifySigOps : Int)
    (entry : CTxMemPoolEntry) : Except PoolStop CTxMemPoolEntry := do
  let nSizeWithAncestors := entry.nSizeWithAncestors + modifySize
  require (nSizeWithAncestors > 0) .assertion
  let nModFeesWithAncestors ← addFee entry.nModFeesWithAncestors modifyFee
  let nCountWithAncestors := entry.nCountWithAncestors + modifyCount
  require (nCountWithAncestors > 0) .assertion
  let nSigOpCostWithAncestors := entry.nSigOpCostWithAncestors + modifySigOps
  require ((← toInt nSigOpCostWithAncestors) ≥ 0) .assertion
  return { entry with
    nCountWithAncestors := nCountWithAncestors
    nSizeWithAncestors := nSizeWithAncestors
    nModFeesWithAncestors := nModFeesWithAncestors
    nSigOpCostWithAncestors := nSigOpCostWithAncestors }
end CTxMemPoolEntry
end Lcryp
