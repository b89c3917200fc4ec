import Lcryp.Mempool.Reorg

/-!
# Fees with the arithmetic of the source

The operations of the pool where the totals and the modified fee of an entry are kept with `SaturatingAdd`.
-/
namespace Lcryp.Saturating
abbrev updateModifiedFee := @CTxMemPoolEntry.updateModifiedFee .source
abbrev updateDescendantState := @CTxMemPoolEntry.updateDescendantState .source
abbrev updateAncestorState := @CTxMemPoolEntry.updateAncestorState .source
abbrev updateAncestorsOf := @CTxMemPool.updateAncestorsOf .source
abbrev updateEntryForAncestors := @CTxMemPool.updateEntryForAncestors .source
abbrev updateDescendantsForRemoval := @CTxMemPool.updateDescendantsForRemoval .source
abbrev updateAncestorsForRemoval := @CTxMemPool.updateAncestorsForRemoval .source
abbrev updateForRemoveFromMempool := @CTxMemPool.updateForRemoveFromMempool .source
abbrev enter := @CTxMemPool.enter .source
abbrev addUnchecked := @CTxMemPool.addUnchecked .source
abbrev removeUnchecked := @CTxMemPool.removeUnchecked .source
abbrev removeStaged := @CTxMemPool.removeStaged .source
abbrev prioritiseTransaction := @CTxMemPool.prioritiseTransaction .source
abbrev readd := @CTxMemPool.readd .source
abbrev updateDescendant := @CTxMemPool.updateDescendant .source
abbrev updateForDescendants := @CTxMemPool.updateForDescendants .source
abbrev updateTransactionFromBlock := @CTxMemPool.updateTransactionFromBlock .source
abbrev removeExceeding := @CTxMemPool.removeExceeding .source
abbrev updateTransactionsFromBlock := @CTxMemPool.updateTransactionsFromBlock .source
end Lcryp.Saturating

namespace Lcryp
/-- The operations on a pool that compute with fees. -/
inductive FeeOp
  | prioritiseTransaction (hash : Uint256) (nFeeDelta : Int64)
  | clearPrioritisation (hash : Uint256)
  /-- The modified fee that `PreChecks` computes for a transaction. -/
  | preChecks (hash : Uint256) (baseFees : Int64)
  | addUnchecked (tx : CTransaction) (fee : Int64) (nTime : Int) (sigOpCost : Nat)
      (setAncestors : List Uint256)
  | removeStaged (stage : List Uint256) (updateDescendants : Bool)
  | updateTransactionsFromBlock (limits : MemPoolLimits) (vHashesToUpdate : List Uint256)
namespace FeeOp
variable (env : MemPoolEnv) (pool : CTxMemPool)

def apply : FeeOp → PoolResult
  | prioritiseTransaction hash nFeeDelta =>
    Saturating.prioritiseTransaction env pool hash nFeeDelta.toInt
  | clearPrioritisation hash => .ok (pool.clearPrioritisation hash)
  | preChecks hash baseFees => do
      let _modifiedFees ← pool.applyDelta hash baseFees.toInt
      return pool
  | addUnchecked tx fee nTime sigOpCost setAncestors =>
    Saturating.addUnchecked env pool (.new env tx fee.toInt nTime sigOpCost) setAncestors
  | removeStaged stage updateDescendants =>
    Saturating.removeStaged env pool stage updateDescendants
  | updateTransactionsFromBlock limits vHashesToUpdate =>
    Saturating.updateTransactionsFromBlock env limits pool vHashesToUpdate

def run (ops : List FeeOp) : PoolResult := ops.foldlM (apply env) pool
end FeeOp
end Lcryp
