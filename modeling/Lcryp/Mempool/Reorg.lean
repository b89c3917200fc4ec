import Lcryp.Mempool.Pool

/-!
# Transactions of disconnected blocks

A reorganisation adds the transactions of the disconnected blocks to the pool, while transactions that
spend them may be there already.
-/
namespace Lcryp
open Search
/-- `cacheMap`: the descendants that were found for an updated transaction. -/
abbrev CacheMap := AList fun _ : Uint256 => List Uint256

/-- What the loop of `UpdateTransactionsFromBlock` changes. -/
structure ReorgState where
  pool : CTxMemPool
  cachedDescendants : CacheMap
  descendantsToRemove : List Uint256

/-- What the loop of `UpdateForDescendants` over the descendants changes. -/
structure DescendantSums where
  state : ReorgState
  modifySize : Int
  modifyFee : Int
  modifyCount : Int

namespace CTxMemPool
variable (env : MemPoolEnv) (pool : CTxMemPool) (cachedDescendants : CacheMap)
def cacheDescendant (updateIt descendant : Uint256) : CacheMap :=
  cachedDescendants.insert updateIt (((cachedDescendants.lookup updateIt).getD []).insert descendant)

variable (limits : MemPoolLimits)
def exceedsAncestors (entry : CTxMemPoolEntry) : Bool :=
  entry.nCountWithAncestors > limits.ancestorCount || entry.nSizeWithAncestors > limits.ancestorSize

variable (updateIt : Uint256)
/-- The descendants that `UpdateForDescendants` collects, with fuel for every entry. -/
def descendantsOf : List Uint256 :=
  byHash (exploreCached pool.childrenOf cachedDescendants.lookup pool.mapTx.keys.length []
    (pool.childrenOf updateIt))

def spendersIn (hash : Uint256) : List CTransaction :=
  (pool.mapNextTx.entries.filter fun item => decide (item.1.hash = hash)).map (·.2)

variable (setAlreadyIncluded : List Uint256)
/-- One iteration over the spenders of a transaction, with the children that were visited. -/
def linkSpender (it : Uint256) (state : CTxMemPool × List Uint256) (child : CTransaction) :
    Except PoolStop (CTxMemPool × List Uint256) := do
  let childHash := env.getHash child
  require (childHash ∈ state.1.mapTx) .assertion
  if childHash ∈ state.2 ∨ childHash ∈ setAlreadyIncluded then
    return (state.1, state.2.insert childHash)
  else
    let pool ← state.1.updateChild it childHash true
    let pool ← pool.updateParent childHash it true
    return (pool, state.2.insert childHash)

def linkSpenders (pool : CTxMemPool) (hash : Uint256) : Except PoolStop (CTxMemPool × List Uint256) :=
  (pool.spendersIn hash).foldlM (linkSpender env setAlreadyIncluded hash) (pool, [])

section Arith
variable [FeeArith] (env : MemPoolEnv) (pool : CTxMemPool)

def readd (entry : CTxMemPoolEntry) : PoolResult :=
  match calculateMemPoolAncestors env pool entry .noLimit true with
  | .error _ => addUnchecked env pool entry []
  | .ok setAncestors => addUnchecked env pool entry setAncestors

variable (limits : MemPoolLimits) (setExclude : List Uint256) (updateIt : Uint256)

def updateDescendant (update : CTxMemPoolEntry) (sums : DescendantSums)
    (descendant : Uint256) : Except PoolStop DescendantSums := do
  let entry ← sums.state.pool.deref descendant
  if env.getHash entry.tx ∈ setExclude then return sums
  else
    let modifyFee ← plain (sums.modifyFee+entry.modifiedFee)
    let pool ← sums.state.pool.modify descendant
      (·.updateAncestorState (update.getTxSize env) update.modifiedFee 1 update.sigOpCost)
    let updated ← pool.deref descendant
    return {
      state := {
        pool := pool
        cachedDescendants := cacheDescendant sums.state.cachedDescendants updateIt descendant
        descendantsToRemove :=
          if exceedsAncestors limits updated then
            sums.state.descendantsToRemove.insert (env.getHash entry.tx)
          else sums.state.descendantsToRemove }
      modifySize := sums.modifySize + entry.getTxSize env
      modifyFee := modifyFee
      modifyCount := sums.modifyCount + 1 }

def updateForDescendants (state : ReorgState) (updateIt : Uint256) : Except PoolStop ReorgState := do
  let update ← state.pool.deref updateIt
  let sums ← (descendantsOf state.pool state.cachedDescendants updateIt).foldlM
    (updateDescendant env limits setExclude updateIt update) ⟨state, 0, 0, 0⟩
  let pool ← sums.state.pool.modify updateIt
    (·.updateDescendantState sums.modifySize sums.modifyFee sums.modifyCount)
  return { sums.state with pool := pool }

variable (setAlreadyIncluded : List Uint256)

def updateTransactionFromBlock (state : ReorgState) (hash : Uint256) : Except PoolStop ReorgState :=
  if hash ∈ state.pool.mapTx then do
    let linked ← linkSpenders env setAlreadyIncluded state.pool hash
    updateForDescendants env limits setAlreadyIncluded { state with pool := linked.1 } hash
  else return state

def removeExceeding (txid : Uint256) : PoolResult :=
  match pool.mapTx.lookup txid with
  | none => return pool
  | some entry => removeRecursive env pool entry.tx

def updateTransactionsFromBlock (pool : CTxMemPool)
    (vHashesToUpdate : List Uint256) : PoolResult := do
  let state ← vHashesToUpdate.reverse.foldlM
    (updateTransactionFromBlock env limits vHashesToUpdate) ⟨pool, ∅, []⟩
  (byHash state.descendantsToRemove).foldlM (removeExceeding env) state.pool
end Arith
end CTxMemPool
end Lcryp
