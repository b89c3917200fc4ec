import Lcryp.Mempool.Addition
import Lcryp.Mempool.Saturating

/-!
# Fees that do not saturate

A pool whose operations stop at the first sum that leaves its type computes what the arithmetic of the
source computes, up to that stop.
-/
namespace Lcryp.Saturating
open CTxMemPool Stricter
variable {env : MemPoolEnv}

theorem addFee_agrees (i j : Int) : Stricter (@FeeArith.addFee .checked i j) (@FeeArith.addFee .source i j) :=
  check fun _ => refl _

theorem totalFee_agrees (amount : Int) :
    Stricter (@FeeArith.totalFee .checked amount) (@FeeArith.totalFee .source amount) :=
  check fun _ => refl _

theorem toInt_agrees (sigOps : Int) :
    Stricter (@FeeArith.toInt .checked sigOps) (@FeeArith.toInt .source sigOps) := by
  apply check
  intro hfit
  show Stricter (.ok sigOps) (.ok (sigOps.bmod (2^32)))
  rw [Int.bmod_eq_of_le (by omega) (by omega)]

theorem updateModifiedFee_agrees (feeDiff : Int) (entry : CTxMemPoolEntry) :
    Stricter (entry.updateModifiedFee feeDiff) (updateModifiedFee entry feeDiff) := by
  iterate 3
    apply bind (addFee_agrees _ _)
    intro _
  exact refl _

theorem updateDescendantState_agrees (size fee count : Int) (entry : CTxMemPoolEntry) :
    Stricter (entry.updateDescendantState size fee count)
      (updateDescendantState size fee count entry) := by
  apply bind_same
  intro _
  apply bind (addFee_agrees _ _)
  intro _
  exact refl _

theorem updateAncestorState_agrees (size fee count sigOps : Int) (entry : CTxMemPoolEntry) :
    Stricter (entry.updateAncestorState size fee count sigOps)
      (updateAncestorState size fee count sigOps entry) := by
  apply bind_same
  intro _
  apply bind (addFee_agrees _ _)
  intro _
  apply bind_same
  intro _
  apply bind (toInt_agrees _)
  intro _
  exact refl _

variable {f g : CTxMemPoolEntry → Except PoolStop CTxMemPoolEntry}
theorem modify_agrees (hfg : ∀ entry, Stricter (f entry) (g entry)) (pool : CTxMemPool) (it : Uint256) :
    Stricter (pool.modify it f) (pool.modify it g) := by
  unfold CTxMemPool.modify
  split
  · exact refl _
  · exact bind (hfg _) fun _ => refl _

theorem eachModify_agrees
    (hfg : ∀ entry, Stricter (f entry) (g entry)) (l : List Uint256) (pool : CTxMemPool) :
    Stricter (l.foldlM (fun pool it => pool.modify it f) pool)
      (l.foldlM (fun pool it => pool.modify it g) pool) :=
  foldlM (fun pool it => modify_agrees hfg pool it) l pool

variable (pool : CTxMemPool)
theorem updateAncestorsOf_agrees (add : Bool) (it : Uint256) (setAncestors : List Uint256) :
    Stricter (pool.updateAncestorsOf env add it setAncestors)
      (updateAncestorsOf env pool add it setAncestors) := by
  apply bind_same
  intro entry
  apply bind_same
  intro linked
  apply bind_same
  intro _
  exact eachModify_agrees (updateDescendantState_agrees _ _ _) _ _

theorem updateEntryForAncestors_agrees (it : Uint256) (setAncestors : List Uint256) :
    Stricter (pool.updateEntryForAncestors env it setAncestors)
      (updateEntryForAncestors env pool it setAncestors) := by
  apply bind_same
  intro sums
  exact modify_agrees (updateAncestorState_agrees _ _ _ _) pool it

theorem updateDescendantsForRemoval_agrees (removeIt : Uint256) :
    Stricter (pool.updateDescendantsForRemoval env removeIt)
      (updateDescendantsForRemoval env pool removeIt) := by
  apply bind_same
  intro entry
  apply bind_same
  intro _
  apply bind (toInt_agrees _)
  intro _
  exact eachModify_agrees (updateAncestorState_agrees _ _ _ _) _ _

theorem updateForRemoveFromMempool_agrees (entriesToRemove : List Uint256) (updateDescendants : Bool) :
    Stricter (pool.updateForRemoveFromMempool env entriesToRemove updateDescendants)
      (updateForRemoveFromMempool env pool entriesToRemove updateDescendants) := by
  apply Stricter.bind
  · exact Stricter.ite (foldlM updateDescendantsForRemoval_agrees _ _) (Stricter.refl _)
  · intro updated
    apply followed
    apply foldlM
    intro pool removeIt
    exact bind_same fun entry => updateAncestorsOf_agrees pool false removeIt _

variable (entry : CTxMemPoolEntry)

theorem enter_agrees : Stricter (pool.enter env entry) (enter env pool entry) := by
  apply bind_same
  intro delta
  exact Stricter.ite (modify_agrees (updateModifiedFee_agrees _) _ _) (Stricter.refl _)

theorem addUnchecked_agrees (setAncestors : List Uint256) :
    Stricter (pool.addUnchecked env entry setAncestors)
      (addUnchecked env pool entry setAncestors) := by
  apply bind (enter_agrees pool entry)
  intro entered
  apply bind_same
  intro linked
  apply bind (updateAncestorsOf_agrees linked true _ _)
  intro counted
  apply bind (updateEntryForAncestors_agrees counted _ _)
  intro summed
  exact bind (totalFee_agrees _) fun _ => refl _

theorem removeStaged_agrees (stage : List Uint256) (updateDescendants : Bool) :
    Stricter (pool.removeStaged env stage updateDescendants)
      (removeStaged env pool stage updateDescendants) := by
  apply bind (updateForRemoveFromMempool_agrees pool stage updateDescendants)
  apply foldlM
  intro pool it
  apply bind_same
  intro entry
  exact bind (totalFee_agrees _) fun _ => refl _

theorem prioritiseTransaction_agrees (hash : Uint256) (nFeeDelta : Int) :
    Stricter (pool.prioritiseTransaction env hash nFeeDelta)
      (prioritiseTransaction env pool hash nFeeDelta) := by
  refine Stricter.ite ?_ (Stricter.refl _)
  apply bind (modify_agrees (updateModifiedFee_agrees nFeeDelta) _ _)
  intro changed
  apply bind_same
  intro entry
  apply bind (eachModify_agrees (updateDescendantState_agrees _ _ _) _ _)
  intro counted
  exact eachModify_agrees (updateAncestorState_agrees _ _ _ _) _ _

variable (limits : MemPoolLimits)

theorem updateDescendant_agrees (setExclude : List Uint256)
    (updateIt : Uint256) (update : CTxMemPoolEntry) (sums : DescendantSums) (descendant : Uint256) :
    Stricter (CTxMemPool.updateDescendant env limits setExclude updateIt update sums descendant)
      (updateDescendant env limits setExclude updateIt update sums descendant) := by
  apply bind_same
  intro entry
  refine Stricter.ite (Stricter.refl _) ?_
  apply bind_same
  intro modifyFee
  exact followed (modify_agrees (updateAncestorState_agrees _ _ _ _) _ _) _

theorem updateTransactionFromBlock_agrees (setAlreadyIncluded : List Uint256)
    (state : ReorgState) (hash : Uint256) :
    Stricter (CTxMemPool.updateTransactionFromBlock env limits setAlreadyIncluded state hash)
      (updateTransactionFromBlock env limits setAlreadyIncluded state hash) := by
  refine Stricter.ite ?_ (Stricter.refl _)
  apply bind_same
  intro linked
  apply bind_same
  intro update
  apply bind (foldlM (updateDescendant_agrees limits _ _ _) _ _)
  intro sums
  exact followed (modify_agrees (updateDescendantState_agrees _ _ _) _ _) _

theorem updateTransactionsFromBlock_agrees (pool : CTxMemPool) (vHashesToUpdate : List Uint256) :
    Stricter (CTxMemPool.updateTransactionsFromBlock env limits pool vHashesToUpdate)
      (updateTransactionsFromBlock env limits pool vHashesToUpdate) := by
  apply bind (foldlM (updateTransactionFromBlock_agrees limits _) _ _)
  intro state
  apply foldlM
  intro pool txid
  unfold CTxMemPool.removeExceeding
  cases pool.mapTx.lookup txid with
  | none => exact Stricter.refl _
  | some entry => exact bind_same fun _ => removeStaged_agrees pool _ false
end Lcryp.Saturating

namespace Lcryp
open Saturating Stricter
/-- The operation with every sum of fees checked. -/
def FeeOp.applyChecked (env : MemPoolEnv) (pool : CTxMemPool) : FeeOp → PoolResult
  | prioritiseTransaction hash nFeeDelta => pool.prioritiseTransaction env hash nFeeDelta.toInt
  | addUnchecked tx fee nTime sigOpCost setAncestors =>
    pool.addUnchecked env (.new env tx fee.toInt nTime sigOpCost) setAncestors
  | removeStaged stage updateDescendants => pool.removeStaged env stage updateDescendants
  | updateTransactionsFromBlock limits vHashesToUpdate =>
    pool.updateTransactionsFromBlock env limits vHashesToUpdate
  | op => op.apply env pool

end Lcryp
