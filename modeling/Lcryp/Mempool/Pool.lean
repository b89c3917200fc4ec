import Lcryp.Framework.Codec
import Lcryp.Framework.Search
import Lcryp.Mempool.Entry
import Mathlib.Data.List.AList

/-!
# The memory pool

`CTxMemPool` and the operations that keep its links and totals.  Iterators are transaction ids, and sets
of iterators are lists without repetition.
-/
namespace Lcryp
open Search
section Lookup
variable {κ α : Type} [DecidableEq κ] {map : AList fun _ : κ => α} {k key : κ} {a b : α}
theorem lookup_insert_cases (h : (map.insert key a).lookup k = some b) :
    k = key ∧ b = a ∨ map.lookup k = some b := by
  by_cases hk : k = key
  · subst hk
    rw [AList.lookup_insert] at h
    exact .inl ⟨rfl,(Option.some.inj h).symm⟩
  · rw [AList.lookup_insert_ne hk] at h
    exact .inr h

theorem lookup_of_lookup_erase (h : (map.erase key).lookup k = some a) : k ≠ key ∧ map.lookup k = some a := by
  have hk : k ≠ key := by
    rintro rfl
    simp at h
  exact ⟨hk,AList.lookup_erase_ne hk ▸ h⟩
end Lookup

structure CTxMemPool where
  mapTx : AList fun _ : Uint256 => CTxMemPoolEntry
  /-- The spender of each outpoint. -/
  mapNextTx : AList fun _ : COutPoint => CTransaction
  mapDeltas : AList fun _ : Uint256 => Int
  totalTxSize : Int
  totalFee : Int

abbrev PoolResult := Except PoolStop CTxMemPool

structure MemPoolLimits where
  ancestorCount : Nat
  ancestorSize : Nat
  descendantCount : Nat
  descendantSize : Nat

def MemPoolLimits.noLimit : MemPoolLimits := ⟨2^64 - 1, 2^64 - 1, 2^64 - 1, 2^64 - 1⟩

/-- A number with the order of `memcmp` on the bytes of a hash. -/
def hashOrder (hash : Uint256) : Nat := Codec.leValue (Codec.leBytes 32 hash.toNat).reverse
def byHash (hashes : List Uint256) : List Uint256 := hashes.insertionSort fun a b => hashOrder a ≤ hashOrder b

def exceeds (value : Int) (limit : Nat) : Bool := value % 2^64 > limit

namespace CTxMemPool
def empty : CTxMemPool := ⟨∅, ∅, ∅, 0, 0⟩

variable (env : MemPoolEnv) (pool : CTxMemPool)
def getIterSet (hashes : List Uint256) : List Uint256 :=
  hashes.foldl (fun ret h => if h ∈ pool.mapTx then ret.insert h else ret) []

variable (it : Uint256)
def modify (f : CTxMemPoolEntry → Except PoolStop CTxMemPoolEntry) : PoolResult :=
  match pool.mapTx.lookup it with
  | none => .error .dangling
  | some entry => do
      let entry ← f entry
      return { pool with mapTx := pool.mapTx.insert it entry }

def deref : Except PoolStop CTxMemPoolEntry :=
  match pool.mapTx.lookup it with
  | none => .error .dangling
  | some entry => .ok entry

def parentsOf : List Uint256 := ((pool.mapTx.lookup it).map CTxMemPoolEntry.parents).getD []
def childrenOf : List Uint256 := ((pool.mapTx.lookup it).map CTxMemPoolEntry.children).getD []

def stageParents (limits : MemPoolLimits) (entryCount : Nat) (setAncestors : List Uint256) :
    List Uint256 → List Uint256 → Except String (List Uint256)
  | stagedAncestors, [] => .ok stagedAncestors
  | stagedAncestors, parent::rest => do
      let stagedAncestors := if parent ∈ setAncestors then stagedAncestors else stagedAncestors.insert parent
      require
        (exceeds (stagedAncestors.length + setAncestors.length + entryCount) limits.ancestorCount = false)
        ("too many unconfirmed ancestors [limit: " ++ toString limits.ancestorCount ++ "]")
      stageParents limits entryCount setAncestors stagedAncestors rest

def checkAncestor (limits : MemPoolLimits) (entrySize entryCount totalSizeWithAncestors : Nat)
    (stage : CTxMemPoolEntry) : Except String Unit := do
  require (exceeds (stage.nSizeWithDescendants+entrySize) limits.descendantSize = false)
    ("exceeds descendant size limit for tx " ++ hashToString (env.getHash stage.tx) ++ " [limit: " ++
      toString limits.descendantSize ++ "]")
  require (exceeds (stage.nCountWithDescendants+entryCount) limits.descendantCount = false)
    ("too many descendants for tx " ++ hashToString (env.getHash stage.tx) ++ " [limit: " ++
      toString limits.descendantCount ++ "]")
  require (exceeds totalSizeWithAncestors limits.ancestorSize = false)
    ("exceeds ancestor size limit [limit: " ++ toString limits.ancestorSize ++ "]")

/-- The loop of `CalculateAncestorsAndCheckLimits`, with fuel for every entry. -/
def calculateAncestors (pool : CTxMemPool) (limits : MemPoolLimits) (entrySize entryCount : Nat) :
    Nat → Nat → List Uint256 → List Uint256 → Except String (List Uint256)
  | 0, _, setAncestors, _ => .ok setAncestors
  | _+1, _, setAncestors, [] => .ok setAncestors
  | fuel+1, totalSizeWithAncestors, setAncestors, stageit::stagedAncestors =>
    match pool.mapTx.lookup stageit with
    | none =>
      calculateAncestors pool limits entrySize entryCount fuel totalSizeWithAncestors
        (setAncestors.insert stageit) stagedAncestors
    | some stage => do
        let setAncestors := setAncestors.insert stageit
        let totalSizeWithAncestors := totalSizeWithAncestors + stage.getTxSize env
        checkAncestor env limits entrySize entryCount totalSizeWithAncestors stage
        let stagedAncestors ←
          stageParents limits entryCount setAncestors stagedAncestors stage.parents
        calculateAncestors pool limits entrySize entryCount fuel totalSizeWithAncestors setAncestors
          stagedAncestors

def calculateAncestorsAndCheckLimits (entrySize entryCount : Nat)
    (stagedAncestors : List Uint256) (limits : MemPoolLimits) : Except String (List Uint256) :=
  calculateAncestors env pool limits entrySize entryCount pool.mapTx.keys.length entrySize []
    stagedAncestors

/-- The loop of `CalculateMemPoolAncestors` that finds the parents of a transaction. -/
def stageInputs (pool : CTxMemPool) (limits : MemPoolLimits) :
    List Uint256 → List COutPoint → Except String (List Uint256)
  | stagedAncestors, [] => .ok stagedAncestors
  | stagedAncestors, prevout::rest =>
    if prevout.hash ∈ pool.mapTx then do
      let stagedAncestors := stagedAncestors.insert prevout.hash
      require (exceeds (stagedAncestors.length+1) limits.ancestorCount = false)
        ("too many unconfirmed parents [limit: " ++ toString limits.ancestorCount ++ "]")
      stageInputs pool limits stagedAncestors rest
    else stageInputs pool limits stagedAncestors rest

variable (entry : CTxMemPoolEntry)
def calculateMemPoolAncestors (limits : MemPoolLimits)
    (fSearchForParents : Bool) : Except String (List Uint256) := do
  let stagedAncestors ← (if fSearchForParents then stageInputs pool limits [] entry.tx.prevouts
    else return pool.parentsOf (env.getHash entry.tx))
  calculateAncestorsAndCheckLimits env pool (entry.getTxSize env) 1 stagedAncestors limits

def ancestorsOf : List Uint256 :=
  match calculateMemPoolAncestors env pool entry .noLimit false with
  | .ok setAncestors => setAncestors
  | .error _ => []

def calculateDescendants (setDescendants : List Uint256) (entryit : Uint256) : List Uint256 :=
  explore pool.childrenOf pool.mapTx.keys.length setDescendants
    (if entryit ∈ setDescendants then [] else [entryit])

def updateChild (entry child : Uint256) (add : Bool) : PoolResult :=
  pool.modify entry fun e => .ok { e with
    children := if add then e.children.insert child else e.children.erase child }

def updateParent (entry parent : Uint256) (add : Bool) : PoolResult :=
  pool.modify entry fun e => .ok { e with
    parents := if add then e.parents.insert parent else e.parents.erase parent }

def sumAncestors (pool : CTxMemPool) : Int × Int × Int → List Uint256 → Except PoolStop (Int × Int × Int)
  | sums, [] => .ok sums
  | (updateSize, updateFee, updateSigOpsCost), ancestorIt::rest => do
      let ancestor ← pool.deref ancestorIt
      let updateFee ← plain (updateFee+ancestor.modifiedFee)
      sumAncestors pool
        (updateSize + ancestor.getTxSize env, updateFee, updateSigOpsCost + ancestor.sigOpCost) rest

def updateChildrenForRemoval : PoolResult :=
  (pool.childrenOf it).foldlM (fun pool updateIt => updateParent pool updateIt it false) pool

variable (hash : Uint256)
def deltaOf : Int := (pool.mapDeltas.lookup hash).getD 0

/-- `mapNextTx.insert`, which keeps an earlier spender. -/
def insertNextTx (prevout : COutPoint) (tx : CTransaction) : CTxMemPool :=
  if prevout ∈ pool.mapNextTx then pool
  else { pool with mapNextTx := pool.mapNextTx.insert prevout tx }

/-- `mapTx.insert`, which keeps an earlier entry with the same id. -/
def insertEntry : CTxMemPool :=
  if env.getHash entry.tx ∈ pool.mapTx then pool
  else { pool with mapTx := pool.mapTx.insert (env.getHash entry.tx) entry }

def applyDelta (nFeeDelta : Int) : Except PoolStop Int :=
  match pool.mapDeltas.lookup hash with
  | none => return nFeeDelta
  | some delta => plain (nFeeDelta+delta)

variable (newit : Uint256)

/-- The part of `addUnchecked` that records what the new entry spends, and its parents. -/
def linkParents : PoolResult := do
  let newEntry ← pool.deref newit
  let tx := newEntry.tx
  let pool := tx.prevouts.foldl (fun pool prevout => pool.insertNextTx prevout tx) pool
  let setParentTransactions := tx.prevouts.map COutPoint.hash
  (pool.getIterSet setParentTransactions).foldlM (fun pool pit => updateParent pool newit pit true) pool

def withDescendants (txToRemove : List Uint256) : List Uint256 :=
  txToRemove.foldl (calculateDescendants pool) []

variable (origTx : CTransaction)
def addSpender (txToRemove : List Uint256) (i : Nat) : List Uint256 :=
  match pool.mapNextTx.lookup ⟨env.getHash origTx, i⟩ with
  | none => txToRemove
  | some next => txToRemove.insert (env.getHash next)

def spendersOf : List Uint256 := (List.range origTx.vout.length).foldl (addSpender env pool origTx) []
section Arith
variable [FeeArith] (env : MemPoolEnv) (pool : CTxMemPool)

def updateAncestorsOf (add : Bool) (it : Uint256) (setAncestors : List Uint256) :
    PoolResult := do
  let entry ← pool.deref it
  let pool ← entry.parents.foldlM (fun pool parent => updateChild pool parent it add) pool
  let updateCount : Int := if add then 1 else -1
  let updateSize := updateCount * entry.getTxSize env
  let updateFee ← plain (updateCount*entry.modifiedFee)
  setAncestors.foldlM (fun pool ancestorIt =>
    pool.modify ancestorIt (·.updateDescendantState updateSize updateFee updateCount)) pool

variable (it : Uint256) (entry : CTxMemPoolEntry) (setAncestors : List Uint256)

def updateEntryForAncestors : PoolResult := do
  let (updateSize, updateFee, updateSigOpsCost) ← sumAncestors env pool (0, 0, 0) (byHash setAncestors)
  pool.modify it (·.updateAncestorState updateSize updateFee setAncestors.length updateSigOpsCost)

variable (removeIt : Uint256)

/-- The part of `UpdateForRemoveFromMempool` that takes an entry off its descendants. -/
def updateDescendantsForRemoval : PoolResult := do
  let setDescendants := (calculateDescendants pool [] removeIt).erase removeIt
  let entry ← pool.deref removeIt
  let modifySize : Int := -entry.getTxSize env
  let modifyFee ← plain (-entry.modifiedFee)
  let modifySigOps ← FeeArith.toInt (-entry.sigOpCost)
  setDescendants.foldlM (fun pool dit =>
    pool.modify dit (·.updateAncestorState modifySize modifyFee (-1) modifySigOps)) pool

/-- The part of `UpdateForRemoveFromMempool` that takes an entry off its ancestors. -/
def updateAncestorsForRemoval : PoolResult := do
  let entry ← pool.deref removeIt
  updateAncestorsOf env pool false removeIt (ancestorsOf env pool entry)

def updateForRemoveFromMempool (entriesToRemove : List Uint256)
    (updateDescendants : Bool) : PoolResult := do
  let pool ← (if updateDescendants then
      entriesToRemove.foldlM (updateDescendantsForRemoval env) pool
    else return pool)
  let pool ← entriesToRemove.foldlM (updateAncestorsForRemoval env) pool
  entriesToRemove.foldlM updateChildrenForRemoval pool

/-- The part of `addUnchecked` that inserts the entry and applies its fee delta. -/
def enter : PoolResult := do
  let newit := env.getHash entry.tx
  let pool := insertEntry env pool entry
  let delta ← pool.applyDelta newit 0
  if delta ≠ 0 then pool.modify newit (·.updateModifiedFee delta) else return pool

def addUnchecked : PoolResult := do
  let newit := env.getHash entry.tx
  let pool ← enter env pool entry
  let pool ← pool.linkParents newit
  let pool ← updateAncestorsOf env pool true newit setAncestors
  let pool ← updateEntryForAncestors env pool newit setAncestors
  let totalFee ← FeeArith.totalFee (pool.totalFee+entry.nFee)
  return { pool with
    totalTxSize := pool.totalTxSize + entry.getTxSize env
    totalFee := totalFee }

def removeUnchecked : PoolResult := do
  let entry ← pool.deref it
  let totalFee ← FeeArith.totalFee (pool.totalFee-entry.nFee)
  return { pool with
    mapNextTx := entry.tx.prevouts.foldl (fun map prevout => map.erase prevout) pool.mapNextTx
    totalTxSize := pool.totalTxSize - entry.getTxSize env
    totalFee := totalFee
    mapTx := pool.mapTx.erase it }

def removeStaged (stage : List Uint256) (updateDescendants : Bool) : PoolResult := do
  let pool ← updateForRemoveFromMempool env pool stage updateDescendants
  stage.foldlM (removeUnchecked env) pool

variable (origTx : CTransaction)

def removeRecursive : PoolResult := do
  let txToRemove := if env.getHash origTx ∈ pool.mapTx then [env.getHash origTx]
    else spendersOf env pool origTx
  require (txToRemove.all fun nextit => decide (nextit ∈ pool.mapTx)) .assertion
  removeStaged env pool (pool.withDescendants txToRemove) false

variable (hash : Uint256) (nFeeDelta : Int)

def prioritiseEntry : PoolResult := do
  let pool ← pool.modify hash (·.updateModifiedFee nFeeDelta)
  let entry ← pool.deref hash
  let setAncestors := ancestorsOf env pool entry
  let pool ← setAncestors.foldlM (fun pool ancestorIt =>
    pool.modify ancestorIt (·.updateDescendantState 0 nFeeDelta 0)) pool
  let setDescendants := (calculateDescendants pool [] hash).erase hash
  setDescendants.foldlM (fun pool descendantIt =>
    pool.modify descendantIt (·.updateAncestorState 0 nFeeDelta 0 0)) pool

def prioritiseTransaction : PoolResult :=
  let pool := { pool with
    mapDeltas := pool.mapDeltas.insert hash (saturatingAdd (pool.deltaOf hash) nFeeDelta) }
  if hash ∈ pool.mapTx then prioritiseEntry env pool hash nFeeDelta else return pool
end Arith

def removeForReorg (checkFinalAndMature : Uint256 → Bool) : PoolResult :=
  removeStaged env pool (pool.withDescendants (pool.mapTx.keys.filter checkFinalAndMature)) false
def clearPrioritisation : CTxMemPool := { pool with mapDeltas := pool.mapDeltas.erase hash }

variable (tx : CTransaction)
def removeConflict (pool : CTxMemPool) (prevout : COutPoint) : PoolResult :=
  match pool.mapNextTx.lookup prevout with
  | none => return pool
  | some txConflict =>
    if env.getHash txConflict ≠ env.getHash tx then
      removeRecursive env (pool.clearPrioritisation (env.getHash txConflict)) txConflict
    else return pool

def removeConflicts : PoolResult := tx.prevouts.foldlM (removeConflict env tx) pool
def removeForBlockTx : PoolResult := do
  let hash := env.getHash tx
  let pool ← (if hash ∈ pool.mapTx then removeStaged env pool [hash] true else return pool)
  let pool ← removeConflicts env pool tx
  return pool.clearPrioritisation hash

def removeForBlock (vtx : List CTransaction) : PoolResult :=
  vtx.foldlM (removeForBlockTx env) pool

/-- `Expire`, with the number of entries removed. -/
def expire (time : Int) : Except PoolStop (CTxMemPool × Nat) := do
  let toremove := pool.mapTx.entries.filterMap fun item =>
    if item.2.nTime < time then some item.1 else none
  let stage := pool.withDescendants toremove
  return (← removeStaged env pool stage false, stage.length)

/-- How a full pool chooses what to evict. -/
structure TrimPolicy where
  dynamicMemoryUsage : CTxMemPool → Nat
  /-- `CompareTxMemPoolEntryByDescendantScore`. -/
  descendantScoreLess : CTxMemPoolEntry → CTxMemPoolEntry → Bool

def firstBy (less : CTxMemPoolEntry → CTxMemPoolEntry → Bool) :
    List (Sigma fun _ : Uint256 => CTxMemPoolEntry) → Option Uint256
  | [] => none
  | item::rest =>
    some (rest.foldl (fun first item => if less item.2 first.2 then item else first) item).1

/-- The outpoints of the removed transactions whose own transactions are not in the pool. -/
def noSpendsRemaining (txn : List CTransaction) : List COutPoint :=
  (txn.flatMap CTransaction.prevouts).filter fun prevout => decide (prevout.hash ∉ pool.mapTx)

/-- The loop of `TrimToSize`, with fuel for every entry. -/
def trimLoop (policy : TrimPolicy) (sizelimit : Nat) :
    Nat → CTxMemPool → List COutPoint → Except PoolStop (CTxMemPool × List COutPoint)
  | 0, pool, pvNoSpendsRemaining => .ok (pool, pvNoSpendsRemaining)
  | fuel+1, pool, pvNoSpendsRemaining =>
    match firstBy policy.descendantScoreLess pool.mapTx.entries with
    | none => .ok (pool, pvNoSpendsRemaining)
    | some it =>
      if policy.dynamicMemoryUsage pool > sizelimit then do
        let stage := calculateDescendants pool [] it
        let txn := stage.filterMap fun it => (pool.mapTx.lookup it).map CTxMemPoolEntry.tx
        let pool ← removeStaged env pool stage false
        trimLoop policy sizelimit fuel pool (pvNoSpendsRemaining++pool.noSpendsRemaining txn)
      else .ok (pool, pvNoSpendsRemaining)

def trimToSize (policy : TrimPolicy) (pool : CTxMemPool) (sizelimit : Nat) :
    Except PoolStop (CTxMemPool × List COutPoint) :=
  trimLoop env policy sizelimit pool.mapTx.keys.length pool []
end CTxMemPool
end Lcryp
