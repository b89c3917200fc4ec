import Lcryp.Framework.Loop
import Lcryp.Mempool.Replacement

/-!
# Assembling a block template

`BlockAssembler::addPackageTxs` and what it calls.
-/
namespace Lcryp
open CTxMemPool CTxMemPoolEntry
/-- What `CompareTxMemPoolEntryByAncestorFee` reads. -/
structure AncestorScore where
  txid : Uint256
  modifiedFee : Int
  txSize : Nat
  nSizeWithAncestors : Int
  nModFeesWithAncestors : Int

/-- Size, modified fees and signature operations of a package. -/
abbrev PackageTotals := Int × Int × Int
abbrev ModifiedTxMap := AList fun _ : Uint256 => PackageTotals

structure BlockAssembler where
  memPool : MemPoolEnv
  getFee : CFeeRate → Nat → Int
  ancestorFeeLess : AncestorScore → AncestorScore → Bool
  blockMinFeeRate : CFeeRate
  /-- `Options::nBlockMaxWeight`. -/
  optionMaxWeight : Nat
  nHeight : Nat
  lockTimeCutoff : Int

/-- The template, without the coinbase transaction that comes first. -/
structure BlockTemplate where
  vtx : List CTransaction
  vTxFees : List Int
  vTxSigOpsCost : List Nat
  nBlockWeight : Nat
  nBlockTx : Nat
  nBlockSigOpsCost : Nat
  nFees : Int
  inBlock : List Uint256

def BlockTemplate.reset : BlockTemplate := ⟨[], [], [], 4000, 0, 400, 0, []⟩

structure PackageLoop where
  block : BlockTemplate
  mapModifiedTx : ModifiedTxMap
  failedTx : List Uint256
  /-- What is left of the index by ancestor score. -/
  mi : List Uint256
  nConsecutiveFailed : Nat
  nPackagesSelected : Nat
  nDescendantsUpdated : Nat

def maxConsecutiveFailures : Nat := 1000

namespace CTxMemPoolEntry
def packageTotals (entry : CTxMemPoolEntry) : PackageTotals :=
  (entry.nSizeWithAncestors, entry.nModFeesWithAncestors, entry.nSigOpCostWithAncestors)

/-- What `update_for_parent_inclusion` takes off. -/
def ownTotals (env : MemPoolEnv) (entry : CTxMemPoolEntry) : PackageTotals :=
  (entry.getTxSize env, entry.modifiedFee, entry.sigOpCost)
end CTxMemPoolEntry

def byAncestorCount (pool : CTxMemPool) (a b : Uint256) : Prop :=
  let count := fun it => ((pool.mapTx.lookup it).map nCountWithAncestors).getD 0
  count a < count b ∨ count a = count b ∧ hashOrder a ≤ hashOrder b

instance (pool : CTxMemPool) : DecidableRel (byAncestorCount pool) :=
  fun _ _ => inferInstanceAs (Decidable (_ ∨ _ ∧ _))

namespace BlockAssembler
variable (asm : BlockAssembler) (pool : CTxMemPool)
def nBlockMaxWeight : Nat := max 4000 (min (maxBlockWeight-4000) asm.optionMaxWeight)
def score (it : Uint256) (totals : PackageTotals) : AncestorScore where
  txid := it
  modifiedFee := ((pool.mapTx.lookup it).map modifiedFee).getD 0
  txSize := ((pool.mapTx.lookup it).map (getTxSize asm.memPool)).getD 0
  nSizeWithAncestors := totals.1
  nModFeesWithAncestors := totals.2.1

def better (first item : Sigma fun _ : Uint256 => PackageTotals) : Sigma fun _ : Uint256 => PackageTotals :=
  if asm.ancestorFeeLess (asm.score pool item.1 item.2) (asm.score pool first.1 first.2) then item
  else first

def firstModified : List (Sigma fun _ : Uint256 => PackageTotals) →
    Option (Sigma fun _ : Uint256 => PackageTotals)
  | [] => none
  | item::rest => some (rest.foldl (asm.better pool) item)

def poolTotals (it : Uint256) : PackageTotals := ((pool.mapTx.lookup it).map packageTotals).getD 0
def ancestorScoreIndex : List Uint256 :=
  pool.mapTx.keys.insertionSort fun a b =>
    asm.ancestorFeeLess (asm.score pool b (poolTotals pool b))
      (asm.score pool a (poolTotals pool a)) = false

variable (block : BlockTemplate)
def onlyUnconfirmed (testSet : List Uint256) : List Uint256 :=
  testSet.filter fun it => decide (it ∉ block.inBlock)
def testPackage (totals : PackageTotals) : Bool :=
  decide ((block.nBlockWeight : Int) + witnessScaleFactor * totals.1 < asm.nBlockMaxWeight) &&
    decide ((block.nBlockSigOpsCost : Int) + totals.2.2 < maxBlockSigopsCost)

variable (package : List Uint256)
def testPackageTransactions : Bool :=
  (pool.entriesOf package).all fun entry => isFinalTx entry.tx asm.nHeight asm.lockTimeCutoff

def addToBlock (iter : Uint256) : Except PoolStop BlockTemplate := do
  let entry ← pool.deref iter
  return {
    vtx := block.vtx++[entry.tx]
    vTxFees := block.vTxFees++[entry.nFee]
    vTxSigOpsCost := block.vTxSigOpsCost++[entry.sigOpCost]
    nBlockWeight := block.nBlockWeight + entry.tx.weight
    nBlockTx := block.nBlockTx + 1
    nBlockSigOpsCost := block.nBlockSigOpsCost + entry.sigOpCost
    nFees := block.nFees + entry.nFee
    inBlock := block.inBlock++[iter] }

variable (alreadyAdded : List Uint256)
/-- The body of the inner loop of `UpdatePackagesForAdded`. -/
def updateDescendant (own : PackageTotals)
    (updated : ModifiedTxMap × Nat) (desc : Uint256) : Except PoolStop (ModifiedTxMap × Nat) :=
  if desc ∈ alreadyAdded then .ok updated
  else
    match updated.1.lookup desc with
    | none => do
        let modEntry ← pool.deref desc
        return (updated.1.insert desc (modEntry.packageTotals-own), updated.2 + 1)
    | some totals => .ok (updated.1.insert desc (totals-own), updated.2 + 1)

/-- The body of the outer loop of `UpdatePackagesForAdded`. -/
def updateForAdded (updated : ModifiedTxMap × Nat) (it : Uint256) : Except PoolStop (ModifiedTxMap × Nat) := do
  let entry ← pool.deref it
  (calculateDescendants pool [] it).foldlM
    (updateDescendant pool alreadyAdded (entry.ownTotals asm.memPool)) updated

def updatePackagesForAdded (mapModifiedTx : ModifiedTxMap) : Except PoolStop (ModifiedTxMap × Nat) :=
  alreadyAdded.foldlM (asm.updateForAdded pool alreadyAdded) (mapModifiedTx, 0)

def sortForBlock : List Uint256 := package.insertionSort (byAncestorCount pool)

variable (st : PackageLoop)
def failModified (iter : Uint256) (fUsingModified : Bool) : PackageLoop :=
  if fUsingModified then
    { st with mapModifiedTx := st.mapModifiedTx.erase iter, failedTx := st.failedTx.insert iter }
  else st

def countFailure : Turn PackageLoop :=
  let st := { st with nConsecutiveFailed := st.nConsecutiveFailed + 1 }
  if st.nConsecutiveFailed > maxConsecutiveFailures ∧
      st.block.nBlockWeight > asm.nBlockMaxWeight - 4000 then .done st
  else .next st

def addPackage (ancestors : List Uint256) : Except PoolStop PackageLoop := do
  let sortedEntries := sortForBlock pool ancestors
  let block ← sortedEntries.foldlM (addToBlock pool) st.block
  let mapModifiedTx := sortedEntries.foldl (fun map it => map.erase it) st.mapModifiedTx
  let (mapModifiedTx, updates) ← asm.updatePackagesForAdded pool ancestors mapModifiedTx
  return { st with
    block := block
    mapModifiedTx := mapModifiedTx
    nConsecutiveFailed := 0
    nPackagesSelected := st.nPackagesSelected + 1
    nDescendantsUpdated := st.nDescendantsUpdated + updates }

/-- The unconfirmed ancestors of an entry, and the entry. -/
def packageOf (entry : CTxMemPoolEntry) (iter : Uint256) : List Uint256 :=
  (onlyUnconfirmed block (ancestorsOf asm.memPool pool entry)).insert iter

/-- The body of the loop once it has chosen a package. -/
def tryPackage (iter : Uint256) (totals : PackageTotals) (fUsingModified : Bool) :
    Except PoolStop (Turn PackageLoop) := do
  require (iter ∉ st.block.inBlock) .assertion
  if totals.2.1 < asm.getFee asm.blockMinFeeRate totals.1.toNat then return .done st
  else if !asm.testPackage st.block totals then
    return asm.countFailure (failModified st iter fUsingModified)
  else do
    let entry ← pool.deref iter
    let ancestors := asm.packageOf pool st.block entry iter
    if !asm.testPackageTransactions pool ancestors then
      return .next (failModified st iter fUsingModified)
    else return .next (← asm.addPackage pool st ancestors)

def turn : Except PoolStop (Turn PackageLoop) :=
  match st.mi, asm.firstModified pool st.mapModifiedTx.entries with
  | [], none => .ok (.done st)
  | [], some modit => asm.tryPackage pool st modit.1 modit.2 true
  | it::mi, modit =>
    if it ∈ st.mapModifiedTx ∨ it ∈ st.block.inBlock ∨ it ∈ st.failedTx then
      .ok (.next { st with mi := mi })
    else
      let totals := poolTotals pool it
      match modit with
      | some modit =>
        if asm.ancestorFeeLess (asm.score pool modit.1 modit.2) (asm.score pool it totals) then
          asm.tryPackage pool st modit.1 modit.2 true
        else asm.tryPackage pool { st with mi := mi } it totals false
      | none => asm.tryPackage pool { st with mi := mi } it totals false

def start : PackageLoop := ⟨.reset, ∅, [], asm.ancestorScoreIndex pool, 0, 0, 0⟩

/-- A number of turns that is enough for a pool of `n` entries. -/
def turns (n : Nat) : Nat := n * (n+1) + n + 1
def addPackageTxs : Except PoolStop (Option PackageLoop) :=
  iterate (asm.turn pool) (turns pool.mapTx.keys.length) (asm.start pool)
end BlockAssembler
end Lcryp
