import Lcryp.Mempool.Pool
import Lcryp.Primitives.FeeRate
import Lcryp.Validation.Connect

/-!
# Replacement policy

The checks of `policy/rbf.cpp` on a transaction that conflicts with transactions of the pool.
-/
namespace Lcryp
def maxBip125RbfSequence : BitVec 32 := 0xfffffffd#32
def maxReplacementCandidates : Nat := 100
def signalsOptInRBF (tx : CTransaction) : Bool :=
  tx.vin.any fun txin => decide (txin.nSequence ≤ maxBip125RbfSequence)

namespace CTxMemPool
def entriesOf (pool : CTxMemPool) (iters : List Uint256) : List CTxMemPoolEntry :=
  iters.filterMap pool.mapTx.lookup

variable {pool : CTxMemPool} {entry : CTxMemPoolEntry} {iters : List Uint256}
theorem mem_entriesOf : entry ∈ pool.entriesOf iters ↔ ∃ it ∈ iters, pool.mapTx.lookup it = some entry :=
  List.mem_filterMap
theorem entriesOf_cons {it : Uint256} (h : pool.mapTx.lookup it = some entry)
    (rest : List Uint256) : pool.entriesOf (it::rest) = entry::pool.entriesOf rest := by
  simp [entriesOf,h]

theorem entriesOf_append (first second : List Uint256) :
    pool.entriesOf (first++second) = pool.entriesOf first++pool.entriesOf second := by
  simp [entriesOf]

theorem map_entriesOf {α : Type} (f : CTxMemPoolEntry → α) (g : Uint256 → α)
    (hfg : ∀ it entry, pool.mapTx.lookup it = some entry → g it = f entry)
    (h : ∀ it ∈ iters, it ∈ pool.mapTx) : (pool.entriesOf iters).map f = iters.map g := by
  induction iters with
  | nil => rfl
  | cons it rest ih =>
    obtain ⟨entry,hget⟩ := Option.isSome_iff_exists.mp (AList.lookup_isSome.mpr (h it List.mem_cons_self))
    rw [entriesOf_cons hget,List.map_cons,List.map_cons,
      ih fun k hk => h k (List.mem_cons_of_mem _ hk),hfg it entry hget]
end CTxMemPool

/-- The loop of `GetEntriesForConflicts` that adds up the cached counts. -/
def countConflicts (txid : Uint256) : Int → List CTxMemPoolEntry → Except String Unit
  | _, [] => .ok ()
  | nConflictingCount, mi::rest => do
      let nConflictingCount := nConflictingCount + mi.nCountWithDescendants
      require (nConflictingCount ≤ maxReplacementCandidates)
        ("rejecting replacement " ++ hashToString txid ++ "; too many potential replacements (" ++
          toString nConflictingCount ++ " > " ++ toString maxReplacementCandidates ++ ")\n")
      countConflicts txid nConflictingCount rest

def getEntriesForConflicts (txid : Uint256) (pool : CTxMemPool) (itersConflicting : List Uint256) :
    Except String (List Uint256) := do
  countConflicts txid 0 (pool.entriesOf itersConflicting)
  return pool.withDescendants itersConflicting

/-- The loop of `HasNoNewUnconfirmed` over the inputs. -/
def checkUnconfirmed (txid : Uint256) (pool : CTxMemPool) (parentsOfConflicts : List Uint256) :
    Nat → List COutPoint → Except String Unit
  | _, [] => .ok ()
  | j, prevout::rest => do
      require (prevout.hash ∈ parentsOfConflicts ∨ prevout.hash ∉ pool.mapTx)
        ("replacement " ++ hashToString txid ++ " adds unconfirmed input, idx " ++ toString j)
      checkUnconfirmed txid pool parentsOfConflicts (j+1) rest

def hasNoNewUnconfirmed (txid : Uint256) (tx : CTransaction) (pool : CTxMemPool)
    (itersConflicting : List Uint256) : Except String Unit :=
  checkUnconfirmed txid pool
    ((pool.entriesOf itersConflicting).flatMap fun mi => mi.tx.prevouts.map COutPoint.hash) 0
    tx.prevouts

def entriesAndTxidsDisjoint (getHash : CTransaction → Uint256) (directConflicts : List Uint256)
    (txid : Uint256) : List CTxMemPoolEntry → Except String Unit
  | [] => .ok ()
  | ancestor::rest => do
      require (getHash ancestor.tx ∉ directConflicts)
        (hashToString txid ++ " spends conflicting transaction " ++ hashToString (getHash ancestor.tx))
      entriesAndTxidsDisjoint getHash directConflicts txid rest

def paysMoreThanConflicts (env : MemPoolEnv) (replacementFeerate : CFeeRate) (txid : Uint256) :
    List CTxMemPoolEntry → Except String Unit
  | [] => .ok ()
  | mi::rest => do
      let originalFeerate := CFeeRate.ofFee mi.modifiedFee (mi.getTxSize env)
      require (¬ replacementFeerate.nRypsPerK ≤ originalFeerate.nRypsPerK)
        ("rejecting replacement " ++ hashToString txid ++ "; new feerate " ++
          replacementFeerate.text ++ " <= old feerate " ++ originalFeerate.text)
      paysMoreThanConflicts env replacementFeerate txid rest

/-- `PaysForRBF`, with the fee of the relay rate for the size of the replacement. -/
def paysForRBF (originalFees replacementFees relayFee : Int) (txid : Uint256) : Except String Unit := do
  require (¬ replacementFees < originalFees)
    ("rejecting replacement " ++ hashToString txid ++ ", less fees than conflicting txs; " ++
      formatMoney replacementFees ++ " < " ++ formatMoney originalFees)
  let additionalFees := replacementFees - originalFees
  require (¬ additionalFees < relayFee)
    ("rejecting replacement " ++ hashToString txid ++
      ", not enough additional fees to relay; " ++ formatMoney additionalFees ++ " < " ++
      formatMoney relayFee)
end Lcryp
