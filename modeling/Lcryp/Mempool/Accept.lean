import Lcryp.Mempool.Replacement

/-!
# Accepting a transaction

`MemPoolAccept` for a single transaction: `PreChecks`, `ReplacementChecks` and `Finalize`.
-/
namespace Lcryp
open Interaction CTxMemPool
/-- What acceptance takes from the rest of the node. -/
structure AcceptEnv extends ValidationEnv where
  nBytesPerSigOp : Nat
  getWitnessHash : CTransaction → Uint256
  /-- The reason of `IsStandardTx` against a transaction. -/
  standardReason : CTransaction → Option String
  areInputsStandard : CTransaction → (COutPoint → Option Coin) → Bool
  isWitnessStandard : CTransaction → (COutPoint → Option Coin) → Bool
  /-- `CFeeRate::GetFee`. -/
  getFee : CFeeRate → Nat → Int
  requireStandard : Bool
  fullRbf : Bool
  minRelayFeerate : CFeeRate
  incrementalRelayFeerate : CFeeRate
  expiry : Int
  maxSizeBytes : Nat
  trimPolicy : TrimPolicy

def AcceptEnv.memPool (env : AcceptEnv) : MemPoolEnv := ⟨env.txid, env.nBytesPerSigOp⟩

/-- The state of the chain that acceptance reads. -/
structure AcceptContext where
  /-- The active chain, its tip first. -/
  chain : IndexChain
  coinsTip : UtxoView
  haveCoinInCache : COutPoint → Bool
  /-- `m_temp_added`, the coins of a package. -/
  tempAdded : COutPoint → Option Coin
  /-- `GetMinFee`. -/
  minFee : CFeeRate

def AcceptContext.height (ctx : AcceptContext) : Nat := (ctx.chain.head?.map CBlockIndex.nHeight).getD 0
structure ATMPArgs where
  acceptTime : Int
  bypassLimits : Bool
  allowReplacement : Bool
  packageSubmission : Bool
  packageFeerates : Bool

structure Workspace where
  tx : CTransaction
  conflicts : List Uint256
  itersConflicting : List Uint256
  ancestors : List Uint256
  entry : CTxMemPoolEntry
  vsize : Nat
  baseFees : Int
  modifiedFees : Int

inductive AcceptStop
  | invalid (reason : TxInvalid)
  | assertion
  | exception (message : String)

def minStandardTxNonwitnessSize : Nat := 82
def maxStandardTxSigopsCost : Nat := maxBlockSigopsCost / 5
def extraDescendantTxSizeLimit : Nat := 10000
def mempoolHeight : Nat := 0x7fffffff
def txInvalid (result : TxValidationResult) (rejectReason debugMessage : String) : AcceptStop :=
  .invalid ⟨result, rejectReason, debugMessage⟩

namespace Accept
variable (env : AcceptEnv) (ctx : AcceptContext) (pool : CTxMemPool)
/-- `CCoinsViewMemPool::GetCoin`. -/
def getCoin (outpoint : COutPoint) : Option Coin :=
  match ctx.tempAdded outpoint with
  | some coin => some coin
  | none =>
    match pool.mapTx.lookup outpoint.hash with
    | some entry => entry.tx.vout[outpoint.n]?.map fun out => ⟨out, false, mempoolHeight⟩
    | none => ctx.coinsTip.coins.lookup outpoint

def readCoins : CoinsHandler (COutPoint → Option Coin)
  | .getCoin outpoint, view => .ok ((view outpoint).filter fun coin => !coin.isSpent, view)
  | .addCoin _ _ _, view => .ok ((), view)
  | .spendCoin _, view => .ok (none, view)
  | .getBestBlock, view => .ok (ctx.coinsTip.bestBlock, view)
  | .setBestBlock _, view => .ok ((), view)

variable {α : Type}
/-- A program over the coins of the pool and the chain. -/
def runCoins (program : CoinsProgram α) : Except AcceptStop α :=
  match program.run (readCoins ctx) (getCoin ctx pool) with
  | .ok (answer, _) => .ok answer
  | .error (.exception message) => .error (.exception message)
  | .error _ => .error .assertion

def consensusCheck : Except TxInvalid α → Except AcceptStop α
  | .ok answer => .ok answer
  | .error reason => .error (.invalid reason)

variable (tx : CTransaction)
def checkStandard : Except AcceptStop Unit :=
  match env.standardReason tx with
  | some reason => rejectIf env.requireStandard (txInvalid .notStandard reason "")
  | none => .ok ()

def checkFinalTxAtTip : Except AcceptStop Unit :=
  match ctx.chain with
  | [] => .error .assertion
  | tip::pprev =>
    rejectIf (!isFinalTx tx (tip.nHeight+1) (IndexChain.getMedianTimePast (tip::pprev)))
      (txInvalid .prematureSpend "non-final" "")

/-- The checks of `PreChecks` on the transaction alone. -/
def checkForm : Except AcceptStop Unit := do
  consensusCheck (checkTransaction tx)
  rejectIf tx.isCoinBase (txInvalid .consensus "coinbase" "")
  checkStandard env tx
  rejectIf (tx.strippedSize < minStandardTxNonwitnessSize) (txInvalid .notStandard "tx-size-small" "")
  checkFinalTxAtTip ctx tx

def checkNew : Except AcceptStop Unit := do
  rejectIf (pool.mapTx.entries.any fun item =>
      env.getWitnessHash item.2.tx == env.getWitnessHash tx)
    (txInvalid .conflict "txn-already-in-mempool" "")
  rejectIf (decide (env.txid tx ∈ pool.mapTx))
    (txInvalid .conflict "txn-same-nonwitness-data-in-mempool" "")

/-- The loop of `PreChecks` that finds the conflicting transactions. -/
def collectConflicts (args : ATMPArgs) : List Uint256 → List COutPoint → Except AcceptStop (List Uint256)
  | conflicts, [] => .ok conflicts
  | conflicts, prevout::rest =>
    match pool.mapNextTx.lookup prevout with
    | none => collectConflicts args conflicts rest
    | some ptxConflicting => do
        rejectIf (!args.allowReplacement) (txInvalid .mempoolPolicy "bip125-replacement-disallowed" "")
        if env.txid ptxConflicting ∈ conflicts then collectConflicts args conflicts rest
        else do
          rejectIf (!env.fullRbf && !signalsOptInRBF ptxConflicting)
            (txInvalid .mempoolPolicy "txn-mempool-conflict" "")
          collectConflicts args (conflicts.insert (env.txid ptxConflicting)) rest

/-- The loop of `PreChecks` over the coins of the inputs. -/
def checkInputsAvailable (tx : CTransaction) : List COutPoint → Except AcceptStop Unit
  | [] => .ok ()
  | prevout::rest => do
      if ← runCoins ctx pool (haveCoin prevout) then checkInputsAvailable tx rest
      else if (List.range tx.vout.length).any fun out => ctx.haveCoinInCache ⟨env.txid tx, out⟩ then
        .error (txInvalid .conflict "txn-already-known" "")
      else .error (txInvalid .missingInputs "bad-txns-inputs-missingorspent" "")

def checkSequenceLocksAtTip : Except AcceptStop Bool := do
  match ctx.chain with
  | [] => .error .assertion
  | tip::_ =>
    let coins ← tx.prevouts.mapM fun prevout => runCoins ctx pool (Lcryp.getCoin prevout)
    if coins.any Option.isNone then return false
    else do
      let prevheights := coins.map fun coin =>
        let nHeight := (coin.map Coin.nHeight).getD 0
        if nHeight = mempoolHeight then tip.nHeight + 1 else nHeight
      let index : CBlockIndex := { tip with nHeight := tip.nHeight + 1 }
      match sequenceLocks tx locktimeVerifySequence prevheights (index::ctx.chain) with
      | some passed => return passed
      | none => .error .assertion

/-- The checks of `PreChecks` on the inputs; the answer is the fee and the signature operations. -/
def checkInputs : Except AcceptStop (Int × Nat) := do
  checkInputsAvailable env ctx pool tx tx.prevouts
  rejectIf (ctx.chain.head?.map CBlockIndex.phashBlock != some ctx.coinsTip.bestBlock) .assertion
  let locksPassed ← checkSequenceLocksAtTip ctx pool tx
  rejectIf (!locksPassed) (txInvalid .prematureSpend "non-BIP68-final" "")
  let checked ← runCoins ctx pool (checkTxInputs tx (ctx.height+1))
  let baseFees ← consensusCheck checked
  rejectIf (env.requireStandard && !env.areInputsStandard tx (getCoin ctx pool))
    (txInvalid .inputsNotStandard "bad-txns-nonstandard-inputs" "")
  rejectIf (tx.hasWitness && env.requireStandard && !env.isWitnessStandard tx (getCoin ctx pool))
    (txInvalid .witnessMutated "bad-witness-nonstandard" "")
  let nSigOpsCost ← runCoins ctx pool
    (getTransactionSigOpCost env.toValidationEnv tx standardScriptVerifyFlags)
  return (baseFees, nSigOpsCost)

def checkFeeRate (packageSize : Nat) (packageFee : Int) : Except AcceptStop Unit := do
  let mempoolRejectFee := env.getFee ctx.minFee packageSize
  rejectIf (mempoolRejectFee > 0 && packageFee < mempoolRejectFee)
    (txInvalid .mempoolPolicy "mempool min fee not met"
      (toString packageFee ++ " < " ++ toString mempoolRejectFee))
  let minRelayFee := env.getFee env.minRelayFeerate packageSize
  rejectIf (packageFee < minRelayFee)
    (txInvalid .mempoolPolicy "min relay fee not met"
      (toString packageFee ++ " < " ++ toString minRelayFee))

variable (limits : MemPoolLimits)
/-- The descendant limits, raised by a single conflict. -/
def conflictLimits (conflicts itersConflicting : List Uint256) : Except AcceptStop MemPoolLimits :=
  if conflicts.length = 1 then
    match pool.entriesOf itersConflicting with
    | [conflict] => .ok { limits with
        descendantCount := (limits.descendantCount+1) % 2^64
        descendantSize := (limits.descendantSize + (conflict.nSizeWithDescendants % 2^64).toNat) % 2^64 }
    | _ => .error .assertion
  else .ok limits

/-- The ancestors within the limits, or within those of a small transaction with one parent. -/
def findAncestors (entry : CTxMemPoolEntry) (vsize : Nat) : Except AcceptStop (List Uint256) :=
  match calculateMemPoolAncestors env.memPool pool entry limits true with
  | .ok ancestors => .ok ancestors
  | .error errString =>
    let tooLong := txInvalid .mempoolPolicy "too-long-mempool-chain" errString
    if vsize > extraDescendantTxSizeLimit then .error tooLong
    else
      let carveOut : MemPoolLimits := {
        ancestorCount := 2
        ancestorSize := limits.ancestorSize
        descendantCount := (limits.descendantCount+1) % 2^64
        descendantSize := (limits.descendantSize+extraDescendantTxSizeLimit) % 2^64 }
      match calculateMemPoolAncestors env.memPool pool entry carveOut true with
      | .ok ancestors => .ok ancestors
      | .error _ => .error tooLong

def policyCheck (result : TxValidationResult) (rejectReason : String) : Except String α → Except AcceptStop α
  | .ok answer => .ok answer
  | .error errString => .error (txInvalid result rejectReason errString)

/-- What `PreChecks` has found out about a transaction when it comes to the limits. -/
structure Candidate where
  conflicts : List Uint256
  entry : CTxMemPoolEntry
  vsize : Nat
  baseFees : Int
  modifiedFees : Int

variable (args : ATMPArgs)
def beforeLimits : Except AcceptStop Candidate := do
  checkForm env ctx tx
  checkNew env pool tx
  let conflicts ← collectConflicts env pool args [] tx.prevouts
  let (baseFees, nSigOpsCost) ← checkInputs env ctx pool tx
  let modifiedFees := baseFees + pool.deltaOf (env.txid tx)
  let entry := CTxMemPoolEntry.new env.memPool tx baseFees args.acceptTime nSigOpsCost
  let vsize := entry.getTxSize env.memPool
  rejectIf (nSigOpsCost > maxStandardTxSigopsCost)
    (txInvalid .notStandard "bad-txns-too-many-sigops" (toString nSigOpsCost))
  checkWhen (!args.bypassLimits && !args.packageFeerates) (checkFeeRate env ctx vsize modifiedFees)
  return ⟨conflicts, entry, vsize, baseFees, modifiedFees⟩

variable (candidate : Candidate)
def raisedLimits : Except AcceptStop MemPoolLimits :=
  conflictLimits pool limits candidate.conflicts (pool.getIterSet candidate.conflicts)

def checkDisjoint (ancestors : List Uint256) : Except AcceptStop Unit :=
  policyCheck .consensus "bad-txns-spends-conflicting-tx"
    (entriesAndTxidsDisjoint env.txid candidate.conflicts (env.txid tx) (pool.entriesOf ancestors))

def workspace (ancestors : List Uint256) : Workspace :=
  ⟨tx, candidate.conflicts, pool.getIterSet candidate.conflicts, ancestors, candidate.entry,
    candidate.vsize, candidate.baseFees, candidate.modifiedFees⟩

/-- `PreChecks`; the answer also has the limits it leaves. -/
def preChecks (limits : MemPoolLimits) (tx : CTransaction) : Except AcceptStop (Workspace × MemPoolLimits) := do
  let candidate ← beforeLimits env ctx pool tx args
  let limits ← raisedLimits pool limits candidate
  let ancestors ← findAncestors env pool limits candidate.entry candidate.vsize
  checkDisjoint env pool tx candidate ancestors
  return (workspace pool tx candidate ancestors, limits)

/-- `ReplacementChecks`; the answer is `m_all_conflicting`. -/
def replacementChecks (ws : Workspace) : Except AcceptStop (List Uint256) := do
  let hash := env.txid ws.tx
  let newFeeRate := CFeeRate.ofFee ws.modifiedFees ws.vsize
  policyCheck .mempoolPolicy "insufficient fee"
    (paysMoreThanConflicts env.memPool newFeeRate hash (pool.entriesOf ws.itersConflicting))
  let allConflicting ← policyCheck .mempoolPolicy "too many potential replacements"
    (getEntriesForConflicts hash pool ws.itersConflicting)
  policyCheck .mempoolPolicy "replacement-adds-unconfirmed"
    (hasNoNewUnconfirmed hash ws.tx pool ws.itersConflicting)
  let conflictingFees := ((pool.entriesOf allConflicting).map CTxMemPoolEntry.modifiedFee).sum
  policyCheck .mempoolPolicy "insufficient fee"
    (paysForRBF conflictingFees ws.modifiedFees (env.getFee env.incrementalRelayFeerate ws.vsize) hash)
  return allConflicting

def limitMempoolSize (now : Int) (pool : CTxMemPool) : PoolResult := do
  let (pool, _) ← expire env.memPool pool (now-env.expiry)
  let (pool, _) ← trimToSize env.memPool env.trimPolicy pool env.maxSizeBytes
  return pool

/-- `Finalize`; the answer is the pool it leaves and the reason of a rejection. -/
def finalize (now : Int) (ws : Workspace) (allConflicting : List Uint256) :
    Except PoolStop (CTxMemPool × Option TxInvalid) := do
  let pool ← removeStaged env.memPool pool allConflicting false
  let pool ← addUnchecked env.memPool pool ws.entry ws.ancestors
  if !args.packageSubmission && !args.bypassLimits then do
    let pool ← limitMempoolSize env now pool
    if env.txid ws.tx ∈ pool.mapTx then return (pool, none)
    else return (pool, some ⟨.mempoolPolicy, "mempool full", ""⟩)
  else return (pool, none)
end Accept
end Lcryp
