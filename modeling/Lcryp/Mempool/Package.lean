import Lcryp.Mempool.Accept

/-!
# Accepting a package

`CheckPackage`, `IsChildWithParents`, and the part of `AcceptPackage` that tries the transactions of a
package one by one.
-/
namespace Lcryp
open Interaction
/-- Acceptance with standardness rules that read only the coins a transaction spends. -/
structure PackageEnv extends AcceptEnv where
  areInputsStandard_congr : ∀ tx coins coins', (∀ prevout ∈ tx.prevouts, coins prevout = coins' prevout) →
    areInputsStandard tx coins = areInputsStandard tx coins'
  isWitnessStandard_congr : ∀ tx coins coins', (∀ prevout ∈ tx.prevouts, coins prevout = coins' prevout) →
    isWitnessStandard tx coins = isWitnessStandard tx coins'

/-- The members of a `MemPoolAccept` object that outlive a transaction. -/
structure MemPoolAccept where
  limits : MemPoolLimits
  /-- The coins cached in `m_view`. -/
  view : COutPoint → Option Coin

def MemPoolAccept.new (limits : MemPoolLimits) : MemPoolAccept := ⟨limits, fun _ => none⟩
def ATMPArgs.singleAccept (acceptTime : Int) (bypassLimits : Bool) : ATMPArgs :=
  ⟨acceptTime, bypassLimits, true, false, false⟩
def ATMPArgs.singleInPackageAccept (packageArgs : ATMPArgs) : ATMPArgs :=
  ⟨packageArgs.acceptTime, false, true, false, false⟩

structure AcceptCall where
  tx : CTransaction
  /-- The clock of `LimitMempoolSize`. -/
  now : Int
  /-- `GetMinFee`. -/
  minFee : CFeeRate
  /-- `HaveCoinInCache` of the tip's coins. -/
  haveCoinInCache : COutPoint → Bool

inductive AcceptResult
  | valid (vsize : Nat) (baseFees : Int)
  | invalid (state : TxInvalid)
  | mempoolEntry (vsize : Nat) (baseFees : Int)
  | differentWitness (otherWtxid : Uint256)

inductive AcceptAbort
  | assertion
  | exception (message : String)
  | pool (stop : PoolStop)

abbrev AcceptOutcome := Except AcceptAbort (AcceptResult × CTxMemPool)

inductive PackageValidationResult
  | policy
  | tx
  | mempoolError
deriving DecidableEq

structure PackageInvalid where
  result : PackageValidationResult
  rejectReason : String
deriving DecidableEq

def maxPackageCount : Nat := 25
def maxPackageSize : Nat := 101

namespace Accept
section Form
variable (env : AcceptEnv) (txns : List CTransaction)
/-- The total size of `CheckPackage`, summed up in an `int`. -/
def packageSize : Int :=
  txns.foldl (fun sum tx => (sum + getVirtualTransactionSize tx.weight 0 0).bmod (2^32)) 0

/-- The loop of `CheckPackage` that finds a transaction before its parent. -/
def packageSorted : List Uint256 → List CTransaction → Bool
  | _, [] => true
  | laterTxids, tx::rest =>
    !(tx.prevouts.any fun prevout => decide (prevout.hash ∈ laterTxids)) &&
      packageSorted (laterTxids.filter (· ≠ env.txid tx)) rest

/-- The loop of `CheckPackage` that finds an outpoint spent by two transactions. -/
def packageDisjoint : List COutPoint → List CTransaction → Bool
  | _, [] => true
  | inputsSeen, tx::rest =>
    !(tx.prevouts.any fun prevout => decide (prevout ∈ inputsSeen)) &&
      packageDisjoint (inputsSeen++tx.prevouts) rest

def checkPackage : Except PackageInvalid Unit := do
  rejectIf (txns.length > maxPackageCount) ⟨.policy, "package-too-many-transactions"⟩
  rejectIf (txns.length > 1 && packageSize txns > maxPackageSize * 1000) ⟨.policy, "package-too-large"⟩
  rejectIf (!packageSorted env (txns.map env.txid) txns) ⟨.policy, "package-not-sorted"⟩
  rejectIf (!packageDisjoint [] txns) ⟨.policy, "conflict-in-package"⟩

def isChildWithParents (parents : List CTransaction) (child : CTransaction) : Bool :=
  !parents.isEmpty && parents.all fun tx => decide (env.txid tx ∈ child.prevouts.map COutPoint.hash)
end Form

section Scripts
variable (env : AcceptEnv) (ctx : AcceptContext) (pool : CTxMemPool)
/-- `CheckInputScripts` without a list for parallel checks. -/
def checkScripts (flags : BitVec 32) (tx : CTransaction) :
    Except AcceptStop (Except TxInvalid (List CScriptCheck)) :=
  runCoins ctx pool (checkInputScripts { env.toValidationEnv with parallelScriptChecks := false } tx flags)

variable (tx : CTransaction)
/-- Whether a transaction fails `PolicyScriptChecks` only for the lack of its witness. -/
def witnessStripped : Except AcceptStop Bool :=
  if tx.hasWitness then return false
  else do
    match ← checkScripts env ctx pool
        (standardScriptVerifyFlags &&& ~~~(scriptVerifyWitness ||| scriptVerifyCleanstack)) tx with
    | .error _ => return false
    | .ok _ =>
      match ← checkScripts env ctx pool (standardScriptVerifyFlags &&& ~~~scriptVerifyCleanstack) tx with
      | .error _ => return true
      | .ok _ => return false

def policyScriptChecks : Except AcceptStop Unit := do
  match ← checkScripts env ctx pool standardScriptVerifyFlags tx with
  | .ok _ => return ()
  | .error reason =>
    if ← witnessStripped env ctx pool tx then
      .error (.invalid { reason with result := .witnessStripped })
    else .error (.invalid reason)

/-- One input of `CheckInputsFromMempoolAndCache`: the coin in the view is the one in the pool or at the
tip. -/
def checkSameCoin (coin : Coin) (prevout : COutPoint) : Except AcceptStop Unit :=
  match pool.mapTx.lookup prevout.hash with
  | some txFrom => rejectIf (txFrom.tx.vout[prevout.n]? != some coin.out) .assertion
  | none => rejectIf ((ctx.coinsTip.coins.lookup prevout).map Coin.out != some coin.out) .assertion

/-- The loop of `CheckInputsFromMempoolAndCache`; a spent coin leaves the state as it is. -/
def checkSameCoins : List COutPoint → Except AcceptStop Unit
  | [] => return ()
  | prevout::rest => do
      match ← runCoins ctx pool (Lcryp.getCoin prevout) with
      | none => .error (txInvalid .resultUnset "" "")
      | some coin =>
        checkSameCoin ctx pool coin prevout
        checkSameCoins rest

def consensusScriptChecks : Except AcceptStop Unit := do
  match ctx.chain with
  | [] => .error .assertion
  | tip::_ =>
    rejectIf tx.isCoinBase .assertion
    checkSameCoins ctx pool tx.prevouts
    let checked ← checkScripts env ctx pool (getBlockScriptFlags env.toValidationEnv tip) tx
    let _ ← consensusCheck checked
    return ()
end Scripts

section Single
variable (env : AcceptEnv) (ctx : AcceptContext)
def context (accept : MemPoolAccept) (call : AcceptCall) : AcceptContext :=
  { ctx with
    tempAdded := accept.view
    minFee := call.minFee
    haveCoinInCache := call.haveCoinInCache }

variable (pool : CTxMemPool) (args : ATMPArgs) (call : AcceptCall)
/-- `m_limit_descendants` and `m_limit_descendant_size` after `PreChecks`, whatever its answer. -/
def limitsAfter (accept : MemPoolAccept) : MemPoolLimits :=
  match beforeLimits env (context ctx accept call) pool call.tx args with
  | .error _ => accept.limits
  | .ok candidate =>
    match raisedLimits pool accept.limits candidate with
    | .error _ => accept.limits
    | .ok limits => limits

/-- The coins that the input loop of `PreChecks` brings into the view, up to the first one missing. -/
def fetchCoins (pool : CTxMemPool) : (COutPoint → Option Coin) → List COutPoint → COutPoint → Option Coin
  | view, [] => view
  | view, prevout::rest =>
    match getCoin { ctx with tempAdded := view } pool prevout with
    | none => view
    | some coin =>
      let view := Function.update view prevout (some coin)
      if coin.isSpent then view else fetchCoins pool view rest

/-- The cached coins after `PreChecks`, whatever its answer. -/
def viewAfter (accept : MemPoolAccept) : COutPoint → Option Coin :=
  let reached := do
    checkForm env (context ctx accept call) call.tx
    checkNew env pool call.tx
    collectConflicts env pool args [] call.tx.prevouts
  match reached with
  | .error _ => accept.view
  | .ok _ => fetchCoins ctx pool accept.view call.tx.prevouts

def membersAfter (accept : MemPoolAccept) : MemPoolAccept :=
  ⟨limitsAfter env ctx pool args call accept, viewAfter env ctx pool args call accept⟩

/-- The checks of `AcceptSingleTransaction` after `PreChecks`; the answer is `m_all_conflicting`. -/
def laterChecks (ctx : AcceptContext) (ws : Workspace) : Except AcceptStop (List Uint256) := do
  let allConflicting ← (if ws.conflicts.isEmpty then return [] else replacementChecks env pool ws)
  policyScriptChecks env ctx pool ws.tx
  consensusScriptChecks env ctx pool ws.tx
  return allConflicting

def failure : AcceptStop → AcceptOutcome
  | .invalid reason => .ok (.invalid reason, pool)
  | .assertion => .error .assertion
  | .exception message => .error (.exception message)

def submit (ctx : AcceptContext) (now : Int) (ws : Workspace) :
    AcceptOutcome :=
  match laterChecks env pool ctx ws with
  | .error stop => failure pool stop
  | .ok allConflicting =>
    match finalize env pool args now ws allConflicting with
    | .error stop => .error (.pool stop)
    | .ok (pool, some reason) => .ok (.invalid reason, pool)
    | .ok (pool, none) => .ok (.valid ws.vsize ws.baseFees, pool)

def acceptSingleTransaction (accept : MemPoolAccept) : AcceptOutcome :=
  match preChecks env (context ctx accept call) pool args accept.limits call.tx with
  | .error stop => failure pool stop
  | .ok (ws, _) => submit env pool args (context ctx accept call) call.now ws

variable (limits : MemPoolLimits)
def acceptToMemoryPool (acceptTime : Int) (bypassLimits : Bool) :
    AcceptOutcome :=
  acceptSingleTransaction env ctx pool (.singleAccept acceptTime bypassLimits) call (.new limits)
end Single

section Package
variable (env : AcceptEnv) (ctx : AcceptContext)
structure PackageState where
  accept : MemPoolAccept
  pool : CTxMemPool
  results : AList fun _ : Uint256 => AcceptResult
  txnsNew : List CTransaction
  quitEarly : Bool

def PackageState.emplace (s : PackageState) (wtxid : Uint256) (result : AcceptResult) : PackageState :=
  { s with results := if wtxid ∈ s.results then s.results else s.results.insert wtxid result }

variable (pool : CTxMemPool)
/-- `exists` of a witness hash. -/
def existsWtxid (wtxid : Uint256) : Bool :=
  pool.mapTx.entries.any fun item => env.getWitnessHash item.2.tx == wtxid

variable (tx : CTransaction)
/-- Whether the loop of `AcceptPackage` tries a transaction. -/
def isTried : Bool := !existsWtxid env pool (env.getWitnessHash tx) && decide (env.txid tx ∉ pool.mapTx)

def knownResult : Except AcceptAbort AcceptResult :=
  match pool.mapTx.lookup (env.txid tx) with
  | none => .error .assertion
  | some entry =>
    if existsWtxid env pool (env.getWitnessHash tx) then
      return .mempoolEntry (entry.getTxSize env.memPool) entry.nFee
    else return .differentWitness (env.getWitnessHash entry.tx)

/-- What the loop of `AcceptPackage` does with the answer of a transaction it tried. -/
def recordResult (s : PackageState) (tx : CTransaction) : AcceptResult → Except AcceptAbort PackageState
  | .invalid reason =>
    if reason.result ≠ .mempoolPolicy ∧ reason.result ≠ .missingInputs then
      return { s with quitEarly := true }
    else return { s with txnsNew := s.txnsNew++[tx] }
  | result =>
    if existsWtxid env s.pool (env.getWitnessHash tx) then
      return s.emplace (env.getWitnessHash tx) result
    else .error .assertion

def tryTransaction (singleArgs : ATMPArgs) (s : PackageState) (call : AcceptCall) :
    Except AcceptAbort PackageState :=
  if isTried env s.pool call.tx then do
    let (result, pool) ← acceptSingleTransaction env ctx s.pool singleArgs call s.accept
    let accept := membersAfter env ctx s.pool singleArgs call s.accept
    recordResult env { s with accept := accept, pool := pool } call.tx result
  else do
    return s.emplace (env.getWitnessHash call.tx) (← knownResult env s.pool call.tx)

/-- The test that the child's inputs come from the package or from the chain, and the coins it caches. -/
def confirmInputs (parentTxids : List Uint256) :
    (COutPoint → Option Coin) → List COutPoint → Option (COutPoint → Option Coin)
  | view, [] => some view
  | view, prevout::rest =>
    if prevout.hash ∈ parentTxids then confirmInputs parentTxids view rest
    else
      match view prevout <|> ctx.coinsTip.coins.lookup prevout with
      | none => none
      | some coin =>
        if coin.isSpent then none
        else confirmInputs parentTxids (Function.update view prevout (some coin)) rest

variable (limits : MemPoolLimits)
/-- `AcceptPackage` up to its loop, for a package split into its last transaction and the others. -/
def enterPackage (pool : CTxMemPool) (parents : List CTransaction)
    (child : CTransaction) : Except PackageInvalid PackageState := do
  checkPackage env (parents++[child])
  rejectIf (!isChildWithParents env parents child) ⟨.policy, "package-not-child-with-parents"⟩
  match confirmInputs ctx (parents.map env.txid) (fun _ => none) child.prevouts with
  | none => .error ⟨.policy, "package-not-child-with-unconfirmed-parents"⟩
  | some view => return ⟨⟨limits, view⟩, pool, ∅, [], false⟩

/-- The answer of `AcceptPackage`, as far as it tries the transactions one by one. -/
inductive PackageOutcome
  | refused (state : PackageInvalid)
  | settled (s : PackageState)
  /-- `AcceptMultipleTransactions` is called on `txnsNew`. -/
  | together (s : PackageState)

def acceptPackage (pool : CTxMemPool) (args : ATMPArgs)
    (parents : List AcceptCall) (child : AcceptCall) : Except AcceptAbort PackageOutcome :=
  match enterPackage env ctx limits pool (parents.map AcceptCall.tx) child.tx with
  | .error state => return .refused state
  | .ok s => do
      let s ← (parents++[child]).foldlM (tryTransaction env ctx args.singleInPackageAccept) s
      if s.quitEarly || s.txnsNew.isEmpty then return .settled s else return .together s
end Package
end Accept
end Lcryp
