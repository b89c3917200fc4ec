import Lcryp.Coins.View
import Lcryp.Script.Flags
import Lcryp.Validation.Checks

/-!
# Connecting blocks

`Chainstate::ConnectBlock` and the functions it calls, as programs over the coins interface.
-/
namespace Lcryp
open Interaction
def coinbaseMaturity : Int := 100
def getBlockSubsidy (nHeight : Nat) (params : ConsensusParams) : Int :=
  let halvings := nHeight / params.nSubsidyHalvingInterval
  if halvings ≥ 64 then 0
  else
    let nSubsidy := if nHeight > 0 ∧ nHeight ≤ 1 then 1000000 * coin else 50 * coin
    nSubsidy >>> halvings

/-- Drops the trailing zeros of a reversed amount that leave two decimals. -/
def trimZeros : List Char → List Char
  | '0'::second::third::rest =>
    if third.isDigit then trimZeros (second::third::rest) else '0'::second::third::rest
  | digits => digits

def formatMoney (n : Int) : String :=
  let remainder := Nat.toDigits 10 (n.natAbs % coin.natAbs)
  let text := Nat.toDigits 10 (n.natAbs/coin.natAbs) ++
    '.'::(List.replicate (8-remainder.length) '0'++remainder)
  (if n < 0 then "-" else "")++String.ofList (trimZeros text.reverse).reverse

/-- The value loop of `CheckTxInputs`. -/
def sumInputs (nSpendHeight : Nat) : Int → List COutPoint → CoinsProgram (Except TxInvalid Int)
  | nValueIn, [] => return .ok nValueIn
  | nValueIn, prevout::rest => do
      let coin ← accessCoin prevout
      Program.throwIf coin.isSpent .assertion
      let depth : Int := nSpendHeight - coin.nHeight
      if coin.fCoinBase ∧ depth < coinbaseMaturity then
        return .error ⟨.prematureSpend, "bad-txns-premature-spend-of-coinbase",
          "tried to spend coinbase at depth " ++ toString depth⟩
      else if !moneyRange coin.out.nValue || !moneyRange (nValueIn+coin.out.nValue) then
        return .error (txConsensus "bad-txns-inputvalues-outofrange")
      else sumInputs nSpendHeight (nValueIn+coin.out.nValue) rest

/-- The comparison of values at the end of `CheckTxInputs`; the answer is the fee. -/
def checkFee (nValueIn valueOut : Int) : Except TxInvalid Int :=
  if nValueIn < valueOut then
    .error ⟨.consensus, "bad-txns-in-belowout",
      "value in (" ++ formatMoney nValueIn ++ ") < value out (" ++ formatMoney valueOut ++ ")"⟩
  else if !moneyRange (nValueIn-valueOut) then .error (txConsensus "bad-txns-fee-outofrange")
  else .ok (nValueIn-valueOut)

def valueOutError : ValidationStop := .exception "GetValueOut: value out of range"

variable (tx : CTransaction)
def checkTxInputs (nSpendHeight : Nat) : CoinsProgram (Except TxInvalid Int) := do
  let present ← haveInputs tx
  if present then
    match ← sumInputs nSpendHeight 0 tx.prevouts with
    | .error invalid => return .error invalid
    | .ok nValueIn =>
      match tx.getValueOut with
      | none => .throw valueOutError
      | some valueOut => return checkFee nValueIn valueOut
  else
    return .error ⟨.missingInputs, "bad-txns-inputs-missingorspent","CheckTxInputs: inputs missing/spent"⟩

/-- The coins an ordinary transaction spends, each asserted unspent. -/
def accessInputs : List COutPoint → CoinsProgram (List Coin)
  | [] => return []
  | prevout::rest => do
      let coin ← accessCoin prevout
      Program.throwIf coin.isSpent .assertion
      return coin::(← accessInputs rest)

def locktimeVerifySequence : BitVec 32 := 1#32
def sequenceLocktimeTypeFlag : BitVec 32 := 0x00400000#32
def sequenceLocktimeMask : BitVec 32 := 0x0000ffff#32

/-- The loop of `CalculateSequenceLocks`; `none` is the failed assertion on a missing ancestor. -/
def sequenceLockLoop (block : IndexChain) : Int × Int → List (CTxIn × Nat) → Option (Int × Int)
  | locks, [] => some locks
  | (nMinHeight, nMinTime), (txin, nCoinHeight)::rest =>
    let masked := (txin.nSequence &&& sequenceLocktimeMask).toNat
    if txin.nSequence &&& sequenceLocktimeDisableFlag ≠ 0#32 then
      sequenceLockLoop block (nMinHeight, nMinTime) rest
    else if txin.nSequence &&& sequenceLocktimeTypeFlag ≠ 0#32 then
      match IndexChain.getAncestor block (nCoinHeight-1) with
      | [] => none
      | ancestor =>
        let nCoinTime := IndexChain.getMedianTimePast ancestor
        sequenceLockLoop block (nMinHeight, max nMinTime (nCoinTime + masked * 2^9 - 1)) rest
    else
      sequenceLockLoop block (max nMinHeight ((nCoinHeight : Int) + masked - 1), nMinTime) rest

def sequenceLocks (flags : BitVec 32) (prevHeights : List Nat) (block : IndexChain) : Option Bool :=
  let fEnforceBIP68 :=
    decide ((BitVec.ofInt 32 tx.nVersion).toNat ≥ 2) && flags &&& locktimeVerifySequence != 0#32
  let lockPair :=
    if fEnforceBIP68 then sequenceLockLoop block (-1, -1) (tx.vin.zip prevHeights)
    else some (-1, -1)
  match block, lockPair with
  | entry::prev::rest, some (nMinHeight, nMinTime) =>
    some (!(decide (nMinHeight ≥ entry.nHeight) ||
      decide (nMinTime ≥ IndexChain.getMedianTimePast (prev::rest))))
  | _, _ => none

variable (params : ConsensusParams)
def deploymentActiveAt (index : CBlockIndex) (dep : BuriedDeployment) : Bool :=
  decide (index.nHeight ≥ params.deploymentHeight dep)

variable (env : ValidationEnv)
def getBlockScriptFlags (index : CBlockIndex) : BitVec 32 :=
  let active := fun dep flag => if deploymentActiveAt env.params index dep then flag else 0#32
  (env.scriptFlagExceptions index.phashBlock).getD
      (scriptVerifyP2SH ||| scriptVerifyWitness ||| scriptVerifyTaproot) |||
    active .dersig scriptVerifyDersig ||| active .cltv scriptVerifyChecklocktimeverify |||
    active .csv scriptVerifyChecksequenceverify ||| active .segwit scriptVerifyNulldummy

def getTransactionSigOpCost (tx : CTransaction) (flags : BitVec 32) : CoinsProgram Nat :=
  let nSigOps := getLegacySigOpCount env tx * witnessScaleFactor
  if tx.isCoinBase then return nSigOps
  else do
    let p2sh ← (if flags &&& scriptVerifyP2SH ≠ 0#32 then accessInputs tx.prevouts else pure [])
    let coins ← accessInputs tx.prevouts
    return nSigOps +
      ((tx.vin.zip p2sh).map fun (txin, coin) =>
        env.p2shSigOpCount coin.out.scriptPubKey txin.scriptSig).sum * witnessScaleFactor +
      ((tx.vin.zip coins).map fun (txin, coin) =>
        env.countWitnessSigOps txin.scriptSig coin.out.scriptPubKey txin.scriptWitness flags).sum

structure CScriptCheck where
  tx : CTransaction
  spentOutputs : List CTxOut
  nIn : Nat
  flags : BitVec 32

def runScriptChecks (env : ValidationEnv) (tx : CTransaction) (spentOutputs : List CTxOut)
    (flags : BitVec 32) : List Nat → Except TxInvalid Unit
  | [] => .ok ()
  | nIn::rest =>
    match env.scriptError tx spentOutputs nIn flags with
    | none => runScriptChecks env tx spentOutputs flags rest
    | some error =>
      if flags &&& standardNotMandatoryVerifyFlags ≠ 0#32 ∧
          env.scriptError tx spentOutputs nIn (flags &&& ~~~standardNotMandatoryVerifyFlags) = none then
        .error ⟨.notStandard, "non-mandatory-script-verify-flag (" ++ error ++ ")", ""⟩
      else .error (txConsensus ("mandatory-script-verify-flag-failed (" ++ error ++ ")"))

variable (tx : CTransaction)

def checkInputScripts (flags : BitVec 32) : CoinsProgram (Except TxInvalid (List CScriptCheck)) :=
  if tx.isCoinBase || env.scriptCached tx flags then return .ok []
  else do
    let spentOutputs := (← accessInputs tx.prevouts).map Coin.out
    let inputs := List.range tx.vin.length
    if env.parallelScriptChecks then
      return .ok (inputs.map fun nIn => ⟨tx, spentOutputs, nIn, flags⟩)
    else return (runScriptChecks env tx spentOutputs flags inputs).map fun _ => []

/-- The spending loop of `UpdateCoins`, which asserts that every coin was there. -/
def spendInputs : List COutPoint → CoinsProgram (List Coin)
  | [] => return []
  | prevout::rest => do
      match ← spendCoin prevout with
      | none => .throw .assertion
      | some coin => return coin::(← spendInputs rest)

def addOutputs (txid : Uint256) (nHeight : Nat) (fCoinbase checkForOverwrite : Bool) :
    List (CTxOut × Nat) → CoinsProgram Unit
  | [] => return ()
  | (txout, i)::rest => do
      let overwrite ← (if checkForOverwrite then haveCoin ⟨txid, i⟩ else pure fCoinbase)
      addCoin ⟨txid, i⟩ ⟨txout, fCoinbase, nHeight⟩ overwrite
      addOutputs txid nHeight fCoinbase checkForOverwrite rest

def addCoins (nHeight : Nat) (checkForOverwrite : Bool) : CoinsProgram Unit :=
  addOutputs (env.txid tx) nHeight tx.isCoinBase checkForOverwrite tx.vout.zipIdx

/-- `CTxUndo`: the coins a transaction spent, in the order of its inputs. -/
abbrev CTxUndo := List Coin

/-- `CBlockUndo`: one record for each transaction but the coinbase. -/
abbrev CBlockUndo := List CTxUndo
def updateCoins (nHeight : Nat) : CoinsProgram CTxUndo := do
  let vprevout ← (if tx.isCoinBase then pure [] else spendInputs tx.prevouts)
  addCoins env tx nHeight false
  return vprevout

structure ConnectState where
  nFees : Int
  nSigOpsCost : Nat
  checks : List CScriptCheck
  vtxundo : List CTxUndo

/-- The checks on the inputs of a transaction; the answer is the new `nFees`. -/
def connectInputs (pindex : IndexChain) (nHeight : Nat) (nFees : Int) (tx : CTransaction) : CoinsProgram Int :=
  if tx.isCoinBase then return nFees
  else do
    match ← checkTxInputs tx nHeight with
    | .error invalid =>
      .throw (.invalid (blockConsensus invalid.rejectReason invalid.debugMessage))
    | .ok txfee =>
      Program.throwIf (!moneyRange (nFees+txfee))
        (.invalid (blockConsensus "bad-txns-accumulated-fee-outofrange" ""))
      let coins ← accessInputs tx.prevouts
      let flags := if pindex.head?.any (deploymentActiveAt env.params · .csv) then
        locktimeVerifySequence else 0#32
      match sequenceLocks tx flags (coins.map Coin.nHeight) pindex with
      | none => .throw .assertion
      | some final =>
        Program.throwIf (!final) (.invalid (blockConsensus "bad-txns-nonfinal" ""))
        return nFees + txfee

variable (fScriptChecks : Bool)
def connectScripts (flags : BitVec 32) (tx : CTransaction) : CoinsProgram (List CScriptCheck) :=
  if fScriptChecks && !tx.isCoinBase then do
    match ← checkInputScripts env tx flags with
    | .error invalid =>
      .throw (.invalid (blockConsensus invalid.rejectReason invalid.debugMessage))
    | .ok checks => return checks
  else return []

def connectTx (pindex : IndexChain) (nHeight : Nat)
    (flags : BitVec 32) (st : ConnectState) (tx : CTransaction) : CoinsProgram ConnectState := do
  let nFees ← connectInputs env pindex nHeight st.nFees tx
  let cost ← getTransactionSigOpCost env tx flags
  Program.throwIf (st.nSigOpsCost + cost > maxBlockSigopsCost)
    (.invalid (blockConsensus "bad-blk-sigops" ""))
  let checks ← connectScripts env fScriptChecks flags tx
  let txundo ← updateCoins env tx nHeight
  return ⟨nFees, st.nSigOpsCost + cost, st.checks++checks, st.vtxundo++[txundo]⟩

def connectTxs (env : ValidationEnv) (fScriptChecks : Bool) (pindex : IndexChain) (nHeight : Nat)
    (flags : BitVec 32) : ConnectState → List CTransaction → CoinsProgram ConnectState
  | st, [] => return st
  | st, tx::rest => do
      let st' ← connectTx env fScriptChecks pindex nHeight flags st tx
      connectTxs env fScriptChecks pindex nHeight flags st' rest

def bip34ImpliesBip30Limit : Nat := 1983702

def enforceBip30 (entry : CBlockIndex) (pprev : IndexChain) : Bool :=
  let exempt :=
    (entry.nHeight == 91842 && entry.phashBlock ==
      0x00000000000a4d0a398161ffc163c503763b1f4360639393e0e4c8e300e0caec#256) ||
    (entry.nHeight == 91880 && entry.phashBlock ==
      0x00000000000743f190a18c5577a3c2d2a1f610ae9601ac046a38084ccb7cd721#256)
  let pindexBip34height := IndexChain.getAncestor pprev params.bip34Height
  (!exempt && !pindexBip34height.head?.any fun index => index.phashBlock == params.bip34Hash) ||
    decide (entry.nHeight ≥ bip34ImpliesBip30Limit)

def outputOutpoints (tx : CTransaction) : List COutPoint :=
  (List.range tx.vout.length).map fun i => ⟨env.txid tx, i⟩

/-- The BIP30 scan: is one of the outpoints unspent? -/
def haveAny : List COutPoint → CoinsProgram Bool
  | [] => return false
  | outpoint::rest => do
      if ← haveCoin outpoint then return true else haveAny rest

/-- The coinbase limit, the check queue and the end of `ConnectBlock`. -/
def finishBlock (fJustCheck : Bool) (block : CBlock) (entry : CBlockIndex)
    (st : ConnectState) : CoinsProgram (Option CBlockUndo) :=
  match block.vtx.head?.bind CTransaction.getValueOut with
  | none => .throw valueOutError
  | some valueOut => do
      Program.throwIf (valueOut > st.nFees + getBlockSubsidy entry.nHeight env.params)
        (.invalid (blockConsensus "bad-cb-amount" ""))
      Program.throwIf (st.checks.any fun check =>
          (env.scriptError check.tx check.spentOutputs check.nIn check.flags).isSome)
        (.invalid (blockConsensus "block-validation-failed" ""))
      if fJustCheck then return none
      else do
        setBestBlock entry.phashBlock
        return some st.vtxundo.tail

variable (fScriptChecks fJustCheck : Bool)
/-- `ConnectBlock` of any block but the genesis block, after its context-free checks. -/
def connectBody (block : CBlock)
    (entry : CBlockIndex) (pprev : IndexChain) : CoinsProgram (Option CBlockUndo) := do
  Program.throwIf pprev.isEmpty .assertion
  let overwrites ← (if enforceBip30 env.params entry pprev then
    haveAny (block.vtx.flatMap (outputOutpoints env)) else pure false)
  Program.throwIf overwrites (.invalid (blockConsensus "bad-txns-BIP30" ""))
  let st ← connectTxs env fScriptChecks (entry::pprev) entry.nHeight
    (getBlockScriptFlags env entry) ⟨0, 0, [], []⟩ block.vtx
  finishBlock env fJustCheck block entry st

/-- The outcome of `CheckBlock` in `ConnectBlock`. -/
def connectCheck (checked : Except BlockInvalid Unit) : CoinsProgram Unit :=
  match checked with
  | .ok () => return ()
  | .error invalid =>
    if invalid.result = .mutated then
      .throw (.error "Corrupt block found indicating potential hardware failure; shutting down")
    else .throw (.invalid invalid)

def prevHash (pprev : IndexChain) : Uint256 := (pprev.head?.map CBlockIndex.phashBlock).getD 0#256

/-- `Chainstate::ConnectBlock` for the block whose index entry heads the chain.  The answer is the
undo data, which the genesis block and a mere check do not have. -/
def connectBlock (block : CBlock)
    (entry : CBlockIndex) (pprev : IndexChain) : CoinsProgram (Option CBlockUndo) := do
  Program.throwIf (entry.phashBlock != env.getHash block.header) .assertion
  connectCheck (checkBlock env block (!fJustCheck) (!fJustCheck))
  let best ← getBestBlock
  Program.throwIf (prevHash pprev != best) .assertion
  if env.getHash block.header = env.params.hashGenesisBlock then
    if fJustCheck then return none
    else do
      setBestBlock entry.phashBlock
      return none
  else connectBody env fScriptChecks fJustCheck block entry pprev
end Lcryp
