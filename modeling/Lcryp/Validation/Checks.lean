import Lcryp.Chain.Headers
import Lcryp.Framework.Interaction
import Lcryp.Primitives.Transaction

/-!
# Context-free and contextual block checks

`CheckTransaction`, `CheckBlock` and `ContextualCheckBlock` with the reasons they reject for.
-/
namespace Lcryp
open Interaction CTransaction List
def maxBlockWeight : Nat := 4000000
def maxBlockSigopsCost : Nat := 80000
def locktimeThreshold : Int := 500000000
def sequenceFinal : BitVec 32 := 0xffffffff#32

/-- What validation takes from the rest of the node. -/
structure ValidationEnv extends HeaderEnv where
  /-- The hash of a transaction's witness-free serialization. -/
  hashTx : CTransaction → Uint256
  /-- `BlockMerkleRoot` and its `mutated` flag. -/
  blockMerkleRoot : List CTransaction → Uint256 × Bool
  blockWitnessMerkleRoot : List CTransaction → Uint256
  /-- `CHash256` of the witness root and the reserved value. -/
  witnessCommitment : Uint256 → List UInt8 → List UInt8
  checkSignetBlockSolution : CBlock → Bool
  /-- `CScript::GetSigOpCount(false)`. -/
  sigOpCount : CScript → Nat
  /-- `GetSigOpCount(scriptSig)` of a pay-to-script-hash output, 0 for any other. -/
  p2shSigOpCount : CScript → CScript → Nat
  /-- `CountWitnessSigOps` of a script, the output it spends, its witness and the flags. -/
  countWitnessSigOps : CScript → CScript → List (List UInt8) → BitVec 32 → Nat
  scriptFlagExceptions : Uint256 → Option (BitVec 32)
  /-- The error of `CScriptCheck` on one input, given all spent outputs and the flags. -/
  scriptError : CTransaction → List CTxOut → Nat → BitVec 32 → Option String
  /-- Whether the script execution cache holds a transaction under some flags. -/
  scriptCached : CTransaction → BitVec 32 → Bool
  parallelScriptChecks : Bool

variable (env : ValidationEnv) (tx : CTransaction)
namespace ValidationEnv
def txid : Uint256 := env.hashTx tx.stripWitness
end ValidationEnv

def txConsensus (rejectReason : String) : TxInvalid := ⟨.consensus, rejectReason, ""⟩

def checkOutputs : Int → List CTxOut → Except TxInvalid Unit
  | _, [] => .ok ()
  | nValueOut, txout::rest =>
    if txout.nValue < 0 then .error (txConsensus "bad-txns-vout-negative")
    else if txout.nValue > maxMoney then .error (txConsensus "bad-txns-vout-toolarge")
    else if !moneyRange (nValueOut+txout.nValue) then
      .error (txConsensus "bad-txns-txouttotal-toolarge")
    else checkOutputs (nValueOut+txout.nValue) rest

/-- The end of `CheckTransaction`: the coinbase script or the inputs of an ordinary transaction. -/
def checkInputForm : Except TxInvalid Unit :=
  if tx.isCoinBase then
    let size := ((tx.vin.map CTxIn.scriptSig).headD []).length
    if size < 2 ∨ size > 100 then .error (txConsensus "bad-cb-length") else .ok ()
  else if tx.prevouts.any COutPoint.isNull then .error (txConsensus "bad-txns-prevout-null")
  else .ok ()

def checkTransaction : Except TxInvalid Unit := do
  rejectIf tx.vin.isEmpty (txConsensus "bad-txns-vin-empty")
  rejectIf tx.vout.isEmpty (txConsensus "bad-txns-vout-empty")
  rejectIf (tx.strippedSize * witnessScaleFactor > maxBlockWeight) (txConsensus "bad-txns-oversize")
  checkOutputs 0 tx.vout
  rejectIf (¬ tx.prevouts.Nodup) (txConsensus "bad-txns-inputs-duplicate")
  checkInputForm tx

def isFinalTx (nBlockHeight : Nat) (nBlockTime : Int) : Bool :=
  if tx.nLockTime = 0#32 then true
  else
    let nLockTime : Int := tx.nLockTime.toNat
    if nLockTime < (if nLockTime < locktimeThreshold then (nBlockHeight : Int) else nBlockTime) then
      true
    else tx.vin.all fun txin => txin.nSequence == sequenceFinal

def blockConsensus (rejectReason debugMessage : String) : BlockInvalid :=
  ⟨.consensus, rejectReason, debugMessage⟩

def checkTransactions (env : ValidationEnv) : List CTransaction → Except BlockInvalid Unit
  | [] => .ok ()
  | tx::rest =>
    match checkTransaction tx with
    | .error invalid =>
      .error (blockConsensus invalid.rejectReason
        ("Transaction check failed (tx hash " ++ hashToString (env.txid tx) ++ ") " ++
          invalid.debugMessage))
    | .ok () => checkTransactions env rest

def getLegacySigOpCount : Nat :=
  (tx.vin.map fun txin => env.sigOpCount txin.scriptSig).sum +
    (tx.vout.map fun txout => env.sigOpCount txout.scriptPubKey).sum

variable (block : CBlock)
def checkMerkleRoot : Except BlockInvalid Unit := do
  let root := env.blockMerkleRoot block.vtx
  rejectIf (block.header.hashMerkleRoot ≠ root.1) ⟨.mutated, "bad-txnmrklroot", "hashMerkleRoot mismatch"⟩
  rejectIf root.2 ⟨.mutated, "bad-txns-duplicate", "duplicate transaction"⟩

def checkBlock (fCheckPOW fCheckMerkleRoot : Bool) : Except BlockInvalid Unit := do
  checkWhen fCheckPOW (checkBlockHeader env.toHeaderEnv block.header)
  rejectIf (env.params.signetBlocks && fCheckPOW && !env.checkSignetBlockSolution block)
    (blockConsensus "bad-signet-blksig" "signet block signature validation failure")
  checkWhen fCheckMerkleRoot (checkMerkleRoot env block)
  rejectIf (block.vtx.isEmpty || decide (block.vtx.length * witnessScaleFactor > maxBlockWeight) ||
      decide (block.strippedSize * witnessScaleFactor > maxBlockWeight))
    (blockConsensus "bad-blk-length" "size limits failed")
  rejectIf (!block.vtx.head?.any isCoinBase) (blockConsensus "bad-cb-missing" "first tx is not coinbase")
  rejectIf (block.vtx.tail.any isCoinBase) (blockConsensus "bad-cb-multiple" "more than one coinbase")
  checkTransactions env block.vtx
  rejectIf ((block.vtx.map (getLegacySigOpCount env)).sum * witnessScaleFactor > maxBlockSigopsCost)
    (blockConsensus "bad-blk-sigops" "out-of-bounds SigOpCount")

def minimumWitnessCommitment : Nat := 38
def witnessCommitmentHeader : List UInt8 := [0x6a, 0x24, 0xaa, 0x21, 0xa9, 0xed]
def getWitnessCommitment : Option CTxOut :=
  (block.vtx.head?.map vout).getD [] |>.reverse |>.find? fun vout =>
    decide (vout.scriptPubKey.length ≥ minimumWitnessCommitment) &&
      vout.scriptPubKey.take 6 == witnessCommitmentHeader

def firstInput : Option CTxIn := block.vtx.head?.bind fun tx => tx.vin.head?

/-- The witness part of `ContextualCheckBlock`; the answer is `fHaveWitness`. -/
def checkWitnessCommitment : Except BlockInvalid Bool :=
  match getWitnessCommitment block with
  | none => .ok false
  | some commitment =>
    match (firstInput block).map CTxIn.scriptWitness with
    | some [nonce] =>
      if nonce.length ≠ 32 then
        .error ⟨.mutated, "bad-witness-nonce-size","ContextualCheckBlock : invalid witness reserved value size"⟩
      else if env.witnessCommitment (env.blockWitnessMerkleRoot block.vtx) nonce ≠
          (commitment.scriptPubKey.drop 6).take 32 then
        .error ⟨.mutated, "bad-witness-merkle-match",
          "ContextualCheckBlock : witness merkle commitment mismatch"⟩
      else .ok true
    | _ =>
      .error ⟨.mutated, "bad-witness-nonce-size","ContextualCheckBlock : invalid witness reserved value size"⟩

def coinbaseHeightOk (nHeight : Nat) : Bool :=
  (firstInput block).any fun txin => (pushInt64 nHeight).isPrefixOf txin.scriptSig

def contextualCheckBlock (pindexPrev : IndexChain) : Except BlockInvalid Unit :=
  match pindexPrev with
  | [] => .ok ()
  | prev::_ => do
      let nHeight := prev.nHeight + 1
      let active := deploymentActiveAfter env.params pindexPrev
      let nLockTimeCutoff :=
        if active .csv then IndexChain.getMedianTimePast pindexPrev else block.header.getBlockTime
      rejectIf (!block.vtx.all fun tx => isFinalTx tx nHeight nLockTimeCutoff)
        (blockConsensus "bad-txns-nonfinal" "non-final transaction")
      rejectIf (active .heightInCb && !coinbaseHeightOk block nHeight)
        (blockConsensus "bad-cb-height" "block height mismatch in coinbase")
      let fHaveWitness ← if active .segwit then checkWitnessCommitment env block else .ok false
      rejectIf (!fHaveWitness && block.vtx.any hasWitness)
        ⟨.mutated, "unexpected-witness", "ContextualCheckBlock : unexpected witness data found"⟩
      rejectIf (block.weight > maxBlockWeight)
        (blockConsensus "bad-blk-weight" "ContextualCheckBlock : weight limit failed")

variable {vout : List CTxOut}
theorem sumValueOut_eq_some {nValueOut total : Int} (h0 : 0 ≤ nValueOut)
    (h : sumValueOut nValueOut vout = some total) :
    total = nValueOut + (vout.map CTxOut.nValue).sum ∧ 0 ≤ total ∧ ∀ txout ∈ vout, 0 ≤ txout.nValue := by
  induction vout generalizing nValueOut with
  | nil =>
    cases h
    simp [h0]
  | cons txout rest ih =>
    rw [sumValueOut] at h
    split at h
    · cases h
    rename_i hr
    simp only [Bool.or_eq_true,Bool.not_eq_true',Bool.eq_false_iff,moneyRange_iff,not_or,not_not] at hr
    obtain ⟨ht,hnn,hre⟩ := ih (by simpa using hr.2.1) h
    rw [map_cons,sum_cons,forall_mem_cons]
    exact ⟨by omega,hnn,hr.1.1,hre⟩

variable {tx : CTransaction}
theorem CTransaction.getValueOut_eq_some {total : Int} (h : tx.getValueOut = some total) :
    total = (tx.vout.map CTxOut.nValue).sum ∧ 0 ≤ total ∧ ∀ txout ∈ tx.vout, 0 ≤ txout.nValue := by
  simpa using sumValueOut_eq_some le_rfl h

structure WellFormedTx (tx : CTransaction) : Prop where
  vin : tx.vin ≠ []
  vout : tx.vout ≠ []
  nonneg : ∀ txout ∈ tx.vout, 0 ≤ txout.nValue
  nodup : tx.prevouts.Nodup
  prevouts : tx.isCoinBase = false → ∀ prevout ∈ tx.prevouts, prevout.isNull = false

private theorem checkOutputs_ok {nValueOut : Int}
    (h : checkOutputs nValueOut vout = .ok ()) : ∀ txout ∈ vout, 0 ≤ txout.nValue := by
  induction vout generalizing nValueOut with
  | nil => simp
  | cons txout rest ih =>
    rw [checkOutputs] at h
    split_ifs at h with hneg
    rw [forall_mem_cons]
    exact ⟨Int.not_lt.mp hneg,ih h⟩

theorem checkTransaction_ok (h : checkTransaction tx = .ok ()) : WellFormedTx tx := by
  simp only [checkTransaction,bind_eq_ok] at h
  obtain ⟨_,hvin,_,hv,_,_,_,ho,_,hnd,hf⟩ := h
  refine ⟨by simpa using hvin,by simpa using hv,checkOutputs_ok ho,by simpa using hnd,?_⟩
  intro hcb prevout hprev
  simp only [checkInputForm,hcb,Bool.false_eq_true,if_false] at hf
  split_ifs at hf with hn
  simp only [any_eq_true,not_exists,not_and] at hn
  exact Bool.eq_false_iff.mpr (hn prevout hprev)

variable {env : ValidationEnv}
private theorem checkTransactions_ok {vtx : List CTransaction}
    (h : checkTransactions env vtx = .ok ()) : ∀ tx ∈ vtx, WellFormedTx tx := by
  induction vtx with
  | nil => simp
  | cons tx rest ih =>
    rw [checkTransactions] at h
    split at h
    · cases h
    · rename_i htx
      rw [forall_mem_cons]
      exact ⟨checkTransaction_ok htx,ih h⟩

/-- What `CheckBlock` guarantees: one coinbase in front, and well-formed transactions. -/
structure WellFormedBlock (block : CBlock) (coinbase : CTransaction) (rest : List CTransaction) : Prop where
  vtx : block.vtx = coinbase::rest
  coinbase : coinbase.isCoinBase = true
  rest : ∀ tx ∈ rest, tx.isCoinBase = false
  wellFormed : ∀ tx ∈ block.vtx, WellFormedTx tx

theorem checkBlock_ok {block : CBlock} {fCheckPOW fCheckMerkleRoot : Bool}
    (h : checkBlock env block fCheckPOW fCheckMerkleRoot = .ok ()) :
    ∃ coinbase rest, WellFormedBlock block coinbase rest := by
  simp only [checkBlock,bind_eq_ok] at h
  obtain ⟨_,_,_,_,_,_,_,hs,_,hfst,_,hm,_,htxs,_⟩ := h
  have hw := checkTransactions_ok htxs
  cases hvtx : block.vtx with
  | nil => simp [hvtx] at hs
  | cons coinbase rest =>
    refine ⟨coinbase,rest,hvtx,?_,?_,hw⟩
    · simpa [hvtx] using hfst
    · simpa [hvtx] using hm

theorem contextualCheckBlock_height {block : CBlock} {prev : CBlockIndex}
    {pprev : IndexChain} (h : contextualCheckBlock env block (prev::pprev) = .ok ())
    (hact : env.params.bip34Height ≤ prev.nHeight + 1) :
    ∃ txin, firstInput block = some txin ∧ pushInt64 (prev.nHeight + 1 : Nat) <+: txin.scriptSig := by
  simp only [contextualCheckBlock,bind_eq_ok] at h
  obtain ⟨_,_,_,hht,_⟩ := h
  have hd : deploymentActiveAfter env.params (prev::pprev) .heightInCb = true := by
    simpa [deploymentActiveAfter,ConsensusParams.deploymentHeight] using hact
  simpa [hd,coinbaseHeightOk,Option.any_eq_true] using hht
end Lcryp
