import Lcryp.Validation.Connect

/-!
# The internal miner

`BlockMining`.  A thread of `GenerateBlock` is a state machine whose steps lie between its reads of shared
state.
-/
namespace Lcryp
/-- A pointer to an entry of the block index, with the chain its `pprev` reaches. -/
structure IndexPtr where
  entry : CBlockIndex
  pprev : IndexChain
deriving DecidableEq

def IndexPtr.chain (pindex : IndexPtr) : IndexChain := pindex.entry::pindex.pprev

structure MinerEnv extends ValidationEnv where
  isTestChain : Bool
  /-- `ComputeBlockVersion`, or `-blockversion` where blocks are mined on demand. -/
  blockVersion : IndexChain → Int
  coinbaseScript : CScript
  /-- The entry of every block that is ever indexed. -/
  blockIndex : Uint256 → Option IndexPtr

structure NodeView (env : MinerEnv) where
  /-- `m_flag_mining_busy`. -/
  miningBusy : Bool
  /-- `m_flag_active_threads[th]`, which is set when the thread is to end. -/
  threadStopped : Bool
  shutdownRequested : Bool
  transactionsUpdated : Nat
  /-- `GetTime`. -/
  time : Int
  /-- `GetAdjustedTime` in seconds. -/
  adjustedTime : Int
  nodeCount : Nat
  initialBlockDownload : Bool
  /-- `active_chain.Tip()`. -/
  tip : IndexPtr
  /-- What `addPackageTxs` selects, and `nFees`. -/
  packages : List CTransaction
  fees : Int
  processNewBlock : CBlock → Bool
  tip_indexed : env.blockIndex tip.entry.phashBlock = some tip
  /-- Heights are of type `int`. -/
  height_lt : tip.entry.nHeight + 1 < 2^31

def updateTime (params : ConsensusParams) (adjustedTime : Int) (pindexPrev : IndexPtr)
    (block : CBlockHeader) : Option (CBlockHeader × Int) :=
  let nOldTime : Int := block.nTime.toNat
  let nNewTime := max (IndexChain.getMedianTimePast pindexPrev.chain + 1) adjustedTime
  let timed := if nOldTime < nNewTime then { block with nTime := BitVec.ofInt 32 nNewTime } else block
  if params.fPowAllowMinDifficultyBlocks then
    (getNextWorkRequired params pindexPrev.chain).map fun nBits =>
      ({ timed with nBits := nBits }, nNewTime - nOldTime)
  else some (timed, nNewTime - nOldTime)

def withFirstInput (change : CTxIn → CTxIn) (vtx : List CTransaction) : List CTransaction :=
  vtx.modifyHead fun tx => { tx with vin := tx.vin.modifyHead change }

variable (env : MinerEnv)
def generateCoinbaseCommitment (pindexPrev : IndexPtr) (block : CBlock) : CBlock :=
  let nonce : List UInt8 := List.replicate 32 0
  let committed : CBlock :=
    if getWitnessCommitment block = none then
      let root := env.witnessCommitment (env.blockWitnessMerkleRoot block.vtx) nonce
      { block with vtx := block.vtx.modifyHead fun tx =>
          { tx with vout := tx.vout++[⟨0, witnessCommitmentHeader++root⟩] } }
    else block
  -- `UpdateUncommittedBlockStructures`
  if getWitnessCommitment committed ≠ none ∧ deploymentActiveAfter env.params pindexPrev.chain .segwit ∧
      ¬ committed.vtx.head?.any CTransaction.hasWitness then
    { committed with vtx := withFirstInput (fun txin => { txin with scriptWitness := [nonce] }) committed.vtx }
  else committed

variable (node : NodeView env)
/-- The coinbase of `CreateNewBlock`. -/
def templateCoinbase : CTransaction :=
  let nHeight := node.tip.entry.nHeight + 1
  { vin := [⟨⟨0#256, nullIndex⟩, pushInt64 nHeight++[0], sequenceFinal, []⟩]
    vout := [⟨node.fees + getBlockSubsidy nHeight env.params, env.coinbaseScript⟩]
    nVersion := 2
    nLockTime := 0#32 }

/-- `CreateNewBlock`; the outcome of `TestBlockValidity` does not change what it returns.  `none` is an
abort of `GetNextWorkRequired`. -/
def createNewBlock : Option CBlock := do
  let block := generateCoinbaseCommitment env node.tip
    ⟨.null, templateCoinbase env node::node.packages⟩
  let header : CBlockHeader :=
    { block.header with
      nVersion := env.blockVersion node.tip.chain
      hashPrevBlock := node.tip.entry.phashBlock
      nTime := BitVec.ofInt 32 node.adjustedTime }
  let timed ← updateTime env.params node.adjustedTime node.tip header
  let nBits ← getNextWorkRequired env.params node.tip.chain
  return { block with header := { timed.1 with nBits := nBits, nNonce := 0#32 } }

/-- What a call of `ScanHash` leaves behind; `hashed` lists the nonces it tried. -/
structure NonceScan where
  found : Bool
  nNonce : BitVec 32
  countNonce : BitVec 32
  hash : Uint256
  hashed : List (BitVec 32)

/-- `((uint16_t*)phash)[15] == 0`. -/
def topWordZero (hash : Uint256) : Bool := hash.extractLsb' 240 16 == 0#16
theorem low_bits (nNonce : BitVec 32) : (nNonce &&& 0xfff#32).toNat = nNonce.toNat % 4096 := by
  exact Nat.and_two_pow_sub_one_eq_mod nNonce.toNat 12

/-- `ScanHash`: the nonces after `nNonce` up to the first whose hash may be low, or to a multiple of 4096. -/
def scanHash (getHash : CBlockHeader → Uint256) (block : CBlockHeader) (nNonce countNonce : BitVec 32) :
    NonceScan :=
  let nonce := nNonce + 1#32
  let count := countNonce + 1#32
  let hash := getHash { block with nNonce := nonce }
  if topWordZero hash then ⟨true, nonce, count, hash, [nonce]⟩
  else if nonce &&& 0xfff#32 = 0#32 then ⟨false, nonce, count, hash, [nonce]⟩
  else
    let rest := scanHash getHash block nonce count
    { rest with hashed := nonce::rest.hashed }
termination_by 4095 - nNonce.toNat % 4096
decreasing_by
  rename_i hlow
  have hnonzero : (nNonce + 1#32).toNat % 4096 ≠ 0 := by
    rw [← low_bits]
    exact fun h => hlow (BitVec.eq_of_toNat_eq h)
  rw [BitVec.toNat_add] at hnonzero ⊢
  simp only [BitVec.toNat_ofNat] at hnonzero ⊢
  omega

/-- The part of the nonces a worker is started with, and `nStart`. -/
structure MinerWorker where
  min : BitVec 32
  max : BitVec 32
  nStart : Int

structure MinerRound where
  nTransactionsUpdatedLast : Nat
  pindexPrev : IndexPtr
  block : CBlock
  hashTarget : ArithUint256
  nNonce : BitVec 32
  countNonce : BitVec 32

/-- The places where `GenerateBlock` returns. -/
inductive MinerExit
  | notBusy
  | notConnected
  | initialSync
  | aborted
  | blockFound (block : CBlock) (pbf : Bool)
  | emergencyA
  | emergencyB
  | termination
  | newTransaction
  | newTip
  | timeWentBack
  | correctTense

inductive MinerPoint
  /-- Before the test of the outer loop. -/
  | outer
  /-- `pindexPrev` is read, `CreateNewBlock` not yet called. -/
  | assembling (nTransactionsUpdatedLast : Nat) (pindexPrev : IndexPtr)
  /-- Before the test of the inner loop. -/
  | scanning (round : MinerRound)
  /-- After `ScanHash`. -/
  | checking (round : MinerRound)
  /-- The inner loop was left because `countNonce` reached `max - min`. -/
  | exhausted
  | returned (exit : MinerExit)

structure MinerThread where
  nExtraNonce : BitVec 32
  /-- `m_hashPrevBlock[th]`. -/
  hashPrevBlock : Uint256
  hashed : List CBlock
  point : MinerPoint

namespace BlockMining
variable {env : MinerEnv} (worker : MinerWorker)
def random (rand : Nat) : BitVec 32 :=
  worker.min + BitVec.ofNat 32 (rand % (worker.max-worker.min).toNat)

/-- `IncrementExtraNonce`: `m_hashPrevBlock[th]`, `nExtraNonce` and the block after it. -/
def incrementExtraNonce (env : MinerEnv) (seen : Uint256) (block : CBlock) (pindexPrev : IndexPtr)
    (nExtraNonce : BitVec 32) : Uint256 × BitVec 32 × CBlock :=
  let extra := (if seen ≠ block.header.hashPrevBlock then 0#32 else nExtraNonce) + 1#32
  let script := pushInt64 (pindexPrev.entry.nHeight + 1 : Nat)++pushData (scriptNumSerialize extra.toNat)
  let vtx := withFirstInput (fun txin => { txin with scriptSig := script }) block.vtx
  (block.header.hashPrevBlock, extra,
    ⟨{ block.header with hashMerkleRoot := (env.blockMerkleRoot vtx).1 }, vtx⟩)

def withNonce (block : CBlock) (nNonce : BitVec 32) : CBlock :=
  { block with header := { block.header with nNonce := nNonce } }

variable (node : NodeView env)
def processBlockFound (block : CBlock) : Bool :=
  if block.header.hashPrevBlock ≠ node.tip.entry.phashBlock then false
  else if checkProofOfWork env.params (env.getHash block.header) block.header.nBits then
    if !env.isTestChain && node.nodeCount == 0 then false
    else if !env.isTestChain && node.initialBlockDownload && decide (node.tip.entry.nHeight > 1) then false
    else node.processNewBlock block
  else false

/-- From the test of the outer loop to the checks before `CreateNewBlock`. -/
def startRound : MinerPoint :=
  if !node.miningBusy then .returned .notBusy
  else if !env.isTestChain && node.nodeCount == 0 then .returned .notConnected
  else if !env.isTestChain && node.initialBlockDownload && decide (node.tip.entry.nHeight > 1) then
    .returned .initialSync
  else .assembling node.transactionsUpdated node.tip

variable (worker : MinerWorker)

variable (node : NodeView env)

/-- From `CreateNewBlock` to the first test of the inner loop. -/
def assemble (rand : Nat) (thread : MinerThread)
    (nTransactionsUpdatedLast : Nat) (pindexPrev : IndexPtr) : MinerThread :=
  match createNewBlock env node with
  | none => { thread with point := .returned .aborted }
  | some template =>
    let incremented := incrementExtraNonce env thread.hashPrevBlock template pindexPrev thread.nExtraNonce
    { thread with
      hashPrevBlock := incremented.1
      nExtraNonce := incremented.2.1
      point := .scanning
        { nTransactionsUpdatedLast := nTransactionsUpdatedLast
          pindexPrev := pindexPrev
          block := incremented.2.2
          hashTarget := (setCompact incremented.2.2.header.nBits).target
          nNonce := random worker rand
          countNonce := 0#32 } }

variable (round : MinerRound)
def afterScan (scanned : NonceScan) : MinerPoint :=
  if scanned.found ∧ scanned.hash ≤ round.hashTarget then
    let block := withNonce round.block scanned.nNonce
    .returned (.blockFound block (processBlockFound node block))
  else .checking { round with nNonce := scanned.nNonce, countNonce := scanned.countNonce }

/-- The inner loop from its test to the answer of `ProcessBlockFound`. -/
def scan (thread : MinerThread) (round : MinerRound) : MinerThread :=
  if !node.miningBusy then { thread with point := .outer }
  else
    let scanned := scanHash env.getHash round.block.header round.nNonce round.countNonce
    { thread with
      hashed := thread.hashed++scanned.hashed.map (withNonce round.block)
      point := afterScan node round scanned }

def wrapNonce : MinerRound :=
  { round with nNonce := if round.nNonce > worker.max then worker.min else round.nNonce }

variable (round : MinerRound)

def refresh : MinerPoint :=
  if node.transactionsUpdated ≠ round.nTransactionsUpdatedLast ∧ node.time - worker.nStart > 60 then
    .returned .newTransaction
  else if round.pindexPrev ≠ node.tip then .returned .newTip
  else
    match updateTime env.params node.adjustedTime round.pindexPrev round.block.header with
    | none => .returned .aborted
    | some (header, moved) =>
      if moved < 0 then .returned .timeWentBack
      else if env.params.fPowAllowMinDifficultyBlocks then .returned .correctTense
      else .scanning (wrapNonce worker { round with block := { round.block with header := header } })

/-- The inner loop after `ScanHash`. -/
def check : MinerPoint :=
  if !node.miningBusy then .returned .emergencyA
  else if node.threadStopped then .returned .emergencyB
  else if round.countNonce ≥ worker.max - worker.min then .exhausted
  else if node.shutdownRequested then .returned .termination
  else if round.nNonce &&& 0xfffff#32 = 0#32 then refresh worker node round
  else .scanning (wrapNonce worker round)

/-- One step of `GenerateBlock`, with the node as it is and the next value of `rand()`. -/
def generateBlock (env : MinerEnv) (worker : MinerWorker) (thread : MinerThread)
    (input : NodeView env × Nat) : Option MinerThread :=
  match thread.point with
  | .outer => some { thread with point := startRound input.1 }
  | .assembling updated pindexPrev => some (assemble worker input.1 input.2 thread updated pindexPrev)
  | .scanning round => some (scan input.1 thread round)
  | .checking round => some { thread with point := check worker input.1 round }
  | .exhausted => some { thread with point := .outer }
  | .returned _ => none

def started : MinerThread := ⟨0#32, 0#256, [], .outer⟩

/-- The loop that starts the workers, with the ranges it gives them. -/
def startWorkers (step : BitVec 32) : Nat → BitVec 32 → BitVec 32 → List (BitVec 32 × BitVec 32)
  | 0, _, _ => []
  | left+1, min, max =>
    -- The last bound is only corrected after the last worker has been started.
    (min, max)::startWorkers step left max (if left = 0 then 4294967295#32 else max + step)

def workerRanges (nGenProcLimit : Nat) : List (BitVec 32 × BitVec 32) :=
  let step := 4294967295#32 / BitVec.ofNat 32 nGenProcLimit
  startWorkers step nGenProcLimit 0#32 step

def atTime (nTime : BitVec 32) : MinerRound :=
  { round with block := { round.block with header := { round.block.header with nTime := nTime } } }

private theorem updateTime_cases {params : ConsensusParams} (hpow : params.fPowAllowMinDifficultyBlocks = false)
    (adjustedTime : Int) (pindexPrev : IndexPtr) (block : CBlockHeader) :
    ∃ nTime moved,
      updateTime params adjustedTime pindexPrev block = some ({ block with nTime := nTime }, moved) := by
  simp only [updateTime,hpow,Bool.false_eq_true,if_false]
  split
  · exact ⟨_,_,rfl⟩
  · exact ⟨block.nTime,_,rfl⟩

private theorem refresh_cases :
    (∃ exit, refresh worker node round = .returned exit) ∨
      ∃ nTime, refresh worker node round = .scanning (wrapNonce worker (atTime round nTime)) := by
  unfold refresh
  by_cases htx : node.transactionsUpdated ≠ round.nTransactionsUpdatedLast ∧ node.time - worker.nStart > 60
  · exact .inl ⟨_,if_pos htx⟩
  rw [if_neg htx]
  by_cases htip : round.pindexPrev ≠ node.tip
  · exact .inl ⟨_,if_pos htip⟩
  rw [if_neg htip]
  by_cases hpow : env.params.fPowAllowMinDifficultyBlocks = true
  · left
    split
    · exact ⟨_,rfl⟩
    · split <;> exact ⟨_,rfl⟩
  · obtain ⟨nTime,moved,hupd⟩ := updateTime_cases (Bool.not_eq_true _ ▸ hpow)
      node.adjustedTime round.pindexPrev round.block.header
    rw [hupd]
    simp only [if_neg hpow]
    split
    · exact .inl ⟨_,rfl⟩
    · exact .inr ⟨nTime,rfl⟩

theorem check_cases :
    (∃ exit, check worker node round = .returned exit) ∨
      (check worker node round = .exhausted ∧ round.countNonce ≥ worker.max - worker.min) ∨
      (round.countNonce < worker.max - worker.min ∧
        ∃ nTime, check worker node round = .scanning (wrapNonce worker (atTime round nTime))) := by
  unfold check
  by_cases hb : (!node.miningBusy) = true
  · exact .inl ⟨_,if_pos hb⟩
  rw [if_neg hb]
  by_cases hst : node.threadStopped = true
  · exact .inl ⟨_,if_pos hst⟩
  rw [if_neg hst]
  by_cases hcnt : round.countNonce ≥ worker.max - worker.min
  · exact .inr (.inl ⟨if_pos hcnt,hcnt⟩)
  rw [if_neg hcnt]
  have hl : round.countNonce < worker.max - worker.min := BitVec.not_le.mp hcnt
  by_cases hs : node.shutdownRequested = true
  · exact .inl ⟨_,if_pos hs⟩
  rw [if_neg hs]
  by_cases hr : round.nNonce &&& 0xfffff#32 = 0#32
  · rw [if_pos hr]
    rcases refresh_cases worker node round with hexit | hsc
    · exact .inl hexit
    · exact .inr (.inr ⟨hl,hsc⟩)
  · rw [if_neg hr]
    exact .inr (.inr ⟨hl,round.block.header.nTime,rfl⟩)
end BlockMining
end Lcryp
