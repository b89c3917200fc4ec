import Lcryp.Framework.Arc
import Lcryp.Mining.Worker
import Lcryp.Validation.Chainstate

/-!
# What the miner hashes

A call of `ScanHash` tries an arc of nonces that ends at a multiple of 4096 at the latest.
-/
namespace Lcryp
open BitVec
theorem topWordZero_iff (hash : Uint256) : topWordZero hash = true ↔ hash.toNat < 2^240 := by
  rw [topWordZero,beq_iff_eq,← toNat_inj,extractLsb'_toNat]
  simp only [toNat_ofNat]
  omega

variable (getHash : CBlockHeader → Uint256)

/-- A call of `ScanHash` that tried some nonces. -/
structure NonceScan.Tried (block : CBlockHeader)
    (nNonce countNonce : BitVec 32) (length : Nat) (scanned : NonceScan) : Prop where
  pos : 0 < length
  le : length ≤ 4096 - nNonce.toNat % 4096
  hashed : scanned.hashed = Arc.words nNonce length
  nNonce : scanned.nNonce = nNonce + BitVec.ofNat 32 length
  countNonce : scanned.countNonce = countNonce + BitVec.ofNat 32 length
  hash : scanned.hash = getHash { block with nNonce := scanned.nNonce }
  found : scanned.found = topWordZero scanned.hash
  stop : scanned.found = true ∨ scanned.nNonce.toNat % 4096 = 0
  last : ∀ nonce ∈ scanned.hashed, topWordZero (getHash { block with nNonce := nonce }) = true →
    nonce = scanned.nNonce

private theorem add_one_add (x : BitVec 32) (n : Nat) :
    x + 1#32 + BitVec.ofNat 32 n = x + BitVec.ofNat 32 (n+1) := by
  rw [ofNat_add,add_assoc,add_comm 1#32]

theorem scanHash_tried (block : CBlockHeader) (nNonce countNonce : BitVec 32) :
    ∃ length, (scanHash getHash block nNonce countNonce).Tried getHash block nNonce countNonce length := by
  fun_induction scanHash getHash block nNonce countNonce with
  | case1 nNonce countNonce nonce count hash hf =>
    exact ⟨1,Nat.one_pos,by omega,rfl,rfl,rfl,rfl,hf.symm,.inl rfl,by simp⟩
  | case2 nNonce countNonce nonce count hash hf hlow =>
    have hs : nonce.toNat % 4096 = 0 := by rw [← low_bits,hlow]; rfl
    exact ⟨1,Nat.one_pos,by omega,rfl,rfl,rfl,rfl,by simpa using hf,.inr hs,by simp⟩
  | case3 nNonce countNonce nonce count hash hf hlow rest ih =>
    obtain ⟨length,ht⟩ := ih
    have hn : nonce.toNat % 4096 ≠ 0 := by
      rw [← low_bits]
      exact fun h => hlow (eq_of_toNat_eq h)
    have hno : nonce.toNat = nNonce.toNat + 1 := by
      simp only [nonce,toNat_add,toNat_ofNat] at hn ⊢
      omega
    refine ⟨length+1,Nat.succ_pos _,?_,?_,?_,?_,ht.hash,ht.found,ht.stop,?_⟩
    · have hle := ht.le
      omega
    · exact congrArg (nonce::·) ht.hashed
    · exact ht.nNonce.trans (add_one_add nNonce length)
    · exact ht.countNonce.trans (add_one_add countNonce length)
    · rw [List.forall_mem_cons]
      exact ⟨fun htop => absurd htop hf,ht.last⟩

namespace BlockMining
variable {env : MinerEnv} {worker : MinerWorker}
def MeetsTarget (env : MinerEnv) (block : CBlock) : Prop :=
  env.getHash block.header ≤ (setCompact block.header.nBits).target

/-- The call of `ScanHash` in a round. -/
def scanOf (env : MinerEnv) (round : MinerRound) : NonceScan :=
  scanHash env.getHash round.block.header round.nNonce round.countNonce
theorem next_mem_scanOf (env : MinerEnv) (round : MinerRound) :
    round.nNonce + 1#32 ∈ (scanOf env round).hashed := by
  obtain ⟨length,ht⟩ := scanHash_tried env.getHash round.block.header round.nNonce round.countNonce
  rw [scanOf,ht.hashed,← Nat.succ_pred_eq_of_pos ht.pos]
  exact List.mem_cons_self

variable {node : NodeView env}
theorem scan_busy (hb : node.miningBusy = true) (thread : MinerThread) (round : MinerRound) :
    scan node thread round =
      { thread with
        hashed := thread.hashed++(scanOf env round).hashed.map (withNonce round.block)
        point := afterScan node round (scanOf env round) } := by
  simp [scan,hb,scanOf]

theorem scan_idle (hi : node.miningBusy = false) (thread : MinerThread)
    (round : MinerRound) : scan node thread round = { thread with point := .outer } := by
  simp [scan,hi]

/-- `hashTarget` belongs to the block that is hashed. -/
def Aimed (thread : MinerThread) : Prop :=
  match thread.point with
  | .scanning round | .checking round => round.hashTarget = (setCompact round.block.header.nBits).target
  | _ => True

/-- If a nonce that is tried meets the target, `ScanHash` returns true there and the block is submitted. -/
def SubmitsWinners (env : MinerEnv) (worker : MinerWorker) (thread : MinerThread)
    (input : NodeView env × Nat) : Prop :=
  ∀ round, thread.point = .scanning round → input.1.miningBusy = true →
    ∀ nonce ∈ (scanOf env round).hashed, MeetsTarget env (withNonce round.block nonce) →
      (scanOf env round).found = true ∧ (scanOf env round).nNonce = nonce ∧
        (generateBlock env worker thread input).map MinerThread.point =
          some (.returned (.blockFound (withNonce round.block nonce)
            (processBlockFound input.1 (withNonce round.block nonce))))

/-- The nonces that meet the target pass the filter of `ScanHash`. -/
def WinnersPassFilter (env : MinerEnv) (thread : MinerThread) (input : NodeView env × Nat) : Prop :=
  ∀ round, thread.point = .scanning round → input.1.miningBusy = true →
    ∀ nonce ∈ (scanOf env round).hashed, MeetsTarget env (withNonce round.block nonce) →
      (env.getHash (withNonce round.block nonce).header).toNat < 2^240

theorem aimed_generateBlock {thread thread' : MinerThread} (input : NodeView env × Nat) (h : Aimed thread)
    (hs : generateBlock env worker thread input = some thread') : Aimed thread' := by
  obtain ⟨nExtraNonce,hashPrevBlock,hashed,point⟩ := thread
  cases point with
  | outer =>
    cases hs
    simp only [startRound]
    split_ifs <;> trivial
  | assembling updated pindexPrev =>
    cases hs
    simp only [assemble]
    cases createNewBlock env input.1 <;> trivial
  | scanning round =>
    cases hs
    cases hb : input.1.miningBusy with
    | false =>
      rw [scan_idle hb]
      trivial
    | true =>
      rw [scan_busy hb]
      simp only [afterScan] at h ⊢
      split_ifs <;> trivial
  | checking round =>
    cases hs
    rcases check_cases worker input.1 round with ⟨exit,hc⟩ | ⟨hc,-⟩ | ⟨-,nTime,hc⟩
    · simp [Aimed,hc]
    · simp [Aimed,hc]
    · simp only [hc]
      exact h
  | exhausted =>
    cases hs
    trivial
  | returned exit => cases hs

theorem submitsWinners_iff {thread : MinerThread} (h : Aimed thread) (input : NodeView env × Nat) :
    SubmitsWinners env worker thread input ↔ WinnersPassFilter env thread input := by
  refine forall_congr' fun round => forall_congr' fun hp => forall_congr' fun hb =>
    forall_congr' fun nonce => forall_congr' fun hn => forall_congr' fun hm => ?_
  obtain ⟨length,ht⟩ := scanHash_tried env.getHash round.block.header round.nNonce round.countNonce
  rw [← topWordZero_iff]
  constructor
  · rintro ⟨hf,hl,-⟩
    have htop := ht.found ▸ hf
    rw [ht.hash] at htop
    exact hl ▸ htop
  · intro htop
    have hl : nonce = (scanOf env round).nNonce := ht.last nonce hn htop
    have hh : (scanOf env round).hash = env.getHash (withNonce round.block nonce).header := hl ▸ ht.hash
    have hf : (scanOf env round).found = true := ht.found.trans (hh ▸ htop)
    have htgt : (scanOf env round).hash ≤ round.hashTarget := by
      rw [Aimed,hp] at h
      rw [h,hh]
      exact hm
    simp [generateBlock,hp,scan_busy hb,afterScan,hf,htgt,hl]

/-- A thread submits every nonce that meets the target exactly if all of them pass the filter of `ScanHash`. -/
theorem winners_submitted_iff (env : MinerEnv) (worker : MinerWorker) (thread : MinerThread)
    (haimed : Aimed thread) (inputs : List (NodeView env × Nat)) :
    Run.EveryStep (generateBlock env worker) (SubmitsWinners env worker) thread inputs ↔
      Run.EveryStep (generateBlock env worker) (WinnersPassFilter env) thread inputs :=
  Run.everyStep_iff_of_invariant (J := fun _ thread => Aimed thread)
    (fun _ input _ _ h hstep => aimed_generateBlock input h hstep)
    (fun _ input _ h => submitsWinners_iff h input) inputs thread haimed

def hashEnv (hash : Uint256) : MinerEnv where
  toValidationEnv := { sampleEnv with getHash := fun _ => hash }
  isTestChain := true
  blockVersion _ := 4
  coinbaseScript := [0x51]
  blockIndex hash := if hash = mainGenesisHash then some ⟨mainGenesis, []⟩ else none

/-- The hash is under the easiest target and fails the filter of `ScanHash`. -/
abbrev constantEnv : MinerEnv := hashEnv (1#256 <<< 240)

theorem constantEnv_missed (header : CBlockHeader) : topWordZero (constantEnv.getHash header) = false := by
  change topWordZero (1#256 <<< 240) = false
  decide

theorem genesis_height_lt : mainGenesis.nHeight + 1 < 2^31 := by decide

def freshView {env : MinerEnv} (tip : IndexPtr) (adjustedTime : Int)
    (hindexed : env.blockIndex tip.entry.phashBlock = some tip) (hheight : tip.entry.nHeight + 1 < 2^31) :
    NodeView env where
  miningBusy := true
  threadStopped := false
  shutdownRequested := false
  transactionsUpdated := 0
  time := 0
  adjustedTime := adjustedTime
  nodeCount := 0
  initialBlockDownload := false
  tip := tip
  packages := []
  fees := 0
  processNewBlock _ := true
  tip_indexed := hindexed
  height_lt := hheight

def hashView (hash : Uint256) (adjustedTime : Int) : NodeView (hashEnv hash) :=
  freshView ⟨mainGenesis, []⟩ adjustedTime rfl genesis_height_lt

abbrev genesisView : Int → NodeView constantEnv := hashView _

variable (nNonce : BitVec 32)
def easyRound : MinerRound where
  nTransactionsUpdatedLast := 0
  pindexPrev := ⟨mainGenesis, []⟩
  block := sampleBlock 0#32 [sampleCoinbase 2 [0x51, 0x51] 0]
  hashTarget := (setCompact 0x207fffff#32).target
  nNonce := nNonce
  countNonce := 0#32

def easyThread : MinerThread := ⟨1#32, 0#256, [], .scanning (easyRound nNonce)⟩

/-- Nonce 4095 meets the target with a hash that passes the filter, and the thread submits it. -/
theorem easyThread_submits :
    4095#32 ∈ (scanOf (hashEnv 1#256) (easyRound 4094#32)).hashed ∧
      MeetsTarget (hashEnv 1#256) (withNonce (easyRound 4094#32).block 4095#32) ∧
      Run.EveryStep (generateBlock (hashEnv 1#256) ⟨0#32, 4294967295#32, 0⟩)
        (SubmitsWinners (hashEnv 1#256) ⟨0#32, 4294967295#32, 0⟩) (easyThread 4094#32) [(hashView _ 0, 0)] := by
  refine ⟨next_mem_scanOf (hashEnv 1#256) (easyRound 4094#32),?_,
    (winners_submitted_iff (hashEnv 1#256) _ (easyThread 4094#32) rfl _).mpr ?_⟩
  · unfold MeetsTarget
    decide
  · intro thread _
    refine ⟨fun round _ _ nonce _ _ => ?_,trivial⟩
    change (1#256).toNat < 2^240
    norm_num

/-- The target is allowed, the hash of nonce 4095 meets it, and `ScanHash` goes on. -/
theorem winner_discarded :
    let target := (setCompact 0x207fffff#32).target
    let scanned := scanOf constantEnv (easyRound 4094#32)
    0#256 < target ∧ target ≤ mainParams.powLimit ∧ 4095#32 ∈ scanned.hashed ∧
      MeetsTarget constantEnv (withNonce (easyRound 4094#32).block 4095#32) ∧
      scanned.found = false ∧
      ¬ SubmitsWinners constantEnv ⟨0#32,4294967295#32,0⟩ (easyThread 4094#32) (genesisView 0, 0) := by
  intro target scanned
  obtain ⟨length,htried⟩ := scanHash_tried constantEnv.getHash (easyRound 4094#32).block.header 4094#32 0#32
  have hmem : 4095#32 ∈ scanned.hashed := next_mem_scanOf constantEnv (easyRound 4094#32)
  have hmeets : MeetsTarget constantEnv (withNonce (easyRound 4094#32).block 4095#32) := by
    unfold MeetsTarget
    decide
  have hmissed : scanned.found = false :=
    htried.found.trans ((congrArg topWordZero htried.hash).trans (constantEnv_missed _))
  refine ⟨by decide,by decide,hmem,hmeets,hmissed,fun hsubmits => ?_⟩
  have hfound := (hsubmits (easyRound 4094#32) rfl rfl 4095#32 hmem hmeets).1
  rw [hmissed] at hfound
  exact Bool.false_ne_true hfound
end BlockMining
end Lcryp
