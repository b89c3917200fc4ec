import Lcryp.Mining.NonceSearch

/-!
# The height in the coinbase of mined blocks

`GenerateBlock` reads the tip before `CreateNewBlock` reads it again under its lock.
-/
namespace Lcryp.BlockMining
open Option
variable {env : MinerEnv} {worker : MinerWorker}
/-- The height rule of `ContextualCheckBlock`, at the height after the block's own predecessor. -/
def CarriesHeight (env : MinerEnv) (block : CBlock) : Prop :=
  ∃ prev, env.blockIndex block.header.hashPrevBlock = some prev ∧
    coinbaseHeightOk block (prev.entry.nHeight+1) = true

/-- What is hashed is built on a tip as high as `pindexPrev`. -/
def SnapshotsAgree (env : MinerEnv) (thread : MinerThread) (input : NodeView env × Nat) : Prop :=
  ∀ round, thread.point = .scanning round → input.1.miningBusy = true →
    ∀ prev, env.blockIndex round.block.header.hashPrevBlock = some prev →
      prev.entry.nHeight = round.pindexPrev.entry.nHeight

theorem firstInput_withFirstInput (header header' : CBlockHeader) (change : CTxIn → CTxIn)
    (vtx : List CTransaction) :
    firstInput ⟨header, withFirstInput change vtx⟩ = (firstInput ⟨header', vtx⟩).map change := by
  cases vtx with
  | nil => rfl
  | cons tx rest => cases hvin : tx.vin <;> simp [firstInput,withFirstInput]

theorem generateCoinbaseCommitment_firstInput (env : MinerEnv) (pindexPrev : IndexPtr) (block : CBlock) :
    (firstInput (generateCoinbaseCommitment env pindexPrev block)).isSome = (firstInput block).isSome := by
  obtain ⟨header,vtx⟩ := block
  have hout : ∀ vout : CTransaction → List CTxOut,
      firstInput ⟨header,vtx.modifyHead fun tx => { tx with vout := vout tx }⟩ = firstInput ⟨header,vtx⟩ := by
    intro vout
    cases vtx <;> rfl
  simp only [generateCoinbaseCommitment]
  split_ifs <;> simp [firstInput_withFirstInput header header,hout]

variable {pindexPrev : IndexPtr}
theorem updateTime_hashPrevBlock {params : ConsensusParams} {adjustedTime moved : Int}
    {block header : CBlockHeader} (h : updateTime params adjustedTime pindexPrev block = some (header, moved)) :
    header.hashPrevBlock = block.hashPrevBlock := by
  have ht : ∀ nTime, ∀ later, [Decidable later] →
      (if later then { block with nTime := nTime } else block).hashPrevBlock = block.hashPrevBlock := by
    intro nTime later _
    split <;> rfl
  unfold updateTime at h
  split at h
  · obtain ⟨nBits,-,hh⟩ := map_eq_some_iff.mp h
    obtain ⟨rfl,-⟩ := Prod.mk.inj hh
    exact ht _ _
  · obtain ⟨rfl,-⟩ := Prod.mk.inj (some.inj h)
    exact ht _ _

variable {block : CBlock}
theorem createNewBlock_eq_some {node : NodeView env} (h : createNewBlock env node = some block) :
    block.header.hashPrevBlock = node.tip.entry.phashBlock ∧ (firstInput block).isSome = true := by
  simp only [createNewBlock,bind_eq_bind,bind_eq_some_iff,pure_def,some.injEq] at h
  obtain ⟨⟨timed,moved⟩,ht,nBits,-,rfl⟩ := h
  exact ⟨updateTime_hashPrevBlock ht,generateCoinbaseCommitment_firstInput env node.tip _⟩

theorem incrementExtraNonce_script (env : MinerEnv) (seen : Uint256) (pindexPrev : IndexPtr) (nExtraNonce : BitVec 32)
    (h : (firstInput block).isSome = true) :
    ∃ txin, firstInput (incrementExtraNonce env seen block pindexPrev nExtraNonce).2.2 = some txin ∧
      pushInt64 (pindexPrev.entry.nHeight + 1 : Nat) <+: txin.scriptSig := by
  obtain ⟨txin,ht⟩ := isSome_iff_exists.mp h
  rw [incrementExtraNonce,firstInput_withFirstInput _ block.header,ht]
  exact ⟨_,rfl,List.prefix_append _ _⟩

/-- The coinbase names the height after `pindexPrev`, and the predecessor is known. -/
structure Headed (env : MinerEnv) (pindexPrev : IndexPtr) (block : CBlock) : Prop where
  pindexPrev_lt : pindexPrev.entry.nHeight + 1 < 2^31
  script : ∃ txin, firstInput block = some txin ∧
    pushInt64 (pindexPrev.entry.nHeight + 1 : Nat) <+: txin.scriptSig
  prev : ∃ prev, env.blockIndex block.header.hashPrevBlock = some prev ∧ prev.entry.nHeight + 1 < 2^31

theorem Headed.carriesHeight_iff (h : Headed env pindexPrev block) :
    CarriesHeight env block ↔ ∀ prev, env.blockIndex block.header.hashPrevBlock = some prev →
      prev.entry.nHeight = pindexPrev.entry.nHeight := by
  obtain ⟨txin,ht,hscr⟩ := h.script
  obtain ⟨prev,hp,hlt⟩ := h.prev
  have hht : coinbaseHeightOk block (prev.entry.nHeight+1) = true ↔
      pushInt64 (prev.entry.nHeight + 1 : Nat) <+: txin.scriptSig := by
    simp [coinbaseHeightOk,ht]
  simp only [CarriesHeight,hp,some.injEq,exists_eq_left',forall_eq']
  rw [hht]
  constructor
  · intro hpre
    have := pushInt64_prefix_free _ _ _ (Nat.succ_pos _) (Nat.succ_pos _) hlt h.pindexPrev_lt hpre hscr
    omega
  · intro hs
    rw [hs]
    exact hscr

def TipsRead (env : MinerEnv) (thread : MinerThread) : Prop :=
  match thread.point with
  | .assembling _ pindexPrev => pindexPrev.entry.nHeight + 1 < 2^31
  | .scanning round | .checking round => Headed env round.pindexPrev round.block
  | _ => True

theorem tipsRead_assemble (node : NodeView env) (rand : Nat) (thread : MinerThread) (updated : Nat)
    (h : pindexPrev.entry.nHeight + 1 < 2^31) :
    TipsRead env (assemble worker node rand thread updated pindexPrev) := by
  unfold assemble
  cases ht : createNewBlock env node with
  | none => trivial
  | some template =>
    obtain ⟨hp,hi⟩ := createNewBlock_eq_some ht
    exact ⟨h,incrementExtraNonce_script env thread.hashPrevBlock pindexPrev thread.nExtraNonce hi,
      node.tip,(congrArg env.blockIndex hp).trans node.tip_indexed,node.height_lt⟩

variable {thread thread' : MinerThread} (input : NodeView env × Nat)
theorem tipsRead_step (h : TipsRead env thread)
    (hs : generateBlock env worker thread input = some thread') : TipsRead env thread' := by
  obtain ⟨nExtraNonce,hashPrevBlock,hashed,point⟩ := thread
  cases point with
  | outer =>
    cases hs
    simp only [startRound]
    split_ifs <;> first | trivial | exact input.1.height_lt
  | assembling updated pindexPrev =>
    cases hs
    exact tipsRead_assemble input.1 input.2 _ updated h
  | scanning round =>
    cases hs
    cases hb : input.1.miningBusy with
    | false =>
      rw [scan_idle hb]
      trivial
    | true =>
      rw [scan_busy hb]
      simp only [afterScan] at h ⊢
      split_ifs <;> trivial
  | checking round =>
    cases hs
    rcases check_cases worker input.1 round with ⟨exit,hc⟩ | ⟨hc,-⟩ | ⟨-,nTime,hc⟩
    · simp [TipsRead,hc]
    · simp [TipsRead,hc]
    · simp only [hc]
      exact ⟨h.pindexPrev_lt,h.script,h.prev⟩
  | exhausted =>
    cases hs
    trivial
  | returned exit => cases hs

def HeightsRight (env : MinerEnv) (thread : MinerThread) : Prop :=
  ∀ block ∈ thread.hashed, CarriesHeight env block

theorem heightsRight_step (hre : TipsRead env thread) (h : HeightsRight env thread)
    (hs : generateBlock env worker thread input = some thread') :
    HeightsRight env thread' ↔ SnapshotsAgree env thread input := by
  have hq : thread'.hashed = thread.hashed →
      (∀ round, thread.point = .scanning round → input.1.miningBusy = false) →
      (HeightsRight env thread' ↔ SnapshotsAgree env thread input) := by
    intro hsa hidle
    refine iff_of_true (fun block hb => h block (hsa ▸ hb)) ?_
    intro round hr hbu
    rw [hidle round hr] at hbu
    exact absurd hbu Bool.false_ne_true
  cases hp : thread.point with
  | scanning round =>
    simp only [generateBlock,hp,some.injEq] at hs
    cases hbu : input.1.miningBusy with
    | false =>
      rw [scan_idle hbu] at hs
      exact hq (hs ▸ rfl) fun _ _ => hbu
    | true =>
      rw [scan_busy hbu] at hs
      have hall : HeightsRight env thread' ↔ CarriesHeight env round.block := by
        rw [← hs,HeightsRight]
        simp only [List.forall_mem_append,List.forall_mem_map]
        -- A nonce changes neither the coinbase nor the predecessor.
        exact ⟨fun hri => hri.2 (round.nNonce + 1#32) (next_mem_scanOf env round),fun hb => ⟨h,fun _ _ => hb⟩⟩
      have hh : Headed env round.pindexPrev round.block := by rwa [TipsRead,hp] at hre
      rw [hall,hh.carriesHeight_iff]
      simp [SnapshotsAgree,hp,hbu]
  | outer | exhausted | checking _ =>
    simp only [generateBlock,hp,some.injEq] at hs
    exact hq (hs ▸ rfl) fun round hr => by simp [hp] at hr
  | assembling updated pindexPrev =>
    simp only [generateBlock,hp,some.injEq] at hs
    refine hq ?_ fun round hr => by simp [hp] at hr
    rw [← hs,assemble]
    split <;> rfl
  | returned exit => simp [generateBlock,hp] at hs

/-- The hashed blocks carry their own heights exactly if the tip read first is always as high as the one
`CreateNewBlock` builds on. -/
theorem hashed_heights_iff (env : MinerEnv) (worker : MinerWorker) (inputs : List (NodeView env × Nat)) :
    Run.EveryState (generateBlock env worker) (HeightsRight env) started inputs ↔
      Run.EveryStep (generateBlock env worker) (SnapshotsAgree env) started inputs :=
  Run.everyState_iff_everyStep (fun _ input _ h hstep => tipsRead_step input h hstep)
    (fun _ input _ hread h hstep => heightsRight_step input hread h hstep) inputs started trivial
    (fun _ hblock => nomatch hblock)

def firstBlock : IndexPtr where
  entry := { mainGenesis with phashBlock := 1#256, nHeight := 1, nTime := 1667197079#32, nTimeMax := 1667197079#32 }
  pprev := [mainGenesis]

def raceEnv : MinerEnv :=
  { constantEnv with
    toValidationEnv := sampleEnv
    blockIndex := fun hash =>
      if hash = mainGenesisHash then some ⟨mainGenesis, []⟩
      else if hash = 1#256 then some firstBlock
      else none }

def beforeView : NodeView raceEnv := freshView ⟨mainGenesis, []⟩ 0 rfl genesis_height_lt
def afterView : NodeView raceEnv := freshView firstBlock 0 rfl (by decide)

/-- What is hashed first if the tip changes from `beforeView` to `afterView`. -/
def staleBlock (template : CBlock) : CBlock :=
  withNonce (incrementExtraNonce raceEnv 0#256 template ⟨mainGenesis, []⟩ 0#32).2.2 1#32

private theorem staleBlock_rejected : ∃ template, createNewBlock raceEnv afterView = some template ∧
    contextualCheckBlock raceEnv.toValidationEnv (staleBlock template) firstBlock.chain =
      .error (blockConsensus "bad-cb-height" "block height mismatch in coinbase") := by
  have hc : (createNewBlock raceEnv afterView).map (fun template =>
      contextualCheckBlock raceEnv.toValidationEnv (staleBlock template) firstBlock.chain) =
        some (.error (blockConsensus "bad-cb-height" "block height mismatch in coinbase")) := by
    decide +kernel
  exact map_eq_some_iff.mp hc

/-- A block arrives after `Tip()` and before `CreateNewBlock`; a block that must be rejected is hashed. -/
theorem newTip_wrongHeight :
    ∃ thread, Run.run (generateBlock raceEnv ⟨0#32, 4294967295#32, 0⟩) started
        [(beforeView, 0), (afterView, 0), (afterView, 0)] = some thread ∧
      ∃ block ∈ thread.hashed, block.header.hashPrevBlock = firstBlock.entry.phashBlock ∧
        ¬ CarriesHeight raceEnv block ∧
        contextualCheckBlock raceEnv.toValidationEnv block firstBlock.chain =
          .error (blockConsensus "bad-cb-height" "block height mismatch in coinbase") := by
  obtain ⟨template,htemplate,hrejected⟩ := staleBlock_rejected
  obtain ⟨hprev,hinput⟩ := createNewBlock_eq_some htemplate
  let incremented := incrementExtraNonce raceEnv 0#256 template ⟨mainGenesis,[]⟩ 0#32
  let round : MinerRound :=
    ⟨0,⟨mainGenesis,[]⟩,incremented.2.2,(setCompact incremented.2.2.header.nBits).target,0#32,0#32⟩
  have hread : generateBlock raceEnv ⟨0#32,4294967295#32,0⟩ started (beforeView, 0) =
      some { started with point := .assembling 0 ⟨mainGenesis,[]⟩ } := rfl
  have hassemble : generateBlock raceEnv ⟨0#32,4294967295#32,0⟩
      { started with point := .assembling 0 ⟨mainGenesis,[]⟩ } (afterView, 0) =
        some ⟨incremented.2.1,incremented.1,[],.scanning round⟩ := by
    simp only [generateBlock,assemble,htemplate]
    rfl
  have hheaded : Headed raceEnv ⟨mainGenesis,[]⟩ (staleBlock template) :=
    ⟨genesis_height_lt,incrementExtraNonce_script raceEnv 0#256 ⟨mainGenesis,[]⟩ 0#32 hinput,firstBlock,
      (congrArg raceEnv.blockIndex hprev).trans rfl,by decide⟩
  refine ⟨scan afterView ⟨incremented.2.1,incremented.1,[],.scanning round⟩ round,?_,
    staleBlock template,?_,hprev,?_,hrejected⟩
  · rw [Run.run,hread,bind_some,Run.run,hassemble]
    rfl
  · exact List.mem_map_of_mem (next_mem_scanOf raceEnv round)
  · rw [hheaded.carriesHeight_iff]
    intro hsame
    have hzero : firstBlock.entry.nHeight = mainGenesis.nHeight :=
      hsame firstBlock ((congrArg raceEnv.blockIndex hprev).trans rfl)
    exact absurd hzero (by decide)
end Lcryp.BlockMining
