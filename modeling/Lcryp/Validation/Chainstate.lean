import Lcryp.Validation.Connected

/-!
# Chains of connected blocks

The active chain grows one block at a time, from the empty UTXO set.
-/
namespace Lcryp
/-- A block of the active chain, its index entry, and the undo data `ConnectBlock` wrote for it. -/
structure ConnectedBlock where
  block : CBlock
  entry : CBlockIndex
  undo : Option CBlockUndo

structure Chainstate where
  /-- The active chain, the tip first. -/
  blocks : List ConnectedBlock
  view : UtxoView

structure TipInput where
  block : CBlock
  fScriptChecks : Bool

namespace Chainstate
def empty : Chainstate := ⟨[], UtxoView.empty⟩

variable (st : Chainstate)
def chain : IndexChain := st.blocks.map ConnectedBlock.entry
def height : Nat := st.blocks.length - 1

variable (env : ValidationEnv)
def nextEntry (st : Chainstate) (block : CBlock) : CBlockIndex :=
  newBlockIndex (env.getHash block.header) st.chain block.header

def connectTip (handler : CoinsHandler UtxoView) (st : Chainstate) (input : TipInput) : Option Chainstate :=
  let entry := st.nextEntry env input.block
  if entry.nHeight < 2^31 then
    match (connectBlock env input.fScriptChecks false input.block entry st.chain).run handler
        st.view with
    | .error _ => none
    | .ok (undo, view) => some ⟨⟨input.block, entry, undo⟩::st.blocks, view⟩
  else none

def acceptTip (handler : CoinsHandler UtxoView) (st : Chainstate) (input : TipInput) : Option Chainstate :=
  match contextualCheckBlock env input.block st.chain with
  | .error _ => none
  | .ok () => st.connectTip env handler input

def Numbered : Prop :=
  match st.chain with
  | [] => True
  | tip::_ => tip.nHeight + 1 = st.blocks.length

section Step
variable {env : ValidationEnv} {st st' : Chainstate} {input : TipInput}
theorem nextEntry_nHeight (h : st.Numbered) (block : CBlock) :
    (st.nextEntry env block).nHeight = st.blocks.length := by
  unfold Numbered at h
  unfold nextEntry newBlockIndex
  cases hc : st.chain with
  | nil =>
    have hb : st.blocks = [] := List.map_eq_nil_iff.mp hc
    simp [hb]
  | cons tip rest =>
    rw [hc] at h
    exact h

variable {handler : CoinsHandler UtxoView}
theorem connectTip_eq_some :
    st.connectTip env handler input = some st' ↔
      (st.nextEntry env input.block).nHeight < 2^31 ∧ ∃ undo,
        (connectBlock env input.fScriptChecks false input.block (st.nextEntry env input.block)
          st.chain).run handler st.view = .ok (undo, st'.view) ∧
        st'.blocks = ⟨input.block, st.nextEntry env input.block, undo⟩::st.blocks := by
  unfold connectTip
  by_cases hht : (st.nextEntry env input.block).nHeight < 2^31
  · rw [if_pos hht,and_iff_right hht]
    cases (connectBlock env input.fScriptChecks false input.block (st.nextEntry env input.block)
        st.chain).run handler st.view with
    | error stop => simp
    | ok out =>
      obtain ⟨undo,view⟩ := out
      obtain ⟨blocks',view'⟩ := st'
      simp [eq_comm,and_comm]
  · rw [if_neg hht]
    exact ⟨nofun,fun h => absurd h.1 hht⟩

theorem connectTip_numbered (h : st.Numbered)
    (hs : st.connectTip env handler input = some st') : st'.Numbered := by
  obtain ⟨_,_,_,hb⟩ := connectTip_eq_some.mp hs
  unfold Numbered
  rw [chain,hb]
  exact congrArg (· + 1) (nextEntry_nHeight h input.block)

theorem acceptTip_eq_some :
    st.acceptTip env handler input = some st' ↔
      contextualCheckBlock env input.block st.chain = .ok () ∧ st.connectTip env handler input = some st' := by
  unfold acceptTip
  cases contextualCheckBlock env input.block st.chain <;> simp
end Step
end Chainstate

/-- An environment with easy hashes: a block hash is its nonce, a transaction id its version. -/
def sampleEnv : ValidationEnv where
  params := mainParams
  getHash header := if header.nNonce = 0#32 then mainGenesisHash else header.nNonce.setWidth 256
  fCheckpointsEnabled := true
  hashTx tx := BitVec.ofInt 256 tx.nVersion
  blockMerkleRoot _ := (0#256, false)
  blockWitnessMerkleRoot _ := 0#256
  witnessCommitment _ _ := []
  checkSignetBlockSolution _ := true
  sigOpCount _ := 0
  p2shSigOpCount _ _ := 0
  countWitnessSigOps _ _ _ _ := 0
  scriptFlagExceptions _ := none
  scriptError _ _ _ _ := none
  scriptCached _ _ := false
  parallelScriptChecks := true

def sampleCoinbase (nVersion : Int) (script : CScript) (nValue : Int) : CTransaction where
  vin := [⟨⟨0#256, nullIndex⟩, script, sequenceFinal, []⟩]
  vout := [⟨nValue, [0x51]⟩]
  nVersion := nVersion
  nLockTime := 0#32

def sampleBlock (nNonce : BitVec 32) (vtx : List CTransaction) : CBlock where
  header := ⟨4, 0#256, 0#256, 1667196479#32 + nNonce, 0x207fffff#32, nNonce⟩
  vtx := vtx

def twoBlocks : List TipInput :=
  [⟨sampleBlock 0#32 [sampleCoinbase 1 [0, 0] 0], true⟩,
    ⟨sampleBlock 1#32 [sampleCoinbase 2 [0x51, 0] (1000000*coin)], true⟩]
end Lcryp
