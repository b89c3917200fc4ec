import Mathlib.Data.Finmap
import Lcryp.Framework.Run
import Lcryp.Primitives.ValidationState
import Lcryp.Pow.Midas

/-!
# Accepting block headers

`ChainstateManager::AcceptBlockHeader` with the checks it calls and `BlockManager::AddToBlockIndex`.
-/
namespace Lcryp
def blockValidTree : BitVec 32 := 2#32
def blockValidScripts : BitVec 32 := 5#32
def blockValidMask : BitVec 32 := 7#32
def blockFailedValid : BitVec 32 := 32#32
def blockFailedChild : BitVec 32 := 64#32
def blockFailedMask : BitVec 32 := blockFailedValid ||| blockFailedChild
def blockAssumedValid : BitVec 32 := 256#32
def maxFutureBlockTime : Int := 2 * 60 * 60
structure BlockNode where
  index : CBlockIndex
  pprev : IndexChain
  nStatus : BitVec 32
deriving DecidableEq

namespace BlockNode
variable (node : BlockNode)
def chain : IndexChain := node.index::node.pprev
def failed : Bool := node.nStatus &&& blockFailedMask != 0#32

variable (nUpTo : BitVec 32)
def isValid : Bool := if node.failed then false else decide (node.nStatus &&& blockValidMask ≥ nUpTo)

def raiseValidity : BlockNode :=
  if node.failed then node
  else if node.nStatus &&& blockValidMask < nUpTo then
    let nStatus :=
      if node.nStatus &&& blockAssumedValid ≠ 0#32 ∧ nUpTo ≥ blockValidScripts then
        node.nStatus &&& ~~~blockAssumedValid
      else node.nStatus
    { node with nStatus := (nStatus &&& ~~~blockValidMask) ||| nUpTo }
  else node
end BlockNode

abbrev BlockMap := Finmap fun _ : Uint256 => BlockNode

/-- The parts of `BlockManager` and `ChainstateManager` that header acceptance reads and writes. -/
structure BlockManager where
  blockIndex : BlockMap
  bestHeader : Option Uint256
  /-- `m_failed_blocks` in iteration order. -/
  failedBlocks : List Uint256

structure HeaderEnv where
  params : ConsensusParams
  getHash : CBlockHeader → Uint256
  fCheckpointsEnabled : Bool

variable (params : ConsensusParams)
def deploymentActiveAfter (pindexPrev : IndexChain) (dep : BuriedDeployment) : Bool :=
  match pindexPrev with
  | [] => decide (0 ≥ params.deploymentHeight dep)
  | prev::_ => decide (prev.nHeight + 1 ≥ params.deploymentHeight dep)

def getLastCheckpoint (blockIndex : BlockMap) : Option BlockNode :=
  params.mapCheckpoints.reverse.findSome? fun checkpoint => blockIndex.lookup checkpoint.2
def hexVersion (nVersion : Int) : String :=
  let digits := Nat.toDigits 16 (BitVec.ofInt 32 nVersion).toNat
  "0x" ++ String.ofList (List.replicate (8-digits.length) '0'++digits)

variable (env : HeaderEnv)
def checkBlockHeader (block : CBlockHeader) : Except BlockInvalid Unit :=
  if checkProofOfWork env.params (env.getHash block) block.nBits then .ok ()
  else .error ⟨.invalidHeader, "high-hash", "proof of work failed"⟩

def contextualCheckBlockHeader (blockIndex : BlockMap) (pindexPrev : BlockNode)
    (now : Int) (block : CBlockHeader) : Except BlockInvalid Unit :=
  let nHeight := pindexPrev.index.nHeight + 1
  let active := deploymentActiveAfter env.params pindexPrev.chain
  if env.fCheckpointsEnabled &&
      (getLastCheckpoint env.params blockIndex).any fun pcheckpoint =>
        decide (nHeight < pcheckpoint.index.nHeight) then
    .error ⟨.checkpoint, "bad-fork-prior-to-checkpoint", ""⟩
  else if block.getBlockTime ≤ IndexChain.getMedianTimePast pindexPrev.chain then
    .error ⟨.invalidHeader, "time-too-old", "block's timestamp is too early"⟩
  else if block.getBlockTime > now + maxFutureBlockTime then
    .error ⟨.timeFuture, "time-too-new", "block timestamp too far in the future"⟩
  else if (decide (block.nVersion < 2) && active .heightInCb) ||
      (decide (block.nVersion < 3) && active .dersig) ||
      (decide (block.nVersion < 4) && active .cltv) then
    .error ⟨.invalidHeader, "bad-version(" ++ hexVersion block.nVersion ++ ")",
      "rejected nVersion=" ++ hexVersion block.nVersion ++ " block"⟩
  else .ok ()

variable (st : BlockManager) (pindexPrev : BlockNode)
def failedAncestor : Option (Uint256 × BlockNode) :=
  st.failedBlocks.findSome? fun hash =>
    match st.blockIndex.lookup hash with
    | none => none
    | some failedit =>
      if (IndexChain.getAncestor pindexPrev.chain failedit.index.nHeight).head?.map
          CBlockIndex.phashBlock = some hash then some (hash, failedit)
      else none

/-- The failed ancestor that makes `pindexPrev` unusable, looked for unless its scripts are valid. -/
def invalidatingAncestor : Option (Uint256 × BlockNode) :=
  if pindexPrev.isValid blockValidScripts then none else failedAncestor st pindexPrev

/-- The walk that marks every block from `pindexPrev` down to the failed ancestor. -/
def markFailedChild (blockIndex : BlockMap) : List Uint256 → BlockMap
  | [] => blockIndex
  | hash::rest =>
    match blockIndex.lookup hash with
    | none => markFailedChild blockIndex rest
    | some node =>
      markFailedChild
        (blockIndex.insert hash { node with nStatus := node.nStatus ||| blockFailedChild }) rest

def newBlockIndex (hash : Uint256) (pprev : IndexChain) (block : CBlockHeader) : CBlockIndex where
  phashBlock := hash
  nHeight := match pprev with
    | [] => 0
    | prev::_ => prev.nHeight + 1
  nChainWork := (match pprev with
    | [] => 0#256
    | prev::_ => prev.nChainWork) + getBlockProof block.nBits
  nVersion := block.nVersion
  hashMerkleRoot := block.hashMerkleRoot
  nTime := block.nTime
  nBits := block.nBits
  nNonce := block.nNonce
  nTimeMax := match pprev with
    | [] => block.nTime
    | prev::_ => if prev.nTimeMax < block.nTime then block.nTime else prev.nTimeMax

def addToBlockIndex (block : CBlockHeader) : Uint256 × BlockManager :=
  let hash := env.getHash block
  match st.blockIndex.lookup hash with
  | some _ => (hash, st)
  | none =>
    let pprev := match st.blockIndex.lookup block.hashPrevBlock with
      | some prev => prev.chain
      | none => []
    let index := newBlockIndex hash pprev block
    let node := BlockNode.raiseValidity ⟨index, pprev, 0#32⟩ blockValidTree
    let better := match st.bestHeader.bind st.blockIndex.lookup with
      | none => true
      | some best => decide (best.index.nChainWork < index.nChainWork)
    (hash, { st with
      blockIndex := st.blockIndex.insert hash node
      bestHeader := if better then some hash else st.bestHeader })

/-- The end of `AcceptBlockHeader`, common to the genesis block and all others. -/
def storeHeader (block : CBlockHeader) (minPowChecked : Bool) : Except BlockInvalid Uint256 × BlockManager :=
  if minPowChecked then
    let added := addToBlockIndex env st block
    (.ok added.1, added.2)
  else (.error ⟨.headerLowWork, "too-little-chainwork", ""⟩, st)

/-- `ChainstateManager::AcceptBlockHeader`.  `none` is the failed assertion on a failed block. -/
def acceptBlockHeader (now : Int) (block : CBlockHeader)
    (minPowChecked : Bool) : Option (Except BlockInvalid Uint256 × BlockManager) :=
  let hash := env.getHash block
  if hash = env.params.hashGenesisBlock then some (storeHeader env st block minPowChecked)
  else
    match st.blockIndex.lookup hash with
    | some pindex =>
      if pindex.failed then some (.error ⟨.cachedInvalid, "duplicate", ""⟩, st)
      else some (.ok hash, st)
    | none =>
      match checkBlockHeader env block with
      | .error invalid => some (.error invalid, st)
      | .ok () =>
        match st.blockIndex.lookup block.hashPrevBlock with
        | none => some (.error ⟨.missingPrev, "prev-blk-not-found", ""⟩, st)
        | some pindexPrev =>
          if pindexPrev.failed then some (.error ⟨.invalidPrev, "bad-prevblk", ""⟩, st)
          else
            match contextualCheckBlockHeader env st.blockIndex pindexPrev now block with
            | .error invalid => some (.error invalid, st)
            | .ok () =>
              match invalidatingAncestor st pindexPrev with
              | none => some (storeHeader env st block minPowChecked)
              | some (failedHash, failedit) =>
                if failedit.nStatus &&& blockFailedValid = 0#32 then none
                else
                  let walk := (pindexPrev.chain.map CBlockIndex.phashBlock).takeWhile
                    (· ≠ failedHash)
                  some (.error ⟨.invalidPrev, "bad-prevblk", ""⟩,
                    { st with blockIndex := markFailedChild st.blockIndex walk })
end Lcryp
