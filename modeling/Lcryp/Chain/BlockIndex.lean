import Mathlib.Data.List.Sort
import Lcryp.Primitives.Params

/-!
# Block headers and the block index

A `CBlockIndex` entry has the fields that are fixed once; the status word lives in the block map.
-/
namespace Lcryp
structure CBlockHeader where
  nVersion : Int
  hashPrevBlock : Uint256
  hashMerkleRoot : Uint256
  nTime : BitVec 32
  nBits : BitVec 32
  nNonce : BitVec 32
deriving DecidableEq

def CBlockHeader.getBlockTime (block : CBlockHeader) : Int := block.nTime.toNat
def CBlockHeader.null : CBlockHeader := ⟨0, 0#256, 0#256, 0#32, 0#32, 0#32⟩
def CBlockHeader.isNull (header : CBlockHeader) : Bool := header.nBits == 0#32

/-- The immutable part of a block index entry. -/
structure CBlockIndex where
  phashBlock : Uint256
  nHeight : Nat
  nChainWork : ArithUint256
  nVersion : Int
  hashMerkleRoot : Uint256
  nTime : BitVec 32
  nBits : BitVec 32
  nNonce : BitVec 32
  nTimeMax : BitVec 32
deriving DecidableEq

def CBlockIndex.getBlockTime (pindex : CBlockIndex) : Int := pindex.nTime.toNat

/-- An entry and, below it, everything reached through `pprev`. -/
abbrev IndexChain := List CBlockIndex

namespace IndexChain
def nMedianTimeSpan : Nat := 11

variable (pindex : IndexChain)
def getMedianTimePast : Int :=
  let pmedian := ((pindex.take nMedianTimeSpan).map CBlockIndex.getBlockTime).insertionSort (· ≤ ·)
  pmedian.getD (pmedian.length/2) 0

/-- `CBlockIndex::GetAncestor` as the walk along `pprev`; its skip pointers only shorten the walk. -/
def getAncestor (height : Nat) : IndexChain :=
  match pindex with
  | [] => []
  | entry::pprev =>
    if height > entry.nHeight then [] else (entry::pprev).drop (entry.nHeight-height)

def getBlockHeader (entry : CBlockIndex) (pprev : IndexChain) : CBlockHeader where
  nVersion := entry.nVersion
  hashPrevBlock := match pprev with
    | [] => 0#256
    | parent::_ => parent.phashBlock
  hashMerkleRoot := entry.hashMerkleRoot
  nTime := entry.nTime
  nBits := entry.nBits
  nNonce := entry.nNonce

/-- Every block is later than the median time of its parent. -/
def MedianTimeRule : IndexChain → Prop
  | [] => True
  | [_] => True
  | entry::parent::rest =>
    getMedianTimePast (parent::rest) < entry.getBlockTime ∧ MedianTimeRule (parent::rest)

instance : (chain : IndexChain) → Decidable (MedianTimeRule chain)
  | [] => isTrue trivial
  | [_] => isTrue trivial
  | _::parent::rest =>
    have : Decidable (MedianTimeRule (parent::rest)) := instDecidableMedianTimeRule _
    inferInstanceAs (Decidable (_ ∧ _))
end IndexChain

def getBlockProof (nBits : BitVec 32) : ArithUint256 :=
  let decoded := setCompact nBits
  if decoded.fNegative || decoded.fOverflow || decoded.target == 0#256 then 0#256
  else (~~~decoded.target / (decoded.target + 1#256)) + 1#256

def mainGenesis : CBlockIndex where
  phashBlock := mainGenesisHash
  nHeight := 0
  nChainWork := getBlockProof 0x207fffff#32
  nVersion := 1
  hashMerkleRoot := 0x74e47d530e63050644fc3f2657662b6cd23c2648c3561bf47ac193eb06892939#256
  nTime := 1667196479#32
  nBits := 0x207fffff#32
  nNonce := 1073741822#32
  nTimeMax := 1667196479#32
end Lcryp
