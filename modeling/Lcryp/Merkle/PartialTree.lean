import Lcryp.Framework.Codec
import Lcryp.Framework.HashTree
import Lcryp.Primitives.ArithUint256

/-!
# Merkle roots and partial merkle trees

`ComputeMerkleRoot` and the functions of `CPartialMerkleTree`.  The double SHA-256 of two hashes is a
parameter.
-/
namespace Lcryp
open Codec HashTree
variable (hash : Uint256 → Uint256 → Uint256)
section Root
/-- The loop of `ComputeMerkleRoot`; a level of `n` hashes is reduced in fewer than `n` passes. -/
def merkleRootLoop : Nat → List Uint256 → Bool → Uint256 × Bool
  | 0, hashes, mutation => (hashes.getD 0 0#256, mutation)
  | fuel+1, hashes, mutation =>
    if 1 < hashes.length then
      merkleRootLoop fuel (pairUp hash hashes) (mutation || hasTwins hashes)
    else (hashes.getD 0 0#256, mutation)

def computeMerkleRoot (hashes : List Uint256) : Uint256 × Bool := merkleRootLoop hash hashes.length hashes false
end Root

def bitsToBytes (bits : List Bool) : Bytes :=
  (List.range bits.length).foldl
    (fun ret p => ret.modify (p/8) (· ||| ((bits.getD p false).toUInt8 <<< UInt8.ofNat (p % 8))))
    (List.replicate ((bits.length+7) / 8) 0)

def bytesToBits (bytes : Bytes) : List Bool :=
  (List.range (bytes.length*8)).map fun p =>
    bytes.getD (p/8) 0 &&& (1 <<< UInt8.ofNat (p % 8)) != 0

structure CPartialMerkleTree where
  nTransactions : Nat
  vBits : List Bool
  vHash : List Uint256
  fBad : Bool
deriving DecidableEq

def calcTreeWidth (nTransactions height : Nat) : Nat := (nTransactions + (1 <<< height) - 1) >>> height

/-- The loop that finds the height of the tree; it ends before the height reaches the number of
leaves. -/
def treeHeightLoop (nTransactions : Nat) : Nat → Nat → Nat
  | 0, nHeight => nHeight
  | fuel+1, nHeight =>
    if 1 < calcTreeWidth nTransactions nHeight then
      treeHeightLoop nTransactions fuel (nHeight+1)
    else nHeight

variable (nTransactions : Nat)
def treeHeight : Nat := treeHeightLoop nTransactions nTransactions 0

section Tree
def calcHash (nTransactions : Nat) (vTxid : List Uint256) : Nat → Nat → Uint256
  | 0, pos => vTxid.getD pos 0#256
  | height+1, pos =>
    let left := calcHash nTransactions vTxid height (pos*2)
    let right := if pos * 2 + 1 < calcTreeWidth nTransactions height then
        calcHash nTransactions vTxid height (pos * 2 + 1)
      else left
    hash left right

def leavesBelow (nTransactions height pos : Nat) : List Nat :=
  List.range' (pos <<< height) (min ((pos+1) <<< height) nTransactions - pos <<< height)
def parentOfMatch (vMatch : List Bool) (height pos : Nat) : Bool :=
  (leavesBelow nTransactions height pos).any (vMatch.getD · false)

def traverseAndBuild (vTxid : List Uint256) (vMatch : List Bool) :
    Nat → Nat → CPartialMerkleTree → CPartialMerkleTree
  | 0, pos, tree =>
    { tree with
      vBits := tree.vBits++[parentOfMatch tree.nTransactions vMatch 0 pos]
      vHash := tree.vHash++[calcHash hash tree.nTransactions vTxid 0 pos] }
  | height+1, pos, tree =>
    let fParentOfMatch := parentOfMatch tree.nTransactions vMatch (height+1) pos
    let tree := { tree with vBits := tree.vBits++[fParentOfMatch] }
    if !fParentOfMatch then
      { tree with
        vHash := tree.vHash++[calcHash hash tree.nTransactions vTxid (height+1) pos] }
    else
      let tree := traverseAndBuild vTxid vMatch height (pos*2) tree
      if pos * 2 + 1 < calcTreeWidth tree.nTransactions height then
        traverseAndBuild vTxid vMatch height (pos * 2 + 1) tree
      else tree

/-- The constructor from a block's ids; without any, an assertion of `CalcHash` fails. -/
def CPartialMerkleTree.ofTxids (vTxid : List Uint256) (vMatch : List Bool) : Option CPartialMerkleTree :=
  if vTxid = [] then none
  else some (traverseAndBuild hash vTxid vMatch (treeHeight vTxid.length) 0 ⟨vTxid.length, [], [], false⟩)

variable (tree : CPartialMerkleTree)
/-- What a peer has after the tree was written and read. -/
def CPartialMerkleTree.transmitted : CPartialMerkleTree :=
  { tree with vBits := bytesToBits (bitsToBytes tree.vBits), fBad := false }

/-- The reference parameters of `TraverseAndExtract`, and `fBad`. -/
structure Extraction where
  nBitsUsed : Nat
  nHashUsed : Nat
  vMatch : List Uint256
  vnIndex : List Nat
  fBad : Bool
deriving DecidableEq

/-- A node of which the hash is given: a leaf, or a node above no match. -/
def extractHash (reported : Bool) (pos : Nat) (s : Extraction) : Uint256 × Extraction :=
  if s.nHashUsed ≥ tree.vHash.length then (0#256, { s with fBad := true })
  else
    let hash := tree.vHash.getD s.nHashUsed 0#256
    let s := { s with nHashUsed := s.nHashUsed + 1 }
    (hash, if reported then
        { s with vMatch := s.vMatch++[hash], vnIndex := s.vnIndex++[pos] }
      else s)

def traverseAndExtract (tree : CPartialMerkleTree) : Nat → Nat → Extraction → Uint256 × Extraction
  | 0, pos, s =>
    if s.nBitsUsed ≥ tree.vBits.length then (0#256, { s with fBad := true })
    else
      let fParentOfMatch := tree.vBits.getD s.nBitsUsed false
      extractHash tree fParentOfMatch pos { s with nBitsUsed := s.nBitsUsed + 1 }
  | height+1, pos, s =>
    if s.nBitsUsed ≥ tree.vBits.length then (0#256, { s with fBad := true })
    else
      let fParentOfMatch := tree.vBits.getD s.nBitsUsed false
      let s := { s with nBitsUsed := s.nBitsUsed + 1 }
      if !fParentOfMatch then extractHash tree false pos s
      else
        let (left, s) := traverseAndExtract tree height (pos*2) s
        if pos * 2 + 1 < calcTreeWidth tree.nTransactions height then
          let (right, s) := traverseAndExtract tree height (pos * 2 + 1) s
          (hash left right, if right = left then { s with fBad := true } else s)
        else (hash left left, s)

/-- `MAX_BLOCK_WEIGHT / MIN_TRANSACTION_WEIGHT`. -/
def maxMerkleTransactions : Nat := 4000000 / (4*60)

/-- `ExtractMatches`: the value returned, and `vMatch`, `vnIndex` and `fBad` after the call.  The
caller's `vMatch` is cleared, its `vnIndex` is not. -/
def extractMatches (vnIndex : List Nat) : Uint256 × Extraction :=
  let s : Extraction := ⟨0, 0, [], vnIndex, tree.fBad⟩
  if tree.nTransactions = 0 then (0#256, s)
  else if tree.nTransactions > maxMerkleTransactions then (0#256, s)
  else if tree.vHash.length > tree.nTransactions then (0#256, s)
  else if tree.vBits.length < tree.vHash.length then (0#256, s)
  else
    let (hashMerkleRoot, s) := traverseAndExtract hash tree (treeHeight tree.nTransactions) 0 s
    if s.fBad then (0#256, s)
    else if (s.nBitsUsed+7) / 8 ≠ (tree.vBits.length+7) / 8 then (0#256, s)
    else if s.nHashUsed ≠ tree.vHash.length then (0#256, s)
    else (hashMerkleRoot, s)
end Tree
end Lcryp
