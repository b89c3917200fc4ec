import Lcryp.Chain.BlockIndex
import Mathlib.Algebra.Order.BigOperators.Group.Finset

/-!
# Block files

The block manager fills block files one after the other and prunes those with old blocks only.
-/
namespace Lcryp
open List
structure CBlockFileInfo where
  nBlocks : BitVec 32
  nSize : BitVec 32
  nUndoSize : BitVec 32
  nHeightFirst : BitVec 32
  nHeightLast : BitVec 32
  nTimeFirst : BitVec 64
  nTimeLast : BitVec 64

namespace CBlockFileInfo
def null : CBlockFileInfo := ⟨0, 0, 0, 0, 0, 0, 0⟩

def addBlock (info : CBlockFileInfo) (nHeightIn : BitVec 32) (nTimeIn : BitVec 64) : CBlockFileInfo where
  nBlocks := info.nBlocks + 1
  nSize := info.nSize
  nUndoSize := info.nUndoSize
  nHeightFirst := if info.nBlocks = 0 ∨ info.nHeightFirst > nHeightIn then nHeightIn else info.nHeightFirst
  nHeightLast := if nHeightIn > info.nHeightLast then nHeightIn else info.nHeightLast
  nTimeFirst := if info.nBlocks = 0 ∨ info.nTimeFirst > nTimeIn then nTimeIn else info.nTimeFirst
  nTimeLast := if nTimeIn > info.nTimeLast then nTimeIn else info.nTimeLast
end CBlockFileInfo

structure StoredEntry where
  hash : Uint256
  pprev : Option Uint256
  nHeight : Nat
  nFile : Nat
  nDataPos : BitVec 32
  nUndoPos : BitVec 32
  nStatus : BitVec 32

structure BlockFiles where
  m_block_index : List StoredEntry
  m_blocks_unlinked : List (Option Uint256 × Uint256)
  m_blockfile_info : List CBlockFileInfo
  m_last_blockfile : Nat

namespace BlockFiles
def blockHaveData : BitVec 32 := 8
def blockHaveUndo : BitVec 32 := 16
def minBlocksToKeep : BitVec 32 := 288

variable (bm : BlockFiles)
def fileInfo (nFile : Nat) : CBlockFileInfo := bm.m_blockfile_info.getD nFile .null

def pruneOneBlockFile (fileNumber : Nat) : BlockFiles where
  m_block_index := bm.m_block_index.map fun pindex =>
    if pindex.nFile = fileNumber then
      { pindex with
        nStatus := pindex.nStatus &&& ~~~blockHaveData &&& ~~~blockHaveUndo
        nFile := 0
        nDataPos := 0
        nUndoPos := 0 }
    else pindex
  m_blocks_unlinked := bm.m_blocks_unlinked.filter fun link => !bm.m_block_index.any fun pindex =>
    pindex.nFile = fileNumber ∧ link = (pindex.pprev, pindex.hash)
  m_blockfile_info := bm.m_blockfile_info.set fileNumber .null
  m_last_blockfile := bm.m_last_blockfile

/-- The loop over the block files, which ends early if the disk usage is low enough. -/
def pruneLoop (nLastBlockWeCanPrune : BitVec 32) (enough : BitVec 64 → Bool) :
    List Nat → BlockFiles → BitVec 64 → List Nat × BlockFiles
  | [], bm, _ => ([], bm)
  | fileNumber::rest, bm, nCurrentUsage =>
    let info := bm.fileInfo fileNumber
    if info.nSize = 0 then pruneLoop nLastBlockWeCanPrune enough rest bm nCurrentUsage
    else if enough nCurrentUsage then ([], bm)
    else if info.nHeightLast > nLastBlockWeCanPrune then
      pruneLoop nLastBlockWeCanPrune enough rest bm nCurrentUsage
    else
      let (setFilesToPrune, bm) := pruneLoop nLastBlockWeCanPrune enough rest
        (bm.pruneOneBlockFile fileNumber) (nCurrentUsage - (info.nSize+info.nUndoSize).setWidth 64)
      (fileNumber::setFilesToPrune, bm)

/-- `nLastBlockWeCanPrune` of `FindFilesToPruneManual`, the minimum of two unsigned numbers. -/
def manualLimit (nManualPruneHeight chain_tip_height : BitVec 32) : BitVec 32 :=
  let window := chain_tip_height - minBlocksToKeep
  if window < nManualPruneHeight then window else nManualPruneHeight

/-- `nLastBlockWeCanPrune` of `FindFilesToPrune`, the minimum of two signed numbers. -/
def pruneLimit (prune_height chain_tip_height : BitVec 32) : BitVec 32 :=
  let window := chain_tip_height - minBlocksToKeep
  if window.slt prune_height then window else prune_height

/-- `FindFilesToPruneManual`; nothing if its assertion fails. -/
def findFilesToPruneManual (fPruneMode : Bool) (bm : BlockFiles)
    (nManualPruneHeight chain_tip_height : BitVec 32) : Option (List Nat × BlockFiles) :=
  if fPruneMode ∧ nManualPruneHeight.toInt > 0 then
    if chain_tip_height.toInt < 0 then some ([], bm)
    else
      some (pruneLoop (manualLimit nManualPruneHeight chain_tip_height) (fun _ => false)
        (List.range bm.m_last_blockfile) bm 0)
  else none

def calculateCurrentUsage : BitVec 64 :=
  bm.m_blockfile_info.foldl (fun retval file => retval + (file.nSize+file.nUndoSize).setWidth 64) 0

/-- `BLOCKFILE_CHUNK_SIZE + UNDOFILE_CHUNK_SIZE`. -/
def pruneBuffer : BitVec 64 := 0x1000000 + 0x100000

def findFilesToPrune (nPruneTarget : BitVec 64) (bm : BlockFiles) (nPruneAfterHeight : BitVec 64)
    (chain_tip_height prune_height : BitVec 32) (is_ibd : Bool) : List Nat × BlockFiles :=
  if chain_tip_height.toInt < 0 ∨ nPruneTarget = 0 then ([], bm)
  else if chain_tip_height.signExtend 64 ≤ nPruneAfterHeight then ([], bm)
  else
    let nCurrentUsage := bm.calculateCurrentUsage
    let nBuffer := pruneBuffer
    if nCurrentUsage + nBuffer ≥ nPruneTarget then
      let nBuffer := if is_ibd then nBuffer + nPruneTarget / 10 else nBuffer
      pruneLoop (pruneLimit prune_height chain_tip_height) (fun usage => usage + nBuffer < nPruneTarget)
        (List.range bm.m_last_blockfile) bm nCurrentUsage
    else ([], bm)

def Stores (nFile height : Nat) : Prop :=
  ∃ pindex ∈ bm.m_block_index,
    pindex.nFile = nFile ∧ pindex.nStatus &&& blockHaveData ≠ 0 ∧ pindex.nHeight = height

/-- `nHeightLast` is the maximum height stored in a file. -/
def TracksHeights : Prop :=
  ∀ nFile, (bm.fileInfo nFile).nSize ≠ 0 →
    IsGreatest {height | bm.Stores nFile height} (bm.fileInfo nFile).nHeightLast.toNat

/-- No file has a block of the last `MIN_BLOCKS_TO_KEEP` ones or above the given height. -/
def KeepsWindow (files : List Nat) (chain_tip_height bound : BitVec 32) : Prop :=
  ∀ nFile ∈ files, ∀ height : Nat, bm.Stores nFile height →
    height ≤ chain_tip_height.toInt - minBlocksToKeep.toInt ∧ height ≤ bound.toInt

/-- A file below the last one has blocks, none of them above the limit. -/
def Prunable (limit : BitVec 32) : Prop :=
  ∃ nFile < bm.m_last_blockfile, (bm.fileInfo nFile).nSize ≠ 0 ∧ (bm.fileInfo nFile).nHeightLast ≤ limit

/-- The disk usage reaches the target, also with the larger buffer of the initial download. -/
def ReachesTarget (nPruneTarget : BitVec 64) (is_ibd : Bool) : Prop :=
  nPruneTarget ≤ bm.calculateCurrentUsage + pruneBuffer ∧
    (is_ibd → nPruneTarget ≤ bm.calculateCurrentUsage + (pruneBuffer + nPruneTarget / 10))

variable {bm : BlockFiles} {limit : BitVec 32} {enough : BitVec 64 → Bool}
theorem pruneLoop_selected {nFile : Nat} {l : List Nat} (hl : l.Nodup) {usage : BitVec 64}
    (h : nFile ∈ (pruneLoop limit enough l bm usage).1) :
    nFile ∈ l ∧ (bm.fileInfo nFile).nSize ≠ 0 ∧ (bm.fileInfo nFile).nHeightLast ≤ limit := by
  induction l generalizing bm usage with
  | nil => cases h
  | cons fileNumber rest ih =>
    rw [nodup_cons] at hl
    have hs : ∀ usage, nFile ∈ (pruneLoop limit enough rest bm usage).1 → nFile ∈ fileNumber::rest ∧
        (bm.fileInfo nFile).nSize ≠ 0 ∧ (bm.fileInfo nFile).nHeightLast ≤ limit :=
      fun usage h => (ih hl.2 h).imp_left (mem_cons_of_mem _)
    simp only [pruneLoop] at h
    split_ifs at h with hsi hend hlast
    · exact hs _ h
    · cases h
    · exact hs _ h
    · rcases mem_cons.mp h with rfl | h
      · exact ⟨mem_cons_self,hsi,BitVec.not_lt.mp hlast⟩
      · obtain ⟨hmem,hr⟩ := ih hl.2 h
        have hne : fileNumber ≠ nFile := fun heq => hl.1 (heq ▸ hmem)
        have hi : (bm.pruneOneBlockFile fileNumber).fileInfo nFile = bm.fileInfo nFile := by
          simp [fileInfo,pruneOneBlockFile,getElem?_set_ne hne]
        exact ⟨mem_cons_of_mem _ hmem,hi ▸ hr⟩

theorem pruneLoop_eq_nil_iff {l : List Nat} {usage : BitVec 64} :
    (pruneLoop limit enough l bm usage).1 = [] ↔ enough usage = true ∨
      ¬ ∃ nFile ∈ l, (bm.fileInfo nFile).nSize ≠ 0 ∧ (bm.fileInfo nFile).nHeightLast ≤ limit := by
  induction l with
  | nil => simp [pruneLoop]
  | cons fileNumber rest ih =>
    simp only [pruneLoop]
    split_ifs with hsize henough hlast <;> simp_all [BitVec.not_le]

variable {tip bound : BitVec 32}
/-- A file that is selected has a block, and none above the limit. -/
theorem keepsWindow_pruneLoop_iff (hbm : bm.TracksHeights) (usage : BitVec 64)
    (hli : 288 ≤ tip.toInt → 0 ≤ bound.toInt → (limit.toNat : Int) = min (tip.toInt-288) bound.toInt) :
    bm.KeepsWindow (pruneLoop limit enough (range bm.m_last_blockfile) bm usage).1 tip bound ↔
      288 ≤ tip.toInt ∧ 0 ≤ bound.toInt ∨ enough usage = true ∨ ¬ bm.Prunable limit := by
  have hk : minBlocksToKeep.toInt = 288 := rfl
  simp only [Prunable,← mem_range,← pruneLoop_eq_nil_iff]
  constructor
  · intro h
    refine or_iff_not_imp_right.mpr fun hne => ?_
    obtain ⟨nFile,hmem⟩ := exists_mem_of_ne_nil _ hne
    obtain ⟨_,hs,_⟩ := pruneLoop_selected nodup_range hmem
    obtain ⟨htip,hb⟩ := h nFile hmem _ (hbm nFile hs).1
    omega
  · rintro (⟨htip,hb⟩ | hnil) nFile hmem height hstores
    · obtain ⟨_,hs,hl⟩ := pruneLoop_selected nodup_range hmem
      have hle := (hbm nFile hs).2 hstores
      have hl : (bm.fileInfo nFile).nHeightLast.toNat ≤ limit.toNat := hl
      omega
    · rw [hnil] at hmem
      cases hmem

theorem toNat_of_nonneg {height : BitVec 32} (h : 0 ≤ height.toInt) : (height.toNat : Int) = height.toInt := by
  rw [BitVec.toInt_eq_toNat_cond] at h ⊢
  split at h <;> omega

theorem window_toInt (tip : BitVec 32) (htip : 0 ≤ tip.toInt) :
    (tip-minBlocksToKeep).toInt = tip.toInt - 288 := by
  have hnat := toNat_of_nonneg htip
  have hk : minBlocksToKeep.toNat = 288 := rfl
  rw [BitVec.toInt_eq_toNat_cond] at hnat
  simp only [BitVec.toInt_eq_toNat_cond,BitVec.toNat_sub,hk]
  split_ifs at hnat ⊢ <;> omega

theorem manualLimit_toNat (htip : 288 ≤ tip.toInt) (hb : 0 ≤ bound.toInt) :
    ((manualLimit bound tip).toNat : Int) = min (tip.toInt-288) bound.toInt := by
  have hw := window_toInt tip (by omega)
  rw [← toNat_of_nonneg (by omega)] at hw
  rw [← toNat_of_nonneg hb,← hw,manualLimit]
  split <;> simp_all [BitVec.lt_def] <;> omega

theorem pruneLimit_toNat (htip : 288 ≤ tip.toInt) (hb : 0 ≤ bound.toInt) :
    ((pruneLimit bound tip).toNat : Int) = min (tip.toInt-288) bound.toInt := by
  have hw := window_toInt tip (by omega)
  rw [pruneLimit,← hw]
  simp only [BitVec.slt_iff_toInt_lt]
  split
  · rw [toNat_of_nonneg (by omega)]
    omega
  · rw [toNat_of_nonneg hb]
    omega

/-- Both ways of pruning keep the recent window exactly if the window does not reach below the genesis
block or there is nothing to prune. -/
theorem prune_keepsWindow_iff (hbm : bm.TracksHeights) {tip : BitVec 32} (htip : 0 ≤ tip.toInt) :
    (∀ nManualPruneHeight result, findFilesToPruneManual true bm nManualPruneHeight tip = some result →
        (bm.KeepsWindow result.1 tip nManualPruneHeight ↔
          288 ≤ tip.toInt ∨ ¬ bm.Prunable (manualLimit nManualPruneHeight tip))) ∧
    ∀ nPruneTarget nPruneAfterHeight prune_height is_ibd,
      bm.KeepsWindow (findFilesToPrune nPruneTarget bm nPruneAfterHeight tip prune_height is_ibd).1 tip
        prune_height ↔ 288 ≤ tip.toInt ∧ 0 ≤ prune_height.toInt ∨
          nPruneTarget = 0 ∨ tip.signExtend 64 ≤ nPruneAfterHeight ∨
          ¬ bm.ReachesTarget nPruneTarget is_ibd ∨ ¬ bm.Prunable (pruneLimit prune_height tip) := by
  constructor
  · intro manual result h
    simp only [findFilesToPruneManual,if_neg (not_lt.mpr htip)] at h
    split at h
    next hmanual =>
      cases h
      rw [keepsWindow_pruneLoop_iff hbm _ manualLimit_toNat,and_iff_left hmanual.2.le]
      simp
    · cases h
  · intro nPruneTarget nPruneAfterHeight prune_height is_ibd
    simp only [findFilesToPrune,not_lt.mpr htip,false_or]
    split
    next htarget => simp [KeepsWindow,htarget]
    next htarget =>
      split
      next hafter => simp [KeepsWindow,hafter]
      next hafter =>
        split
        next hreach =>
          have hlt := BitVec.not_lt.mpr hreach
          rw [keepsWindow_pruneLoop_iff hbm _ pruneLimit_toNat,or_iff_right htarget,or_iff_right hafter,
            ReachesTarget,and_iff_right hreach]
          cases is_ibd <;> simp [hlt]
        next hreach =>
          have hlt := BitVec.not_le.mp hreach
          simp [KeepsWindow,ReachesTarget,hlt]

def oneFile : BlockFiles where
  m_block_index := [⟨1, none, 5, 0, 8, 8, 8⟩]
  m_blocks_unlinked := []
  m_blockfile_info := [⟨1, 500, 0, 5, 5, 0, 0⟩]
  m_last_blockfile := 1

theorem oneFile_tracks : oneFile.TracksHeights := by
  intro nFile hsize
  cases nFile with
  | zero => simp [Stores,oneFile,fileInfo,blockHaveData]
  | succ nFile => exact absurd rfl hsize

theorem oneFile_kept : oneFile.KeepsWindow (findFilesToPrune 1 oneFile 50 400#32 300 false).1 400#32 300 :=
  ((prune_keepsWindow_iff oneFile_tracks (by decide)).2 1 50 300 false).mpr (.inl (by decide))

/-- Below `MIN_BLOCKS_TO_KEEP` the limit wraps around, and a recent block is pruned. -/
theorem oneFile_pruned : (findFilesToPrune 1 oneFile 50 100 100 false).1 = [0] ∧
    (findFilesToPruneManual true oneFile 10 100).map Prod.fst = some [0] ∧
    oneFile.Stores 0 5 ∧ ¬ oneFile.KeepsWindow [0] 100 100 ∧ ¬ oneFile.KeepsWindow [0] 100 10 := by
  have hstores : oneFile.Stores 0 5 := (oneFile_tracks 0 (by decide)).1
  refine ⟨by decide,by decide,hstores,fun h => ?_,fun h => ?_⟩ <;>
    exact absurd (h 0 (by simp) 5 hstores).1 (by decide)

/-! ## Positions of new blocks -/

variable (fastprune : Bool)
def maxFileSize : BitVec 32 := if fastprune then 0x10000 else 0x8000000

/-- The search loop of `FindBlockPos`; nothing if it has not ended after the given number of turns. -/
def findFile (fastprune : Bool) (bm : BlockFiles) (nAddSize : BitVec 32) : Nat → Nat → Option Nat
  | 0, _ => none
  | fuel+1, nFile =>
    if (bm.fileInfo nFile).nSize + nAddSize ≥ maxFileSize fastprune then
      findFile fastprune bm nAddSize fuel (nFile+1)
    else some nFile

structure FlatFilePos where
  nFile : Nat
  nPos : BitVec 32

structure BlockToStore where
  nAddSize : BitVec 32
  nHeight : BitVec 32
  nTime : BitVec 64

def findBlockPos (fuel : Nat) (bm : BlockFiles) (block : BlockToStore) : Option (FlatFilePos × BlockFiles) :=
  (findFile fastprune bm block.nAddSize fuel bm.m_last_blockfile).map fun nFile =>
    let info := bm.fileInfo nFile
    let resized := bm.m_blockfile_info ++
      List.replicate (nFile + 1 - bm.m_blockfile_info.length) .null
    (⟨nFile, info.nSize⟩, { bm with
      m_blockfile_info := resized.set nFile
        { info.addBlock block.nHeight block.nTime with nSize := info.nSize + block.nAddSize }
      m_last_blockfile := nFile })

structure HandedOut where
  pos : FlatFilePos
  nAddSize : BitVec 32

def HandedOut.stop (range : HandedOut) : Nat := range.pos.nPos.toNat + range.nAddSize.toNat

/-- Calls that all end, with what they hand out. -/
inductive HandsOut (fastprune : Bool) : BlockFiles → List BlockToStore → List HandedOut → BlockFiles → Prop
  | nil (bm : BlockFiles) : HandsOut fastprune bm [] [] bm
  | cons {bm next last : BlockFiles} {fuel : Nat} {block : BlockToStore} {pos : FlatFilePos}
      {rest : List BlockToStore} {ranges : List HandedOut}
      (first : findBlockPos fastprune fuel bm block = some (pos, next))
      (others : HandsOut fastprune next rest ranges last) :
      HandsOut fastprune bm (block::rest) (⟨pos, block.nAddSize⟩::ranges) last

def size (bm : BlockFiles) (nFile : Nat) : Nat := (bm.fileInfo nFile).nSize.toNat

def Separate (last : BlockFiles) (ranges : List HandedOut) : Prop :=
  ranges.Pairwise (fun a b => a.pos.nFile = b.pos.nFile →
    a.stop ≤ b.pos.nPos.toNat ∨ b.stop ≤ a.pos.nPos.toNat) ∧
  ∀ range ∈ ranges, range.stop ≤ last.size range.pos.nFile ∧ range.stop ≤ (maxFileSize fastprune).toNat

def maxAddSize : Nat := 4000000 + 8
section Position
variable {fastprune : Bool} {fuel : Nat} {next last : BlockFiles} {block : BlockToStore}
  {pos : FlatFilePos} {nAddSize : BitVec 32}

theorem findFile_spec {nFile n : Nat} (h : findFile fastprune bm nAddSize fuel nFile = some n) :
    nFile ≤ n ∧ (bm.fileInfo n).nSize + nAddSize < maxFileSize fastprune ∧
      ∀ k, nFile ≤ k → k < n → ¬ (bm.fileInfo k).nSize + nAddSize < maxFileSize fastprune := by
  induction fuel generalizing nFile with
  | zero => cases h
  | succ fuel ih =>
    rw [findFile] at h
    split at h
    next hfu =>
      obtain ⟨hle,hf,hbef⟩ := ih h
      refine ⟨by omega,hf,fun k hk hn => ?_⟩
      rcases hk.eq_or_lt with rfl | hk
      · exact BitVec.not_lt.mpr hfu
      · exact hbef k hk hn
    next hf =>
      cases h
      exact ⟨le_rfl,BitVec.not_le.mp hf,fun k hk hn => absurd hn (not_lt.mpr hk)⟩

theorem findFile_ends (d nFile : Nat) (h : (bm.fileInfo (nFile+d)).nSize + nAddSize < maxFileSize fastprune) :
    ∃ n, findFile fastprune bm nAddSize (d+1) nFile = some n := by
  induction d generalizing nFile with
  | zero => exact ⟨nFile,if_neg (BitVec.not_le.mpr h)⟩
  | succ d ih =>
    rw [findFile]
    split
    · exact ih (nFile+1) (by rwa [Nat.add_right_comm])
    · exact ⟨nFile,rfl⟩

/-- The block goes to the end of the first file, from the last one on, in which it fits. -/
structure Placed (fastprune : Bool) (bm next : BlockFiles) (block : BlockToStore) (pos : FlatFilePos) :
    Prop where
  later : bm.m_last_blockfile ≤ pos.nFile
  fits : pos.nPos + block.nAddSize < maxFileSize fastprune
  first : ∀ k, bm.m_last_blockfile ≤ k → k < pos.nFile →
    ¬ (bm.fileInfo k).nSize + block.nAddSize < maxFileSize fastprune
  start : bm.size pos.nFile = pos.nPos.toNat
  last : next.m_last_blockfile = pos.nFile
  sizes : ∀ k, next.size k = if k = pos.nFile then (pos.nPos+block.nAddSize).toNat else bm.size k

theorem findBlockPos_placed (h : findBlockPos fastprune fuel bm block = some (pos, next)) :
    Placed fastprune bm next block pos := by
  obtain ⟨nFile,hf,heq⟩ := Option.map_eq_some_iff.mp h
  cases heq
  obtain ⟨hle,hfi,hbef⟩ := findFile_spec hf
  refine ⟨hle,hfi,hbef,rfl,rfl,fun k => ?_⟩
  dsimp only [size,fileInfo]
  split
  next hk =>
    subst hk
    rw [getD_eq_getElem?_getD,getElem?_set_self (by simp; omega)]
    rfl
  next hk =>
    simp only [getD_eq_getElem?_getD,getElem?_set_ne (Ne.symm hk),getElem?_append,getElem?_replicate]
    split_ifs
    · rfl
    · rw [getElem?_eq_none (by omega)]
      rfl
    · rw [getElem?_eq_none (by omega)]

/-- The next block fits into every file in 32 bits. -/
def Roomy (bm : BlockFiles) : Prop := ∀ k, bm.m_last_blockfile ≤ k → bm.size k + maxAddSize < 2^32

variable {blocks : List BlockToStore}
theorem handsOut_separate (hr : bm.Roomy) (hsi : ∀ block ∈ blocks, block.nAddSize.toNat ≤ maxAddSize) :
    ∃ ranges last, HandsOut false bm blocks ranges last ∧ Separate false last ranges ∧
      (∀ k, bm.size k ≤ last.size k) ∧ ∀ range ∈ ranges, bm.size range.pos.nFile ≤ range.pos.nPos.toNat := by
  have hmax : (maxFileSize false).toNat = 0x8000000 := rfl
  unfold maxAddSize at hsi
  induction blocks generalizing bm with
  | nil => exact ⟨[],bm,.nil bm,⟨.nil,nofun⟩,fun _ => le_rfl,nofun⟩
  | cons block rest ih =>
    rw [forall_mem_cons] at hsi
    have hemp : (bm.fileInfo (bm.m_last_blockfile+bm.m_blockfile_info.length)).nSize + block.nAddSize <
        maxFileSize false := by
      rw [fileInfo,getD_eq_default _ _ (by omega),BitVec.lt_def,BitVec.toNat_add,hmax]
      have hz : CBlockFileInfo.null.nSize.toNat = 0 := rfl
      omega
    obtain ⟨⟨pos,next⟩,hfst⟩ : ∃ result, findBlockPos false _ bm block = some result :=
      ⟨_,congrArg (Option.map _) (findFile_ends _ _ hemp).choose_spec⟩
    obtain ⟨hle,hf,-,hs,hl,hn⟩ := findBlockPos_placed hfst
    have hsum : (pos.nPos+block.nAddSize).toNat = pos.nPos.toNat + block.nAddSize.toNat := by
      rw [BitVec.toNat_add,← hs]
      exact Nat.mod_eq_of_lt ((Nat.add_le_add_left hsi.1 _).trans_lt (hr _ hle))
    rw [BitVec.lt_def,hsum,hmax] at hf
    rw [hsum] at hn
    have hg : ∀ k, bm.size k ≤ next.size k := by
      intro k
      rw [hn k]
      split_ifs with hk
      · exact hk ▸ hs.le.trans (Nat.le_add_right _ _)
      · exact le_rfl
    have hro : next.Roomy := by
      intro k hk
      rw [hn k]
      split_ifs
      · unfold maxAddSize
        omega
      · exact hr k (hle.trans (hl ▸ hk))
    obtain ⟨ranges,last,hrun,⟨hp,he⟩,hm,hst⟩ := ih hro hsi.2
    have hown := hm pos.nFile
    rw [hn,if_pos rfl] at hown
    refine ⟨_,last,.cons hfst hrun,⟨pairwise_cons.mpr ⟨?_,hp⟩,?_⟩,?_,?_⟩
    · intro range hrange heq
      have hbeh := hst range hrange
      rw [← heq,hn,if_pos rfl] at hbeh
      exact .inl hbeh
    · exact forall_mem_cons.mpr ⟨⟨hown,hf.le⟩,he⟩
    · exact fun k => (hg k).trans (hm k)
    · exact forall_mem_cons.mpr ⟨hs.le,fun range hrange => (hg _).trans (hst range hrange)⟩

/-- While the largest blocks go to files before a full one, the space in those files runs out. -/
theorem handsOut_bounded {f : Nat} (hl : bm.m_last_blockfile ≤ f) (hf : 2^32 ≤ bm.size f + maxAddSize)
    (hsz : ∀ block ∈ blocks, block.nAddSize.toNat = maxAddSize)
    {ranges : List HandedOut} (hrun : HandsOut false bm blocks ranges last)
    (he : ∀ range ∈ ranges, range.stop ≤ (maxFileSize false).toNat) :
    blocks.length ≤ ∑ k ∈ Finset.range f, (0x8000000 - bm.size k) := by
  have hmax : (maxFileSize false).toNat = 0x8000000 := rfl
  induction hrun with
  | nil => exact Nat.zero_le _
  | @cons bm next _ _ block pos _ _ first _ ih =>
    rw [forall_mem_cons] at hsz he
    obtain ⟨hle,hfi,hbef,hs,hn,hsi⟩ := findBlockPos_placed first
    have hst : pos.nPos.toNat + block.nAddSize.toNat ≤ _ := he.1
    unfold maxAddSize at hf hsz
    have hw : (bm.fileInfo f).nSize + block.nAddSize < maxFileSize false := by
      rw [BitVec.lt_def,BitVec.toNat_add,hmax]
      unfold size at hf
      omega
    have hlt : pos.nFile < f := by
      rcases lt_trichotomy pos.nFile f with hlt | heq | hgt
      · exact hlt
      · rw [heq] at hs
        omega
      · exact absurd hw (hbef f hl hgt)
    have hnew : next.size pos.nFile = bm.size pos.nFile + maxAddSize := by
      rw [hsi,if_pos rfl,BitVec.toNat_add,hs]
      unfold maxAddSize
      omega
    have hoth : ∀ k, k ≠ pos.nFile → next.size k = bm.size k := fun k hk => by rw [hsi,if_neg hk]
    have hr := ih (by omega) (by rw [hoth f (by omega)]; exact hf) hsz.2 he.2
    have hls : ∑ k ∈ Finset.range f, (0x8000000 - next.size k) <
        ∑ k ∈ Finset.range f, (0x8000000 - bm.size k) := by
      refine Finset.sum_lt_sum (fun k _ => ?_) ⟨pos.nFile,Finset.mem_range.mpr hlt,?_⟩
      · by_cases hk : k = pos.nFile
        · subst hk
          omega
        · rw [hoth k hk]
      · unfold maxAddSize at hnew
        omega
    rw [length_cons]
    omega
end Position

/-- The search ends and hands out separate ranges, whatever the calls are, exactly without `-fastprune`
and if no file is so large that a sum wraps around. -/
theorem findBlockPos_sound_iff (fastprune : Bool) (bm : BlockFiles) :
    (∀ blocks : List BlockToStore, (∀ block ∈ blocks, block.nAddSize.toNat ≤ maxAddSize) →
      ∃ ranges last, HandsOut fastprune bm blocks ranges last ∧ Separate fastprune last ranges) ↔
        fastprune = false ∧ bm.Roomy := by
  constructor
  · intro h
    cases fastprune with
    | true =>
      -- A range of this size in a file of this size starts at zero, where it does not fit.
      obtain ⟨ranges,last,hrun,-,hends⟩ := h [⟨0x10000,0,0⟩] (by simp [maxAddSize])
      cases hrun with
      | cons first others =>
        have hstop := (hends _ mem_cons_self).2
        have hfits := (findBlockPos_placed first).fits
        simp [HandedOut.stop,maxFileSize,BitVec.lt_def] at hstop hfits
        omega
    | false =>
      refine ⟨rfl,fun f hf => ?_⟩
      by_contra hfull
      obtain ⟨ranges,last,hrun,-,hends⟩ := h (replicate
        (∑ k ∈ Finset.range f, (0x8000000 - bm.size k) + 1) ⟨4000008,0,0⟩) (by simp [maxAddSize])
      have hbound := handsOut_bounded hf (not_lt.mp hfull) (by simp [maxAddSize]) hrun
        fun range hrange => (hends range hrange).2
      rw [length_replicate] at hbound
      omega
  · rintro ⟨rfl,hroomy⟩ blocks hsize
    obtain ⟨ranges,last,hrun,hseparate,-⟩ := handsOut_separate hroomy hsize
    exact ⟨ranges,last,hrun,hseparate⟩

/-- With `-fastprune` the search for a place for 65536 bytes never ends. -/
theorem fastprune_searches_forever :
    ¬ ∃ fuel result, findBlockPos true fuel ⟨[], [], [], 0⟩ ⟨0x10000, 0, 0⟩ = some result := by
  rintro ⟨fuel,⟨pos,next⟩,h⟩
  have hplaced := findBlockPos_placed h
  have hzero : 0 = pos.nPos.toNat := hplaced.start
  have hfits := hplaced.fits
  simp [maxFileSize,BitVec.lt_def,← hzero] at hfits
end BlockFiles
end Lcryp
