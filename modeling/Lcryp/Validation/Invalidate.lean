import Lcryp.Chain.Headers

/-!
# Invalidating a block

`Chainstate::InvalidateBlock` on the block index.  The active chain is given tip first, so that the
`pprev` of its tip is the next entry.
-/
namespace Lcryp
open List Prod CBlockIndex
def blockValidTransactions : BitVec 32 := 3#32

/-- The block index with what `Chainstate` keeps about it. -/
structure ChainIndex extends BlockManager where
  /-- `m_chain`, tip first. -/
  chain : IndexChain
  /-- `setBlockIndexCandidates`. -/
  candidates : Finset Uint256
  bestInvalid : Option Uint256
  nSequenceId : Uint256 → Int
  haveTxsDownloaded : Uint256 → Bool
  /-- Where an entry lies in memory. -/
  address : Uint256 → Nat

/-- What one round of `InvalidateBlock` finds: a shutdown request, and the answer of `DisconnectTip`. -/
structure InvalidateTurn where
  shutdownRequested : Bool
  disconnects : Bool

namespace ChainIndex
variable (st : ChainIndex)
def contains (chain : IndexChain) (pindex : CBlockIndex) : Bool := chain.reverse[pindex.nHeight]? == some pindex

variable (hash : Uint256)
def status : BitVec 32 := ((st.blockIndex.lookup hash).map BlockNode.nStatus).getD 0#32
def setStatus (change : BitVec 32 → BitVec 32) : ChainIndex :=
  match st.blockIndex.lookup hash with
  | none => st
  | some node =>
    { st with blockIndex := st.blockIndex.insert hash { node with nStatus := change node.nStatus } }

def chainWork : ArithUint256 := ((st.blockIndex.lookup hash).map fun node => node.index.nChainWork).getD 0#256

def worse (pa pb : Uint256) : Bool :=
  if st.chainWork pa > st.chainWork pb then false
  else if st.chainWork pa < st.chainWork pb then true
  else if st.nSequenceId pa < st.nSequenceId pb then false
  else if st.nSequenceId pa > st.nSequenceId pb then true
  else if st.address pa < st.address pb then false
  else if st.address pa > st.address pb then true
  else false

/-- Whether a block and all its ancestors have been received and nothing is known against it. -/
def connectable : Bool :=
  (st.blockIndex.lookup hash).any (fun node => node.isValid blockValidTransactions) && st.haveTxsDownloaded hash

/-- The hash of the tip of a chain; the null hash stands for no block. -/
def tipHash (chain : IndexChain) : Uint256 := (chain.head?.map phashBlock).getD 0#256

/-- The side blocks that may become candidates while the chain is rewound to `pprev`. -/
def candidateBlocks (pprev : IndexChain) : Finset Uint256 :=
  st.blockIndex.keys.filter fun hash =>
    (!(st.blockIndex.lookup hash).any (fun node => contains st.chain node.index) &&
      !st.worse hash (tipHash pprev) && st.connectable hash) = true

def invalidChainFound (pindexNew : CBlockIndex) : ChainIndex :=
  let newWorst := match st.bestInvalid with
    | none => true
    | some best => decide (pindexNew.nChainWork > st.chainWork best)
  let headerGone := match st.bestHeader.bind st.blockIndex.lookup with
    | none => false
    | some best => (IndexChain.getAncestor best.chain pindexNew.nHeight).head? == some pindexNew
  { st with
    bestInvalid := if newWorst then some pindexNew.phashBlock else st.bestInvalid
    bestHeader := if headerGone then some (tipHash st.chain) else st.bestHeader }
end ChainIndex

structure InvalidateWalk where
  st : ChainIndex
  toMarkFailed : CBlockIndex
  /-- `candidate_blocks_by_work`. -/
  candidateBlocks : Finset Uint256

namespace InvalidateWalk
variable (w : InvalidateWalk)
/-- A round of the loop after `DisconnectTip` has moved the tip from `invalidWalkTip` to `pprev`. -/
def markTip (invalidWalkTip : CBlockIndex) (pprev : IndexChain) : InvalidateWalk :=
  let marked := { w.st with chain := pprev }.setStatus invalidWalkTip.phashBlock (· ||| blockFailedValid)
  let moved := { marked with
    candidates := insert (ChainIndex.tipHash pprev) (marked.candidates.erase invalidWalkTip.phashBlock) }
  let st :=
    if pprev.head? = some w.toMarkFailed ∧
        moved.status w.toMarkFailed.phashBlock &&& blockFailedValid ≠ 0#32 then
      moved.setStatus w.toMarkFailed.phashBlock fun nStatus =>
        (nStatus ^^^ blockFailedValid) ||| blockFailedChild
    else moved
  let taken := w.candidateBlocks.filter fun hash =>
    (decide (st.chainWork hash ≥ st.chainWork (ChainIndex.tipHash pprev)) &&
      !st.worse hash (ChainIndex.tipHash pprev)) = true
  ⟨{ st with candidates := st.candidates ∪ taken }, invalidWalkTip, w.candidateBlocks \ taken⟩

/-- The loop of `InvalidateBlock`; the answer is false if a block could not be disconnected. -/
def loop (turn : Nat → InvalidateTurn) (pindex : CBlockIndex) :
    IndexChain → Nat → InvalidateWalk → Bool × InvalidateWalk
  | [], _, w => (true, w)
  | tip::pprev, disconnected, w =>
    if (turn disconnected).shutdownRequested then (true, w)
    else if !ChainIndex.contains (tip::pprev) pindex then (true, w)
    else if !(turn disconnected).disconnects then (false, w)
    else loop turn pindex pprev (disconnected+1) (w.markTip tip pprev)

def finish : Bool × ChainIndex :=
  if ChainIndex.contains w.st.chain w.toMarkFailed then (false, w.st)
  else
    let marked := w.st.setStatus w.toMarkFailed.phashBlock (· ||| blockFailedValid)
    let st := { marked with
      candidates := marked.candidates.erase w.toMarkFailed.phashBlock
      failedBlocks := marked.failedBlocks.insert w.toMarkFailed.phashBlock }
    let connectable := st.blockIndex.keys.filter fun hash =>
      (st.connectable hash && !st.worse hash (ChainIndex.tipHash st.chain)) = true
    (true, { st with candidates := st.candidates ∪ connectable }.invalidChainFound w.toMarkFailed)
end InvalidateWalk

def invalidateBlock (turn : Nat → InvalidateTurn) (st : ChainIndex) (pindex : CBlockIndex)
    (pprev : IndexChain) : Bool × ChainIndex :=
  if pindex.nHeight = 0 then (false, st)
  else
    let walked := InvalidateWalk.loop turn pindex st.chain 0 ⟨st, pindex, st.candidateBlocks pprev⟩
    if walked.1 then walked.2.finish else (false, walked.2.st)

variable {st : ChainIndex}
namespace ChainIndex
theorem isSome_setStatus (hash other : Uint256) (change : BitVec 32 → BitVec 32) :
    ((st.setStatus hash change).blockIndex.lookup other).isSome = (st.blockIndex.lookup other).isSome := by
  unfold setStatus
  cases hn : st.blockIndex.lookup hash with
  | none => rfl
  | some node =>
    by_cases h : other = hash
    · subst h
      simp [hn]
    · simp [Finmap.lookup_insert_of_ne _ h]

theorem status_setStatus_self {hash : Uint256} (h : (st.blockIndex.lookup hash).isSome = true)
    (change : BitVec 32 → BitVec 32) : (st.setStatus hash change).status hash = change (st.status hash) := by
  obtain ⟨node,hn⟩ := Option.isSome_iff_exists.mp h
  simp [setStatus,status,hn]

theorem status_setStatus_of_ne {hash other : Uint256} (h : other ≠ hash)
    (change : BitVec 32 → BitVec 32) : (st.setStatus hash change).status other = st.status other := by
  unfold setStatus
  cases st.blockIndex.lookup hash with
  | none => rfl
  | some node => simp [status,Finmap.lookup_insert_of_ne _ h]

@[simp]
theorem setStatus_chain (hash : Uint256) (change : BitVec 32 → BitVec 32) :
    (st.setStatus hash change).chain = st.chain := by
  unfold setStatus
  split <;> rfl
end ChainIndex

def MarkedValid (nStatus : BitVec 32) : Prop :=
  nStatus &&& blockFailedValid ≠ 0#32 ∧ nStatus &&& blockFailedChild = 0#32

variable {nStatus : BitVec 32}
private theorem markedValid_or (h : nStatus &&& blockFailedChild = 0#32) :
    MarkedValid (nStatus ||| blockFailedValid) := by
  have hd : ∀ flag,
      (nStatus ||| blockFailedValid) &&& flag = nStatus &&& flag ||| blockFailedValid &&& flag := by
    intro flag
    ext i
    simp [Bool.and_or_distrib_right]
  constructor
  · intro hz
    have hbit := congrArg (fun flags => BitVec.getLsbD flags 5) hz
    simp [blockFailedValid] at hbit
  · rw [hd,h]
    decide

private theorem unmarked_parts (h : nStatus &&& blockFailedMask = 0#32) :
    nStatus &&& blockFailedValid = 0#32 ∧ nStatus &&& blockFailedChild = 0#32 := by
  have hv : blockFailedMask &&& blockFailedValid = blockFailedValid := by decide
  have hc : blockFailedMask &&& blockFailedChild = blockFailedChild := by decide
  constructor
  · rw [← hv,← BitVec.and_assoc,h,BitVec.zero_and]
  · rw [← hc,← BitVec.and_assoc,h,BitVec.zero_and]

/-- The blocks of a chain that have been disconnected, and those that have not. -/
structure InvalidateWalk.Marked (w : InvalidateWalk) (pindex : CBlockIndex) (gone rest : IndexChain) :
    Prop where
  chain : w.st.chain = rest
  indexed : ∀ b ∈ gone++rest, (w.st.blockIndex.lookup b.phashBlock).isSome = true
  failed : ∀ b ∈ gone, MarkedValid (w.st.status b.phashBlock)
  unmarked : ∀ b ∈ rest, w.st.status b.phashBlock &&& blockFailedMask = 0#32
  toMarkFailed : gone = [] ∧ w.toMarkFailed = pindex ∨ w.toMarkFailed ∈ gone

variable {w : InvalidateWalk}
namespace InvalidateWalk
variable {pindex tip : CBlockIndex} {gone rest pprev : IndexChain}
private theorem markTip_blockIndex (hbel : ∀ b ∈ pprev, b.phashBlock ≠ tip.phashBlock)
    (hunm : ∀ b ∈ pprev, w.st.status b.phashBlock &&& blockFailedMask = 0#32) :
    (w.markTip tip pprev).st.blockIndex =
      (w.st.setStatus tip.phashBlock (· ||| blockFailedValid)).blockIndex := by
  have hm : ({ w.st with chain := pprev }.setStatus tip.phashBlock (· ||| blockFailedValid)).blockIndex =
      (w.st.setStatus tip.phashBlock (· ||| blockFailedValid)).blockIndex := by
    simp only [ChainIndex.setStatus]
    split <;> rfl
  -- A block below the tip carries no mark yet, so the mark of the block above is never moved.
  have ht : pprev.head? = some w.toMarkFailed →
      (w.st.setStatus tip.phashBlock (· ||| blockFailedValid)).status w.toMarkFailed.phashBlock &&&
        blockFailedValid = 0#32 := by
    intro hh
    have hmem : w.toMarkFailed ∈ pprev := mem_of_mem_head? hh
    rw [ChainIndex.status_setStatus_of_ne (hbel _ hmem)]
    exact (unmarked_parts (hunm _ hmem)).1
  have hs : ∀ candidates, ∀ hash,
      ChainIndex.status { { w.st with chain := pprev }.setStatus tip.phashBlock (· ||| blockFailedValid) with
        candidates := candidates } hash =
      (w.st.setStatus tip.phashBlock (· ||| blockFailedValid)).status hash := by
    intro candidates hash
    simp [ChainIndex.status,hm]
  simp only [markTip]
  rw [if_neg]
  · exact hm
  · rintro ⟨hh,hma⟩
    rw [hs] at hma
    exact hma (ht hh)

theorem Marked.markTip (h : w.Marked pindex gone (tip::pprev))
    (hnd : ((gone++tip::pprev).map phashBlock).Nodup) :
    (w.markTip tip pprev).Marked pindex (tip::gone) pprev := by
  rw [map_append,nodup_append] at hnd
  have hbel : ∀ b ∈ pprev, b.phashBlock ≠ tip.phashBlock := by
    intro b hb heq
    exact (nodup_cons.mp hnd.2.1).1 (heq ▸ mem_map_of_mem hb)
  have ha : ∀ b ∈ gone, b.phashBlock ≠ tip.phashBlock := by
    intro b hb
    exact hnd.2.2 _ (mem_map_of_mem hb) _ mem_cons_self
  have hidx := markTip_blockIndex hbel fun b hb => h.unmarked b (mem_cons_of_mem _ hb)
  have hs : ∀ hash, (w.markTip tip pprev).st.status hash =
      (w.st.setStatus tip.phashBlock (· ||| blockFailedValid)).status hash := by
    intro hash
    simp [ChainIndex.status,hidx]
  refine ⟨?_,?_,?_,?_,.inr mem_cons_self⟩
  · simp only [InvalidateWalk.markTip]
    split <;> simp
  · intro b hb
    rw [hidx,ChainIndex.isSome_setStatus]
    refine h.indexed b ?_
    simp only [mem_cons,mem_append] at hb ⊢
    tauto
  · rw [forall_mem_cons]
    constructor
    · rw [hs,ChainIndex.status_setStatus_self (h.indexed tip (by simp))]
      exact markedValid_or (unmarked_parts (h.unmarked tip mem_cons_self)).2
    · intro b hb
      rw [hs,ChainIndex.status_setStatus_of_ne (ha b hb)]
      exact h.failed b hb
  · intro b hb
    rw [hs,ChainIndex.status_setStatus_of_ne (hbel b hb)]
    exact h.unmarked b (mem_cons_of_mem _ hb)

/-- How far the loop gets: the last block it disconnects is the tip of a chain that holds `pindex`. -/
theorem loop_marked (turn : Nat → InvalidateTurn) {disconnected : Nat} {w' : InvalidateWalk}
    (h : w.Marked pindex gone rest) (hnd : ((gone++rest).map phashBlock).Nodup)
    (hl : loop turn pindex rest disconnected w = (true, w')) :
    ∃ gone' rest', w'.Marked pindex gone' rest' ∧ gone'.reverse++rest' = gone.reverse++rest ∧
      (gone' = gone ∨ ∃ tip ∈ gone'.head?, ChainIndex.contains (tip::rest') pindex = true) := by
  induction rest generalizing gone w disconnected with
  | nil =>
    obtain rfl : w = w' := congrArg snd hl
    exact ⟨gone,[],h,rfl,.inl rfl⟩
  | cons tip pprev ih =>
    rw [loop] at hl
    split_ifs at hl with hsh hgone hstuck
    iterate 2
      obtain rfl : w = w' := congrArg snd hl
      exact ⟨gone,tip::pprev,h,rfl,.inl rfl⟩
    · exact absurd (congrArg fst hl) Bool.false_ne_true
    · have hp : ((tip::gone++pprev).map phashBlock).Nodup := (perm_middle.map phashBlock).nodup_iff.mp hnd
      obtain ⟨gone',rest',hm,hc,hla⟩ := ih (h.markTip hnd) hp hl
      refine ⟨gone',rest',hm,by simpa using hc,.inr ?_⟩
      rcases hla with rfl | hla
      · have hs : rest' = pprev := by simpa using hc
        exact ⟨tip,rfl,by simpa [hs] using hgone⟩
      · exact hla
end InvalidateWalk

/-- An active chain with a block of it, none of whose blocks is marked as failed. -/
structure ActiveChain (st : ChainIndex) (above : IndexChain) (pindex : CBlockIndex) (pprev : IndexChain) :
    Prop where
  chain : st.chain = above++pindex::pprev
  height : pindex.nHeight = pprev.length
  nodup : (st.chain.map phashBlock).Nodup
  indexed : ∀ b ∈ st.chain, (st.blockIndex.lookup b.phashBlock).isSome = true
  unmarked : ∀ b ∈ st.chain, st.status b.phashBlock &&& blockFailedMask = 0#32

/-- Only `pindex` is marked as failed itself; those above it are marked as children, and the chain ends
below it. -/
structure FlagsRight (st : ChainIndex) (above : IndexChain) (pindex : CBlockIndex) (pprev : IndexChain) :
    Prop where
  valid : ∀ b ∈ above++pindex::pprev,
    (st.status b.phashBlock &&& blockFailedValid ≠ 0#32 ↔ b = pindex)
  child : ∀ b ∈ above, st.status b.phashBlock &&& blockFailedChild ≠ 0#32 ∧
    st.status b.phashBlock &&& blockFailedValid = 0#32
  chain : st.chain = pprev

variable {pindex : CBlockIndex}
namespace InvalidateWalk
variable {gone rest : IndexChain}
theorem finish_eq_true (hf : w.finish = (true, st)) :
    ChainIndex.contains w.st.chain w.toMarkFailed = false ∧ st.chain = w.st.chain ∧
      ∀ hash, st.status hash =
        (w.st.setStatus w.toMarkFailed.phashBlock (· ||| blockFailedValid)).status hash := by
  unfold finish at hf
  split_ifs at hf with hc
  · exact absurd (congrArg fst hf) Bool.false_ne_true
  · obtain rfl := congrArg snd hf
    exact ⟨by simpa using hc,by simp [ChainIndex.invalidChainFound],fun hash => rfl⟩

theorem Marked.finish (h : w.Marked pindex gone rest) (hf : w.finish = (true, st))
    (hnd : ((gone++rest).map phashBlock).Nodup) (hl : w.toMarkFailed ∈ gone) :
    (∀ b ∈ gone, MarkedValid (st.status b.phashBlock)) ∧
      ∀ b ∈ rest, st.status b.phashBlock &&& blockFailedMask = 0#32 := by
  obtain ⟨-,-,hs⟩ := finish_eq_true hf
  rw [map_append,nodup_append] at hnd
  constructor
  · intro b hb
    rw [hs]
    by_cases heq : b.phashBlock = w.toMarkFailed.phashBlock
    · rw [heq,ChainIndex.status_setStatus_self (h.indexed _ (mem_append_left _ hl))]
      exact markedValid_or (h.failed _ hl).2
    · rw [ChainIndex.status_setStatus_of_ne heq]
      exact h.failed b hb
  · intro b hb
    have hne : w.toMarkFailed.phashBlock ≠ b.phashBlock := hnd.2.2 _ (mem_map_of_mem hl) _ (mem_map_of_mem hb)
    rw [hs,ChainIndex.status_setStatus_of_ne hne.symm]
    exact h.unmarked b hb
end InvalidateWalk

variable {above pprev : IndexChain}
theorem ActiveChain.contains {st : ChainIndex}
    (h : ActiveChain st above pindex pprev) : ChainIndex.contains st.chain pindex = true := by
  simp [ChainIndex.contains,h.chain,h.height]

theorem invalidateBlock_marked {turn : Nat → InvalidateTurn} {st st' : ChainIndex}
    (hact : ActiveChain st above pindex pprev) (hsu : invalidateBlock turn st pindex pprev = (true, st')) :
    ∃ tip gone, st.chain = gone.reverse++tip::st'.chain ∧ ChainIndex.contains (tip::st'.chain) pindex = true ∧
      (∀ b ∈ tip::gone, MarkedValid (st'.status b.phashBlock)) ∧
      ∀ b ∈ st'.chain, st'.status b.phashBlock &&& blockFailedMask = 0#32 := by
  simp only [invalidateBlock] at hsu
  split_ifs at hsu with hgen hloop
  · exact absurd (congrArg fst hsu) Bool.false_ne_true
  · have hs : InvalidateWalk.Marked ⟨st,pindex,st.candidateBlocks pprev⟩ pindex [] st.chain :=
      ⟨rfl,hact.indexed,by simp,hact.unmarked,.inl ⟨rfl,rfl⟩⟩
    obtain ⟨gone,rest,hm,hc,hl⟩ := InvalidateWalk.loop_marked turn hs hact.nodup (Prod.ext hloop rfl)
    obtain ⟨hco,hr,-⟩ := InvalidateWalk.finish_eq_true hsu
    rw [hm.chain] at hco hr
    have hnd : ((gone++rest).map phashBlock).Nodup := by
      have hpe : (gone++rest).Perm st.chain := by
        rw [← nil_append st.chain,← reverse_nil,← hc]
        exact (reverse_perm gone).symm.append_right rest
      exact (hpe.map _).nodup_iff.mpr hact.nodup
    cases gone with
    | nil =>
      -- Nothing was disconnected: the block is still in the chain and the call fails.
      rcases hm.toMarkFailed with ⟨-,hp⟩ | hmem
      · obtain rfl : rest = st.chain := by simpa using hc
        rw [hp,hact.contains] at hco
        exact absurd hco (by decide)
      · cases hmem
    | cons tip gone =>
      have htip : ChainIndex.contains (tip::rest) pindex = true := by
        rcases hl with hnil | ⟨last,hl,hco⟩
        · cases hnil
        · cases hl
          exact hco
      have hmem : _ ∈ tip::gone := hm.toMarkFailed.resolve_left fun hnil => by cases hnil.1
      obtain ⟨hf,hunm⟩ := hm.finish hsu hnd hmem
      rw [hr]
      exact ⟨tip,gone,by simpa using hc.symm,htip,hf,hunm⟩
  · exact absurd (congrArg fst hsu) Bool.false_ne_true

/-- `InvalidateBlock` leaves the right marks exactly if the block was the tip. -/
theorem invalidateBlock_flags_iff (turn : Nat → InvalidateTurn) {st st' : ChainIndex} {above pprev : IndexChain}
    (hactive : ActiveChain st above pindex pprev)
    (hsuccess : invalidateBlock turn st pindex pprev = (true, st')) :
    FlagsRight st' above pindex pprev ↔ above = [] := by
  obtain ⟨tip,gone,hchain,hcont,hfail,hunm⟩ := invalidateBlock_marked hactive hsuccess
  rw [hactive.chain] at hchain
  constructor
  · intro hright
    cases above with
    | nil => rfl
    | cons top above =>
      have htop : top ∈ tip::gone := by
        have hsplit : top::above++pindex::pprev = (tip::gone).reverse++st'.chain := by simpa using hchain
        have hhead := congrArg head? hsplit
        rw [head?_append_of_ne_nil _ (by simp : (tip::gone).reverse ≠ [])] at hhead
        exact mem_reverse.mp (mem_of_mem_head? hhead.symm)
      exact absurd (hright.child top mem_cons_self).2 (hfail top htop).1
  · rintro rfl
    rw [nil_append] at hchain
    have hgone : gone = [] := by
      have hlen := congrArg length hchain
      have hlong : pprev.length < (tip::st'.chain).length := by
        by_contra hshort
        have hnone : (tip::st'.chain).reverse[pindex.nHeight]? = none := by
          rw [hactive.height,getElem?_eq_none_iff,length_reverse]
          omega
        rw [ChainIndex.contains,hnone] at hcont
        exact absurd hcont (by simp)
      simp only [length_append,length_cons,length_reverse] at hlen hlong
      exact length_eq_zero_iff.mp (by omega)
    subst hgone
    obtain ⟨rfl,hrest⟩ := cons.inj hchain
    have hnd : ((pindex::pprev).map phashBlock).Nodup := by simpa [hactive.chain] using hactive.nodup
    refine ⟨?_,by simp,hrest.symm⟩
    rw [nil_append,forall_mem_cons]
    refine ⟨iff_of_true (hfail pindex mem_cons_self).1 rfl,fun b hb => ?_⟩
    have hclean := (unmarked_parts (hunm b (hrest ▸ hb))).1
    have hne : b ≠ pindex := by
      rintro rfl
      exact (nodup_cons.mp hnd).1 (mem_map_of_mem hb)
    exact iff_of_false (not_not.mpr hclean) hne

def numberedEntry (nHeight : Nat) : CBlockIndex :=
  { mainGenesis with phashBlock := BitVec.ofNat 256 nHeight, nHeight := nHeight, nChainWork := BitVec.ofNat 256 nHeight }
def numberedChain (length : Nat) : IndexChain := ((List.range length).map numberedEntry).reverse

def threeBlocks : ChainIndex where
  blockIndex := ((∅ : BlockMap).insert 0#256 ⟨numberedEntry 0, numberedChain 0, blockValidScripts⟩)
    |>.insert 1#256 ⟨numberedEntry 1, numberedChain 1, blockValidScripts⟩
    |>.insert 2#256 ⟨numberedEntry 2, numberedChain 2, blockValidScripts⟩
  bestHeader := some 2#256
  failedBlocks := []
  chain := numberedChain 3
  candidates := {2#256}
  bestInvalid := none
  nSequenceId _ := 0
  haveTxsDownloaded _ := true
  address hash := hash.toNat

theorem threeBlocks_active : ActiveChain threeBlocks [numberedEntry 2] (numberedEntry 1) (numberedChain 1) where
  chain := by decide
  height := by decide
  nodup := by decide
  indexed := by decide
  unmarked := by decide

theorem threeBlocks_flags :
    ∃ st', invalidateBlock (fun _ => ⟨false, true⟩) threeBlocks (numberedEntry 1) (numberedChain 1) = (true, st') ∧
      (FlagsRight st' [numberedEntry 2] (numberedEntry 1) (numberedChain 1) ↔ [numberedEntry 2] = []) := by
  have hsucc : (invalidateBlock (fun _ => ⟨false,true⟩) threeBlocks (numberedEntry 1)
      (numberedChain 1)).1 = true := by decide +kernel
  exact ⟨_,Prod.ext hsucc rfl,invalidateBlock_flags_iff _ threeBlocks_active (Prod.ext hsucc rfl)⟩

/-- The child of the invalidated block keeps the mark of a block that failed itself. -/
theorem child_markedValid :
    let after := invalidateBlock (fun _ => ⟨false,true⟩) threeBlocks (numberedEntry 1) (numberedChain 1)
    after.1 = true ∧ after.2.status 2#256 &&& blockFailedValid ≠ 0#32 ∧
      after.2.status 2#256 &&& blockFailedChild = 0#32 ∧
      ¬ FlagsRight after.2 [numberedEntry 2] (numberedEntry 1) (numberedChain 1) := by
  intro after
  have hmarks : after.1 = true ∧ after.2.status 2#256 &&& blockFailedValid ≠ 0#32 ∧
      after.2.status 2#256 &&& blockFailedChild = 0#32 := by
    decide +kernel
  refine ⟨hmarks.1,hmarks.2.1,hmarks.2.2,fun hright => ?_⟩
  exact hmarks.2.1 (hright.child (numberedEntry 2) mem_cons_self).2
end Lcryp
