import Lcryp.Chain.Headers
import Lcryp.Chain.VersionBits

/-!
# Targets of accepted headers

`ContextualCheckBlockHeader` compares times and versions but not the target.
-/
namespace Lcryp
open Run Option Finmap Prod
/-- Two block maps hold the same entries up to their status. -/
def SameBlocks (before after : BlockMap) : Prop :=
  ∀ hash, (after.lookup hash).map BlockNode.chain = (before.lookup hash).map BlockNode.chain
theorem SameBlocks.refl (blockIndex : BlockMap) : SameBlocks blockIndex blockIndex := fun _ => rfl

theorem markFailedChild_sameBlocks (walk : List Uint256) (blockIndex : BlockMap) :
    SameBlocks blockIndex (markFailedChild blockIndex walk) := by
  induction walk generalizing blockIndex with
  | nil => exact SameBlocks.refl blockIndex
  | cons hash rest ih =>
    cases hn : blockIndex.lookup hash with
    | none =>
      simp only [markFailedChild,hn]
      exact ih blockIndex
    | some node =>
      simp only [markFailedChild,hn]
      intro other
      rw [ih]
      by_cases h : other = hash
      · subst h
        rw [lookup_insert,hn]
        rfl
      · rw [lookup_insert_of_ne _ h]

/-- Everything `AcceptBlockHeader` checks before it stores a header. -/
structure HeaderAdmitted (env : HeaderEnv) (st : BlockManager) (now : Int) (block : CBlockHeader)
    (minPowChecked : Bool) (pindexPrev : BlockNode) : Prop where
  not_genesis : env.getHash block ≠ env.params.hashGenesisBlock
  fresh : st.blockIndex.lookup (env.getHash block) = none
  pow : checkBlockHeader env block = .ok ()
  parent : st.blockIndex.lookup block.hashPrevBlock = some pindexPrev
  parent_not_failed : pindexPrev.failed = false
  contextual : contextualCheckBlockHeader env st.blockIndex pindexPrev now block = .ok ()
  no_failed_ancestor : invalidatingAncestor st pindexPrev = none
  min_pow : minPowChecked = true

variable {env : HeaderEnv} {st : BlockManager} {block : CBlockHeader} {minPowChecked : Bool}
theorem acceptBlockHeader_admitted {now : Int}
    {pindexPrev : BlockNode} (h : HeaderAdmitted env st now block minPowChecked pindexPrev) :
    acceptBlockHeader env st now block minPowChecked = some (storeHeader env st block true) := by
  simp [acceptBlockHeader,h.fresh,h.pow,h.parent,h.parent_not_failed,
    h.contextual,h.no_failed_ancestor,h.min_pow]

variable {st' : BlockManager} {genesis : BlockNode}
theorem acceptBlockHeader_sameBlocks {now : Int} {result : Except BlockInvalid Uint256}
    (hg : st.blockIndex.lookup env.params.hashGenesisBlock = some genesis)
    (hno : ¬ ∃ pindexPrev, HeaderAdmitted env st now block minPowChecked pindexPrev)
    (h : acceptBlockHeader env st now block minPowChecked = some (result, st')) :
    SameBlocks st.blockIndex st'.blockIndex := by
  have hke : ∀ r, some (r, st) = some (result, st') → SameBlocks st.blockIndex st'.blockIndex := by
    intro r hr
    obtain ⟨_,rfl⟩ := mk.inj (some.inj hr)
    exact SameBlocks.refl _
  unfold acceptBlockHeader at h
  simp only at h
  split at h
  · rename_i hgen
    obtain rfl := congrArg snd (some.inj h)
    have hk : st.blockIndex.lookup (env.getHash block) = some genesis := by rw [hgen,hg]
    cases minPowChecked <;> simpa [storeHeader,addToBlockIndex,hk] using SameBlocks.refl _
  rename_i hgen
  split at h
  · split at h <;> exact hke _ h
  rename_i hs
  split at h
  · exact hke _ h
  rename_i hpow
  split at h
  · exact hke _ h
  rename_i pindexPrev hp
  split at h
  · exact hke _ h
  rename_i hfail
  split at h
  · exact hke _ h
  rename_i hctx
  split at h
  · rename_i hanc
    cases minPowChecked with
    | false => exact hke _ h
    | true =>
      refine (hno ⟨pindexPrev,hgen,hs,hpow,hp,?_,hctx,hanc,rfl⟩).elim
      simpa using hfail
  · split at h
    · cases h
    · obtain rfl := congrArg snd (some.inj h)
      exact markFailedChild_sameBlocks _ _

structure HeaderCall where
  now : Int
  block : CBlockHeader
  minPowChecked : Bool

def headerStep (env : HeaderEnv) (st : BlockManager) (call : HeaderCall) : Option BlockManager :=
  (acceptBlockHeader env st call.now call.block call.minPowChecked).map snd

def genesisManager (env : HeaderEnv) (genesis : CBlockIndex) : BlockManager where
  blockIndex := (∅ : BlockMap).insert env.params.hashGenesisBlock
    ⟨{ genesis with phashBlock := env.params.hashGenesisBlock }, [], blockValidTree⟩
  bestHeader := some env.params.hashGenesisBlock
  failedBlocks := []

/-- Every entry above genesis carries the target the regulator asks of its parent. -/
def TargetsRegulated (env : HeaderEnv) (st : BlockManager) : Prop :=
  ∀ hash node, st.blockIndex.lookup hash = some node → node.pprev ≠ [] →
    getNextWorkRequired env.params node.pprev = some node.index.nBits

def RegulatedCall (env : HeaderEnv) (st : BlockManager) (call : HeaderCall) : Prop :=
  ∀ pindexPrev, HeaderAdmitted env st call.now call.block call.minPowChecked pindexPrev →
    getNextWorkRequired env.params pindexPrev.chain = some call.block.nBits

private theorem targetsRegulated_congr (h : SameBlocks st.blockIndex st'.blockIndex) (hst : TargetsRegulated env st) :
    TargetsRegulated env st' := by
  intro hash node hnode hpprev
  have hs := h hash
  rw [hnode] at hs
  obtain ⟨before,hbef,hc⟩ := map_eq_some_iff.mp hs.symm
  obtain ⟨hidx,hbel⟩ := List.cons.inj hc
  rw [← hidx,← hbel]
  exact hst hash before hbef (hbel ▸ hpprev)

theorem BlockNode.raiseValidity_chain (node : BlockNode) (nUpTo : BitVec 32) :
    (node.raiseValidity nUpTo).chain = node.chain := by
  unfold raiseValidity
  split_ifs <;> rfl

variable {call : HeaderCall} (hgen : (st.blockIndex.lookup env.params.hashGenesisBlock).isSome)
  (h : headerStep env st call = some st')
include hgen h

/-- A call stores the block of an admitted header; otherwise it changes no block. -/
theorem headerStep_cases :
    (∃ pindexPrev node, HeaderAdmitted env st call.now call.block call.minPowChecked pindexPrev ∧
      node.chain = newBlockIndex (env.getHash call.block) pindexPrev.chain call.block::pindexPrev.chain ∧
      st'.blockIndex = st.blockIndex.insert (env.getHash call.block) node) ∨
    (¬ ∃ pindexPrev, HeaderAdmitted env st call.now call.block call.minPowChecked pindexPrev) ∧
      SameBlocks st.blockIndex st'.blockIndex := by
  obtain ⟨genesis,hgen⟩ := isSome_iff_exists.mp hgen
  obtain ⟨⟨result,after⟩,hacc,rfl⟩ := map_eq_some_iff.mp h
  by_cases hadm : ∃ pindexPrev, HeaderAdmitted env st call.now call.block call.minPowChecked pindexPrev
  · obtain ⟨pindexPrev,ha⟩ := hadm
    rw [acceptBlockHeader_admitted ha] at hacc
    obtain rfl := congrArg snd (some.inj hacc)
    refine .inl ⟨pindexPrev,_,ha,BlockNode.raiseValidity_chain ⟨_,_,0#32⟩ blockValidTree,?_⟩
    simp only [storeHeader,addToBlockIndex,ha.fresh,ha.parent]
    rfl
  · exact .inr ⟨hadm,acceptBlockHeader_sameBlocks hgen hadm hacc⟩

theorem headerStep_targetsRegulated_iff (hst : TargetsRegulated env st) :
    TargetsRegulated env st' ↔ RegulatedCall env st call := by
  rcases headerStep_cases hgen h with ⟨pindexPrev,node,ha,hchain,hmap⟩ | ⟨hadm,hsame⟩
  · obtain ⟨hidx,hpp⟩ := List.cons.inj hchain
    constructor
    · intro haf p hp
      cases ha.parent.symm.trans hp.parent
      rw [← hpp,haf (env.getHash call.block) node (by rw [hmap,lookup_insert]) (by simp [hpp,BlockNode.chain]),hidx]
      rfl
    · intro hc hash other hoth hbel
      rw [hmap] at hoth
      by_cases heq : hash = env.getHash call.block
      · subst heq
        rw [lookup_insert] at hoth
        cases hoth
        rw [hpp,hidx]
        exact hc pindexPrev ha
      · rw [lookup_insert_of_ne _ heq] at hoth
        exact hst hash other hoth hbel
  · constructor
    · intro _ p hp
      exact (hadm ⟨p,hp⟩).elim
    · intro _
      exact targetsRegulated_congr hsame hst

theorem headerStep_genesis : (st'.blockIndex.lookup env.params.hashGenesisBlock).isSome := by
  rcases headerStep_cases hgen h with ⟨pindexPrev,node,ha,-,hmap⟩ | ⟨-,hsame⟩
  · rw [hmap,lookup_insert_of_ne _ (Ne.symm ha.not_genesis)]
    exact hgen
  · rw [← isSome_map,hsame,isSome_map]
    exact hgen

omit hgen h

/-- Along every run of calls from the genesis block, all targets are regulated exactly when every
admitted header is. -/
theorem acceptBlockHeader_run_regulated_iff (env : HeaderEnv) (genesis : CBlockIndex)
    (calls : List HeaderCall) :
    EveryState (headerStep env) (TargetsRegulated env) (genesisManager env genesis) calls ↔
      EveryStep (headerStep env) (RegulatedCall env) (genesisManager env genesis) calls := by
  apply everyState_iff_everyStep (I := fun st => (st.blockIndex.lookup env.params.hashGenesisBlock).isSome)
  · intro st call st' hgen h
    exact headerStep_genesis hgen h
  · intro st call st' hgen hst h
    exact headerStep_targetsRegulated_iff hgen h hst
  · simp [genesisManager]
  · intro hash node hnode hpprev
    by_cases h : hash = env.params.hashGenesisBlock
    · subst h
      simp only [genesisManager,lookup_insert,some.injEq] at hnode
      subst hnode
      exact absurd rfl hpprev
    · simp [genesisManager,lookup_insert_of_ne _ h] at hnode

def nonceEnv : HeaderEnv where
  params := mainParams
  getHash := fun block => block.nNonce.setWidth 256
  fCheckpointsEnabled := true

/-- A header on the main genesis block with a target just below the one asked for. -/
def offTargetHeader : CBlockHeader where
  nVersion := 4
  hashPrevBlock := mainGenesisHash
  hashMerkleRoot := 0#256
  nTime := 1667197079#32
  nBits := 0x207ffffe#32
  nNonce := 1#32

/-- The header is accepted and stored although the regulator asks for another target. -/
theorem offTargetHeader_accepted :
    getNextWorkRequired mainParams [mainGenesis] = some 0x207fffff#32 ∧
      ((acceptBlockHeader nonceEnv (genesisManager nonceEnv mainGenesis) 1667197079 offTargetHeader
        true).map fun accepted => (accepted.1.toOption, (accepted.2.blockIndex.lookup 1#256).map
          fun node => (node.index.nBits, node.pprev))) =
        some (some 1#256, some (0x207ffffe#32, [mainGenesis])) := by
  decide

/-! ## The chains of accepted headers -/

/-- The genesis block is stored, and every block under its hash and on a chain of the tree. -/
def IndexOnTree (env : HeaderEnv) (st : BlockManager) : Prop :=
  (st.blockIndex.lookup env.params.hashGenesisBlock).isSome ∧
    ∀ hash node, st.blockIndex.lookup hash = some node →
      node.chain.head?.map (·.phashBlock) = hash ∧ node.chain.OnTree

theorem headerStep_indexOnTree (hst : IndexOnTree env st) (h : headerStep env st call = some st') :
    IndexOnTree env st' := by
  refine ⟨headerStep_genesis hst.1 h,fun hash node hnode => ?_⟩
  rcases headerStep_cases hst.1 h with ⟨pindexPrev,added,ha,hchain,hmap⟩ | ⟨-,hsame⟩
  · rw [hmap] at hnode
    by_cases heq : hash = env.getHash call.block
    · subst heq
      rw [lookup_insert] at hnode
      obtain rfl := some.inj hnode
      have ho := (hst.2 _ _ ha.parent).2
      have hc := ha.contextual
      rw [hchain]
      refine ⟨rfl,⟨congrArg Nat.succ ho.heights.1,ho.heights⟩,?_,ho.medianTime⟩
      change IndexChain.getMedianTimePast pindexPrev.chain < call.block.getBlockTime
      grind [contextualCheckBlockHeader]
    · rw [lookup_insert_of_ne _ heq] at hnode
      exact hst.2 _ _ hnode
  · have hs := hsame hash
    rw [hnode] at hs
    obtain ⟨before,hb,hc⟩ := map_eq_some_iff.mp hs.symm
    exact hc ▸ hst.2 _ _ hb

theorem acceptBlockHeader_run_onTree (env : HeaderEnv) (genesis : CBlockIndex) (calls : List HeaderCall) :
    EveryState (headerStep env) (IndexOnTree env) (genesisManager env { genesis with nHeight := 0 }) calls := by
  apply everyState_of_invariant (fun _ _ _ => headerStep_indexOnTree)
  refine ⟨by simp [genesisManager],fun hash node hnode => ?_⟩
  by_cases h : hash = env.params.hashGenesisBlock
  · subst h
    rw [genesisManager,lookup_insert] at hnode
    obtain rfl := some.inj hnode
    exact ⟨rfl,⟨rfl,trivial⟩,trivial⟩
  · simp [genesisManager,lookup_insert_of_ne _ h] at hnode
end Lcryp
