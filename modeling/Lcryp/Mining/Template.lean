import Lcryp.Mempool.Operations
import Lcryp.Mining.Packages

/-!
# Soundness of block templates

Every turn of `addPackageTxs` keeps the template sound and the totals of the modified entries in step with
it, and lowers a measure.
-/
namespace Lcryp
open Relation Lineage CTxMemPool List BlockTemplate AList CTxMemPoolEntry Yields
/-! ## The block -/

def BlockTemplate.append (block : BlockTemplate) (iters : List Uint256)
    (entries : List CTxMemPoolEntry) : BlockTemplate where
  vtx := block.vtx++entries.map tx
  vTxFees := block.vTxFees++entries.map nFee
  vTxSigOpsCost := block.vTxSigOpsCost++entries.map sigOpCost
  nBlockWeight := block.nBlockWeight + (entries.map fun entry => entry.tx.weight).sum
  nBlockTx := block.nBlockTx + entries.length
  nBlockSigOpsCost := block.nBlockSigOpsCost + (entries.map sigOpCost).sum
  nFees := block.nFees + (entries.map nFee).sum
  inBlock := block.inBlock++iters

theorem addToBlock_loop {pool : CTxMemPool} {iters : List Uint256}
    (h : ∀ it ∈ iters, it ∈ pool.mapTx) (block : BlockTemplate) :
    Succeeds (iters.foldlM (BlockAssembler.addToBlock pool) block) fun next =>
      next = block.append iters (pool.entriesOf iters) := by
  induction iters generalizing block with
  | nil => exact of_ok (by simp [append,entriesOf])
  | cons it rest ih =>
    obtain ⟨entry,hget⟩ := exists_lookup (h it mem_cons_self)
    rw [foldlM_cons]
    have hfst : BlockAssembler.addToBlock pool block it = .ok (block.append [it] [entry]) := by
      rw [BlockAssembler.addToBlock,deref,hget]
      simp [append]
    rw [hfst]
    apply (ih (fun k hk => h k (mem_cons_of_mem _ hk)) _).mono
    intro next hn
    rw [hn,entriesOf_cons hget]
    simp [append,add_assoc,add_comm,add_left_comm]

structure BlockTemplate.Sound (asm : BlockAssembler) (pool : CTxMemPool) (block : BlockTemplate) : Prop where
  nodup : block.inBlock.Nodup
  mem : ∀ k ∈ block.inBlock, k ∈ pool.txids
  ancestorsFirst : ∀ done k rest, block.inBlock = done++k::rest → ∀ a, Beyond pool.view.Parent a k → a ∈ done
  vtx : block.vtx = (pool.entriesOf block.inBlock).map tx
  final : ∀ tx ∈ block.vtx, isFinalTx tx asm.nHeight asm.lockTimeCutoff = true
  nFees : block.nFees = ((pool.entriesOf block.inBlock).map nFee).sum
  nBlockWeight : block.nBlockWeight = 4000 + (block.vtx.map CTransaction.weight).sum
  nBlockSigOpsCost : block.nBlockSigOpsCost = 400 + ((pool.entriesOf block.inBlock).map sigOpCost).sum
  weightLimit : block.inBlock ≠ [] → block.nBlockWeight < asm.nBlockMaxWeight
  sigOpsLimit : block.nBlockSigOpsCost < maxBlockSigopsCost

namespace BlockAssembler
variable {asm : BlockAssembler} {pool : CTxMemPool}
variable (env : MemPoolEnv)
theorem sum_weight_le (entries : List CTxMemPoolEntry) :
    (((entries.map fun entry => entry.tx.weight).sum : Nat) : Int) ≤
      witnessScaleFactor * (entries.map fun entry => (entry.getTxSize env : Int)).sum := by
  induction entries with
  | nil => simp
  | cons entry rest ih =>
    simp only [map_cons,sum_cons,getTxSize,getVirtualTransactionSize,witnessScaleFactor] at ih ⊢
    omega

theorem sum_entries {l : List Uint256} (hnd : l.Nodup) (hl : ∀ it ∈ l, it ∈ pool.mapTx) :
    ((pool.entriesOf l).map fun entry => (entry.getTxSize env : Int)).sum =
        (∑ a ∈ l.toFinset, pool.view.ownTotals env a).1 ∧
      (((pool.entriesOf l).map sigOpCost).sum : Nat) = (∑ a ∈ l.toFinset, pool.view.ownTotals env a).2.2 := by
  rw [Prod.fst_sum,Prod.snd_sum,Prod.snd_sum,List.sum_toFinset _ hnd,
    List.sum_toFinset _ hnd,Nat.cast_list_sum,List.map_map]
  constructor
  · rw [map_entriesOf _ (fun it => (pool.view.ownTotals env it).1)
      (fun it entry hget => by rw [← ownTotals_of_lookup hget]; rfl) hl]
  · rw [map_entriesOf _ (fun it => (pool.view.ownTotals env it).2.2)
      (fun it entry hget => by rw [← ownTotals_of_lookup hget]; rfl) hl]

/-! ## The order of a package -/

theorem pairwise_sortForBlock (pool : CTxMemPool) (package : List Uint256) :
    (sortForBlock pool package).Pairwise (byAncestorCount pool) := by
  have : Std.Total (byAncestorCount pool) := ⟨fun a b => by simp only [byAncestorCount]; omega⟩
  have : IsTrans Uint256 (byAncestorCount pool) := ⟨fun a b c => by simp only [byAncestorCount]; omega⟩
  exact pairwise_insertionSort _ package

variable {k : Uint256}
open Classical in
theorem count_ancestors {env : MemPoolEnv} (hc : pool.Consistent env) (hk : k ∈ pool.txids) :
    ((pool.mapTx.lookup k).map nCountWithAncestors).getD 0 =
      ((pool.txids.filter (ReflTransGen (Function.swap pool.view.Parent) k)).card : Int) := by
  have hone : ∀ y ∈ pool.txids, (pool.view.forDescendants env y).1 = 1 := by
    intro y hy
    obtain ⟨data,hd⟩ := Option.isSome_iff_exists.mp (mem_txids_iff.mp hy)
    rw [PoolView.forDescendants,hd]
    rfl
  obtain ⟨entry,hget⟩ := exists_lookup (mem_txids.mp hk)
  have hst := (shows_of_lookup hget).ancestorState
  rw [hc.ancestorState k hk] at hst
  rw [← total_fst_eq_card hone,hst,hget]
  rfl

variable {a : Uint256}
theorem not_byAncestorCount {env : MemPoolEnv} (hc : pool.Consistent env)
    (h : Beyond pool.view.Parent a k) : ¬ byAncestorCount pool k a := by
  have ha : ∀ x, ¬ TransGen (Function.swap pool.view.Parent) x x := by
    intro x hx
    exact hc.acyclic x (transGen_swap.mp hx)
  have hlt := card_reached_lt ha (beyond_right_mem h) (beyond_swap.mpr h)
  simp only [byAncestorCount,count_ancestors hc (beyond_left_mem h),count_ancestors hc (beyond_right_mem h)]
  omega

/-! ## Including a package -/

variable {totals : PackageTotals} {package : List Uint256} {iter : Uint256}
section Include
variable {block : BlockTemplate}
theorem sortForBlock_perm (pool : CTxMemPool) (package : List Uint256) :
    (sortForBlock pool package).Perm package :=
  perm_insertionSort _ package

theorem sortForBlock_before (hc : pool.Consistent asm.memPool)
    {done rest : List Uint256} (hs : sortForBlock pool package = done++k::rest)
    (ha : a ∈ package) (h : Beyond pool.view.Parent a k) : a ∈ done := by
  have hmem : a ∈ done++k::rest := hs ▸ (sortForBlock_perm pool package).mem_iff.mpr ha
  have hp := pairwise_sortForBlock pool package
  rw [hs,pairwise_append,pairwise_cons] at hp
  rcases mem_append.mp hmem with hd | haf
  · exact hd
  · rcases mem_cons.mp haf with rfl | hr
    · exact absurd rfl h.1
    · exact absurd (hp.2.1.1 a hr) (not_byAncestorCount hc h)

theorem sound_append (hc : pool.Consistent asm.memPool) (hs : block.Sound asm pool)
    (hpackage : IsPackage pool block.inBlock iter package)
    (hf : asm.testPackageTransactions pool package = true) (ht : asm.testPackage block totals = true)
    (hsz : (∑ a ∈ package.toFinset, pool.view.ownTotals asm.memPool a).1 ≤ totals.1)
    (hsig : (∑ a ∈ package.toFinset, pool.view.ownTotals asm.memPool a).2.2 ≤ totals.2.2) :
    (block.append (sortForBlock pool package) (pool.entriesOf (sortForBlock pool package))).Sound
      asm pool := by
  have hp := sortForBlock_perm pool package
  have hnd := hp.nodup_iff.mpr hpackage.nodup
  have hmem : ∀ a ∈ sortForBlock pool package, a ∈ package := fun a => hp.mem_iff.mp
  have hpo : ∀ a ∈ sortForBlock pool package, a ∈ pool.mapTx :=
    fun a ha => mem_txids.mp (hpackage.mem_txids (hmem a ha))
  obtain ⟨hsi,hco⟩ := sum_entries asm.memPool hnd hpo
  rw [toFinset_eq_of_perm _ _ hp] at hsi hco
  have hwts := sum_weight_le asm.memPool (pool.entriesOf (sortForBlock pool package))
  simp only [testPackage,Bool.and_eq_true,decide_eq_true_eq] at ht
  constructor
  case nodup =>
    apply List.Nodup.append hs.nodup hnd
    intro a hb ha
    exact hpackage.not_mem_block (hmem a ha) hb
  case mem =>
    intro k hk
    rcases mem_append.mp hk with hk | hk
    · exact hs.mem k hk
    · exact hpackage.mem_txids (hmem k hk)
  case ancestorsFirst =>
    intro done k rest hsplit a ha
    -- a member of the package: its ancestors are in the package or were in the block
    have hm : ∀ mid, sortForBlock pool package = mid++k::rest → a ∈ block.inBlock++mid := by
      intro mid hso
      have hk : k ∈ package := hmem k (by rw [hso]; simp)
      rcases hpackage.closed hc.acyclic hk ha with hin | hin
      · exact mem_append_right _ (sortForBlock_before hc hso hin ha)
      · exact mem_append_left _ hin
    rcases append_eq_append_iff.mp hsplit with ⟨mid,rfl,hso⟩ | ⟨mid,hb,hso⟩
    · exact hm mid hso
    cases mid with
    | nil =>
      have hin := hm [] hso.symm
      rwa [hb,append_nil,append_nil] at hin
    | cons head tail =>
      cases hso
      exact hs.ancestorsFirst done k tail hb a ha
  case vtx => simp [append,entriesOf_append,hs.vtx]
  case final =>
    intro tx htx
    rcases mem_append.mp htx with htx | htx
    · exact hs.final tx htx
    · obtain ⟨entry,hent,rfl⟩ := mem_map.mp htx
      obtain ⟨it,hit,hget⟩ := mem_entriesOf.mp hent
      exact all_eq_true.mp hf entry (mem_entriesOf.mpr ⟨it,hmem it hit,hget⟩)
  case nFees => simp [append,entriesOf_append,hs.nFees]
  case nBlockWeight =>
    simp [append,hs.nBlockWeight,add_assoc,Function.comp_def]
  case nBlockSigOpsCost =>
    simp [append,entriesOf_append,hs.nBlockSigOpsCost,add_assoc]
  case weightLimit =>
    simp only [append,witnessScaleFactor] at ht hwts ⊢
    omega
  case sigOpsLimit =>
    simp only [append] at ht ⊢
    omega
end Include

/-! ## The invariant of the loop -/

/-- The totals of the modified entries.  Those of an entry that failed before may still count ancestors
that are in the block. -/
structure TotalsSound (asm : BlockAssembler) (pool : CTxMemPool) (st : PackageLoop) : Prop where
  exact : ∀ k totals, st.mapModifiedTx.lookup k = some totals → k ∉ st.failedTx →
    totals = pool.view.packageRest asm.memPool pool.txids st.block.inBlock.toFinset k
  bound : ∀ k totals, st.mapModifiedTx.lookup k = some totals →
    ∃ counted ⊆ st.block.inBlock.toFinset,
      totals = pool.view.packageRest asm.memPool pool.txids counted k

structure Invariant (asm : BlockAssembler) (pool : CTxMemPool) (st : PackageLoop) : Prop where
  sound : st.block.Sound asm pool
  totals : TotalsSound asm pool st
  known : ∀ k ∈ st.mapModifiedTx, k ∈ pool.txids ∧ k ∉ st.block.inBlock
  /-- Nothing of the package of an entry without modified totals is in the block. -/
  untouched : ∀ k ∈ pool.txids, k ∉ st.block.inBlock → k ∉ st.mapModifiedTx → k ∉ st.failedTx →
    ∀ a ∈ st.block.inBlock, ¬ Beyond pool.view.Parent a k
  index : ∀ k ∈ st.mi, k ∈ pool.txids

/-- Entries outside the block count more than all turns between two inclusions. -/
def measure (pool : CTxMemPool) (st : PackageLoop) : Nat :=
  (pool.mapTx.keys.length-st.block.inBlock.length) * (pool.mapTx.keys.length+1) + st.mi.length +
    st.mapModifiedTx.keys.length

theorem start_invariant (asm : BlockAssembler) (pool : CTxMemPool) : Invariant asm pool (asm.start pool) := by
  constructor
  case sound => constructor <;> simp [start,reset,entriesOf,maxBlockSigopsCost]
  case totals => constructor <;> simp [start]
  case known => simp [start]
  case untouched => simp [start,reset]
  case index =>
    intro k hk
    rw [mem_txids]
    exact (mem_insertionSort _).mp hk

theorem start_measure (asm : BlockAssembler) (pool : CTxMemPool) :
    measure pool (asm.start pool) < turns pool.mapTx.keys.length := by
  have hidx : (asm.start pool).mi.length = pool.mapTx.keys.length := length_insertionSort _ _
  simp only [measure,turns,hidx]
  simp [start]
variable {st : PackageLoop}
section Turns
variable (hinv : Invariant asm pool st)
include hinv

theorem Invariant.pop {it : Uint256} {mi : List Uint256} (hmi : st.mi = it::mi) :
    Invariant asm pool { st with mi := mi } ∧ measure pool { st with mi := mi } < measure pool st := by
  refine ⟨⟨hinv.sound,⟨hinv.totals.exact,hinv.totals.bound⟩,hinv.known,hinv.untouched,?_⟩,?_⟩
  · intro k hk
    exact hinv.index k (hmi ▸ mem_cons_of_mem _ hk)
  · simp only [measure,hmi,length_cons]
    omega

theorem Invariant.fail (iter : Uint256) (fUsingModified : Bool) :
    Invariant asm pool (failModified st iter fUsingModified) ∧
      measure pool (failModified st iter fUsingModified) ≤ measure pool st ∧
      (fUsingModified = true → iter ∈ st.mapModifiedTx →
        measure pool (failModified st iter fUsingModified) < measure pool st) := by
  cases fUsingModified with
  | false => exact ⟨hinv,le_refl _,nofun⟩
  | true =>
    have hm : measure pool (failModified st iter true) + st.mapModifiedTx.keys.length =
        measure pool st + (st.mapModifiedTx.keys.erase iter).length := by
      simp only [measure,failModified,if_true,keys_erase]
      omega
    refine ⟨⟨hinv.sound,⟨?exact,?bound⟩,?known,?untouched,hinv.index⟩,?_,?_⟩
    case exact =>
      intro k totals hk hfail
      obtain ⟨_,hk⟩ := lookup_of_lookup_erase hk
      exact hinv.totals.exact k totals hk fun hin => hfail (mem_insert_of_mem hin)
    case bound =>
      intro k totals hk
      exact hinv.totals.bound k totals (lookup_of_lookup_erase hk).2
    case known =>
      intro k hk
      exact hinv.known k (mem_erase.mp hk).2
    case untouched =>
      intro k hk hnew hmap hfail
      have hf : k ∉ st.failedTx := fun hin => hfail (mem_insert_of_mem hin)
      have hne : k ≠ iter := fun heq => hfail (heq ▸ mem_insert_self)
      exact hinv.untouched k hk hnew (fun hin => hmap (mem_erase.mpr ⟨hne,hin⟩)) hf
    · have hle := length_erase_le (a := iter) (l := st.mapModifiedTx.keys)
      omega
    · intro _ hin
      have hlt := length_erase_of_mem (mem_keys.mp hin)
      have hpos := length_pos_of_mem (mem_keys.mp hin)
      omega
end Turns

/-! ## A turn that includes a package -/

variable (hc : pool.Consistent asm.memPool)
section Inclusion
variable {map : ModifiedTxMap}
theorem descendant_not_mem_block (hinv : Invariant asm pool st)
    (hpackage : IsPackage pool st.block.inBlock iter package) (ha : a ∈ package)
    (h : Beyond pool.view.Parent a k) : k ∉ st.block.inBlock := by
  intro hk
  obtain ⟨done,rest,hs⟩ := append_of_mem hk
  have hd := hinv.sound.ancestorsFirst done k rest hs a h
  exact hpackage.not_mem_block ha (hs ▸ mem_append_left _ hd)

def Included (asm : BlockAssembler) (pool : CTxMemPool) (st : PackageLoop) (package : List Uint256)
    (map : ModifiedTxMap) : Prop :=
  ∀ k, map.lookup k = updatedTotals asm pool package
    ((sortForBlock pool package).foldl (fun map it => map.erase it) st.mapModifiedTx) package k

theorem Included.lookup_of_mem (hmap : Included asm pool st package map)
    (hk : k ∈ package) : map.lookup k = none := by
  have he := lookup_eraseAll (sortForBlock pool package) st.mapModifiedTx k
  rw [if_pos ((sortForBlock_perm pool package).mem_iff.mpr hk)] at he
  rw [hmap,updatedTotals_of_none he,if_neg fun h => h.1 hk]

theorem Included.lookup_of_not_mem (hmap : Included asm pool st package map) (hk : k ∉ package) :
    (∀ old, st.mapModifiedTx.lookup k = some old → map.lookup k =
        some (old - pool.view.ancestorTotals asm.memPool package.toFinset k)) ∧
      (st.mapModifiedTx.lookup k = none → (∃ a ∈ package, Beyond pool.view.Parent a k) →
        map.lookup k = some (poolTotals pool k - pool.view.ancestorTotals asm.memPool package.toFinset k)) ∧
      (st.mapModifiedTx.lookup k = none → (∀ a ∈ package, ¬ Beyond pool.view.Parent a k) →
        map.lookup k = none) := by
  have he := lookup_eraseAll (sortForBlock pool package) st.mapModifiedTx k
  rw [if_neg fun hin => hk ((sortForBlock_perm pool package).mem_iff.mp hin)] at he
  refine ⟨fun old hold => ?_,fun hn hanc => ?_,fun hn hanc => ?_⟩
  · rw [hmap,updatedTotals_of_some hk (he.trans hold)]
  · rw [hmap,updatedTotals_of_none (he.trans hn),if_pos ⟨hk,hanc⟩]
  · rw [hmap,updatedTotals_of_none (he.trans hn),if_neg]
    rintro ⟨_,a,ha,hbey⟩
    exact hanc a ha hbey
section Package
variable (hinv : Invariant asm pool st) (hpackage : IsPackage pool st.block.inBlock iter package)
include hc hinv hpackage

theorem included_totals (hmap : Included asm pool st package map) (hk : map.lookup k = some totals) :
    k ∈ pool.txids ∧ k ∉ st.block.inBlock ∧ k ∉ package ∧
      (k ∉ st.failedTx → totals = pool.view.packageRest asm.memPool pool.txids
        (st.block.inBlock.toFinset ∪ package.toFinset) k) ∧
      ∃ counted ⊆ st.block.inBlock.toFinset ∪ package.toFinset,
        totals = pool.view.packageRest asm.memPool pool.txids counted k := by
  have hout : k ∉ package := by
    intro hin
    rw [hmap.lookup_of_mem hin] at hk
    cases hk
  obtain ⟨hs,hnew,hn⟩ := hmap.lookup_of_not_mem hout
  have hsub : package.toFinset ⊆ pool.txids := fun a ha => hpackage.mem_txids (mem_toFinset.mp ha)
  have hd : Disjoint st.block.inBlock.toFinset package.toFinset := by
    rw [Finset.disjoint_right]
    intro a ha
    simpa using hpackage.not_mem_block (mem_toFinset.mp ha)
  cases hold : st.mapModifiedTx.lookup k with
  | some old =>
    have hkn := hinv.known k (lookup_isSome.mp (by rw [hold]; rfl))
    rw [hs old hold] at hk
    cases hk
    refine ⟨hkn.1,hkn.2,hout,fun hf => ?_,?_⟩
    · rw [hinv.totals.exact k old hold hf,packageRest_union hsub hd]
    · obtain ⟨counted,hcnt,hr⟩ := hinv.totals.bound k old hold
      refine ⟨counted ∪ package.toFinset,Finset.union_subset_union_left hcnt,?_⟩
      rw [hr,packageRest_union hsub (hd.mono_left hcnt)]
  | none =>
    by_cases hanc : ∃ a ∈ package, Beyond pool.view.Parent a k
    · obtain ⟨a,ha,hbey⟩ := hanc
      have hin := beyond_right_mem hbey
      have hbl := descendant_not_mem_block hinv hpackage ha hbey
      rw [hnew hold ⟨a,ha,hbey⟩,hc.poolTotals_sub hsub hin] at hk
      cases hk
      refine ⟨hin,hbl,hout,fun hf => ?_,package.toFinset,Finset.subset_union_right,rfl⟩
      -- no ancestor was in the block before
      have hbef := hinv.untouched k hin hbl (lookup_eq_none.mp hold) hf
      apply packageRest_congr
      intro b hb
      rw [Finset.mem_union,mem_toFinset,mem_toFinset]
      exact ⟨.inr,fun h => h.resolve_left fun hin => hbef b hin hb⟩
    · rw [hn hold fun a ha hbey => hanc ⟨a,ha,hbey⟩] at hk
      cases hk

theorem addPackage_succeeds (hf : asm.testPackageTransactions pool package = true)
    (ht : asm.testPackage st.block totals = true)
    (hsi : (∑ a ∈ package.toFinset, pool.view.ownTotals asm.memPool a).1 ≤ totals.1)
    (hsig : (∑ a ∈ package.toFinset, pool.view.ownTotals asm.memPool a).2.2 ≤ totals.2.2) :
    Succeeds (asm.addPackage pool st package) fun next =>
      Invariant asm pool next ∧ measure pool next < measure pool st := by
  have hp := sortForBlock_perm pool package
  have hpo : ∀ a ∈ sortForBlock pool package, a ∈ pool.mapTx :=
    fun a ha => mem_txids.mp (hpackage.mem_txids (hp.mem_iff.mp ha))
  apply bind (addToBlock_loop hpo st.block)
  rintro _ rfl
  apply bind (updatePackagesForAdded_succeeds hc hpackage.nodup (fun _ => hpackage.mem_txids) _)
  intro updated hmap
  have hinc : Included asm pool st package updated.1 := hmap
  have hs := sound_append hc hinv.sound hpackage hf ht hsi hsig
  have hset : (st.block.inBlock++sortForBlock pool package).toFinset =
      st.block.inBlock.toFinset ∪ package.toFinset := by
    rw [toFinset_append,toFinset_eq_of_perm _ _ hp]
  have hkn : ∀ k ∈ updated.1,
      k ∈ pool.txids ∧ k ∉ st.block.inBlock++sortForBlock pool package := by
    intro k hk
    obtain ⟨totals,hget⟩ := Option.isSome_iff_exists.mp (lookup_isSome.mpr hk)
    obtain ⟨hin,hb,hout,_⟩ := included_totals hc hinv hpackage hinc hget
    rw [mem_append,hp.mem_iff]
    exact ⟨hin,not_or.mpr ⟨hb,hout⟩⟩
  refine ⟨⟨hs,⟨?exact,?bound⟩,hkn,?untouched,hinv.index⟩,?measure⟩
  case exact =>
    intro k totals hk hfail
    obtain ⟨_,_,_,he,_⟩ := included_totals hc hinv hpackage hinc hk
    exact (he hfail).trans (by rw [← hset]; rfl)
  case bound =>
    intro k totals hk
    obtain ⟨_,_,_,_,counted,hcnt,hr⟩ := included_totals hc hinv hpackage hinc hk
    exact ⟨counted,by rw [← hset] at hcnt; exact hcnt,hr⟩
  case untouched =>
    intro k hk hnew hmapped hfail a ha hbey
    obtain ⟨hb,hout⟩ := not_or.mp (mt mem_append.mpr hnew)
    rw [hp.mem_iff] at hout
    have hget := lookup_eq_none.mpr hmapped
    obtain ⟨hso,hanc,_⟩ := hinc.lookup_of_not_mem hout
    cases hold : st.mapModifiedTx.lookup k with
    | some old =>
      rw [hso old hold] at hget
      cases hget
    | none =>
      rcases mem_append.mp ha with ha | ha
      · exact hinv.untouched k hk hb (lookup_eq_none.mp hold) hfail a ha hbey
      · rw [hanc hold ⟨a,hp.mem_iff.mp ha,hbey⟩] at hget
        cases hget
  case measure =>
    have hlen : (st.block.inBlock++sortForBlock pool package).length ≤ pool.mapTx.keys.length :=
      (hs.nodup.subperm fun k hk => mem_keys.mp (mem_txids.mp (hs.mem k hk))).length_le
    have hke : updated.1.keys.length ≤ pool.mapTx.keys.length := by
      refine (updated.1.keys_nodup.subperm fun k hk => ?_).length_le
      exact mem_keys.mp (mem_txids.mp (hkn k (mem_keys.mpr hk)).1)
    have hpos : 0 < (sortForBlock pool package).length := by
      rw [hp.length_eq]
      exact length_pos_of_mem ((hpackage.mem_iff iter).mpr (.inl rfl))
    rw [length_append] at hlen
    have hfe := Nat.mul_le_mul_right (pool.mapTx.keys.length+1)
      (show pool.mapTx.keys.length - (st.block.inBlock.length + (sortForBlock pool package).length) + 1
        ≤ pool.mapTx.keys.length - st.block.inBlock.length by omega)
    simp only [measure,append,length_append]
    rw [Nat.add_mul] at hfe
    omega
end Package
end Inclusion

/-! ## All turns -/

theorem firstModified_lookup {map : ModifiedTxMap} {modit : Sigma fun _ => PackageTotals}
    (h : asm.firstModified pool map.entries = some modit) : map.lookup modit.1 = some modit.2 := by
  have hch : ∀ first item, asm.better pool first item = first ∨ asm.better pool first item = item := by
    intro first item
    unfold better
    split <;> simp
  have hmem : modit ∈ map.entries := by
    unfold firstModified at h
    split at h
    · cases h
    next item rest hents =>
      rw [hents,← Option.some.inj h]
      exact Search.foldl_choice_mem hch rest item
  exact mem_lookup_iff.mpr hmem

abbrev Advances (asm : BlockAssembler) (pool : CTxMemPool) := Turn.Lowers (Invariant asm pool) (measure pool)

section AllTurns
theorem countFailure_lowers {st first : PackageLoop} (hinv : Invariant asm pool st)
    (hm : measure pool st < measure pool first) :
    Advances asm pool first (asm.countFailure st) := by
  have hcnt : Invariant asm pool { st with nConsecutiveFailed := st.nConsecutiveFailed + 1 } :=
    ⟨hinv.sound,⟨hinv.totals.exact,hinv.totals.bound⟩,hinv.known,hinv.untouched,hinv.index⟩
  unfold countFailure
  simp only
  split
  · exact hcnt
  · exact ⟨hcnt,hm⟩

include hc

theorem tryPackage_succeeds {first : PackageLoop} {iter : Uint256}
    {fUsingModified : Bool} (hinv : Invariant asm pool st) (hi : iter ∈ pool.txids)
    (hnew : iter ∉ st.block.inBlock)
    (ht : ∃ counted ⊆ st.block.inBlock.toFinset,
      totals = pool.view.packageRest asm.memPool pool.txids counted iter)
    (hm : measure pool st ≤ measure pool first)
    (hl : fUsingModified = true ∧ iter ∈ st.mapModifiedTx ∨ measure pool st < measure pool first) :
    Succeeds (asm.tryPackage pool st iter totals fUsingModified) (Advances asm pool first) := by
  obtain ⟨hf,hfa,hfi⟩ := hinv.fail iter fUsingModified
  have hfail : measure pool (failModified st iter fUsingModified) < measure pool first := by
    rcases hl with ⟨hu,hin⟩ | hlt
    · exact lt_of_lt_of_le (hfi hu hin) hm
    · exact lt_of_le_of_lt hfa hlt
  apply Yields.bind (Yields.require hnew)
  intro _ _
  split
  · exact of_ok hinv
  split
  · exact of_ok (countFailure_lowers hf hfail)
  next hte =>
    obtain ⟨entry,hget,_⟩ := exists_entry hi
    apply bind (deref_succeeds hget)
    rintro entry rfl
    dsimp only
    split
    · exact of_ok ⟨hf,hfail⟩
    next hfn =>
      have hpackage := packageOf_isPackage hc hget hnew
      obtain ⟨counted,hcnt,rfl⟩ := ht
      obtain ⟨hs,hsig⟩ := packageRest_anti asm.memPool pool.view pool.txids hcnt iter
      rw [← hpackage.sum_eq_rest] at hs hsig
      apply bind (addPackage_succeeds hc hinv hpackage (by simpa using hfn) (by simpa using hte) hs hsig)
      rintro next ⟨hn,hlt⟩
      exact of_ok ⟨hn,lt_of_lt_of_le hlt hm⟩

theorem turn_succeeds (hinv : Invariant asm pool st) :
    Succeeds (asm.turn pool st) (Advances asm pool st) := by
  have hm : ∀ modit, asm.firstModified pool st.mapModifiedTx.entries = some modit →
      Succeeds (asm.tryPackage pool st modit.1 modit.2 true) (Advances asm pool st) := by
    intro modit hmodit
    have hget := firstModified_lookup hmodit
    have hin : modit.1 ∈ st.mapModifiedTx := lookup_isSome.mp (by rw [hget]; rfl)
    obtain ⟨hk,hnew⟩ := hinv.known modit.1 hin
    exact tryPackage_succeeds hc hinv hk hnew (hinv.totals.bound modit.1 modit.2 hget)
      (le_refl _) (.inl ⟨rfl,hin⟩)
  unfold turn
  cases hmi : st.mi with
  | nil =>
    cases hfst : asm.firstModified pool st.mapModifiedTx.entries with
    | none => exact of_ok hinv
    | some modit => exact hm modit hfst
  | cons it mi =>
    obtain ⟨hp,hl⟩ := hinv.pop hmi
    dsimp only
    split
    · exact of_ok ⟨hp,hl⟩
    next hs =>
      rw [not_or,not_or] at hs
      have hit : it ∈ pool.txids := hinv.index it (by rw [hmi]; exact mem_cons_self)
      have hidx : Succeeds (asm.tryPackage pool { st with mi := mi } it (poolTotals pool it) false)
          (Advances asm pool st) := by
        refine tryPackage_succeeds hc hp hit hs.2.1 ?_ (le_of_lt hl) (.inr hl)
        exact ⟨∅,Finset.empty_subset _,hc.poolTotals_eq_rest hit⟩
      cases hfst : asm.firstModified pool st.mapModifiedTx.entries with
      | none => exact hidx
      | some modit =>
        dsimp only
        split
        · exact hm modit hfst
        · exact hidx
end AllTurns
end BlockAssembler

open BlockAssembler
/-- `addPackageTxs` ends without a failed assertion and leaves a sound template. The totals of modified
entries are exact, except that those of entries that failed may still count ancestors in the block. -/
theorem addPackageTxs_sound (asm : BlockAssembler) (pool : CTxMemPool) (hc : pool.Consistent asm.memPool) :
    (∃ result, asm.addPackageTxs pool = .ok (some result) ∧ result.block.Sound asm pool) ∧
      ∀ st, Reached (asm.turn pool) (asm.start pool) st → TotalsSound asm pool st := by
  have hturn : ∀ st, Invariant asm pool st → Succeeds (asm.turn pool st) (Advances asm pool st) :=
    fun _ hst => turn_succeeds hc hst
  constructor
  · have hloop := iterate_yields hturn (start_invariant asm pool) (start_measure asm pool)
    obtain ⟨_,hok,result,rfl,hres⟩ := Succeeds.exists_ok hloop
    exact ⟨result,hok,hres.sound⟩
  · intro st hreached
    exact (Reached.invariant hturn (start_invariant asm pool) hreached).totals

/-! ## A child that fails between its parents -/

def exactFeeLess (a b : AncestorScore) : Bool :=
  let rate := fun (s : AncestorScore) =>
    if s.modifiedFee * s.nSizeWithAncestors > s.nModFeesWithAncestors * s.txSize then
      (s.nModFeesWithAncestors, s.nSizeWithAncestors)
    else (s.modifiedFee, (s.txSize : Int))
  let f1 := (rate a).1 * (rate b).2
  let f2 := (rate a).2 * (rate b).1
  if f1 = f2 then decide (hashOrder a.txid < hashOrder b.txid) else decide (f1 > f2)

def assemblerWith (optionMaxWeight : Nat) : BlockAssembler where
  memPool := lockTimeEnv
  getFee rate size := rate.nRypsPerK * size / 1000
  ancestorFeeLess := exactFeeLess
  blockMinFeeRate := ⟨1000⟩
  optionMaxWeight := optionMaxWeight
  nHeight := 100
  lockTimeCutoff := 0

def addFork : List PoolOp :=
  [.addUnchecked (spendingTx 1 8) 600 0 4 defaultLimits,.addUnchecked (spendingTx 2 9) 300 0 4 defaultLimits,
    .addUnchecked ⟨[⟨⟨1, 0⟩, [], 0xffffffff#32, []⟩, ⟨⟨2, 0⟩, [], 0xffffffff#32, []⟩], [⟨1000, []⟩], 2, 3⟩
      100000 0 4 defaultLimits]

def forkPool : CTxMemPool := (CTxMemPool.run lockTimeEnv .empty addFork).toOption.getD .empty
theorem forkPool_consistent : forkPool.Consistent lockTimeEnv := consistent_of_admitted (by decide +kernel)
theorem forkPool_template :
    forkPool.Consistent lockTimeEnv ∧
      ∃ result, (assemblerWith 1000000).addPackageTxs forkPool = .ok (some result) ∧
        result.block.Sound (assemblerWith 1000000) forkPool :=
  ⟨forkPool_consistent,(addPackageTxs_sound (assemblerWith 1000000) forkPool forkPool_consistent).1⟩

/-- The child fails after its first parent is included; the second brings it back with totals that count the
first. And a block without room has only the reserve, which is not below the limit. -/
theorem failed_totals_inexact :
    forkPool.Consistent lockTimeEnv ∧
      (∃ st, Reached ((assemblerWith 4600).turn forkPool) ((assemblerWith 4600).start forkPool) st ∧
        ∃ k totals, st.mapModifiedTx.lookup k = some totals ∧
          totals ≠ forkPool.view.packageRest lockTimeEnv forkPool.txids st.block.inBlock.toFinset k) ∧
      ((assemblerWith 0).addPackageTxs .empty).toOption.join.map (fun result =>
        decide (result.block.nBlockWeight < (assemblerWith 0).nBlockMaxWeight)) = some false := by
  refine ⟨forkPool_consistent,?_,by decide +kernel⟩
  have hrun : (afterTurns ((assemblerWith 4600).turn forkPool) 4
      ((assemblerWith 4600).start forkPool)).map (fun st =>
        (st.block.inBlock, st.mapModifiedTx.lookup 3)) = some ([1,2], some (161, 100600, 8)) := by
    decide +kernel
  obtain ⟨st,hst,heq⟩ := Option.map_eq_some_iff.mp hrun
  obtain ⟨hblock,htotals⟩ := Prod.mk.inj heq
  refine ⟨st,Reached.of_afterTurns hst,3,_,htotals,?_⟩
  rw [hblock,PoolView.packageRest,PoolView.ancestorTotals_eq_zero]
  · decide
  · intro a ha hbey
    rw [Finset.mem_singleton.mp ha] at hbey
    exact hbey.1 rfl
end Lcryp
