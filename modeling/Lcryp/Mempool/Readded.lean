import Lcryp.Mempool.Addition
import Lcryp.Mempool.Reorg

/-!
# Adding transactions again

Transactions of disconnected blocks spend confirmed outputs and outputs of one another, so they are added
to the pool with all their ancestors.
-/
namespace Lcryp
open Interaction Lineage List PoolView
/-- Transactions of disconnected blocks, parents first.  None is in the pool or spends what is spent
there, and they spend outputs of one another and of confirmed transactions. -/
structure Disconnected (env : MemPoolEnv) (pool : CTxMemPool) (entries : List CTxMemPoolEntry) : Prop where
  isNew : ∀ entry ∈ entries, entry.IsNew env
  distinct : (entries.map fun entry => env.getHash entry.tx).Nodup
  absent : ∀ entry ∈ entries, env.getHash entry.tx ∉ pool.mapTx
  unspent : ∀ entry ∈ entries, ∀ prevout ∈ entry.tx.prevouts, pool.mapNextTx.lookup prevout = none
  disjoint : entries.Pairwise fun first second =>
    ∀ prevout ∈ first.tx.prevouts, prevout ∉ second.tx.prevouts
  confirmed : ∀ entry ∈ entries, ∀ hash ∈ entry.tx.prevTxids, hash ∉ pool.mapTx
  notOwn : ∀ entry ∈ entries, env.getHash entry.tx ∉ entry.tx.prevTxids
  parentsFirst : entries.Pairwise fun first second => env.getHash second.tx ∉ first.tx.prevTxids
variable {env : MemPoolEnv} {pool next : CTxMemPool}
namespace CTxMemPool
variable (env : MemPoolEnv)

def idsOf (entries : List CTxMemPoolEntry) : List Uint256 :=
  entries.map fun entry => env.getHash entry.tx

variable (pool : CTxMemPool)

/-- A pool with transactions added again: their links to the transactions that were there before are
missing, and nothing else. -/
structure Readded (entries : List CTxMemPoolEntry) (next : CTxMemPool) : Prop where
  keyed : next.view.Keyed env next.txids
  linked : next.view.Linked env (Within next.view.Parent (idsOf env entries).toFinset) next.txids
  old : ∀ k, k ∉ idsOf env entries → next.view.data k = pool.view.data k
  added : ∀ entry ∈ entries, ∃ data, next.view.data (env.getHash entry.tx) = some data ∧ data.tx = entry.tx

theorem stageInputs_noLimit (staged : List Uint256) (prevouts : List COutPoint) :
    ∃ l, stageInputs pool .noLimit staged prevouts = .ok l := by
  induction prevouts generalizing staged with
  | nil => exact ⟨staged,rfl⟩
  | cons prevout rest ih =>
    rw [stageInputs]
    split
    · obtain ⟨l,hl⟩ := ih (staged.insert prevout.hash)
      exact ⟨l,require_bind_eq_ok.mpr ⟨exceeds_noLimit _,hl⟩⟩
    · exact ih staged

theorem calculateMemPoolAncestors_noLimit (entry : CTxMemPoolEntry) :
    ∃ setAncestors, calculateMemPoolAncestors env pool entry .noLimit true = .ok setAncestors := by
  obtain ⟨staged,hs⟩ := stageInputs_noLimit pool [] entry.tx.prevouts
  exact ⟨_,bind_eq_ok.mpr ⟨staged,hs,calculateAncestors_noLimit env _ _ _ _ _ _⟩⟩
end CTxMemPool

/-- The graph without the edges from the added transactions to the others grows by one node. -/
theorem PoolView.Growth.within_extended {env : MemPoolEnv} {v : PoolView} {txids added : Finset Uint256}
    {data : EntryData} {parents ancestors : List Uint256}
    (h : v.Growth env (Within v.Parent added) txids data parents ancestors)
    (hn : env.getHash data.tx ∉ data.tx.prevTxids) (hpa : ∀ p ∈ parents, p ∈ added)
    (hfst : ∀ b ∈ added, ∀ data', v.data b = some data' → env.getHash data.tx ∉ data'.tx.prevTxids) :
    Within (v.extended env data parents ancestors).Parent (insert (env.getHash data.tx) added) =
      grown (Within v.Parent added) parents (env.getHash data.tx) := by
  funext a b
  apply propext
  rw [grown,Within,Within]
  by_cases hb : b = env.getHash data.tx
  · subst hb
    have hold : ¬ v.Parent a (env.getHash data.tx) := fun hab => h.notMem (h.keyed.inside hab).2
    have hs : (v.extended env data parents ancestors).Parent a (env.getHash data.tx) ↔ a ∈ parents := by
      rw [h.mem_parents,h.keyed.mem]
      simp only [PoolView.Parent,extended_data_new,Option.some.injEq,exists_eq_left']
      refine and_congr_left fun ha => ?_
      rw [extended_data_old fun heq => hn (heq ▸ ha)]
    simp only [hs,Finset.mem_insert_self,iff_true,hold,false_and,false_or,and_true]
    exact and_iff_left_of_imp fun ha => Finset.mem_insert_of_mem (hpa a ha)
  · by_cases ha : a = env.getHash data.tx
    · subst ha
      have hold : ¬ v.Parent (env.getHash data.tx) b := fun hab => h.notMem (h.keyed.inside hab).1
      have hnot : env.getHash data.tx ∉ parents := fun hp => h.notMem (h.mem_of_parents hp)
      simp only [hold,hnot,false_and,iff_false,not_and,Finset.mem_insert_self,true_iff,
        Finset.mem_insert,hb,false_or]
      rintro ⟨_,data',hd,hsp⟩ hadded
      rw [extended_data_old hb] at hd
      exact hfst b hadded data' hd hsp
    · simp [PoolView.Parent,extended_data_old ha,extended_data_old hb,ha,hb]

variable {entries done rest : List CTxMemPoolEntry} {entry : CTxMemPoolEntry}
namespace Disconnected
variable {pool : CTxMemPool}
theorem notMem_done (h : Disconnected env pool (done++entry::rest)) :
    env.getHash entry.tx ∉ CTxMemPool.idsOf env done := by
  have hd := h.distinct
  rw [map_append] at hd
  exact fun hmem => disjoint_of_nodup_append hd hmem mem_cons_self
end Disconnected

namespace CTxMemPool
namespace Readded
theorem start (hc : pool.Consistent env) : pool.Readded env [] pool := by
  obtain ⟨hk,hl⟩ := consistent_iff.mp hc
  refine ⟨hk,?_,fun _ _ => rfl,by simp⟩
  have hw : Within pool.view.Parent (idsOf env []).toFinset = pool.view.Parent := by
    funext a b
    simp [Within,idsOf]
  rwa [hw]

theorem data_of_mem (h : pool.Readded env entries next) {k : Uint256} (hk : k ∈ idsOf env entries) :
    ∃ e ∈ entries, env.getHash e.tx = k ∧ ∃ data, next.view.data k = some data ∧ data.tx = e.tx := by
  obtain ⟨e,he,rfl⟩ := mem_map.mp hk
  exact ⟨e,he,rfl,h.added e he⟩

theorem parent_mem (h : pool.Readded env entries next) (hd : Disconnected env pool entries) {a b : Uint256}
    (hab : next.view.Parent a b) (hb : b ∈ idsOf env entries) : a ∈ idsOf env entries := by
  by_contra ha
  obtain ⟨e,he,_,data,hdt,htx⟩ := h.data_of_mem hb
  obtain ⟨hs,data',hda,hsp⟩ := hab
  cases hdt.symm.trans hda
  rw [h.old a ha,← mem_iff_data] at hs
  exact hd.confirmed e he a (htx ▸ hsp) hs

theorem unspent (h : pool.Readded env done next) (hc : pool.Consistent env)
    (hd : Disconnected env pool (done++entry::rest)) {prevout : COutPoint}
    (hp : prevout ∈ entry.tx.prevouts) : next.view.spender prevout = none := by
  rw [Option.eq_none_iff_forall_ne_some]
  intro tx hspr
  obtain ⟨k,data,hdt,rfl,hsp⟩ := (h.keyed.spender prevout tx).mp hspr
  by_cases hk : k ∈ idsOf env done
  · obtain ⟨e,he,_,data',hda,htx⟩ := h.data_of_mem hk
    cases hdt.symm.trans hda
    have hdi := (pairwise_append.mp hd.disjoint).2.2 e he entry mem_cons_self
    exact hdi prevout (htx ▸ hsp) hp
  · rw [h.old k hk] at hdt
    have hs := (hc.spender prevout data.tx).mpr ⟨k,data,hdt,rfl,hsp⟩
    rw [show pool.view.spender prevout = none from hd.unspent entry (by simp) prevout hp] at hs
    cases hs

theorem absent (h : pool.Readded env done next) (hd : Disconnected env pool (done++entry::rest)) :
    next.view.data (env.getHash entry.tx) = none := by
  rw [h.old _ hd.notMem_done,← Option.not_isSome_iff_eq_none,← mem_iff_data]
  exact hd.absent entry (by simp)
end Readded

theorem readd_yields (hc : pool.Consistent env) (hd : Disconnected env pool (done++entry::rest))
    (h : pool.Readded env done next) :
    PoolYields (readd env next entry) (pool.Readded env (done++[entry])) := by
  have hent : entry ∈ done++entry::rest := by simp
  obtain ⟨setAncestors,hanc⟩ := calculateMemPoolAncestors_noLimit env next entry
  obtain ⟨hnd,hmem⟩ := mem_calculateMemPoolAncestors h.linked hanc
  rw [readd,hanc]
  apply (addUnchecked_view h.keyed h.linked (hd.isNew entry hent) (h.absent hd)
    (fun prevout => h.unspent hc hd) (hd.notOwn entry hent) hnd hmem).mono
  rintro last ⟨data,parents,htx,_,_,hg,hv⟩
  have hids : (idsOf env (done++[entry])).toFinset =
      insert (env.getHash data.tx) (idsOf env done).toFinset := by
    simp [idsOf,htx]
  have ht : last.txids = insert (env.getHash data.tx) next.txids := by
    ext k
    rw [mem_txids_iff,hv,← hg.keyed_extended.mem]
  have hpa : ∀ p ∈ parents, p ∈ (idsOf env done).toFinset := by
    intro p hp
    obtain ⟨hin,hsp⟩ := (hg.mem_parents p).mp hp
    rw [mem_toFinset]
    by_contra hnot
    rw [mem_txids_iff,h.old p hnot,← mem_iff_data] at hin
    exact hd.confirmed entry hent p (htx ▸ hsp) hin
  have hfst : ∀ b ∈ (idsOf env done).toFinset, ∀ data', next.view.data b = some data' →
      env.getHash data.tx ∉ data'.tx.prevTxids := by
    intro b hb data' hda
    obtain ⟨e,he,_,data'',hdt,htx'⟩ := h.data_of_mem (mem_toFinset.mp hb)
    cases hda.symm.trans hdt
    rw [htx',htx]
    exact (pairwise_append.mp hd.parentsFirst).2.2 e he entry mem_cons_self
  have hw := hg.within_extended (htx ▸ hd.notOwn entry hent) hpa hfst
  constructor
  · rw [ht,hv]
    exact hg.keyed_extended
  · rw [ht,hids,hv,hw]
    exact hg.linked_extended
  · intro k hk
    have hne : k ≠ env.getHash data.tx := by
      rintro rfl
      exact hk (by simp [idsOf,htx])
    rw [hv,extended_data_old hne]
    refine h.old k fun hin => hk ?_
    rw [idsOf,map_append]
    exact mem_append_left _ hin
  · intro e he
    rw [mem_append,mem_singleton] at he
    rcases he with he | rfl
    · obtain ⟨data',hda,htx'⟩ := h.added e he
      have hne : env.getHash e.tx ≠ env.getHash data.tx := by
        intro heq
        rw [heq,htx,h.absent hd] at hda
        cases hda
      exact ⟨data',by rw [hv,extended_data_old hne,hda],htx'⟩
    · exact ⟨data,by rw [hv,← htx,extended_data_new],htx⟩

theorem readdAll_yields (hc : pool.Consistent env) (hd : Disconnected env pool entries) :
    PoolYields (entries.foldlM (readd env) pool) (pool.Readded env entries) := by
  apply Yields.foldlM (I := fun done next => pool.Readded env done next)
  · rintro done entry rest next rfl h
    exact readd_yields hc hd h
  · exact Readded.start hc
end CTxMemPool
end Lcryp
