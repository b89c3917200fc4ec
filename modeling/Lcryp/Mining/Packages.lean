import Lcryp.Mempool.Removal
import Lcryp.Mining.BlockAssembler

/-!
# Packages and their totals

The package of an entry is the entry with its ancestors that are not in the block yet.
-/
namespace Lcryp
open Relation Lineage Classical Finset PoolView BlockAssembler
variable {v : PoolView}
namespace PoolView
variable (env : MemPoolEnv)
def ownTotals (v : PoolView) (it : Uint256) : PackageTotals := (v.forDescendants env it).2
noncomputable def ancestorTotals (v : PoolView) (set : Finset Uint256) (it : Uint256) : PackageTotals :=
  ∑ a ∈ set with Beyond v.Parent a it, v.ownTotals env a

noncomputable def packageRest (v : PoolView) (txids included : Finset Uint256) (it : Uint256) : PackageTotals :=
  v.ownTotals env it + v.ancestorTotals env (txids \ included) it

variable {set : Finset Uint256}
theorem ancestorTotals_eq_zero {it : Uint256}
    (h : ∀ a ∈ set, ¬ Beyond v.Parent a it) : v.ancestorTotals env set it = 0 := by
  apply sum_eq_zero
  intro a ha
  exact absurd (mem_filter.mp ha).2 (h a (mem_filter.mp ha).1)

theorem ancestorTotals_insert {a : Uint256} (ha : a ∉ set) (it : Uint256) :
    v.ancestorTotals env (insert a set) it = v.ancestorTotals env set it +
      if Beyond v.Parent a it then v.ownTotals env a else 0 := by
  rw [ancestorTotals,ancestorTotals,sum_filter,sum_insert ha,sum_filter,add_comm]
end PoolView

variable {pool : CTxMemPool}
namespace CTxMemPool
variable {env : MemPoolEnv}
variable {it : Uint256} {entry : CTxMemPoolEntry}
theorem deref_succeeds (h : pool.mapTx.lookup it = some entry) : Succeeds (pool.deref it) fun found => found = entry := by
  rw [deref,h]
  exact Yields.of_ok rfl

theorem ownTotals_of_lookup (h : pool.mapTx.lookup it = some entry) : entry.ownTotals env = pool.view.ownTotals env it := by
  rw [ownTotals,forDescendants,(shows_of_lookup h).data]
  rfl

theorem poolTotals_eq (it : Uint256) : poolTotals pool it = (pool.view.ancestorState it).2 := by
  simp only [poolTotals,view]
  cases pool.mapTx.lookup it <;> rfl

variable {included : Finset Uint256}
theorem Consistent.poolTotals_sub (hc : pool.Consistent env)
    (hsub : included ⊆ pool.txids) (hit : it ∈ pool.txids) :
    poolTotals pool it - pool.view.ancestorTotals env included it =
      pool.view.packageRest env pool.txids included it := by
  have ht : poolTotals pool it =
      total (Function.swap pool.view.Parent) pool.txids (pool.view.ownTotals env) it := by
    rw [poolTotals_eq,hc.ancestorState it hit,total,Prod.snd_sum]
    rfl
  have hs := total_sub_beyond (R := Function.swap pool.view.Parent) (w := pool.view.ownTotals env) hsub hit
  simp only [beyond_swap] at hs
  rw [ht,ancestorTotals,hs]
  rfl

theorem Consistent.poolTotals_eq_rest (hc : pool.Consistent env) (hit : it ∈ pool.txids) :
    poolTotals pool it = pool.view.packageRest env pool.txids ∅ it := by
  rw [← hc.poolTotals_sub (empty_subset _) hit,ancestorTotals_eq_zero env (by simp),sub_zero]

theorem packageRest_union {txids added : Finset Uint256}
    (had : added ⊆ txids) (hd : Disjoint included added) (it : Uint256) :
    v.packageRest env txids included it - v.ancestorTotals env added it =
      v.packageRest env txids (included ∪ added) it := by
  have hsub : added ⊆ txids \ included := by
    intro a ha
    exact mem_sdiff.mpr ⟨had ha,disjoint_right.mp hd ha⟩
  have hl : txids \ (included ∪ added) = (txids \ included) \ added := by
    ext a
    simp [and_assoc]
  have hs : v.ancestorTotals env (txids \ included) it =
      v.ancestorTotals env (txids \ (included ∪ added)) it + v.ancestorTotals env added it := by
    simp only [ancestorTotals,hl,sum_filter]
    exact (sum_sdiff hsub).symm
  rw [packageRest,packageRest,hs]
  abel

theorem packageRest_congr {txids included' : Finset Uint256}
    (h : ∀ a, Beyond v.Parent a it → (a ∈ included ↔ a ∈ included')) :
    v.packageRest env txids included it = v.packageRest env txids included' it := by
  rw [packageRest]
  congr 1
  apply sum_congr _ fun _ _ => rfl
  ext a
  simp only [mem_filter,mem_sdiff]
  constructor
  · rintro ⟨⟨ha,hout⟩,hbey⟩
    exact ⟨⟨ha,fun hin => hout ((h a hbey).mpr hin)⟩,hbey⟩
  · rintro ⟨⟨ha,hout⟩,hbey⟩
    exact ⟨⟨ha,fun hin => hout ((h a hbey).mp hin)⟩,hbey⟩

theorem packageRest_anti (env : MemPoolEnv) (v : PoolView) (txids : Finset Uint256)
    {counted : Finset Uint256} (hsub : counted ⊆ included) (it : Uint256) :
    (v.packageRest env txids included it).1 ≤ (v.packageRest env txids counted it).1 ∧
      (v.packageRest env txids included it).2.2 ≤ (v.packageRest env txids counted it).2.2 := by
  have hnn : ∀ a, 0 ≤ (v.ownTotals env a).1 ∧ 0 ≤ (v.ownTotals env a).2.2 := by
    intro a
    rw [ownTotals,forDescendants]
    cases v.data a with
    | none => exact ⟨le_refl _,le_refl _⟩
    | some data => exact ⟨Int.natCast_nonneg _,Int.natCast_nonneg _⟩
  have hf : (txids \ included).filter (fun a => Beyond v.Parent a it) ⊆
      (txids \ counted).filter fun a => Beyond v.Parent a it :=
    filter_subset_filter _ (sdiff_subset_sdiff (Finset.Subset.refl _) hsub)
  simp only [packageRest,ancestorTotals,Prod.fst_add,Prod.snd_add,Prod.fst_sum,Prod.snd_sum]
  constructor
  · apply add_le_add (le_refl _)
    exact sum_le_sum_of_subset_of_nonneg hf fun a _ _ => (hnn a).1
  · apply add_le_add (le_refl _)
    exact sum_le_sum_of_subset_of_nonneg hf fun a _ _ => (hnn a).2
end CTxMemPool

namespace BlockAssembler
open CTxMemPool
variable {asm : BlockAssembler}
structure IsPackage (pool : CTxMemPool) (inBlock : List Uint256) (iter : Uint256)
    (package : List Uint256) : Prop where
  nodup : package.Nodup
  mem_iff : ∀ a, a ∈ package ↔ a = iter ∨ Beyond pool.view.Parent a iter ∧ a ∉ inBlock
  iter_mem : iter ∈ pool.txids
  iter_new : iter ∉ inBlock

theorem packageOf_isPackage (hc : pool.Consistent asm.memPool) {block : BlockTemplate} {entry : CTxMemPoolEntry}
    {iter : Uint256} (hget : pool.mapTx.lookup iter = some entry) (hnew : iter ∉ block.inBlock) :
    IsPackage pool block.inBlock iter (asm.packageOf pool block entry iter) := by
  have hk := hc.keyed iter entry.data (shows_of_lookup hget).data
  obtain ⟨hl,hmem⟩ := listed_ancestors asm.memPool hc.parents hc.acyclic hk
  have hin : iter ∈ pool.txids := mem_txids_iff.mpr (by rw [(shows_of_lookup hget).data]; rfl)
  refine ⟨(hl.nodup.filter _).insert,fun a => ?_,hin,hnew⟩
  simp [packageOf,onlyUnconfirmed,hmem]
namespace IsPackage
variable {inBlock package : List Uint256} {iter a b : Uint256}
  (h : IsPackage pool inBlock iter package)
include h

theorem mem_txids (ha : a ∈ package) : a ∈ pool.txids := by
  rcases (h.mem_iff a).mp ha with rfl | ⟨hbey,_⟩
  · exact h.iter_mem
  · exact beyond_left_mem hbey

theorem not_mem_block (ha : a ∈ package) : a ∉ inBlock := by
  rcases (h.mem_iff a).mp ha with rfl | ⟨_,hnew⟩
  · exact h.iter_new
  · exact hnew

theorem closed (hac : ∀ k, ¬ TransGen pool.view.Parent k k) (ha : a ∈ package)
    (hb : Beyond pool.view.Parent b a) : b ∈ package ∨ b ∈ inBlock := by
  have hr : Beyond pool.view.Parent b iter := by
    rcases (h.mem_iff a).mp ha with rfl | ⟨hbey,_⟩
    · exact hb
    · rw [beyond_iff_transGen hac] at hb hbey ⊢
      exact hb.trans hbey
  by_cases hin : b ∈ inBlock
  · exact .inr hin
  · exact .inl ((h.mem_iff b).mpr (.inr ⟨hr,hin⟩))

theorem sum_eq_rest (env : MemPoolEnv) :
    ∑ a ∈ package.toFinset, pool.view.ownTotals env a =
      pool.view.packageRest env pool.txids inBlock.toFinset iter := by
  have hset : package.toFinset = insert iter ((pool.txids \ inBlock.toFinset).filter
      fun a => Beyond pool.view.Parent a iter) := by
    ext a
    simp only [List.mem_toFinset,h.mem_iff,mem_insert,mem_filter,mem_sdiff]
    constructor
    · exact Or.imp_right fun ha => ⟨⟨beyond_left_mem ha.1,ha.2⟩,ha.1⟩
    · exact Or.imp_right fun ha => ⟨ha.2,ha.1.2⟩
  have hs : iter ∉ (pool.txids \ inBlock.toFinset).filter fun a => Beyond pool.view.Parent a iter :=
    fun hmem => (mem_filter.mp hmem).2.1 rfl
  rw [hset,sum_insert hs]
  rfl
end IsPackage

section Update
variable (hc : pool.Consistent asm.memPool)
noncomputable def updatedTotals (asm : BlockAssembler) (pool : CTxMemPool) (package : List Uint256)
    (map : ModifiedTxMap) (done : List Uint256) (k : Uint256) : Option PackageTotals :=
  if k ∉ package ∧ ∃ a ∈ done, Beyond pool.view.Parent a k then
    some ((map.lookup k).getD (poolTotals pool k) - pool.view.ancestorTotals asm.memPool done.toFinset k)
  else map.lookup k

variable {package : List Uint256} {map : ModifiedTxMap}
theorem updatedTotals_of_some {k : Uint256}
    {totals : PackageTotals} (hk : k ∉ package) (hget : map.lookup k = some totals) :
    updatedTotals asm pool package map package k =
      some (totals - pool.view.ancestorTotals asm.memPool package.toFinset k) := by
  unfold updatedTotals
  split
  · rw [hget]
    rfl
  next hn =>
    have hsum : pool.view.ancestorTotals asm.memPool package.toFinset k = 0 := by
      apply ancestorTotals_eq_zero
      intro a ha hbey
      exact hn ⟨hk,a,List.mem_toFinset.mp ha,hbey⟩
    rw [hget,hsum,sub_zero]

theorem updatedTotals_of_none {k : Uint256} (hget : map.lookup k = none) :
    updatedTotals asm pool package map package k =
      if k ∉ package ∧ ∃ a ∈ package, Beyond pool.view.Parent a k then
        some (poolTotals pool k - pool.view.ancestorTotals asm.memPool package.toFinset k)
      else none := by
  rw [updatedTotals,hget]
  rfl

theorem lookup_eraseAll (l : List Uint256) (map : ModifiedTxMap) (k : Uint256) :
    (l.foldl (fun map it => map.erase it) map).lookup k = if k ∈ l then none else map.lookup k := by
  induction l generalizing map with
  | nil => simp
  | cons it rest ih =>
    rw [List.foldl_cons,ih]
    by_cases hk : k = it
    · subst hk
      simp
    · simp [hk]

variable {updated : ModifiedTxMap × Nat} {own : PackageTotals}
theorem updateDescendant_succeeds {desc : Uint256} (hd : desc ∈ pool.txids) :
    Succeeds (updateDescendant pool package own updated desc) fun next => ∀ k,
      next.1.lookup k = if k = desc ∧ desc ∉ package then
        some ((updated.1.lookup k).getD (poolTotals pool k) - own) else updated.1.lookup k := by
  unfold updateDescendant
  by_cases hin : desc ∈ package
  · rw [if_pos hin]
    exact Yields.of_ok fun k => by simp [hin]
  rw [if_neg hin]
  cases hget : updated.1.lookup desc with
  | none =>
    obtain ⟨entry,hent,_⟩ := exists_entry hd
    apply Yields.bind (deref_succeeds hent)
    rintro _ rfl
    intro k
    by_cases hk : k = desc
    · subst hk
      simp [hin,hget,poolTotals,hent]
    · simp [hk]
  | some totals =>
    intro k
    by_cases hk : k = desc
    · subst hk
      simp [hin,hget]
    · simp [hk]

theorem updateDescendants_succeeds {l : List Uint256} (hnd : l.Nodup) (hl : ∀ desc ∈ l, desc ∈ pool.txids) :
    Succeeds (l.foldlM (updateDescendant pool package own) updated) fun next => ∀ k,
      next.1.lookup k = if k ∈ l ∧ k ∉ package then
        some ((updated.1.lookup k).getD (poolTotals pool k) - own) else updated.1.lookup k := by
  apply Yields.foldlM_nodup (I := fun done (next : ModifiedTxMap × Nat) => ∀ k,
    next.1.lookup k = if k ∈ done ∧ k ∉ package then
      some ((updated.1.lookup k).getD (poolTotals pool k) - own) else updated.1.lookup k) hnd
  · intro done desc next hnew hd hn
    apply (updateDescendant_succeeds (hl desc (hd desc (by simp)))).mono
    intro last hlast k
    rw [hlast,hn]
    by_cases hk : k = desc
    · subst hk
      simp [hnew]
    · simp [hk]
  · simp

include hc

theorem updateForAdded_succeeds {done : List Uint256} {it : Uint256} (hit : it ∈ package)
    (hmem : it ∈ pool.txids) (hnew : it ∉ done)
    (hupd : ∀ k, updated.1.lookup k = updatedTotals asm pool package map done k) :
    Succeeds (asm.updateForAdded pool package updated it) fun next => ∀ k,
      next.1.lookup k = updatedTotals asm pool package map (done++[it]) k := by
  obtain ⟨entry,hent,_⟩ := exists_entry hmem
  obtain ⟨hnd,hd⟩ := mem_calculateDescendants hc.children List.nodup_nil nofun hmem
  have hin : ∀ desc ∈ calculateDescendants pool [] it, desc ∈ pool.txids := by
    intro desc hdesc
    exact reach_mem (((hd desc).mp hdesc).resolve_left List.not_mem_nil) hmem
  apply Yields.bind (deref_succeeds hent)
  rintro _ rfl
  apply (updateDescendants_succeeds hnd hin).mono
  intro next hn k
  have hbey : k ∈ calculateDescendants pool [] it ∧ k ∉ package ↔
      k ∉ package ∧ Beyond pool.view.Parent it k := by
    rw [hd,and_comm,Beyond]
    apply and_congr_right
    intro hk
    have hne : k ≠ it := fun heq => hk (heq ▸ hit)
    simp [hne]
  have hsum : pool.view.ancestorTotals asm.memPool (done++[it]).toFinset k =
      pool.view.ancestorTotals asm.memPool done.toFinset k +
        if Beyond pool.view.Parent it k then pool.view.ownTotals asm.memPool it else 0 := by
    have hset : (done++[it]).toFinset = insert it done.toFinset := by simp
    rw [hset,ancestorTotals_insert _ (by simpa using hnew)]
  rw [hn,hupd,ownTotals_of_lookup hent]
  simp only [hbey,updatedTotals,hsum]
  by_cases hk : k ∈ package
  · simp [hk]
  by_cases hr : Beyond pool.view.Parent it k
  · by_cases hdo : ∃ a ∈ done, Beyond pool.view.Parent a k
    · have hb : ∃ a ∈ done++[it], Beyond pool.view.Parent a k := ⟨it,by simp,hr⟩
      simp only [hk,hr,hdo,hb,not_false_eq_true,and_self,if_true,Option.getD_some]
      rw [sub_sub]
    · have hno : pool.view.ancestorTotals asm.memPool done.toFinset k = 0 := by
        apply ancestorTotals_eq_zero
        intro a ha hbey
        exact hdo ⟨a,List.mem_toFinset.mp ha,hbey⟩
      simp [hr,hdo,hno]
  · simp [hr]

theorem updatePackagesForAdded_succeeds (hnd : package.Nodup)
    (hmem : ∀ a ∈ package, a ∈ pool.txids) (map : ModifiedTxMap) :
    Succeeds (asm.updatePackagesForAdded pool package map) fun next => ∀ k,
      next.1.lookup k = updatedTotals asm pool package map package k := by
  apply Yields.foldlM_nodup (I := fun done (next : ModifiedTxMap × Nat) => ∀ k,
    next.1.lookup k = updatedTotals asm pool package map done k) hnd
  · intro done it next hnew hdone hnext
    have hit : it ∈ package := hdone it (by simp)
    exact updateForAdded_succeeds hc hit (hmem it hit) hnew hnext
  · simp [updatedTotals]
end Update
end BlockAssembler
end Lcryp
