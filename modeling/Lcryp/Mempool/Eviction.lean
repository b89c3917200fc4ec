import Lcryp.Mempool.Removal

/-!
# Operations that only remove entries

`removeRecursive`, `removeForReorg`, `Expire` and `TrimToSize` stage entries with all their descendants.
-/
namespace Lcryp.CTxMemPool
open Search Yields List
variable {env : MemPoolEnv} {pool next last : CTxMemPool}
/-- A consistent pool with some of the entries of another one. -/
structure Shrinks (env : MemPoolEnv) (pool next : CTxMemPool) : Prop where
  consistent : next.Consistent env
  data : ∀ k, next.view.data k = none ∨ next.view.data k = pool.view.data k

theorem Shrinks.refl (hc : pool.Consistent env) : pool.Shrinks env pool := ⟨hc,fun _ => .inr rfl⟩
section
variable (h : pool.Shrinks env next)
include h

theorem Shrinks.trans (h' : next.Shrinks env last) : pool.Shrinks env last := by
  refine ⟨h'.consistent,fun k => ?_⟩
  rcases h'.data k with hk | hk
  · exact .inl hk
  · rw [hk]
    exact h.data k

theorem Shrinks.none_of_none {k : Uint256} (hk : pool.view.data k = none) : next.view.data k = none := by
  rcases h.data k with hn | heq
  · exact hn
  · rw [heq,hk]

theorem Shrinks.data_some {k : Uint256} {data : EntryData}
    (hk : next.view.data k = some data) : pool.view.data k = some data := by
  rcases h.data k with hn | heq
  · rw [hn] at hk
    cases hk
  · rw [← heq,hk]

theorem Shrinks.parent {p c : Uint256} (hpar : next.view.Parent p c) : pool.view.Parent p c := by
  obtain ⟨hp,data,hda,hsp⟩ := hpar
  obtain ⟨data',hd⟩ := Option.isSome_iff_exists.mp hp
  exact ⟨by rw [h.data_some hd]; rfl,data,h.data_some hda,hsp⟩
end

theorem Removes.shrinks {stage : List Uint256} (h : pool.Removes env stage next) : pool.Shrinks env next := by
  refine ⟨h.consistent,fun k => ?_⟩
  rw [h.data]
  split
  · exact .inl rfl
  · exact .inr rfl
variable {tx : CTransaction}
section Consistent
variable (hc : pool.Consistent env)
include hc

theorem removeWithDescendants_yields {l : List Uint256} (hl : ∀ it ∈ l, it ∈ pool.txids) :
    PoolYields (removeStaged env pool (pool.withDescendants l) false)
      (pool.Removes env (pool.withDescendants l)) := by
  obtain ⟨hnd,hmem⟩ := mem_withDescendants hc.children hl
  apply removeStaged_yields hc hnd
  · intro r hr
    obtain ⟨it,hit,hre⟩ := (hmem r).mp hr
    exact reach_mem hre (hl it hit)
  · left
    intro a b hab ha
    obtain ⟨it,hit,hre⟩ := (hmem a).mp ha
    exact (hmem b).mpr ⟨it,hit,hre.tail hab⟩

theorem spender_mem {prevout : COutPoint} (h : pool.mapNextTx.lookup prevout = some tx) :
    env.getHash tx ∈ pool.txids ∧ prevout ∈ tx.prevouts ∧
      ∃ data, pool.view.data (env.getHash tx) = some data ∧ data.tx = tx := by
  obtain ⟨k,data,hd,rfl,hp⟩ := (hc.spender prevout tx).mp h
  rw [hc.keyed k data hd]
  exact ⟨mem_txids_iff.mpr (by rw [hd]; rfl),hp,data,hd,rfl⟩

variable (origTx : CTransaction)
theorem spendersOf_mem : ∀ it ∈ spendersOf env pool origTx, it ∈ pool.txids := by
  have hl : ∀ (l : List Nat) found, (∀ it ∈ found, it ∈ pool.txids) →
      ∀ it ∈ l.foldl (addSpender env pool origTx) found, it ∈ pool.txids := by
    intro l
    induction l with
    | nil => exact fun _ hfound => hfound
    | cons i rest ih =>
      intro found hfound
      apply ih
      unfold addSpender
      split
      · exact hfound
      next next hget =>
        intro it hit
        rcases mem_insert_iff.mp hit with rfl | hit
        · exact (spender_mem hc hget).1
        · exact hfound it hit
  exact hl _ [] nofun

theorem removeRecursive_yields : PoolYields (removeRecursive env pool origTx) (pool.Shrinks env) := by
  have hmem : ∀ it ∈ (if env.getHash origTx ∈ pool.mapTx then [env.getHash origTx]
      else spendersOf env pool origTx), it ∈ pool.txids := by
    split
    · next hin => simpa [mem_txids] using hin
    · exact spendersOf_mem hc origTx
  have ha : (if env.getHash origTx ∈ pool.mapTx then [env.getHash origTx]
      else spendersOf env pool origTx).all (fun nextit => decide (nextit ∈ pool.mapTx)) := by
    rw [all_eq_true]
    exact fun it hit => decide_eq_true (mem_txids.mp (hmem it hit))
  apply bind (Yields.require ha)
  intro _ _
  exact (removeWithDescendants_yields hc hmem).mono fun _ => Removes.shrinks

theorem removeRecursive_present {origTx : CTransaction} (hin : env.getHash origTx ∈ pool.mapTx) :
    PoolYields (removeRecursive env pool origTx)
      (pool.Removes env (pool.withDescendants [env.getHash origTx])) := by
  unfold removeRecursive
  rw [if_pos hin]
  apply bind (Yields.require (by simpa using hin))
  intro _ _
  exact removeWithDescendants_yields hc (by simpa [mem_txids] using hin)

theorem removeForReorg_yields (checkFinalAndMature : Uint256 → Bool) :
    PoolYields (removeForReorg env pool checkFinalAndMature) (pool.Shrinks env) := by
  apply (removeWithDescendants_yields hc _).mono fun _ => Removes.shrinks
  intro it hit
  rw [mem_txids]
  exact mem_of_mem_filter hit

theorem expire_yields (time : Int) :
    PoolYields (expire env pool time) fun result => pool.Shrinks env result.1 := by
  have hmem : ∀ it ∈ pool.mapTx.entries.filterMap (fun item =>
      if item.2.nTime < time then some item.1 else none), it ∈ pool.txids := by
    intro it hit
    obtain ⟨item,hi,heq⟩ := mem_filterMap.mp hit
    rw [mem_txids]
    split at heq
    · exact Option.some.inj heq ▸ mem_map_of_mem hi
    · cases heq
  apply bind (removeWithDescendants_yields hc hmem)
  intro next hn
  exact of_ok hn.shrinks
end Consistent

theorem firstBy_mem {less : CTxMemPoolEntry → CTxMemPoolEntry → Bool}
    {entries : List (Sigma fun _ => CTxMemPoolEntry)} {it : Uint256}
    (h : firstBy less entries = some it) : it ∈ entries.map Sigma.fst := by
  cases entries with
  | nil => cases h
  | cons item rest =>
    rw [← Option.some.inj h]
    apply mem_map_of_mem
    apply foldl_choice_mem
    intro first item
    split <;> simp

theorem trimLoop_yields (policy : TrimPolicy) (sizelimit : Nat) (fuel : Nat)
    (hc : pool.Consistent env) (pvNoSpendsRemaining : List COutPoint) :
    PoolYields (trimLoop env policy sizelimit fuel pool pvNoSpendsRemaining) fun result =>
      pool.Shrinks env result.1 := by
  induction fuel generalizing pool pvNoSpendsRemaining with
  | zero => exact of_ok (.refl hc)
  | succ fuel ih =>
    rw [trimLoop]
    cases hfst : firstBy policy.descendantScoreLess pool.mapTx.entries with
    | none => exact of_ok (.refl hc)
    | some it =>
      by_cases hf : policy.dynamicMemoryUsage pool > sizelimit
      · simp only [hf]
        have hit : ∀ k ∈ [it], k ∈ pool.txids := by
          simp only [mem_singleton,forall_eq,mem_txids]
          exact firstBy_mem hfst
        apply bind (removeWithDescendants_yields hc hit)
        intro next hn
        exact (ih hn.consistent _).mono fun _ => hn.shrinks.trans
      · simp only [hf]
        exact of_ok (.refl hc)

theorem clearPrioritisation_shrinks (hash : Uint256) (hc : pool.Consistent env) :
    pool.Shrinks env (pool.clearPrioritisation hash) := ⟨hc,fun _ => .inr rfl⟩

theorem removeConflict_yields (hc : pool.Consistent env) (tx : CTransaction) (prevout : COutPoint) :
    PoolYields (removeConflict env tx pool prevout) (pool.Shrinks env) := by
  unfold removeConflict
  split
  · exact of_ok (.refl hc)
  next txConflict _ =>
    split
    · have hclr := clearPrioritisation_shrinks (env.getHash txConflict) hc
      exact (removeRecursive_yields hclr.consistent txConflict).mono fun _ => hclr.trans
    · exact of_ok (.refl hc)

theorem removeConflicts_yields (hc : pool.Consistent env) (tx : CTransaction) :
    PoolYields (removeConflicts env pool tx) (pool.Shrinks env) := by
  apply foldlM (I := fun _ next => pool.Shrinks env next)
  · intro _ prevout _ next _ hnext
    exact (removeConflict_yields hnext.consistent tx prevout).mono fun _ => hnext.trans
  · exact .refl hc

/-- The parents in the pool of a block's transactions come before them in the block. -/
def ParentsFirst (env : MemPoolEnv) (pool : CTxMemPool) (vtx : List CTransaction) : Prop :=
  ∀ done tx rest, vtx = done++tx::rest → ∀ p, pool.view.Parent p (env.getHash tx) → p ∈ done.map env.getHash

theorem removeForBlockTx_yields (hc : pool.Consistent env) (hp : ∀ p, ¬ pool.view.Parent p (env.getHash tx)) :
    PoolYields (removeForBlockTx env pool tx) fun next =>
      pool.Shrinks env next ∧ next.view.data (env.getHash tx) = none := by
  have hfst : PoolYields
      (if env.getHash tx ∈ pool.mapTx then removeStaged env pool [env.getHash tx] true
        else return pool)
      fun next => pool.Shrinks env next ∧ next.view.data (env.getHash tx) = none := by
    split
    next hin =>
      have hrem : pool.Removable [env.getHash tx] true := by
        refine .inr ⟨rfl,fun a b hab hb => ?_⟩
        rw [mem_singleton.mp hb] at hab
        exact absurd hab (hp a)
      apply (removeStaged_yields hc (nodup_singleton _) (by simpa [mem_txids] using hin) hrem).mono
      intro next hn
      exact ⟨hn.shrinks,by simp [hn.data]⟩
    next hout =>
      refine of_ok ⟨.refl hc,?_⟩
      simpa [mem_iff_data] using hout
  apply bind hfst
  rintro next ⟨hn,hg⟩
  apply bind (removeConflicts_yields hn.consistent tx)
  intro last hl
  have hclr := clearPrioritisation_shrinks (env.getHash tx) hl.consistent
  exact of_ok ⟨(hn.trans hl).trans hclr,hl.none_of_none hg⟩

theorem removeForBlock_yields (hc : pool.Consistent env) {vtx : List CTransaction}
    (hfst : pool.ParentsFirst env vtx) : PoolYields (removeForBlock env pool vtx) (pool.Shrinks env) := by
  -- the transactions that are done have left the pool
  have hlo : PoolYields (removeForBlock env pool vtx) fun next =>
      pool.Shrinks env next ∧ ∀ tx ∈ vtx, next.view.data (env.getHash tx) = none := by
    apply foldlM (I := fun done next =>
      pool.Shrinks env next ∧ ∀ tx ∈ done, next.view.data (env.getHash tx) = none)
    · rintro done tx rest next hvtx ⟨hn,hgo⟩
      have hpa : ∀ p, ¬ next.view.Parent p (env.getHash tx) := by
        intro p hp
        obtain ⟨tx',htx',rfl⟩ := mem_map.mp (hfst done tx rest hvtx p (hn.parent hp))
        have hs := hp.1
        rw [hgo tx' htx'] at hs
        cases hs
      apply (removeForBlockTx_yields hn.consistent hpa).mono
      rintro last ⟨hl,hg⟩
      refine ⟨hn.trans hl,fun tx' htx' => ?_⟩
      rcases mem_append.mp htx' with htx' | htx'
      · exact hl.none_of_none (hgo tx' htx')
      · rw [mem_singleton.mp htx']
        exact hg
    · exact ⟨.refl hc,nofun⟩
  exact hlo.mono fun _ h => h.1
end Lcryp.CTxMemPool
