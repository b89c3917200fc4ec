import Lcryp.Mempool.Removal

/-!
# Changing a fee

`PrioritiseTransaction` changes the modified fee of an entry and the totals of all entries that count
it.
-/
namespace Lcryp
open Relation Lineage Classical Function EntryData
variable {data : EntryData} {env : MemPoolEnv} {n : Uint256} {delta : Int}
namespace PoolView
variable {v : PoolView} {txids : Finset Uint256}
noncomputable def prioritised (v : PoolView) (n : Uint256) (data : EntryData) (delta : Int) : PoolView :=
  { v with
    data := update v.data n (some (data.prioritised delta))
    descendantState := fun k =>
      if ReflTransGen v.Parent k n then v.descendantState k + (0, 0, delta) else v.descendantState k
    ancestorState := fun k =>
      if ReflTransGen v.Parent n k then v.ancestorState k + (0, 0, delta, 0) else v.ancestorState k }

theorem parent_iff_tx {p c : Uint256} : v.Parent p c ↔
    ((v.data p).map tx).isSome ∧ ∃ tx, (v.data c).map EntryData.tx = some tx ∧ p ∈ tx.prevTxids := by
  simp [Parent]

section Prioritised
variable (hdata : v.data n = some data)
include hdata
variable (k : Uint256)
theorem prioritised_tx : (update v.data n (some (data.prioritised delta)) k).map tx = (v.data k).map tx := by
  by_cases hk : k = n
  · rw [hk,update_self,hdata]
    rfl
  · rw [update_of_ne hk]

theorem parent_of_data {u : PoolView}
    (hu : u.data = update v.data n (some (data.prioritised delta))) : u.Parent = v.Parent := by
  funext p c
  rw [parent_iff_tx,parent_iff_tx]
  simp [hu,prioritised_tx hdata]

theorem prioritised_forAncestors :
    (v.prioritised n data delta).forAncestors env k =
      v.forAncestors env k + if k = n then (0, 0, delta) else 0 := by
  by_cases hk : k = n
  · subst hk
    simp [forAncestors,prioritised,hdata,EntryData.forAncestors,EntryData.prioritised,getTxSize]
  · simp [forAncestors,prioritised,hk]

theorem prioritised_forDescendants :
    (v.prioritised n data delta).forDescendants env k =
      v.forDescendants env k + if k = n then (0, 0, delta, 0) else 0 := by
  by_cases hk : k = n
  · subst hk
    simp [forDescendants,prioritised,hdata,EntryData.forDescendants,EntryData.prioritised,getTxSize]
  · simp [forDescendants,prioritised,hk]

theorem prioritised_sizes (env : MemPoolEnv) (k : Uint256) :
    (v.prioritised n data delta).sizeOf env k = v.sizeOf env k ∧
      (v.prioritised n data delta).feeOf k = v.feeOf k := by
  by_cases hk : k = n
  · subst hk
    simp [sizeOf,feeOf,prioritised,hdata,EntryData.prioritised,getTxSize]
  · simp [sizeOf,feeOf,prioritised,hk]

theorem Consistent.prioritised (h : v.Consistent env txids) :
    (v.prioritised n data delta).Consistent env txids := by
  have htx : ∀ k, ((v.prioritised n data delta).data k).map tx = (v.data k).map tx := prioritised_tx hdata
  have hpar : (v.prioritised n data delta).Parent = v.Parent := parent_of_data hdata rfl
  have hn : n ∈ txids := by
    rw [h.mem,hdata]
    rfl
  refine ⟨⟨?_,?_,?_,?_,?_⟩,?_,?_,?_,?_,?_⟩
  · intro k
    rw [h.mem,← Option.isSome_map,← htx,Option.isSome_map]
  · intro k data' hdata'
    have hold := htx k
    rw [hdata'] at hold
    obtain ⟨data'',hd,heq⟩ := Option.map_eq_some_iff.mp hold.symm
    rw [← heq]
    exact h.keyed k data'' hd
  · intro prevout tx
    have hspr : ∀ u : PoolView, (∃ k data, u.data k = some data ∧ data.tx = tx ∧ prevout ∈ tx.prevouts) ↔
        ∃ k, (u.data k).map EntryData.tx = some tx ∧ prevout ∈ tx.prevouts := by
      intro u
      simp [← exists_and_right,and_assoc]
    rw [hspr]
    simp only [htx]
    rw [← hspr]
    exact h.spender prevout tx
  · rw [Finset.sum_congr rfl fun k _ => (prioritised_sizes hdata env k).1]
    exact h.totalTxSize
  · rw [Finset.sum_congr rfl fun k _ => (prioritised_sizes hdata env k).2]
    exact h.totalFee
  · rw [hpar]
    exact h.acyclic
  · intro k
    rw [hpar]
    exact h.parents k
  · intro k
    rw [hpar]
    exact h.children k
  · intro k hk
    have hchg : ∀ y, y ≠ n → (v.prioritised n data delta).forDescendants env y =
        v.forDescendants env y := fun y hy => by simp [prioritised_forDescendants hdata,hy]
    have hown : (v.prioritised n data delta).forDescendants env n - v.forDescendants env n =
        (0, 0, delta, 0) := by simp [prioritised_forDescendants hdata]
    rw [hpar,total_reweigh hchg hn,hown,reflTransGen_swap,← h.ancestorState k hk]
    by_cases hr : ReflTransGen v.Parent n k <;> simp [PoolView.prioritised,hr]
  · intro k hk
    have hchg : ∀ y, y ≠ n → (v.prioritised n data delta).forAncestors env y =
        v.forAncestors env y := fun y hy => by simp [prioritised_forAncestors hdata,hy]
    have hown : (v.prioritised n data delta).forAncestors env n - v.forAncestors env n =
        (0, 0, delta) := by simp [prioritised_forAncestors hdata]
    rw [hpar,total_reweigh hchg hn,hown,← h.descendantState k hk]
    by_cases hr : ReflTransGen v.Parent k n <;> simp [PoolView.prioritised,hr]
end Prioritised
end PoolView
namespace CTxMemPool
variable {pool : CTxMemPool}
section Entry
variable {pool' : CTxMemPool}
    (hdata' : pool'.view.data = update pool.view.data n (some (data.prioritised delta)))
include hdata'

theorem prioritised_mem : n ∈ pool'.txids := by
  rw [mem_txids_iff,hdata',update_self]
  rfl
variable (hc : pool.Consistent env) (hdata : pool.view.data n = some data)
include hc hdata

theorem prioritiseAncestors_yields (hp : pool'.view.parents = pool.view.parents)
    (hst : ∀ k, k ≠ n → pool'.view.descendantState k = pool.view.descendantState k)
    {e : CTxMemPoolEntry} (hget : pool'.mapTx.lookup n = some e) :
    PoolYields ((ancestorsOf env pool' e).foldlM (fun pool ancestorIt =>
        pool.modify ancestorIt (·.updateDescendantState 0 delta 0)) pool')
      fun next => next.view = pool'.view.withDescendantState fun k =>
        if Beyond pool.view.Parent k n then pool'.view.descendantState k + (0, 0, delta)
        else pool'.view.descendantState k := by
  have hParent := PoolView.parent_of_data hdata hdata'
  have hex : pool'.view.ParentsExact := by
    intro k
    rw [hParent,hp]
    exact hc.parents k
  have hh : env.getHash e.tx = n := by
    have he := (shows_of_lookup hget).data
    rw [hdata',update_self] at he
    have htx : data.tx = e.tx := congrArg tx (Option.some.inj he)
    rw [← htx]
    exact hc.keyed n data hdata
  obtain ⟨hl,hset⟩ := listed_ancestors env hex (by rw [hParent]; exact hc.acyclic) hh
  rw [hParent] at hset
  apply (each_descendantState_yields hl (0, 0, delta) _).mono
  · intro next hn
    rw [hn]
    simp [hset]
  · intro k hk
    have hbey := (hset k).mp hk
    rw [hst k hbey.1.symm]
    simpa [DescendantsPos] using PoolView.Consistent.descendantState_pos hc (beyond_left_mem hbey)

theorem prioritiseDescendants_yields (hki : pool'.view.children = pool.view.children)
    (hst : ∀ k, k ≠ n → pool'.view.ancestorState k = pool.view.ancestorState k) :
    PoolYields (((calculateDescendants pool' [] n).erase n).foldlM (fun pool descendantIt =>
        pool.modify descendantIt (·.updateAncestorState 0 delta 0 0)) pool')
      fun next => next.view = pool'.view.withAncestorState fun k =>
        if Beyond pool.view.Parent n k then pool'.view.ancestorState k + (0, 0, delta, 0)
        else pool'.view.ancestorState k := by
  have hParent := PoolView.parent_of_data hdata hdata'
  have he : pool'.view.ChildrenExact := by
    intro k
    rw [hParent,hki]
    exact hc.children k
  obtain ⟨hl,hset⟩ := listed_descendants he (prioritised_mem hdata')
  rw [hParent] at hset
  apply (each_ancestorState_yields hl (0, 0, delta, 0) _).mono
  · intro next hn
    rw [hn]
    simp [hset]
  · intro k hk
    have hbey := (hset k).mp hk
    rw [hst k hbey.1]
    simpa [AncestorsPos] using PoolView.Consistent.ancestorState_pos hc (beyond_right_mem hbey)
end Entry

theorem prioritiseEntry_yields (hc : pool.Consistent env) (hn : n ∈ pool.txids) (delta : Int) :
    PoolYields (prioritiseEntry env pool n delta) fun next => next.Consistent env := by
  apply Yields.bind
    (modify_entry_yields (mem_txids.mp hn) fun entry => entry.updateModifiedFee_yields delta)
  rintro fresh ⟨entry,updated,hent,⟨hdata,hp,hki,hd,hanc⟩,hv⟩
  rw [hent.setEntry_fees hdata hp hki hd hanc] at hv
  have hf : fresh.view.data = update pool.view.data n (some (entry.data.prioritised delta)) := by
    rw [hv]
    rfl
  obtain ⟨e,hget,_⟩ := exists_entry (prioritised_mem hf)
  apply Yields.bind (deref_yields hget)
  rintro e rfl
  apply Yields.bind (prioritiseAncestors_yields hf hc hent.data (by rw [hv]; rfl)
    (fun k hk => by rw [hv]; exact update_of_ne hk _ _) hget)
  intro above ha
  apply (prioritiseDescendants_yields (by rw [ha,← hf]; rfl) hc hent.data (by rw [ha,hv]; rfl)
    (fun k hk => by rw [ha,hv]; exact update_of_ne hk _ _)).mono
  intro next hne
  have hfi : next.view = pool.view.prioritised n entry.data delta := by
    have hbel := update_beyond (fun k => Iff.rfl) ReflTransGen.refl pool.view.ancestorState
      (0, 0, delta, 0) (P := Beyond pool.view.Parent n)
    have hu := update_beyond (fun k => and_congr_left' ne_comm) ReflTransGen.refl
      pool.view.descendantState (0, 0, delta) (P := fun k => Beyond pool.view.Parent k n)
    rw [hne,ha,hv,PoolView.prioritised,← hbel,← hu]
    rfl
  have ht : next.txids = pool.txids := by
    ext k
    rw [mem_txids_iff,hfi]
    exact ((hc.prioritised hent.data).mem k).symm
  rw [Consistent,ht,hfi]
  exact hc.prioritised hent.data

theorem prioritiseTransaction_yields (hc : pool.Consistent env) (hash : Uint256) (nFeeDelta : Int) :
    PoolYields (prioritiseTransaction env pool hash nFeeDelta) fun next => next.Consistent env := by
  dsimp only [prioritiseTransaction]
  split
  next hin =>
    have hd : Consistent env { pool with
        mapDeltas := pool.mapDeltas.insert hash (saturatingAdd (pool.deltaOf hash) nFeeDelta) } := hc
    exact prioritiseEntry_yields hd (mem_txids.mpr hin) nFeeDelta
  · exact Yields.of_ok hc
end CTxMemPool
end Lcryp
