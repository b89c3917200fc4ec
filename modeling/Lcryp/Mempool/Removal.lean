import Lcryp.Mempool.Consistent

/-!
# Removing entries

`RemoveStaged` takes entries off the totals of the others, cuts the links to them and erases them.
-/
namespace Lcryp
open Relation Lineage Classical PoolView Yields List
theorem filter_notMem_concat {α : Type} [DecidableEq α] {l : List α} (h : l.Nodup) (done : List α)
    (a : α) : l.filter (· ∉ done++[a]) = (l.filter (· ∉ done)).erase a := by
  rw [(h.filter _).erase_eq_filter,filter_filter]
  apply filter_congr
  intro b _
  by_cases hb : b = a <;> simp [hb]

variable {r : Uint256} {txids : Finset Uint256}
namespace PoolView
variable (env : MemPoolEnv) (v : PoolView) (done : List Uint256) (k : Uint256)
noncomputable def ancestorsWithout : AncestorState :=
  v.ancestorState k - ∑ r ∈ done.toFinset with Beyond (Function.swap v.Parent) k r, v.forDescendants env r

noncomputable def descendantsWithout : DescendantState :=
  v.descendantState k - ∑ r ∈ done.toFinset with Beyond v.Parent k r, v.forAncestors env r
def childrenWithout : List Uint256 := (v.children k).filter (· ∉ done)

variable (g : Uint256 → AncestorState)
/-- The view when the entries that are done are off the links and the totals of their ancestors. -/
noncomputable def detached (done : List Uint256) : PoolView :=
  ((v.withAncestorState g).withDescendantState (v.descendantsWithout env done)).withChildren
    (v.childrenWithout done)

def parentsWithout (stage done : List Uint256) (k : Uint256) : List Uint256 :=
  if k ∈ stage then v.parents k else (v.parents k).filter (· ∉ done)

def SpentBy (prevout : COutPoint) : Prop :=
  ∃ r ∈ done, ∃ data, v.data r = some data ∧ prevout ∈ data.tx.prevouts

/-- The view when the entries that are done are erased. -/
noncomputable def erased : PoolView where
  data k := if k ∈ done then none else v.data k
  parents k := if k ∈ done then [] else v.parents k
  children k := if k ∈ done then [] else v.children k
  descendantState k := if k ∈ done then 0 else v.descendantState k
  ancestorState k := if k ∈ done then 0 else v.ancestorState k
  spender prevout := if v.SpentBy done prevout then none else v.spender prevout
  totalTxSize := v.totalTxSize - ∑ r ∈ done.toFinset, v.sizeOf env r
  totalFee := v.totalFee - ∑ r ∈ done.toFinset, v.feeOf r

noncomputable def remaining (stage : List Uint256) : PoolView :=
  ((v.detached env g stage).withParents (v.parentsWithout stage stage)).erased env stage

variable {env v}
variable {k : Uint256} {data : EntryData}
theorem forAncestors_of_data (h : v.data k = some data) : v.forAncestors env k = data.forAncestors env := by
  simp [forAncestors,h]
theorem forDescendants_of_data (h : v.data k = some data) :
    v.forDescendants env k = data.forDescendants env := by
  simp [forDescendants,h]

theorem sum_forDescendants_nonneg (env : MemPoolEnv) (v : PoolView) (nodes : Finset Uint256) :
    AncestorsNonneg (∑ y ∈ nodes, v.forDescendants env y) := by
  refine Finset.sum_induction _ AncestorsNonneg ?_ ?_ ?_
  · rintro a b ⟨ha,ha',ha''⟩ ⟨hb,hb',hb''⟩
    exact ⟨add_nonneg ha hb,add_nonneg ha' hb',add_nonneg ha'' hb''⟩
  · exact ⟨le_rfl,le_rfl,le_rfl⟩
  · intro y _
    cases hy : v.data y with
    | none => simp [forDescendants,hy,AncestorsNonneg]
    | some data => simp [forDescendants,hy,EntryData.forDescendants,AncestorsNonneg]

theorem sum_forAncestors_nonneg (env : MemPoolEnv) (v : PoolView) (nodes : Finset Uint256) :
    0 ≤ (∑ y ∈ nodes, v.forAncestors env y).1 ∧ 0 ≤ (∑ y ∈ nodes, v.forAncestors env y).2.1 := by
  refine Finset.sum_induction _ (fun s : DescendantState => 0 ≤ s.1 ∧ 0 ≤ s.2.1) ?_ ?_ ?_
  · rintro a b ⟨ha,ha'⟩ ⟨hb,hb'⟩
    exact ⟨add_nonneg ha hb,add_nonneg ha' hb'⟩
  · exact ⟨le_rfl,le_rfl⟩
  · intro y _
    cases hy : v.data y with
    | none => simp [forAncestors,hy]
    | some data => simp [forAncestors,hy,EntryData.forAncestors]

theorem forDescendants_add_pos (env : MemPoolEnv) (data : EntryData) {rest : AncestorState}
    (hr : AncestorsNonneg rest) : AncestorsPos (data.forDescendants env + rest) := by
  have hs := data.getTxSize_pos env
  simp only [AncestorsNonneg,AncestorsPos,EntryData.forDescendants,Prod.fst_add,Prod.snd_add] at *
  omega

theorem forAncestors_add_pos (env : MemPoolEnv) (data : EntryData) {rest : DescendantState}
    (hr : 0 ≤ rest.1 ∧ 0 ≤ rest.2.1) : DescendantsPos (data.forAncestors env + rest) := by
  have hs := data.getTxSize_pos env
  simp only [DescendantsPos,EntryData.forAncestors,Prod.fst_add,Prod.snd_add]
  omega

variable {done : List Uint256}
theorem Consistent.ancestorsWithout_pos (h : v.Consistent env txids) (hd : ∀ r ∈ done, r ∈ txids)
    (hk : k ∈ txids) : AncestorsPos (v.ancestorsWithout env done k) := by
  have hsub : done.toFinset ⊆ txids := fun r hr => hd r (mem_toFinset.mp hr)
  obtain ⟨data,hda⟩ := Option.isSome_iff_exists.mp ((h.mem k).mp hk)
  rw [ancestorsWithout,h.ancestorState k hk,total_sub_beyond hsub hk,forDescendants_of_data hda]
  exact forDescendants_add_pos env data (sum_forDescendants_nonneg env v _)

theorem Consistent.descendantsWithout_pos (h : v.Consistent env txids) (hd : ∀ r ∈ done, r ∈ txids)
    (hk : k ∈ txids) : DescendantsPos (v.descendantsWithout env done k) := by
  have hsub : done.toFinset ⊆ txids := fun r hr => hd r (mem_toFinset.mp hr)
  obtain ⟨data,hda⟩ := Option.isSome_iff_exists.mp ((h.mem k).mp hk)
  rw [descendantsWithout,h.descendantState k hk,total_sub_beyond hsub hk,forAncestors_of_data hda]
  exact forAncestors_add_pos env data (sum_forAncestors_nonneg env v _)

theorem ancestorsWithout_nil : v.ancestorsWithout env [] = v.ancestorState := by
  funext k
  simp [ancestorsWithout]

theorem descendantsWithout_nil : v.descendantsWithout env [] = v.descendantState := by
  funext k
  simp [descendantsWithout]

variable {R : Uint256 → Uint256 → Prop}
theorem Linked.ancestorState_pos (h : v.Linked env R txids)
    (hke : v.Keyed env txids) (hk : k ∈ txids) : AncestorsPos (v.ancestorState k) := by
  obtain ⟨data,hd⟩ := Option.isSome_iff_exists.mp ((hke.mem k).mp hk)
  rw [h.ancestorState k hk,total_eq_own_add hk,forDescendants_of_data hd]
  exact forDescendants_add_pos env data (sum_forDescendants_nonneg env v _)

theorem Linked.descendantState_pos (h : v.Linked env R txids)
    (hke : v.Keyed env txids) (hk : k ∈ txids) : DescendantsPos (v.descendantState k) := by
  obtain ⟨data,hd⟩ := Option.isSome_iff_exists.mp ((hke.mem k).mp hk)
  rw [h.descendantState k hk,total_eq_own_add hk,forAncestors_of_data hd]
  exact forAncestors_add_pos env data (sum_forAncestors_nonneg env v _)

theorem Consistent.ancestorState_pos (h : v.Consistent env txids) (hk : k ∈ txids) :
    AncestorsPos (v.ancestorState k) :=
  (consistent_iff.mp h).2.ancestorState_pos (consistent_iff.mp h).1 hk

theorem Consistent.descendantState_pos (h : v.Consistent env txids) (hk : k ∈ txids) :
    DescendantsPos (v.descendantState k) :=
  (consistent_iff.mp h).2.descendantState_pos (consistent_iff.mp h).1 hk

theorem sub_sum_beyond_concat {M : Type} [AddCommGroup M] (R : Uint256 → Uint256 → Prop)
    (hr : r ∉ done) (k : Uint256) (s : M) (w : Uint256 → M) :
    s - ∑ y ∈ (done++[r]).toFinset with Beyond R k y, w y =
      if Beyond R k r then s - ∑ y ∈ done.toFinset with Beyond R k y, w y + -w r
      else s - ∑ y ∈ done.toFinset with Beyond R k y, w y := by
  have hset : (done++[r]).toFinset = insert r done.toFinset := by simp
  rw [hset,sum_beyond_insert (by simpa using hr)]
  split
  · abel
  · rw [add_zero]

theorem ancestorsWithout_concat (hr : r ∉ done) (k : Uint256) :
    v.ancestorsWithout env (done++[r]) k =
      if Beyond v.Parent r k then v.ancestorsWithout env done k + -v.forDescendants env r
      else v.ancestorsWithout env done k := by
  rw [ancestorsWithout,sub_sum_beyond_concat _ hr,beyond_swap,← ancestorsWithout]

theorem descendantsWithout_concat (hr : r ∉ done) (k : Uint256) :
    v.descendantsWithout env (done++[r]) k =
      if Beyond v.Parent k r then v.descendantsWithout env done k + -v.forAncestors env r
      else v.descendantsWithout env done k := by
  rw [descendantsWithout,sub_sum_beyond_concat _ hr,← descendantsWithout]
end PoolView

variable {stage : List Uint256} {g : Uint256 → AncestorState} {env : MemPoolEnv}
namespace CTxMemPool
variable {pool pool' : CTxMemPool}
theorem txids_eq_of_data (h : pool'.view.data = pool.view.data) : pool'.txids = pool.txids := by
  ext k
  rw [mem_txids_iff,mem_txids_iff,h]

theorem exists_entry (hr : r ∈ pool.txids) :
    ∃ entry, pool.mapTx.lookup r = some entry ∧ pool.view.data r = some entry.data := by
  obtain ⟨entry,hget⟩ := exists_lookup (mem_txids.mp hr)
  exact ⟨entry,hget,(shows_of_lookup hget).data⟩

/-! ## The loops of `UpdateForRemoveFromMempool` -/
variable {done : List Uint256}
section Loops
variable (hc : pool.Consistent env)
include hc

theorem updateDescendantsForRemoval_yields {f : Uint256 → AncestorState}
    (hv : pool'.view = pool.view.withAncestorState f) (hr : r ∈ pool.txids)
    (hpos : ∀ k ∈ pool.txids, Beyond pool.view.Parent r k →
      AncestorsPos (f k + -pool.view.forDescendants env r)) :
    PoolYields (updateDescendantsForRemoval env pool' r) fun next =>
      next.view = pool.view.withAncestorState fun k =>
        if Beyond pool.view.Parent r k then f k + -pool.view.forDescendants env r else f k := by
  have ht : pool'.txids = pool.txids := txids_eq_of_data (by rw [hv]; rfl)
  have hParent : pool'.view.Parent = pool.view.Parent := by rw [hv]; rfl
  have hki : pool'.view.ChildrenExact := by
    rw [hv]
    exact hc.children
  rw [← ht] at hr
  obtain ⟨entry,hget,hd⟩ := exists_entry hr
  have hw : pool.view.forDescendants env r = entry.data.forDescendants env := by
    apply forDescendants_of_data
    rw [← hd,hv]
    rfl
  obtain ⟨hl,hset⟩ := listed_descendants hki hr
  rw [hParent] at hset
  have hst : pool'.view.ancestorState = f := by
    rw [hv]
    rfl
  apply bind (deref_yields hget)
  rintro entry rfl
  apply bind (plain_yields _)
  rintro _ rfl
  apply bind (toInt_yields _)
  rintro _ rfl
  have hlo := each_ancestorState_yields hl (-entry.data.forDescendants env) (by
    intro k hk
    have hbey := (hset k).mp hk
    rw [hst,← hw]
    exact hpos k (beyond_right_mem hbey) hbey)
  apply hlo.mono
  intro next hn
  rw [hn,hv,← hw]
  simp only [hset]
  rfl

theorem updateDescendants_loop (hnd : stage.Nodup) (hs : ∀ r ∈ stage, r ∈ pool.txids) :
    PoolYields (stage.foldlM (updateDescendantsForRemoval env) pool) fun next =>
      next.view = pool.view.withAncestorState (pool.view.ancestorsWithout env stage) := by
  apply foldlM_nodup (I := fun done (next : CTxMemPool) =>
    next.view = pool.view.withAncestorState (pool.view.ancestorsWithout env done)) hnd
  · intro done r pool' hnew hd hview
    have hmem : ∀ k ∈ done++[r], k ∈ pool.txids := fun k hk => hs k (hd k hk)
    apply (updateDescendantsForRemoval_yields hc hview (hmem r (by simp)) _).mono
    · intro next hn
      rw [hn]
      congr 1
      funext k
      rw [ancestorsWithout_concat hnew]
    · intro k hk hbey
      have hpos := PoolView.Consistent.ancestorsWithout_pos hc hmem hk
      rw [ancestorsWithout_concat hnew,if_pos hbey] at hpos
      exact hpos
  · rw [ancestorsWithout_nil]
    rfl

theorem childrenWithout_concat (done : List Uint256) (k : Uint256) :
    pool.view.childrenWithout (done++[r]) k =
      if k ∈ pool.view.parents r then (pool.view.childrenWithout done k).erase r
      else pool.view.childrenWithout done k := by
  rw [childrenWithout,filter_notMem_concat (hc.children k).1]
  split
  · rfl
  next hpar =>
    -- an entry that is not a child is not there to be erased
    apply erase_of_not_mem
    intro hmem
    have hch := ((hc.children k).2 r).mp (mem_of_mem_filter hmem)
    exact hpar (((hc.parents r).2 k).mpr hch)

theorem updateAncestorsForRemoval_yields (hv : pool'.view = pool.view.detached env g done) (hnew : r ∉ done)
    (hmem : ∀ k ∈ done++[r], k ∈ pool.txids) :
    PoolYields (updateAncestorsForRemoval env pool' r) fun next =>
      next.view = pool.view.detached env g (done++[r]) := by
  have hr : r ∈ pool.txids := hmem r (by simp)
  have ht : pool'.txids = pool.txids := txids_eq_of_data (by rw [hv]; rfl)
  have hParent : pool'.view.Parent = pool.view.Parent := by rw [hv]; rfl
  have hpa : pool'.view.ParentsExact := by
    rw [hv]
    exact hc.parents
  rw [← ht] at hr
  obtain ⟨entry,hget,hd⟩ := exists_entry hr
  have hs := shows_of_lookup hget
  rw [hv] at hd
  have hw : pool.view.forAncestors env r = entry.data.forAncestors env := forAncestors_of_data hd
  have he : entry.parents = pool.view.parents r := by
    rw [← hs.parents,hv]
    rfl
  have hli : Listed pool' (pool.view.parents r) := by
    refine ⟨(hc.parents r).1,fun p hp => ?_⟩
    rw [← mem_txids,ht]
    exact parent_left_mem (((hc.parents r).2 p).mp hp)
  obtain ⟨hl,hanc⟩ := listed_ancestors env hpa
    (by rw [hParent]; exact hc.acyclic) (hc.keyed r entry.data hd)
  rw [hParent] at hanc
  apply bind (deref_yields hget)
  rintro entry rfl
  apply bind (deref_yields hget)
  rintro entry rfl
  rw [he]
  apply bind (each_child_yields hli r false)
  intro unlinked hunl
  apply bind (plain_yields _)
  rintro _ rfl
  have hst : unlinked.view.descendantState = pool.view.descendantsWithout env done := by
    rw [hunl,hv]
    rfl
  have hls : Listed unlinked (ancestorsOf env pool' entry) := hl.of_data (by rw [hunl]; rfl)
  have hlo := each_descendantState_yields hls (-entry.data.forAncestors env) (by
    intro k hk
    have hbey := (hanc k).mp hk
    have hpos := PoolView.Consistent.descendantsWithout_pos hc hmem (beyond_left_mem hbey)
    rw [descendantsWithout_concat hnew,if_pos hbey,hw] at hpos
    rw [hst]
    exact hpos)
  simp only [Bool.false_eq_true,if_false,neg_one_mul]
  apply hlo.mono
  intro next hn
  have hde : pool.view.descendantsWithout env (done++[r]) = fun k =>
      if k ∈ ancestorsOf env pool' entry then
        pool.view.descendantsWithout env done k + -entry.data.forAncestors env
      else pool.view.descendantsWithout env done k := by
    funext k
    rw [descendantsWithout_concat hnew,hw]
    simp [hanc]
  have hki : pool.view.childrenWithout (done++[r]) = fun k =>
      if k ∈ pool.view.parents r then (pool.view.childrenWithout done k).erase r
      else pool.view.childrenWithout done k :=
    funext (childrenWithout_concat hc done)
  rw [hn,hunl,hv,detached,detached,hde,hki]
  rfl

theorem updateAncestors_loop (hv : pool'.view = pool.view.withAncestorState g) (hnd : stage.Nodup)
    (hs : ∀ r ∈ stage, r ∈ pool.txids) :
    PoolYields (stage.foldlM (updateAncestorsForRemoval env) pool') fun next =>
      next.view = pool.view.detached env g stage := by
  apply foldlM_nodup (I := fun done (next : CTxMemPool) =>
    next.view = pool.view.detached env g done) hnd
  · intro done r next hnew hd hnext
    exact updateAncestorsForRemoval_yields hc hnext hnew fun k hk => hs k (hd k hk)
  · have hki : pool.view.childrenWithout [] = pool.view.children := by
      funext k
      simp [childrenWithout]
    rw [hv,detached,descendantsWithout_nil,hki]
    rfl

theorem parentsWithout_concat (stage done : List Uint256) (k : Uint256) :
    pool.view.parentsWithout stage (done++[r]) k =
      if k ∈ pool.view.childrenWithout stage r then (pool.view.parentsWithout stage done k).erase r
      else pool.view.parentsWithout stage done k := by
  simp only [parentsWithout,filter_notMem_concat (hc.parents k).1]
  by_cases hk : k ∈ stage
  · simp [childrenWithout,hk]
  have hch : k ∈ pool.view.childrenWithout stage r ↔ r ∈ pool.view.parents k := by
    simp [childrenWithout,hk,(hc.children r).2,(hc.parents k).2]
  rw [if_neg hk]
  split
  · rfl
  next hnot =>
    apply erase_of_not_mem
    exact fun hmem => hnot (hch.mpr (mem_of_mem_filter hmem))

theorem updateChildren_loop (hv : pool'.view = pool.view.detached env g stage) (hnd : stage.Nodup) :
    PoolYields (stage.foldlM updateChildrenForRemoval pool') fun next =>
      next.view = (pool.view.detached env g stage).withParents (pool.view.parentsWithout stage stage) := by
  apply foldlM_nodup (I := fun done (next : CTxMemPool) =>
    next.view = (pool.view.detached env g stage).withParents (pool.view.parentsWithout stage done)) hnd
  · intro done r next _ _ hn
    have hki : next.childrenOf r = pool.view.childrenWithout stage r := congrFun (congrArg children hn) r
    have hl : Listed next (next.childrenOf r) := by
      rw [hki]
      refine ⟨(hc.children r).1.filter _,fun k hk => ?_⟩
      have hch := ((hc.children r).2 k).mp (mem_of_mem_filter hk)
      rw [mem_iff_data,hn]
      exact mem_txids_iff.mp (parent_right_mem hch)
    apply (each_parent_yields hl r).mono
    intro last hlast
    have hp : pool.view.parentsWithout stage (done++[r]) = fun k =>
        if k ∈ next.childrenOf r then (pool.view.parentsWithout stage done k).erase r
        else pool.view.parentsWithout stage done k := by
      rw [hki]
      exact funext (parentsWithout_concat hc stage done)
    rw [hlast,hn,hp]
    rfl
  · have hp : pool.view.parentsWithout stage [] = pool.view.parents := by
      funext k
      simp [parentsWithout]
    rw [hv,hp]
    rfl
end Loops

/-! ## Erasing the entries -/

theorem lookup_foldl_erase (l : List COutPoint) (map : AList fun _ => CTransaction) (prevout : COutPoint) :
    (l.foldl (fun map prevout => map.erase prevout) map).lookup prevout =
      if prevout ∈ l then none else map.lookup prevout := by
  induction l generalizing map with
  | nil => simp
  | cons p rest ih =>
    rw [foldl_cons,ih]
    by_cases hp : prevout = p
    · subst hp
      simp
    · simp [hp]

theorem lookup_component_erase {β : Type} (f : Option CTxMemPoolEntry → β) {b : β} {old : Uint256 → β}
    {map : AList fun _ => CTxMemPoolEntry} (hn : f none = b)
    (h : (fun k => f (map.lookup k)) = fun k => if k ∈ done then b else old k) :
    (fun k => f ((map.erase r).lookup k)) = fun k => if k ∈ done++[r] then b else old k := by
  funext k
  by_cases hk : k = r
  · subst hk
    simp [hn]
  · rw [AList.lookup_erase_ne hk,congrFun h k]
    simp [hk]

theorem removeUnchecked_yields {v : PoolView}
    (hv : pool'.view = v.erased env done) (hnew : r ∉ done) (hr : (v.data r).isSome) :
    PoolYields (removeUnchecked env pool' r) fun next => next.view = v.erased env (done++[r]) := by
  have hold : pool'.view.data r = v.data r := by
    rw [hv]
    exact if_neg hnew
  obtain ⟨entry,hget,hda⟩ := exists_entry (mem_txids_iff.mpr (hold ▸ hr))
  rw [hold] at hda
  apply bind (deref_yields hget)
  rintro entry rfl
  apply bind (plain_yields _)
  rintro _ rfl
  have hs : ∀ prevout, v.SpentBy (done++[r]) prevout ↔
      prevout ∈ entry.tx.prevouts ∨ v.SpentBy done prevout := by
    simp [PoolView.SpentBy,hda,or_comm,CTxMemPoolEntry.data]
  have hset : (done++[r]).toFinset = insert r done.toFinset := by simp
  have hsum : ∀ f : Uint256 → Int, ∑ k ∈ (done++[r]).toFinset, f k = f r + ∑ k ∈ done.toFinset, f k := by
    intro f
    rw [hset,Finset.sum_insert (by simpa using hnew)]
  simp only [view,erased,PoolView.mk.injEq] at hv ⊢
  obtain ⟨hd,hpa,hk,hde,hanc,hspr,hsi,hfee⟩ := hv
  refine ⟨lookup_component_erase (·.map CTxMemPoolEntry.data) rfl hd,
    lookup_component_erase (fun e => (e.map CTxMemPoolEntry.parents).getD []) rfl hpa,
    lookup_component_erase (fun e => (e.map CTxMemPoolEntry.children).getD []) rfl hk,
    lookup_component_erase (fun e => (e.map CTxMemPoolEntry.descendantState).getD 0) rfl hde,
    lookup_component_erase (fun e => (e.map CTxMemPoolEntry.ancestorState).getD 0) rfl hanc,
    ?_,?_,?_⟩
  · funext prevout
    rw [lookup_foldl_erase,congrFun hspr prevout]
    by_cases hp : prevout ∈ entry.tx.prevouts <;> simp [hs,hp]
  · have hent : v.sizeOf env r = entry.getTxSize env := by
      rw [PoolView.sizeOf,hda]
      rfl
    rw [hsum,hent,hsi]
    ring
  · have hent : v.feeOf r = entry.nFee := by
      rw [feeOf,hda]
      rfl
    rw [hsum,hent,hfee]
    ring

theorem removeUnchecked_loop {v : PoolView} (hv : pool'.view = v)
    (hnd : stage.Nodup) (hs : ∀ r ∈ stage, (v.data r).isSome) :
    PoolYields (stage.foldlM (removeUnchecked env) pool') fun next =>
      next.view = v.erased env stage := by
  apply foldlM_nodup (I := fun done (next : CTxMemPool) =>
    next.view = v.erased env done) hnd
  · intro done r next hnew hd hnext
    exact removeUnchecked_yields hnext hnew (hs r (hd r (by simp)))
  · rw [hv]
    simp [erased,PoolView.SpentBy]

theorem removeStaged_view (hc : pool.Consistent env) (hnd : stage.Nodup)
    (hs : ∀ r ∈ stage, r ∈ pool.txids) (updateDescendants : Bool) :
    PoolYields (removeStaged env pool stage updateDescendants) fun next =>
      next.view = pool.view.remaining env
        (if updateDescendants then pool.view.ancestorsWithout env stage else pool.view.ancestorState)
        stage := by
  have hfst : PoolYields
      (if updateDescendants then stage.foldlM (updateDescendantsForRemoval env) pool
        else return pool)
      fun next => next.view = pool.view.withAncestorState
        (if updateDescendants then pool.view.ancestorsWithout env stage
          else pool.view.ancestorState) := by
    cases updateDescendants with
    | true => exact updateDescendants_loop hc hnd hs
    | false => exact of_ok rfl
  have hl := hfst.bind fun _ hview =>
    (updateAncestors_loop hc hview hnd hs).bind fun _ hview =>
      updateChildren_loop hc hview hnd
  apply bind hl
  intro unlinked hview
  exact removeUnchecked_loop hview hnd fun r hr => mem_txids_iff.mp (hs r hr)
end CTxMemPool

/-! ## The pool that is left -/

namespace PoolView
variable {v : PoolView}
theorem remaining_data (k : Uint256) :
    (v.remaining env g stage).data k = if k ∈ stage then none else v.data k := rfl
theorem remaining_parents (k : Uint256) :
    (v.remaining env g stage).parents k = if k ∈ stage then [] else (v.parents k).filter (· ∉ stage) := by
  by_cases hk : k ∈ stage
  · exact (if_pos hk).trans (if_pos hk).symm
  · exact (if_neg hk).trans (if_neg hk) |>.trans (if_neg hk).symm

theorem exact_outside {links : Uint256 → List Uint256} {R R' : Uint256 → Uint256 → Prop}
    (h : ∀ k, (links k).Nodup ∧ ∀ p, p ∈ links k ↔ R p k) (hout : Outside R R' stage.toFinset) (k : Uint256) :
    (if k ∈ stage then [] else (links k).filter (· ∉ stage)).Nodup ∧
      ∀ p, p ∈ (if k ∈ stage then [] else (links k).filter (· ∉ stage)) ↔ R' p k := by
  have hR := fun p => hout p k
  split
  · next hk => simp [hR,hk]
  · next hk => simp [hR,hk,(h k).1.filter,(h k).2]

theorem outside_of_data {v v' : PoolView} {stage : List Uint256}
    (h : ∀ k, v'.data k = if k ∈ stage then none else v.data k) :
    Outside v.Parent v'.Parent stage.toFinset := by
  intro p c
  simp only [Parent,h]
  by_cases hp : p ∈ stage
  · simp [hp]
  · by_cases hc : c ∈ stage
    · simp [hc]
    · simp [hp,hc]

variable {k : Uint256}
theorem remaining_weights (env : MemPoolEnv) (v : PoolView) (g : Uint256 → AncestorState) (hk : k ∉ stage) :
    (v.remaining env g stage).forAncestors env k = v.forAncestors env k ∧
      (v.remaining env g stage).forDescendants env k = v.forDescendants env k ∧
      (v.remaining env g stage).sizeOf env k = v.sizeOf env k ∧
      (v.remaining env g stage).feeOf k = v.feeOf k := by
  simp [forAncestors,forDescendants,sizeOf,feeOf,remaining_data,hk]

theorem Consistent.spender_unique (h : v.Consistent env txids) {prevout : COutPoint}
    {data data' : EntryData} (hk : v.data k = some data) (hr : v.data r = some data')
    (hpr : prevout ∈ data.tx.prevouts) (hp : prevout ∈ data'.tx.prevouts) : k = r := by
  have hspr := (h.spender prevout data.tx).mpr ⟨k,data,hk,rfl,hpr⟩
  have hs := (h.spender prevout data'.tx).mpr ⟨r,data',hr,rfl,hp⟩
  rw [hspr] at hs
  rw [← h.keyed k data hk,← h.keyed r data' hr,Option.some.inj hs]

theorem Consistent.remaining (h : v.Consistent env txids) (hs : ∀ r ∈ stage, r ∈ txids)
    (hcl : Closed v.Parent stage.toFinset)
    (hg : ∀ k ∈ txids, k ∉ stage → g k = v.ancestorsWithout env stage k) :
    (v.remaining env g stage).Consistent env (txids \ stage.toFinset) := by
  have hsub : stage.toFinset ⊆ txids := fun r hr => hs r (mem_toFinset.mp hr)
  have hout : Outside v.Parent (v.remaining env g stage).Parent stage.toFinset := outside_of_data remaining_data
  have hst : ∀ {k}, k ∈ txids \ stage.toFinset → k ∈ txids ∧ k ∉ stage := by simp
  have hwts := fun k (hk : k ∈ txids \ stage.toFinset) =>
    remaining_weights env v g (hst hk).2
  refine ⟨⟨?_,?_,?_,?_,?_⟩,?_,?_,?_,?_,?_⟩
  · intro k
    rw [Finset.mem_sdiff,h.mem,remaining_data]
    by_cases hk : k ∈ stage <;> simp [hk]
  · intro k data hda
    rw [remaining_data] at hda
    split at hda
    · cases hda
    · exact h.keyed k data hda
  · intro prevout tx
    change (if v.SpentBy stage prevout then none else v.spender prevout) = _ ↔ _
    constructor
    · intro hspr
      split at hspr
      · cases hspr
      next hsp =>
        obtain ⟨k,data,hda,rfl,hpr⟩ := (h.spender prevout tx).mp hspr
        have hk : k ∉ stage := fun hk => hsp ⟨k,hk,data,hda,hpr⟩
        exact ⟨k,data,by rw [remaining_data,if_neg hk,hda],rfl,hpr⟩
    · rintro ⟨k,data,hda,rfl,hpr⟩
      rw [remaining_data] at hda
      split at hda
      · cases hda
      next hk =>
        rw [if_neg,h.spender]
        · exact ⟨k,data,hda,rfl,hpr⟩
        · -- a removed spender of the outpoint would be the one that stays
          rintro ⟨r,hr,data',hd,hp⟩
          exact hk (h.spender_unique hda hd hpr hp ▸ hr)
  · rw [Finset.sum_congr rfl fun k hk => (hwts k hk).2.2.1,Finset.sum_sdiff_eq_sub hsub,← h.totalTxSize]
    rfl
  · rw [Finset.sum_congr rfl fun k hk => (hwts k hk).2.2.2,Finset.sum_sdiff_eq_sub hsub,← h.totalFee]
    rfl
  · intro k hcycle
    exact h.acyclic k (TransGen.mono (fun a b hab => ((hout a b).mp hab).1) _ _ hcycle)
  · intro k
    rw [remaining_parents]
    exact exact_outside h.parents hout k
  · intro k
    exact exact_outside h.children hout.swap k
  · intro k hk
    rw [total_congr fun y hy => (hwts y hy).2.1,
      total_outside hsub hcl.swap hout.swap (by simpa using (hst hk).2),
      ← h.ancestorState k (hst hk).1]
    exact (if_neg (hst hk).2).trans (hg k (hst hk).1 (hst hk).2)
  · intro k hk
    rw [total_congr fun y hy => (hwts y hy).1,total_outside hsub hcl hout (by simpa using (hst hk).2),
      ← h.descendantState k (hst hk).1]
    exact if_neg (hst hk).2

/-- Nothing is taken off the ancestors of what stays if all descendants of the stage are in it. -/
theorem ancestorsWithout_of_closed (hout : ∀ a b, v.Parent a b → a ∈ stage → b ∈ stage) (hk : k ∉ stage) :
    v.ancestorsWithout env stage k = v.ancestorState k := by
  have hn : ∑ r ∈ stage.toFinset with Beyond (Function.swap v.Parent) k r,
      v.forDescendants env r = 0 := by
    apply sum_beyond_eq_zero
    · intro a b hab hb
      simp only [mem_toFinset] at hb ⊢
      exact hout b a hab hb
    · simpa using hk
  rw [ancestorsWithout,hn,sub_zero]
end PoolView

namespace CTxMemPool
variable {pool : CTxMemPool}
structure Removes (env : MemPoolEnv) (pool : CTxMemPool) (stage : List Uint256) (next : CTxMemPool) : Prop where
  consistent : next.Consistent env
  data : ∀ k, next.view.data k = if k ∈ stage then none else pool.view.data k

/-- The stage holds all descendants of its entries, or all their ancestors if these are updated. -/
def Removable (pool : CTxMemPool) (stage : List Uint256) (updateDescendants : Bool) : Prop :=
  (∀ a b, pool.view.Parent a b → a ∈ stage → b ∈ stage) ∨
    updateDescendants = true ∧ ∀ a b, pool.view.Parent a b → b ∈ stage → a ∈ stage

theorem removeStaged_yields (hc : pool.Consistent env) {updateDescendants : Bool} (hnd : stage.Nodup)
    (hs : ∀ r ∈ stage, r ∈ pool.txids) (hrem : pool.Removable stage updateDescendants) :
    PoolYields (removeStaged env pool stage updateDescendants) (pool.Removes env stage) := by
  apply (removeStaged_view hc hnd hs updateDescendants).mono
  intro next hv
  have hcl : Closed pool.view.Parent stage.toFinset := by
    simp only [Closed,mem_toFinset]
    exact hrem.imp_right And.right
  have hst : ∀ k ∈ pool.txids, k ∉ stage →
      (if updateDescendants then pool.view.ancestorsWithout env stage
        else pool.view.ancestorState) k = pool.view.ancestorsWithout env stage k := by
    intro k _ hk
    rcases hrem with hout | ⟨hupd,_⟩
    · rw [ancestorsWithout_of_closed hout hk]
      split
      · exact ancestorsWithout_of_closed hout hk
      · rfl
    · rw [if_pos hupd]
  have hco := PoolView.Consistent.remaining hc hs hcl hst
  have hd : ∀ k, next.view.data k = if k ∈ stage then none else pool.view.data k := by
    intro k
    rw [hv,remaining_data]
  refine ⟨?_,hd⟩
  have ht : next.txids = pool.txids \ stage.toFinset := by
    ext k
    rw [mem_txids_iff,hd,Finset.mem_sdiff,mem_txids_iff]
    by_cases hk : k ∈ stage <;> simp [hk]
  rw [Consistent,ht,hv]
  exact hco
end CTxMemPool
end Lcryp
