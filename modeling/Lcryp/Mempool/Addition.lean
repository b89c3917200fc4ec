import Lcryp.Mempool.Removal

/-!
# Adding an entry

`addUnchecked` links a new entry to its parents, adds it to the totals of its ancestors and sets its own.
-/
namespace Lcryp
open Interaction Relation Lineage List PoolView Function Yields
structure PoolView.Addable (env : MemPoolEnv) (v : PoolView) (tx : CTransaction) : Prop where
  new : v.data (env.getHash tx) = none
  unspent : ∀ prevout ∈ tx.prevouts, v.spender prevout = none
  notOwn : env.getHash tx ∉ tx.prevTxids
  childless : ∀ k data, v.data k = some data → env.getHash tx ∉ data.tx.prevTxids

namespace PoolView
variable (env : MemPoolEnv) (v : PoolView)
/-- The view with one more entry, its parents and its ancestors given. -/
noncomputable def extended (data : EntryData) (parents ancestors : List Uint256) : PoolView :=
  let n := env.getHash data.tx
  { data := update v.data n (some data)
    parents := update v.parents n parents
    children := fun k =>
      if k ∈ parents then (update v.children n [] k).insert n
      else update v.children n [] k
    descendantState := fun k =>
      if k ∈ ancestors then
        update v.descendantState n (data.forAncestors env) k + data.forAncestors env
      else update v.descendantState n (data.forAncestors env) k
    ancestorState := update v.ancestorState n
      (data.forDescendants env + ∑ a ∈ ancestors.toFinset, v.forDescendants env a)
    spender := fun prevout => if prevout ∈ data.tx.prevouts then some data.tx else v.spender prevout
    totalTxSize := v.totalTxSize + data.getTxSize env
    totalFee := v.totalFee + data.nFee }

variable {env v} {txids : Finset Uint256} {data : EntryData} {parents ancestors : List Uint256}
theorem extended_data_new : (v.extended env data parents ancestors).data (env.getHash data.tx) = some data :=
  update_self _ _ _
theorem extended_data_old {k : Uint256} (hk : k ≠ env.getHash data.tx) :
    (v.extended env data parents ancestors).data k = v.data k :=
  update_of_ne hk _ _

/-- A view whose links are a graph, a transaction to add to it, and its parents and ancestors there. -/
structure Growth (env : MemPoolEnv) (v : PoolView) (R : Uint256 → Uint256 → Prop)
    (txids : Finset Uint256) (data : EntryData) (parents ancestors : List Uint256) : Prop where
  keyed : v.Keyed env txids
  linked : v.Linked env R txids
  new : v.data (env.getHash data.tx) = none
  unspent : ∀ prevout ∈ data.tx.prevouts, v.spender prevout = none
  parents_nodup : parents.Nodup
  mem_parents : ∀ p, p ∈ parents ↔ p ∈ txids ∧ p ∈ data.tx.prevTxids
  mem_ancestors : ∀ a, a ∈ ancestors ↔ ∃ p ∈ parents, ReflTransGen R a p

def grown (R : Uint256 → Uint256 → Prop) (parents : List Uint256) (n a b : Uint256) : Prop :=
  R a b ∨ a ∈ parents ∧ b = n

namespace Growth
variable {R : Uint256 → Uint256 → Prop} (h : Growth env v R txids data parents ancestors)
noncomputable abbrev next (_ : Growth env v R txids data parents ancestors) : PoolView :=
  v.extended env data parents ancestors

abbrev id (_ : Growth env v R txids data parents ancestors) : Uint256 := env.getHash data.tx

include h

theorem notMem : h.id ∉ txids := by
  rw [h.keyed.mem,h.new]
  exact Bool.false_ne_true

variable {k : Uint256}
theorem ne_of_mem (hk : k ∈ txids) : k ≠ h.id := fun heq => h.notMem (heq ▸ hk)
theorem mem_of_parents {p : Uint256} (hp : p ∈ parents) : p ∈ txids := ((h.mem_parents p).mp hp).1
theorem mem_of_ancestors {a : Uint256} (ha : a ∈ ancestors) : a ∈ txids := by
  obtain ⟨p,hp,hr⟩ := (h.mem_ancestors a).mp ha
  rcases ReflTransGen.cases_head hr with rfl | ⟨c,hs,_⟩
  · exact h.mem_of_parents hp
  · exact (h.linked.inside _ _ hs).1

theorem lineage :
    Extends R (grown R parents h.id) txids {p | p ∈ parents}
      h.id :=
  ⟨h.notMem,fun _ => h.mem_of_parents,h.linked.inside,fun _ _ => Iff.rfl⟩

theorem parents_eq (k : Uint256) :
    (h.next.parents k).Nodup ∧ ∀ p, p ∈ h.next.parents k ↔ grown R parents h.id p k := by
  by_cases hk : k = h.id
  · subst hk
    have hl : h.next.parents h.id = parents := update_self _ _ _
    have hold : ∀ p, ¬ R p h.id := fun p hp => h.notMem (h.linked.inside _ _ hp).2
    simp [hl,grown,hold,h.parents_nodup]
  · have hl : h.next.parents k = v.parents k := update_of_ne hk _ _
    simp [hl,grown,hk,h.linked.parents k]

theorem children_eq (k : Uint256) :
    (h.next.children k).Nodup ∧ ∀ c, c ∈ h.next.children k ↔ grown R parents h.id k c := by
  by_cases hk : k = h.id
  · subst hk
    have hnot : h.id ∉ parents := fun hp => h.notMem (h.mem_of_parents hp)
    have hl : h.next.children h.id = [] := by simp [extended,hnot]
    have hold : ∀ c, ¬ R h.id c := fun c hc => h.notMem (h.linked.inside _ _ hc).1
    simp [hl,grown,hold,hnot]
  · have hl : h.next.children k =
        if k ∈ parents then (v.children k).insert h.id else v.children k := by
      simp [extended,hk]
    obtain ⟨hnd,hmem⟩ := h.linked.children k
    rw [hl]
    split
    · next hp => simp [grown,hmem,hnd.insert,hp,or_comm]
    · next hp => simp [grown,hmem,hnd,hp]

theorem weights_old {y : Uint256} (hy : y ∈ txids) :
    h.next.forAncestors env y = v.forAncestors env y ∧ h.next.forDescendants env y = v.forDescendants env y ∧
      h.next.sizeOf env y = v.sizeOf env y ∧ h.next.feeOf y = v.feeOf y := by
  simp [forAncestors,forDescendants,sizeOf,feeOf,extended_data_old (h.ne_of_mem hy)]

theorem ancestorState_eq (hk : k ∈ insert h.id txids) :
    h.next.ancestorState k =
      total (swap (grown R parents h.id)) (insert h.id txids)
        (h.next.forDescendants env) k := by
  rcases Finset.mem_insert.mp hk with rfl | hk
  · have hown : h.next.forDescendants env h.id =
        data.forDescendants env := forDescendants_of_data extended_data_new
    rw [h.lineage.total_swap_new,hown]
    refine (update_self _ _ _).trans ?_
    congr 1
    symm
    apply Finset.sum_congr
    · ext a
      have hanc : (∃ p ∈ {p | p ∈ parents}, ReflTransGen R a p) ↔ a ∈ ancestors := (h.mem_ancestors a).symm
      simp only [Finset.mem_filter,mem_toFinset,hanc]
      exact and_iff_right_of_imp h.mem_of_ancestors
    · intro a ha
      exact (h.weights_old (h.mem_of_ancestors (mem_toFinset.mp ha))).2.1
  · rw [h.lineage.total_swap_old hk,total_congr fun y hy => (h.weights_old hy).2.1,
      ← h.linked.ancestorState k hk]
    exact update_of_ne (h.ne_of_mem hk) _ _

theorem descendantState_eq (hk : k ∈ insert h.id txids) :
    h.next.descendantState k =
      total (grown R parents h.id) (insert h.id txids)
        (h.next.forAncestors env) k := by
  have hown : h.next.forAncestors env h.id = data.forAncestors env := forAncestors_of_data extended_data_new
  rcases Finset.mem_insert.mp hk with rfl | hk
  · have hnot : h.id ∉ ancestors := fun ha => h.notMem (h.mem_of_ancestors ha)
    rw [total_of_no_step (Finset.mem_insert_self _ _) h.lineage.no_step_from_new,hown]
    simp [extended,hnot]
  · have hanc : (∃ p ∈ {p | p ∈ parents}, ReflTransGen R k p) ↔ k ∈ ancestors := (h.mem_ancestors k).symm
    rw [h.lineage.total_old hk,total_congr fun y hy => (h.weights_old hy).1,
      ← h.linked.descendantState k hk,hown]
    simp only [hanc,extended,update_of_ne (h.ne_of_mem hk)]
    split
    · rfl
    · rw [add_zero]

theorem spender_iff (prevout : COutPoint) (tx : CTransaction) :
    h.next.spender prevout = some tx ↔
      ∃ k data', h.next.data k = some data' ∧ data'.tx = tx ∧ prevout ∈ tx.prevouts := by
  have hspr : h.next.spender prevout =
      if prevout ∈ data.tx.prevouts then some data.tx else v.spender prevout := rfl
  rw [hspr]
  constructor
  · intro hs
    split at hs
    next hin =>
      rw [← Option.some.inj hs]
      exact ⟨_,data,extended_data_new,rfl,hin⟩
    · obtain ⟨k,data',hd,rest⟩ := (h.keyed.spender prevout tx).mp hs
      have hk : k ∈ txids := by rw [h.keyed.mem,hd]; rfl
      exact ⟨k,data',by rw [extended_data_old (h.ne_of_mem hk),hd],rest⟩
  · rintro ⟨k,data',hd,rfl,hp⟩
    by_cases hk : k = h.id
    · rw [hk,extended_data_new] at hd
      rw [Option.some.inj hd,if_pos hp]
    rw [extended_data_old hk] at hd
    have hold := (h.keyed.spender prevout data'.tx).mpr ⟨k,data',hd,rfl,hp⟩
    rw [if_neg,hold]
    -- what the pool spends the new transaction does not
    intro hin
    rw [h.unspent prevout hin] at hold
    cases hold

theorem keyed_extended : h.next.Keyed env (insert h.id txids) := by
  constructor
  · intro k
    rw [Finset.mem_insert,h.keyed.mem]
    by_cases hk : k = h.id
    · simp [hk,extended_data_new]
    · simp [hk,extended_data_old]
  · intro k data' hd
    by_cases hk : k = h.id
    · rw [hk,extended_data_new] at hd
      cases hd
      exact hk.symm
    · rw [extended_data_old hk] at hd
      exact h.keyed.keyed k data' hd
  · exact h.spender_iff
  · have hown : h.next.sizeOf env h.id = data.getTxSize env := by simp [sizeOf,extended_data_new]
    rw [Finset.sum_insert h.notMem,hown,Finset.sum_congr rfl fun k hk => (h.weights_old hk).2.2.1,
      ← h.keyed.totalTxSize,add_comm]
    rfl
  · have hown : h.next.feeOf h.id = data.nFee := by simp [feeOf,extended_data_new]
    rw [Finset.sum_insert h.notMem,hown,Finset.sum_congr rfl fun k hk => (h.weights_old hk).2.2.2,
      ← h.keyed.totalFee,add_comm]
    rfl

theorem linked_extended :
    h.next.Linked env (grown R parents h.id)
      (insert h.id txids) := by
  constructor
  · rintro a b (hab | ⟨ha,rfl⟩)
    · have hin := h.linked.inside a b hab
      exact ⟨Finset.mem_insert_of_mem hin.1,Finset.mem_insert_of_mem hin.2⟩
    · exact ⟨Finset.mem_insert_of_mem (h.mem_of_parents ha),Finset.mem_insert_self _ _⟩
  · exact h.lineage.acyclic h.linked.acyclic
  · exact h.parents_eq
  · exact h.children_eq
  · exact fun k hk => h.ancestorState_eq hk
  · exact fun k hk => h.descendantState_eq hk
end Growth

/-- A consistent view, a transaction to add to it, and its parents and ancestors there. -/
structure Extension (env : MemPoolEnv) (v : PoolView) (txids : Finset Uint256) (data : EntryData)
    (parents ancestors : List Uint256) : Prop where
  consistent : v.Consistent env txids
  addable : v.Addable env data.tx
  parents_nodup : parents.Nodup
  mem_parents : ∀ p, p ∈ parents ↔ p ∈ txids ∧ p ∈ data.tx.prevTxids
  mem_ancestors : ∀ a, a ∈ ancestors ↔ ∃ p ∈ parents, ReflTransGen v.Parent a p
namespace Extension
variable (h : Extension env v txids data parents ancestors)
include h

theorem growth : Growth env v v.Parent txids data parents ancestors := by
  obtain ⟨hk,hl⟩ := consistent_iff.mp h.consistent
  exact ⟨hk,hl,h.addable.new,h.addable.unspent,h.parents_nodup,h.mem_parents,h.mem_ancestors⟩

theorem parent_extended : h.growth.next.Parent = grown v.Parent parents (env.getHash data.tx) := by
  funext a b
  rw [grown]
  by_cases hb : b = env.getHash data.tx
  · subst hb
    have hold : ¬ v.Parent a (env.getHash data.tx) := fun hab => h.growth.notMem (h.growth.keyed.inside hab).2
    have hs : h.growth.next.Parent a (env.getHash data.tx) ↔ a ∈ txids ∧ a ∈ data.tx.prevTxids := by
      simp only [Parent,extended_data_new,Option.some.injEq,exists_eq_left',h.consistent.mem]
      refine and_congr_left fun ha => ?_
      rw [extended_data_old fun heq => h.addable.notOwn (heq ▸ ha)]
    rw [hs,← h.mem_parents]
    simp [hold]
  · have hs : h.growth.next.Parent a b ↔ v.Parent a b := by
      simp only [Parent,extended_data_old hb]
      refine and_congr_left fun hsp => ?_
      obtain ⟨data',hd,ha⟩ := hsp
      rw [extended_data_old fun heq => h.addable.childless b data' hd (heq ▸ ha)]
    simp [hs,hb]
end Extension
end PoolView

/-! ## The ancestors of a new transaction -/

variable {setAncestors : List Uint256} {R : Uint256 → Uint256 → Prop} {entry : CTxMemPoolEntry}
namespace CTxMemPool
variable {env : MemPoolEnv} {pool : CTxMemPool}
theorem getIterSet_spec (pool : CTxMemPool) (hashes : List Uint256) :
    (pool.getIterSet hashes).Nodup ∧ ∀ p, p ∈ pool.getIterSet hashes ↔ p ∈ hashes ∧ p ∈ pool.mapTx := by
  have hl : ∀ (l found : List Uint256), found.Nodup →
      (l.foldl (fun ret h => if h ∈ pool.mapTx then ret.insert h else ret) found).Nodup ∧
        ∀ p, p ∈ l.foldl (fun ret h => if h ∈ pool.mapTx then ret.insert h else ret) found ↔
          p ∈ found ∨ p ∈ l ∧ p ∈ pool.mapTx := by
    intro l
    induction l with
    | nil => simp
    | cons h rest ih =>
      intro found hfound
      rw [foldl_cons]
      split
      next hin =>
        obtain ⟨hnd,hmem⟩ := ih _ hfound.insert
        refine ⟨hnd,fun p => (hmem p).trans ?_⟩
        by_cases hp : p = h
        · simp [hp,hin]
        · simp [hp]
      next hout =>
        obtain ⟨hnd,hmem⟩ := ih _ hfound
        refine ⟨hnd,fun p => (hmem p).trans ?_⟩
        by_cases hp : p = h
        · simp [hp,hout]
        · simp [hp]
  simpa [getIterSet] using hl hashes [] nodup_nil

variable {limits : MemPoolLimits}
theorem stageInputs_eq_foldl {prevouts : List COutPoint} {staged l : List Uint256}
    (h : stageInputs pool limits staged prevouts = .ok l) :
    l = (prevouts.map COutPoint.hash).foldl
      (fun ret hash => if hash ∈ pool.mapTx then ret.insert hash else ret) staged := by
  induction prevouts generalizing staged with
  | nil => exact (Except.ok.inj h).symm
  | cons prevout rest ih =>
    rw [stageInputs] at h
    rw [map_cons,foldl_cons]
    split at h
    next hin =>
      rw [if_pos hin]
      exact ih (require_bind_eq_ok.mp h).2
    next hout =>
      rw [if_neg hout]
      exact ih h

theorem mem_calculateMemPoolAncestors (hl : pool.view.Linked env R pool.txids)
    (h : calculateMemPoolAncestors env pool entry limits true = .ok setAncestors) :
    setAncestors.Nodup ∧ ∀ a, a ∈ setAncestors ↔
      ∃ p, (p ∈ pool.txids ∧ p ∈ entry.tx.prevTxids) ∧ ReflTransGen R a p := by
  obtain ⟨staged,hs,hc⟩ := bind_eq_ok.mp h
  obtain ⟨hnd,hmem⟩ := pool.getIterSet_spec entry.tx.prevTxids
  rw [calculateAncestors_eq_ok env hc,stageInputs_eq_foldl hs]
  obtain ⟨hnd',hm⟩ := mem_explore_parents (fun k => (hl.parents k).2)
    (fun a b hab => (hl.inside a b hab).1) hnd fun a ha => mem_txids.mpr ((hmem a).mp ha).2
  refine ⟨hnd',fun a => (hm a).trans ?_⟩
  simp [hmem,mem_txids,and_comm]
end CTxMemPool

/-! ## The stages of `addUnchecked` -/

variable (env : MemPoolEnv)

def PoolView.withNew (v : PoolView) (data : EntryData) (parents : List Uint256) : PoolView :=
  { v with
    data := update v.data (env.getHash data.tx) (some data)
    parents := update v.parents (env.getHash data.tx) parents
    children := update v.children (env.getHash data.tx) []
    descendantState := update v.descendantState (env.getHash data.tx) (data.forAncestors env)
    ancestorState := update v.ancestorState (env.getHash data.tx) (data.forDescendants env) }

def PoolView.spenderWith (v : PoolView) (tx : CTransaction) (prevout : COutPoint) : Option CTransaction :=
  if prevout ∈ tx.prevouts then some tx else v.spender prevout
structure CTxMemPoolEntry.IsNew (entry : CTxMemPoolEntry) : Prop where
  parents : entry.parents = []
  children : entry.children = []
  descendantState : entry.descendantState = entry.data.forAncestors env
  ancestorState : entry.ancestorState = entry.data.forDescendants env

theorem CTxMemPoolEntry.new_isNew (tx : CTransaction) (fee nTime : Int)
    (sigOpCost : Nat) : (new env tx fee nTime sigOpCost).IsNew env := ⟨rfl,rfl,rfl,rfl⟩
theorem CTxMemPoolEntry.IsNew.setEntry {env : MemPoolEnv} (h : entry.IsNew env)
    (v : PoolView) : v.setEntry (env.getHash entry.tx) entry = v.withNew env entry.data [] := by
  rw [PoolView.setEntry,h.parents,h.children,h.descendantState,h.ancestorState]
  rfl

namespace CTxMemPool
variable {env : MemPoolEnv} {pool pool' : CTxMemPool}
variable {entry : CTxMemPoolEntry}
theorem applyDelta_yields (pool : CTxMemPool) (hash : Uint256) :
    PoolYields (pool.applyDelta hash 0) fun delta => delta = pool.deltaOf hash := by
  unfold applyDelta deltaOf
  cases pool.mapDeltas.lookup hash with
  | none => exact of_ok rfl
  | some delta => exact (plain_yields _).mono fun _ heq => heq.trans (zero_add delta)

theorem enter_yields (hnew : entry.IsNew env)
    (hv : (insertEntry env pool entry).view = pool.view.setEntry (env.getHash entry.tx) entry) :
    PoolYields (enter env pool entry) fun next =>
      ∃ data, data.tx = entry.tx ∧ data.nFee = entry.nFee ∧
        data.sigOpCost = entry.sigOpCost ∧ next.view = pool.view.withNew env data [] := by
  apply bind (applyDelta_yields _ _)
  intro delta _
  split
  · have hmem : env.getHash entry.tx ∈ (insertEntry env pool entry).mapTx := by
      rw [mem_iff_data,hv]
      simp [setEntry]
    apply (modify_entry_yields hmem fun e => e.updateModifiedFee_yields _).mono
    rintro next ⟨e,updated,he,⟨hd,hp,hk,hde,hanc⟩,hn⟩
    rw [hv] at he
    cases he.unique (pool.view.shows_setEntry _ _)
    have htx : updated.tx = entry.tx := congrArg EntryData.tx hd
    have hi : updated.IsNew env := by
      refine ⟨hp.trans hnew.parents,hk.trans hnew.children,?_,?_⟩
      · rw [hde,hnew.descendantState,hd]
        simp [EntryData.forAncestors,EntryData.getTxSize,EntryData.prioritised]
      · rw [hanc,hnew.ancestorState,hd]
        simp [EntryData.forDescendants,EntryData.getTxSize,EntryData.prioritised]
    refine ⟨updated.data,htx,congrArg EntryData.nFee hd,congrArg EntryData.sigOpCost hd,?_⟩
    rw [hn,hv,setEntry_setEntry,← htx,hi.setEntry]
  · refine of_ok ⟨entry.data,rfl,rfl,rfl,?_⟩
    rw [hv,hnew.setEntry]

theorem view_insertNextTx (l : List COutPoint) (tx : CTransaction) (pool : CTxMemPool)
    (h : ∀ prevout ∈ l, pool.view.spender prevout = none ∨ pool.view.spender prevout = some tx) :
    (l.foldl (fun pool prevout => pool.insertNextTx prevout tx) pool).view =
      pool.view.withSpender fun prevout =>
        if prevout ∈ l then some tx else pool.view.spender prevout := by
  induction l generalizing pool with
  | nil => simp [withSpender]
  | cons prevout rest ih =>
    have hst : (pool.insertNextTx prevout tx).view =
        pool.view.withSpender (update pool.view.spender prevout (some tx)) := by
      unfold insertNextTx
      split
      next hin =>
        -- the spender that is there already is the transaction itself
        have hs : pool.view.spender prevout = some tx := by
          rcases h prevout mem_cons_self with hn | hs
          · exact absurd hin (AList.lookup_eq_none.mp hn)
          · exact hs
        rw [← hs,update_eq_self]
        rfl
      · simp only [view,withSpender,PoolView.mk.injEq,true_and,and_true]
        refine ⟨rfl,rfl,?_⟩
        funext p
        by_cases hp : p = prevout
        · subst hp
          simp
        · simp [hp]
    rw [foldl_cons,ih,hst]
    · simp only [withSpender,PoolView.mk.injEq,true_and,and_true]
      funext p
      by_cases hp : p = prevout
      · simp [hp]
      · simp [hp]
    · intro p hp
      rw [hst]
      by_cases heq : p = prevout
      · simp [withSpender,heq]
      · simpa [withSpender,heq] using h p (mem_cons_of_mem _ hp)

variable {data : EntryData}
theorem each_newParent_yields {v : PoolView} (hv : pool.view = v.withNew env data []) (l : List Uint256) :
    PoolYields (l.foldlM (fun pool pit => updateParent pool (env.getHash data.tx) pit true) pool)
      fun next => ∃ parents, parents.Nodup ∧ (∀ p, p ∈ parents ↔ p ∈ l) ∧
        next.view = v.withNew env data parents := by
  apply foldlM (I := fun done (next : CTxMemPool) =>
    ∃ parents, parents.Nodup ∧ (∀ p, p ∈ parents ↔ p ∈ done) ∧
      next.view = v.withNew env data parents)
  · rintro done pit _ next _ ⟨parents,hnd,hmem,hn⟩
    have hin : env.getHash data.tx ∈ next.mapTx := by
      rw [mem_iff_data,hn]
      simp [withNew]
    apply (updateParent_yields pit true hin).mono
    intro last hlast
    refine ⟨parents.insert pit,hnd.insert,fun p => ?_,?_⟩
    · simp [hmem,or_comm]
    · rw [hlast,hn]
      simp [withParents,withNew]
  · exact ⟨[],nodup_nil,fun _ => Iff.rfl,hv⟩

theorem linkParents_yields (hv : pool'.view = pool.view.withNew env data [])
    (hu : ∀ prevout ∈ data.tx.prevouts, pool.view.spender prevout = none)
    (hno : env.getHash data.tx ∉ data.tx.prevTxids) :
    PoolYields (pool'.linkParents (env.getHash data.tx)) fun next =>
      ∃ parents, parents.Nodup ∧ (∀ p, p ∈ parents ↔ p ∈ pool.txids ∧ p ∈ data.tx.prevTxids) ∧
        next.view = (pool.view.withSpender (pool.view.spenderWith data.tx)).withNew env data parents := by
  have hn : env.getHash data.tx ∈ pool'.txids := by
    rw [mem_txids_iff,hv]
    simp [withNew]
  obtain ⟨entry,hget,hd⟩ := exists_entry hn
  have htx : entry.tx = data.tx := by
    rw [hv] at hd
    simp only [withNew,update_self,Option.some.injEq] at hd
    rw [hd]
    rfl
  apply bind (deref_yields hget)
  rintro entry rfl
  rw [htx]
  have hs := view_insertNextTx data.tx.prevouts data.tx pool' (by
    intro prevout hprev
    rw [hv]
    exact .inl (hu prevout hprev))
  rw [hv] at hs
  apply (each_newParent_yields (v := pool.view.withSpender (pool.view.spenderWith data.tx)) hs
    _).mono
  rintro next ⟨parents,hnd,hmem,hnx⟩
  refine ⟨parents,hnd,fun p => ?_,hnx⟩
  rw [hmem,(getIterSet_spec _ _).2,mem_iff_data,hs,and_comm]
  refine and_congr_left fun hp => ?_
  have hne : p ≠ env.getHash data.tx := fun heq => hno (heq ▸ hp)
  rw [mem_txids_iff]
  simp [withSpender,withNew,hne]

variable {l : List Uint256}
theorem sumAncestors_yields (env : MemPoolEnv) (sums : Int × Int × Int) (hl : ∀ a ∈ l, a ∈ pool.txids) :
    PoolYields (sumAncestors env pool sums l) fun result =>
      ((l.length : Int), result) = ((0 : Int), sums) + (l.map (pool.view.forDescendants env)).sum := by
  induction l generalizing sums with
  | nil =>
    apply of_ok
    simp
  | cons a rest ih =>
    obtain ⟨entry,hget,hd⟩ := exists_entry (hl a mem_cons_self)
    apply bind (deref_yields hget)
    rintro entry rfl
    apply bind (plain_yields _)
    rintro _ rfl
    apply (ih _ fun b hb => hl b (mem_cons_of_mem _ hb)).mono
    rintro ⟨size',fee',sigOps'⟩ hres
    rw [map_cons,sum_cons,forDescendants_of_data hd]
    simp only [Prod.ext_iff,Prod.fst_add,Prod.snd_add,EntryData.forDescendants,
      length_cons,Nat.cast_add] at hres ⊢
    obtain ⟨hcnt,hs,hfee,hsig⟩ := hres
    refine ⟨?_,?_,?_,?_⟩
    · rw [hcnt]
      ring
    · rw [hs,add_assoc]
      rfl
    · rw [hfee,add_assoc]
      rfl
    · rw [hsig,add_assoc]
      rfl

variable {ancestors : List Uint256}
theorem updateAncestorsOf_add_yields {n : Uint256} (hd : pool.view.data n = some data)
    (hp : Listed pool (pool.view.parents n)) (hanc : Listed pool ancestors)
    (hpos : ∀ a ∈ ancestors, 0 ≤ (pool.view.descendantState a).1 ∧ 0 ≤ (pool.view.descendantState a).2.1) :
    PoolYields (updateAncestorsOf env pool true n ancestors) fun next =>
      next.view = (pool.view.withChildren fun k =>
          if k ∈ pool.view.parents n then (pool.view.children k).insert n
          else pool.view.children k).withDescendantState fun k =>
        if k ∈ ancestors then pool.view.descendantState k + data.forAncestors env
        else pool.view.descendantState k := by
  have hn : n ∈ pool.txids := by
    rw [mem_txids_iff,hd]
    rfl
  obtain ⟨entry,hget,hent⟩ := exists_entry hn
  have hs := shows_of_lookup hget
  cases Option.some.inj (hd.symm.trans hent)
  apply bind (deref_yields hget)
  rintro entry rfl
  rw [← hs.parents]
  apply bind (each_child_yields hp n true)
  intro linked hl
  apply bind (plain_yields _)
  rintro _ rfl
  have hst : linked.view.descendantState = pool.view.descendantState := by
    rw [hl]
    rfl
  have hli : Listed linked ancestors := hanc.of_data (by rw [hl]; rfl)
  have hlo := each_descendantState_yields hli (entry.data.forAncestors env) (by
    intro a ha
    rw [hst,add_comm]
    exact forAncestors_add_pos env entry.data (hpos a ha))
  simp only [if_true,one_mul]
  apply hlo.mono
  intro next hne
  rw [hne,hl]
  rfl

theorem updateEntryForAncestors_yields {n : Uint256} (hd : pool.view.data n = some data)
    (hst : pool.view.ancestorState n = data.forDescendants env) (hanc : Listed pool ancestors) :
    PoolYields (updateEntryForAncestors env pool n ancestors) fun next =>
      next.view = pool.view.withAncestorState (update pool.view.ancestorState n
        (data.forDescendants env + ∑ a ∈ ancestors.toFinset, pool.view.forDescendants env a)) := by
  have hn := mem_iff_data.mpr (Option.isSome_of_eq_some hd)
  have hp : (byHash ancestors).Perm ancestors := perm_insertionSort _ ancestors
  apply bind (sumAncestors_yields env (0, 0, 0) fun a ha => mem_txids.mpr (hanc.mem a (hp.mem_iff.mp ha)))
  rintro ⟨size,fee,sigOps⟩ hsums
  rw [hp.length_eq,(hp.map _).sum_eq] at hsums
  have hsum : ((ancestors.length : Int), size, fee, sigOps) =
      ∑ a ∈ ancestors.toFinset, pool.view.forDescendants env a := by
    rw [hsums,sum_toFinset _ hanc.nodup]
    exact zero_add _
  have hpos := forDescendants_add_pos env data (sum_forDescendants_nonneg env pool.view ancestors.toFinset)
  rw [← hsum,← hst] at hpos
  apply (modify_ancestorState_yields (ancestors.length, size, fee, sigOps) hn hpos).mono
  intro next hne
  rw [hne,hsum,hst]
section Totals
variable {R : Uint256 → Uint256 → Prop} {data : EntryData} {parents ancestors : List Uint256}
  (h : pool.view.Growth env R pool.txids data parents ancestors)
include h

theorem listed_of_growth (hd : pool'.view.data = update pool.view.data (env.getHash data.tx) (some data))
    (hnd : l.Nodup) (hl : ∀ k ∈ l, k ∈ pool.txids) : Listed pool' l := by
  refine ⟨hnd,fun k hk => ?_⟩
  rw [mem_iff_data,hd,update_of_ne (h.ne_of_mem (hl k hk))]
  exact mem_txids_iff.mp (hl k hk)

theorem updateTotals_yields (hanc : ancestors.Nodup)
    (hv : pool'.view = (pool.view.withSpender (pool.view.spenderWith data.tx)).withNew env data parents) :
    PoolYields (do
        let linked ← updateAncestorsOf env pool' true (env.getHash data.tx) ancestors
        updateEntryForAncestors env linked (env.getHash data.tx) ancestors)
      fun next => next.view = (pool.view.extended env data parents ancestors).withTotals
        pool.totalTxSize pool.totalFee := by
  have hd : pool'.view.data = update pool.view.data (env.getHash data.tx) (some data) := by
    rw [hv]
    rfl
  have hp : pool'.view.parents (env.getHash data.tx) = parents := by
    rw [hv]
    exact update_self _ _ _
  have hls : Listed pool' (pool'.view.parents (env.getHash data.tx)) := by
    rw [hp]
    exact listed_of_growth h hd h.parents_nodup fun k => h.mem_of_parents
  have hpos : ∀ a ∈ ancestors,
      0 ≤ (pool'.view.descendantState a).1 ∧ 0 ≤ (pool'.view.descendantState a).2.1 := by
    intro a ha
    have hst : pool'.view.descendantState a = pool.view.descendantState a := by
      rw [hv]
      exact update_of_ne (h.ne_of_mem (h.mem_of_ancestors ha)) _ _
    have hpos := h.linked.descendantState_pos h.keyed (h.mem_of_ancestors ha)
    rw [hst]
    exact ⟨hpos.1.le,hpos.2.le⟩
  apply bind (updateAncestorsOf_add_yields (by rw [hd,update_self]) hls
    (listed_of_growth h hd hanc fun k => h.mem_of_ancestors) hpos)
  intro linked hli
  have hl : linked.view.data = update pool.view.data (env.getHash data.tx) (some data) := by
    rw [hli,← hd]
    rfl
  have hst : linked.view.ancestorState (env.getHash data.tx) = data.forDescendants env := by
    rw [hli,hv]
    exact update_self _ _ _
  apply (updateEntryForAncestors_yields (by rw [hl,update_self]) hst
    (listed_of_growth h hl hanc fun k => h.mem_of_ancestors)).mono
  intro next hn
  have hsum : ∑ a ∈ ancestors.toFinset, linked.view.forDescendants env a =
      ∑ a ∈ ancestors.toFinset, pool.view.forDescendants env a := by
    apply Finset.sum_congr rfl
    intro a ha
    have hne := h.ne_of_mem (h.mem_of_ancestors (mem_toFinset.mp ha))
    rw [forDescendants,hl,update_of_ne hne]
    rfl
  rw [hp] at hli
  rw [hn,hsum,hli,hv]
  simp only [withDescendantState,withChildren,withNew,update_idem]
  rfl
end Totals

structure Adds (env : MemPoolEnv) (pool : CTxMemPool) (entry : CTxMemPoolEntry) (next : CTxMemPool) : Prop where
  consistent : next.Consistent env
  data : ∃ data, data.tx = entry.tx ∧ data.nFee = entry.nFee ∧ data.sigOpCost = entry.sigOpCost ∧
    next.view.data = update pool.view.data (env.getHash entry.tx) (some data)

theorem Adds.of_extended {parents : List Uint256} (htx : data.tx = entry.tx) (hfee : data.nFee = entry.nFee)
    (hsig : data.sigOpCost = entry.sigOpCost) (h : pool.view.Extension env pool.txids data parents ancestors)
    (hv : pool'.view = pool.view.extended env data parents ancestors) : pool.Adds env entry pool' := by
  have hd : pool'.view.data = update pool.view.data (env.getHash data.tx) (some data) := by
    rw [hv]
    rfl
  have ht : pool'.txids = insert (env.getHash data.tx) pool.txids := by
    ext k
    rw [Finset.mem_insert,mem_txids_iff,mem_txids_iff,hd]
    by_cases hk : k = env.getHash data.tx <;> simp [hk]
  refine ⟨?_,data,htx,hfee,hsig,htx ▸ hd⟩
  rw [Consistent,ht,hv,consistent_iff,h.parent_extended]
  exact ⟨h.growth.keyed_extended,h.growth.linked_extended⟩

/-- The view that `addUnchecked` leaves, in a pool whose links are any graph. -/
theorem addUnchecked_view (hk : pool.view.Keyed env pool.txids) (hl : pool.view.Linked env R pool.txids)
    (hnew : entry.IsNew env) (hn : pool.view.data (env.getHash entry.tx) = none)
    (hu : ∀ prevout ∈ entry.tx.prevouts, pool.view.spender prevout = none)
    (hno : env.getHash entry.tx ∉ entry.tx.prevTxids) (hnd : setAncestors.Nodup)
    (hmem : ∀ a, a ∈ setAncestors ↔ ∃ p, (p ∈ pool.txids ∧ p ∈ entry.tx.prevTxids) ∧ ReflTransGen R a p) :
    PoolYields (addUnchecked env pool entry setAncestors) fun next =>
      ∃ data parents, data.tx = entry.tx ∧ data.nFee = entry.nFee ∧ data.sigOpCost = entry.sigOpCost ∧
        pool.view.Growth env R pool.txids data parents setAncestors ∧
        next.view = pool.view.extended env data parents setAncestors := by
  have hi : (insertEntry env pool entry).view = pool.view.setEntry (env.getHash entry.tx) entry := by
    rw [insertEntry,if_neg,view_insert]
    rw [mem_iff_data,hn]
    exact Bool.false_ne_true
  apply bind (enter_yields hnew hi)
  rintro fresh ⟨data,htx,hfee,hsig,hf⟩
  rw [← htx] at hn hu hno hmem ⊢
  apply bind (linkParents_yields hf hu hno)
  rintro known ⟨parents,hp,hm,hkn⟩
  have hg : pool.view.Growth env R pool.txids data parents setAncestors := by
    refine ⟨hk,hl,hn,hu,hp,hm,fun a => (hmem a).trans ?_⟩
    simp [hm]
  rw [← bind_assoc]
  apply bind (updateTotals_yields hg hnd hkn)
  intro linked hl
  apply bind (plain_yields _)
  rintro _ rfl
  refine of_ok ⟨data,parents,rfl,hfee,hsig,hg,?_⟩
  have hs : linked.totalTxSize = pool.totalTxSize := congrArg PoolView.totalTxSize hl
  have ht : linked.totalFee = pool.totalFee := congrArg PoolView.totalFee hl
  have hent : entry.getTxSize env = data.getTxSize env := by
    rw [CTxMemPoolEntry.getTxSize,EntryData.getTxSize,htx,hsig]
  calc
    _ = linked.view.withTotals (linked.totalTxSize + entry.getTxSize env)
        (linked.totalFee+entry.nFee) := rfl
    _ = _ := by
      rw [hl,hs,ht,hent,← hfee]
      rfl

theorem addUnchecked_yields (hc : pool.Consistent env)
    (hnew : entry.IsNew env) (hadd : pool.view.Addable env entry.tx) (hnd : setAncestors.Nodup)
    (hmem : ∀ a, a ∈ setAncestors ↔
      ∃ p, (p ∈ pool.txids ∧ p ∈ entry.tx.prevTxids) ∧ ReflTransGen pool.view.Parent a p) :
    PoolYields (addUnchecked env pool entry setAncestors) (pool.Adds env entry) := by
  obtain ⟨hk,hl⟩ := consistent_iff.mp hc
  apply (addUnchecked_view hk hl hnew hadd.new hadd.unspent hadd.notOwn hnd hmem).mono
  rintro next ⟨data,parents,htx,hfee,hsig,hg,hv⟩
  exact Adds.of_extended htx hfee hsig ⟨hc,htx ▸ hadd,hg.parents_nodup,hg.mem_parents,hg.mem_ancestors⟩ hv
end CTxMemPool
end Lcryp
