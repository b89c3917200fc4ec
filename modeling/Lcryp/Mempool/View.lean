import Lcryp.Framework.Outcome
import Lcryp.Mempool.Pool

/-!
# What the pool holds

The view of a pool is what its entries hold, as functions of their ids.
-/
namespace Lcryp
open Function Yields
/-- The data of an entry that the pool does not maintain. -/
structure EntryData where
  tx : CTransaction
  nFee : Int
  nTime : Int
  sigOpCost : Nat
  modifiedFee : Int

/-- A number of transactions, their size and their modified fees. -/
abbrev DescendantState := Int × Int × Int

/-- The same with the cost of their signature operations. -/
abbrev AncestorState := Int × Int × Int × Int

/-- What the assertions ask of totals over descendants. -/
def DescendantsPos (s : DescendantState) : Prop := 0 < s.1 ∧ 0 < s.2.1

variable (s : AncestorState)
def AncestorsPos : Prop := 0 < s.1 ∧ 0 < s.2.1 ∧ 0 ≤ s.2.2.2
def AncestorsNonneg : Prop := 0 ≤ s.1 ∧ 0 ≤ s.2.1 ∧ 0 ≤ s.2.2.2

variable (entry : CTxMemPoolEntry)
namespace CTxMemPoolEntry
def data : EntryData := ⟨entry.tx, entry.nFee, entry.nTime, entry.sigOpCost, entry.modifiedFee⟩
def descendantState : DescendantState :=
  (entry.nCountWithDescendants, entry.nSizeWithDescendants, entry.nModFeesWithDescendants)
def ancestorState : AncestorState :=
  (entry.nCountWithAncestors, entry.nSizeWithAncestors, entry.nModFeesWithAncestors,
    entry.nSigOpCostWithAncestors)
end CTxMemPoolEntry

namespace EntryData
variable (env : MemPoolEnv) (data : EntryData)
def getTxSize : Nat := getVirtualTransactionSize data.tx.weight data.sigOpCost env.nBytesPerSigOp

/-- What an entry adds to the totals of its ancestors. -/
def forAncestors : DescendantState := (1, data.getTxSize env, data.modifiedFee)

/-- What an entry adds to the totals of its descendants. -/
def forDescendants : AncestorState := (1, data.getTxSize env, data.modifiedFee, data.sigOpCost)
def prioritised (feeDiff : Int) : EntryData :=
  ⟨data.tx, data.nFee, data.nTime, data.sigOpCost, data.modifiedFee + feeDiff⟩
end EntryData

structure PoolView where
  data : Uint256 → Option EntryData
  parents : Uint256 → List Uint256
  children : Uint256 → List Uint256
  descendantState : Uint256 → DescendantState
  ancestorState : Uint256 → AncestorState
  spender : COutPoint → Option CTransaction
  totalTxSize : Int
  totalFee : Int

namespace CTxMemPool
def view (pool : CTxMemPool) : PoolView where
  data it := (pool.mapTx.lookup it).map CTxMemPoolEntry.data
  parents := pool.parentsOf
  children := pool.childrenOf
  descendantState it := ((pool.mapTx.lookup it).map CTxMemPoolEntry.descendantState).getD 0
  ancestorState it := ((pool.mapTx.lookup it).map CTxMemPoolEntry.ancestorState).getD 0
  spender prevout := pool.mapNextTx.lookup prevout
  totalTxSize := pool.totalTxSize
  totalFee := pool.totalFee
end CTxMemPool

/-- Whatever an operation returns has a property, and only an overflow ends it. -/
abbrev PoolYields {α : Type} (x : Except PoolStop α) (P : α → Prop) : Prop :=
  Yields (fun stop => stop = PoolStop.overflow) x P
theorem saturatingAdd_eq {i j : Int} (h : int64Min ≤ i + j ∧ i + j ≤ int64Max) : saturatingAdd i j = i + j := by
  unfold saturatingAdd
  rw [if_neg (by omega),if_neg (by omega)]

theorem overflow_yields (c : Prop) [Decidable c] : PoolYields (require c .overflow) fun _ => c :=
  check fun _ => rfl

theorem plain_yields (amount : Int) : PoolYields (plain amount) fun result => result = amount := by
  apply Yields.bind (overflow_yields _)
  intro _ _
  exact rfl

theorem addFee_yields (i j : Int) : PoolYields (FeeArith.addFee i j) fun sum => sum = i + j := by
  apply Yields.bind (overflow_yields _)
  intro _ hrange
  exact saturatingAdd_eq hrange

theorem toInt_yields (sigOps : Int) : PoolYields (FeeArith.toInt sigOps) fun result => result = sigOps := by
  apply Yields.bind (overflow_yields _)
  intro _ _
  exact rfl

namespace CTxMemPoolEntry
theorem updateModifiedFee_yields (feeDiff : Int) :
    PoolYields (entry.updateModifiedFee feeDiff) fun updated =>
      updated.data = entry.data.prioritised feeDiff ∧
      updated.parents = entry.parents ∧ updated.children = entry.children ∧
      updated.descendantState = entry.descendantState + (0, 0, feeDiff) ∧
      updated.ancestorState = entry.ancestorState + (0, 0, feeDiff, 0) := by
  iterate 3
    apply bind (addFee_yields _ _)
    rintro _ rfl
  apply of_ok
  simp [data,descendantState,ancestorState,EntryData.prioritised]

theorem updateDescendantState_yields (size fee count : Int)
    (hpos : DescendantsPos (entry.descendantState + (count, size, fee))) :
    PoolYields (entry.updateDescendantState size fee count) fun updated =>
      updated.data = entry.data ∧ updated.parents = entry.parents ∧
      updated.children = entry.children ∧ updated.ancestorState = entry.ancestorState ∧
      updated.descendantState = entry.descendantState + (count, size, fee) := by
  apply bind (Yields.require hpos.2)
  intro _ _
  apply bind (addFee_yields _ _)
  rintro _ rfl
  apply bind (Yields.require hpos.1)
  intro _ _
  apply of_ok
  simp [data,descendantState,ancestorState]

theorem updateAncestorState_yields (size fee count sigOps : Int)
    (hpos : AncestorsPos (entry.ancestorState + (count, size, fee, sigOps))) :
    PoolYields (entry.updateAncestorState size fee count sigOps) fun updated =>
      updated.data = entry.data ∧ updated.parents = entry.parents ∧
      updated.children = entry.children ∧ updated.descendantState = entry.descendantState ∧
      updated.ancestorState = entry.ancestorState + (count, size, fee, sigOps) := by
  apply bind (Yields.require hpos.2.1)
  intro _ _
  apply bind (addFee_yields _ _)
  rintro _ rfl
  apply bind (Yields.require hpos.1)
  intro _ _
  apply bind (toInt_yields _)
  rintro _ rfl
  apply bind (Yields.require hpos.2.2)
  intro _ _
  apply of_ok
  simp [data,descendantState,ancestorState]
end CTxMemPoolEntry

variable {it : Uint256}
namespace PoolView
variable (v : PoolView)
def setEntry (it : Uint256) (entry : CTxMemPoolEntry) : PoolView :=
  { v with
    data := update v.data it (some entry.data)
    parents := update v.parents it entry.parents
    children := update v.children it entry.children
    descendantState := update v.descendantState it entry.descendantState
    ancestorState := update v.ancestorState it entry.ancestorState }

def withData (data : Uint256 → Option EntryData) : PoolView := { v with data := data }
def withParents (parents : Uint256 → List Uint256) : PoolView := { v with parents := parents }
def withChildren (children : Uint256 → List Uint256) : PoolView := { v with children := children }
def withDescendantState (state : Uint256 → DescendantState) : PoolView := { v with descendantState := state }
def withAncestorState (state : Uint256 → AncestorState) : PoolView := { v with ancestorState := state }
def withSpender (spender : COutPoint → Option CTransaction) : PoolView := { v with spender := spender }
def withTotals (totalTxSize totalFee : Int) : PoolView :=
  { v with totalTxSize := totalTxSize, totalFee := totalFee }

structure Shows (v : PoolView) (it : Uint256) (entry : CTxMemPoolEntry) : Prop where
  data : v.data it = some entry.data
  parents : v.parents it = entry.parents
  children : v.children it = entry.children
  descendantState : v.descendantState it = entry.descendantState
  ancestorState : v.ancestorState it = entry.ancestorState

theorem shows_setEntry (it : Uint256) (entry : CTxMemPoolEntry) : (v.setEntry it entry).Shows it entry := by
  constructor <;> simp [setEntry]
theorem setEntry_setEntry (it : Uint256) (entry updated : CTxMemPoolEntry) :
    (v.setEntry it entry).setEntry it updated = v.setEntry it updated := by
  simp [setEntry]

theorem Shows.unique {v : PoolView} {it : Uint256} {entry entry' : CTxMemPoolEntry}
    (h : v.Shows it entry) (h' : v.Shows it entry') : entry = entry' := by
  have hd := Option.some.inj (h.data.symm.trans h'.data)
  have hp := h.parents.symm.trans h'.parents
  have hk := h.children.symm.trans h'.children
  have hde := h.descendantState.symm.trans h'.descendantState
  have hanc := h.ancestorState.symm.trans h'.ancestorState
  cases entry
  simp_all [CTxMemPoolEntry.data,CTxMemPoolEntry.descendantState,CTxMemPoolEntry.ancestorState]
section Changes
variable {v : PoolView} {entry updated : CTxMemPoolEntry} (h : v.Shows it entry)
include h

theorem Shows.setEntry_parents (parents : List Uint256) :
    v.setEntry it { entry with parents := parents } = v.withParents (update v.parents it parents) := by
  simp [setEntry,withParents,h.data,h.children,h.descendantState,h.ancestorState,
    CTxMemPoolEntry.data,CTxMemPoolEntry.descendantState,CTxMemPoolEntry.ancestorState]

theorem Shows.setEntry_children (children : List Uint256) :
    v.setEntry it { entry with children := children } = v.withChildren (update v.children it children) := by
  simp [setEntry,withChildren,h.data,h.parents,h.descendantState,h.ancestorState,
    CTxMemPoolEntry.data,CTxMemPoolEntry.descendantState,CTxMemPoolEntry.ancestorState]

theorem Shows.setEntry_fees {dataChange : EntryData} {descendants : DescendantState}
    {ancestors : AncestorState} (hd : updated.data = dataChange)
    (hp : updated.parents = entry.parents) (hk : updated.children = entry.children)
    (hde : updated.descendantState = entry.descendantState + descendants)
    (hanc : updated.ancestorState = entry.ancestorState + ancestors) :
    v.setEntry it updated = ((v.withData (update v.data it (some dataChange))).withDescendantState
      (update v.descendantState it (v.descendantState it + descendants))).withAncestorState
      (update v.ancestorState it (v.ancestorState it + ancestors)) := by
  simp [setEntry,withData,withDescendantState,withAncestorState,hd,hp,hk,
    hde,hanc,← h.parents,← h.children,← h.descendantState,← h.ancestorState]
end Changes
end PoolView

namespace CTxMemPool
variable {pool : CTxMemPool}
theorem mem_iff_data : it ∈ pool.mapTx ↔ (pool.view.data it).isSome := by
  rw [← AList.lookup_isSome]
  simp [view]

theorem deref_yields {entry : CTxMemPoolEntry} (h : pool.mapTx.lookup it = some entry) :
    PoolYields (pool.deref it) fun found => found = entry := by
  rw [deref,h]
  exact of_ok rfl

theorem view_insert (pool : CTxMemPool) (it : Uint256) (entry : CTxMemPoolEntry) :
    view { pool with mapTx := pool.mapTx.insert it entry } = pool.view.setEntry it entry := by
  simp only [view,PoolView.setEntry,PoolView.mk.injEq,and_true]
  refine ⟨?_,?_,?_,?_,?_⟩ <;>
  · funext k
    by_cases hk : k = it
    · subst hk
      simp [parentsOf,childrenOf]
    · simp [AList.lookup_insert_ne hk,update_of_ne hk,parentsOf,childrenOf]

theorem shows_of_lookup {entry : CTxMemPoolEntry} (h : pool.mapTx.lookup it = some entry) :
    pool.view.Shows it entry := by
  constructor <;> simp [view,parentsOf,childrenOf,h]

theorem exists_lookup (h : it ∈ pool.mapTx) : ∃ entry, pool.mapTx.lookup it = some entry :=
  Option.isSome_iff_exists.mp (AList.lookup_isSome.mpr h)

variable {f : CTxMemPoolEntry → Except PoolStop CTxMemPoolEntry}
theorem modify_entry_yields {P : CTxMemPoolEntry → CTxMemPoolEntry → Prop} (hit : it ∈ pool.mapTx)
    (hf : ∀ entry, PoolYields (f entry) (P entry)) :
    PoolYields (pool.modify it f) fun pool' => ∃ entry updated, pool.view.Shows it entry ∧
      P entry updated ∧ pool'.view = pool.view.setEntry it updated := by
  obtain ⟨entry,hget⟩ := exists_lookup hit
  rw [modify,hget]
  apply bind (hf entry)
  intro updated hupd
  exact of_ok ⟨entry,updated,shows_of_lookup hget,hupd,view_insert pool it updated⟩

theorem modify_yields {v : PoolView} (hit : it ∈ pool.mapTx)
    (hf : ∀ entry, pool.view.Shows it entry →
      PoolYields (f entry) fun updated => pool.view.setEntry it updated = v) :
    PoolYields (pool.modify it f) fun pool' => pool'.view = v := by
  obtain ⟨entry,hget⟩ := exists_lookup hit
  rw [modify,hget]
  apply bind (hf entry (shows_of_lookup hget))
  intro updated hupd
  apply of_ok
  rw [view_insert,hupd]

theorem updateChild_yields (child : Uint256) (add : Bool) (hit : it ∈ pool.mapTx) :
    PoolYields (pool.updateChild it child add) fun pool' =>
      pool'.view = pool.view.withChildren (update pool.view.children it
        (if add then (pool.view.children it).insert child
          else (pool.view.children it).erase child)) := by
  apply modify_yields hit
  intro entry hent
  rw [hent.children]
  exact of_ok (hent.setEntry_children _)

theorem updateParent_yields (parent : Uint256) (add : Bool) (hit : it ∈ pool.mapTx) :
    PoolYields (pool.updateParent it parent add) fun pool' =>
      pool'.view = pool.view.withParents (update pool.view.parents it
        (if add then (pool.view.parents it).insert parent
          else (pool.view.parents it).erase parent)) := by
  apply modify_yields hit
  intro entry hent
  rw [hent.parents]
  exact of_ok (hent.setEntry_parents _)

theorem modify_descendantState_yields (change : DescendantState) (hit : it ∈ pool.mapTx)
    (hpos : DescendantsPos (pool.view.descendantState it + change)) :
    PoolYields (pool.modify it (·.updateDescendantState change.2.1 change.2.2 change.1))
      fun pool' => pool'.view = pool.view.withDescendantState
        (update pool.view.descendantState it (pool.view.descendantState it + change)) := by
  apply modify_yields hit
  intro entry hent
  rw [hent.descendantState] at hpos
  apply (entry.updateDescendantState_yields _ _ _ hpos).mono
  rintro updated ⟨hd,hp,hk,hanc,hde⟩
  rw [hent.setEntry_fees hd hp hk hde (hanc.trans (add_zero _).symm),
    ← hent.data,update_eq_self,add_zero,update_eq_self]
  rfl

theorem modify_ancestorState_yields (change : AncestorState) (hit : it ∈ pool.mapTx)
    (hpos : AncestorsPos (pool.view.ancestorState it + change)) :
    PoolYields (pool.modify it (·.updateAncestorState change.2.1 change.2.2.1 change.1 change.2.2.2))
      fun pool' => pool'.view = pool.view.withAncestorState
        (update pool.view.ancestorState it (pool.view.ancestorState it + change)) := by
  apply modify_yields hit
  intro entry hent
  rw [hent.ancestorState] at hpos
  apply (entry.updateAncestorState_yields _ _ _ _ hpos).mono
  rintro updated ⟨hd,hp,hk,hde,hanc⟩
  rw [hent.setEntry_fees hd hp hk (hde.trans (add_zero _).symm) hanc,
    ← hent.data,update_eq_self,add_zero,update_eq_self]
  rfl

structure Listed (pool : CTxMemPool) (l : List Uint256) : Prop where
  nodup : l.Nodup
  mem : ∀ it ∈ l, it ∈ pool.mapTx

theorem Listed.of_data {pool' : CTxMemPool} {l : List Uint256} (h : Listed pool l)
    (hd : pool'.view.data = pool.view.data) : Listed pool' l := by
  refine ⟨h.nodup,fun it hit => ?_⟩
  rw [mem_iff_data,hd]
  exact mem_iff_data.mp (h.mem it hit)

/-- A function of the ids that a view keeps next to the data of the entries, and how it is exchanged. -/
structure Kept {β : Type} (get : PoolView → Uint256 → β) (set : PoolView → (Uint256 → β) → PoolView) :
    Prop where
  get_set : ∀ v f, get (set v f) = f
  set_set : ∀ v f g, set (set v f) g = set v g
  set_get : ∀ v, set v (get v) = v
  data_set : ∀ v f, (set v f).data = v.data

theorem each_yields {β : Type} (get : PoolView → Uint256 → β) (set : PoolView → (Uint256 → β) → PoolView)
    {step : CTxMemPool → Uint256 → PoolResult} {l : List Uint256} (h : Listed pool l)
    (g : β → β) (hke : Kept get set)
    (hs : ∀ pool' it, it ∈ l → it ∈ pool'.mapTx →
      get pool'.view it = get pool.view it → PoolYields (step pool' it) fun next =>
        next.view = set pool'.view (update (get pool'.view) it (g (get pool'.view it)))) :
    PoolYields (l.foldlM step pool) fun pool' => pool'.view =
      set pool.view fun k => if k ∈ l then g (get pool.view k) else get pool.view k := by
  apply foldlM_nodup (I := fun done (pool' : CTxMemPool) => pool'.view =
    set pool.view fun k => if k ∈ done then g (get pool.view k) else get pool.view k) h.nodup
  · intro done it pool' hnew hdone hv
    have hit : it ∈ l := hdone it (by simp)
    have hmem : it ∈ pool'.mapTx := by
      rw [mem_iff_data,hv,hke.data_set,← mem_iff_data]
      exact h.mem it hit
    have hget : get pool'.view = fun k => if k ∈ done then g (get pool.view k) else get pool.view k := by
      rw [hv,hke.get_set]
    have hold : get pool'.view it = get pool.view it := by
      rw [hget]
      exact if_neg hnew
    apply (hs pool' it hit hmem hold).mono
    intro next hn
    rw [hn,hold,hget,hv,hke.set_set]
    congr 1
    funext k
    by_cases hk : k = it
    · simp [hk]
    · simp [hk]
  · simpa using (hke.set_get pool.view).symm
variable {l : List Uint256} (h : Listed pool l)
include h

theorem each_descendantState_yields (change : DescendantState)
    (hpos : ∀ it ∈ l, DescendantsPos (pool.view.descendantState it + change)) :
    PoolYields
      (l.foldlM (fun pool it =>
        pool.modify it (·.updateDescendantState change.2.1 change.2.2 change.1)) pool)
      fun pool' => pool'.view = pool.view.withDescendantState fun k =>
        if k ∈ l then pool.view.descendantState k + change else pool.view.descendantState k := by
  apply each_yields PoolView.descendantState PoolView.withDescendantState h (· + change)
    ⟨fun _ _ => rfl,fun _ _ _ => rfl,fun _ => rfl,fun _ _ => rfl⟩
  intro pool' it hit hmem hold
  exact modify_descendantState_yields change hmem (hold ▸ hpos it hit)

theorem each_ancestorState_yields (change : AncestorState)
    (hpos : ∀ it ∈ l, AncestorsPos (pool.view.ancestorState it + change)) :
    PoolYields
      (l.foldlM (fun pool it =>
        pool.modify it (·.updateAncestorState change.2.1 change.2.2.1 change.1 change.2.2.2)) pool)
      fun pool' => pool'.view = pool.view.withAncestorState fun k =>
        if k ∈ l then pool.view.ancestorState k + change else pool.view.ancestorState k := by
  apply each_yields PoolView.ancestorState PoolView.withAncestorState h (· + change)
    ⟨fun _ _ => rfl,fun _ _ _ => rfl,fun _ => rfl,fun _ _ => rfl⟩
  intro pool' it hit hmem hold
  exact modify_ancestorState_yields change hmem (hold ▸ hpos it hit)

theorem each_child_yields (child : Uint256) (add : Bool) :
    PoolYields (l.foldlM (fun pool it => pool.updateChild it child add) pool)
      fun pool' => pool'.view = pool.view.withChildren fun k =>
        if k ∈ l then
          (if add then (pool.view.children k).insert child else (pool.view.children k).erase child)
        else pool.view.children k := by
  apply each_yields PoolView.children PoolView.withChildren h
    (fun children => if add then children.insert child else children.erase child)
    ⟨fun _ _ => rfl,fun _ _ _ => rfl,fun _ => rfl,fun _ _ => rfl⟩
  intro pool' it _ hmem _
  exact updateChild_yields child add hmem

theorem each_parent_yields (parent : Uint256) :
    PoolYields (l.foldlM (fun pool it => pool.updateParent it parent false) pool)
      fun pool' => pool'.view = pool.view.withParents fun k =>
        if k ∈ l then (pool.view.parents k).erase parent else pool.view.parents k := by
  apply each_yields PoolView.parents PoolView.withParents h (·.erase parent)
    ⟨fun _ _ => rfl,fun _ _ _ => rfl,fun _ => rfl,fun _ _ => rfl⟩
  intro pool' it _ hmem _
  exact updateParent_yields parent false hmem
end CTxMemPool
end Lcryp
