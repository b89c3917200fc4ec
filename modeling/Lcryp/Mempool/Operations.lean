import Lcryp.Mempool.Addition
import Lcryp.Mempool.Eviction
import Lcryp.Mempool.Priority

/-!
# Runs of pool operations

The operations of the pool one after the other, from the empty pool.
-/
namespace Lcryp
open Relation Lineage List CTxMemPool
variable {env : MemPoolEnv} {pool : CTxMemPool}
namespace CTxMemPool
def allEntries (pool : CTxMemPool) (P : Uint256 → EntryData → Bool) : Bool :=
  pool.mapTx.keys.all fun k => (pool.mapTx.lookup k).all fun entry => P k entry.data

theorem allEntries_iff {P : Uint256 → EntryData → Bool} :
    pool.allEntries P = true ↔ ∀ k data, pool.view.data k = some data → P k data = true := by
  simp only [allEntries,all_eq_true,Option.all_eq_true,view,Option.map_eq_some_iff]
  constructor
  · rintro h k _ ⟨entry,hget,rfl⟩
    have hk := AList.lookup_isSome.mp (Option.isSome_of_eq_some hget)
    exact h k (AList.mem_keys.mp hk) entry hget
  · intro h k _ entry hget
    exact h k entry.data ⟨entry,hget,rfl⟩

instance (tx : CTransaction) : Decidable (pool.view.Addable env tx) :=
  decidable_of_iff (env.getHash tx ∉ pool.mapTx ∧
      tx.prevouts.all (fun prevout => (pool.view.spender prevout).isNone) = true ∧
      env.getHash tx ∉ tx.prevTxids ∧
      pool.allEntries (fun _ data => decide (env.getHash tx ∉ data.tx.prevTxids)) = true) (by
    rw [allEntries_iff, mem_iff_data, all_eq_true]
    simp only [Option.isNone_iff_eq_none, decide_eq_true_eq]
    constructor
    · rintro ⟨hnew, hunspent, hnotOwn, hchildless⟩
      exact ⟨Option.not_isSome_iff_eq_none.mp hnew, hunspent, hnotOwn, hchildless⟩
    · rintro ⟨hnew, hunspent, hnotOwn, hchildless⟩
      exact ⟨Option.not_isSome_iff_eq_none.mpr hnew, hunspent, hnotOwn, hchildless⟩)

def allParents (pool : CTxMemPool) (c : Uint256) (P : Uint256 → Bool) : Bool :=
  pool.allEntries fun k data => decide (k ≠ c) || data.tx.prevTxids.all fun p =>
    decide (p ∉ pool.mapTx) || P p

theorem allParents_iff {c : Uint256} {P : Uint256 → Bool} :
    pool.allParents c P = true ↔ ∀ p, pool.view.Parent p c → P p = true := by
  simp only [allParents,allEntries_iff,Bool.or_eq_true,decide_eq_true_eq,all_eq_true,mem_iff_data]
  constructor
  · rintro h p ⟨hp,data,hd,hsp⟩
    have hent := (h c data hd).resolve_left (fun hne => hne rfl)
    exact (hent p hsp).resolve_left (fun hnot => hnot hp)
  · intro h k data hd
    by_cases hk : k = c
    · subst hk
      right
      intro p hsp
      by_cases hp : (pool.view.data p).isSome
      · exact .inr (h p ⟨hp,data,hd,hsp⟩)
      · exact .inl hp
    · exact .inl hk

instance (env : MemPoolEnv) (vtx : List CTransaction) : Decidable (pool.ParentsFirst env vtx) :=
  decidable_of_iff ((range vtx.length).all (fun i => (vtx[i]?).all fun tx =>
      pool.allParents (env.getHash tx) fun p => decide (p ∈ (vtx.take i).map env.getHash)) = true) (by
    simp only [all_eq_true, mem_range, Option.all_eq_true, allParents_iff, decide_eq_true_eq,ParentsFirst]
    constructor
    · rintro h done tx rest rfl p hp
      have hin := h done.length (by simp) tx (by simp) p hp
      rwa [take_left] at hin
    · intro h i hi tx htx p hp
      rw [getElem?_eq_getElem hi] at htx
      apply h (vtx.take i) tx (vtx.drop (i+1)) _ p hp
      rw [← Option.some.inj htx, ← drop_eq_getElem_cons hi, take_append_drop])

/-- A set of entries that holds all descendants of its entries. -/
structure Staged (pool : CTxMemPool) (stage : List Uint256) : Prop where
  nodup : stage.Nodup
  mem : ∀ r ∈ stage, r ∈ pool.txids
  closed : ∀ a b, pool.view.Parent a b → a ∈ stage → b ∈ stage

instance (stage : List Uint256) : Decidable (pool.Staged stage) :=
  decidable_of_iff (stage.Nodup ∧ stage.all (fun r => decide (r ∈ pool.mapTx)) = true ∧
      pool.mapTx.keys.all (fun b => decide (b ∈ stage) ||
        pool.allParents b fun a => decide (a ∉ stage)) = true) (by
    simp only [all_eq_true, Bool.or_eq_true, decide_eq_true_eq, allParents_iff, ← mem_txids]
    constructor
    · rintro ⟨hnodup, hmem, hclosed⟩
      refine ⟨hnodup, hmem, fun a b hab ha => ?_⟩
      have hb := AList.mem_keys.mp (mem_txids.mp (parent_right_mem hab))
      exact (hclosed b hb).resolve_right fun hout => hout a hab ha
    · rintro ⟨hnodup, hmem, hclosed⟩
      refine ⟨hnodup, hmem, fun b _ => ?_⟩
      by_cases hb : b ∈ stage
      · exact .inl hb
      · exact .inr fun a hab ha => hb (hclosed a b hab ha))
end CTxMemPool

inductive PoolOp
  /-- A new entry, with the ancestors that `CalculateMemPoolAncestors` finds within limits. -/
  | addUnchecked (tx : CTransaction) (fee nTime : Int) (sigOpCost : Nat) (limits : MemPoolLimits)
  | removeRecursive (origTx : CTransaction)
  | removeForBlock (vtx : List CTransaction)
  | removeForReorg (checkFinalAndMature : Uint256 → Bool)
  | removeStaged (stage : List Uint256) (updateDescendants : Bool)
  | expire (time : Int)
  | trimToSize (policy : CTxMemPool.TrimPolicy) (sizelimit : Nat)
  | prioritiseTransaction (hash : Uint256) (nFeeDelta : Int)

namespace PoolOp
variable (env : MemPoolEnv)
open CTxMemPool in
def apply (pool : CTxMemPool) : PoolOp → PoolResult
  | addUnchecked tx fee nTime sigOpCost limits =>
    let entry := CTxMemPoolEntry.new env tx fee nTime sigOpCost
    match calculateMemPoolAncestors env pool entry limits true with
    -- a transaction beyond the limits is not added
    | .error _ => .ok pool
    | .ok setAncestors => CTxMemPool.addUnchecked env pool entry setAncestors
  | removeRecursive origTx => CTxMemPool.removeRecursive env pool origTx
  | removeForBlock vtx => CTxMemPool.removeForBlock env pool vtx
  | removeForReorg check => CTxMemPool.removeForReorg env pool check
  | removeStaged stage updateDescendants =>
    CTxMemPool.removeStaged env pool stage updateDescendants
  | expire time => return (← CTxMemPool.expire env pool time).1
  | trimToSize policy sizelimit => return (← CTxMemPool.trimToSize env policy pool sizelimit).1
  | prioritiseTransaction hash nFeeDelta =>
    CTxMemPool.prioritiseTransaction env pool hash nFeeDelta

def Admissible (pool : CTxMemPool) : PoolOp → Prop
  | addUnchecked tx _ _ _ _ => pool.view.Addable env tx
  | removeForBlock vtx => pool.ParentsFirst env vtx
  | removeStaged stage _ => pool.Staged stage
  | _ => True

instance (pool : CTxMemPool) : (op : PoolOp) → Decidable (op.Admissible env pool)
  | addUnchecked tx _ _ _ _ => inferInstanceAs (Decidable (pool.view.Addable env tx))
  | removeForBlock vtx => inferInstanceAs (Decidable (pool.ParentsFirst env vtx))
  | removeStaged stage _ => inferInstanceAs (Decidable (pool.Staged stage))
  | removeRecursive _ | removeForReorg _ | expire _ | trimToSize _ _
  | prioritiseTransaction _ _ => isTrue trivial

variable {env}
open CTxMemPool in
theorem apply_yields (hc : pool.Consistent env) (op : PoolOp) (h : op.Admissible env pool) :
    PoolYields (op.apply env pool) fun next => next.Consistent env := by
  cases op with
  | addUnchecked tx fee nTime sigOpCost limits =>
    simp only [apply]
    split
    · exact Yields.of_ok hc
    next setAncestors hanc =>
      have hmem := mem_calculateMemPoolAncestors (PoolView.consistent_iff.mp hc).2 hanc
      exact (addUnchecked_yields hc (CTxMemPoolEntry.new_isNew env tx fee nTime sigOpCost) h
        hmem.1 hmem.2).mono fun _ => Adds.consistent
  | removeRecursive origTx =>
    exact (removeRecursive_yields hc origTx).mono fun _ => Shrinks.consistent
  | removeForBlock vtx => exact (removeForBlock_yields hc h).mono fun _ => Shrinks.consistent
  | removeForReorg check => exact (removeForReorg_yields hc check).mono fun _ => Shrinks.consistent
  | removeStaged stage updateDescendants =>
    exact (removeStaged_yields hc h.nodup h.mem (.inl h.closed)).mono fun _ => Removes.consistent
  | expire time =>
    apply Yields.bind (expire_yields hc time)
    exact fun _ hres => Yields.of_ok hres.consistent
  | trimToSize policy sizelimit =>
    apply Yields.bind (trimLoop_yields policy sizelimit _ hc [])
    exact fun _ hres => Yields.of_ok hres.consistent
  | prioritiseTransaction hash nFeeDelta => exact prioritiseTransaction_yields hc hash nFeeDelta

/-- Every operation of a run may be called in the pool that it meets. -/
def Admitted (env : MemPoolEnv) : CTxMemPool → List PoolOp → Prop
  | _, [] => True
  | pool, op::rest => op.Admissible env pool ∧
      match op.apply env pool with
      | .ok next => Admitted env next rest
      | .error _ => True

instance decidableAdmitted (env : MemPoolEnv) :
    (pool : CTxMemPool) → (ops : List PoolOp) → Decidable (Admitted env pool ops)
  | _, [] => isTrue trivial
  | pool, op::rest =>
    have : Decidable (match op.apply env pool with
        | .ok next => Admitted env next rest
        | .error _ => True) :=
      match op.apply env pool with
      | .ok next => decidableAdmitted env next rest
      | .error _ => isTrue trivial
    inferInstanceAs (Decidable (_ ∧ _))
end PoolOp

namespace CTxMemPool
def run (env : MemPoolEnv) (pool : CTxMemPool) (ops : List PoolOp) : PoolResult :=
  ops.foldlM (PoolOp.apply env) pool

theorem empty_consistent : (empty : CTxMemPool).Consistent env := by
  have hd : ∀ k, empty.view.data k = none := fun _ => rfl
  have hpar : ∀ p c, ¬ empty.view.Parent p c := by
    rintro p c ⟨hp,_⟩
    cases hp
  have ht : empty.txids = ∅ := rfl
  rw [Consistent,ht]
  refine ⟨⟨?_,?_,?_,?_,?_⟩,?_,?_,?_,?_,?_⟩
  · simp [hd]
  · simp [hd]
  · intro prevout tx
    have hspr : empty.view.spender prevout = none := rfl
    simp [hspr,hd]
  · rfl
  · rfl
  · intro k hcycle
    obtain ⟨c,hs,_⟩ := TransGen.head'_iff.mp hcycle
    exact hpar k c hs
  · exact fun k => ⟨nodup_nil,fun p => iff_of_false not_mem_nil (hpar p k)⟩
  · exact fun k => ⟨nodup_nil,fun c => iff_of_false not_mem_nil (hpar k c)⟩
  · simp
  · simp

variable {ops : List PoolOp}
theorem run_yields {pool : CTxMemPool} (hc : pool.Consistent env)
    (h : PoolOp.Admitted env pool ops) : PoolYields (run env pool ops) fun next => next.Consistent env := by
  induction ops generalizing pool with
  | nil => exact Yields.of_ok hc
  | cons op rest ih =>
    obtain ⟨hop,hr⟩ := h
    have hs := op.apply_yields hc hop
    rw [run,foldlM_cons]
    cases ha : op.apply env pool with
    | error stop =>
      rw [ha] at hs
      exact hs
    | ok next =>
      rw [ha] at hs hr
      exact ih hs hr

theorem consistent_of_admitted (h : PoolOp.Admitted env .empty ops) :
    ((run env .empty ops).toOption.getD .empty).Consistent env := by
  have hrun := run_yields empty_consistent h
  cases hr : run env .empty ops with
  | ok pool =>
    rw [hr] at hrun
    exact hrun
  | error stop => exact empty_consistent
end CTxMemPool

/-- Every pool that a run of admitted operations leads to is consistent, and only an overflow stops the
run. -/
theorem poolRun_consistent (env : MemPoolEnv) (ops : List PoolOp) (h : PoolOp.Admitted env .empty ops) :
    PoolYields (run env .empty ops) fun pool => pool.Consistent env :=
  run_yields empty_consistent h

variable {txids : Finset Uint256} {data : EntryData}
theorem PoolView.Consistent.ancestorState_of_parentless {v : PoolView}
    (h : v.Consistent env txids) {k : Uint256}
    (hd : v.data k = some data) (hpa : v.parents k = []) : v.ancestorState k = data.forDescendants env := by
  have hk : k ∈ txids := by
    rw [h.mem,hd]
    rfl
  rw [h.ancestorState k hk,total_of_no_step hk,forDescendants_of_data hd]
  intro p hp
  have hmem := ((h.parents k).2 p).mpr hp
  rw [hpa] at hmem
  cases hmem

theorem PoolView.Consistent.ancestorState_of_one_parent {v : PoolView} (h : v.Consistent env txids)
    {k p : Uint256} (hd : v.data k = some data) (hpa : v.parents k = [p]) :
    v.ancestorState k = data.forDescendants env + v.ancestorState p := by
  have hk : k ∈ txids := by
    rw [h.mem,hd]
    rfl
  have hs : ∀ q, v.Parent q k ↔ q = p := by
    intro q
    rw [← (h.parents k).2 q,hpa,mem_singleton]
  have hp : p ∈ txids := (h.mem p).mpr ((hs p).mpr rfl).1
  have ha : ∀ x, ¬ TransGen (Function.swap v.Parent) x x := by
    intro x hx
    exact h.acyclic x (transGen_swap.mp hx)
  rw [h.ancestorState k hk,h.ancestorState p hp,total_of_one_step ha hk hs,forDescendants_of_data hd]

def lockTimeEnv : MemPoolEnv := ⟨fun tx => tx.nLockTime.setWidth 256, 20⟩
def spendingTx (id prev : BitVec 32) : CTransaction :=
  ⟨[⟨⟨prev.setWidth 256, 0⟩, [], 0xffffffff#32, []⟩], [⟨1000, []⟩], 2, id⟩
def defaultLimits : MemPoolLimits := ⟨25, 101000, 25, 101000⟩
def addChain : List PoolOp :=
  [.addUnchecked (spendingTx 1 9) 300 0 4 defaultLimits,.addUnchecked (spendingTx 2 1) 200 0 4 defaultLimits,
    .addUnchecked (spendingTx 3 2) 100 0 4 defaultLimits]

/-- The chain, and a block with its first transaction. -/
def confirmFirst : List PoolOp := addChain++[.removeForBlock [spendingTx 1 9]]
theorem confirmFirst_consistent :
    PoolOp.Admitted lockTimeEnv .empty confirmFirst ∧ (run lockTimeEnv .empty confirmFirst).isOk ∧
      PoolYields (run lockTimeEnv .empty confirmFirst) fun pool =>
        pool.Consistent lockTimeEnv := by
  have hadmitted : PoolOp.Admitted lockTimeEnv .empty confirmFirst := by decide +kernel
  exact ⟨hadmitted,by decide +kernel,poolRun_consistent lockTimeEnv confirmFirst hadmitted⟩

/-- A block with the second transaction but not the first leaves the third with a total that counts the
first. -/
theorem removeForBlock_orphans :
    PoolOp.Admitted lockTimeEnv .empty addChain ∧
      ∃ pool, run lockTimeEnv .empty (addChain++[.removeForBlock [spendingTx 2 1]]) =
        .ok pool ∧ ¬ pool.Consistent lockTimeEnv := by
  refine ⟨by decide +kernel,?_⟩
  have hthird : ((run lockTimeEnv .empty
      (addChain++[.removeForBlock [spendingTx 2 1]])).toOption.bind (·.mapTx.lookup 3)).map
        (fun entry => (entry.parents, entry.nCountWithAncestors)) = some ([], 2) := by
    decide +kernel
  cases hrun : run lockTimeEnv .empty
    (addChain++[.removeForBlock [spendingTx 2 1]]) with
  | error stop =>
    rw [hrun] at hthird
    cases hthird
  | ok pool =>
    rw [hrun] at hthird
    refine ⟨pool,rfl,fun hc => ?_⟩
    obtain ⟨entry,hget,hent⟩ := Option.map_eq_some_iff.mp hthird
    have hshows := shows_of_lookup hget
    have htotal := hc.ancestorState_of_parentless hshows.data
      (hshows.parents.trans (congrArg Prod.fst hent))
    have hcnt : entry.nCountWithAncestors = 1 := congrArg Prod.fst (hshows.ancestorState.symm.trans htotal)
    rw [hcnt] at hent
    cases congrArg Prod.snd hent
end Lcryp
