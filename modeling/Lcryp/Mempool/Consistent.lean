import Lcryp.Framework.Interaction
import Lcryp.Framework.Lineage
import Lcryp.Mempool.View

/-!
# Consistent pools

The transactions of a pool are the nodes of a graph, with an edge from each transaction to those that
spend its outputs.
-/
namespace Lcryp
open Interaction Relation Lineage Search List
def CTransaction.prevTxids (tx : CTransaction) : List Uint256 := tx.prevouts.map COutPoint.hash

variable {a b : Uint256} (env : MemPoolEnv)
namespace PoolView
variable (v : PoolView)
def Parent (p c : Uint256) : Prop := (v.data p).isSome ∧ ∃ data, v.data c = some data ∧ p ∈ data.tx.prevTxids
def forAncestors (v : PoolView) (it : Uint256) : DescendantState :=
  ((v.data it).map (EntryData.forAncestors env)).getD 0
def forDescendants (v : PoolView) (it : Uint256) : AncestorState :=
  ((v.data it).map (EntryData.forDescendants env)).getD 0
def sizeOf (it : Uint256) : Int := ((v.data it).map fun data => (data.getTxSize env : Int)).getD 0
def feeOf (it : Uint256) : Int := ((v.data it).map EntryData.nFee).getD 0
def ParentsExact : Prop := ∀ k, (v.parents k).Nodup ∧ ∀ p, p ∈ v.parents k ↔ v.Parent p k
def ChildrenExact : Prop := ∀ k, (v.children k).Nodup ∧ ∀ c, c ∈ v.children k ↔ v.Parent k c

/-- The entries are under their own ids, their spent outpoints are indexed and their totals are kept. -/
structure Keyed (v : PoolView) (txids : Finset Uint256) : Prop where
  mem : ∀ k, k ∈ txids ↔ (v.data k).isSome
  keyed : ∀ k data, v.data k = some data → env.getHash data.tx = k
  spender : ∀ prevout tx, v.spender prevout = some tx ↔
    ∃ k data, v.data k = some data ∧ data.tx = tx ∧ prevout ∈ tx.prevouts
  totalTxSize : v.totalTxSize = ∑ k ∈ txids, v.sizeOf env k
  totalFee : v.totalFee = ∑ k ∈ txids, v.feeOf k

structure Consistent (v : PoolView) (txids : Finset Uint256) : Prop extends Keyed env v txids where
  acyclic : ∀ k, ¬ TransGen v.Parent k k
  parents : v.ParentsExact
  children : v.ChildrenExact
  /-- Count, size, modified fees and signature operations over an entry and its ancestors. -/
  ancestorState : ∀ k ∈ txids,
    v.ancestorState k = total (Function.swap v.Parent) txids (v.forDescendants env) k
  /-- Count, size and modified fees over an entry and its descendants. -/
  descendantState : ∀ k ∈ txids, v.descendantState k = total v.Parent txids (v.forAncestors env) k

/-- The links are those of a graph on the entries, and the totals are those over it. -/
structure Linked (v : PoolView) (R : Uint256 → Uint256 → Prop) (txids : Finset Uint256) : Prop where
  inside : ∀ a b, R a b → a ∈ txids ∧ b ∈ txids
  acyclic : ∀ k, ¬ TransGen R k k
  parents : ∀ k, (v.parents k).Nodup ∧ ∀ p, p ∈ v.parents k ↔ R p k
  children : ∀ k, (v.children k).Nodup ∧ ∀ c, c ∈ v.children k ↔ R k c
  ancestorState : ∀ k ∈ txids,
    v.ancestorState k = total (Function.swap R) txids (v.forDescendants env) k
  descendantState : ∀ k ∈ txids, v.descendantState k = total R txids (v.forAncestors env) k

variable {env} {v : PoolView} {txids : Finset Uint256}
theorem Keyed.inside (h : v.Keyed env txids) (hab : v.Parent a b) : a ∈ txids ∧ b ∈ txids := by
  obtain ⟨ha,data,hd,_⟩ := hab
  rw [h.mem,h.mem,hd]
  exact ⟨ha,rfl⟩

theorem consistent_iff : v.Consistent env txids ↔ v.Keyed env txids ∧ v.Linked env v.Parent txids := by
  constructor
  · intro h
    exact ⟨h.toKeyed,fun a b => h.inside,h.acyclic,h.parents,h.children,h.ancestorState,h.descendantState⟩
  · rintro ⟨hk,hl⟩
    exact ⟨hk,hl.acyclic,hl.parents,hl.children,hl.ancestorState,hl.descendantState⟩
end PoolView

namespace CTxMemPool
variable (pool : CTxMemPool)
def txids : Finset Uint256 := pool.mapTx.keys.toFinset
def Consistent : Prop := pool.view.Consistent env pool.txids

variable {pool : CTxMemPool}
theorem mem_txids {it : Uint256} : it ∈ pool.txids ↔ it ∈ pool.mapTx := by
  rw [txids,mem_toFinset,AList.mem_keys]
theorem mem_txids_iff {it : Uint256} : it ∈ pool.txids ↔ (pool.view.data it).isSome := by
  rw [mem_txids,mem_iff_data]
end CTxMemPool

theorem EntryData.getTxSize_pos (env : MemPoolEnv) (data : EntryData) : 0 < data.getTxSize env := by
  unfold EntryData.getTxSize getVirtualTransactionSize CTransaction.weight CTransaction.strippedSize
    witnessScaleFactor
  omega

namespace CTxMemPool
variable {pool : CTxMemPool} {R : Uint256 → Uint256 → Prop}
theorem explore_links {next : Uint256 → List Uint256} (hn : ∀ a b, b ∈ next a ↔ R a b)
    (hR : ∀ a b, R a b → b ∈ pool.txids) {visited stage : List Uint256} (hvis : visited.Nodup)
    (hs : stage.Nodup) (hnew : ∀ a ∈ stage, a ∉ visited) (hmem : ∀ a ∈ stage, a ∈ pool.txids)
    (hc : ∀ a ∈ visited, ∀ b, R a b → b ∈ visited) :
    (explore next pool.mapTx.keys.length visited stage).Nodup ∧
      ∀ x, x ∈ explore next pool.mapTx.keys.length visited stage ↔
        x ∈ visited ∨ ∃ a ∈ stage, ReflTransGen R a x := by
  have hr : Reach next = ReflTransGen R := by
    unfold Reach
    congr 1
    funext a b
    exact propext (hn a b)
  have hf : (pool.txids.filter (· ∉ visited)).card ≤ pool.mapTx.keys.length :=
    (Finset.card_filter_le _ _).trans (toFinset_card_le _)
  rw [← hr]
  have hsr : Searching next pool.txids visited stage := by
    refine ⟨hvis,hs,hnew,hmem,?_⟩
    intro a ha b hb
    exact .inl (hc a ha b ((hn a b).mp hb))
  exact explore_spec (fun a _ b hb => hR a b ((hn a b).mp hb)) _ hsr hf

theorem exceeds_noLimit (value : Int) : exceeds value (2^64 - 1) = false := by
  unfold exceeds
  simp only [decide_eq_false_iff_not]
  omega

variable {limits : MemPoolLimits}
theorem stageParents_eq_ok {entryCount : Nat} {setAncestors staged parents l : List Uint256}
    (h : stageParents limits entryCount setAncestors staged parents = .ok l) :
    l = stageAll setAncestors staged parents := by
  induction parents generalizing staged with
  | nil => exact (Except.ok.inj h).symm
  | cons parent rest ih => exact ih (require_bind_eq_ok.mp h).2

theorem stageParents_noLimit (entryCount : Nat) (setAncestors staged parents : List Uint256) :
    stageParents .noLimit entryCount setAncestors staged parents =
      .ok (stageAll setAncestors staged parents) := by
  induction parents generalizing staged with
  | nil => rfl
  | cons parent rest ih => exact require_bind_eq_ok.mpr ⟨exceeds_noLimit _,ih _⟩

variable {it : Uint256} {entry : CTxMemPoolEntry}
theorem parentsOf_of_lookup (h : pool.mapTx.lookup it = some entry) : pool.parentsOf it = entry.parents := by
  rw [parentsOf,h]
  rfl

theorem parentsOf_of_none (h : pool.mapTx.lookup it = none) : pool.parentsOf it = [] := by
  rw [parentsOf,h]
  rfl

theorem calculateAncestors_eq_ok {entrySize entryCount fuel totalSize : Nat}
    {setAncestors staged l : List Uint256}
    (h : calculateAncestors env pool limits entrySize entryCount fuel totalSize setAncestors staged =
      .ok l) : l = explore pool.parentsOf fuel setAncestors staged := by
  induction fuel generalizing totalSize setAncestors staged with
  | zero => exact (Except.ok.inj h).symm
  | succ fuel ih =>
    cases staged with
    | nil => exact (Except.ok.inj h).symm
    | cons stageit staged =>
      rw [calculateAncestors] at h
      rw [explore]
      cases hget : pool.mapTx.lookup stageit with
      | none =>
        rw [hget] at h
        rw [parentsOf_of_none hget]
        exact ih h
      | some stage =>
        rw [hget] at h
        obtain ⟨_,_,h⟩ := bind_eq_ok.mp h
        obtain ⟨staged',hs,h⟩ := bind_eq_ok.mp h
        rw [parentsOf_of_lookup hget,← stageParents_eq_ok hs]
        exact ih h

theorem checkAncestor_noLimit (entrySize entryCount totalSize : Nat) (stage : CTxMemPoolEntry) :
    checkAncestor env .noLimit entrySize entryCount totalSize stage = .ok () := by
  simp only [checkAncestor,MemPoolLimits.noLimit,exceeds_noLimit]
  rfl

theorem calculateAncestors_noLimit (entrySize entryCount fuel totalSize : Nat)
    (setAncestors staged : List Uint256) :
    calculateAncestors env pool .noLimit entrySize entryCount fuel totalSize setAncestors staged =
      .ok (explore pool.parentsOf fuel setAncestors staged) := by
  induction fuel generalizing totalSize setAncestors staged with
  | zero => rfl
  | succ fuel ih =>
    cases staged with
    | nil => rfl
    | cons stageit staged =>
      rw [calculateAncestors,explore]
      cases hget : pool.mapTx.lookup stageit with
      | none =>
        rw [parentsOf_of_none hget]
        exact ih _ _ _
      | some stage =>
        rw [parentsOf_of_lookup hget]
        simp only [checkAncestor_noLimit,stageParents_noLimit]
        exact ih _ _ _

theorem ancestorsOf_eq (entry : CTxMemPoolEntry) :
    ancestorsOf env pool entry =
      explore pool.parentsOf pool.mapTx.keys.length [] (pool.parentsOf (env.getHash entry.tx)) := by
  have hok : calculateMemPoolAncestors env pool entry .noLimit false =
      .ok (explore pool.parentsOf pool.mapTx.keys.length []
        (pool.parentsOf (env.getHash entry.tx))) := by
    exact calculateAncestors_noLimit env _ _ _ _ _ _
  rw [ancestorsOf,hok]

variable {p c : Uint256}
theorem parent_left_mem (h : pool.view.Parent p c) : p ∈ pool.txids := mem_txids_iff.mpr h.1
theorem parent_right_mem (h : pool.view.Parent p c) : c ∈ pool.txids := by
  obtain ⟨_,data,hd,_⟩ := h
  rw [mem_txids_iff,hd]
  rfl

theorem reach_mem (h : ReflTransGen pool.view.Parent p c) (hp : p ∈ pool.txids) :
    c ∈ pool.txids := mem_of_reach (fun _ _ hstep _ => parent_right_mem hstep) h hp
theorem beyond_left_mem (h : Beyond pool.view.Parent a b) : a ∈ pool.txids := by
  rcases ReflTransGen.cases_head h.2 with heq | ⟨c,hs,_⟩
  · exact absurd heq.symm h.1
  · exact parent_left_mem hs

theorem beyond_right_mem (h : Beyond pool.view.Parent a b) : b ∈ pool.txids := by
  rcases ReflTransGen.cases_tail h.2 with heq | ⟨c,_,hs⟩
  · exact absurd heq h.1
  · exact parent_right_mem hs

theorem mem_explore_parents (hp : ∀ k p, p ∈ pool.view.parents k ↔ R p k) (hR : ∀ a b, R a b → a ∈ pool.txids)
    {staged : List Uint256} (hnd : staged.Nodup) (hmem : ∀ a ∈ staged, a ∈ pool.txids) :
    (explore pool.parentsOf pool.mapTx.keys.length [] staged).Nodup ∧
      ∀ x, x ∈ explore pool.parentsOf pool.mapTx.keys.length [] staged ↔ ∃ p ∈ staged, ReflTransGen R x p := by
  have hs := explore_links (R := Function.swap R) hp (fun a b h => hR b a h)
    nodup_nil hnd (fun _ _ => not_mem_nil) hmem nofun
  refine ⟨hs.1,fun x => (hs.2 x).trans ?_⟩
  simp [reflTransGen_swap]

theorem listed_ancestors (hpa : pool.view.ParentsExact) (ha : ∀ k, ¬ TransGen pool.view.Parent k k)
    (hit : env.getHash entry.tx = it) :
    Listed pool (ancestorsOf env pool entry) ∧
      ∀ x, x ∈ ancestorsOf env pool entry ↔ Beyond pool.view.Parent x it := by
  have hs := mem_explore_parents (fun k => (hpa k).2) (fun _ _ => parent_left_mem)
    (hpa it).1 fun p hp => parent_left_mem (((hpa it).2 p).mp hp)
  have hset : ∀ x, x ∈ ancestorsOf env pool entry ↔ Beyond pool.view.Parent x it := by
    intro x
    rw [ancestorsOf_eq,hit,beyond_iff_transGen ha,TransGen.tail'_iff]
    refine (hs.2 x).trans ?_
    constructor
    · rintro ⟨p,hp,hr⟩
      exact ⟨p,hr,((hpa it).2 p).mp hp⟩
    · rintro ⟨p,hr,hp⟩
      exact ⟨p,((hpa it).2 p).mpr hp,hr⟩
  refine ⟨⟨?_,fun x hx => mem_txids.mp (beyond_left_mem ((hset x).mp hx))⟩,hset⟩
  rw [ancestorsOf_eq,hit]
  exact hs.1

theorem mem_calculateDescendants (hk : pool.view.ChildrenExact) {found : List Uint256} (hnd : found.Nodup)
    (hc : ∀ a ∈ found, ∀ b, pool.view.Parent a b → b ∈ found) (hit : it ∈ pool.txids) :
    (calculateDescendants pool found it).Nodup ∧
      ∀ x, x ∈ calculateDescendants pool found it ↔ x ∈ found ∨ ReflTransGen pool.view.Parent it x := by
  have hs : (if it ∈ found then [] else [it]).Nodup := by split <;> simp
  have hnew : ∀ a ∈ (if it ∈ found then [] else [it]), a ∉ found := by split <;> simp_all
  have hsr := explore_links (R := pool.view.Parent) (fun a b => (hk a).2 b)
    (fun a b h => parent_right_mem h) hnd hs hnew (by split <;> simp [hit]) hc
  refine ⟨hsr.1,fun x => (hsr.2 x).trans ?_⟩
  by_cases hf : it ∈ found
  · -- the descendants of what was found are found already
    have hr : ∀ y, ReflTransGen pool.view.Parent it y → y ∈ found := by
      intro y hy
      induction hy with
      | refl => exact hf
      | tail _ hstep ih => exact hc _ ih _ hstep
    simp only [hf,if_true,not_mem_nil,false_and,exists_false,or_false]
    exact ⟨.inl,fun h => h.elim id (hr x)⟩
  · simp [hf]

theorem listed_descendants (hki : pool.view.ChildrenExact) (hit : it ∈ pool.txids) :
    Listed pool ((calculateDescendants pool [] it).erase it) ∧
      ∀ k, k ∈ (calculateDescendants pool [] it).erase it ↔ Beyond pool.view.Parent it k := by
  obtain ⟨hnd,hmem⟩ := mem_calculateDescendants hki nodup_nil nofun hit
  have hset : ∀ k, k ∈ (calculateDescendants pool [] it).erase it ↔ Beyond pool.view.Parent it k := by
    intro k
    rw [hnd.mem_erase_iff,hmem]
    simp [Beyond]
  exact ⟨⟨hnd.erase it,fun k hk => mem_txids.mp (beyond_right_mem ((hset k).mp hk))⟩,hset⟩

theorem mem_withDescendants (hki : pool.view.ChildrenExact) {l : List Uint256}
    (hmem : ∀ it ∈ l, it ∈ pool.txids) :
    (pool.withDescendants l).Nodup ∧
      ∀ x, x ∈ pool.withDescendants l ↔ ∃ it ∈ l, ReflTransGen pool.view.Parent it x := by
  have hl : ∀ (l found : List Uint256), (∀ it ∈ l, it ∈ pool.txids) → found.Nodup →
      (∀ a ∈ found, ∀ b, pool.view.Parent a b → b ∈ found) →
      (l.foldl (calculateDescendants pool) found).Nodup ∧
        ∀ x, x ∈ l.foldl (calculateDescendants pool) found ↔
          x ∈ found ∨ ∃ it ∈ l, ReflTransGen pool.view.Parent it x := by
    intro l
    induction l with
    | nil =>
      intro found _ hnd _
      simpa using hnd
    | cons it rest ih =>
      intro found hmem hnd hcl
      obtain ⟨hnd',hme⟩ := mem_calculateDescendants hki hnd hcl (hmem it mem_cons_self)
      have hc : ∀ a ∈ calculateDescendants pool found it, ∀ b, pool.view.Parent a b →
          b ∈ calculateDescendants pool found it := by
        intro a ha b hab
        rw [hme] at ha ⊢
        rcases ha with ha | ha
        · exact .inl (hcl a ha b hab)
        · exact .inr (ha.tail hab)
      obtain ⟨hn,hm⟩ := ih (calculateDescendants pool found it)
        (fun k hk => hmem k (mem_cons_of_mem _ hk)) hnd' hc
      refine ⟨hn,fun x => (hm x).trans ?_⟩
      rw [hme,or_assoc]
      simp
  simpa [withDescendants] using hl l [] hmem nodup_nil nofun
end CTxMemPool
end Lcryp
