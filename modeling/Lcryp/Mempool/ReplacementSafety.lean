import Lcryp.Mempool.Accept
import Lcryp.Mempool.Agreement
import Lcryp.Mempool.FeeOverflow
import Lcryp.Validation.Chainstate

/-!
# Safe replacement

A transaction that passes the checks may evict its conflicts and their descendants.
-/
namespace Lcryp
open Interaction Relation Lineage List Yields
/-! ## Pools that keep their transactions -/
variable {tx : CTransaction} {k : Uint256} {entry : CTxMemPoolEntry}
namespace CTxMemPool
variable {env : MemPoolEnv} {pool next last : CTxMemPool}
def txAt (pool : CTxMemPool) (it : Uint256) : Option CTransaction :=
  (pool.mapTx.lookup it).map CTxMemPoolEntry.tx

variable (it : Uint256)
theorem txAt_eq : pool.txAt it = (pool.view.data it).map EntryData.tx := by
  simp only [view,Option.map_map]
  rfl

/-- Every transaction of a pool is one of another pool. -/
def Within (pool next : CTxMemPool) : Prop := ∀ it tx, next.txAt it = some tx → pool.txAt it = some tx
theorem Within.refl (pool : CTxMemPool) : pool.Within pool := fun _ _ => id
theorem Within.trans (h : pool.Within next) (h' : next.Within last) : pool.Within last :=
  fun it tx htx => h it tx (h' it tx htx)

/-- Whatever an operation returns has no new transaction. -/
abbrev Keeps {α : Type} (pool : CTxMemPool) (x : Except PoolStop α) (poolOf : α → CTxMemPool) : Prop :=
  Yields (fun _ => True) x fun result => pool.Within (poolOf result)

variable {α : Type}
theorem Keeps.bind {x : PoolResult}
    {f : CTxMemPool → Except PoolStop α} {poolOf : α → CTxMemPool} (hx : Keeps pool x id)
    (hf : ∀ next, Keeps next (f next) poolOf) : Keeps pool (x >>= f) poolOf := by
  apply Yields.bind hx
  intro next hn
  exact (hf next).mono fun _ => hn.trans

theorem Keeps.foldlM {step : CTxMemPool → α → PoolResult}
    (hs : ∀ next a, Keeps next (step next a) id) (l : List α) : Keeps pool (l.foldlM step pool) id := by
  apply Yields.foldlM (I := fun _ next => pool.Within next)
  · intro _ a _ next _ hnext
    exact (hs next a).mono fun _ => hnext.trans
  · exact .refl pool

theorem modify_keeps {it : Uint256} {f : CTxMemPoolEntry → Except PoolStop CTxMemPoolEntry}
    (hf : ∀ entry, Yields (fun _ => True) (f entry) fun updated => updated.tx = entry.tx) :
    Keeps pool (pool.modify it f) id := by
  unfold modify
  split
  · trivial
  next entry hget =>
    apply bind (hf entry)
    intro updated hupd k tx htx
    by_cases hk : k = it
    · subst hk
      simpa [txAt,hget,hupd] using htx
    · simpa [txAt,AList.lookup_insert_ne hk] using htx

theorem SameFees.within (h : pool.SameFees next) : pool.Within next := by
  intro it tx htx
  have hent := congrArg (Option.map Prod.fst) (h.entries it)
  rw [Option.map_map,Option.map_map] at hent
  exact hent.symm.trans htx

-- what the checked operation returns, the one of the source returns
theorem Keeps.of_same {x y : PoolResult} {G : Prop} (hxy : Stricter x y)
    (hy : FeeStops y G pool.SameFees) : Keeps pool x id := by
  cases hx : x with
  | error stop => trivial
  | ok next =>
    rw [hxy next hx] at hy
    exact hy.2.within

/-! ## Removal and addition -/
theorem removeUnchecked_keeps : Keeps pool (removeUnchecked env pool it) id := by
  apply Yields.after
  intro entry
  apply Yields.after
  intro _ k tx htx
  obtain ⟨entry,hget,rfl⟩ := Option.map_eq_some_iff.mp htx
  exact Option.map_eq_some_iff.mpr ⟨entry,(lookup_of_lookup_erase hget).2,rfl⟩

variable (stage : List Uint256)
theorem removeStaged_keeps : Keeps pool (removeStaged env pool stage false) id :=
  Keeps.bind (.of_same (Saturating.updateForRemoveFromMempool_agrees pool stage false)
    (Saturating.updateForRemoveFromMempool_stops pool stage false)) fun _ =>
      Keeps.foldlM (fun _ _ => removeUnchecked_keeps _) _

theorem expire_keeps (time : Int) : Keeps pool (expire env pool time) Prod.fst :=
  Keeps.bind (removeStaged_keeps _) fun next => of_ok (.refl next)

theorem trimLoop_keeps (policy : TrimPolicy) (sizelimit fuel : Nat) (pvNoSpendsRemaining : List COutPoint) :
    Keeps pool (trimLoop env policy sizelimit fuel pool pvNoSpendsRemaining) Prod.fst := by
  induction fuel generalizing pool pvNoSpendsRemaining with
  | zero => exact of_ok (.refl pool)
  | succ fuel ih =>
    rw [trimLoop]
    split
    · exact of_ok (.refl pool)
    · split
      · exact Keeps.bind (removeStaged_keeps _) fun _ => ih _
      · exact of_ok (.refl pool)

theorem enter_keeps (entry : CTxMemPoolEntry) :
    Keeps (insertEntry env pool entry) (enter env pool entry) id := by
  apply Yields.after
  intro delta
  split
  · apply modify_keeps
    intro entry
    iterate 3
      apply Yields.after
      intro _
    exact of_ok rfl
  · exact of_ok (.refl _)

theorem addUnchecked_keeps (entry : CTxMemPoolEntry) (setAncestors : List Uint256) :
    Keeps (insertEntry env pool entry) (addUnchecked env pool entry setAncestors) id := by
  apply Keeps.bind (enter_keeps entry)
  intro next
  apply Keeps.bind (.of_same (.refl _) (Saturating.linkParents_same next _))
  intro next
  apply Keeps.bind (.of_same (Saturating.updateAncestorsOf_agrees next _ _ _)
    (Saturating.updateAncestorsOf_stops next _ _ _))
  intro next
  apply Keeps.bind (.of_same (Saturating.updateEntryForAncestors_agrees next _ _)
    (Saturating.updateEntryForAncestors_stops next _ _))
  intro next
  apply Yields.after
  intro _
  exact of_ok (.refl next)

theorem addUnchecked_txAt {setAncestors : List Uint256}
    (h : addUnchecked env pool entry setAncestors = .ok next) (htx : next.txAt k = some tx) :
    pool.txAt k = some tx ∨ k = env.getHash entry.tx ∧ tx = entry.tx := by
  have hke : Keeps (insertEntry env pool entry) (addUnchecked env pool entry setAncestors) id :=
    addUnchecked_keeps entry setAncestors
  rw [h] at hke
  have hins := hke k tx htx
  unfold insertEntry at hins
  split at hins
  · exact .inl hins
  by_cases hk : k = env.getHash entry.tx
  · subst hk
    right
    simpa [txAt,eq_comm] using hins
  · left
    simpa [txAt,AList.lookup_insert_ne hk] using hins

/-! ## Descendants of a set -/

open Classical in
theorem Consistent.count_descendants (hc : pool.Consistent env) (hk : k ∈ pool.txids) :
    (pool.view.descendantState k).1 = ((pool.txids.filter (ReflTransGen pool.view.Parent k)).card : Int) := by
  have hone : ∀ y ∈ pool.txids, (pool.view.forAncestors env y).1 = 1 := by
    intro y hy
    obtain ⟨data,hd⟩ := Option.isSome_iff_exists.mp (mem_txids_iff.mp hy)
    rw [PoolView.forAncestors,hd]
    rfl
  rw [hc.descendantState k hk,total_fst_eq_card hone]

theorem Consistent.length_withDescendants_le (hc : pool.Consistent env) {l : List Uint256}
    (hnd : l.Nodup) (hl : ∀ it ∈ l, it ∈ pool.txids) :
    ((pool.withDescendants l).length : Int) ≤ (l.map fun it => (pool.view.descendantState it).1).sum := by
  classical
  obtain ⟨hset,hmem⟩ := mem_withDescendants hc.children hl
  have hsub : (pool.withDescendants l).toFinset ⊆
      l.toFinset.biUnion fun it => pool.txids.filter (ReflTransGen pool.view.Parent it) := by
    intro x hx
    obtain ⟨it,hit,hr⟩ := (hmem x).mp (mem_toFinset.mp hx)
    refine Finset.mem_biUnion.mpr ⟨it,mem_toFinset.mpr hit,Finset.mem_filter.mpr ⟨?_,hr⟩⟩
    exact reach_mem hr (hl it hit)
  have hca := (Finset.card_le_card hsub).trans Finset.card_biUnion_le
  rw [toFinset_card_of_nodup hset] at hca
  calc ((pool.withDescendants l).length : Int)
      ≤ ((∑ it ∈ l.toFinset, (pool.txids.filter (ReflTransGen pool.view.Parent it)).card : Nat) : Int) :=
        Int.ofNat_le.mpr hca
    _ = ∑ it ∈ l.toFinset, (pool.view.descendantState it).1 := by
        rw [Nat.cast_sum]
        apply Finset.sum_congr rfl
        intro it hit
        rw [hc.count_descendants (hl it (mem_toFinset.mp hit))]
    _ = (l.map fun it => (pool.view.descendantState it).1).sum := sum_toFinset _ hnd
end CTxMemPool

/-! ## The checks of the policy -/

variable {txid : Uint256} {l : List CTxMemPoolEntry}
theorem countConflicts_eq_ok {n : Int}
    (h : countConflicts txid n l = .ok ()) (hn : n ≤ maxReplacementCandidates) :
    n + (l.map CTxMemPoolEntry.nCountWithDescendants).sum ≤ maxReplacementCandidates := by
  induction l generalizing n with
  | nil => simpa using hn
  | cons mi rest ih =>
    obtain ⟨hle,hr⟩ := require_bind_eq_ok.mp h
    have hsum := ih hr hle
    rw [map_cons,sum_cons]
    omega

theorem checkUnconfirmed_eq_ok {pool : CTxMemPool} {parents : List Uint256} {j : Nat}
    {l : List COutPoint} (h : checkUnconfirmed txid pool parents j l = .ok ()) :
    ∀ prevout ∈ l, prevout.hash ∈ parents ∨ prevout.hash ∉ pool.mapTx := by
  induction l generalizing j with
  | nil => simp
  | cons prevout rest ih =>
    obtain ⟨hfst,hr⟩ := require_bind_eq_ok.mp h
    simpa using ⟨hfst,ih hr⟩

theorem entriesAndTxidsDisjoint_eq_ok {getHash : CTransaction → Uint256} {conflicts : List Uint256}
    (h : entriesAndTxidsDisjoint getHash conflicts txid l = .ok ()) :
    ∀ entry ∈ l, getHash entry.tx ∉ conflicts := by
  induction l with
  | nil => simp
  | cons entry rest ih =>
    obtain ⟨hfst,hr⟩ := require_bind_eq_ok.mp h
    simpa using ⟨hfst,ih hr⟩

theorem paysMoreThanConflicts_eq_ok {env : MemPoolEnv} {rate : CFeeRate} (h : paysMoreThanConflicts env rate txid l = .ok ()) :
    ∀ mi ∈ l, (CFeeRate.ofFee mi.modifiedFee (mi.getTxSize env)).nRypsPerK < rate.nRypsPerK := by
  induction l with
  | nil => simp
  | cons mi rest ih =>
    obtain ⟨hfst,hr⟩ := require_bind_eq_ok.mp h
    simpa using ⟨not_le.mp hfst,ih hr⟩

theorem paysForRBF_eq_ok {originalFees replacementFees relayFee : Int}
    (h : paysForRBF originalFees replacementFees relayFee txid = .ok ()) :
    originalFees ≤ replacementFees ∧ originalFees + relayFee ≤ replacementFees := by
  obtain ⟨hf,hr⟩ := require_bind_eq_ok.mp h
  have hre : ¬ replacementFees - originalFees < relayFee := by
    by_contra hl
    rw [require,if_neg (not_not_intro hl)] at hr
    cases hr
  omega

/-! ## What the checks leave -/

namespace PoolView
variable (v : PoolView)
def Conflicts (tx : CTransaction) (c : Uint256) : Prop :=
  ∃ data, v.data c = some data ∧ ∃ prevout ∈ tx.prevouts, prevout ∈ data.tx.prevouts

def AncestorOf (tx : CTransaction) (a : Uint256) : Prop :=
  ∃ p, ((v.data p).isSome ∧ p ∈ tx.prevTxids) ∧ ReflTransGen v.Parent a p
def modifiedFeeOf (it : Uint256) : Int := ((v.data it).map EntryData.modifiedFee).getD 0
end PoolView

namespace Accept
open CTxMemPool
variable {env : AcceptEnv} {ctx : AcceptContext} {pool : CTxMemPool}
theorem policyCheck_eq_ok {α : Type} {result : TxValidationResult} {reason : String}
    {x : Except String α} {a : α} : policyCheck result reason x = .ok a ↔ x = .ok a := by
  cases x <;> simp [policyCheck]

variable {args : ATMPArgs}
theorem collectConflicts_eq_ok {conflicts l : List Uint256}
    {prevouts : List COutPoint} (h : collectConflicts env pool args conflicts prevouts = .ok l) :
    ∀ c, c ∈ l ↔ c ∈ conflicts ∨
      ∃ prevout ∈ prevouts, ∃ tx, pool.mapNextTx.lookup prevout = some tx ∧ env.txid tx = c := by
  induction prevouts generalizing conflicts with
  | nil =>
    cases h
    simp
  | cons prevout rest ih =>
    intro c
    rw [collectConflicts] at h
    cases hget : pool.mapNextTx.lookup prevout with
    | none =>
      rw [hget] at h
      simp [ih h,hget]
    | some tx =>
      rw [hget] at h
      obtain ⟨_,_,h⟩ := bind_eq_ok.mp h
      by_cases hk : env.txid tx ∈ conflicts
      · rw [if_pos hk] at h
        rw [ih h]
        simp only [exists_mem_cons_iff,hget,Option.some.injEq,exists_eq_left']
        constructor
        · exact Or.imp_right .inr
        · rintro (hc | rfl | hc)
          · exact .inl hc
          · exact .inl hk
          · exact .inr hc
      · rw [if_neg hk] at h
        obtain ⟨_,_,h⟩ := bind_eq_ok.mp h
        rw [ih h]
        simp only [exists_mem_cons_iff,hget,Option.some.injEq,exists_eq_left',mem_insert_iff]
        rw [or_assoc,or_left_comm,eq_comm]

theorem findAncestors_eq_ok {limits : MemPoolLimits} {vsize : Nat}
    {ancestors : List Uint256} (h : findAncestors env pool limits entry vsize = .ok ancestors) :
    ∃ limits, calculateMemPoolAncestors env.memPool pool entry limits true = .ok ancestors := by
  unfold findAncestors at h
  split at h
  · next hok => exact ⟨limits,by rw [hok,Except.ok.inj h]⟩
  simp only at h
  split at h
  · cases h
  · split at h
    · next hok => exact ⟨_,by rw [hok,Except.ok.inj h]⟩
    · cases h

structure Prechecked (env : AcceptEnv) (pool : CTxMemPool) (tx : CTransaction) (ws : Workspace) : Prop where
  isTx : ws.tx = tx
  new : env.txid tx ∉ pool.mapTx
  entry : ∃ nTime sigOpCost, ws.entry = .new env.memPool tx ws.baseFees nTime sigOpCost
  vsize : ws.vsize = ws.entry.getTxSize env.memPool
  modifiedFees : ws.modifiedFees = ws.baseFees + pool.deltaOf (env.txid tx)
  conflicts : ∃ args, collectConflicts env pool args [] tx.prevouts = .ok ws.conflicts
  iters : ws.itersConflicting = pool.getIterSet ws.conflicts
  ancestors : ∃ limits,
    calculateMemPoolAncestors env.memPool pool ws.entry limits true = .ok ws.ancestors
  disjoint : ∀ entry ∈ pool.entriesOf ws.ancestors, env.txid entry.tx ∉ ws.conflicts

theorem preChecks_eq_ok {limits limits' : MemPoolLimits} {ws : Workspace}
    (h : preChecks env ctx pool args limits tx = .ok (ws, limits')) : Prechecked env pool tx ws := by
  obtain ⟨candidate,hbef,h⟩ := bind_eq_ok.mp h
  obtain ⟨_,_,h⟩ := bind_eq_ok.mp h
  obtain ⟨ancestors,hanc,h⟩ := bind_eq_ok.mp h
  obtain ⟨_,hd,h⟩ := bind_eq_ok.mp h
  obtain ⟨_,_,hbef⟩ := bind_eq_ok.mp hbef
  obtain ⟨_,hnew,hbef⟩ := bind_eq_ok.mp hbef
  obtain ⟨conflicts,hco,hbef⟩ := bind_eq_ok.mp hbef
  iterate 3 obtain ⟨_,_,hbef⟩ := bind_eq_ok.mp hbef
  cases hbef
  cases h
  exact {
    isTx := rfl
    new := by
      obtain ⟨_,_,hnew⟩ := bind_eq_ok.mp hnew
      simpa using hnew
    entry := ⟨_,_,rfl⟩
    vsize := rfl
    modifiedFees := rfl
    conflicts := ⟨args,hco⟩
    iters := rfl
    ancestors := findAncestors_eq_ok hanc
    disjoint := entriesAndTxidsDisjoint_eq_ok (policyCheck_eq_ok.mp hd) }

/-! ## The guarantee -/

/-- What the checks guarantee about the transactions that a replacement evicts. -/
structure SafeReplacement (env : AcceptEnv) (pool : CTxMemPool) (ws : Workspace)
    (evicted : List Uint256) : Prop where
  nodup : evicted.Nodup
  mem_iff : ∀ k, k ∈ evicted ↔ ∃ c, pool.view.Conflicts ws.tx c ∧ ReflTransGen pool.view.Parent c k
  count : evicted.length ≤ maxReplacementCandidates
  disjoint : ∀ k ∈ evicted, ¬ pool.view.AncestorOf ws.tx k
  fees : (evicted.map pool.view.modifiedFeeOf).sum +
    env.getFee env.incrementalRelayFeerate ws.vsize ≤ ws.modifiedFees
  feerate : ∀ c data, pool.view.data c = some data → pool.view.Conflicts ws.tx c →
    (CFeeRate.ofFee data.modifiedFee (data.getTxSize env.memPool)).nRypsPerK <
      (CFeeRate.ofFee ws.modifiedFees ws.vsize).nRypsPerK
  parents : ∀ p ∈ ws.tx.prevTxids, p ∈ pool.txids → ∃ c, pool.view.Conflicts ws.tx c ∧ pool.view.Parent p c

/-- The pool has no other spender of what a transaction spends, and none of evicted outputs. -/
structure Replaced (env : AcceptEnv) (tx : CTransaction) (evicted : List Uint256)
    (next : CTxMemPool) : Prop where
  unspent : ∀ k data, next.view.data k = some data → k ≠ env.txid tx →
    ∀ prevout ∈ data.tx.prevouts, prevout ∉ tx.prevouts
  orphanless : ∀ k data, next.view.data k = some data → ∀ p ∈ data.tx.prevTxids, p ∉ evicted

variable {ws : Workspace}
section Checked
theorem Prechecked.iters_mem (hpre : Prechecked env pool tx ws) :
    ∀ c ∈ ws.itersConflicting, c ∈ pool.txids := by
  intro c hi
  rw [hpre.iters] at hi
  exact mem_txids.mpr (((pool.getIterSet_spec ws.conflicts).2 c).mp hi).2
variable (hc : pool.Consistent env.memPool) (hpre : Prechecked env pool tx ws)
include hc hpre

theorem Prechecked.mem_conflicts (c : Uint256) : c ∈ ws.conflicts ↔ pool.view.Conflicts tx c := by
  obtain ⟨args,hco⟩ := hpre.conflicts
  rw [collectConflicts_eq_ok hco]
  simp only [not_mem_nil,false_or]
  constructor
  · rintro ⟨prevout,hp,conflicting,hget,rfl⟩
    obtain ⟨_,hsp,data,hd,rfl⟩ := spender_mem hc hget
    exact ⟨data,hd,prevout,hp,hsp⟩
  · rintro ⟨data,hd,prevout,hp,hsp⟩
    have hget := (hc.spender prevout data.tx).mpr ⟨c,data,hd,rfl,hsp⟩
    exact ⟨prevout,hp,data.tx,hget,hc.keyed c data hd⟩

theorem Prechecked.mem_iters (c : Uint256) : c ∈ ws.itersConflicting ↔ pool.view.Conflicts tx c := by
  rw [hpre.iters,(pool.getIterSet_spec ws.conflicts).2,hpre.mem_conflicts hc,mem_iff_data]
  constructor
  · exact And.left
  · rintro ⟨data,hd,hs⟩
    exact ⟨⟨data,hd,hs⟩,by rw [hd]; rfl⟩

theorem Prechecked.mem_ancestors : ws.ancestors.Nodup ∧ ∀ a, a ∈ ws.ancestors ↔ pool.view.AncestorOf tx a := by
  obtain ⟨limits,hanc⟩ := hpre.ancestors
  obtain ⟨nTime,sigOpCost,hent⟩ := hpre.entry
  obtain ⟨hnd,hmem⟩ := mem_calculateMemPoolAncestors (PoolView.consistent_iff.mp hc).2 hanc
  refine ⟨hnd,fun a => (hmem a).trans ?_⟩
  simp only [mem_txids_iff,hent]
  rfl

theorem Prechecked.not_ancestorOf {c k : Uint256} (hco : pool.view.Conflicts tx c)
    (hr : ReflTransGen pool.view.Parent c k) : ¬ pool.view.AncestorOf tx k := by
  rintro ⟨p,hp,hpa⟩
  have hmem : c ∈ ws.ancestors := ((hpre.mem_ancestors hc).2 c).mpr ⟨p,hp,hr.trans hpa⟩
  obtain ⟨entry,hget⟩ := exists_lookup (mem_txids.mp (hpre.iters_mem c ((hpre.mem_iters hc c).mpr hco)))
  have hk : env.txid entry.tx = c := hc.keyed c entry.data (shows_of_lookup hget).data
  apply hpre.disjoint entry (mem_entriesOf.mpr ⟨c,hmem,hget⟩)
  rw [hk]
  exact (hpre.mem_conflicts hc c).mpr hco

theorem replacementChecks_safe {evicted : List Uint256}
    (h : replacementChecks env pool ws = .ok evicted) : SafeReplacement env pool ws evicted := by
  obtain ⟨_,hra,h⟩ := bind_eq_ok.mp h
  obtain ⟨all,hen,h⟩ := bind_eq_ok.mp h
  obtain ⟨_,hunc,h⟩ := bind_eq_ok.mp h
  obtain ⟨_,hpa,h⟩ := bind_eq_ok.mp h
  cases h
  obtain ⟨_,hcnt,hall⟩ := bind_eq_ok.mp (policyCheck_eq_ok.mp hen)
  cases hall
  have hmem := hpre.iters_mem
  have hnd : ws.itersConflicting.Nodup := hpre.iters ▸ (pool.getIterSet_spec ws.conflicts).1
  obtain ⟨hset,he⟩ := mem_withDescendants hc.children hmem
  have hiff : ∀ k, k ∈ pool.withDescendants ws.itersConflicting ↔
      ∃ c, pool.view.Conflicts ws.tx c ∧ ReflTransGen pool.view.Parent c k := by
    intro k
    simp [he,hpre.mem_iters hc,hpre.isTx]
  have hin : ∀ k ∈ pool.withDescendants ws.itersConflicting, k ∈ pool.txids := by
    intro k hk
    obtain ⟨c,hco,hr⟩ := (he k).mp hk
    exact reach_mem hr (hmem c hco)
  refine ⟨hset,hiff,?count,?disjoint,?fees,?feerate,?parents⟩
  case count =>
    have hsum := countConflicts_eq_ok hcnt (by decide)
    rw [map_entriesOf _ (fun it => (pool.view.descendantState it).1)
      (fun it entry hget => by rw [(shows_of_lookup hget).descendantState]; rfl)
      fun it hit => mem_txids.mp (hmem it hit)] at hsum
    have hle := hc.length_withDescendants_le hnd hmem
    omega
  case disjoint =>
    intro k hk
    obtain ⟨c,hco,hr⟩ := (hiff k).mp hk
    rw [hpre.isTx] at hco ⊢
    exact hpre.not_ancestorOf hc hco hr
  case fees =>
    have hf := (paysForRBF_eq_ok (policyCheck_eq_ok.mp hpa)).2
    rw [map_entriesOf _ pool.view.modifiedFeeOf
      (fun it entry hget => by rw [PoolView.modifiedFeeOf,(shows_of_lookup hget).data]; rfl)
      fun it hit => mem_txids.mp (hin it hit)] at hf
    exact hf
  case feerate =>
    intro c data hdata hco
    rw [hpre.isTx] at hco
    have hi := (hpre.mem_iters hc c).mpr hco
    obtain ⟨entry,hget⟩ := exists_lookup (mem_txids.mp (hmem c hi))
    have hent := (shows_of_lookup hget).data
    rw [hdata] at hent
    cases hent
    exact paysMoreThanConflicts_eq_ok (policyCheck_eq_ok.mp hra) entry (mem_entriesOf.mpr ⟨c,hi,hget⟩)
  case parents =>
    intro p hp hpool
    obtain ⟨prevout,hpr,rfl⟩ := mem_map.mp hp
    have hpar := (checkUnconfirmed_eq_ok (policyCheck_eq_ok.mp hunc) prevout
      hpr).resolve_right fun hout => hout (mem_txids.mp hpool)
    obtain ⟨entry,hent,hsp⟩ := mem_flatMap.mp hpar
    obtain ⟨c,hi,hget⟩ := mem_entriesOf.mp hent
    refine ⟨c,hpre.isTx ▸ (hpre.mem_iters hc c).mp hi,mem_txids_iff.mp hpool,entry.data,
      (shows_of_lookup hget).data,hsp⟩
end Checked

/-! ## `Finalize` -/
section Finalized
variable {evicted : List Uint256} {removed : CTxMemPool} {next : CTxMemPool}
namespace SafeReplacement
variable (hsafe : SafeReplacement env pool ws evicted)
include hsafe

theorem evicted_mem (hk : k ∈ evicted) : k ∈ pool.txids := by
  obtain ⟨c,⟨data,hd,_⟩,hr⟩ := (hsafe.mem_iff k).mp hk
  exact reach_mem hr (mem_txids_iff.mpr (by rw [hd]; rfl))

theorem closed {a b : Uint256} (hab : pool.view.Parent a b) (ha : a ∈ evicted) : b ∈ evicted := by
  obtain ⟨c,hco,hr⟩ := (hsafe.mem_iff a).mp ha
  exact (hsafe.mem_iff b).mpr ⟨c,hco,hr.tail hab⟩

theorem mem_of_conflicts {c : Uint256} (h : pool.view.Conflicts ws.tx c) : c ∈ evicted :=
  (hsafe.mem_iff c).mpr ⟨c,h,.refl⟩
theorem not_mem_of_spends {p : Uint256} (hp : p ∈ ws.tx.prevTxids) : p ∉ evicted := by
  intro he
  exact hsafe.disjoint p he ⟨p,⟨mem_txids_iff.mp (hsafe.evicted_mem he),hp⟩,.refl⟩

theorem removed_yields (hc : pool.Consistent env.memPool) :
    PoolYields (removeStaged env.memPool pool evicted false) (pool.Removes env.memPool evicted) :=
  removeStaged_yields hc hsafe.nodup (fun _ => hsafe.evicted_mem) (.inl fun _ _ => hsafe.closed)

theorem replaced (hn : ∀ k tx, next.txAt k = some tx →
      k ∉ evicted ∧ pool.txAt k = some tx ∨ k = env.txid ws.tx ∧ tx = ws.tx) :
    Replaced env ws.tx evicted next := by
  have htx : ∀ k data, next.view.data k = some data → next.txAt k = some data.tx := by
    intro k data hda
    rw [txAt_eq,hda]
    rfl
  have hold : ∀ k tx, pool.txAt k = some tx → ∃ data, pool.view.data k = some data ∧ data.tx = tx := by
    intro k tx hk
    rw [txAt_eq] at hk
    exact Option.map_eq_some_iff.mp hk
  constructor
  · intro k data hda hne prevout hprev hs
    rcases hn k data.tx (htx k data hda) with ⟨hke,hk⟩ | ⟨hk,_⟩
    · obtain ⟨data',hd,heq⟩ := hold k data.tx hk
      exact hke (hsafe.mem_of_conflicts ⟨data',hd,prevout,hs,heq ▸ hprev⟩)
    · exact hne hk
  · intro k data hda p hp hevic
    rcases hn k data.tx (htx k data hda) with ⟨hke,hk⟩ | ⟨_,hk⟩
    · obtain ⟨data',hd,heq⟩ := hold k data.tx hk
      have hpar : pool.view.Parent p k := ⟨mem_txids_iff.mp (hsafe.evicted_mem hevic),data',hd,heq ▸ hp⟩
      exact hke (hsafe.closed hpar hevic)
    · exact hsafe.not_mem_of_spends (hk ▸ hp) hevic

/-- The ancestors of the replacement are all left, with the paths between them. -/
theorem ancestorOf_removed (hrem : pool.Removes env.memPool evicted removed) (a : Uint256) :
    pool.view.AncestorOf ws.tx a ↔ removed.view.AncestorOf ws.tx a := by
  have hout := PoolView.outside_of_data hrem.data
  have hcl : Closed pool.view.Parent evicted.toFinset := by
    simp only [Closed,mem_toFinset]
    exact .inl fun _ _ => hsafe.closed
  constructor
  · rintro ⟨p,⟨hp,hsp⟩,hpa⟩
    have hpK : p ∉ evicted := hsafe.not_mem_of_spends hsp
    have haK : a ∉ evicted := fun ha => hsafe.disjoint a ha ⟨p,⟨hp,hsp⟩,hpa⟩
    refine ⟨p,⟨by rwa [hrem.data,if_neg hpK],hsp⟩,?_⟩
    exact (reach_outside_iff hcl hout (by simpa using haK) (by simpa using hpK)).mpr hpa
  · rintro ⟨p,⟨hp,hsp⟩,hpa⟩
    rw [hrem.data,if_neg (hsafe.not_mem_of_spends hsp)] at hp
    exact ⟨p,⟨hp,hsp⟩,ReflTransGen.mono (fun _ _ h => ((hout _ _).mp h).1) _ _ hpa⟩

theorem addable (hrem : pool.Removes env.memPool evicted removed)
    (hnew : env.txid ws.tx ∉ pool.mapTx) (hn : env.txid ws.tx ∉ ws.tx.prevTxids)
    (hl : ∀ k data, pool.view.data k = some data → env.txid ws.tx ∉ data.tx.prevTxids) :
    removed.view.Addable env.memPool ws.tx := by
  have hke : ∀ k data, removed.view.data k = some data → k ∉ evicted ∧ pool.view.data k = some data := by
    intro k data hd
    rw [hrem.data] at hd
    split at hd
    · cases hd
    · next hk => exact ⟨hk,hd⟩
  refine ⟨?new,?unspent,hn,fun k data hd => hl k data (hke k data hd).2⟩
  case new =>
    rw [mem_iff_data,Option.not_isSome_iff_eq_none] at hnew
    rw [hrem.data]
    split
    · rfl
    · exact hnew
  case unspent =>
    intro prevout hp
    by_contra hspent
    obtain ⟨tx,htx⟩ := Option.ne_none_iff_exists'.mp hspent
    obtain ⟨k,data,hd,rfl,hsp⟩ := (hrem.consistent.spender prevout tx).mp htx
    obtain ⟨hk,hd⟩ := hke k data hd
    exact hk (hsafe.mem_of_conflicts ⟨data,hd,prevout,hp,hsp⟩)
end SafeReplacement

theorem limitMempoolSize_keeps (now : Int) : Keeps pool (limitMempoolSize env now pool) id := by
  apply bind (expire_keeps _)
  intro expired hexpired
  apply bind (trimLoop_keeps _ _ _ _)
  intro trimmed htrimmed
  exact of_ok (hexpired.trans htrimmed)

variable {verdict : Option TxInvalid}
theorem finalize_eq_ok {now : Int} (h : finalize env pool args now ws evicted = .ok (next, verdict)) :
    ∃ removed added, removeStaged env.memPool pool evicted false = .ok removed ∧
      addUnchecked env.memPool removed ws.entry ws.ancestors = .ok added ∧ added.Within next := by
  obtain ⟨removed,hrem,h⟩ := bind_eq_ok.mp h
  obtain ⟨added,ha,h⟩ := bind_eq_ok.mp h
  refine ⟨removed,added,hrem,ha,?_⟩
  split at h
  · obtain ⟨limited,hl,h⟩ := bind_eq_ok.mp h
    have hk : Keeps added (limitMempoolSize env now added) id := limitMempoolSize_keeps now
    rw [hl] at hk
    split at h <;>
    · cases h
      exact hk
  · cases h
    exact .refl _

theorem finalize_replaced {now : Int} (hc : pool.Consistent env.memPool)
    (hsafe : SafeReplacement env pool ws evicted) (hent : ws.entry.tx = ws.tx)
    (h : finalize env pool args now ws evicted = .ok (next, verdict)) : Replaced env ws.tx evicted next := by
  obtain ⟨removed,added,hrem,ha,hw⟩ := finalize_eq_ok h
  have hr := hsafe.removed_yields hc
  rw [hrem] at hr
  apply hsafe.replaced
  intro k tx htx
  rcases addUnchecked_txAt ha (hw k tx htx) with hk | ⟨hk,heq⟩
  · rw [txAt_eq,hr.data] at hk
    split at hk
    · cases hk
    · next hke => exact .inl ⟨hke,by rw [txAt_eq,hk]⟩
  · rw [hent] at hk heq
    exact .inr ⟨hk,heq⟩

theorem limitMempoolSize_yields (hc : pool.Consistent env.memPool) (now : Int) :
    PoolYields (limitMempoolSize env now pool) (pool.Shrinks env.memPool) := by
  apply bind (expire_yields hc _)
  intro expired hexpired
  apply bind (trimLoop_yields _ _ _ hexpired.consistent _)
  intro trimmed htrimmed
  exact of_ok (hexpired.trans htrimmed)

theorem finalize_yields (args : ATMPArgs) (now : Int) (hc : pool.Consistent env.memPool)
    (hpre : Prechecked env pool ws.tx ws) (hsafe : SafeReplacement env pool ws evicted)
    (hn : env.txid ws.tx ∉ ws.tx.prevTxids)
    (hle : ∀ k data, pool.view.data k = some data → env.txid ws.tx ∉ data.tx.prevTxids) :
    PoolYields (finalize env pool args now ws evicted) fun result =>
      result.1.Consistent env.memPool ∧ (result.2 = none ↔ env.txid ws.tx ∈ result.1.mapTx) := by
  obtain ⟨nTime,sigOpCost,hent⟩ := hpre.entry
  have hnew : ws.entry.IsNew env.memPool := by
    rw [hent]
    exact CTxMemPoolEntry.new_isNew _ _ _ _ _
  have htx : ws.entry.tx = ws.tx := by rw [hent]; rfl
  apply bind (hsafe.removed_yields hc)
  intro removed hrem
  have hadd := hsafe.addable hrem hpre.new hn hle
  have hanc := hpre.mem_ancestors hc
  have hmem : ∀ a, a ∈ ws.ancestors ↔
      ∃ p, (p ∈ removed.txids ∧ p ∈ ws.entry.tx.prevTxids) ∧ ReflTransGen removed.view.Parent a p := by
    intro a
    rw [hanc.2,hsafe.ancestorOf_removed hrem,htx]
    simp [mem_txids_iff,PoolView.AncestorOf]
  apply bind (addUnchecked_yields hrem.consistent hnew (htx ▸ hadd) hanc.1 hmem)
  intro added ha
  obtain ⟨data,_,_,_,hd⟩ := ha.data
  have hs : added.view.data (env.memPool.getHash ws.entry.tx) = some data := by rw [hd,Function.update_self]
  rw [htx] at hs
  have hin : env.txid ws.tx ∈ added.mapTx := mem_iff_data.mpr (Option.isSome_iff_exists.mpr ⟨data,hs⟩)
  split
  · apply bind (limitMempoolSize_yields ha.consistent now)
    intro limited hl
    split
    · next hlf => exact of_ok ⟨hl.consistent,by simpa using hlf⟩
    · next hg => exact of_ok ⟨hl.consistent,by simpa using hg⟩
  · exact of_ok ⟨ha.consistent,by simpa using hin⟩
end Finalized
end Accept

open Accept
/-- A replacement evicts a bounded set that its fees pay for and that it does not depend on, and leaves no
double spend of its inputs and no orphan of the set. -/
theorem replacement_safe {env : AcceptEnv} {ctx : AcceptContext} {pool : CTxMemPool} {args : ATMPArgs}
    {limits limits' : MemPoolLimits} {tx : CTransaction} {ws : Workspace} {evicted : List Uint256}
    (hc : pool.Consistent env.memPool) (hpre : preChecks env ctx pool args limits tx = .ok (ws, limits'))
    (hreplace : replacementChecks env pool ws = .ok evicted) :
    ws.tx = tx ∧ SafeReplacement env pool ws evicted ∧
      (∀ now next verdict, finalize env pool args now ws evicted = .ok (next, verdict) →
        Replaced env tx evicted next) ∧
      (env.txid tx ∉ tx.prevTxids → (∀ k data, pool.view.data k = some data → env.txid tx ∉ data.tx.prevTxids) →
        ∀ now, PoolYields (finalize env pool args now ws evicted) fun result =>
          result.1.Consistent env.memPool ∧ (result.2 = none ↔ env.txid tx ∈ result.1.mapTx)) := by
  have hchk := preChecks_eq_ok hpre
  have hsafe := replacementChecks_safe hc hchk hreplace
  obtain rfl := hchk.isTx
  obtain ⟨nTime,sigOpCost,hent⟩ := hchk.entry
  have htx : ws.entry.tx = ws.tx := by rw [hent]; rfl
  refine ⟨rfl,hsafe,?_,?_⟩
  · intro now next verdict h
    exact finalize_replaced hc hsafe htx h
  · intro hnown hleaf now
    exact finalize_yields args now hc hchk hsafe hnown hleaf

/-! ## A replacement of two transactions -/

/-- A node that has no standardness rules and replaces any transaction. -/
def replaceEnv : AcceptEnv where
  toValidationEnv := sampleEnv
  nBytesPerSigOp := 20
  getWitnessHash := sampleEnv.txid
  standardReason _ := none
  areInputsStandard _ _ := true
  isWitnessStandard _ _ := true
  getFee rate size := rate.nRypsPerK * size / 1000
  requireStandard := false
  fullRbf := true
  minRelayFeerate := ⟨1000⟩
  incrementalRelayFeerate := ⟨1000⟩
  expiry := 1209600
  maxSizeBytes := 300000000
  trimPolicy := ⟨fun _ => 0, fun _ _ => false⟩

/-- A transaction with a given version, which is also its id, that spends the first output of another. -/
def versionTx (id : Int) (prev : Uint256) (nValue : Int) : CTransaction :=
  ⟨[⟨⟨prev, 0⟩, [], 0xfffffffd#32, []⟩], [⟨nValue, List.replicate 25 0⟩], id, 0⟩
def oneCoin : AcceptContext where
  chain := [⟨7, 100, 0, 1, 0, 0, 0, 0, 0⟩]
  coinsTip := { UtxoView.empty.insert ⟨9, 0⟩ ⟨⟨500000, []⟩, false, 1⟩ rfl with bestBlock := 7 }
  haveCoinInCache _ := false
  tempAdded _ := none
  minFee := ⟨0⟩

def addFamily : List PoolOp :=
  [.addUnchecked (versionTx 1 9 490000) 10000 0 4 defaultLimits,
    .addUnchecked (versionTx 3 1 485000) 5000 0 4 defaultLimits]

def familyPool : CTxMemPool := (CTxMemPool.run replaceEnv.memPool .empty addFamily).toOption.getD .empty
def singleAccept : ATMPArgs := ⟨0, false, true, false, false⟩
def replaceFamily : Except AcceptStop (Workspace × List Uint256) := do
  let (ws, _) ← preChecks replaceEnv oneCoin familyPool singleAccept defaultLimits
    (versionTx 2 9 400000)
  return (ws, ← replacementChecks replaceEnv familyPool ws)

theorem familyPool_consistent : familyPool.Consistent replaceEnv.memPool :=
  CTxMemPool.consistent_of_admitted (by decide +kernel)

theorem replaceFamily_evicts :
    ∃ ws limits', preChecks replaceEnv oneCoin familyPool singleAccept defaultLimits
        (versionTx 2 9 400000) = .ok (ws, limits') ∧
      replacementChecks replaceEnv familyPool ws = .ok [3, 1] := by
  have he : replaceFamily.toOption.map Prod.snd = some [3,1] := by decide +kernel
  obtain ⟨result,hrun,he⟩ := Option.map_eq_some_iff.mp he
  obtain ⟨⟨ws,limits'⟩,hpre,hrun⟩ := bind_eq_ok.mp (toOption_eq_some.mp hrun)
  obtain ⟨evicted,hr,hrun⟩ := bind_eq_ok.mp hrun
  cases hrun
  cases he
  exact ⟨ws,limits',hpre,hr⟩

theorem replaceFamily_safe :
    familyPool.Consistent replaceEnv.memPool ∧
      ∃ ws limits', preChecks replaceEnv oneCoin familyPool singleAccept defaultLimits
          (versionTx 2 9 400000) = .ok (ws, limits') ∧
        replacementChecks replaceEnv familyPool ws = .ok [3, 1] ∧
        SafeReplacement replaceEnv familyPool ws [3, 1] := by
  obtain ⟨ws,limits',hpre,hreplace⟩ := replaceFamily_evicts
  exact ⟨familyPool_consistent,ws,limits',hpre,hreplace,
    (replacement_safe familyPool_consistent hpre hreplace).2.1⟩
end Lcryp
