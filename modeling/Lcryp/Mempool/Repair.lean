import Lcryp.Mempool.Operations
import Lcryp.Mempool.Readded
import Lcryp.Mempool.Saturating

/-!
# Repairing the pool after a reorganisation

`UpdateTransactionsFromBlock` goes through the added transactions from the last to the first.
-/
namespace Lcryp
open Relation Lineage Search List PoolView Yields ReflTransGen Function CTxMemPool
/-! ## Sets in hash order -/

@[simp]
theorem mem_byHash {hashes : List Uint256} {k : Uint256} : k ∈ byHash hashes ↔ k ∈ hashes := mem_insertionSort _

/-! ## Links to the children that were there -/

variable {txids added done : Finset Uint256} {v : PoolView}
namespace PoolView
/-- A view in which the added transactions are not linked to the others. -/
structure Unlinked (env : MemPoolEnv) (v : PoolView) (txids added : Finset Uint256) : Prop where
  keyed : v.Keyed env txids
  linked : v.Linked env (Within v.Parent added) txids
  closed : ∀ a b, v.Parent a b → b ∈ added → a ∈ added
  mem : ∀ t ∈ added, t ∈ txids

/-- The edges that are linked when some of the added transactions are done. -/
def Shown (v : PoolView) (added done : Finset Uint256) (a b : Uint256) : Prop :=
  v.Parent a b ∧ (a ∈ added → b ∈ added ∨ a ∈ done)

/-- The added transactions that are done, with the added transactions that spend them. -/
def Ready (v : PoolView) (added done : Finset Uint256) : Prop :=
  ∀ a ∈ done, ∀ b ∈ added, v.Parent a b → b ∈ done

variable {env : MemPoolEnv}
theorem Unlinked.shown_empty (h : v.Unlinked env txids added) : v.Shown added ∅ = Within v.Parent added := by
  funext a b
  apply propext
  refine and_congr_right fun hab => ?_
  simp only [Finset.notMem_empty,or_false]
  exact ⟨fun hout => ⟨hout,h.closed a b hab⟩,Iff.mp⟩

theorem shown_all : v.Shown added added = v.Parent := by
  funext a b
  exact propext (and_iff_left .inr)

theorem Unlinked.reach_shown (h : v.Unlinked env txids added) (hready : v.Ready added done) {a z : Uint256}
    (ha : a ∈ added → a ∈ done) : ReflTransGen (v.Shown added done) a z ↔ ReflTransGen v.Parent a z := by
  constructor
  · exact fun hr => mono (fun _ _ hab => hab.1) _ _ hr
  · intro hr
    induction hr using head_induction_on with
    | refl => exact .refl
    | head hs _ ih =>
      refine (ih fun hb => ?_).head ⟨hs,fun hin => .inr (ha hin)⟩
      exact hready _ (ha (h.closed _ _ hs hb)) _ hb hs
end PoolView
variable {sums : DescendantSums} {included : List Uint256} {limits : MemPoolLimits} {state : ReorgState}
    {t : Uint256} {pool : CTxMemPool}

namespace CTxMemPool
variable {env : MemPoolEnv} {txids added : Finset Uint256}
theorem mem_spendersIn {hash : Uint256} {child : CTransaction} :
    child ∈ pool.spendersIn hash ↔ ∃ prevout, prevout.hash = hash ∧ pool.view.spender prevout = some child := by
  simp only [spendersIn,mem_map,mem_filter,decide_eq_true_eq]
  constructor
  · rintro ⟨⟨prevout,tx⟩,⟨hmem,hh⟩,rfl⟩
    exact ⟨prevout,hh,AList.mem_lookup_iff.mpr hmem⟩
  · rintro ⟨prevout,hh,hget⟩
    exact ⟨⟨prevout,child⟩,⟨AList.mem_lookup_iff.mp hget,hh⟩,rfl⟩

theorem spendersIn_parent (hk : v.Keyed env txids) (hspr : pool.view.spender = v.spender) (ht : t ∈ txids) (x : Uint256) :
    (∃ child ∈ pool.spendersIn t, env.getHash child = x) ↔ v.Parent t x := by
  simp only [mem_spendersIn,hspr,hk.spender,PoolView.Parent,CTransaction.prevTxids,mem_map]
  constructor
  · rintro ⟨child,⟨prevout,hh,k,data,hda,rfl,hp⟩,rfl⟩
    rw [hk.keyed k data hda]
    exact ⟨(hk.mem t).mp ht,data,hda,prevout,hp,hh⟩
  · rintro ⟨_,data,hda,prevout,hp,hh⟩
    exact ⟨data.tx,⟨prevout,hh,x,data,hda,rfl,hp⟩,hk.keyed x data hda⟩

/-- The view of a pool with some children linked to a transaction. -/
structure LinkedTo (pool : CTxMemPool) (t : Uint256) (linked : Uint256 → Prop) (next : CTxMemPool) : Prop where
  view : next.view = (pool.view.withChildren next.view.children).withParents next.view.parents
  children : ∀ k, (next.view.children k).Nodup ∧
    ∀ c, c ∈ next.view.children k ↔ c ∈ pool.view.children k ∨ k = t ∧ linked c
  parents : ∀ k, (next.view.parents k).Nodup ∧
    ∀ p, p ∈ next.view.parents k ↔ p ∈ pool.view.parents k ∨ p = t ∧ linked k

variable {linked : Uint256 → Prop} {next : CTxMemPool}
theorem LinkedTo.congr {linked' : Uint256 → Prop} (h : pool.LinkedTo t linked next)
    (heq : ∀ k, linked k ↔ linked' k) : pool.LinkedTo t linked' next := by
  have hl : linked = linked' := funext fun k => propext (heq k)
  exact hl ▸ h

theorem LinkedTo.link {child : Uint256}
    (h : pool.LinkedTo t linked next) (ht : t ∈ next.mapTx) (hc : child ∈ next.mapTx) :
    PoolYields (do
        let pool ← next.updateChild t child true
        pool.updateParent child t true)
      (pool.LinkedTo t fun k => linked k ∨ k = child) := by
  apply bind (updateChild_yields child true ht)
  intro first hfst
  have hmem : child ∈ first.mapTx := by
    rw [mem_iff_data,hfst]
    exact mem_iff_data.mp hc
  apply (updateParent_yields t true hmem).mono
  intro last hl
  rw [hfst] at hl
  constructor
  · rw [hl,h.view]
    rfl
  · intro k
    obtain ⟨hnd,hki⟩ := h.children k
    rw [hl]
    by_cases hk : k = t
    · simp [withParents,withChildren]
      grind
    · simp [withParents,withChildren,hk,hnd,hki]
  · intro k
    obtain ⟨hnd,hp⟩ := h.parents k
    rw [hl]
    by_cases hk : k = child
    · simp [withParents,withChildren]
      grind
    · simp [withParents,withChildren,hk,hnd,hp]

theorem LinkedTo.data (h : pool.LinkedTo t linked next) : next.view.data = pool.view.data := by
  rw [h.view]
  rfl

theorem linkSpenders_yields (hke : v.Keyed env txids)
    (hspr : pool.view.spender = v.spender) (hda : pool.view.data = v.data)
    (hki : ∀ k, (pool.view.children k).Nodup) (hp : ∀ k, (pool.view.parents k).Nodup) (ht : t ∈ txids) :
    PoolYields ((pool.spendersIn t).foldlM (linkSpender env included t) (pool, []))
      fun linked => pool.LinkedTo t (fun c => c ∉ included ∧ v.Parent t c) linked.1 := by
  have hmem : ∀ {next : CTxMemPool} {k : Uint256}, next.view.data = pool.view.data → k ∈ txids →
      k ∈ next.mapTx := by
    intro next k hn hk
    rw [mem_iff_data,hn,hda]
    exact (hke.mem k).mp hk
  have hlo : PoolYields ((pool.spendersIn t).foldlM (linkSpender env included t) (pool, []))
      fun linked => pool.LinkedTo t
        (fun c => c ∉ included ∧ ∃ child ∈ pool.spendersIn t, env.getHash child = c) linked.1 ∧
        ∀ c, c ∈ linked.2 ↔ ∃ child ∈ pool.spendersIn t, env.getHash child = c := by
    apply foldlM (I := fun done (linked : CTxMemPool × List Uint256) =>
      pool.LinkedTo t (fun c => c ∉ included ∧ ∃ child ∈ done, env.getHash child = c) linked.1 ∧
        ∀ c, c ∈ linked.2 ↔ ∃ child ∈ done, env.getHash child = c)
    · rintro done child rest ⟨next,visited⟩ hl ⟨hn,hvis⟩
      have hsp : v.Parent t (env.getHash child) := (spendersIn_parent hke hspr ht _).mp ⟨child,by simp [hl],rfl⟩
      have hc := hmem hn.data (hke.inside hsp).2
      have hv : ∀ c, c ∈ visited.insert (env.getHash child) ↔
          ∃ child' ∈ done++[child], env.getHash child' = c := by
        grind
      apply Yields.bind (Yields.require hc)
      intro _ _
      split
      next hs =>
        refine of_ok ⟨hn.congr fun c => ?_,hv⟩
        grind
      next hnew =>
        rw [← bind_assoc]
        apply bind (hn.link (hmem hn.data ht) hc)
        intro last hla
        refine of_ok ⟨hla.congr fun c => ?_,hv⟩
        grind
    · refine ⟨⟨rfl,fun k => ⟨hki k,?_⟩,fun k => ⟨hp k,?_⟩⟩,by simp⟩
      · simp
      · simp
  apply hlo.mono
  rintro linked ⟨hli,_⟩
  exact hli.congr fun c => and_congr_right fun _ => spendersIn_parent hke hspr ht c

/-! ## The descendants of an added transaction -/

/-- A cache of the transactions below those that are done which were there before. -/
def CacheExact (v : PoolView) (added done : Finset Uint256) (cache : CacheMap) : Prop :=
  ∀ x found, cache.lookup x = some found → x ∈ done ∧ ∀ z, z ∈ found ↔ z ∉ added ∧ ReflTransGen v.Parent x z

theorem descendantsOf_spec (h : v.Unlinked env pool.txids added) {done : Finset Uint256}
    (hready : v.Ready added done)
    (hk : ∀ k, (pool.view.children k).Nodup ∧ ∀ c, c ∈ pool.view.children k ↔ v.Shown added done k c)
    {cache : CacheMap} (hca : CacheExact v added done cache) (ht : t ∈ added) (hdo : t ∈ done) :
    (descendantsOf pool cache t).Nodup ∧ (∀ x ∈ descendantsOf pool cache t, x ∈ pool.txids) ∧
      ∀ z, z ∉ added → (z ∈ descendantsOf pool cache t ↔ ReflTransGen v.Parent t z) := by
  have hr : Reach pool.childrenOf = ReflTransGen (v.Shown added done) := by
    unfold Reach
    congr 1
    funext a b
    exact propext ((hk a).2 b)
  have hmem : ∀ a b, b ∈ pool.childrenOf a → b ∈ pool.txids :=
    fun a b hb => (h.keyed.inside (((hk a).2 b).mp hb).1).2
  have han : Answers pool.childrenOf (· ∉ added) cache.lookup := by
    refine ⟨fun a b ha hb hin => ha (h.closed a b (((hk a).2 b).mp hb).1 hin),?_⟩
    intro x found hfound z
    obtain ⟨hx,hz⟩ := hca x found hfound
    rw [hr,h.reach_shown hready fun _ => hx]
    exact hz z
  have hsr : CachedSearching pool.childrenOf (· ∉ added) pool.txids ∅ [] (pool.childrenOf t) := by
    refine ⟨nodup_nil,(hk t).1,nofun,?_,hmem t,nofun⟩
    exact fun a _ => Finset.notMem_empty a
  have hf : (pool.txids.filter (· ∉ (∅ : Finset Uint256))).card ≤ pool.mapTx.keys.length :=
    (Finset.card_filter_le _ _).trans (toFinset_card_le _)
  obtain ⟨hnd,hs,hco⟩ := exploreCached_spec han (fun a _ => hmem a) _ hsr hf
  simp only [descendantsOf,mem_byHash]
  refine ⟨(perm_insertionSort _ _).nodup_iff.mpr hnd,fun x hx => ?_,fun z hz => ?_⟩
  · rcases hs x hx with hx | ⟨a,ha,hp⟩
    · cases hx
    · rcases cases_tail hp with rfl | ⟨b,_,hst⟩
      · exact hmem t x ha
      · exact hmem b x hst
  · have hc : ∀ a, a ∈ pool.childrenOf t ↔ v.Shown added done t a := (hk t).2
    rw [← h.reach_shown hready fun _ => hdo]
    constructor
    · intro hin
      rcases hs z hin with hz | ⟨a,ha,hp⟩
      · cases hz
      · rw [hr] at hp
        exact hp.head ((hc a).mp ha)
    · intro hp
      rcases cases_head hp with rfl | ⟨a,hst,hp⟩
      · exact absurd ht hz
      · refine hco z hz ⟨a,.inr ((hc a).mpr hst),?_⟩
        rwa [hr]

/-! ## The totals of the descendants -/

def Exceeds (limits : MemPoolLimits) (state : AncestorState) : Prop :=
  (limits.ancestorCount : Int) < state.1 ∨ (limits.ancestorSize : Int) < state.2.1
theorem deref_shows {it : Uint256} (h : it ∈ pool.mapTx) : PoolYields (pool.deref it) (pool.view.Shows it) := by
  obtain ⟨entry,hget⟩ := exists_lookup h
  apply (deref_yields hget).mono
  rintro _ rfl
  exact shows_of_lookup hget

/-- What an iteration leaves for a descendant that was there before. -/
structure Updates (env : MemPoolEnv) (limits : MemPoolLimits) (t : Uint256) (change : AncestorState)
    (sums : DescendantSums) (d : Uint256) (next : DescendantSums) : Prop where
  view : next.state.pool.view = sums.state.pool.view.withAncestorState
    (update sums.state.pool.view.ancestorState d (sums.state.pool.view.ancestorState d + change))
  cached : next.state.cachedDescendants = cacheDescendant sums.state.cachedDescendants t d
  toRemove : ∀ k, k ∈ next.state.descendantsToRemove ↔ k ∈ sums.state.descendantsToRemove ∨
    k = d ∧ Exceeds limits (sums.state.pool.view.ancestorState d + change)
  sums : (next.modifyCount, next.modifySize, next.modifyFee) =
    (sums.modifyCount, sums.modifySize, sums.modifyFee) + sums.state.pool.view.forAncestors env d

variable {update : CTxMemPoolEntry}
theorem updateDescendant_yields {setExclude : List Uint256} {d : Uint256} {data : EntryData}
    (hda : sums.state.pool.view.data d = some data) (hkey : env.getHash data.tx = d) (hout : d ∉ setExclude)
    (hstate : AncestorsNonneg (sums.state.pool.view.ancestorState d)) :
    PoolYields (updateDescendant env limits setExclude t update sums d)
      (Updates env limits t (update.data.forDescendants env) sums d) := by
  have hd := mem_iff_data.mpr (Option.isSome_of_eq_some hda)
  have hpos := forDescendants_add_pos env update.data hstate
  rw [add_comm] at hpos
  apply bind (deref_shows hd)
  intro entry hent
  cases Option.some.inj (hda.symm.trans hent.data)
  have hh : env.getHash entry.tx = d := hkey
  rw [if_neg (by rwa [hh])]
  apply bind (plain_yields _)
  rintro _ rfl
  apply bind (modify_ancestorState_yields (update.data.forDescendants env) hd hpos)
  intro next hn
  have hmem : d ∈ next.mapTx := by
    rw [mem_iff_data,hn]
    exact mem_iff_data.mp hd
  apply bind (deref_shows hmem)
  intro updated hupd
  have hanc : updated.ancestorState =
      sums.state.pool.view.ancestorState d + update.data.forDescendants env := by
    rw [← hupd.ancestorState,hn]
    exact update_self _ _ _
  have he : exceedsAncestors limits updated = true ↔
      Exceeds limits (sums.state.pool.view.ancestorState d + update.data.forDescendants env) := by
    simp [← hanc,exceedsAncestors,Exceeds,CTxMemPoolEntry.ancestorState]
  refine ⟨hn,rfl,fun k => ?_,?_⟩
  · by_cases hrem : exceedsAncestors limits updated = true
    · simp [hrem,he.mp hrem,hh,or_comm]
    · simp [hrem,mt he.mpr hrem]
  · rw [forAncestors_of_data hent.data]
    rfl

/-- What the loop leaves when some descendants that were there before are done. -/
structure UpdatesAll (env : MemPoolEnv) (limits : MemPoolLimits) (t : Uint256) (change : AncestorState)
    (state : ReorgState) (done : List Uint256) (next : DescendantSums) : Prop where
  view : next.state.pool.view = state.pool.view.withAncestorState fun k =>
    if k ∈ done then state.pool.view.ancestorState k + change else state.pool.view.ancestorState k
  cached_other : ∀ k, k ≠ t →
    next.state.cachedDescendants.lookup k = state.cachedDescendants.lookup k
  cached_own : ∀ z, z ∈ (next.state.cachedDescendants.lookup t).getD [] ↔
    z ∈ (state.cachedDescendants.lookup t).getD [] ∨ z ∈ done
  toRemove : ∀ k, k ∈ next.state.descendantsToRemove ↔ k ∈ state.descendantsToRemove ∨
    k ∈ done ∧ Exceeds limits (state.pool.view.ancestorState k + change)
  sums : (next.modifyCount, next.modifySize, next.modifyFee) = (done.map (state.pool.view.forAncestors env)).sum

theorem UpdatesAll.step {d : Uint256} {change : AncestorState} {done : List Uint256}
    {sums next : DescendantSums} (h : UpdatesAll env limits t change state done sums) (hd : d ∉ done)
    (hn : Updates env limits t change sums d next) : UpdatesAll env limits t change state (done++[d]) next := by
  have hstate : sums.state.pool.view.ancestorState d = state.pool.view.ancestorState d := by
    rw [h.view]
    exact if_neg hd
  constructor
  · rw [hn.view,hstate,h.view]
    simp only [withAncestorState]
    congr 1
    funext k
    by_cases hk : k = d
    · simp [hk]
    · simp [hk]
  · intro k hk
    rw [hn.cached,cacheDescendant,AList.lookup_insert_ne hk,h.cached_other k hk]
  · intro z
    rw [hn.cached,cacheDescendant,AList.lookup_insert,Option.getD_some,mem_insert_iff,
      h.cached_own,mem_append,mem_singleton]
    tauto
  · intro k
    rw [hn.toRemove,h.toRemove,hstate,mem_append,mem_singleton]
    by_cases hk : k = d
    · subst hk
      tauto
    · tauto
  · have hw : sums.state.pool.view.forAncestors env d = state.pool.view.forAncestors env d := by
      rw [h.view]
      rfl
    rw [hn.sums,h.sums,hw,map_append,sum_append,map_singleton,sum_singleton]

theorem updateDescendants_yields {l : List Uint256} (hnd : l.Nodup)
    (hl : ∀ d ∈ l, ∃ data, state.pool.view.data d = some data ∧ env.getHash data.tx = d)
    (hstate : ∀ d ∈ l, AncestorsNonneg (state.pool.view.ancestorState d)) :
    PoolYields (l.foldlM (updateDescendant env limits included t update) ⟨state, 0, 0, 0⟩)
      (UpdatesAll env limits t (update.data.forDescendants env) state
        (l.filter (· ∉ included))) := by
  apply foldlM_nodup (I := fun done sums =>
    UpdatesAll env limits t (update.data.forDescendants env) state (done.filter (· ∉ included)) sums)
    hnd
  · intro done d sums hd hdone h
    have hin : d ∈ l := hdone d (by simp)
    obtain ⟨data,hdt,hkey⟩ := hl d hin
    have hda : sums.state.pool.view.data d = some data := by
      rw [h.view,← hdt]
      rfl
    by_cases hout : d ∈ included
    · have hmem := mem_iff_data.mpr (Option.isSome_of_eq_some hda)
      apply bind (deref_shows hmem)
      intro entry hent
      cases Option.some.inj (hda.symm.trans hent.data)
      have hh : env.getHash entry.tx = d := hkey
      rw [if_pos (by rwa [hh])]
      apply of_ok
      simpa [hout] using h
    · have hnew : d ∉ done.filter (· ∉ included) := fun hmem => hd (mem_filter.mp hmem).1
      have hs : sums.state.pool.view.ancestorState d = state.pool.view.ancestorState d := by
        rw [h.view]
        exact if_neg hnew
      apply (updateDescendant_yields hda hkey hout (hs ▸ hstate d hin)).mono
      intro next hn
      simpa [hout] using h.step hnew hn
  · constructor <;> simp [withAncestorState]
end CTxMemPool

/-! ## One transaction after the other -/

section Repair
open Classical
variable {found : List Uint256}
namespace PoolView
variable (env : MemPoolEnv)
noncomputable def ancestorsWith (v : PoolView) (added done : Finset Uint256) (k : Uint256) : AncestorState :=
  v.ancestorState k + ∑ t ∈ done with k ∉ added ∧ ReflTransGen v.Parent t k, v.forDescendants env t

/-- The totals over descendants, with those that were there before for the transactions that are done. -/
noncomputable def descendantsWith (v : PoolView) (txids added done : Finset Uint256)
    (k : Uint256) : DescendantState :=
  v.descendantState k + ∑ c ∈ txids with k ∈ done ∧ c ∉ added ∧ ReflTransGen v.Parent k c, v.forAncestors env c

variable {env : MemPoolEnv}
theorem ancestorsWith_insert (ht : t ∉ done) (k : Uint256) :
    v.ancestorsWith env added (insert t done) k = v.ancestorsWith env added done k +
      if k ∉ added ∧ ReflTransGen v.Parent t k then v.forDescendants env t else 0 := by
  rw [ancestorsWith,ancestorsWith,Finset.sum_filter,Finset.sum_filter,Finset.sum_insert ht]
  abel

variable {k : Uint256}
theorem descendantsWith_new (ht : t ∉ done) :
    v.descendantsWith env txids added done t = v.descendantState t := by
  simp [descendantsWith,ht]

theorem ancestorsWith_nonneg (h : v.Unlinked env txids added) (hk : k ∈ txids) :
    AncestorsNonneg (v.ancestorsWith env added done k) := by
  obtain ⟨hcnt,hsi,hsig⟩ := h.linked.ancestorState_pos h.keyed hk
  obtain ⟨hc,hs,hsg⟩ := sum_forDescendants_nonneg env v
    (done.filter fun t => k ∉ added ∧ ReflTransGen v.Parent t k)
  exact ⟨add_nonneg hcnt.le hc,add_nonneg hsi.le hs,add_nonneg hsig hsg⟩

theorem shown_insert (ht : t ∈ added) (a b : Uint256) :
    v.Shown added (insert t done) a b ↔ v.Shown added done a b ∨ a = t ∧ b ∉ added ∧ v.Parent t b := by
  unfold Shown
  by_cases ha : a = t
  · subst ha
    by_cases hb : b ∈ added
    · simp [hb]
    · simp only [Finset.mem_insert_self]
      tauto
  · simp [ha]
variable (h : v.Unlinked env txids added)
include h

theorem Unlinked.mem_of_reach (ht : t ∈ added) {z : Uint256} (hr : ReflTransGen v.Parent t z) : z ∈ txids :=
  Lineage.mem_of_reach (fun _ _ hstep _ => (h.keyed.inside hstep).2) hr (h.mem _ ht)

theorem Unlinked.descendantsWith_done (ht : t ∈ added) (hnd : found.Nodup)
    (hf : ∀ z, z ∈ found ↔ z ∉ added ∧ ReflTransGen v.Parent t z) :
    v.descendantsWith env txids added (insert t done) t =
      v.descendantState t + (found.map (v.forAncestors env)).sum := by
  have hset : txids.filter (fun c => t ∈ insert t done ∧ c ∉ added ∧ ReflTransGen v.Parent t c) =
      found.toFinset := by
    ext c
    simp only [Finset.mem_filter,Finset.mem_insert_self,true_and,mem_toFinset,hf]
    exact and_iff_right_of_imp fun hc => h.mem_of_reach ht hc.2
  rw [descendantsWith,hset,sum_toFinset _ hnd]

theorem Unlinked.mem_of_reach_added {x y : Uint256}
    (hr : ReflTransGen v.Parent x y) (hy : y ∈ added) : x ∈ added :=
  Lineage.mem_of_reach (fun a b hab => h.closed b a hab) (reflTransGen_swap.mpr hr) hy

theorem Unlinked.ancestorsWith_all (hk : k ∈ txids) :
    v.ancestorsWith env added added k = total (swap v.Parent) txids (v.forDescendants env) k := by
  have hc : Closed v.Parent added := .inr h.closed
  rw [hc.swap.total_eq,within_swap,← h.linked.ancestorState k hk,ancestorsWith]
  congr 1
  apply Finset.sum_congr _ fun _ _ => rfl
  ext y
  simp only [Finset.mem_filter,reflTransGen_swap]
  constructor
  · rintro ⟨hy,hout,hr⟩
    exact ⟨h.mem y hy,fun hs => hout (hs.mpr hy),hr⟩
  · rintro ⟨_,hs,hr⟩
    have hb := h.mem_of_reach_added hr
    tauto

theorem Unlinked.descendantsWith_all (hk : k ∈ txids) :
    v.descendantsWith env txids added added k = total v.Parent txids (v.forAncestors env) k := by
  have hc : Closed v.Parent added := .inr h.closed
  rw [hc.total_eq,← h.linked.descendantState k hk,descendantsWith]
  congr 1
  apply Finset.sum_congr _ fun _ _ => rfl
  ext y
  simp only [Finset.mem_filter]
  have hb := fun hr => h.mem_of_reach_added (x := k) (y := y) hr
  tauto
end PoolView

namespace CTxMemPool
variable {env : MemPoolEnv}
/-- A pool in which the added transactions that are done are linked to what was there before and in the
totals. -/
structure Repairing (env : MemPoolEnv) (limits : MemPoolLimits) (v : PoolView)
    (txids added done : Finset Uint256) (state : ReorgState) : Prop where
  data : state.pool.view.data = v.data
  spender : state.pool.view.spender = v.spender
  totals : state.pool.totalTxSize = v.totalTxSize ∧ state.pool.totalFee = v.totalFee
  parents : ∀ k, (state.pool.view.parents k).Nodup ∧ ∀ p, p ∈ state.pool.view.parents k ↔ v.Shown added done p k
  children : ∀ k, (state.pool.view.children k).Nodup ∧
    ∀ c, c ∈ state.pool.view.children k ↔ v.Shown added done k c
  ancestorState : state.pool.view.ancestorState = v.ancestorsWith env added done
  descendantState : state.pool.view.descendantState = v.descendantsWith env txids added done
  cached : CacheExact v added done state.cachedDescendants
  toRemove : ∀ d, d ∈ state.descendantsToRemove ↔
    (d ∉ added ∧ ∃ t ∈ done, ReflTransGen v.Parent t d) ∧ Exceeds limits (state.pool.view.ancestorState d)

theorem txids_eq_of_keyed (hk : v.Keyed env txids) (hda : pool.view.data = v.data) : pool.txids = txids := by
  ext k
  rw [mem_txids_iff,hda,hk.mem]

theorem Repairing.start (h : pool.view.Unlinked env txids added) :
    Repairing env limits pool.view txids added ∅ ⟨pool, ∅, []⟩ := by
  have hs := h.shown_empty
  refine ⟨rfl,rfl,⟨rfl,rfl⟩,?_,?_,?_,?_,?_,?_⟩
  · rw [hs]
    exact h.linked.parents
  · rw [hs]
    exact h.linked.children
  · funext k
    simp [ancestorsWith]
  · funext k
    simp [descendantsWith]
  · intro x found hf
    simp at hf
  · simp

theorem Exceeds.add {state : AncestorState} (h : Exceeds limits state) (k : Uint256) :
    Exceeds limits (state + v.forDescendants env k) := by
  have hnn := sum_forDescendants_nonneg env v {k}
  rw [Finset.sum_singleton] at hnn
  unfold AncestorsNonneg at hnn
  unfold Exceeds at h ⊢
  simp only [Prod.fst_add,Prod.snd_add]
  omega

structure Round (env : MemPoolEnv) (limits : MemPoolLimits) (v : PoolView) (added : Finset Uint256)
    (state : ReorgState) (t : Uint256) (linked : CTxMemPool) (found : List Uint256)
    (sums : DescendantSums) (next : CTxMemPool) : Prop where
  links : state.pool.LinkedTo t (fun c => c ∉ added ∧ v.Parent t c) linked
  nodup : found.Nodup
  mem_found : ∀ z, z ∈ found ↔ z ∉ added ∧ ReflTransGen v.Parent t z
  updates : UpdatesAll env limits t (v.forDescendants env t) { state with pool := linked } found sums
  final : next.view = sums.state.pool.view.withDescendantState
    (update sums.state.pool.view.descendantState t
      (sums.state.pool.view.descendantState t + (sums.modifyCount, sums.modifySize, sums.modifyFee)))
namespace Round
variable {linked next : CTxMemPool} (h : Round env limits v added state t linked found sums next)
include h

theorem view_eq :
    next.view = (((state.pool.view.withChildren linked.view.children).withParents
      linked.view.parents).withAncestorState next.view.ancestorState).withDescendantState
        next.view.descendantState := by
  rw [h.final,h.updates.view]
  exact congrArg (fun w : PoolView => (w.withAncestorState _).withDescendantState _) h.links.view

theorem ancestorState_eq (k : Uint256) :
    next.view.ancestorState k =
      if k ∈ found then state.pool.view.ancestorState k + v.forDescendants env t
      else state.pool.view.ancestorState k := by
  have hold : linked.view.ancestorState = state.pool.view.ancestorState := by
    rw [h.links.view]
    rfl
  rw [← hold,h.final,h.updates.view]
  rfl

theorem ancestorState_with (hnew : t ∉ done)
    (hstate : state.pool.view.ancestorState = v.ancestorsWith env added done) :
    next.view.ancestorState = v.ancestorsWith env added (insert t done) := by
  funext k
  rw [h.ancestorState_eq,hstate,ancestorsWith_insert hnew]
  simp only [h.mem_found]
  split
  · rfl
  · rw [add_zero]

theorem descendantState_with (hv : v.Unlinked env txids added) (ht : t ∈ added) (hnew : t ∉ done)
    (hda : state.pool.view.data = v.data)
    (hstate : state.pool.view.descendantState = v.descendantsWith env txids added done) :
    next.view.descendantState = v.descendantsWith env txids added (insert t done) := by
  have hold : sums.state.pool.view.descendantState = v.descendantsWith env txids added done := by
    have hl : linked.view.descendantState = state.pool.view.descendantState := by
      rw [h.links.view]
      rfl
    rw [h.updates.view,← hstate,← hl]
    rfl
  have hwts : linked.view.forAncestors env = v.forAncestors env := by
    funext c
    rw [forAncestors,h.links.data,hda]
    rfl
  funext k
  rw [h.final,hold,h.updates.sums,hwts]
  by_cases hk : k = t
  · subst hk
    rw [hv.descendantsWith_done ht h.nodup h.mem_found,descendantsWith_new hnew]
    exact update_self _ _ _
  · refine (update_of_ne hk _ _).trans ?_
    simp [descendantsWith,hk]

theorem cached (hnew : t ∉ done) (hstate : CacheExact v added done state.cachedDescendants) :
    CacheExact v added (insert t done) sums.state.cachedDescendants := by
  intro x cached hcach
  by_cases hx : x = t
  · subst hx
    have hn : state.cachedDescendants.lookup x = none := by
      rw [Option.eq_none_iff_forall_ne_some]
      exact fun old hold => hnew (hstate x old hold).1
    refine ⟨Finset.mem_insert_self _ _,fun z => ?_⟩
    have hown := h.updates.cached_own z
    rw [hcach,hn] at hown
    rw [← h.mem_found]
    simpa using hown
  · have he := hstate x cached ((h.updates.cached_other x hx).symm.trans hcach)
    exact ⟨Finset.mem_insert_of_mem he.1,he.2⟩

theorem toRemove (hstate : ∀ d, d ∈ state.descendantsToRemove ↔
      (d ∉ added ∧ ∃ t ∈ done, ReflTransGen v.Parent t d) ∧
        Exceeds limits (state.pool.view.ancestorState d)) (d : Uint256) :
    d ∈ sums.state.descendantsToRemove ↔
      (d ∉ added ∧ ∃ x ∈ insert t done, ReflTransGen v.Parent x d) ∧
        Exceeds limits (next.view.ancestorState d) := by
  have hold : linked.view.ancestorState d = state.pool.view.ancestorState d := by
    rw [h.links.view]
    rfl
  rw [h.updates.toRemove,hstate,h.ancestorState_eq,hold]
  simp only [Finset.exists_mem_insert]
  by_cases hd : d ∈ found
  · obtain ⟨hout,hbel⟩ := (h.mem_found d).mp hd
    simp only [hd,true_and,hout,hbel,not_false_eq_true,true_or]
    exact ⟨fun he => he.elim (fun he => he.2.add t) id,.inr⟩
  · have hbel := mt (h.mem_found d).mpr hd
    simp only [hd,false_and,or_false]
    tauto
end Round

variable {linked : CTxMemPool}
theorem Repairing.step (h : v.Unlinked env txids added) (ht : t ∈ added) (hnew : t ∉ done)
    (hstate : Repairing env limits v txids added done state) {next : CTxMemPool}
    (hr : Round env limits v added state t linked found sums next) :
    Repairing env limits v txids added (insert t done) { sums.state with pool := next } := by
  have hv := hr.view_eq
  constructor
  · rw [hv,← hstate.data]
    rfl
  · rw [hv,← hstate.spender]
    rfl
  · rw [← hstate.totals.1,← hstate.totals.2]
    exact ⟨congrArg PoolView.totalTxSize hv,congrArg PoolView.totalFee hv⟩
  · intro k
    have hp : next.view.parents = linked.view.parents := by
      rw [hv]
      rfl
    obtain ⟨hnd,hmem⟩ := hr.links.parents k
    rw [hp]
    refine ⟨hnd,fun p => ?_⟩
    rw [hmem,(hstate.parents k).2,shown_insert ht]
  · intro k
    have hk : next.view.children = linked.view.children := by
      rw [hv]
      rfl
    obtain ⟨hnd,hmem⟩ := hr.links.children k
    rw [hk]
    refine ⟨hnd,fun c => ?_⟩
    rw [hmem,(hstate.children k).2,shown_insert ht]
  · exact hr.ancestorState_with hnew hstate.ancestorState
  · exact hr.descendantState_with h ht hnew hstate.data hstate.descendantState
  · exact hr.cached hnew hstate.cached
  · exact hr.toRemove hstate.toRemove

theorem Repairing.mem_pool (hstate : Repairing env limits v txids added done state)
    (h : v.Unlinked env txids added)
    (hda : linked.view.data = state.pool.view.data) (ht : t ∈ added) : t ∈ linked.mapTx := by
  rw [← mem_txids,txids_eq_of_keyed h.keyed (hda.trans hstate.data)]
  exact h.mem t ht
section Iteration
variable (h : v.Unlinked env txids added) (hincluded : ∀ k, k ∈ included ↔ k ∈ added) (ht : t ∈ added)
    (hnew : t ∉ done) (hready : v.Ready added (insert t done))
    (hstate : Repairing env limits v txids added done state)
include h hincluded ht hnew hready hstate

theorem updateForDescendants_yields (hl : state.pool.LinkedTo t (fun c => c ∉ added ∧ v.Parent t c) linked) :
    PoolYields (updateForDescendants env limits included { state with pool := linked } t)
      (Repairing env limits v txids added (insert t done)) := by
  have hda : linked.view.data = v.data := hl.data.trans hstate.data
  have htx := txids_eq_of_keyed h.keyed hda
  have hk : ∀ k, (linked.view.children k).Nodup ∧
      ∀ c, c ∈ linked.view.children k ↔ v.Shown added (insert t done) k c := by
    intro k
    obtain ⟨hnd,hmem⟩ := hl.children k
    refine ⟨hnd,fun c => ?_⟩
    rw [hmem,(hstate.children k).2,shown_insert ht]
  have hc : CacheExact v added (insert t done) state.cachedDescendants := by
    intro x found hf
    obtain ⟨hx,hz⟩ := hstate.cached x found hf
    exact ⟨Finset.mem_insert_of_mem hx,hz⟩
  obtain ⟨hnd,hin,hf⟩ := descendantsOf_spec (htx ▸ h) hready hk hc ht (Finset.mem_insert_self t done)
  have he : ∀ d ∈ descendantsOf linked state.cachedDescendants t,
      ∃ data, linked.view.data d = some data ∧ env.getHash data.tx = d := by
    intro d hd
    obtain ⟨data,hd⟩ := Option.isSome_iff_exists.mp (mem_txids_iff.mp (hin d hd))
    exact ⟨data,hd,h.keyed.keyed d data (hda ▸ hd)⟩
  have hs : ∀ d ∈ descendantsOf linked state.cachedDescendants t,
      AncestorsNonneg (linked.view.ancestorState d) := by
    intro d hd
    have hold : linked.view.ancestorState = v.ancestorsWith env added done := by
      rw [hl.view,← hstate.ancestorState]
      rfl
    rw [hold]
    exact ancestorsWith_nonneg h (htx ▸ hin d hd)
  apply bind (deref_shows (hstate.mem_pool h hl.data ht))
  intro update hupd
  apply Yields.bind (updateDescendants_yields hnd he hs)
  intro sums hsu
  rw [← forDescendants_of_data (hda ▸ hupd.data)] at hsu
  have hr : ∀ next, next.view = sums.state.pool.view.withDescendantState
      (Function.update sums.state.pool.view.descendantState t
        (sums.state.pool.view.descendantState t + (sums.modifyCount, sums.modifySize, sums.modifyFee))) →
      Repairing env limits v txids added (insert t done) { sums.state with pool := next } := by
    intro next hn
    refine hstate.step h ht hnew ⟨hl,hnd.filter _,fun z => ?_,hsu,hn⟩
    rw [mem_filter,decide_eq_true_eq,hincluded,and_comm]
    exact and_congr_right fun hz => hf z hz
  have hown : sums.state.pool.view.descendantState t = v.descendantState t := by
    have hold : v.descendantsWith env txids added done t = v.descendantState t := descendantsWith_new hnew
    rw [← hold,← hstate.descendantState,hsu.view]
    exact congrFun (congrArg descendantState hl.view) t
  have hpos := h.linked.descendantState_pos h.keyed (h.mem t ht)
  have hsum := sum_forAncestors_nonneg env linked.view
    ((descendantsOf linked state.cachedDescendants t).filter (· ∉ included)).toFinset
  rw [sum_toFinset _ (hnd.filter _),← hsu.sums] at hsum
  rw [← hown] at hpos
  have hmem : t ∈ sums.state.pool.mapTx := by
    refine hstate.mem_pool h ?_ ht
    rw [hsu.view]
    exact hl.data
  apply bind (modify_descendantState_yields (sums.modifyCount, sums.modifySize, sums.modifyFee) hmem
    ⟨add_pos_of_pos_of_nonneg hpos.1 hsum.1,add_pos_of_pos_of_nonneg hpos.2 hsum.2⟩)
  exact fun next hn => of_ok (hr next hn)

theorem updateTransactionFromBlock_yields :
    PoolYields (updateTransactionFromBlock env limits included state t)
      (Repairing env limits v txids added (insert t done)) := by
  rw [updateTransactionFromBlock,if_pos (hstate.mem_pool h rfl ht)]
  apply bind (linkSpenders_yields h.keyed hstate.spender hstate.data
    (fun k => (hstate.children k).1) (fun k => (hstate.parents k).1) (h.mem t ht))
  rintro ⟨linked,visited⟩ hl
  simp only [hincluded] at hl
  exact updateForDescendants_yields h hincluded ht hnew hready hstate hl
end Iteration

/-! ## All transactions -/
variable {pool next : CTxMemPool} {entries : List CTxMemPoolEntry}
section Updating
variable (h : pool.Readded env entries next) (hd : Disconnected env pool entries)
include h hd

theorem Readded.unlinked : next.view.Unlinked env next.txids (idsOf env entries).toFinset := by
  refine ⟨h.keyed,h.linked,fun a b hab hb => ?_,fun t ht => ?_⟩
  · rw [mem_toFinset] at hb ⊢
    exact h.parent_mem hd hab hb
  · obtain ⟨_,_,_,data,hda,_⟩ := h.data_of_mem (mem_toFinset.mp ht)
    rw [mem_txids_iff,hda]
    rfl

theorem Readded.ready {front back : List Uint256} (hids : idsOf env entries = front++back) :
    next.view.Ready (idsOf env entries).toFinset back.toFinset := by
  intro a ha b hb hab
  rw [mem_toFinset] at ha hb ⊢
  rw [hids,mem_append] at hb
  refine hb.resolve_left fun hf => ?_
  obtain ⟨firsts,lasts,rfl,rfl,rfl⟩ := map_eq_append_iff.mp hids
  obtain ⟨first,hfst,rfl⟩ := mem_map.mp hf
  obtain ⟨last,hl,rfl⟩ := mem_map.mp ha
  obtain ⟨data,hdt,htx⟩ := h.added first (mem_append_left _ hfst)
  obtain ⟨_,data',hda,hsp⟩ := hab
  cases hdt.symm.trans hda
  exact (pairwise_append.mp hd.parentsFirst).2.2 first hfst last hl (htx ▸ hsp)

theorem updateAll_yields :
    PoolYields ((idsOf env entries).reverse.foldlM
        (updateTransactionFromBlock env limits (idsOf env entries)) ⟨next, ∅, []⟩)
      (Repairing env limits next.view next.txids (idsOf env entries).toFinset
        (idsOf env entries).reverse.toFinset) := by
  apply foldlM (I := fun done state =>
    Repairing env limits next.view next.txids (idsOf env entries).toFinset done.toFinset state)
  · intro done t rest state hl hstate
    have hids : idsOf env entries = rest.reverse++t::done.reverse := by
      rw [← reverse_reverse (idsOf env entries),hl]
      simp
    have hi : (done++[t]).toFinset = insert t done.toFinset := by simp
    have hla : (t::done.reverse).toFinset = insert t done.toFinset := by simp
    have hnew : t ∉ done.toFinset := by
      have hnd : (idsOf env entries).Nodup := hd.distinct
      rw [hids] at hnd
      simpa using (nodup_cons.mp hnd.of_append_right).1
    rw [hi]
    exact updateTransactionFromBlock_yields (h.unlinked hd) (fun k => mem_toFinset.symm)
      (by simp [hids]) hnew (hla ▸ h.ready hd hids) hstate
  · exact Repairing.start (h.unlinked hd)
end Updating

theorem Repairing.view_eq (hstate : Repairing env limits v txids added done state) :
    state.pool.view = { state.pool.view with
      data := v.data, spender := v.spender, totalTxSize := v.totalTxSize, totalFee := v.totalFee } := by
  simp only [← hstate.data,← hstate.spender,← hstate.totals.1,← hstate.totals.2]
  rfl

theorem Repairing.consistent (h : v.Unlinked env txids added)
    (hstate : Repairing env limits v txids added added state) : state.pool.Consistent env := by
  rw [Consistent,txids_eq_of_keyed h.keyed hstate.data,hstate.view_eq,consistent_iff]
  refine ⟨⟨h.keyed.mem,h.keyed.keyed,h.keyed.spender,h.keyed.totalTxSize,h.keyed.totalFee⟩,?_⟩
  have hp := hstate.parents
  have hki := hstate.children
  simp only [shown_all] at hp hki
  refine ⟨fun a b => h.keyed.inside,Closed.acyclic (.inr h.closed) h.linked.acyclic,hp,hki,?_,?_⟩
  · exact fun k hk => (congrFun hstate.ancestorState k).trans (h.ancestorsWith_all hk)
  · exact fun k hk => (congrFun hstate.descendantState k).trans (h.descendantsWith_all hk)

/-! ## Transactions with too many ancestors -/

/-- A consistent pool without some transactions and everything below them. -/
structure Drops (env : MemPoolEnv) (pool : CTxMemPool) (tops : List Uint256) (next : CTxMemPool) : Prop where
  consistent : next.Consistent env
  data : ∀ k, next.view.data k =
    if ∃ d ∈ tops, ReflTransGen pool.view.Parent d k then none else pool.view.data k

variable {tops : List Uint256}
theorem Drops.shrinks (h : pool.Drops env tops next) : pool.Shrinks env next := by
  refine ⟨h.consistent,fun k => ?_⟩
  rw [h.data]
  split
  · exact .inl rfl
  · exact .inr rfl

theorem Drops.reach_iff (h : pool.Drops env tops next) {d k : Uint256}
    (hk : ¬ ∃ d ∈ tops, ReflTransGen pool.view.Parent d k) :
    ReflTransGen next.view.Parent d k ↔ ReflTransGen pool.view.Parent d k := by
  constructor
  · exact fun hr => mono (fun _ _ hab => h.shrinks.parent hab) _ _ hr
  · intro hr
    induction hr with
    | refl => exact .refl
    | @tail b c hpath hstep ih =>
      have hb : ¬ ∃ d ∈ tops, ReflTransGen pool.view.Parent d b := by
        rintro ⟨d',hd',hr⟩
        exact hk ⟨d',hd',hr.tail hstep⟩
      refine (ih hb).tail ?_
      rw [PoolView.Parent,h.data,h.data,if_neg hb,if_neg hk]
      exact hstep

theorem removeExceeding_yields {done : List Uint256} (h : pool.Drops env done next) (d : Uint256) :
    PoolYields (removeExceeding env next d) (pool.Drops env (done++[d])) := by
  have hm : ∀ k, (∃ d' ∈ done++[d], ReflTransGen pool.view.Parent d' k) ↔
      (∃ d' ∈ done, ReflTransGen pool.view.Parent d' k) ∨ ReflTransGen pool.view.Parent d k := by
    intro k
    simp
  unfold removeExceeding
  cases hget : next.mapTx.lookup d with
  | none =>
    have hn : next.view.data d = none := congrArg (Option.map CTxMemPoolEntry.data) hget
    refine of_ok ⟨h.consistent,fun k => ?_⟩
    rw [h.data] at hn ⊢
    simp only [hm]
    by_cases hg : ∃ d' ∈ done, ReflTransGen pool.view.Parent d' k
    · simp [hg]
    simp only [hg,false_or,if_false]
    split
    next hr =>
      -- nothing is below a transaction that was not there
      rcases cases_head hr with rfl | ⟨c,hst,_⟩
      · rwa [if_neg hg] at hn
      have hd : ¬ ∃ d' ∈ done, ReflTransGen pool.view.Parent d' d := fun ⟨d',hd',hp⟩ => hg ⟨d',hd',hp.trans hr⟩
      rw [if_neg hd] at hn
      have hso := hst.1
      rw [hn] at hso
      cases hso
    · rfl
  | some entry =>
    have hda := (shows_of_lookup hget).data
    have hh : env.getHash entry.tx = d := h.consistent.keyed d entry.data hda
    have hd := mem_iff_data.mpr (Option.isSome_of_eq_some hda)
    apply (removeRecursive_present h.consistent (hh.symm ▸ hd)).mono
    intro last hl
    refine ⟨hl.consistent,fun k => ?_⟩
    have hs : k ∈ next.withDescendants [d] ↔ ReflTransGen next.view.Parent d k := by
      rw [(mem_withDescendants h.consistent.children (by simpa [mem_txids] using hd)).2]
      simp
    rw [hl.data,hh,h.data]
    simp only [hm,hs]
    by_cases hg : ∃ d' ∈ done, ReflTransGen pool.view.Parent d' k
    · simp [hg]
    · simp [hg,h.reach_iff hg]

theorem removeAllExceeding_yields (hc : pool.Consistent env) (tops : List Uint256) :
    PoolYields (tops.foldlM (removeExceeding env) pool) (pool.Drops env tops) := by
  apply foldlM (I := fun done next => pool.Drops env done next)
  · exact fun done d _ next _ h => removeExceeding_yields h d
  · exact ⟨hc,fun k => by simp⟩

/-- A transaction that was in the pool before, has added ancestors and is beyond the limits with them. -/
def Overloaded (env : MemPoolEnv) (limits : MemPoolLimits) (pool : CTxMemPool) (added : List Uint256)
    (d : Uint256) : Prop :=
  (d ∉ added ∧ ∃ t ∈ added, ReflTransGen pool.view.Parent t d) ∧
    Exceeds limits (total (swap pool.view.Parent) pool.txids (pool.view.forDescendants env) d)

/-- A consistent pool is consistent again after transactions were added back, without those that now have
too many ancestors and their descendants. -/
theorem updateTransactionsFromBlock_repairs (limits : MemPoolLimits) (hc : pool.Consistent env)
    (hd : Disconnected env pool entries) :
    PoolYields (entries.foldlM (readd env) pool) fun readded =>
      PoolYields (updateTransactionsFromBlock env limits readded (idsOf env entries)) fun next =>
        next.Consistent env ∧ ∀ k, next.view.data k =
          if ∃ d, Overloaded env limits readded (idsOf env entries) d ∧
            ReflTransGen readded.view.Parent d k then none
          else readded.view.data k := by
  apply (readdAll_yields hc hd).mono
  intro readded hreadded
  have hunl := hreadded.unlinked hd
  apply bind (updateAll_yields hreadded hd)
  intro state hstate
  rw [toFinset_reverse] at hstate
  have hpar : state.pool.view.Parent = readded.view.Parent := by
    rw [hstate.view_eq]
    rfl
  have htops : ∀ d, d ∈ state.descendantsToRemove ↔ Overloaded env limits readded (idsOf env entries) d := by
    intro d
    rw [hstate.toRemove]
    simp only [mem_toFinset]
    apply and_congr_right
    rintro ⟨_,t,ht,hreach⟩
    have hin := hunl.mem_of_reach (mem_toFinset.mpr ht) hreach
    rw [hstate.ancestorState,hunl.ancestorsWith_all hin]
  apply (removeAllExceeding_yields (hstate.consistent hunl) _).mono
  intro next hnext
  refine ⟨hnext.consistent,fun k => ?_⟩
  rw [hnext.data,hstate.data,hpar]
  simp [htops]
end CTxMemPool
end Repair

/-! ## A parent that comes back -/

def childPool : CTxMemPool :=
  (run lockTimeEnv .empty [.addUnchecked (spendingTx 2 1) 0 0 4 defaultLimits,
    .prioritiseTransaction 2 int64Max]).toOption.getD .empty

def parentEntry (fee : Int) : CTxMemPoolEntry := .new lockTimeEnv (spendingTx 1 9) fee 0 4
theorem childPool_consistent : childPool.Consistent lockTimeEnv := consistent_of_admitted (by decide +kernel)

theorem parentEntry_disconnected (fee : Int) : Disconnected lockTimeEnv childPool [parentEntry fee] := by
  have htx : (parentEntry fee).tx = spendingTx 1 9 := rfl
  have hp : (spendingTx 1 9).prevouts = [⟨9,0⟩] := rfl
  have hids : (spendingTx 1 9).prevTxids = [9] := rfl
  constructor <;> simp only [forall_mem_singleton,map_singleton,nodup_singleton,pairwise_singleton,htx,hp,hids]
  · exact CTxMemPoolEntry.new_isNew _ _ _ _ _
  · decide +kernel
  · decide +kernel
  · decide +kernel
  · decide +kernel

open CTxMemPool in
theorem childPool_repaired :
    childPool.Consistent lockTimeEnv ∧ Disconnected lockTimeEnv childPool [parentEntry 0] ∧
      ([parentEntry 0].foldlM (readd lockTimeEnv) childPool >>= fun readded =>
        updateTransactionsFromBlock lockTimeEnv defaultLimits readded [1]).isOk ∧
      PoolYields ([parentEntry 0].foldlM (readd lockTimeEnv) childPool) fun readded =>
        PoolYields (updateTransactionsFromBlock lockTimeEnv defaultLimits readded
          (idsOf lockTimeEnv [parentEntry 0])) fun next => next.Consistent lockTimeEnv := by
  have hd := parentEntry_disconnected 0
  have hrepairs := updateTransactionsFromBlock_repairs defaultLimits childPool_consistent hd
  exact ⟨childPool_consistent,hd,by decide +kernel,
    hrepairs.mono fun readded hreadded => hreadded.mono fun next hnext => hnext.1⟩

/-- The first one pays a fee, and the additions are those of the source. -/
def saturatedPool : PoolResult := do
  let readded ← [parentEntry 1].foldlM (Saturating.readd lockTimeEnv) childPool
  Saturating.updateTransactionsFromBlock lockTimeEnv defaultLimits readded
    (idsOf lockTimeEnv [parentEntry 1])

/-- The total of the child had reached its limit, and the fee of the parent is not in it. -/
theorem saturatedPool_inexact :
    childPool.Consistent lockTimeEnv ∧ Disconnected lockTimeEnv childPool [parentEntry 1] ∧
      ∃ next, saturatedPool = .ok next ∧ ¬ next.Consistent lockTimeEnv := by
  refine ⟨childPool_consistent,parentEntry_disconnected 1,?_⟩
  have hchild : (saturatedPool.toOption.bind (·.mapTx.lookup 2)).map (fun entry =>
      (entry.parents, entry.nModFeesWithAncestors, entry.modifiedFee)) =
      some ([1], int64Max, int64Max) := by decide +kernel
  have hpar : (saturatedPool.toOption.bind (·.mapTx.lookup 1)).map
      CTxMemPoolEntry.nModFeesWithAncestors = some 1 := by decide +kernel
  obtain ⟨child,hget,hfees⟩ := Option.map_eq_some_iff.mp hchild
  obtain ⟨next,hnext,hget⟩ := Option.bind_eq_some_iff.mp hget
  rw [hnext] at hpar
  obtain ⟨parent,hget',hfee⟩ := Option.map_eq_some_iff.mp hpar
  refine ⟨next,toOption_eq_some.mp hnext,fun hc => ?_⟩
  have hshows := shows_of_lookup hget
  have hshows' := shows_of_lookup hget'
  have htotal := hc.ancestorState_of_one_parent hshows.data
    (hshows.parents.trans (congrArg Prod.fst hfees))
  rw [hshows.ancestorState,hshows'.ancestorState] at htotal
  have hsum : child.nModFeesWithAncestors = child.modifiedFee + parent.nModFeesWithAncestors :=
    congrArg (·.2.2.1) htotal
  simp only [Prod.mk.injEq] at hfees
  omega
end Lcryp
