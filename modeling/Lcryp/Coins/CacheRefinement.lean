import Lcryp.Coins.Cache

/-!
# Cache stacks refine one map

Each entry of a layer is tied to what the layer below shows: a clean entry repeats it, a fresh one stands
where it shows nothing.
-/
namespace Lcryp
open WriteLog Bool CCoinsCacheEntry CCoinsViewCache List Prod
/-- What a layer shows at an outpoint, without filling any cache. -/
def viewCoin (store : UtxoView) (outpoint : COutPoint) : List CCoinsViewCache → Option Coin
  | [] => store.coins.lookup outpoint
  | cache::below =>
    match cache.cacheCoins.lookup outpoint with
    | some entry => entry.unspentCoin
    | none => viewCoin store outpoint below

/-- An entry above a layer that shows `lower` at its outpoint. -/
structure EntryOk (lower : Option Coin) (entry : CCoinsCacheEntry) : Prop where
  clean : entry.dirty = false → entry.fresh = false ∧ lower = some entry.coin
  fresh : entry.fresh = true → lower = none
  cleared : entry.coin.isSpent = true → entry.coin = Coin.empty

def LayersOk (store : UtxoView) : List CCoinsViewCache → Prop
  | [] => True
  | cache::below =>
    (∀ outpoint entry, cache.cacheCoins.lookup outpoint = some entry →
      EntryOk (viewCoin store outpoint below) entry) ∧ LayersOk store below

variable {entry : CCoinsCacheEntry} {coin : Coin} {cache : CCoinsViewCache} {outpoint : COutPoint}
section Views
variable {store store' : UtxoView} {caches below below' : List CCoinsViewCache}
theorem unspentCoin_isSpent (h : entry.unspentCoin = some coin) : coin.isSpent = false := by
  by_cases hs : entry.coin.isSpent = true
  · rw [unspentCoin,if_pos hs] at h
    cases h
  · rw [unspentCoin,if_neg hs] at h
    cases h
    exact eq_false_iff.mpr hs

theorem viewCoin_isSpent (h : viewCoin store outpoint caches = some coin) : coin.isSpent = false := by
  induction caches with
  | nil => exact store.unspent outpoint coin h
  | cons cache below ih =>
    rw [viewCoin] at h
    split at h
    · exact unspentCoin_isSpent h
    · exact ih h

variable (above : List CCoinsViewCache)
theorem viewCoin_replace (h : ∀ o, viewCoin store' o below' = viewCoin store o below)
    (o : COutPoint) : viewCoin store' o (above++below') = viewCoin store o (above++below) := by
  induction above with
  | nil => exact h o
  | cons cache above ih => simp [viewCoin,ih]

theorem layersOk_replace (hok : LayersOk store (above++below)) (hok' : LayersOk store' below')
    (h : ∀ o, viewCoin store' o below' = viewCoin store o below) : LayersOk store' (above++below') := by
  induction above with
  | nil => exact hok'
  | cons cache above ih =>
    refine ⟨?_,ih hok.2⟩
    intro o entry hent
    change EntryOk (viewCoin store' o (above++below')) entry
    rw [viewCoin_replace above h]
    exact hok.1 o entry hent

theorem layersOk_drop (hok : LayersOk store (above++below)) : LayersOk store below := by
  induction above with
  | nil => exact hok
  | cons cache above ih => exact ih hok.2

theorem viewCoin_above_empty (hemp : ∀ cache ∈ above, cache.cacheCoins = ∅) (o : COutPoint) :
    viewCoin store o (above++below) = viewCoin store o below := by
  induction above with
  | nil => rfl
  | cons cache above ih =>
    rw [forall_mem_cons] at hemp
    rw [cons_append,viewCoin,hemp.1]
    exact ih hemp.2

theorem layersOk_above_empty (hemp : ∀ cache ∈ above, cache.cacheCoins = ∅)
    (hok : LayersOk store below) : LayersOk store (above++below) := by
  induction above with
  | nil => exact hok
  | cons cache above ih =>
    rw [forall_mem_cons] at hemp
    refine ⟨?_,ih hemp.2⟩
    intro o entry hent
    rw [hemp.1] at hent
    cases hent

theorem viewCoin_setEntry (entry : Option CCoinsCacheEntry) (usage : BitVec 64) (o : COutPoint) :
    viewCoin store o (cache.setEntry outpoint entry usage::below) =
      if o = outpoint then
        match entry with
        | some e => e.unspentCoin
        | none => viewCoin store outpoint below
      else viewCoin store o (cache::below) := by
  rw [viewCoin,setEntry,lookup_write]
  by_cases h : o = outpoint
  · subst h
    cases entry with
    | none => simp
    | some e => simp
  · simp [h,viewCoin]

theorem layersOk_setEntry {entry : Option CCoinsCacheEntry} {usage : BitVec 64}
    (hok : LayersOk store (cache::below))
    (hent : ∀ e, entry = some e → EntryOk (viewCoin store outpoint below) e) :
    LayersOk store (cache.setEntry outpoint entry usage::below) := by
  refine ⟨?_,hok.2⟩
  intro o e he
  rw [setEntry,lookup_write] at he
  split at he
  · rename_i heq
    obtain rfl : o = outpoint := heq
    exact hent e he
  · exact hok.1 o e he
end Views

section Calls
variable {store : UtxoView} {caches below : List CCoinsViewCache}
structure Fetched (store : UtxoView) (outpoint : COutPoint) (caches : List CCoinsViewCache)
    (found : Option CCoinsCacheEntry) (caches' : List CCoinsViewCache) : Prop where
  layersOk : LayersOk store caches'
  view : ∀ o, viewCoin store o caches' = viewCoin store o caches
  answer : found.bind unspentCoin = viewCoin store outpoint caches
  cleared : ∀ entry, found = some entry → entry.coin.isSpent = true → entry.coin = Coin.empty
  first : ∀ cache below, caches = cache::below →
    ∃ cache' below', caches' = cache'::below' ∧ cache'.cacheCoins.lookup outpoint = found
  hashBlocks : caches'.map hashBlock = caches.map hashBlock

theorem Fetched.length {caches' : List CCoinsViewCache} {found : Option CCoinsCacheEntry}
    (h : Fetched store outpoint caches found caches') : caches'.length = caches.length := by
  simpa using congrArg List.length h.hashBlocks

theorem fetchCoin_fetched (outpoint : COutPoint) (hok : LayersOk store caches) :
    Fetched store outpoint caches (fetchCoin store outpoint caches).1
      (fetchCoin store outpoint caches).2 := by
  induction caches with
  | nil =>
    refine ⟨trivial,fun _ => rfl,?_,?_,?_,rfl⟩
    · cases hc : store.coins.lookup outpoint with
      | none => simp [fetchCoin,viewCoin,hc]
      | some coin =>
        simp [fetchCoin,viewCoin,hc,unspentCoin,store.unspent outpoint coin hc]
    · intro entry hent hsp
      simp only [fetchCoin,Option.map_eq_some_iff] at hent
      obtain ⟨coin,hc,rfl⟩ := hent
      rw [store.unspent outpoint coin hc] at hsp
      cases hsp
    · intro cache below h
      cases h
  | cons cache below ih =>
    have hb := ih hok.2
    cases hget : cache.cacheCoins.lookup outpoint with
    | some entry =>
      simp only [fetchCoin,hget]
      refine ⟨hok,fun _ => rfl,?_,?_,?_,rfl⟩
      · simp [viewCoin,hget]
      · intro e he
        cases he
        exact (hok.1 outpoint entry hget).cleared
      · rintro _ _ ⟨⟩
        exact ⟨cache,below,rfl,hget⟩
    | none =>
      have hok' := layersOk_replace [cache] hok hb.layersOk hb.view
      have hv := viewCoin_replace [cache] hb.view
      have hl : viewCoin store outpoint (cache::below) = viewCoin store outpoint below := by rw [viewCoin,hget]
      cases hs : viewCoin store outpoint below with
      | none =>
        simp only [fetchCoin,hget,hb.answer,hs]
        refine ⟨hok',hv,(hl.trans hs).symm,nofun,?_,?_⟩
        · rintro _ _ ⟨⟩
          exact ⟨cache,_,rfl,hget⟩
        · simp [hb.hashBlocks]
      | some tmp =>
        have hu : tmp.isSpent = false := viewCoin_isSpent hs
        have hans : unspentCoin ⟨tmp,false,false⟩ = some tmp := by simp [unspentCoin,hu]
        have hent : EntryOk (viewCoin store outpoint (fetchCoin store outpoint below).2)
            ⟨tmp,false,false⟩ := by
          refine ⟨fun _ => ⟨rfl,(hb.view outpoint).trans hs⟩,nofun,?_⟩
          intro hsp
          exact absurd hsp (eq_false_iff.mp hu)
        simp only [fetchCoin,hget,hb.answer,hs,hu]
        refine ⟨layersOk_setEntry hok' ?_,?_,?_,?_,?_,?_⟩
        · rintro e ⟨⟩
          exact hent
        · intro o
          rw [viewCoin_setEntry]
          split
          · rename_i heq
            rw [heq,hl,hs]
            exact hans
          · exact hv o
        · rw [hl,hs]
          exact hans
        · rintro e ⟨⟩
          exact hent.cleared
        · rintro _ _ ⟨⟩
          refine ⟨_,_,rfl,?_⟩
          rw [setEntry,lookup_write,if_pos rfl]
        · simp [hb.hashBlocks,setEntry]

/-- `AddCoin` does not throw where it may not overwrite, and only its own outpoint changes. -/
theorem addCoin_shown {possibleOverwrite : Bool} (hok : LayersOk store (cache::below))
    (hu : coin.isSpent = false)
    (hfr : possibleOverwrite = false → coin.out.scriptPubKey.isUnspendable = false →
      viewCoin store outpoint (cache::below) = none) :
    ∃ cache', cache.addCoin outpoint coin possibleOverwrite = (.ok (), cache') ∧
      cache'.hashBlock = cache.hashBlock ∧ LayersOk store (cache'::below) ∧
      ∀ o, viewCoin store o (cache'::below) =
        if coin.out.scriptPubKey.isUnspendable = false ∧ o = outpoint then some coin
        else viewCoin store o (cache::below) := by
  by_cases hscr : coin.out.scriptPubKey.isUnspendable = true
  · refine ⟨cache,?_,rfl,hok,?_⟩
    · simp [CCoinsViewCache.addCoin,hu,hscr]
    · simp [hscr]
  · have hfr := fun h => hfr h (eq_false_iff.mpr hscr)
    -- the entry that `emplace` finds or makes
    have hent : ∀ entry, cache.cacheCoins.lookup outpoint = some entry →
        possibleOverwrite = false → entry.coin.isSpent = true ∧ entry.dirty = true := by
      intro entry hget hflag
      have hs := hfr hflag
      rw [viewCoin,hget] at hs
      have hsp : entry.coin.isSpent = true := by
        by_contra h
        simp [unspentCoin,h] at hs
      refine ⟨hsp,?_⟩
      by_contra hclean
      have hl := ((hok.1 outpoint entry hget).clean (eq_false_iff.mpr hclean)).2
      exact absurd hsp (eq_false_iff.mp (viewCoin_isSpent hl))
    obtain ⟨fresh,usage,hadd,hf⟩ : ∃ fresh usage,
        cache.addCoin outpoint coin possibleOverwrite =
          (.ok (), cache.setEntry outpoint (some ⟨coin,true,fresh⟩) usage) ∧
        (fresh = true → viewCoin store outpoint below = none) := by
      cases hget : cache.cacheCoins.lookup outpoint with
      | none =>
        refine ⟨!possibleOverwrite,cache.cachedCoinsUsage+coin.dynamicMemoryUsage,?_,?_⟩
        · simp [CCoinsViewCache.addCoin,hu,hscr,hget]
        · intro hf
          rw [← hfr (by simpa using hf),viewCoin,hget]
      | some entry =>
        have hk : (!possibleOverwrite && !entry.dirty) = false := by
          cases possibleOverwrite with
          | true => rfl
          | false => simp [(hent entry hget rfl).2]
        have hp : (!possibleOverwrite && !entry.coin.isSpent) = false := by
          cases possibleOverwrite with
          | true => rfl
          | false => simp [(hent entry hget rfl).1]
        refine ⟨entry.fresh,cache.cachedCoinsUsage - entry.coin.dynamicMemoryUsage +
          coin.dynamicMemoryUsage,?_,(hok.1 outpoint entry hget).fresh⟩
        simp [CCoinsViewCache.addCoin,hu,hscr,hget,hk,hp]
    refine ⟨_,hadd,rfl,layersOk_setEntry hok ?_,?_⟩
    · rintro e ⟨⟩
      exact ⟨nofun,hf,fun h => absurd h (eq_false_iff.mp hu)⟩
    · intro o
      rw [viewCoin_setEntry]
      by_cases ho : o = outpoint
      · simp [hscr,unspentCoin,hu]
      · simp [ho]

theorem spendThrough_ok (outpoint : COutPoint) (hok : LayersOk store (cache::below)) :
    ∃ fOk cache' below', spendThrough store outpoint (cache::below) =
        (fOk, (viewCoin store outpoint (cache::below)).getD Coin.empty, cache'::below') ∧
      ((viewCoin store outpoint (cache::below)).isSome = true → fOk = true) ∧
      (cache'::below').map hashBlock = (cache::below).map hashBlock ∧
      LayersOk store (cache'::below') ∧
      ∀ o, viewCoin store o (cache'::below') =
        if o = outpoint then none else viewCoin store o (cache::below) := by
  have hfet := fetchCoin_fetched outpoint hok
  obtain ⟨cache',below',hc,hget⟩ := hfet.first cache below rfl
  have hok' := hfet.layersOk
  have hv := hfet.view
  have hb := hfet.hashBlocks
  rw [hc] at hok' hv hb
  rw [spendThrough]
  cases hf : (fetchCoin store outpoint (cache::below)).1 with
  | none =>
    have hn : viewCoin store outpoint (cache::below) = none := by
      rw [← hfet.answer,hf]
      rfl
    rw [show fetchCoin store outpoint (cache::below) = (none, cache'::below') from Prod.ext hf hc]
    refine ⟨false,cache',below',?_,?_,hb,hok',?_⟩
    · simp [hn]
    · simp [hn]
    · intro o
      rw [hv]
      split
      · rename_i heq
        rw [heq,hn]
      · rfl
  | some entry =>
    rw [hf] at hget
    have hent := hok'.1 outpoint entry hget
    have hans : viewCoin store outpoint (cache::below) = entry.unspentCoin := by
      rw [← hfet.answer,hf]
      rfl
    rw [show fetchCoin store outpoint (cache::below) = (some entry, cache'::below') from Prod.ext hf hc]
    refine ⟨true,cache'.clearEntry outpoint entry,below',?_,fun _ => rfl,hb,layersOk_setEntry hok' ?_,?_⟩
    · rw [hans]
      by_cases hs : entry.coin.isSpent = true
      · simp [unspentCoin,hent.cleared hs]
      · simp [unspentCoin,hs]
    · intro e he
      split at he
      · cases he
      · rename_i hfr
        cases he
        exact ⟨nofun,fun h => absurd h hfr,fun _ => rfl⟩
    · intro o
      rw [clearEntry,viewCoin_setEntry,hv]
      split
      · by_cases hfr : entry.fresh = true
        · simp [hfr,hent.fresh hfr]
        · simp [hfr,unspentCoin]
      · rfl

theorem uncache_ok (outpoint : COutPoint) (hok : LayersOk store (cache::below)) :
    LayersOk store (cache.uncache outpoint::below) ∧
      ∀ o, viewCoin store o (cache.uncache outpoint::below) = viewCoin store o (cache::below) := by
  unfold uncache
  split
  · exact ⟨hok,fun _ => rfl⟩
  rename_i entry hget
  split
  · rename_i hf
    have hent := hok.1 outpoint entry hget
    have hc : entry.dirty = false := by
      simp only [and_eq_true,not_eq_true'] at hf
      exact hf.1
    have hl := (hent.clean hc).2
    refine ⟨layersOk_setEntry hok nofun,?_⟩
    intro o
    rw [viewCoin_setEntry]
    split
    · rename_i heq
      subst heq
      simp [viewCoin,hget,unspentCoin,hl,viewCoin_isSpent hl]
    · rfl
  · exact ⟨hok,fun _ => rfl⟩

theorem EntryOk.unspentCoin_of_clean {lower : Option Coin}
    (hent : EntryOk lower entry) (hl : ∀ coin, lower = some coin → coin.isSpent = false)
    (hc : entry.dirty = false) : entry.unspentCoin = lower := by
  have hs := (hent.clean hc).2
  simp [unspentCoin,hs,hl entry.coin hs]

/-- A child's entry never meets an unspent parent entry while fresh, and replaces what is shown. -/
theorem batchWriteEntry_ok (hok : LayersOk store (cache::below))
    (hent : EntryOk (viewCoin store outpoint (cache::below)) entry) :
    ∃ cache', cache.batchWriteEntry outpoint entry = .ok cache' ∧ LayersOk store (cache'::below) ∧
      ∀ o, viewCoin store o (cache'::below) =
        if o = outpoint then entry.unspentCoin else viewCoin store o (cache::below) := by
  by_cases hd : entry.dirty = true
  · cases hget : cache.cacheCoins.lookup outpoint with
    | none =>
      have hl : viewCoin store outpoint (cache::below) = viewCoin store outpoint below := by rw [viewCoin,hget]
      by_cases hsk : (entry.fresh && entry.coin.isSpent) = true
      · refine ⟨cache,by simp [batchWriteEntry,hget,hsk],hok,?_⟩
        rw [and_eq_true] at hsk
        intro o
        split
        · rename_i heq
          rw [heq,hent.fresh hsk.1,unspentCoin,if_pos hsk.2]
        · rfl
      · refine ⟨_,by simp [batchWriteEntry,hd,hget,hsk]; rfl,layersOk_setEntry hok ?_,?_⟩
        · rintro e ⟨⟩
          exact ⟨nofun,fun h => hl ▸ hent.fresh h,hent.cleared⟩
        · intro o
          rw [viewCoin_setEntry]
          rfl
    | some us =>
      have hus := hok.1 outpoint us hget
      have hs : viewCoin store outpoint (cache::below) = us.unspentCoin := by rw [viewCoin,hget]
      have hp : (entry.fresh && !us.coin.isSpent) = false := by
        cases hf : entry.fresh with
        | false => rfl
        | true =>
          have hn := hent.fresh hf
          rw [hs] at hn
          have hsp : us.coin.isSpent = true := by simpa [unspentCoin] using hn
          simp [hsp]
      by_cases hdr : (us.fresh && entry.coin.isSpent) = true
      · refine ⟨_,by simp [batchWriteEntry,hd,hget,hp,hdr]; rfl,layersOk_setEntry hok ?_,?_⟩
        · intro e he
          cases he
        · rw [and_eq_true] at hdr
          intro o
          rw [viewCoin_setEntry]
          simp [hus.fresh hdr.1,unspentCoin,hdr.2]
      · refine ⟨_,by simp [batchWriteEntry,hd,hget,hp,hdr]; rfl,layersOk_setEntry hok ?_,?_⟩
        · rintro e ⟨⟩
          exact ⟨nofun,hus.fresh,hent.cleared⟩
        · intro o
          rw [viewCoin_setEntry]
          rfl
  · refine ⟨cache,by simp [batchWriteEntry,hd],hok,?_⟩
    intro o
    split
    · rename_i heq
      rw [heq,hent.unspentCoin_of_clean (fun _ => viewCoin_isSpent) (eq_false_iff.mpr hd)]
    · rfl

private theorem batchWrite_of_foldlM {hashBlock : Uint256} {cache' : CCoinsViewCache}
    (entries : CacheEntries)
    (h : entries.foldlM (fun c item => c.batchWriteEntry item.1 item.2) cache = .ok cache') :
    cache.batchWrite hashBlock entries = (.ok (), { cache' with hashBlock := hashBlock }, []) := by
  induction entries generalizing cache with
  | nil =>
    cases h
    rfl
  | cons item rest ih =>
    rw [foldlM_cons] at h
    obtain ⟨mid,hent,hrest⟩ := bind_eq_ok.mp h
    rw [batchWrite,hent]
    exact ih hrest

variable {entries : CacheEntries} (hashBlock : Uint256)
/-- `BatchWrite` of a child's map in any order: no throw, and the parent then shows the child. -/
theorem batchWrite_ok (hok : LayersOk store (cache::below)) (hnd : (entries.map fst).Nodup)
    (he : ∀ item ∈ entries, EntryOk (viewCoin store item.1 (cache::below)) item.2) :
    ∃ cache', cache.batchWrite hashBlock entries = (.ok (), cache', []) ∧ LayersOk store (cache'::below) ∧
      (∀ item ∈ entries, viewCoin store item.1 (cache'::below) = item.2.unspentCoin) ∧
      ∀ o, o ∉ entries.map fst → viewCoin store o (cache'::below) = viewCoin store o (cache::below) := by
  obtain ⟨mid,hmid,hok',hset,hk⟩ := merge_distinct
    (fun c o => viewCoin store o (c::below)) unspentCoin EntryOk
    (fun c => LayersOk store (c::below)) (fun c item => c.batchWriteEntry item.1 item.2)
    (fun c o entry hc hent => batchWriteEntry_ok hc hent) entries cache hok hnd he
  exact ⟨{ mid with hashBlock := hashBlock },batchWrite_of_foldlM entries hmid,hok',hset,hk⟩

theorem UtxoView.batchWrite_ok (hnd : (entries.map fst).Nodup)
    (he : ∀ item ∈ entries, EntryOk (store.coins.lookup item.1) item.2) :
    (∀ item ∈ entries, (store.batchWrite hashBlock entries).coins.lookup item.1 = item.2.unspentCoin) ∧
    ∀ o, o ∉ entries.map fst → (store.batchWrite hashBlock entries).coins.lookup o = store.coins.lookup o := by
  have hm : ∀ (s : UtxoView) o entry, True →
      EntryOk (s.coins.lookup o) entry → ∃ s',
        (Except.ok (s.batchWriteEntry (o, entry)) : Except Unit UtxoView) = .ok s' ∧ True ∧
        ∀ o', s'.coins.lookup o' = if o' = o then entry.unspentCoin else s.coins.lookup o' := by
    intro s o entry _ hent
    refine ⟨_,rfl,trivial,?_⟩
    intro o'
    by_cases hd : entry.dirty = true
    · by_cases hs : entry.coin.isSpent = false
      · simp [UtxoView.batchWriteEntry,hd,hs,UtxoView.insert,lookup_write,unspentCoin]
      · simp [UtxoView.batchWriteEntry,hd,hs,UtxoView.erase,lookup_write,unspentCoin]
    · rw [hent.unspentCoin_of_clean (s.unspent o) (eq_false_iff.mpr hd)]
      split
      · rename_i heq
        subst heq
        simp [UtxoView.batchWriteEntry,hd]
      · simp [UtxoView.batchWriteEntry,hd]
  obtain ⟨s',hs',_,hset,hk⟩ := merge_distinct (fun s => (s.coins.lookup ·))
    unspentCoin EntryOk (fun _ => True) (fun s item => .ok (s.batchWriteEntry item))
    hm entries store trivial hnd he
  have hf : entries.foldl UtxoView.batchWriteEntry store = s' := by
    exact Except.ok.inj ((foldlM_pure).symm.trans hs')
  rw [UtxoView.batchWrite,hf]
  exact ⟨hset,hk⟩

variable {order : List COutPoint}
theorem mem_entriesIn (hen : CCoinsViewCache.Enumerates order cache) (item : COutPoint × CCoinsCacheEntry) :
    item ∈ cache.entriesIn order ↔ cache.cacheCoins.lookup item.1 = some item.2 := by
  obtain ⟨o,entry⟩ := item
  simp only [entriesIn,mem_filterMap,Option.map_eq_some_iff,Prod.mk.injEq]
  constructor
  · rintro ⟨_,_,e,he,rfl,rfl⟩
    exact he
  · intro hget
    refine ⟨o,?_,entry,hget,rfl,rfl⟩
    rw [← mem_toFinset,hen.2,Finmap.mem_keys,← Finmap.lookup_isSome,hget]
    rfl

theorem nodup_entriesIn (cache : CCoinsViewCache) (hnd : order.Nodup) :
    ((cache.entriesIn order).map fst).Nodup := by
  have hsub : ((cache.entriesIn order).map fst).Sublist order := by
    induction order with
    | nil => exact List.Sublist.refl _
    | cons o rest ih =>
      have hr := ih hnd.of_cons
      rw [entriesIn,filterMap_cons]
      cases cache.cacheCoins.lookup o with
      | none => exact hr.cons o
      | some entry => exact hr.cons_cons o
  exact hsub.nodup hnd

theorem flushFirst_ok (hok : LayersOk store (cache::below)) (he : CCoinsViewCache.Enumerates order cache) :
    ∃ cache' below' store', flushFirst store order (cache::below) = (.ok (), cache'::below', store') ∧
      cache'.cacheCoins = ∅ ∧ below'.length = below.length ∧ LayersOk store' (cache'::below') ∧
      ∀ o, viewCoin store' o (cache'::below') = viewCoin store o (cache::below) := by
  have hnd := nodup_entriesIn cache he.1
  have hen : ∀ item ∈ cache.entriesIn order,
      EntryOk (viewCoin store item.1 below) item.2 := by
    intro item hi
    exact hok.1 item.1 item.2 ((mem_entriesIn he item).mp hi)
  -- both kinds of base end up showing the flushed entries over what they showed before
  have hs : ∀ store' below',
      (∀ item ∈ cache.entriesIn order, viewCoin store' item.1 below' = item.2.unspentCoin) →
      (∀ o, o ∉ (cache.entriesIn order).map fst → viewCoin store' o below' = viewCoin store o below) →
      ∀ o, viewCoin store' o below' = viewCoin store o (cache::below) := by
    intro store' below' hset hk o
    cases hget : cache.cacheCoins.lookup o with
    | some entry =>
      rw [viewCoin,hget]
      exact hset (o, entry) ((mem_entriesIn he (o, entry)).mpr hget)
    | none =>
      rw [viewCoin,hget]
      refine hk o ?_
      intro hmem
      obtain ⟨item,hi,rfl⟩ := mem_map.mp hmem
      rw [(mem_entriesIn he item).mp hi] at hget
      cases hget
  have hl : ∀ store' below', LayersOk store' below' →
      LayersOk store' ({ cache with cacheCoins := ∅, cachedCoinsUsage := 0#64 }::below') := by
    intro store' below' hbel
    exact layersOk_above_empty [_] (by simp) hbel
  cases below with
  | nil =>
    obtain ⟨hset,hk⟩ := UtxoView.batchWrite_ok cache.hashBlock hnd hen
    refine ⟨_,[],_,rfl,rfl,rfl,hl _ [] trivial,?_⟩
    intro o
    exact hs _ [] hset hk o
  | cons parent below =>
    obtain ⟨parent',hpar,hok',hset,hk⟩ := batchWrite_ok cache.hashBlock hok.2 hnd hen
    refine ⟨_,parent'::below,store,?_,rfl,rfl,hl _ _ hok',?_⟩
    · rw [flushFirst,hpar]
    · intro o
      exact hs _ _ hset hk o
end Calls
end Lcryp
