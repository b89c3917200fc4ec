import Lcryp.Coins.CacheRefinement
import Lcryp.Framework.Run

/-!
# The memory counter of a cache

`cachedCoinsUsage` is meant to be the memory of all coins in the map.  Each call adjusts it where it
changes the map.
-/
namespace Lcryp
open WriteLog List BitVec CCoinsViewCache CCoinsCacheEntry
def CCoinsCacheEntry.usage (entry : CCoinsCacheEntry) : Int := entry.coin.dynamicMemoryUsage.toNat

namespace CCoinsViewCache
variable (cache : CCoinsViewCache)
def coinsUsage : Int := total CCoinsCacheEntry.usage cache.cacheCoins

/-- The counter, an unsigned 64-bit number, is the memory of the coins. -/
def Accounted : Prop := cache.cachedCoinsUsage = BitVec.ofInt 64 cache.coinsUsage
def emplaceCoinInternalDANGER (outpoint : COutPoint) (coin : Coin) : CCoinsViewCache :=
  let usage := cache.cachedCoinsUsage + coin.dynamicMemoryUsage
  match cache.cacheCoins.lookup outpoint with
  | some _ => { cache with cachedCoinsUsage := usage }
  | none => cache.setEntry outpoint (some ⟨coin, true, false⟩) usage

/-- `AddCoin` throws, if at all, over a coin without memory. -/
def AddKeepsCount (outpoint : COutPoint) (coin : Coin) (possibleOverwrite : Bool) : Prop :=
  coin.isSpent = true ∨ coin.out.scriptPubKey.isUnspendable = true ∨ possibleOverwrite = true ∨
    ∀ old ∈ cache.cacheCoins.lookup outpoint, old.coin.isSpent = true ∨ old.coin.dynamicMemoryUsage = 0#64

/-- An entry that `BatchWrite` stops at: fresh in the child, and unspent in this cache. -/
def misapplied (item : COutPoint × CCoinsCacheEntry) : Bool :=
  item.2.dirty && item.2.fresh && (cache.cacheCoins.lookup item.1).any fun us => !us.coin.isSpent

section Entries
variable {cache : CCoinsViewCache} {outpoint : COutPoint}
theorem ofInt_usage (entry : CCoinsCacheEntry) :
    BitVec.ofInt 64 entry.usage = entry.coin.dynamicMemoryUsage := by
  rw [usage,ofInt_natCast,ofNat_toNat,setWidth_eq]

/-- What an outpoint contributes to the counter. -/
def usageAt (cache : CCoinsViewCache) (outpoint : COutPoint) : BitVec 64 :=
  BitVec.ofInt 64 (weight CCoinsCacheEntry.usage (cache.cacheCoins.lookup outpoint))

variable {entry : CCoinsCacheEntry}
theorem usageAt_of_lookup (h : cache.cacheCoins.lookup outpoint = some entry) :
    cache.usageAt outpoint = entry.coin.dynamicMemoryUsage := by
  rw [usageAt,h,weight,ofInt_usage]

theorem usageAt_of_none (h : cache.cacheCoins.lookup outpoint = none) : cache.usageAt outpoint = 0#64 := by
  rw [usageAt,h]
  rfl

variable {usage : BitVec 64}
variable (h : cache.Accounted)
include h

/-- A new entry is accounted for if the counter exchanges the old usage for the new one. -/
theorem accounted_setEntry {entry : Option CCoinsCacheEntry} :
    (cache.setEntry outpoint entry usage).Accounted ↔
      usage = cache.cachedCoinsUsage - cache.usageAt outpoint +
        BitVec.ofInt 64 (weight CCoinsCacheEntry.usage entry) := by
  simp only [Accounted,coinsUsage,setEntry,total_write,Int.sub_eq_add_neg,sub_eq_add_neg,ofInt_add,ofInt_neg,usageAt]
  rw [h,coinsUsage]

theorem Accounted.set (entry : CCoinsCacheEntry)
    (hu : usage = cache.cachedCoinsUsage - cache.usageAt outpoint + entry.coin.dynamicMemoryUsage) :
    (cache.setEntry outpoint (some entry) usage).Accounted := by
  rw [accounted_setEntry h,weight,ofInt_usage]
  exact hu

theorem Accounted.setNew {coin : Coin} (hget : cache.cacheCoins.lookup outpoint = none) (dirty fresh : Bool) :
    (cache.setEntry outpoint (some ⟨coin, dirty, fresh⟩)
      (cache.cachedCoinsUsage+coin.dynamicMemoryUsage)).Accounted :=
  h.set _ (by simp [usageAt_of_none hget])

theorem Accounted.remove (hu : usage = cache.cachedCoinsUsage - cache.usageAt outpoint) :
    (cache.setEntry outpoint none usage).Accounted := by
  rw [accounted_setEntry h,hu]
  simp [weight]

theorem accounted_counter (usage : BitVec 64) :
    ({ cache with cachedCoinsUsage := usage } : CCoinsViewCache).Accounted ↔
      usage = cache.cachedCoinsUsage := by
  simp only [Accounted,coinsUsage] at h ⊢
  rw [h]

theorem Accounted.addCoin_iff (outpoint : COutPoint) (coin : Coin) (possibleOverwrite : Bool) :
    (cache.addCoin outpoint coin possibleOverwrite).2.Accounted ↔
      cache.AddKeepsCount outpoint coin possibleOverwrite := by
  unfold addCoin AddKeepsCount
  by_cases hs : coin.isSpent = true
  · simp [hs,h]
  by_cases hscr : coin.out.scriptPubKey.isUnspendable = true
  · simp [hs,hscr,h]
  rw [or_iff_right hs,or_iff_right hscr]
  simp only [if_neg hs,if_neg hscr]
  cases hget : cache.cacheCoins.lookup outpoint with
  | none => simpa using h.setNew hget true !possibleOverwrite
  | some old =>
    simp only [Option.getD_some]
    by_cases ht : (!possibleOverwrite && !old.coin.isSpent) = true
    · rw [if_pos ht,accounted_counter h]
      simp_all only [Bool.and_eq_true,Bool.not_eq_true',Option.mem_some_iff,forall_eq',Bool.false_eq_true,
        false_or]
      constructor <;> intro heq <;> bv_omega
    · rw [if_neg ht]
      have hset : (cache.setEntry outpoint
          (some ⟨coin,true,old.fresh || (!possibleOverwrite && !old.dirty)⟩)
          (cache.cachedCoinsUsage - old.coin.dynamicMemoryUsage + coin.dynamicMemoryUsage)).Accounted :=
        h.set _ (by rw [usageAt_of_lookup hget])
      grind

theorem Accounted.emplaceCoin_iff (outpoint : COutPoint) (coin : Coin) :
    (cache.emplaceCoinInternalDANGER outpoint coin).Accounted ↔
      ((cache.cacheCoins.lookup outpoint).isSome → coin.dynamicMemoryUsage = 0#64) := by
  unfold emplaceCoinInternalDANGER
  cases hget : cache.cacheCoins.lookup outpoint with
  | none => simpa using h.setNew hget true false
  | some entry =>
    rw [accounted_counter h]
    simp

theorem Accounted.clearEntry (hget : cache.cacheCoins.lookup outpoint = some entry) :
    (cache.clearEntry outpoint entry).Accounted := by
  unfold CCoinsViewCache.clearEntry
  have hu := usageAt_of_lookup hget
  split
  · exact h.remove (by rw [hu])
  · refine h.set _ ?_
    rw [hu]
    simp [Coin.dynamicMemoryUsage,Coin.empty,CTxOut.null,mallocUsage]

theorem Accounted.uncache (outpoint : COutPoint) : (cache.uncache outpoint).Accounted := by
  unfold CCoinsViewCache.uncache
  cases hget : cache.cacheCoins.lookup outpoint with
  | none => exact h
  | some entry =>
    simp only
    split
    · exact h.remove (by rw [usageAt_of_lookup hget])
    · exact h

theorem Accounted.batchWriteEntry {cache' : CCoinsViewCache} (hok : cache.batchWriteEntry outpoint entry = .ok cache') :
    cache'.Accounted := by
  unfold CCoinsViewCache.batchWriteEntry at hok
  cases hget : cache.cacheCoins.lookup outpoint with
  | none =>
    simp only [hget] at hok
    split_ifs at hok <;> cases hok
    · exact h
    · exact h
    · exact h.setNew hget _ _
  | some us =>
    simp only [hget] at hok
    split_ifs at hok <;> cases hok
    · exact h
    · exact h.remove (by rw [usageAt_of_lookup hget])
    · exact h.set _ (by rw [usageAt_of_lookup hget])

theorem Accounted.batchWrite (hashBlock : Uint256) (entries : CacheEntries) :
    (cache.batchWrite hashBlock entries).2.1.Accounted := by
  induction entries generalizing cache with
  | nil => exact h
  | cons item rest ih =>
    rw [batchWrite]
    cases hent : cache.batchWriteEntry item.1 item.2 with
    | error stop => exact h
    | ok cache' => exact ih (h.batchWriteEntry hent)

omit h in
/-- An entry stops the write exactly if it is misapplied; otherwise other outpoints keep what they have. -/
theorem batchWriteEntry_spec (cache : CCoinsViewCache) (item : COutPoint × CCoinsCacheEntry) :
    match cache.batchWriteEntry item.1 item.2 with
    | .error _ => cache.misapplied item = true
    | .ok cache' => cache.misapplied item = false ∧
        ∀ outpoint ≠ item.1, cache'.cacheCoins.lookup outpoint = cache.cacheCoins.lookup outpoint := by
  unfold CCoinsViewCache.batchWriteEntry misapplied
  cases cache.cacheCoins.lookup item.1 with
  | none =>
    dsimp only
    split_ifs <;> simp_all [setEntry,lookup_write]
  | some us =>
    dsimp only
    split_ifs <;> simp_all [setEntry,lookup_write]

omit h in
/-- A write of different outpoints stops at the first misapplied entry. -/
theorem batchWrite_spec {p : COutPoint × CCoinsCacheEntry → Bool} (hashBlock : Uint256)
    {entries : CacheEntries} (hnd : (entries.map Prod.fst).Nodup)
    (hp : ∀ item ∈ entries, cache.misapplied item = p item) :
    (cache.batchWrite hashBlock entries).2.2 = entries.dropWhile (!p ·) ∧
      ((cache.batchWrite hashBlock entries).1 = .ok () ↔ ∀ item ∈ entries, p item = false) := by
  induction entries generalizing cache with
  | nil => exact ⟨rfl,iff_of_true rfl (by simp)⟩
  | cons item rest ih =>
    have hentry := cache.batchWriteEntry_spec item
    rw [forall_mem_cons] at hp
    rw [hp.1] at hentry
    rw [batchWrite]
    cases hent : cache.batchWriteEntry item.1 item.2 with
    | error stop =>
      rw [hent] at hentry
      simp [hentry]
    | ok cache' =>
      rw [hent] at hentry
      rw [map_cons,nodup_cons] at hnd
      rw [forall_mem_cons,and_iff_right hentry.1,dropWhile_cons_of_pos (by rw [hentry.1]; rfl)]
      -- the entries that follow are at other outpoints
      refine ih hnd.2 fun other hother => ?_
      rw [← hp.2 other hother,misapplied,misapplied,
        hentry.2 other.1 fun heq => hnd.1 (heq ▸ mem_map_of_mem hother)]
end Entries
end CCoinsViewCache

section Stacks
variable {store : UtxoView} {caches : List CCoinsViewCache}
def AllAccounted (caches : List CCoinsViewCache) : Prop := ∀ cache ∈ caches, cache.Accounted

theorem fetchCoin_accounted (store : UtxoView) (outpoint : COutPoint) (h : AllAccounted caches) :
    AllAccounted (fetchCoin store outpoint caches).2 := by
  induction caches with
  | nil => exact h
  | cons cache below ih =>
    rw [AllAccounted,forall_mem_cons] at h
    have hb := ih h.2
    rw [fetchCoin]
    cases hget : cache.cacheCoins.lookup outpoint with
    | some entry => exact forall_mem_cons.mpr h
    | none =>
      simp only
      cases (fetchCoin store outpoint below).1.bind unspentCoin with
      | none => exact forall_mem_cons.mpr ⟨h.1,hb⟩
      | some tmp =>
        refine forall_mem_cons.mpr ⟨h.1.set _ ?_,hb⟩
        simp [usageAt_of_none hget]

variable {cache : CCoinsViewCache} {below : List CCoinsViewCache}
theorem fetchCoin_lookup {outpoint : COutPoint} {entry : CCoinsCacheEntry}
    (h : fetchCoin store outpoint caches = (some entry, cache::below)) :
    cache.cacheCoins.lookup outpoint = some entry := by
  cases caches with
  | nil => simp [fetchCoin] at h
  | cons first rest =>
    rw [fetchCoin] at h
    cases hget : first.cacheCoins.lookup outpoint with
    | some found =>
      simp only [hget,Prod.mk.injEq,cons.injEq] at h
      rw [← h.2.1,hget,h.1]
    | none =>
      simp only [hget] at h
      cases hb : (fetchCoin store outpoint rest).1.bind unspentCoin with
      | none => simp [hb] at h
      | some tmp =>
        simp only [hb,Prod.mk.injEq,cons.injEq] at h
        rw [← h.2.1,setEntry,lookup_write,if_pos rfl,h.1]

theorem spendThrough_accounted (outpoint : COutPoint) (h : AllAccounted caches) :
    AllAccounted (spendThrough store outpoint caches).2.2 := by
  have hfet := fetchCoin_accounted store outpoint h
  unfold spendThrough
  split
  next entry cache below hf =>
    rw [hf,AllAccounted,forall_mem_cons] at hfet
    exact forall_mem_cons.mpr ⟨hfet.1.clearEntry (fetchCoin_lookup hf),hfet.2⟩
  next hf =>
    rw [hf] at hfet
    exact hfet

def entriesUsage (entries : CacheEntries) : Int :=
  (entries.map fun item => item.2.usage).sum

variable {order : List COutPoint}
theorem coinsUsage_eq (he : CCoinsViewCache.Enumerates order cache) :
    cache.coinsUsage = entriesUsage (cache.entriesIn order) := by
  have hnd := nodup_entriesIn cache he.1
  have ht := total_replay_items usage ∅ _ hnd fun item _ => Finmap.lookup_empty _
  rw [replay_items hnd (mem_entriesIn he),total_empty,Int.zero_add] at ht
  exact ht

/-- The entries before the first one that the layer below stops at have no memory. -/
def FlushKeepsCount (order : List COutPoint) : List CCoinsViewCache → Prop
  | cache::parent::_ =>
    (∃ item ∈ cache.entriesIn order, parent.misapplied item = true) →
      BitVec.ofInt 64 (entriesUsage ((cache.entriesIn order).takeWhile (!parent.misapplied ·))) = 0#64
  | _ => True

private theorem accounted_left (h : cache.Accounted) {given left : CacheEntries}
    (hu : cache.coinsUsage = entriesUsage (given++left)) (hnd : (left.map Prod.fst).Nodup) :
    ({ cache with cacheCoins := replay ∅ (left.map fun item => (item.1, some item.2)) } :
      CCoinsViewCache).Accounted ↔ BitVec.ofInt 64 (entriesUsage given) = 0#64 := by
  have ht := total_replay_items usage ∅ left hnd fun _ _ => Finmap.lookup_empty _
  rw [total_empty,Int.zero_add] at ht
  have hs : entriesUsage (given++left) = entriesUsage given + entriesUsage left := by simp [entriesUsage]
  simp only [CCoinsViewCache.Accounted,coinsUsage] at h hu ⊢
  rw [ht]
  change _ = BitVec.ofInt 64 (entriesUsage left) ↔ _
  constructor <;> intro heq <;> bv_omega

theorem accounted_flushFirst (h : AllAccounted (cache::below)) (he : CCoinsViewCache.Enumerates order cache) :
    AllAccounted (flushFirst store order (cache::below)).2.1 ↔ FlushKeepsCount order (cache::below) := by
  rw [AllAccounted,forall_mem_cons] at h
  have hclr : ({ cache with cacheCoins := ∅, cachedCoinsUsage := 0#64 } : CCoinsViewCache).Accounted := rfl
  cases below with
  | nil => simpa [flushFirst,FlushKeepsCount,AllAccounted] using hclr
  | cons parent rest =>
    rw [forall_mem_cons] at h
    have hpar := h.2.1.batchWrite cache.hashBlock (cache.entriesIn order)
    have hnd := nodup_entriesIn cache he.1
    obtain ⟨hleft,hok⟩ := batchWrite_spec cache.hashBlock hnd fun item _ => Eq.refl (parent.misapplied item)
    rw [flushFirst,FlushKeepsCount]
    rcases hw : parent.batchWrite cache.hashBlock (cache.entriesIn order) with
      ⟨result,parent',remaining⟩
    rw [hw] at hpar hleft hok
    dsimp only at hleft
    subst hleft
    cases result with
    | ok answer =>
      have hnone := hok.mp rfl
      refine iff_of_true (forall_mem_cons.mpr ⟨hclr,forall_mem_cons.mpr ⟨hpar,h.2.2⟩⟩) ?_
      rintro ⟨item,hitem,hmis⟩
      simp [hnone item hitem] at hmis
    | error stop =>
      have hsome : ∃ item ∈ cache.entriesIn order, parent.misapplied item = true := by
        by_contra hnone
        simpa using hok.mpr (by simpa using hnone)
      have hsplit := takeWhile_append_dropWhile (p := (!parent.misapplied ·)) (l := cache.entriesIn order)
      have hl := accounted_left h.1 ((coinsUsage_eq he).trans (by rw [hsplit]))
        (hnd.sublist ((dropWhile_sublist _).map _))
      rw [AllAccounted,forall_mem_cons,hl]
      simpa [hpar,hsome] using fun _ => h.2.2
end Stacks

inductive CacheCall
  | view (op : StackOp)
  | emplaceCoin (layer : Nat) (outpoint : COutPoint) (coin : Coin)
  | batchWrite (layer : Nat) (hashBlock : Uint256) (entries : CacheEntries)

namespace CoinsStack
variable (stack : CoinsStack)
def WalksMap : CacheCall → Prop
  | .view (.flush layer order) =>
    ∀ cache ∈ stack.caches[layer]?, CCoinsViewCache.Enumerates order cache
  | _ => True

instance (stack : CoinsStack) : (call : CacheCall) → Decidable (stack.WalksMap call)
  | .view (.flush _ _) => inferInstanceAs (Decidable (∀ _ ∈ _, _))
  | .view (.getCoin _ _) | .view (.haveCoin _ _) | .view (.accessCoin _ _) | .view (.addCoin _ _ _ _)
  | .view (.spendCoin _ _) | .view (.uncache _ _) | .emplaceCoin _ _ _ | .batchWrite _ _ _ =>
    isTrue trivial

def onLayer (layer : Nat) (f : CCoinsViewCache → CCoinsViewCache) : CoinsStack :=
  match stack.caches.drop layer with
  | [] => stack
  | cache::below => stack.withLayers layer (f cache::below)

def afterCall (call : CacheCall) : Option CoinsStack :=
  if stack.WalksMap call then
    match call with
    | .view op => some (stack.step op).2
    | .emplaceCoin layer outpoint coin =>
      some (stack.onLayer layer (·.emplaceCoinInternalDANGER outpoint coin))
    | .batchWrite layer hashBlock entries =>
      some (stack.onLayer layer fun cache => (cache.batchWrite hashBlock entries).2.1)
  else none

/-- The calls that move the counter and the map alike. -/
def KeepsCount : CacheCall → Prop
  | .view (.addCoin layer outpoint coin possibleOverwrite) =>
    ∀ cache ∈ stack.caches[layer]?, cache.AddKeepsCount outpoint coin possibleOverwrite
  | .view (.flush layer order) => FlushKeepsCount order (stack.caches.drop layer)
  | .emplaceCoin layer outpoint coin =>
    ∀ cache ∈ stack.caches[layer]?,
      (cache.cacheCoins.lookup outpoint).isSome → coin.dynamicMemoryUsage = 0#64
  | _ => True

def Accounted : Prop := AllAccounted stack.caches
section Calls
variable {stack : CoinsStack} (layer : Nat)
section
variable (h : stack.Accounted)
include h

private theorem accounted_withLayers (caches : List CCoinsViewCache) :
    (stack.withLayers layer caches).Accounted ↔ AllAccounted caches := by
  have ha : AllAccounted (stack.caches.take layer) := fun cache hcache => h cache (mem_of_mem_take hcache)
  simp only [Accounted,AllAccounted,withLayers,forall_mem_append]
  exact and_iff_right ha

private theorem accounted_drop : AllAccounted (stack.caches.drop layer) :=
  fun cache hcache => h cache (mem_of_mem_drop hcache)

private theorem accounted_onLayer {f : CCoinsViewCache → CCoinsViewCache}
    {P : CCoinsViewCache → Prop} (hf : ∀ cache, cache.Accounted → ((f cache).Accounted ↔ P cache)) :
    (stack.onLayer layer f).Accounted ↔ ∀ cache ∈ stack.caches[layer]?, P cache := by
  have hd := accounted_drop layer h
  rw [← head?_drop,onLayer]
  cases hl : stack.caches.drop layer with
  | nil => simpa using h
  | cons cache below =>
    rw [hl,AllAccounted,forall_mem_cons] at hd
    rw [accounted_withLayers layer h,AllAccounted,forall_mem_cons,hf cache hd.1]
    simpa using fun _ => hd.2

private theorem accounted_step {op : StackOp} (hw : stack.WalksMap (.view op)) :
    (stack.step op).2.Accounted ↔ stack.KeepsCount (.view op) := by
  have hf : ∀ layer outpoint, (stack.withLayers layer
      (fetchCoin stack.store outpoint (stack.caches.drop layer)).2).Accounted := by
    intro layer outpoint
    rw [accounted_withLayers layer h]
    exact fetchCoin_accounted stack.store outpoint (accounted_drop layer h)
  cases op with
  | getCoin layer outpoint => exact iff_of_true (hf layer outpoint) trivial
  | haveCoin layer outpoint => exact iff_of_true (hf layer outpoint) trivial
  | accessCoin layer outpoint => exact iff_of_true (hf layer outpoint) trivial
  | addCoin layer outpoint coin possibleOverwrite =>
    have hadd := accounted_onLayer layer h fun cache hc =>
      hc.addCoin_iff outpoint coin possibleOverwrite
    rw [KeepsCount,← hadd,step,onLayer]
    cases stack.caches.drop layer <;> rfl
  | spendCoin layer outpoint =>
    refine iff_of_true ?_ trivial
    exact (accounted_withLayers layer h _).mpr (spendThrough_accounted outpoint (accounted_drop layer h))
  | uncache layer outpoint =>
    have hu := (accounted_onLayer layer h fun cache hc =>
      iff_of_true (hc.uncache outpoint) trivial).mpr fun _ _ => trivial
    refine iff_of_true ?_ trivial
    rw [onLayer] at hu
    rw [step]
    cases hl : stack.caches.drop layer with
    | nil => exact h
    | cons cache below =>
      rw [hl] at hu
      exact hu
  | flush layer order =>
    have hl := accounted_withLayers layer h (flushFirst stack.store order (stack.caches.drop layer)).2.1
    have hfl : AllAccounted (flushFirst stack.store order (stack.caches.drop layer)).2.1 ↔
        FlushKeepsCount order (stack.caches.drop layer) := by
      have hd := accounted_drop layer h
      simp only [WalksMap,← head?_drop] at hw
      cases hca : stack.caches.drop layer with
      | nil => exact iff_of_true (fun _ hc => nomatch hc) trivial
      | cons cache below =>
        rw [hca] at hd hw
        exact accounted_flushFirst hd (hw cache rfl)
    exact hl.trans hfl

theorem accounted_afterCall {call : CacheCall} {stack' : CoinsStack}
    (ha : stack.afterCall call = some stack') : stack'.Accounted ↔ stack.KeepsCount call := by
  unfold afterCall at ha
  split at ha
  next hw =>
    cases call with
    | view op =>
      cases ha
      exact accounted_step h hw
    | emplaceCoin layer outpoint coin =>
      cases ha
      exact accounted_onLayer layer h fun cache hc => hc.emplaceCoin_iff outpoint coin
    | batchWrite layer hashBlock entries =>
      cases ha
      refine iff_of_true ((accounted_onLayer layer h fun cache hc => ?_).mpr fun _ _ => trivial) trivial
      exact iff_of_true (hc.batchWrite hashBlock entries) trivial
  · cases ha
end
end Calls

/-- The counters of new caches stay right exactly as long as every call moves counter and map alike. -/
theorem cachedCoinsUsage_accounted_iff (layers : Nat) (store : UtxoView) (calls : List CacheCall) :
    Run.EveryState afterCall Accounted (fresh layers store) calls ↔
      Run.EveryStep afterCall KeepsCount (fresh layers store) calls := by
  have hfresh : (fresh layers store).Accounted := by
    intro cache hcache
    rw [eq_of_mem_replicate hcache]
    rfl
  exact Run.everyState_iff_everyStep (I := fun _ => True) (fun _ _ _ _ _ => trivial)
    (fun _ _ _ _ haccounted hafter => accounted_afterCall haccounted hafter) calls _ trivial hfresh

def longScriptCoin : Coin := ⟨⟨5, List.replicate 29 0x51⟩, false, 1⟩

/-- The second addition throws, and leaves a coin of 48 bytes that the counter has lost. -/
theorem refusedCoin_uncounted :
    (Run.run afterCall (fresh 1 UtxoView.empty) [.view (.addCoin 0 ⟨1#256, 0⟩ longScriptCoin false),
        .view (.addCoin 0 ⟨1#256, 0⟩ longScriptCoin false)]).map
      (fun stack => stack.caches.map fun cache => (cache.cachedCoinsUsage, cache.coinsUsage)) =
      some [(0#64, 48)] := by
  decide
end CoinsStack
end Lcryp
