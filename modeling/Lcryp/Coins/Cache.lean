import Lcryp.Coins.View

/-!
# Stacks of coin caches

`CCoinsViewCache` layers over a store, the top layer first.  Reading through a layer fills every layer it
passes.
-/
namespace Lcryp
open WriteLog
structure CCoinsCacheEntry where
  coin : Coin
  dirty : Bool
  fresh : Bool
deriving DecidableEq

def CCoinsCacheEntry.unspentCoin (entry : CCoinsCacheEntry) : Option Coin :=
  if entry.coin.isSpent then none else some entry.coin
abbrev CCoinsMap := KeyMap COutPoint CCoinsCacheEntry
abbrev CacheEntries := List (COutPoint × CCoinsCacheEntry)

/-- `memusage::MallocUsage` on a 64-bit platform. -/
def mallocUsage (alloc : Nat) : Nat := if alloc = 0 then 0 else (alloc+31) / 16 * 16

/-- `Coin::DynamicMemoryUsage`: scripts above 28 bytes are allocated, in their own size. -/
def Coin.dynamicMemoryUsage (coin : Coin) : BitVec 64 :=
  let size := coin.out.scriptPubKey.length
  BitVec.ofNat 64 (mallocUsage (if size ≤ 28 then 0 else size))

structure CCoinsViewCache where
  hashBlock : Uint256
  cacheCoins : CCoinsMap
  cachedCoinsUsage : BitVec 64
deriving DecidableEq

namespace CCoinsViewCache
def empty : CCoinsViewCache := ⟨0#256, ∅, 0#64⟩

variable (cache : CCoinsViewCache) (outpoint : COutPoint)
def setEntry (entry : Option CCoinsCacheEntry) (usage : BitVec 64) : CCoinsViewCache :=
  { cache with
    cacheCoins := write cache.cacheCoins (outpoint, entry)
    cachedCoinsUsage := usage }

/-- `AddCoin`; a throw comes after the old coin's usage was taken off. -/
def addCoin (coin : Coin) (possibleOverwrite : Bool) : Except ValidationStop Unit × CCoinsViewCache :=
  if coin.isSpent then (.error .assertion, cache)
  else if coin.out.scriptPubKey.isUnspendable then (.ok (), cache)
  else
    let found := cache.cacheCoins.lookup outpoint
    let entry := found.getD ⟨Coin.empty, false, false⟩
    let usage := match found with
      | none => cache.cachedCoinsUsage
      | some old => cache.cachedCoinsUsage - old.coin.dynamicMemoryUsage
    if !possibleOverwrite && !entry.coin.isSpent then
      (.error UtxoView.overwriteError, { cache with cachedCoinsUsage := usage })
    else
      let fresh := !possibleOverwrite && !entry.dirty
      (.ok (), cache.setEntry outpoint (some ⟨coin, true, entry.fresh || fresh⟩)
        (usage+coin.dynamicMemoryUsage))

variable (entry : CCoinsCacheEntry)
/-- The part of `SpendCoin` after a successful `FetchCoin`. -/
def clearEntry : CCoinsViewCache :=
  cache.setEntry outpoint (if entry.fresh then none else some ⟨Coin.empty, true, entry.fresh⟩)
    (cache.cachedCoinsUsage-entry.coin.dynamicMemoryUsage)

def uncache : CCoinsViewCache :=
  match cache.cacheCoins.lookup outpoint with
  | none => cache
  | some entry =>
    if !entry.dirty && !entry.fresh then
      cache.setEntry outpoint none (cache.cachedCoinsUsage-entry.coin.dynamicMemoryUsage)
    else cache

def misappliedError : ValidationStop := .exception "FRESH flag misapplied to coin that exists in parent cache"

/-- One iteration of `BatchWrite`: an entry of the child meets this cache. -/
def batchWriteEntry : Except ValidationStop CCoinsViewCache :=
  if !entry.dirty then .ok cache
  else
    match cache.cacheCoins.lookup outpoint with
    | none =>
      if entry.fresh && entry.coin.isSpent then .ok cache
      else
        .ok (cache.setEntry outpoint (some ⟨entry.coin, true, entry.fresh⟩)
          (cache.cachedCoinsUsage+entry.coin.dynamicMemoryUsage))
    | some us =>
      if entry.fresh && !us.coin.isSpent then .error misappliedError
      else if us.fresh && entry.coin.isSpent then
        .ok (cache.setEntry outpoint none (cache.cachedCoinsUsage-us.coin.dynamicMemoryUsage))
      else
        .ok (cache.setEntry outpoint (some ⟨entry.coin, true, us.fresh⟩)
          (cache.cachedCoinsUsage - us.coin.dynamicMemoryUsage + entry.coin.dynamicMemoryUsage))

/-- `BatchWrite`; the list returned holds the entries that a throw leaves in the child's map. -/
def batchWrite (cache : CCoinsViewCache) (hashBlockIn : Uint256) :
    CacheEntries →
      Except ValidationStop Unit × CCoinsViewCache × CacheEntries
  | [] => (.ok (), { cache with hashBlock := hashBlockIn }, [])
  | (outpoint, entry)::rest =>
    match cache.batchWriteEntry outpoint entry with
    | .error stop => (.error stop, cache, (outpoint, entry)::rest)
    | .ok cache' => batchWrite cache' hashBlockIn rest

variable (order : List COutPoint)
def entriesIn : CacheEntries :=
  order.filterMap fun outpoint => (cache.cacheCoins.lookup outpoint).map (outpoint, ·)
def Enumerates (cache : CCoinsViewCache) : Prop := order.Nodup ∧ order.toFinset = cache.cacheCoins.keys
instance (order : List COutPoint) (cache : CCoinsViewCache) : Decidable (Enumerates order cache) :=
  inferInstanceAs (Decidable (_ ∧ _))
end CCoinsViewCache

variable (store : UtxoView)
/-- One dirty entry written to a store that keeps one map; a spent coin is erased. -/
def UtxoView.batchWriteEntry (item : COutPoint × CCoinsCacheEntry) : UtxoView :=
  if !item.2.dirty then store
  else if h : item.2.coin.isSpent = false then store.insert item.1 item.2.coin h
  else store.erase item.1

def UtxoView.batchWrite (hashBlock : Uint256) (entries : CacheEntries) : UtxoView :=
  { entries.foldl UtxoView.batchWriteEntry store with bestBlock := hashBlock }

/-- `FetchCoin`: the entry found, and the layers with what the search filled in.  Below the last
cache stands the store's `GetCoin`. -/
def fetchCoin (store : UtxoView) (outpoint : COutPoint) :
    List CCoinsViewCache → Option CCoinsCacheEntry × List CCoinsViewCache
  | [] => ((store.coins.lookup outpoint).map (⟨·, false, false⟩), [])
  | cache::below =>
    match cache.cacheCoins.lookup outpoint with
    | some entry => (some entry, cache::below)
    | none =>
      let base := fetchCoin store outpoint below
      match base.1.bind CCoinsCacheEntry.unspentCoin with
      | none => (none, cache::base.2)
      | some tmp =>
        let entry : CCoinsCacheEntry := ⟨tmp, false, tmp.isSpent⟩
        (some entry, cache.setEntry outpoint (some entry)
          (cache.cachedCoinsUsage+tmp.dynamicMemoryUsage)::base.2)

/-- `SpendCoin` with its `moveout` coin. -/
def spendThrough (outpoint : COutPoint) (caches : List CCoinsViewCache) : Bool × Coin × List CCoinsViewCache :=
  match fetchCoin store outpoint caches with
  | (some entry, cache::below) =>
    (true, entry.coin, cache.clearEntry outpoint entry::below)
  | (_, caches') => (false, Coin.empty, caches')

/-- `Flush` of the first layer, whose map is walked in the given order. -/
def flushFirst (order : List COutPoint) :
    List CCoinsViewCache → Except ValidationStop Unit × List CCoinsViewCache × UtxoView
  | [] => (.error .assertion, [], store)
  | [cache] =>
    (.ok (), [{ cache with cacheCoins := ∅, cachedCoinsUsage := 0#64 }],
      store.batchWrite cache.hashBlock (cache.entriesIn order))
  | cache::parent::below =>
    match parent.batchWrite cache.hashBlock (cache.entriesIn order) with
    | (.error stop, parent', remaining) =>
      let left := replay ∅ (remaining.map fun item => (item.1, some item.2))
      (.error stop, { cache with cacheCoins := left }::parent'::below, store)
    | (.ok (), parent', _) =>
      (.ok (), { cache with cacheCoins := ∅, cachedCoinsUsage := 0#64 }::parent'::below, store)

structure CoinsStack where
  caches : List CCoinsViewCache
  store : UtxoView

/-- A call on one layer; layer 0 is the top. -/
inductive StackOp
  | getCoin (layer : Nat) (outpoint : COutPoint)
  | haveCoin (layer : Nat) (outpoint : COutPoint)
  | accessCoin (layer : Nat) (outpoint : COutPoint)
  | addCoin (layer : Nat) (outpoint : COutPoint) (coin : Coin) (possibleOverwrite : Bool)
  | spendCoin (layer : Nat) (outpoint : COutPoint)
  | uncache (layer : Nat) (outpoint : COutPoint)
  | flush (layer : Nat) (order : List COutPoint)

inductive StackAnswer
  | found (coin : Option Coin)
  | have (present : Bool)
  | accessed (coin : Coin)
  | movedOut (coin : Coin)
  | done
deriving DecidableEq

namespace CoinsStack
def fresh (layers : Nat) (store : UtxoView) : CoinsStack := ⟨List.replicate layers CCoinsViewCache.empty, store⟩

variable (stack : CoinsStack)
def withLayers (layer : Nat) (caches : List CCoinsViewCache) : CoinsStack :=
  { stack with caches := stack.caches.take layer++caches }

def step : StackOp → Except ValidationStop StackAnswer × CoinsStack
  | .getCoin layer outpoint =>
    let fetched := fetchCoin stack.store outpoint (stack.caches.drop layer)
    (.ok (.found (fetched.1.bind CCoinsCacheEntry.unspentCoin)), stack.withLayers layer fetched.2)
  | .haveCoin layer outpoint =>
    let fetched := fetchCoin stack.store outpoint (stack.caches.drop layer)
    (.ok (.have (fetched.1.any fun entry => !entry.coin.isSpent)), stack.withLayers layer fetched.2)
  | .accessCoin layer outpoint =>
    let fetched := fetchCoin stack.store outpoint (stack.caches.drop layer)
    (.ok (.accessed ((fetched.1.map CCoinsCacheEntry.coin).getD Coin.empty)), stack.withLayers layer fetched.2)
  | .addCoin layer outpoint coin possibleOverwrite =>
    match stack.caches.drop layer with
    | [] => (.error .assertion, stack)
    | cache::below =>
      let added := cache.addCoin outpoint coin possibleOverwrite
      (added.1.map fun _ => .done, stack.withLayers layer (added.2::below))
  | .spendCoin layer outpoint =>
    let spent := spendThrough stack.store outpoint (stack.caches.drop layer)
    (.ok (.movedOut spent.2.1), stack.withLayers layer spent.2.2)
  | .uncache layer outpoint =>
    match stack.caches.drop layer with
    | [] => (.error .assertion, stack)
    | cache::below => (.ok .done, stack.withLayers layer (cache.uncache outpoint::below))
  | .flush layer order =>
    let flushed := flushFirst stack.store order (stack.caches.drop layer)
    (flushed.1.map fun _ => .done, { stack.withLayers layer flushed.2.1 with store := flushed.2.2 })

def runOps : CoinsStack → List StackOp → Except ValidationStop (List StackAnswer) × CoinsStack
  | stack, [] => (.ok [], stack)
  | stack, op::rest =>
    match stack.step op with
    | (.error stop, stack') => (.error stop, stack')
    | (.ok answer, stack') =>
      let tail := runOps stack' rest
      (tail.1.map (answer::·), tail.2)
end CoinsStack
end Lcryp
