import Lcryp.Coins.CacheRefinement

/-!
# Runs over a stack of caches

Calls may address any layer above which nothing is cached; `Uncache` and `Flush` may address every layer.
-/
namespace Lcryp
open Interaction WriteLog List UtxoView CCoinsCacheEntry
def flatStep (flat : CoinMap) : StackOp → StackAnswer × CoinMap
  | .getCoin _ outpoint => (.found (flat.lookup outpoint), flat)
  | .haveCoin _ outpoint => (.have (flat.lookup outpoint).isSome, flat)
  | .accessCoin _ outpoint => (.accessed ((flat.lookup outpoint).getD Coin.empty), flat)
  | .addCoin _ outpoint coin _ =>
    (.done, if coin.out.scriptPubKey.isUnspendable then flat else write flat (outpoint, some coin))
  | .spendCoin _ outpoint =>
    (.movedOut ((flat.lookup outpoint).getD Coin.empty), write flat (outpoint, none))
  | .uncache _ _ => (.done, flat)
  | .flush _ _ => (.done, flat)

def flatRun : CoinMap → List StackOp → List StackAnswer × CoinMap
  | flat, [] => ([], flat)
  | flat, op::rest =>
    let first := flatStep flat op
    let tail := flatRun first.2 rest
    (first.1::tail.1, tail.2)

namespace CoinsStack
variable (stack : CoinsStack)
/-- The layer exists and nothing is cached above it. -/
def Exposed (layer : Nat) : Prop :=
  layer < stack.caches.length ∧ ∀ cache ∈ stack.caches.take layer, cache.cacheCoins = ∅
instance (stack : CoinsStack) (layer : Nat) : Decidable (stack.Exposed layer) :=
  inferInstanceAs (Decidable (_ ∧ _))

def Admissible : StackOp → Prop
  | .getCoin layer _ => stack.Exposed layer
  | .haveCoin layer _ => stack.Exposed layer
  | .accessCoin layer _ => stack.Exposed layer
  | .addCoin layer outpoint coin possibleOverwrite =>
    stack.Exposed layer ∧ coin.isSpent = false ∧
      (possibleOverwrite = false → viewCoin stack.store outpoint (stack.caches.drop layer) = none)
  | .spendCoin layer _ => stack.Exposed layer
  | .uncache layer _ => layer < stack.caches.length
  | .flush layer order =>
    ∃ h : layer < stack.caches.length, CCoinsViewCache.Enumerates order stack.caches[layer]

instance (stack : CoinsStack) : (op : StackOp) → Decidable (stack.Admissible op)
  | .getCoin _ _ | .haveCoin _ _ | .accessCoin _ _ | .spendCoin _ _ =>
    inferInstanceAs (Decidable (stack.Exposed _))
  | .addCoin _ _ _ _ => inferInstanceAs (Decidable (_ ∧ _ ∧ (_ → _)))
  | .uncache _ _ => inferInstanceAs (Decidable (_ < _))
  | .flush _ _ => inferInstanceAs (Decidable (∃ _ : _, _))

def AdmissibleRun : CoinsStack → List StackOp → Prop
  | _, [] => True
  | stack, op::rest => stack.Admissible op ∧ AdmissibleRun (stack.step op).2 rest

instance : (stack : CoinsStack) → (ops : List StackOp) → Decidable (stack.AdmissibleRun ops)
  | _, [] => isTrue trivial
  | stack, op::rest =>
    have : Decidable ((stack.step op).2.AdmissibleRun rest) := instDecidableAdmissibleRun (stack.step op).2 rest
    inferInstanceAs (Decidable (_ ∧ _))

structure Shows (stack : CoinsStack) (flat : CoinMap) : Prop where
  layersOk : LayersOk stack.store stack.caches
  view : ∀ outpoint, viewCoin stack.store outpoint stack.caches = flat.lookup outpoint

section Step
variable {stack : CoinsStack} {flat : CoinMap} {layer : Nat}
theorem Exposed.view (he : stack.Exposed layer) (hshows : stack.Shows flat) (o : COutPoint) :
    viewCoin stack.store o (stack.caches.drop layer) = flat.lookup o := by
  rw [← hshows.view,← viewCoin_above_empty _ he.2,take_append_drop]

theorem Shows.drop (hshows : stack.Shows flat) (layer : Nat) :
    LayersOk stack.store (stack.caches.drop layer) := by
  refine layersOk_drop (stack.caches.take layer) ?_
  rw [take_append_drop]
  exact hshows.layersOk

variable {caches : List CCoinsViewCache}
theorem Exposed.shows (he : stack.Exposed layer) {flat' : CoinMap}
    (hok : LayersOk stack.store caches) (hv : ∀ o, viewCoin stack.store o caches = flat'.lookup o) :
    (stack.withLayers layer caches).Shows flat' := by
  refine ⟨layersOk_above_empty _ he.2 hok,?_⟩
  intro o
  rw [withLayers,viewCoin_above_empty _ he.2]
  exact hv o

theorem Shows.replace (hshows : stack.Shows flat) {store : UtxoView} (hok : LayersOk store caches)
    (hv : ∀ o, viewCoin store o caches = viewCoin stack.store o (stack.caches.drop layer)) :
    Shows { stack.withLayers layer caches with store := store } flat := by
  have hs : stack.caches.take layer++stack.caches.drop layer = stack.caches :=
    take_append_drop layer stack.caches
  have hl := hshows.layersOk
  rw [← hs] at hl
  refine ⟨layersOk_replace _ hl hok hv,?_⟩
  intro o
  rw [← hshows.view o,withLayers,viewCoin_replace _ hv,hs]

private theorem withLayers_length (h : layer < stack.caches.length)
    (hlen : caches.length = (stack.caches.drop layer).length) :
    (stack.withLayers layer caches).caches.length = stack.caches.length := by
  simp only [withLayers,length_append,length_take,hlen,length_drop]
  omega

private theorem drop_eq_cons (h : layer < stack.caches.length) :
    ∃ below, stack.caches.drop layer = stack.caches[layer]::below :=
  ⟨_,drop_eq_getElem_cons h⟩
section Refine
variable (hshows : stack.Shows flat)
include hshows

theorem fetch_refines (he : stack.Exposed layer) (outpoint : COutPoint) :
    let r := fetchCoin stack.store outpoint (stack.caches.drop layer)
    Fetched stack.store outpoint (stack.caches.drop layer) r.1 r.2 ∧ (stack.withLayers layer r.2).Shows flat ∧
      (stack.withLayers layer r.2).caches.length = stack.caches.length := by
  have hfet := fetchCoin_fetched outpoint (hshows.drop layer)
  refine ⟨hfet,he.shows hfet.layersOk ?_,withLayers_length he.1 hfet.length⟩
  intro o
  rw [hfet.view,he.view hshows]

/-- A step of the stack answers like the flat map and goes on showing it. -/
def Refines (stack : CoinsStack) (flat : CoinMap) (op : StackOp) : Prop :=
  (stack.step op).1 = .ok (flatStep flat op).1 ∧ (stack.step op).2.Shows (flatStep flat op).2 ∧
    (stack.step op).2.caches.length = stack.caches.length

private theorem addCoin_refines {outpoint : COutPoint} {coin : Coin} {possibleOverwrite : Bool}
    (hop : stack.Admissible (.addCoin layer outpoint coin possibleOverwrite)) :
    stack.Refines flat (.addCoin layer outpoint coin possibleOverwrite) := by
  obtain ⟨he,hu,hf⟩ := hop
  obtain ⟨below,hd⟩ := drop_eq_cons he.1
  have hok := hshows.drop layer
  rw [hd] at hok hf
  obtain ⟨cache',hadd,_,hok',hv⟩ := addCoin_shown hok hu fun h _ => hf h
  simp only [Refines,step,hd,hadd]
  refine ⟨rfl,he.shows hok' ?_,withLayers_length he.1 (by simp [hd])⟩
  intro o
  rw [hv,← hd,he.view hshows,flatStep]
  by_cases hscr : coin.out.scriptPubKey.isUnspendable = true
  · simp [hscr]
  · simp [hscr,lookup_write]

private theorem spendCoin_refines (he : stack.Exposed layer) (outpoint : COutPoint) :
    stack.Refines flat (.spendCoin layer outpoint) := by
  obtain ⟨below,hd⟩ := drop_eq_cons he.1
  have hok := hshows.drop layer
  rw [hd] at hok
  obtain ⟨fOk,cache',below',hs,_,hb,hok',hv⟩ := spendThrough_ok outpoint hok
  have hlen := congrArg length hb
  rw [← hd] at hv hs
  rw [he.view hshows] at hs
  simp only [Refines,step,hs,flatStep]
  refine ⟨trivial,he.shows hok' ?_,withLayers_length he.1 (by simpa [hd] using hlen)⟩
  intro o
  rw [hv,he.view hshows,lookup_write]

theorem step_refines {op : StackOp} (hop : stack.Admissible op) : stack.Refines flat op := by
  cases op with
  | getCoin layer outpoint =>
    obtain ⟨hfet,hr⟩ := fetch_refines hshows hop outpoint
    refine ⟨?_,hr⟩
    simp [step,flatStep,hfet.answer,hop.view hshows]
  | haveCoin layer outpoint =>
    obtain ⟨hfet,hr⟩ := fetch_refines hshows hop outpoint
    refine ⟨?_,hr⟩
    simp only [step,flatStep,← hop.view hshows,← hfet.answer]
    cases (fetchCoin stack.store outpoint (stack.caches.drop layer)).1 with
    | none => rfl
    | some entry =>
      by_cases hs : entry.coin.isSpent = true <;> simp [unspentCoin,hs]
  | accessCoin layer outpoint =>
    obtain ⟨hfet,hr⟩ := fetch_refines hshows hop outpoint
    refine ⟨?_,hr⟩
    simp only [step,flatStep,← hop.view hshows,← hfet.answer]
    have hclr := hfet.cleared
    cases hfo : (fetchCoin stack.store outpoint (stack.caches.drop layer)).1 with
    | none => rfl
    | some entry =>
      by_cases hs : entry.coin.isSpent = true
      · simp [unspentCoin,hclr entry hfo hs]
      · simp [unspentCoin,hs]
  | addCoin layer outpoint coin possibleOverwrite => exact addCoin_refines hshows hop
  | spendCoin layer outpoint => exact spendCoin_refines hshows hop outpoint
  | uncache layer outpoint =>
    obtain ⟨below,hd⟩ := drop_eq_cons hop
    have hok := hshows.drop layer
    rw [hd] at hok
    obtain ⟨hok',hv⟩ := uncache_ok outpoint hok
    rw [← hd] at hv
    simp only [Refines,step,hd]
    exact ⟨rfl,hshows.replace hok' hv,withLayers_length hop (by simp [hd])⟩
  | flush layer order =>
    obtain ⟨hl,he⟩ := hop
    obtain ⟨below,hd⟩ := drop_eq_cons hl
    have hok := hshows.drop layer
    rw [hd] at hok
    obtain ⟨cache',below',store',hf,_,hlen,hok',hv⟩ := flushFirst_ok hok he
    rw [← hd] at hv hf
    simp only [Refines,step,hf]
    exact ⟨rfl,hshows.replace hok' hv,withLayers_length hl (by simp [hd,hlen])⟩

theorem runOps_refines {ops : List StackOp} (hops : stack.AdmissibleRun ops) :
    (stack.runOps ops).1 = .ok (flatRun flat ops).1 ∧ (stack.runOps ops).2.Shows (flatRun flat ops).2 ∧
      (stack.runOps ops).2.caches.length = stack.caches.length := by
  induction ops generalizing stack flat with
  | nil => exact ⟨rfl,hshows,rfl⟩
  | cons op rest ih =>
    obtain ⟨hans,hsh,hlen⟩ := step_refines hshows hops.1
    obtain ⟨ha,hs,hl⟩ := ih hsh hops.2
    rw [runOps,show stack.step op = (.ok (flatStep flat op).1, (stack.step op).2) from Prod.ext hans rfl]
    refine ⟨?_,hs,hl.trans hlen⟩
    simp only [ha]
    rfl
end Refine

def flushOps : Nat → List (List COutPoint) → List StackOp
  | _, [] => []
  | layer, order::rest => .flush layer order::flushOps (layer+1) rest

theorem flushOps_store (orders : List (List COutPoint)) (hshows : stack.Shows flat)
    (hemp : ∀ cache ∈ stack.caches.take layer, cache.cacheCoins = ∅)
    (hlen : stack.caches.length = layer + orders.length) (hops : stack.AdmissibleRun (flushOps layer orders)) :
    (stack.runOps (flushOps layer orders)).2.store.coins = flat := by
  induction orders generalizing stack layer with
  | nil =>
    apply Finmap.ext_lookup
    intro o
    have hall : stack.caches.take layer = stack.caches := take_of_length_le hlen.le
    rw [hall] at hemp
    have hv := hshows.view o
    rw [← append_nil stack.caches,viewCoin_above_empty _ hemp] at hv
    exact hv
  | cons order rest ih =>
    obtain ⟨hans,hs,hle⟩ := step_refines hshows hops.1
    obtain ⟨hl,he⟩ := hops.1
    obtain ⟨below,hd⟩ := drop_eq_cons hl
    have hok := hshows.drop layer
    rw [hd] at hok
    obtain ⟨cache',below',store',hf,hclr,_,_,_⟩ := flushFirst_ok hok he
    rw [flushOps,runOps,show stack.step (.flush layer order) =
      (.ok (flatStep flat (.flush layer order)).1, (stack.step (.flush layer order)).2) from
        Prod.ext hans rfl]
    refine ih hs ?_ ?_ hops.2
    · intro cache hc
      simp only [step,hd,hf,withLayers] at hc
      rw [take_append,take_take,length_take,Nat.min_eq_left hl.le,Nat.min_eq_right (Nat.le_succ layer),
        mem_append] at hc
      rcases hc with ha | hh
      · exact hemp cache ha
      · obtain rfl : cache = cache' := by simpa using hh
        exact hclr
    · rw [hle,hlen,length_cons]
      omega
end Step

theorem fresh_shows (layers : Nat) (store : UtxoView) : (fresh layers store).Shows store.coins := by
  have hemp : ∀ cache ∈ replicate layers CCoinsViewCache.empty, cache.cacheCoins = ∅ := by
    intro cache hcache
    rw [eq_of_mem_replicate hcache]
    rfl
  constructor
  · rw [fresh,← append_nil (replicate _ _)]
    exact layersOk_above_empty _ hemp trivial
  · intro o
    rw [fresh,← append_nil (replicate _ _),viewCoin_above_empty _ hemp]
    rfl

/-- A stack of caches is one map: admissible calls answer as it does, and flushing every layer leaves it in
the store. -/
theorem cacheStack_refines_flat (layers : Nat) (store : UtxoView) (ops : List StackOp)
    (hops : (fresh layers store).AdmissibleRun ops) :
    let final := (fresh layers store).runOps ops
    final.1 = .ok (flatRun store.coins ops).1 ∧
      ∀ orders : List (List COutPoint), orders.length = layers → final.2.AdmissibleRun (flushOps 0 orders) →
        (∃ answers, (final.2.runOps (flushOps 0 orders)).1 = .ok answers) ∧
          (final.2.runOps (flushOps 0 orders)).2.store.coins = (flatRun store.coins ops).2 := by
  obtain ⟨hanss,hshows,hlen⟩ := runOps_refines (fresh_shows layers store) hops
  refine ⟨hanss,?_⟩
  intro orders horders hflush
  refine ⟨⟨_,(runOps_refines hshows hflush).1⟩,?_⟩
  refine flushOps_store orders hshows (by simp) ?_ hflush
  rw [hlen,fresh,length_replicate,horders,Nat.zero_add]

def oneCoinStore : UtxoView := empty.insert ⟨0#256, 0⟩ ⟨⟨5, []⟩, false, 1⟩ rfl
def spendAndAdd : List StackOp :=
  [.getCoin 0 ⟨0#256, 0⟩, .spendCoin 0 ⟨0#256, 0⟩,.addCoin 0 ⟨1#256, 0⟩ ⟨⟨4, []⟩, false, 2⟩ false,
    .flush 0 [⟨1#256, 0⟩, ⟨0#256, 0⟩], .accessCoin 1 ⟨1#256, 0⟩, .haveCoin 0 ⟨0#256, 0⟩,
    .addCoin 1 ⟨2#256, 0⟩ ⟨⟨3, []⟩, false, 2⟩ false, .spendCoin 1 ⟨2#256, 0⟩]

theorem spendAndAdd_refines :
    let final := (fresh 2 oneCoinStore).runOps spendAndAdd
    final.1 = .ok (flatRun oneCoinStore.coins spendAndAdd).1 ∧
      (final.2.runOps (flushOps 0 [[],[⟨0#256,0⟩,⟨1#256,0⟩]])).2.store.coins =
        (flatRun oneCoinStore.coins spendAndAdd).2 :=
  have hrefines := cacheStack_refines_flat 2 oneCoinStore spendAndAdd (by decide)
  ⟨hrefines.1,(hrefines.2 [[],[⟨0#256,0⟩,⟨1#256,0⟩]] rfl (by decide)).2⟩
end CoinsStack

/-- `GetBestBlock`, which remembers in every layer it passes what its base answered. -/
def fetchBestBlock (store : UtxoView) : List CCoinsViewCache → Uint256 × List CCoinsViewCache
  | [] => (store.bestBlock, [])
  | cache::below =>
    if cache.hashBlock = 0#256 then
      let base := fetchBestBlock store below
      (base.1, { cache with hashBlock := base.1 }::base.2)
    else (cache.hashBlock, cache::below)

namespace CoinsStack
def handle : CoinsHandler CoinsStack
  | .getCoin outpoint, stack =>
    let fetched := fetchCoin stack.store outpoint stack.caches
    .ok (fetched.1.bind unspentCoin, { stack with caches := fetched.2 })
  | .addCoin outpoint coin possibleOverwrite, stack =>
    match stack.caches with
    | [] => .error .assertion
    | cache::below =>
      match cache.addCoin outpoint coin possibleOverwrite with
      | (.error stop, _) => .error stop
      | (.ok (), cache') => .ok ((), { stack with caches := cache'::below })
  | .spendCoin outpoint, stack =>
    let spent := spendThrough stack.store outpoint stack.caches
    .ok (if spent.1 && !spent.2.1.isSpent then some spent.2.1 else none,
      { stack with caches := spent.2.2 })
  | .getBestBlock, stack =>
    let best := fetchBestBlock stack.store stack.caches
    .ok (best.1, { stack with caches := best.2 })
  | .setBestBlock hashBlock, stack =>
    match stack.caches with
    | [] => .error .assertion
    | cache::below =>
      .ok ((), { stack with caches := { cache with hashBlock := hashBlock }::below })
end CoinsStack

def viewBestBlock (store : UtxoView) : List CCoinsViewCache → Uint256
  | [] => store.bestBlock
  | cache::below => if cache.hashBlock = 0#256 then viewBestBlock store below else cache.hashBlock

section Programs
variable {store : UtxoView} {caches caches' : List CCoinsViewCache}
theorem viewBestBlock_congr (h : caches'.map CCoinsViewCache.hashBlock = caches.map CCoinsViewCache.hashBlock) :
    viewBestBlock store caches' = viewBestBlock store caches := by
  induction caches generalizing caches' with
  | nil => rw [map_eq_nil_iff.mp h]
  | cons cache below ih =>
    obtain ⟨cache',below',rfl,hh,hbel⟩ := map_eq_cons_iff.mp h
    rw [viewBestBlock,viewBestBlock,hh,ih hbel]

theorem fetchBestBlock_ok (hok : LayersOk store caches) :
    let r := fetchBestBlock store caches
    r.1 = viewBestBlock store caches ∧ LayersOk store r.2 ∧
      (∀ o, viewCoin store o r.2 = viewCoin store o caches) ∧
      viewBestBlock store r.2 = viewBestBlock store caches ∧ r.2.length = caches.length := by
  induction caches with
  | nil => exact ⟨rfl,trivial,fun _ => rfl,rfl,rfl⟩
  | cons cache below ih =>
    by_cases hn : cache.hashBlock = 0#256
    · obtain ⟨hans,hok',hv,hbe,hlen⟩ := ih hok.2
      have hb : viewBestBlock store (cache::below) = viewBestBlock store below := by
        rw [viewBestBlock,if_pos hn]
      simp only [fetchBestBlock,if_pos hn]
      refine ⟨by rw [hans,hb],layersOk_replace [_] hok hok' hv,viewCoin_replace [_] hv,?_,by simp [hlen]⟩
      rw [viewBestBlock,hans,hbe,hb,ite_self]
    · simp only [fetchBestBlock,if_neg hn]
      refine ⟨?_,hok,fun _ => trivial,trivial,trivial⟩
      rw [viewBestBlock,if_neg hn]

/-- The top of a stack stands for a flat view. -/
structure CoinsStack.Implements (stack : CoinsStack) (view : UtxoView) : Prop where
  layered : ∃ cache below, stack.caches = cache::below
  shows : stack.Shows view.coins
  best : viewBestBlock stack.store stack.caches = view.bestBlock

/-- The top of a stack does what the flat view does, and touches neither the store nor the number of layers.
-/
theorem CoinsStack.handle_simulates {refusal : ValidationStop} (op : CoinsOp) (view : UtxoView)
    (stack : CoinsStack) (answer : coinsInterface.Res op) (view' : UtxoView) (himp : stack.Implements view)
    (hop : UtxoView.handle.guard cacheSafe refusal op view = .ok (answer, view')) :
    ∃ caches', handle op stack = .ok (answer, ⟨caches', stack.store⟩) ∧ caches'.length = stack.caches.length ∧
      CoinsStack.Implements ⟨caches', stack.store⟩ view' := by
  obtain ⟨hsa,hok⟩ := guard_eq_ok.mp hop
  obtain ⟨cache,below,hca⟩ := himp.layered
  have hl := himp.shows.layersOk
  have hvi := himp.shows.view
  have hbe := himp.best
  cases op with
  | getCoin outpoint =>
    cases hok
    have hfet := fetchCoin_fetched outpoint hl
    refine ⟨(fetchCoin stack.store outpoint stack.caches).2,?_,hfet.length,?_,
      ⟨hfet.layersOk,fun o => (hfet.view o).trans (hvi o)⟩,?_⟩
    · rw [handle,hfet.answer,hvi]
    · obtain ⟨cache',below',hc,_⟩ := hfet.first cache below hca
      exact ⟨cache',below',hc⟩
    · exact (viewBestBlock_congr hfet.hashBlocks).trans hbe
  | addCoin outpoint coin possibleOverwrite =>
    rw [hca] at hl hvi hbe
    obtain ⟨hu,hco,hb⟩ := handle_addCoin_eq_ok.mp hok
    have hfr : possibleOverwrite = false → coin.out.scriptPubKey.isUnspendable = false →
        viewCoin stack.store outpoint (cache::below) = none := by
      intro hfl hscr
      rw [hvi]
      simpa [cacheSafe,overwriteFlagged,hu,hfl,hscr] using hsa
    obtain ⟨cache',hadd,hha,hok',hv⟩ := addCoin_shown hl hu hfr
    refine ⟨cache'::below,?_,by rw [hca]; rfl,⟨cache',below,rfl⟩,⟨hok',?_⟩,?_⟩
    · simp only [handle,hca,hadd]
      rfl
    · intro o
      rw [hv,hvi,hco,coinWrites]
      by_cases hscr : coin.out.scriptPubKey.isUnspendable = true
      · simp [hscr]
      · simp [hscr,lookup_write]
    · rw [hb,← hbe]
      exact viewBestBlock_congr (by simp [hha])
  | spendCoin outpoint =>
    cases hok
    rw [hca] at hl hvi hbe
    obtain ⟨fOk,cache',below',hs,hf,hh,hok',hv⟩ := spendThrough_ok outpoint hl
    have hlen := congrArg length hh
    rw [length_map,length_map] at hlen
    refine ⟨cache'::below',?_,by rw [hca]; exact hlen,⟨cache',below',rfl⟩,⟨hok',?_⟩,?_⟩
    · rw [hvi] at hs hf
      simp only [handle,hca,hs]
      cases hci : view.coins.lookup outpoint with
      | none => simp
      | some coin =>
        rw [hci] at hf
        simp [hf rfl,view.unspent outpoint coin hci]
    · intro o
      rw [hv,hvi,erase,lookup_write]
    · exact (viewBestBlock_congr hh).trans hbe
  | getBestBlock =>
    cases hok
    obtain ⟨hans,hok',hv,hb,hlen⟩ := fetchBestBlock_ok hl
    refine ⟨(fetchBestBlock stack.store stack.caches).2,?_,hlen,?_,
      ⟨hok',fun o => (hv o).trans (hvi o)⟩,hb.trans hbe⟩
    · rw [handle,hans,hbe]
    · rw [hca] at hlen ⊢
      exact exists_cons_of_length_pos (by simp [hlen])
  | setBestBlock hashBlock =>
    cases hok
    have hn : hashBlock ≠ 0#256 := by simpa [cacheSafe] using hsa
    rw [hca] at hl hvi
    refine ⟨{ cache with hashBlock := hashBlock }::below,?_,by rw [hca]; rfl,⟨_,below,rfl⟩,⟨hl,hvi⟩,?_⟩
    · rw [handle,hca]
    · rw [viewBestBlock,if_neg hn]

theorem CoinsStack.run_simulates {α : Type} {p : CoinsProgram α} {view view' : UtxoView}
    {cache : CCoinsViewCache} {a : α} (himp : CoinsStack.Implements ⟨[cache], store⟩ view)
    (hrun : p.run cached view = .ok (a, view')) :
    ∃ cache', p.run handle ⟨[cache], store⟩ = .ok (a, ⟨[cache'], store⟩) ∧
      CoinsStack.Implements ⟨[cache'], store⟩ view' := by
  have hop : ∀ op v stack answer v', (stack.store = store ∧ stack.caches.length = 1 ∧ stack.Implements v) →
      cached op v = .ok (answer, v') →
      ∃ stack', handle op stack = .ok (answer, stack') ∧ stack'.store = store ∧
        stack'.caches.length = 1 ∧ stack'.Implements v' := by
    rintro op v stack answer v' ⟨hs,hone,himp⟩ hop
    obtain ⟨caches',hh,hlen,hi⟩ := handle_simulates op v stack answer v' himp hop
    exact ⟨_,hh,hs,hlen.trans hone,hi⟩
  obtain ⟨stack',hr,hs,hlen,hi⟩ := Program.run_simulation _ hop p view
    ⟨[cache],store⟩ a view' ⟨rfl,rfl,himp⟩ hrun
  obtain ⟨caches',store'⟩ := stack'
  obtain rfl : store' = store := hs
  obtain ⟨cache',rfl⟩ := length_eq_one_iff.mp hlen
  exact ⟨cache',hr,hi⟩
end Programs
end Lcryp
