import Lcryp.Coins.StackRefinement

/-!
# The coin database

`CCoinsViewDB::BatchWrite` writes the dirty entries of a cache in batches, each of which the database
applies as a whole.
-/
namespace Lcryp
open Interaction List UtxoView
/-- The database.  A best block that is not stored reads as the null hash, and head blocks that are
not stored as an empty list. -/
@[ext]
structure CCoinsViewDB extends UtxoView where
  headBlocks : List Uint256

/-- One change in a `CDBBatch`; the null hash and the empty list stand for an `Erase`. -/
inductive DbWrite
  | coin (item : COutPoint × CCoinsCacheEntry)
  | bestBlock (hash : Uint256)
  | headBlocks (heads : List Uint256)

structure BatchPolicy where
  sizeEstimate : List DbWrite → Nat
  batchSize : Nat

namespace CCoinsViewDB
variable (db : CCoinsViewDB)
def apply : DbWrite → CCoinsViewDB
  | .coin item => { db with toUtxoView := db.toUtxoView.batchWriteEntry item }
  | .bestBlock hash => { db with bestBlock := hash }
  | .headBlocks heads => { db with headBlocks := heads }

variable (batch : List DbWrite)
def writeBatch : CCoinsViewDB := batch.foldl apply db

variable (item : COutPoint × CCoinsCacheEntry)

def addEntry : List DbWrite :=
  if item.2.dirty then batch++[.coin item] else batch

/-- The loop of `BatchWrite`: the batches it writes, the final one last. -/
def fillBatches (policy : BatchPolicy) (hashBlock : Uint256) :
    List DbWrite → CacheEntries → List (List DbWrite)
  | batch, [] => [batch++[.headBlocks [], .bestBlock hashBlock]]
  | batch, item::rest =>
    if policy.sizeEstimate (addEntry batch item) > policy.batchSize then
      addEntry batch item::fillBatches policy hashBlock [] rest
    else fillBatches policy hashBlock (addEntry batch item) rest

/-- The tip that the head blocks will name as the old one. -/
def oldTip (hashBlock : Uint256) : Except ValidationStop Uint256 :=
  if db.bestBlock ≠ 0#256 then .ok db.bestBlock
  else
    match db.headBlocks with
    | [new, old] => if new = hashBlock then .ok old else .error .assertion
    | _ => .ok 0#256

variable (policy : BatchPolicy)
def batches (hashBlock : Uint256)
    (entries : CacheEntries) : Except ValidationStop (List (List DbWrite)) := do
  rejectIf (hashBlock == 0#256) .assertion
  let old ← db.oldTip hashBlock
  return fillBatches policy hashBlock [.bestBlock 0#256, .headBlocks [hashBlock, old]] entries

def batchWrite (hashBlock : Uint256)
    (entries : CacheEntries) : Except ValidationStop CCoinsViewDB := do
  return (← db.batches policy hashBlock entries).foldl writeBatch db

variable (entries : CacheEntries)

def dirtyWrites : List DbWrite :=
  (entries.filter fun item => item.2.dirty).map .coin

theorem dirtyWrites_cons (rest : CacheEntries)
    (batch : List DbWrite) : addEntry batch item++dirtyWrites rest = batch++dirtyWrites (item::rest) := by
  unfold dirtyWrites addEntry
  rw [filter_cons]
  split
  · rw [map_cons,append_assoc,singleton_append]
  · rfl

theorem foldl_writeBatch (batches : List (List DbWrite)) :
    batches.foldl writeBatch db = db.writeBatch batches.flatten :=
  foldl_flatten.symm

/-- Writing dirty entries is merging all entries, since the clean ones are skipped. -/
theorem writeBatch_dirtyWrites :
    db.writeBatch (dirtyWrites entries) =
      { db with toUtxoView := entries.foldl batchWriteEntry db.toUtxoView } := by
  induction entries generalizing db with
  | nil => rfl
  | cons item rest ih =>
    unfold dirtyWrites at ih ⊢
    rw [filter_cons,foldl_cons]
    by_cases hd : item.2.dirty = true
    · rw [if_pos hd]
      exact ih (db.apply (.coin item))
    · have hc : db.toUtxoView.batchWriteEntry item = db.toUtxoView := by simp [batchWriteEntry,hd]
      rw [if_neg hd,hc]
      exact ih db
section Batches
variable {policy : BatchPolicy} {hashBlock : Uint256}
variable (batch : List DbWrite) (entries : CacheEntries)

theorem fillBatches_flatten :
    (fillBatches policy hashBlock batch entries).flatten =
      batch++dirtyWrites entries++[.headBlocks [], .bestBlock hashBlock] := by
  induction entries generalizing batch with
  | nil => simp [fillBatches,dirtyWrites]
  | cons item rest ih =>
    rw [fillBatches,← dirtyWrites_cons]
    split
    · rw [flatten_cons,ih,nil_append,append_assoc]
    · rw [ih]

/-- All but the final batch: the partial batches hold the dirty entries of a first part. -/
theorem fillBatches_take {k : Nat}
    (hpos : 0 < k) (hk : k < (fillBatches policy hashBlock batch entries).length) :
    ∃ written rest, entries = written++rest ∧
      ((fillBatches policy hashBlock batch entries).take k).flatten = batch++dirtyWrites written := by
  induction entries generalizing batch k with
  | nil =>
    rw [fillBatches,length_singleton] at hk
    omega
  | cons item rest ih =>
    rw [fillBatches] at hk ⊢
    split at hk
    · rename_i hfull
      rw [if_pos hfull]
      obtain ⟨j,rfl⟩ := Nat.exists_eq_add_of_lt hpos
      rw [Nat.zero_add] at hk ⊢
      rw [take_succ_cons,flatten_cons]
      cases j with
      | zero =>
        refine ⟨[item],rest,rfl,?_⟩
        rw [← dirtyWrites_cons]
        simp [dirtyWrites]
      | succ j =>
        rw [length_cons] at hk
        obtain ⟨written,others,rfl,ht⟩ := ih [] (Nat.succ_pos j) (by omega)
        refine ⟨item::written,others,rfl,?_⟩
        rw [ht,nil_append,dirtyWrites_cons]
    · rename_i hfull
      rw [if_neg hfull]
      obtain ⟨written,others,rfl,ht⟩ := ih _ hpos hk
      refine ⟨item::written,others,rfl,?_⟩
      rw [ht,dirtyWrites_cons]

variable {db : CCoinsViewDB} {entries : CacheEntries}
theorem oldTip_of_headBlocks_nil (h : db.headBlocks = []) : db.oldTip hashBlock = .ok db.bestBlock := by
  unfold oldTip
  split
  · rfl
  · rename_i hbest
    rw [h,not_not.mp hbest]

section
variable {all : List (List DbWrite)} (h : db.batches policy hashBlock entries = .ok all)
include h

theorem batches_eq_ok :
    hashBlock ≠ 0#256 ∧ ∃ old, db.oldTip hashBlock = .ok old ∧ all =
      fillBatches policy hashBlock [.bestBlock 0#256, .headBlocks [hashBlock, old]] entries := by
  simp only [batches,bind_eq_ok] at h
  obtain ⟨_,hn,old,hold,hall⟩ := h
  exact ⟨by simpa using hn,old,hold,(Except.ok.inj hall).symm⟩

/-- An interrupted flush has written a first part of the entries, and the head blocks say what it was about.
-/
theorem batches_interrupted {k : Nat} (hpos : 0 < k) (hk : k < all.length) :
    ∃ written rest old, entries = written++rest ∧ db.oldTip hashBlock = .ok old ∧
      (all.take k).foldl writeBatch db =
        ⟨written.foldl batchWriteEntry { db.toUtxoView with bestBlock := 0#256 },[hashBlock, old]⟩ := by
  obtain ⟨_,old,hold,rfl⟩ := batches_eq_ok h
  obtain ⟨written,rest,he,ht⟩ := fillBatches_take _ entries hpos hk
  refine ⟨written,rest,old,he,hold,?_⟩
  rw [foldl_writeBatch,ht]
  exact writeBatch_dirtyWrites _ written
end

theorem batchWrite_eq (policy : BatchPolicy) (entries : CacheEntries)
    (hn : hashBlock ≠ 0#256) {old : Uint256} (hold : db.oldTip hashBlock = .ok old) :
    db.batchWrite policy hashBlock entries =
      .ok ⟨UtxoView.batchWrite { db.toUtxoView with bestBlock := 0#256 } hashBlock entries, []⟩ := by
  have hb : db.batches policy hashBlock entries = .ok
      (fillBatches policy hashBlock [.bestBlock 0#256,.headBlocks [hashBlock,old]] entries) := by
    have hs : rejectIf (hashBlock == 0#256) ValidationStop.assertion = .ok () := by simpa using hn
    rw [batches,hs,hold]
    rfl
  rw [batchWrite,hb]
  change Except.ok (foldl writeBatch db _) = _
  rw [foldl_writeBatch,fillBatches_flatten,writeBatch,foldl_append]
  congr 1
  exact congrArg (fun d => (d.apply (.headBlocks [])).apply (.bestBlock hashBlock))
    (writeBatch_dirtyWrites _ entries)
end Batches

section Flush
variable {store : UtxoView} {cache : CCoinsViewCache} {order : List COutPoint}
theorem merged_bestBlock (store : UtxoView) (entries : CacheEntries) :
    (entries.foldl batchWriteEntry store).bestBlock = store.bestBlock := by
  induction entries generalizing store with
  | nil => rfl
  | cons item rest ih =>
    rw [foldl_cons,ih,batchWriteEntry]
    split
    · rfl
    · split
      · rfl
      · rfl

theorem merged_mixture (hok : LayersOk store [cache]) (he : CCoinsViewCache.Enumerates order cache)
    {written rest : CacheEntries}
    (hs : cache.entriesIn order = written++rest) (o : COutPoint) :
    (written.foldl batchWriteEntry store).coins.lookup o = store.coins.lookup o ∨
      (written.foldl batchWriteEntry store).coins.lookup o = viewCoin store o [cache] := by
  have hent : ∀ item ∈ written, cache.cacheCoins.lookup item.1 = some item.2 := by
    intro item hi
    refine (mem_entriesIn he item).mp ?_
    rw [hs]
    exact mem_append_left rest hi
  have hnd : (written.map Prod.fst).Nodup := by
    have hall := nodup_entriesIn cache he.1
    rw [hs,map_append] at hall
    exact (nodup_append.mp hall).1
  obtain ⟨hset,hk⟩ := UtxoView.batchWrite_ok 0#256 hnd fun item hi =>
    hok.1 item.1 item.2 (hent item hi)
  by_cases hmem : o ∈ written.map Prod.fst
  · obtain ⟨item,hi,rfl⟩ := mem_map.mp hmem
    refine .inr ((hset item hi).trans ?_)
    rw [viewCoin,hent item hi]
  · exact .inl (hk o hmem)

theorem merged_all {view : UtxoView} (himp : CoinsStack.Implements ⟨[cache], store⟩ view)
    (he : CCoinsViewCache.Enumerates order cache) (hh : cache.hashBlock = view.bestBlock) :
    store.batchWrite cache.hashBlock (cache.entriesIn order) = view := by
  obtain ⟨cache',below',store',hf,hemp,hlen,_,hv⟩ := flushFirst_ok himp.shows.layersOk he
  obtain rfl := length_eq_zero_iff.mp hlen
  have hs : store' = store.batchWrite cache.hashBlock (cache.entriesIn order) :=
    (Prod.mk.inj (Prod.mk.inj hf).2).2.symm
  apply UtxoView.ext
  · apply Finmap.ext_lookup
    intro o
    rw [← himp.shows.view o,← hv o,viewCoin,hemp,hs]
    rfl
  · exact hh
end Flush
end CCoinsViewDB
end Lcryp
