import Lcryp.Net.SlotScan
import Lcryp.Validation.Chainstate

/-!
# Reconstruction of compact blocks

`InitData` never leaves its vectors, and the block that a message was built from is put together again.
-/
namespace Lcryp
open Codec Slots List CBlockHeaderAndShortTxIDs
/-- The sum of the differences up to the one at position `j`, which is the index they encode. -/
def differentialIndex (prefilledtxn : List PrefilledTransaction) (j : Nat) : Nat :=
  ((prefilledtxn.take (j+1)).map fun p => p.index.toNat + 1).sum - 1

theorem getElem?_prefilledSlots {next j : Nat} {rest : List PrefilledTransaction} (h : j < rest.length) :
    (prefilledSlots next rest)[j]? =
      some (next + ((rest.take (j+1)).map fun p => p.index.toNat + 1).sum - 1) := by
  induction rest generalizing next j with
  | nil => cases h
  | cons p rest ih =>
    cases j with
    | zero => simp [prefilledSlots]
    | succ j =>
      rw [prefilledSlots,getElem?_cons_succ,ih (by simpa using h),take_succ_cons,map_cons,sum_cons]
      congr 1
      omega

structure SlotsHold (env : CompactEnv) (cmpctblock : CBlockHeaderAndShortTxIDs)
    (block : PartiallyDownloadedBlock) : Prop where
  size : block.txnAvailable.length = cmpctblock.blockTxCount
  prefilled : ∀ j p, cmpctblock.prefilledtxn[j]? = some p →
    block.txnAvailable[differentialIndex cmpctblock.prefilledtxn j]? = some (some p.tx)
  others : ∀ k tx, k ∉ prefilledSlots 0 cmpctblock.prefilledtxn → block.txnAvailable[k]? = some (some tx) →
    ∃ i : Nat, (otherSlots cmpctblock.prefilledtxn cmpctblock.blockTxCount)[i]? = some k ∧
      cmpctblock.shorttxids[i]? = some (cmpctblock.getShortID env (env.witnessHash tx))
  count : block.mempoolCount =
    filled (otherSlots cmpctblock.prefilledtxn cmpctblock.blockTxCount) block.txnAvailable

def Offered (vTxHashes : List (Uint256 × CTransaction)) (extraTxn : List (Uint256 × CTransactionRef))
    (tx : CTransaction) : Prop :=
  (∃ key, (key, tx) ∈ vTxHashes) ∨ ∃ key, (key, some tx) ∈ extraTxn

variable {extraTxn : List (Uint256 × CTransactionRef)} {vTxHashes : List (Uint256 × CTransaction)}
section Init
variable {env : CompactEnv} {cmpctblock : CBlockHeaderAndShortTxIDs}
def CBlockHeaderAndShortTxIDs.prefilledOnly (cmpctblock : CBlockHeaderAndShortTxIDs) : List CTransactionRef :=
  placeAll 0 cmpctblock.prefilledtxn (replicate cmpctblock.blockTxCount none)
theorem length_prefilledOnly : cmpctblock.prefilledOnly.length = cmpctblock.blockTxCount := by
  rw [prefilledOnly,length_placeAll,length_replicate]
theorem getElem?_prefilledOnly {k : Nat} (hk : k ∈ otherSlots cmpctblock.prefilledtxn cmpctblock.blockTxCount) :
    cmpctblock.prefilledOnly[k]? = some none := by
  rw [mem_otherSlots] at hk
  rw [prefilledOnly,getElem?_placeAll_other hk.2]
  simp [hk.1]

/-- The loops before the pool is read: the vector with the prefilled transactions, and the free slots
in order for the short ids. -/
structure Indexed (cmpctblock : CBlockHeaderAndShortTxIDs) (m : ShortIDMap) : Prop where
  slots : ∀ k ∈ prefilledSlots 0 cmpctblock.prefilledtxn, k < cmpctblock.blockTxCount
  map : m = (cmpctblock.shorttxids.zip (otherSlots cmpctblock.prefilledtxn cmpctblock.blockTxCount)).reverse
  keys : (m.map Prod.fst).Nodup

abbrev CBlockHeaderAndShortTxIDs.shortSlots (cmpctblock : CBlockHeaderAndShortTxIDs) : List Nat :=
  otherSlots cmpctblock.prefilledtxn cmpctblock.blockTxCount

variable {m : ShortIDMap}
theorem Indexed.slotMap (h : Indexed cmpctblock m) :
    SlotMap m cmpctblock.shortSlots
      cmpctblock.prefilledOnly.length where
  keys := h.keys
  slots := by
    have hlen : cmpctblock.shortSlots.length = cmpctblock.shorttxids.length := length_otherSlots h.slots
    rw [h.map,map_reverse,map_snd_zip hlen.le]
  nodup := nodup_range.filter _
  bounds := by
    intro k hk
    rw [length_prefilledOnly]
    exact (mem_otherSlots.mp hk).1

theorem Indexed.filling (h : Indexed cmpctblock m) (source : CTransaction → Prop) :
    Filling env cmpctblock m cmpctblock.shortSlots cmpctblock.prefilledOnly source 0
      ⟨cmpctblock.prefilledOnly, replicate cmpctblock.prefilledOnly.length false, 0, 0⟩ where
  placed := {
    length := rfl
    flagsLength := length_replicate
    kept := fun _ _ => rfl
    matched := by
      intro id k tx hk htx
      rw [getElem?_prefilledOnly (h.slotMap.mem_slots hk)] at htx
      cases htx }
  counted := by
    symm
    rw [Nat.add_zero,filled,countP_eq_zero]
    intro k hk
    simp [getElem?_prefilledOnly hk]
  bounded := Nat.zero_le _

/-- `InitData` returns early or gets to the extra list with the invariant. -/
theorem scanPool_succeeds (source : CTransaction → Prop) (hsize : cmpctblock.blockTxCount ≤ 65535)
    (hpool : ∀ entry ∈ vTxHashes, entry.1 = env.witnessHash entry.2)
    (hsrc : ∀ entry ∈ vTxHashes, source entry.2) :
    Succeeds (scanPool env cmpctblock vTxHashes) fun r =>
      (∃ early, r = .error early ∧ early.1 ≠ .ok) ∨
        ∃ m s, r = .ok (m, s) ∧ cmpctblock.header.isNull = false ∧ Indexed cmpctblock m ∧
          Filling env cmpctblock m cmpctblock.shortSlots
            cmpctblock.prefilledOnly source 0 s := by
  have hr : (replicate cmpctblock.blockTxCount (none : CTransactionRef)).length =
      cmpctblock.shorttxids.length + 0 + cmpctblock.prefilledtxn.length := length_replicate
  rw [scanPool]
  split
  · exact .inl ⟨_,rfl,nofun⟩
  split
  · exact .inl ⟨_,rfl,nofun⟩
  apply (placePrefilled_succeeds 0 hr).bind
  rintro ⟨placed,avail⟩ hplaced
  cases placed with
  | false => exact .inl ⟨_,rfl,nofun⟩
  | true =>
  obtain ⟨rfl,hsl⟩ := hplaced rfl
  rw [length_replicate] at hsl
  have hf : freeFrom (0+0) (cmpctblock.prefilledOnly.drop (0+0)) =
      cmpctblock.shortSlots := freeFrom_placeAll hsl
  have hcnt : cmpctblock.shortSlots.length = cmpctblock.shorttxids.length := length_otherSlots hsl
  apply (indexShortIDs_succeeds (length_prefilledOnly.trans_le hsize) (by rw [hf,hcnt])).bind
  rintro ⟨indexed,m⟩ hindexed
  rw [hf] at hindexed
  dsimp only
  split
  · exact .inl ⟨_,rfl,nofun⟩
  next hok =>
  have hok : indexed = true ∧ m.length = cmpctblock.shorttxids.length := by simpa using hok
  obtain rfl := hindexed hok.1
  have hall : (ShortIDMap.assignAll [] (cmpctblock.shorttxids.zip cmpctblock.shortSlots)).length =
      ([] : ShortIDMap).length + (cmpctblock.shorttxids.zip
        cmpctblock.shortSlots).length := by
    simpa [hcnt] using hok.2
  have hindexed : Indexed cmpctblock _ :=
    { slots := hsl
      map := by rw [ShortIDMap.assignAll_eq hall,append_nil]
      keys := ShortIDMap.nodup_assignAll (m := []) nodup_nil _ }
  have hlt : cmpctblock.prefilledOnly.length < 2^64 := by
    rw [length_prefilledOnly]
    omega
  apply (poolLoop_succeeds hindexed.slotMap hlt hpool hsrc (hindexed.filling source)).bind
  intro s hs
  exact .inr ⟨_,s,rfl,by simp_all,hindexed,hs⟩

variable {source : CTransaction → Prop} {excess : Nat} {s : SlotState}
/-- The fields of the object when `InitData` returns `READ_STATUS_OK`. -/
def initialised (cmpctblock : CBlockHeaderAndShortTxIDs) (s : SlotState) : PartiallyDownloadedBlock where
  header := cmpctblock.header
  txnAvailable := s.txnAvailable
  prefilledCount := cmpctblock.prefilledtxn.length
  mempoolCount := s.mempoolCount
  extraCount := s.extraCount

theorem initData_of_scanned (h : scanPool env cmpctblock vTxHashes = .ok (.ok (m, s))) :
    initData env cmpctblock vTxHashes extraTxn =
      (fillLoop m (extraStep env cmpctblock m) extraTxn s).map
        fun t => (.ok, initialised cmpctblock t) := by
  rw [initData,h]
  rfl

def missingTransactions (avail : List CTransactionRef) (vtx : List CTransaction) : List CTransaction :=
  ((avail.zip vtx).filter (·.1.isNone)).map Prod.snd

theorem takeMissing_missingTransactions {avail : List CTransactionRef} {vtx : List CTransaction}
    (hlen : avail.length = vtx.length) (hs : ∀ (k : Nat) tx, avail[k]? = some (some tx) → vtx[k]? = some tx) :
    takeMissing avail (missingTransactions avail vtx) = some (vtx, []) := by
  induction avail generalizing vtx with
  | nil =>
    obtain rfl : vtx = [] := eq_nil_of_length_eq_zero hlen.symm
    rfl
  | cons slot avail ih =>
    cases vtx with
    | nil => cases hlen
    | cons tx vtx =>
      have ih := ih (Nat.succ.inj hlen) fun k => hs (k+1)
      rw [missingTransactions] at ih ⊢
      cases slot with
      | none => simp [takeMissing,ih]
      | some tx' =>
        obtain rfl : tx = tx' := by simpa using hs 0 tx' rfl
        simp [takeMissing,ih]

/-- A message made from a block has the coinbase in slot zero, and the short ids in order. -/
theorem otherSlots_coinbase (coinbase : CTransaction) (n : Nat) :
    otherSlots [⟨0, coinbase⟩] (n+1) = (range n).map (· + 1) := by
  have hs : prefilledSlots 0 [⟨0,coinbase⟩] = [0] := rfl
  rw [otherSlots,hs,range_succ_eq_map]
  simp

variable {nonce : BitVec 64}
theorem ofBlock_eq_ok {block : CBlock} (h : ofBlock env nonce block = .ok cmpctblock) :
    ∃ coinbase rest, block.vtx = coinbase::rest ∧ cmpctblock.header = block.header ∧
      cmpctblock.prefilledtxn = [⟨0, coinbase⟩] ∧
      cmpctblock.shorttxids = rest.map fun tx => cmpctblock.getShortID env (env.witnessHash tx) := by
  obtain ⟨header,vtx⟩ := block
  cases vtx with
  | nil => cases h
  | cons coinbase rest =>
    cases h
    exact ⟨coinbase,rest,rfl,rfl,rfl,rfl⟩
variable (hindexed : Indexed cmpctblock m)
  (h : Filling env cmpctblock m cmpctblock.shortSlots cmpctblock.prefilledOnly source excess s)
include hindexed h

theorem Filling.other_slot {k : Nat} {tx : CTransaction}
    (hk : k ∉ prefilledSlots 0 cmpctblock.prefilledtxn) (htx : s.txnAvailable[k]? = some (some tx)) :
    ∃ i : Nat, cmpctblock.shortSlots[i]? = some k ∧
      cmpctblock.shorttxids[i]? = some (cmpctblock.getShortID env (env.witnessHash tx)) ∧ source tx := by
  have hlt : k < cmpctblock.blockTxCount := by
    rw [← length_prefilledOnly,← h.placed.length]
    exact (List.getElem?_eq_some_iff.mp htx).1
  obtain ⟨i,hi⟩ := getElem?_of_mem (mem_otherSlots.mpr ⟨hlt,hk⟩)
  have hilt : i < cmpctblock.shorttxids.length := by
    have hlen : cmpctblock.shortSlots.length = cmpctblock.shorttxids.length := length_otherSlots hindexed.slots
    rw [← hlen]
    exact (List.getElem?_eq_some_iff.mp hi).1
  have hid := getElem?_eq_getElem hilt
  have hmem : (cmpctblock.shorttxids[i], k) ∈ m := by
    rw [hindexed.map,mem_reverse]
    exact mem_of_getElem? (getElem?_zip_eq_some.mpr ⟨hid,hi⟩)
  obtain ⟨-,hs,hsrc⟩ := h.placed.matched _ k tx hmem htx
  exact ⟨i,hi,by rw [hid,hs],hsrc⟩

theorem Filling.prefilled_slot {j : Nat} {p : PrefilledTransaction}
    (hp : cmpctblock.prefilledtxn[j]? = some p) :
    s.txnAvailable[differentialIndex cmpctblock.prefilledtxn j]? = some (some p.tx) := by
  have hj := @getElem?_prefilledSlots 0 j _ (List.getElem?_eq_some_iff.mp hp).1
  rw [Nat.zero_add,← differentialIndex] at hj
  have hmem := mem_of_getElem? hj
  rw [h.placed.kept _ fun hoth => (mem_otherSlots.mp hoth).2 hmem]
  exact getElem?_placeAll (by simpa using hindexed.slots) hp hj

theorem Filling.slotsHold_iff : SlotsHold env cmpctblock (initialised cmpctblock s) ↔ excess = 0 := by
  have hc := h.counted
  constructor
  · intro hs
    have hcnt : s.mempoolCount = filled cmpctblock.shortSlots s.txnAvailable := hs.count
    omega
  · rintro rfl
    exact {
      size := h.placed.length.trans length_prefilledOnly
      prefilled := fun j p hp => h.prefilled_slot hindexed hp
      others := by
        intro k tx hk htx
        obtain ⟨i,hi,hid,-⟩ := h.other_slot hindexed hk htx
        exact ⟨i,hi,hid⟩
      count := hc }

theorem Filling.slots_of_block {block : CBlock} (hb : ofBlock env nonce block = .ok cmpctblock)
    (hnd : (block.vtx.map fun tx => cmpctblock.getShortID env (env.witnessHash tx)).Nodup)
    (ho : ∀ tx, source tx → ∀ tx' ∈ block.vtx,
      cmpctblock.getShortID env (env.witnessHash tx) = cmpctblock.getShortID env (env.witnessHash tx') →
        tx ∈ block.vtx) :
    s.txnAvailable.length = block.vtx.length ∧
      ∀ (k : Nat) tx, s.txnAvailable[k]? = some (some tx) → block.vtx[k]? = some tx := by
  obtain ⟨coinbase,rest,hvtx,-,hpre,hs⟩ := ofBlock_eq_ok hb
  have hcnt : cmpctblock.blockTxCount = rest.length + 1 := by simp [blockTxCount,hpre,hs]
  have hsl : prefilledSlots 0 cmpctblock.prefilledtxn = [0] := by rw [hpre]; rfl
  refine ⟨by rw [h.placed.length,length_prefilledOnly,hcnt,hvtx,length_cons],?_⟩
  intro k tx htx
  by_cases hk : k = 0
  · subst hk
    have hz := h.prefilled_slot hindexed (j := 0) (by rw [hpre]; rfl)
    rw [hpre] at hz
    have : some (some coinbase) = some (some tx) := hz.symm.trans htx
    rw [hvtx]
    exact Option.some_inj.mp this
  · obtain ⟨i,hi,hid,hsrc⟩ := h.other_slot hindexed (by rw [hsl]; simpa using hk) htx
    rw [shortSlots,hpre,hcnt,otherSlots_coinbase] at hi
    rw [getElem?_map,Option.map_eq_some_iff] at hi
    obtain ⟨j,hj,rfl⟩ := hi
    obtain rfl : i = j := by simpa using (List.getElem?_eq_some_iff.mp hj).2
    rw [hs,getElem?_map,Option.map_eq_some_iff] at hid
    obtain ⟨tx',htx',hsa⟩ := hid
    have hm : tx' ∈ block.vtx := by
      rw [hvtx]
      exact mem_cons_of_mem _ (mem_of_getElem? htx')
    have hmem := ho tx hsrc tx' hm hsa.symm
    rw [hvtx,getElem?_cons_succ,htx',inj_on_of_nodup_map hnd hm hmem hsa]
end Init

variable (env : CompactEnv) (cmpctblock : CBlockHeaderAndShortTxIDs) (vTxHashes : List (Uint256 × CTransaction))
    (extraTxn : List (Uint256 × CTransactionRef))

/-- `InitData` returns, and on `READ_STATUS_OK` the slots hold what they should. -/
def InitDataSafe : Prop :=
  ∃ r, initData env cmpctblock vTxHashes extraTxn = .ok r ∧ (r.1 = .ok → SlotsHold env cmpctblock r.2)

/-- If the message was made from a block whose short ids nothing else shares, `FillBlock` with the missing
transactions gives that block. -/
def RebuildsBlock : Prop :=
  ∀ nonce block, ofBlock env nonce block = .ok cmpctblock →
    (block.vtx.map fun tx => cmpctblock.getShortID env (env.witnessHash tx)).Nodup →
    (∀ tx, Offered vTxHashes extraTxn tx → ∀ tx' ∈ block.vtx,
      cmpctblock.getShortID env (env.witnessHash tx) = cmpctblock.getShortID env (env.witnessHash tx') →
        tx ∈ block.vtx) →
    ∀ started, initData env cmpctblock vTxHashes extraTxn = .ok (.ok, started) →
      ∃ status, fillBlock env started (missingTransactions started.txnAvailable block.vtx) =
          .ok (status, some block) ∧
        (status = .ok ↔ checkBlock env.toValidationEnv block true true = .ok ())

/-- No null pointer of the extra list that `InitData` gets to claims a slot or is dereferenced. -/
def NullsInert : Prop :=
  ∀ m s, scanPool env cmpctblock vTxHashes = .ok (.ok (m, s)) → InertFrom env cmpctblock m extraTxn s
section Contract
variable {env cmpctblock vTxHashes extraTxn} (hsize : cmpctblock.blockTxCount ≤ 65535)
    (hpool : ∀ entry ∈ vTxHashes, entry.1 = env.witnessHash entry.2)
    (hextra : ∀ entry ∈ extraTxn, ∀ tx, entry.2 = some tx → entry.1 = env.witnessHash tx)
include hsize hpool hextra

theorem initData_cases :
    (∃ early, scanPool env cmpctblock vTxHashes = .ok (.error early) ∧
      initData env cmpctblock vTxHashes extraTxn = .ok early ∧ early.1 ≠ .ok) ∨
    ∃ m s, scanPool env cmpctblock vTxHashes = .ok (.ok (m, s)) ∧
      cmpctblock.header.isNull = false ∧ Indexed cmpctblock m ∧
      ExtraOutcome env cmpctblock m cmpctblock.shortSlots
        cmpctblock.prefilledOnly (Offered vTxHashes extraTxn) 0
        (InertFrom env cmpctblock m extraTxn s)
        (fillLoop m (extraStep env cmpctblock m) extraTxn s) := by
  obtain ⟨r,hr,⟨early,rfl,hea⟩ | ⟨m,s,rfl,hh,hindexed,hf⟩⟩ :=
    (scanPool_succeeds (Offered vTxHashes extraTxn) hsize hpool fun entry he => .inl ⟨entry.1,he⟩).exists_ok
  · refine .inl ⟨early,hr,?_,hea⟩
    rw [initData,hr]
    rfl
  · have hlt : cmpctblock.prefilledOnly.length < 2^64 := by
      rw [length_prefilledOnly]
      omega
    refine .inr ⟨m,s,hr,hh,hindexed,extraLoop_outcome hindexed.slotMap hlt hextra ?_ hf⟩
    intro entry he tx htx
    exact .inr ⟨entry.1,by rw [← htx]; exact he⟩

theorem initDataSafe_iff :
    InitDataSafe env cmpctblock vTxHashes extraTxn ↔ NullsInert env cmpctblock vTxHashes extraTxn := by
  rcases initData_cases hsize hpool hextra with
    ⟨early,hsc,hin,he⟩ | ⟨m,s,hsc,-,hindexed,hl⟩
  · have hi : NullsInert env cmpctblock vTxHashes extraTxn := by
      intro m s hm
      rw [hsc] at hm
      cases hm
    exact iff_of_true ⟨early,hin,fun hok => absurd hok he⟩ hi
  · have hi : NullsInert env cmpctblock vTxHashes extraTxn ↔ InertFrom env cmpctblock m extraTxn s := by
      refine ⟨fun hall => hall m s hsc,fun hall m' s' hm => ?_⟩
      rw [hsc] at hm
      cases hm
      exact hall
    rw [hi,InitDataSafe,initData_of_scanned hsc]
    rcases hl with ⟨hall,t,ht,hf⟩ | ⟨hall,ht | ⟨t,excess,hpos,ht,hf⟩⟩
    · rw [ht]
      exact iff_of_true ⟨_,rfl,fun _ => (hf.slotsHold_iff hindexed).mpr rfl⟩ hall
    · rw [ht]
      exact iff_of_false (by rintro ⟨r,⟨⟩,-⟩) hall
    · rw [ht]
      refine iff_of_false ?_ hall
      rintro ⟨r,hr,hs⟩
      cases hr
      exact hpos.ne' ((hf.slotsHold_iff hindexed).mp (hs rfl))

/-- The null pointers of the extra list do no harm to the transactions in the slots. -/
theorem rebuildsBlock : RebuildsBlock env cmpctblock vTxHashes extraTxn := by
  intro nonce block hblock hnd houtside started hin
  rcases initData_cases hsize hpool hextra with
    ⟨early,hsc,hi,he⟩ | ⟨m,s,hsc,hh,hindexed,hl⟩
  · rw [hin] at hi
    cases hi
    exact absurd rfl he
  · rw [initData_of_scanned hsc] at hin
    obtain ⟨t,excess,hf,rfl⟩ : ∃ t excess,
        Filling env cmpctblock m cmpctblock.shortSlots
          cmpctblock.prefilledOnly (Offered vTxHashes extraTxn) excess t ∧
        started = initialised cmpctblock t := by
      rcases hl with ⟨-,t,ht,hf⟩ | ⟨-,ht | ⟨t,excess,-,ht,hf⟩⟩
      all_goals
        rw [ht] at hin
        cases hin
      · exact ⟨t,0,hf,rfl⟩
      · exact ⟨t,excess,hf,rfl⟩
    obtain ⟨hlen,hs⟩ := hf.slots_of_block hindexed hblock hnd houtside
    obtain ⟨-,-,-,hsa,-⟩ := ofBlock_eq_ok hblock
    have hta := takeMissing_missingTransactions hlen hs
    have hn : (initialised cmpctblock t).header.isNull = false := hh
    have hr : (⟨(initialised cmpctblock t).header,block.vtx⟩ : CBlock) = block := by rw [initialised,hsa]
    rw [fillBlock,hn,show (initialised cmpctblock t).txnAvailable = t.txnAvailable from rfl,hta]
    dsimp only
    rw [hr]
    cases hc : checkBlock env.toValidationEnv block true true with
    | ok => exact ⟨.ok,rfl,by simp⟩
    | error invalid =>
      refine ⟨_,rfl,iff_of_false ?_ nofun⟩
      split <;> nofun
end Contract

/-- Reconstruction is safe exactly if the null pointers of the extra list stay inert. -/
theorem compactBlock_safe_iff (env : CompactEnv) (s rest : Bytes) (cmpctblock : CBlockHeaderAndShortTxIDs)
    (hread : (unserializeCompactBlock env).run s = .ok (cmpctblock, rest))
    (vTxHashes : List (Uint256 × CTransaction)) (hpool : ∀ entry ∈ vTxHashes, entry.1 = env.witnessHash entry.2)
    (extraTxn : List (Uint256 × CTransactionRef))
    (hextra : ∀ entry ∈ extraTxn, ∀ tx, entry.2 = some tx → entry.1 = env.witnessHash tx) :
    (InitDataSafe env cmpctblock vTxHashes extraTxn ∧ RebuildsBlock env cmpctblock vTxHashes extraTxn) ↔
      NullsInert env cmpctblock vTxHashes extraTxn := by
  have hsize := unserializeCompactBlock_eq_ok hread
  rw [and_iff_left (rebuildsBlock hsize hpool hextra)]
  exact initDataSafe_iff hsize hpool hextra

/-- Easy hashes: a witness hash is the version, and a short id its last bytes. -/
def compactEnv : CompactEnv where
  toValidationEnv := sampleEnv
  witnessHash tx := BitVec.ofInt 256 tx.nVersion
  shortTxIDSelector _ _ := (0#64, 0#64)
  sipHashUint256 _ _ hash := hash.setWidth 64
  bucketOverfull _ := false

def probeHeader : CBlockHeader := ⟨4, 0#256, 0#256, 0#32, 0x207fffff#32, 0#32⟩

variable (shortID : BitVec 64)
def probe : CBlockHeaderAndShortTxIDs :=
  .withSelector compactEnv probeHeader 0#64 [shortID] [⟨0, sampleCoinbase 1 [0, 0] 0⟩]
def probeBytes : Bytes :=
  serializeInt 32 4++serializeUint 0#256++serializeUint 0#256++serializeUint 0#32 ++
    serializeUint 0x207fffff#32++serializeUint 0#32++serializeUint 0#64 ++
    serializeVector (fun id : BitVec 64 => serWritedata 6 id.toNat) [shortID]++[1, 0] ++
    serializeTransaction true (sampleCoinbase 1 [0, 0] 0)

/-- The transaction with short id two is in the pool, and a null pointer in the extra list. -/
theorem probe_two_safe :
    (InitDataSafe compactEnv (probe 2#64) [(2#256, sampleCoinbase 2 [0, 0] 0)] [(0#256, none)] ∧
        RebuildsBlock compactEnv (probe 2#64) [(2#256, sampleCoinbase 2 [0, 0] 0)] [(0#256, none)]) := by
  have hread : (unserializeCompactBlock compactEnv).run (probeBytes 2#64) = .ok (probe 2#64, []) := by
    decide +kernel
  refine (compactBlock_safe_iff compactEnv (probeBytes 2#64) [] (probe 2#64) hread
    [(2#256, sampleCoinbase 2 [0,0] 0)] (by decide) [(0#256, none)] ?_).mpr ?_
  · intro entry hent tx htx
    rw [mem_singleton] at hent
    subst hent
    cases htx
  · intro m s hscan
    cases hscan
    refine ⟨fun _ k hk => ?_,fun _ _ _ => trivial⟩
    cases hk

/-- The null pointer counts as a transaction from the pool although the slot is free. -/
theorem nullPointer_counted :
    (unserializeCompactBlock compactEnv).run (probeBytes 0#64) = .ok (probe 0#64, []) ∧
      initData compactEnv (probe 0#64) [] [(0#256, none)] =
        .ok (.ok, ⟨probeHeader, [some (sampleCoinbase 1 [0, 0] 0), none], 1, 1, 1⟩) ∧
      ¬ InitDataSafe compactEnv (probe 0#64) [] [(0#256, none)] := by
  have hinit : initData compactEnv (probe 0#64) [] [(0#256, none)] =
      .ok (.ok, ⟨probeHeader,[some (sampleCoinbase 1 [0,0] 0),none],1,1,1⟩) := by
    decide +kernel
  refine ⟨by decide +kernel,hinit,?_⟩
  rintro ⟨r,hr,hslots⟩
  cases hr
  exact absurd (hslots rfl).count (by decide)
end Lcryp
