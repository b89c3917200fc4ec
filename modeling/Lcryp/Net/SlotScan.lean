import Lcryp.Net.CompactBlockSlots

/-!
# Scanning the pool and the extra list

While the pool and the extra list are scanned, a slot of a short id holds nothing or a transaction with
that short id.
-/
namespace Lcryp
open Slots List Prod
variable {m : ShortIDMap}
namespace ShortIDMap
theorem nodup_assign (h : (m.map fst).Nodup) (id : BitVec 64) (k : Nat) : ((m.assign id k).map fst).Nodup := by
  rw [assign,map_cons,nodup_cons]
  constructor
  · simp
  · exact h.sublist (filter_sublist.map _)

theorem nodup_assignAll (h : (m.map fst).Nodup)
    (pairs : List (BitVec 64 × Nat)) : ((m.assignAll pairs).map fst).Nodup := by
  induction pairs generalizing m with
  | nil => exact h
  | cons e pairs ih => exact ih (nodup_assign h e.1 e.2)

theorem length_assignAll_le (m : ShortIDMap) (pairs : List (BitVec 64 × Nat)) :
    (m.assignAll pairs).length ≤ m.length + pairs.length := by
  induction pairs generalizing m with
  | nil => exact Nat.le_refl _
  | cons e pairs ih =>
    have hf := length_filter_le (·.1 != e.1) m
    have hr := ih (m.assign e.1 e.2)
    simp only [assign,assignAll,length_cons] at hr ⊢
    omega

theorem assignAll_eq {pairs : List (BitVec 64 × Nat)}
    (h : (m.assignAll pairs).length = m.length + pairs.length) : m.assignAll pairs = pairs.reverse++m := by
  induction pairs generalizing m with
  | nil => rfl
  | cons e pairs ih =>
    have hle := length_assignAll_le (m.assign e.1 e.2) pairs
    have hf := length_filter_le (·.1 != e.1) m
    have ha : (m.assign e.1 e.2).length = (m.filter (·.1 != e.1)).length + 1 := rfl
    rw [assignAll,length_cons] at h
    have hke : m.filter (·.1 != e.1) = m := filter_sublist.eq_of_length (by omega)
    rw [assignAll,ih (by omega),reverse_cons,append_assoc,assign,hke]
    rfl

theorem slotOf_eq_some (h : (m.map fst).Nodup) {id : BitVec 64} {k : Nat} :
    m.slotOf id = some k ↔ (id, k) ∈ m := by
  induction m with
  | nil => simp [slotOf]
  | cons e m ih =>
    rw [map_cons,nodup_cons] at h
    have ih := ih h.2
    rw [slotOf] at ih ⊢
    rw [find?_cons,mem_cons]
    by_cases he : e.1 = id
    · subst he
      have hnot : (e.1, k) ∉ m := fun hmem => h.1 (mem_map.mpr ⟨_,hmem,rfl⟩)
      simp [hnot,Prod.ext_iff,eq_comm]
    · have hne : (id, k) ≠ e := fun heq => he (by rw [← heq])
      rw [show (e.1 == id) = false from beq_eq_false_iff_ne.mpr he,ih,or_iff_right hne]
end ShortIDMap

/-- A map whose ids have the listed slots, the last one first. -/
structure SlotMap (m : ShortIDMap) (ks : List Nat) (n : Nat) : Prop where
  keys : (m.map fst).Nodup
  slots : m.map snd = ks.reverse
  nodup : ks.Nodup
  bounds : ∀ k ∈ ks, k < n

variable {ks : List Nat}
namespace SlotMap
variable {n k : Nat} {id id' : BitVec 64}
theorem mem_slots (hm : SlotMap m ks n) (h : (id, k) ∈ m) : k ∈ ks := by
  rw [← mem_reverse,← hm.slots]
  exact mem_map.mpr ⟨_,h,rfl⟩

theorem id_unique (hm : SlotMap m ks n) (h : (id, k) ∈ m) (h' : (id', k) ∈ m) : id = id' := by
  have hnd : (m.map snd).Nodup := by
    rw [hm.slots]
    exact nodup_reverse.mpr hm.nodup
  exact congrArg fst (inj_on_of_nodup_map hnd h h' rfl)
end SlotMap

/-- What every filled slot of a short id holds; the other slots are as they were. -/
structure Placed (env : CompactEnv) (cmpctblock : CBlockHeaderAndShortTxIDs) (m : ShortIDMap)
    (ks : List Nat) (base : List CTransactionRef) (source : CTransaction → Prop)
    (avail : List CTransactionRef) (flags : List Bool) : Prop where
  length : avail.length = base.length
  flagsLength : flags.length = base.length
  kept : ∀ k, k ∉ ks → avail[k]? = base[k]?
  matched : ∀ id k tx, (id, k) ∈ m → avail[k]? = some (some tx) →
    flags[k]? = some true ∧ cmpctblock.getShortID env (env.witnessHash tx) = id ∧ source tx

/-- The invariant of the scan; `excess` is the number of slots that null pointers have claimed. -/
structure Filling (env : CompactEnv) (cmpctblock : CBlockHeaderAndShortTxIDs) (m : ShortIDMap)
    (ks : List Nat) (base : List CTransactionRef) (source : CTransaction → Prop) (excess : Nat)
    (s : SlotState) : Prop where
  placed : Placed env cmpctblock m ks base source s.txnAvailable s.haveTxn
  counted : s.mempoolCount = filled ks s.txnAvailable + excess
  bounded : s.mempoolCount ≤ s.haveTxn.count true

theorem set_eq_self {α : Type} {l : List α} {k : Nat} {a : α} (h : l[k]? = some a) : l.set k a = l := by
  obtain ⟨hlt,rfl⟩ := List.getElem?_eq_some_iff.mp h
  exact set_getElem_self hlt
variable {source : CTransaction → Prop} {base : List CTransactionRef} {s : SlotState} {excess : Nat}
section Scan
variable {env : CompactEnv} {cmpctblock : CBlockHeaderAndShortTxIDs} {id : BitVec 64} {k : Nat}
    {flags : List Bool}

theorem Placed.update {avail : List CTransactionRef} (h : Placed env cmpctblock m ks base source avail flags)
    (hm : SlotMap m ks base.length) (hk : (id, k) ∈ m) {slot : CTransactionRef}
    (hs : ∀ tx, slot = some tx → cmpctblock.getShortID env (env.witnessHash tx) = id ∧ source tx) :
    Placed env cmpctblock m ks base source (avail.set k slot) (flags.set k true) where
  length := by rw [length_set,h.length]
  flagsLength := by rw [length_set,h.flagsLength]
  kept := by
    intro j hj
    have hne : k ≠ j := fun heq => hj (heq ▸ hm.mem_slots hk)
    rw [getElem?_set_ne hne,h.kept j hj]
  matched := by
    intro id' j tx hj htx
    by_cases hjk : k = j
    · subst hjk
      have hlt : k < base.length := hm.bounds k (hm.mem_slots hk)
      rw [getElem?_set_self (by rw [h.length]; exact hlt),Option.some_inj] at htx
      rw [getElem?_set_self (by rw [h.flagsLength]; exact hlt),← hm.id_unique hk hj]
      exact ⟨rfl,hs tx htx⟩
    · rw [getElem?_set_ne hjk] at htx ⊢
      exact h.matched id' j tx hj htx

theorem Placed.slot {avail : List CTransactionRef} {flags : List Bool}
    (h : Placed env cmpctblock m ks base source avail flags) (hm : SlotMap m ks base.length)
    (hk : (id, k) ∈ m) :
    (flags[k]? = some false ∧ avail[k]? = some none) ∨
      (flags[k]? = some true ∧ ∃ slot, avail[k]? = some slot) := by
  have hlt : k < base.length := hm.bounds k (hm.mem_slots hk)
  obtain ⟨slot,hs⟩ : ∃ slot, avail[k]? = some slot := ⟨_,getElem?_eq_getElem (by rw [h.length]; exact hlt)⟩
  obtain ⟨flag,hflag⟩ : ∃ flag, flags[k]? = some flag :=
    ⟨_,getElem?_eq_getElem (by rw [h.flagsLength]; exact hlt)⟩
  cases flag with
  | true => exact .inr ⟨hflag,slot,hs⟩
  | false =>
    cases slot with
    | none => exact .inl ⟨hflag,hs⟩
    | some tx =>
      have := (h.matched id k tx hk hs).1
      rw [hflag] at this
      cases this

private theorem count_set_flag (h : flags[k]? = some false) :
    (flags.set k true).count true = flags.count true + 1 := by
  obtain ⟨hlt,hget⟩ := List.getElem?_eq_some_iff.mp h
  rw [count_set hlt,hget]
  simp
section Fill
variable (h : Filling env cmpctblock m ks base source excess s)
include h
variable {tx : CTransaction}
section Claim
variable (hm : SlotMap m ks base.length) (hk : (id, k) ∈ m) (hflag : s.haveTxn[k]? = some false)
  (hfree : s.txnAvailable[k]? = some none)
include hm hk hflag hfree

theorem Filling.claim (hid : cmpctblock.getShortID env (env.witnessHash tx) = id)
    (hsrc : source tx) (extraCount : Nat) :
    Filling env cmpctblock m ks base source excess
      ⟨s.txnAvailable.set k (some tx), s.haveTxn.set k true, s.mempoolCount + 1, extraCount⟩ where
  placed := h.placed.update hm hk (by rintro _ ⟨⟩; exact ⟨hid,hsrc⟩)
  counted := by
    have := h.counted
    have := filled_set_some hm.nodup (hm.mem_slots hk) hfree tx
    dsimp only
    omega
  bounded := (Nat.succ_le_succ h.bounded).trans (count_set_flag hflag).ge

theorem Filling.claimNull (extraCount : Nat) :
    Filling env cmpctblock m ks base source (excess+1)
      ⟨s.txnAvailable.set k none, s.haveTxn.set k true, s.mempoolCount + 1, extraCount⟩ where
  placed := h.placed.update hm hk (by simp)
  counted := by
    have := h.counted
    rw [set_eq_self hfree]
    dsimp only
    omega
  bounded := (Nat.succ_le_succ h.bounded).trans (count_set_flag hflag).ge
end Claim

theorem Filling.release (hm : SlotMap m ks base.length) (hs : base.length < 2^64) (hk : (id, k) ∈ m)
    (hflag : s.haveTxn[k]? = some true) (hf : s.txnAvailable[k]? = some (some tx)) (extraCount : Nat) :
    Filling env cmpctblock m ks base source excess
      ⟨s.txnAvailable.set k none, s.haveTxn, sizePred s.mempoolCount, extraCount⟩ := by
  have hcnt := filled_set_none hm.nodup (hm.mem_slots hk) hf
  have hc := h.counted
  have hb := h.bounded
  have hfl : s.haveTxn.count true ≤ s.haveTxn.length := count_le_length
  rw [h.placed.flagsLength] at hfl
  obtain ⟨n,hn⟩ : ∃ n, s.mempoolCount = n + 1 := ⟨s.mempoolCount-1,by omega⟩
  have hp : sizePred s.mempoolCount = n := by unfold sizePred; omega
  exact {
    placed := by
      have hset : s.haveTxn.set k true = s.haveTxn := set_eq_self hflag
      rw [← hset]
      exact h.placed.update hm hk (by simp)
    counted := by
      dsimp only
      omega
    bounded := by
      dsimp only
      omega }

theorem poolStep_succeeds (hm : SlotMap m ks base.length) (hsi : base.length < 2^64)
    {entry : Uint256 × CTransaction} (hent : entry.1 = env.witnessHash entry.2) (hsrc : source entry.2) :
    Succeeds (poolStep env cmpctblock m s entry)
      (Filling env cmpctblock m ks base source excess) := by
  rw [poolStep]
  split
  · exact h
  next k hs =>
    rw [ShortIDMap.slotOf_eq_some hm.keys] at hs
    rcases h.placed.slot hm hs with ⟨hflag,hfree⟩ | ⟨hflag,slot,hr⟩
    · rw [readAt_eq_ok hflag,writeAt_eq_ok hfree,writeAt_eq_ok hflag]
      exact h.claim hm hs hflag hfree (by rw [hent]) hsrc s.extraCount
    · rw [readAt_eq_ok hflag,readAt_eq_ok hr,writeAt_eq_ok hr none]
      cases slot with
      | none => exact h
      | some tx => exact h.release hm hsi hs hflag hr s.extraCount
end Fill

theorem poolLoop_succeeds (hm : SlotMap m ks base.length) (hs : base.length < 2^64)
    {entries : List (Uint256 × CTransaction)} (hen : ∀ entry ∈ entries, entry.1 = env.witnessHash entry.2)
    (hsrc : ∀ entry ∈ entries, source entry.2) (h : Filling env cmpctblock m ks base source excess s) :
    Succeeds (fillLoop m (poolStep env cmpctblock m) entries s)
      (Filling env cmpctblock m ks base source excess) := by
  induction entries generalizing s with
  | nil => exact h
  | cons entry entries ih =>
    apply (poolStep_succeeds h hm hs (hen entry mem_cons_self) (hsrc entry mem_cons_self)).bind
    intro t ht
    split
    · exact ht
    · exact ih (fun e he => hen e (mem_cons_of_mem _ he)) (fun e he => hsrc e (mem_cons_of_mem _ he)) ht
end Scan

variable (env : CompactEnv) (cmpctblock : CBlockHeaderAndShortTxIDs)
/-- An entry of the extra list that is no null pointer, or that finds no slot, or whose slot was claimed
and emptied before. -/
def Inert (m : ShortIDMap) (s : SlotState) (entry : Uint256 × CTransactionRef) : Prop :=
  entry.2 = none → ∀ k, m.slotOf (cmpctblock.getShortID env entry.1) = some k →
    s.haveTxn[k]? = some true ∧ s.txnAvailable[k]? = some none

def InertFrom (env : CompactEnv) (cmpctblock : CBlockHeaderAndShortTxIDs) (m : ShortIDMap) :
    List (Uint256 × CTransactionRef) → SlotState → Prop
  | [], _ => True
  | entry::rest, s =>
    Inert env cmpctblock m s entry ∧
      ∀ t, extraStep env cmpctblock m s entry = .ok t → t.mempoolCount ≠ m.length →
        InertFrom env cmpctblock m rest t

/-- A step or loop over the extra list: with inert entries only it keeps the excess, otherwise it
increases it or dereferences a null pointer. -/
def ExtraOutcome (m : ShortIDMap) (ks : List Nat) (base : List CTransactionRef) (source : CTransaction → Prop)
    (excess : Nat) (inert : Prop) (x : Except MemoryFault SlotState) : Prop :=
  (inert ∧ ∃ t, x = .ok t ∧ Filling env cmpctblock m ks base source excess t) ∨
    (¬ inert ∧ (x = .error .nullPointer ∨
      ∃ t excess', excess < excess' ∧ x = .ok t ∧ Filling env cmpctblock m ks base source excess' t))

section Extra
variable {env : CompactEnv} {cmpctblock : CBlockHeaderAndShortTxIDs}
theorem ExtraOutcome.congr {inert inert' : Prop} {x : Except MemoryFault SlotState}
    (h : ExtraOutcome env cmpctblock m ks base source excess inert x) (hiff : inert ↔ inert') :
    ExtraOutcome env cmpctblock m ks base source excess inert' x := by
  rwa [← propext hiff]

section
variable {key : Uint256} (h : Filling env cmpctblock m ks base source excess s) (hm : SlotMap m ks base.length)
include h hm

private theorem extraStep_null :
    ExtraOutcome env cmpctblock m ks base source excess (Inert env cmpctblock m s (key, none))
      (extraStep env cmpctblock m s (key, none)) := by
  rw [extraStep]
  split
  next hs =>
    refine .inl ⟨fun _ k hk => ?_,s,rfl,h⟩
    rw [hs] at hk
    cases hk
  next k hs =>
    have hmem := (ShortIDMap.slotOf_eq_some hm.keys).mp hs
    rcases h.placed.slot hm hmem with ⟨hflag,hfree⟩ | ⟨hflag,slot,hr⟩
    · rw [readAt_eq_ok hflag,writeAt_eq_ok hfree,writeAt_eq_ok hflag]
      refine .inr ⟨fun hi => ?_,.inr ⟨_,excess+1,Nat.lt_succ_self _,rfl,
        h.claimNull hm hmem hflag hfree (s.extraCount+1)⟩⟩
      have := (hi rfl k hs).1
      rw [hflag] at this
      cases this
    · rw [readAt_eq_ok hflag,readAt_eq_ok hr]
      cases slot with
      | none =>
        refine .inl ⟨fun _ j hj => ?_,s,rfl,h⟩
        obtain rfl : k = j := by rwa [hs,Option.some_inj] at hj
        exact ⟨hflag,hr⟩
      | some tx =>
        refine .inr ⟨fun hi => ?_,.inl rfl⟩
        have := (hi rfl k hs).2
        rw [hr] at this
        cases this

private theorem extraStep_some {extra : CTransaction}
    (hs : base.length < 2^64) (hent : key = env.witnessHash extra) (hsrc : source extra) :
    ExtraOutcome env cmpctblock m ks base source excess (Inert env cmpctblock m s (key, some extra))
      (extraStep env cmpctblock m s (key, some extra)) := by
  refine .inl ⟨fun hn => absurd hn (Option.some_ne_none extra),?_⟩
  rw [extraStep]
  split
  · exact ⟨s,rfl,h⟩
  next k hslot =>
    have hmem := (ShortIDMap.slotOf_eq_some hm.keys).mp hslot
    rcases h.placed.slot hm hmem with ⟨hflag,hfree⟩ | ⟨hflag,slot,hr⟩
    · rw [readAt_eq_ok hflag,writeAt_eq_ok hfree,writeAt_eq_ok hflag]
      exact ⟨_,rfl,h.claim hm hmem hflag hfree (by rw [hent]) hsrc (s.extraCount+1)⟩
    rw [readAt_eq_ok hflag,readAt_eq_ok hr,writeAt_eq_ok hr none]
    cases slot with
    | none => exact ⟨s,rfl,h⟩
    | some tx =>
      by_cases hh : env.witnessHash tx = env.witnessHash extra
      · exact ⟨s,by simp [hh,bind,Except.bind,pure,Except.pure],h⟩
      · exact ⟨_,by simp [hh,bind,Except.bind,pure,Except.pure],
          h.release hm hs hmem hflag hr (sizePred s.extraCount)⟩
end

theorem extraLoop_outcome (hm : SlotMap m ks base.length) (hs : base.length < 2^64)
    {entries : List (Uint256 × CTransactionRef)}
    (hen : ∀ entry ∈ entries, ∀ tx, entry.2 = some tx → entry.1 = env.witnessHash tx)
    (hsrc : ∀ entry ∈ entries, ∀ tx, entry.2 = some tx → source tx)
    (h : Filling env cmpctblock m ks base source excess s) :
    ExtraOutcome env cmpctblock m ks base source excess (InertFrom env cmpctblock m entries s)
      (fillLoop m (extraStep env cmpctblock m) entries s) := by
  induction entries generalizing s excess with
  | nil => exact .inl ⟨trivial,s,rfl,h⟩
  | cons entry entries ih =>
    have ih := fun {s : SlotState} {excess : Nat}
        (h : Filling env cmpctblock m ks base source excess s) =>
      ih (fun e he => hen e (mem_cons_of_mem _ he)) (fun e he => hsrc e (mem_cons_of_mem _ he)) h
    have hst : ExtraOutcome env cmpctblock m ks base source excess
        (Inert env cmpctblock m s entry) (extraStep env cmpctblock m s entry) := by
      obtain ⟨key,extra⟩ := entry
      cases extra with
      | none => exact extraStep_null h hm
      | some tx =>
        exact extraStep_some h hm hs (hen _ mem_cons_self tx rfl) (hsrc _ mem_cons_self tx rfl)
    rw [fillLoop,InertFrom]
    rcases hst with ⟨hi,t,hok,ht⟩ | ⟨hi,hn | ⟨t,excess',hlt,hok,ht⟩⟩
    · rw [hok]
      by_cases hcnt : t.mempoolCount = m.length
      · refine .inl ⟨⟨hi,?_⟩,t,if_pos hcnt,ht⟩
        rintro _ ⟨⟩ hne
        exact absurd hcnt hne
      · change ExtraOutcome _ _ _ _ _ _ _ _ (if t.mempoolCount = m.length then _ else _)
        rw [if_neg hcnt]
        exact (ih ht).congr ⟨fun hr => ⟨hi,by rintro _ ⟨⟩ -; exact hr⟩,fun hall => hall.2 t rfl hcnt⟩
    · rw [hn]
      exact .inr ⟨fun hall => hi hall.1,.inl rfl⟩
    · rw [hok]
      refine .inr ⟨fun hall => hi hall.1,?_⟩
      change (if t.mempoolCount = m.length then _ else _) = _ ∨
        ∃ u excess'', _ ∧ (if t.mempoolCount = m.length then _ else _) = _ ∧ _
      split
      · exact .inr ⟨t,excess',hlt,rfl,ht⟩
      · rcases ih ht with ⟨-,u,hu,hf⟩ | ⟨-,hn | ⟨u,excess'',hlt',hu,hf⟩⟩
        · exact .inr ⟨u,excess',hlt,hu,hf⟩
        · exact .inl hn
        · exact .inr ⟨u,excess'',hlt.trans hlt',hu,hf⟩
end Extra
end Lcryp
