import Lcryp.Mempool.Operations
import Lcryp.Mempool.Saturating

/-!
# When a fee leaves its range

A fee sum overflows, or the smallest amount changes its sign.
-/
namespace Lcryp
open CTxMemPool StopsUnless Saturating Option
def IsAmount (amount : Int) : Prop := int64Min ≤ amount ∧ amount ≤ int64Max
instance (amount : Int) : Decidable (IsAmount amount) := inferInstanceAs (Decidable (_ ∧ _))

/-- All partial sums of some amounts are amounts. -/
def SumsFit : Int → List Int → Prop
  | _, [] => True
  | total, amount::rest => IsAmount (total+amount) ∧ SumsFit (total+amount) rest

/-- An operation that overflows exactly if a condition fails. -/
abbrev FeeStops {α : Type} (x : Except PoolStop α) (G : Prop) (Q : α → Prop) : Prop :=
  StopsUnless PoolStop.overflow x G Q
theorem isAmount_toInt (amount : Int64) : IsAmount amount.toInt := by
  have hlow := amount.le_toInt
  have hh := amount.toInt_lt
  unfold IsAmount int64Min int64Max
  omega

theorem saturatingAdd_isAmount {i j : Int} (hi : IsAmount i) (hj : IsAmount j) :
    IsAmount (saturatingAdd i j) := by
  unfold IsAmount saturatingAdd int64Min int64Max at *
  split
  · omega
  · split
    · omega
    · omega

variable {entry : CTxMemPoolEntry} {env : MemPoolEnv} {it : Uint256}
namespace CTxMemPool
def fee (pool : CTxMemPool) (it : Uint256) : Int :=
  ((pool.mapTx.lookup it).map CTxMemPoolEntry.modifiedFee).getD 0

/-- Every entry is under its id, and fees and deltas are amounts. -/
structure Sound (env : MemPoolEnv) (pool : CTxMemPool) : Prop where
  keyed : ∀ k entry, pool.mapTx.lookup k = some entry → env.getHash entry.tx = k
  fees : ∀ k entry, pool.mapTx.lookup k = some entry → IsAmount entry.modifiedFee
  deltas : ∀ k delta, pool.mapDeltas.lookup k = some delta → IsAmount delta

/-- What the updates of links and totals leave alone. -/
structure SameFees (pool next : CTxMemPool) : Prop where
  entries : ∀ k, (next.mapTx.lookup k).map (fun entry => (entry.tx, entry.modifiedFee)) =
    (pool.mapTx.lookup k).map fun entry => (entry.tx, entry.modifiedFee)
  deltas : next.mapDeltas = pool.mapDeltas

variable {pool next last : CTxMemPool}
namespace SameFees
@[refl] theorem refl (pool : CTxMemPool) : pool.SameFees pool := ⟨fun _ => rfl,rfl⟩
theorem trans (h : pool.SameFees next) (h' : next.SameFees last) : pool.SameFees last :=
  ⟨fun k => (h'.entries k).trans (h.entries k),h'.deltas.trans h.deltas⟩
theorem fee_eq (h : pool.SameFees next) : next.fee = pool.fee := by
  funext k
  have hent := congrArg (Option.map Prod.snd) (h.entries k)
  simp only [map_map] at hent
  exact congrArg (fun found => found.getD 0) hent

theorem sound (h : pool.SameFees next) (hs : pool.Sound env) : next.Sound env := by
  have hb : ∀ k entry, next.mapTx.lookup k = some entry → ∃ old,
      pool.mapTx.lookup k = some old ∧ old.tx = entry.tx ∧ old.modifiedFee = entry.modifiedFee := by
    intro k entry hget
    have hent := h.entries k
    rw [hget,map_some,eq_comm,map_eq_some_iff] at hent
    obtain ⟨old,hold,heq⟩ := hent
    exact ⟨old,hold,congrArg Prod.fst heq,congrArg Prod.snd heq⟩
  constructor
  · intro k entry hget
    obtain ⟨old,hold,htx,_⟩ := hb k entry hget
    exact htx ▸ hs.keyed k old hold
  · intro k entry hget
    obtain ⟨old,hold,_,hfee⟩ := hb k entry hget
    exact hfee ▸ hs.fees k old hold
  · rw [h.deltas]
    exact hs.deltas
end SameFees

theorem fee_of_lookup (h : pool.mapTx.lookup it = some entry) : pool.fee it = entry.modifiedFee := by
  rw [fee,h]
  rfl

theorem Sound.isAmount_fee (h : pool.Sound env) (it : Uint256) : IsAmount (pool.fee it) := by
  cases hget : pool.mapTx.lookup it with
  | none =>
    rw [fee,hget]
    decide
  | some entry =>
    rw [fee_of_lookup hget]
    exact h.fees it entry hget

theorem Sound.isAmount_delta (h : pool.Sound env) (hash : Uint256) : IsAmount (pool.deltaOf hash) := by
  unfold deltaOf
  cases hget : pool.mapDeltas.lookup hash with
  | none => decide
  | some delta => exact h.deltas hash delta hget

theorem Sound.insert (h : pool.Sound env) (hkey : env.getHash entry.tx = it)
    (hfee : IsAmount entry.modifiedFee) : Sound env { pool with mapTx := pool.mapTx.insert it entry } := by
  constructor
  · intro k found hf
    rcases lookup_insert_cases hf with ⟨rfl,rfl⟩ | hf
    · exact hkey
    · exact h.keyed k found hf
  · intro k found hf
    rcases lookup_insert_cases hf with ⟨rfl,rfl⟩ | hf
    · exact hfee
    · exact h.fees k found hf
  · exact h.deltas

theorem deref_stops (pool : CTxMemPool) (it : Uint256) :
    FeeStops (pool.deref it) True fun entry => pool.mapTx.lookup it = some entry := by
  unfold deref
  split
  · exact nofun
  · next entry hget => exact of_ok hget

theorem modify_same {f : CTxMemPoolEntry → Except PoolStop CTxMemPoolEntry}
    (hf : ∀ entry, FeeStops (f entry) True fun updated =>
      updated.tx = entry.tx ∧ updated.modifiedFee = entry.modifiedFee) (it : Uint256) :
    FeeStops (pool.modify it f) True pool.SameFees := by
  unfold modify
  split
  · exact nofun
  next entry hget =>
    apply (hf entry).after
    rintro updated ⟨htx,hfee⟩
    refine of_ok ⟨fun k => ?_,rfl⟩
    by_cases hk : k = it
    · subst hk
      rw [AList.lookup_insert,hget,map_some,map_some,htx,hfee]
    · rw [AList.lookup_insert_ne hk]

theorem each_same {α : Type} {step : CTxMemPool → α → PoolResult}
    (hs : ∀ pool a, FeeStops (step pool a) True (SameFees pool)) (l : List α) :
    FeeStops (l.foldlM step pool) True pool.SameFees := by
  refine each (fun next a hnext => ?_) (SameFees.refl pool)
  exact (hs next a).mono fun _ => hnext.trans

theorem updateChild_same (pool : CTxMemPool) (entry child : Uint256) (add : Bool) :
    FeeStops (pool.updateChild entry child add) True pool.SameFees := by
  apply modify_same
  exact fun _ => of_ok ⟨rfl,rfl⟩

theorem updateParent_same (pool : CTxMemPool) (entry parent : Uint256) (add : Bool) :
    FeeStops (pool.updateParent entry parent add) True pool.SameFees := by
  apply modify_same
  exact fun _ => of_ok ⟨rfl,rfl⟩
end CTxMemPool

namespace Saturating
variable {pool next : CTxMemPool}
theorem plain_stops (amount : Int) :
    FeeStops (plain amount) (IsAmount amount) fun result => result = amount := by
  apply (check PoolStop.overflow (IsAmount amount)).before
  exact fun _ _ => of_ok rfl

theorem updateDescendantState_same (size fee count : Int) (entry : CTxMemPoolEntry) :
    FeeStops (updateDescendantState size fee count entry) True fun updated =>
      updated.tx = entry.tx ∧ updated.modifiedFee = entry.modifiedFee := by
  apply (StopsUnless.require (by decide) _).after
  intro _ _
  apply (StopsUnless.require (by decide) _).after
  exact fun _ _ => of_ok ⟨rfl,rfl⟩

theorem updateAncestorState_same (size fee count sigOps : Int) (entry : CTxMemPoolEntry) :
    FeeStops (updateAncestorState size fee count sigOps entry) True fun updated =>
      updated.tx = entry.tx ∧ updated.modifiedFee = entry.modifiedFee := by
  iterate 2
    apply (StopsUnless.require (by decide) _).after
    intro _ _
  apply (StopsUnless.require (by decide) _).after
  exact fun _ _ => of_ok ⟨rfl,rfl⟩

theorem updateAncestorsOf_stops (pool : CTxMemPool) (add : Bool) (it : Uint256) (setAncestors : List Uint256) :
    FeeStops (updateAncestorsOf env pool add it setAncestors)
      (IsAmount ((if add then 1 else -1) * pool.fee it)) pool.SameFees := by
  apply (deref_stops pool it).after
  intro entry hget
  rw [fee_of_lookup hget]
  apply (each_same (fun pool parent => updateChild_same pool parent it add) entry.parents).after
  intro linked hlink
  refine (plain_stops _).before fun updateFee _ => ?_
  exact (each_same (fun pool => modify_same fun e => updateDescendantState_same _ _ _ e) _).mono
    fun _ => hlink.trans

theorem sumAncestors_stops (pool : CTxMemPool) (sums : Int × Int × Int) (l : List Uint256) :
    FeeStops (sumAncestors env pool sums l) (SumsFit sums.2.1 (l.map pool.fee)) fun _ => True := by
  induction l generalizing sums with
  | nil => exact of_ok trivial
  | cons a rest ih =>
    apply (deref_stops pool a).after
    intro entry hget
    rw [List.map_cons,SumsFit,fee_of_lookup hget]
    refine (plain_stops _).bind fun result hres => ?_
    rw [← hres]
    exact ih _

theorem updateEntryForAncestors_stops (pool : CTxMemPool) (it : Uint256) (setAncestors : List Uint256) :
    FeeStops (updateEntryForAncestors env pool it setAncestors)
      (SumsFit 0 ((byHash setAncestors).map pool.fee)) pool.SameFees := by
  refine (sumAncestors_stops pool (0, 0, 0) _).before fun sums _ => ?_
  exact modify_same (fun e => updateAncestorState_same _ _ _ _ e) it

theorem updateDescendantsForRemoval_stops (pool : CTxMemPool) (removeIt : Uint256) :
    FeeStops (updateDescendantsForRemoval env pool removeIt) (IsAmount (-pool.fee removeIt))
      pool.SameFees := by
  apply (deref_stops pool removeIt).after
  intro entry hget
  rw [fee_of_lookup hget]
  refine (plain_stops _).before fun modifyFee _ => ?_
  exact each_same (fun pool => modify_same fun e => updateAncestorState_same _ _ _ _ e) _

theorem updateAncestorsForRemoval_stops (pool : CTxMemPool) (removeIt : Uint256) :
    FeeStops (updateAncestorsForRemoval env pool removeIt) (IsAmount (-pool.fee removeIt))
      pool.SameFees := by
  apply (deref_stops pool removeIt).after
  intro entry _
  have hs : FeeStops (updateAncestorsOf env pool false removeIt (ancestorsOf env pool entry)) _ _ :=
    updateAncestorsOf_stops pool false removeIt _
  simpa using hs

theorem eachRemoval_stops {step : CTxMemPool → Uint256 → PoolResult}
    (hs : ∀ pool it, FeeStops (step pool it) (IsAmount (-pool.fee it)) pool.SameFees) (stage : List Uint256) :
    FeeStops (stage.foldlM step pool) (∀ it ∈ stage, IsAmount (-pool.fee it)) pool.SameFees := by
  refine foldlM (fun next it hnext => ?_) (SameFees.refl pool)
  rw [← hnext.fee_eq]
  exact (hs next it).mono fun _ => hnext.trans

theorem updateForRemoveFromMempool_stops (pool : CTxMemPool) (stage : List Uint256) (updateDescendants : Bool) :
    FeeStops (updateForRemoveFromMempool env pool stage updateDescendants)
      (∀ it ∈ stage, IsAmount (-pool.fee it)) pool.SameFees := by
  have hr : ∀ next, pool.SameFees next → FeeStops (do
      let pool ← stage.foldlM (updateAncestorsForRemoval env) next
      stage.foldlM updateChildrenForRemoval pool)
      (∀ it ∈ stage, IsAmount (-pool.fee it)) pool.SameFees := by
    intro next hn
    rw [← hn.fee_eq]
    refine (eachRemoval_stops updateAncestorsForRemoval_stops stage).before fun last hlast => ?_
    refine (each_same (fun pool it => ?_) stage).mono fun _ => (hn.trans hlast).trans
    exact each_same (fun pool updateIt => updateParent_same pool updateIt it false) _
  cases updateDescendants with
  | false => exact hr pool (SameFees.refl pool)
  | true =>
    exact ((eachRemoval_stops updateDescendantsForRemoval_stops stage).bind fun next hn =>
      hr next hn).congr (and_self_iff)

theorem removeUnchecked_stops (h : pool.Sound env) (it : Uint256) :
    FeeStops (removeUnchecked env pool it) True (Sound env) := by
  apply (deref_stops pool it).after
  intro entry _
  apply of_ok
  exact ⟨fun k found hget => h.keyed k found (lookup_of_lookup_erase hget).2,
    fun k found hget => h.fees k found (lookup_of_lookup_erase hget).2,h.deltas⟩

theorem removeStaged_stops (h : pool.Sound env) (stage : List Uint256) (updateDescendants : Bool) :
    FeeStops (removeStaged env pool stage updateDescendants)
      (∀ it ∈ stage, pool.fee it ≠ int64Min) (Sound env) := by
  have hs : (∀ it ∈ stage, IsAmount (-pool.fee it)) ↔ ∀ it ∈ stage, pool.fee it ≠ int64Min :=
    forall₂_congr fun it _ => by
      have hfee := h.isAmount_fee it
      unfold IsAmount int64Min int64Max at *
      omega
  refine congr ?_ hs
  refine (updateForRemoveFromMempool_stops pool stage updateDescendants).before fun next hn => ?_
  exact each (fun _ it hsound => removeUnchecked_stops hsound it) (hn.sound h)

theorem applyDelta_stops (pool : CTxMemPool) (hash : Uint256) {fee : Int} (hfee : IsAmount fee) :
    FeeStops (applyDelta pool hash fee) (IsAmount (fee + pool.deltaOf hash))
      fun result => result = fee + pool.deltaOf hash := by
  unfold applyDelta deltaOf
  split
  next hget =>
    rw [hget,getD_none,add_zero]
    exact ⟨hfee,rfl⟩
  next delta hget =>
    rw [hget]
    exact plain_stops _

theorem modifyFee_stops (h : pool.Sound env) (it : Uint256) {feeDiff : Int} (hd : IsAmount feeDiff) :
    FeeStops (pool.modify it (updateModifiedFee · feeDiff)) True (Sound env) := by
  unfold CTxMemPool.modify
  split
  · exact fun heq => nomatch heq
  next entry hget =>
    apply of_ok
    exact h.insert (h.keyed it entry hget) (saturatingAdd_isAmount (h.fees it entry hget) hd)

theorem enter_stops (h : pool.Sound env) (hfee : IsAmount entry.modifiedFee) :
    FeeStops (enter env pool entry) True (Sound env) := by
  have hins : (insertEntry env pool entry).Sound env := by
    unfold insertEntry
    split
    · exact h
    · exact h.insert rfl hfee
  have hd := hins.isAmount_delta (env.getHash entry.tx)
  rw [← zero_add (deltaOf _ _)] at hd
  have ha : FeeStops (applyDelta (insertEntry env pool entry) (env.getHash entry.tx) 0) True
      fun delta => IsAmount delta := by
    refine ((applyDelta_stops _ _ (by decide)).mono fun delta heq => ?_).congr (iff_true_intro hd)
    rwa [heq]
  apply ha.after
  intro delta hamt
  split
  · exact modifyFee_stops hins _ hamt
  · exact of_ok hins

theorem linkParents_same (pool : CTxMemPool) (newit : Uint256) :
    FeeStops (pool.linkParents newit) True pool.SameFees := by
  apply (deref_stops pool newit).after
  intro entry _
  have hs : ∀ (l : List COutPoint) next, pool.SameFees next →
      pool.SameFees (l.foldl (fun pool prevout => pool.insertNextTx prevout entry.tx) next) := by
    intro l
    induction l with
    | nil => exact fun _ hn => hn
    | cons prevout rest ih =>
      intro next hn
      apply ih
      simp only [insertNextTx]
      split
      · exact hn
      · exact ⟨hn.entries,hn.deltas⟩
  refine (each_same (fun pool pit => updateParent_same pool newit pit true) _).mono fun _ => ?_
  exact (hs _ pool (SameFees.refl pool)).trans

theorem addUnchecked_stops (h : pool.Sound env)
    (hfee : IsAmount entry.modifiedFee) (setAncestors : List Uint256) :
    FeeStops (addUnchecked env pool entry setAncestors)
      (∀ entered, enter env pool entry = .ok entered →
        SumsFit 0 ((byHash setAncestors).map entered.fee)) (Sound env) := by
  refine ((enter_stops h hfee).bind_each fun entered hentered => ?_).congr (iff_of_eq (true_and _))
  apply (linkParents_same entered _).after
  intro linked hl
  have hown : IsAmount ((if true then 1 else -1) * linked.fee (env.getHash entry.tx)) := by
    rw [if_pos rfl,one_mul]
    exact (hl.sound hentered).isAmount_fee _
  apply ((updateAncestorsOf_stops linked true _ setAncestors).congr (iff_true_intro hown)).after
  intro counted hcnt
  have hsa := hl.trans hcnt
  rw [← hsa.fee_eq]
  apply (updateEntryForAncestors_stops counted _ setAncestors).before
  intro next hn
  have hs := (hsa.trans hn).sound hentered
  exact of_ok ⟨hs.keyed,hs.fees,hs.deltas⟩

theorem prioritiseTransaction_stops (h : pool.Sound env) (hash : Uint256) {nFeeDelta : Int}
    (hd : IsAmount nFeeDelta) : FeeStops (prioritiseTransaction env pool hash nFeeDelta) True (Sound env) := by
  have hn : Sound env { pool with
      mapDeltas := pool.mapDeltas.insert hash (saturatingAdd (pool.deltaOf hash) nFeeDelta) } := by
    refine ⟨h.keyed,h.fees,fun k delta hget => ?_⟩
    rcases lookup_insert_cases hget with ⟨rfl,rfl⟩ | hget
    · exact saturatingAdd_isAmount (h.isAmount_delta k) hd
    · exact h.deltas k delta hget
  unfold prioritiseTransaction CTxMemPool.prioritiseTransaction
  dsimp only
  split
  · apply (modifyFee_stops hn hash hd).after
    intro changed hchanged
    apply (deref_stops changed hash).after
    intro entry _
    apply (each_same (fun pool => modify_same fun e => updateDescendantState_same _ _ _ e) _).after
    intro counted hcnt
    refine (each_same (fun pool => modify_same fun e => updateAncestorState_same _ _ _ _ e) _).mono ?_
    exact fun last hlast => (hcnt.trans hlast).sound hchanged
  · exact of_ok hn
variable {limits : MemPoolLimits} {setExclude : List Uint256} {update : CTxMemPoolEntry}
  {updateIt : Uint256}

theorem updateDescendant_stops {sums : DescendantSums} (h : sums.state.pool.Sound env) (d : Uint256) :
    FeeStops (updateDescendant env limits setExclude updateIt update sums d)
      (d ∉ setExclude → IsAmount (sums.modifyFee + sums.state.pool.fee d))
      fun next => sums.state.pool.SameFees next.state.pool ∧ next.modifyFee =
        if d ∈ setExclude then sums.modifyFee else sums.modifyFee + sums.state.pool.fee d := by
  apply (deref_stops sums.state.pool d).after
  intro entry hget
  rw [h.keyed d entry hget,fee_of_lookup hget]
  by_cases hout : d ∈ setExclude
  · rw [if_pos hout,if_pos hout]
    exact ⟨fun hnot => absurd hout hnot,SameFees.refl _,rfl⟩
  rw [if_neg hout,if_neg hout]
  refine ((plain_stops _).before fun modifyFee hfee => ?_).congr (by simp [hout])
  apply (modify_same (fun e => updateAncestorState_same _ _ _ _ e) d).after
  intro next hn
  apply (deref_stops next d).after
  exact fun _ _ => of_ok ⟨hn,hfee⟩

theorem updateDescendants_stops (sums : DescendantSums) (h : sums.state.pool.Sound env) (l : List Uint256) :
    FeeStops (l.foldlM (updateDescendant env limits setExclude updateIt update) sums)
      (SumsFit sums.modifyFee ((l.filter (· ∉ setExclude)).map sums.state.pool.fee))
      fun next => sums.state.pool.SameFees next.state.pool := by
  induction l generalizing sums with
  | nil => exact of_ok (SameFees.refl _)
  | cons d rest ih =>
    refine ((updateDescendant_stops h d).bind (H := SumsFit
      (if d ∈ setExclude then sums.modifyFee else sums.modifyFee + sums.state.pool.fee d)
      ((rest.filter (· ∉ setExclude)).map sums.state.pool.fee)) ?_).congr ?_
    · rintro next ⟨hs,hfee⟩
      rw [← hfee,← hs.fee_eq]
      exact (ih next (hs.sound h)).mono fun _ => hs.trans
    · by_cases hout : d ∈ setExclude
      · simp [hout]
      · simp [hout,SumsFit]

/-- The fees of the descendants that are not excluded, as `UpdateForDescendants` sums them up. -/
def descendantFees (state : ReorgState) (setExclude : List Uint256) (updateIt : Uint256) : List Int :=
  ((descendantsOf state.pool state.cachedDescendants updateIt).filter (· ∉ setExclude)).map state.pool.fee

theorem updateForDescendants_stops {state : ReorgState}
    (h : state.pool.Sound env) (setExclude : List Uint256) (updateIt : Uint256) :
    FeeStops (updateForDescendants env limits setExclude state updateIt)
      (SumsFit 0 (descendantFees state setExclude updateIt))
      fun next => state.pool.SameFees next.pool := by
  apply (deref_stops state.pool updateIt).after
  intro update _
  apply (updateDescendants_stops ⟨state,0,0,0⟩ h _).before
  intro sums hs
  apply (modify_same (fun e => updateDescendantState_same _ _ _ e) updateIt).after
  exact fun next hn => of_ok (hs.trans hn)

theorem linkSpenders_same (setAlreadyIncluded : List Uint256) (pool : CTxMemPool) (hash : Uint256) :
    FeeStops (linkSpenders env setAlreadyIncluded pool hash) True fun linked =>
      pool.SameFees linked.1 := by
  refine each (fun linked child hl => ?_) (SameFees.refl pool)
  apply (StopsUnless.require (by decide) _).after
  intro _ _
  split
  · exact of_ok hl
  · apply (updateChild_same _ _ _ _).after
    intro first hfst
    apply (updateParent_same _ _ _ _).after
    exact fun last hlast => of_ok (hl.trans (hfst.trans hlast))

def DescendantsFit (env : MemPoolEnv) (setAlreadyIncluded : List Uint256) (state : ReorgState)
    (hash : Uint256) : Prop :=
  hash ∈ state.pool.mapTx → ∀ linked, linkSpenders env setAlreadyIncluded state.pool hash = .ok linked →
    SumsFit 0 (descendantFees { state with pool := linked.1 } setAlreadyIncluded hash)

theorem updateTransactionFromBlock_stops {setAlreadyIncluded : List Uint256}
    (state : ReorgState) (hash : Uint256) (h : state.pool.Sound env) :
    FeeStops (updateTransactionFromBlock env limits setAlreadyIncluded state hash)
      (DescendantsFit env setAlreadyIncluded state hash) fun next => next.pool.Sound env := by
  unfold updateTransactionFromBlock CTxMemPool.updateTransactionFromBlock DescendantsFit
  split
  next hin =>
    refine congr (G := True ∧ ∀ linked, linkSpenders env setAlreadyIncluded state.pool hash = .ok linked →
        SumsFit 0 (descendantFees { state with pool := linked.1 } setAlreadyIncluded hash)) ?_
      (by simp [hin])
    refine (linkSpenders_same setAlreadyIncluded state.pool hash).bind_each fun linked hl => ?_
    refine (updateForDescendants_stops ?_ setAlreadyIncluded hash).mono fun next hn => ?_
    · exact hl.sound h
    · exact (hl.trans hn).sound h
  · next hout => exact ⟨fun hin => absurd hin hout,h⟩

/-- The entries that leave the pool with one that has too many ancestors. -/
def RemovalFits (pool : CTxMemPool) (txid : Uint256) : Prop :=
  txid ∈ pool.mapTx → ∀ it ∈ pool.withDescendants [txid], pool.fee it ≠ int64Min

theorem removeExceeding_stops (pool : CTxMemPool) (txid : Uint256) (h : pool.Sound env) :
    FeeStops (removeExceeding env pool txid) (RemovalFits pool txid) (Sound env) := by
  unfold removeExceeding CTxMemPool.removeExceeding RemovalFits
  split
  next hget =>
    exact ⟨fun hin => absurd hin (AList.lookup_eq_none.mp hget),h⟩
  next entry hget =>
    have hin := AList.lookup_isSome.mp (isSome_of_eq_some hget)
    unfold removeRecursive
    rw [h.keyed txid entry hget]
    apply (StopsUnless.require (by decide) _).after
    intro _ _
    exact (removeStaged_stops h _ false).congr (by simp [hin])

def BlockFits (env : MemPoolEnv) (limits : MemPoolLimits) (pool : CTxMemPool)
    (vHashesToUpdate : List Uint256) : Prop :=
  AlongLoop (updateTransactionFromBlock env limits vHashesToUpdate)
      (DescendantsFit env vHashesToUpdate) ⟨pool, ∅, []⟩ vHashesToUpdate.reverse ∧
    ∀ state, vHashesToUpdate.reverse.foldlM (updateTransactionFromBlock env limits vHashesToUpdate)
        ⟨pool, ∅, []⟩ = .ok state →
      AlongLoop (removeExceeding env) RemovalFits state.pool (byHash state.descendantsToRemove)

theorem updateTransactionsFromBlock_stops (h : pool.Sound env) (vHashesToUpdate : List Uint256) :
    FeeStops (updateTransactionsFromBlock env limits pool vHashesToUpdate)
      (BlockFits env limits pool vHashesToUpdate) (Sound env) := by
  have hl : FeeStops (vHashesToUpdate.reverse.foldlM
      (updateTransactionFromBlock env limits vHashesToUpdate) ⟨pool,∅,[]⟩) _
      fun state => state.pool.Sound env :=
    alongLoop updateTransactionFromBlock_stops h
  exact hl.bind_each fun state hst => alongLoop removeExceeding_stops hst
end Saturating

namespace FeeOp
variable (env : MemPoolEnv)
def Fits (pool : CTxMemPool) : FeeOp → Prop
  | prioritiseTransaction _ _ => True
  | clearPrioritisation _ => True
  | preChecks hash baseFees => IsAmount (baseFees.toInt + pool.deltaOf hash)
  | addUnchecked tx fee nTime sigOpCost setAncestors =>
    ∀ entered, Saturating.enter env pool (.new env tx fee.toInt nTime sigOpCost) = .ok entered →
      SumsFit 0 ((byHash setAncestors).map entered.fee)
  | removeStaged stage _ => ∀ it ∈ stage, pool.fee it ≠ int64Min
  | updateTransactionsFromBlock limits vHashesToUpdate =>
    Saturating.BlockFits env limits pool vHashesToUpdate

variable {env}
theorem apply_stops (pool : CTxMemPool) (op : FeeOp) (h : pool.Sound env) :
    FeeStops (op.apply env pool) (op.Fits env pool) (Sound env) := by
  cases op with
  | prioritiseTransaction hash nFeeDelta =>
    exact prioritiseTransaction_stops h hash (isAmount_toInt nFeeDelta)
  | clearPrioritisation hash =>
    refine of_ok ⟨h.keyed,h.fees,fun k delta hget => ?_⟩
    exact h.deltas k delta (lookup_of_lookup_erase hget).2
  | preChecks hash baseFees =>
    exact (applyDelta_stops pool hash (isAmount_toInt baseFees)).before fun _ _ => of_ok h
  | addUnchecked tx fee nTime sigOpCost setAncestors =>
    exact addUnchecked_stops h (isAmount_toInt fee) setAncestors
  | removeStaged stage updateDescendants =>
    exact removeStaged_stops h stage updateDescendants
  | updateTransactionsFromBlock limits vHashesToUpdate =>
    exact updateTransactionsFromBlock_stops h vHashesToUpdate
end FeeOp

/-- No fee arithmetic of a run overflows if that of every operation that is reached stays in its range, which it
does in every run that gets to its end. -/
theorem feeRun_noOverflow (env : MemPoolEnv) (ops : List FeeOp) :
    (AlongLoop (FeeOp.apply env) (FeeOp.Fits env) .empty ops → FeeOp.run env .empty ops ≠ .error .overflow) ∧
      ∀ pool, FeeOp.run env .empty ops = .ok pool →
        AlongLoop (FeeOp.apply env) (FeeOp.Fits env) .empty ops := by
  have hrun : FeeStops (FeeOp.run env .empty ops) _ (Sound env) :=
    alongLoop FeeOp.apply_stops (by constructor <;> simp [empty])
  exact ⟨hrun.ne_stop,fun pool hok => hrun.holds_of_ok hok⟩

/-- The largest delta overflows with the fee of the transaction. -/
theorem prioritised_overflows :
    FeeOp.run lockTimeEnv .empty
      [.prioritiseTransaction 1 (Int64.ofInt int64Max), .preChecks 1 1] = .error .overflow := by
  have hstop : stopOf (FeeOp.run lockTimeEnv .empty
      [.prioritiseTransaction 1 (Int64.ofInt int64Max),.preChecks 1 1]) = some .overflow := by
    decide +kernel
  exact stopOf_eq_some.mp hstop
end Lcryp
