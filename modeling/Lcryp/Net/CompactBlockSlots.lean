import Lcryp.Framework.Slots
import Lcryp.Net.CompactBlock

/-!
# The slots of a compact block

Prefilled transactions fill the slots that their differential indices name; short ids get the others.
-/
namespace Lcryp
open Codec Slots List Nat
variable {env : CompactEnv}
theorem unserializeCompactBlock_eq_ok {s rest : Bytes} {cmpctblock : CBlockHeaderAndShortTxIDs}
    (h : (unserializeCompactBlock env).run s = .ok (cmpctblock, rest)) : cmpctblock.blockTxCount ≤ 65535 := by
  simp only [unserializeCompactBlock,run_bind_eq_ok] at h
  obtain ⟨header,s₁,-,nonce,s₂,-,shorttxids,s₃,-,prefilledtxn,s₄,-,h⟩ := h
  split at h
  · obtain ⟨_,_,h,_⟩ := run_bind_eq_ok.mp h
    rw [run_throw_ne_ok] at h
    exact h.elim
  · simp only [run_pure_eq_ok] at h
    rw [← h.1]
    simp only [CBlockHeaderAndShortTxIDs.blockTxCount,CBlockHeaderAndShortTxIDs.withSelector]
    omega

/-- The indices that differences encode, if the first may be `next`. -/
def prefilledSlots : Nat → List PrefilledTransaction → List Nat
  | _, [] => []
  | next, p::rest => (next+p.index.toNat)::prefilledSlots (next + p.index.toNat + 1) rest

def placeAll : Nat → List PrefilledTransaction → List CTransactionRef → List CTransactionRef
  | _, [], avail => avail
  | next, p::rest, avail =>
    placeAll (next + p.index.toNat + 1) rest (avail.set (next+p.index.toNat) (some p.tx))

theorem placePrefilled_succeeds {nShort i : Nat} (next : Nat) {rest : List PrefilledTransaction}
    {avail : List CTransactionRef} (hlen : avail.length = nShort + i + rest.length) :
    Succeeds (placePrefilled nShort rest i ((next : Int) - 1) avail) fun r =>
      r.1 = true → r.2 = placeAll next rest avail ∧ ∀ k ∈ prefilledSlots next rest, k < avail.length := by
  induction rest generalizing i next avail with
  | nil => exact fun _ => ⟨rfl,by simp [prefilledSlots]⟩
  | cons p rest ih =>
    have hl : (next : Int) - 1 + (p.index.toNat+1) = ((next + p.index.toNat + 1 : Nat) : Int) - 1 := by
      push_cast
      ring
    have ht : (((next + p.index.toNat + 1 : Nat) : Int) - 1).toNat = next + p.index.toNat := by omega
    rw [length_cons] at hlen
    simp only [placePrefilled,hl,ht]
    iterate 3
      split
      · exact nofun
    next hidx =>
      have hlt : next + p.index.toNat < avail.length := by omega
      rw [writeAt,if_pos hlt]
      apply (ih (next + p.index.toNat + 1) (by rw [length_set]; omega)).mono
      intro r hr hok
      obtain ⟨ha,hslots⟩ := hr hok
      rw [length_set] at hslots
      exact ⟨ha,by simpa [prefilledSlots] using ⟨hlt,hslots⟩⟩

variable {avail : List CTransactionRef}
section PlaceAll
variable {next k : Nat} {rest : List PrefilledTransaction}
theorem length_placeAll : (placeAll next rest avail).length = avail.length := by
  induction rest generalizing next avail with
  | nil => rfl
  | cons p rest ih => rw [placeAll,ih,length_set]

theorem le_of_mem_prefilledSlots (h : k ∈ prefilledSlots next rest) : next ≤ k := by
  induction rest generalizing next with
  | nil => cases h
  | cons p rest ih =>
    rw [prefilledSlots,mem_cons] at h
    rcases h with rfl | h
    · exact le_add_right _ _
    · have := ih h
      omega

theorem length_prefilledSlots : (prefilledSlots next rest).length = rest.length := by
  induction rest generalizing next with
  | nil => rfl
  | cons p rest ih => rw [prefilledSlots,length_cons,ih,length_cons]

theorem getElem?_placeAll_other (h : k ∉ prefilledSlots next rest) :
    (placeAll next rest avail)[k]? = avail[k]? := by
  induction rest generalizing next avail with
  | nil => rfl
  | cons p rest ih =>
    rw [prefilledSlots,mem_cons,not_or] at h
    rw [placeAll,ih h.2,getElem?_set_ne (Ne.symm h.1)]
section Placed
variable (hslots : ∀ k ∈ prefilledSlots next rest, k < avail.length)
include hslots

theorem getElem?_placeAll {j : Nat} {p : PrefilledTransaction} (hp : rest[j]? = some p)
    (hk : (prefilledSlots next rest)[j]? = some k) : (placeAll next rest avail)[k]? = some (some p.tx) := by
  induction rest generalizing next avail j with
  | nil => cases hp
  | cons q rest ih =>
    rw [prefilledSlots] at hslots hk
    rw [placeAll]
    cases j with
    | zero =>
      obtain rfl : q = p := by simpa using hp
      obtain rfl : next + q.index.toNat = k := by simpa using hk
      rw [getElem?_placeAll_other fun h => by have := le_of_mem_prefilledSlots h; omega,
        getElem?_set_self (hslots _ mem_cons_self)]
    | succ j =>
      exact ih (fun k hk => by rw [length_set]; exact hslots k (mem_cons_of_mem _ hk))
        (by simpa using hp) (by simpa using hk)

theorem isSome_placeAll
    (hk : k ∈ prefilledSlots next rest) : ((placeAll next rest avail)[k]?.join.isSome : Bool) := by
  obtain ⟨j,hj⟩ := getElem?_of_mem hk
  have hlt := (List.getElem?_eq_some_iff.mp hj).1
  rw [length_prefilledSlots] at hlt
  simp [getElem?_placeAll hslots (getElem?_eq_getElem hlt) hj]

theorem countP_placeAll (hf : ∀ k, next ≤ k → k < avail.length → avail[k]? = some none) :
    (placeAll next rest avail).countP Option.isSome = avail.countP Option.isSome + rest.length := by
  induction rest generalizing next avail with
  | nil => rfl
  | cons p rest ih =>
    have hlt : next + p.index.toNat < avail.length := hslots _ mem_cons_self
    have hn : avail[next+p.index.toNat] = none := by
      have := hf _ (le_add_right _ _) hlt
      rwa [getElem?_eq_getElem hlt,Option.some_inj] at this
    rw [placeAll,ih,countP_set hlt,hn]
    · simp
      omega
    · intro k hk
      rw [length_set]
      exact hslots k (mem_cons_of_mem _ hk)
    · intro k hk hklt
      rw [length_set] at hklt
      rw [getElem?_set_ne (by omega)]
      exact hf k (by omega) hklt
end Placed
end PlaceAll

/-- The slots of a block of `n` transactions that no prefilled transaction has. -/
def otherSlots (prefilledtxn : List PrefilledTransaction) (n : Nat) : List Nat :=
  (range n).filter fun k => k ∉ prefilledSlots 0 prefilledtxn

variable {prefilledtxn : List PrefilledTransaction}
theorem mem_otherSlots {n k : Nat} :
    k ∈ otherSlots prefilledtxn n ↔ k < n ∧ k ∉ prefilledSlots 0 prefilledtxn := by
  simp [otherSlots]

theorem freeFrom_placeAll {n : Nat} (hslots : ∀ k ∈ prefilledSlots 0 prefilledtxn, k < n) :
    freeFrom 0 (placeAll 0 prefilledtxn (replicate n none)) = otherSlots prefilledtxn n := by
  rw [freeFrom_eq_filter,length_placeAll,length_replicate,otherSlots,range_eq_range']
  apply filter_congr
  intro k hk
  rw [← range_eq_range',mem_range] at hk
  rw [Nat.sub_zero]
  by_cases hmem : k ∈ prefilledSlots 0 prefilledtxn
  · have hlt : ∀ k ∈ prefilledSlots 0 prefilledtxn, k < (replicate n (none : CTransactionRef)).length := by
      simpa using hslots
    have hs := isSome_placeAll hlt hmem
    simp [hmem,hs]
  · rw [getElem?_placeAll_other hmem]
    simp [hk,hmem]

theorem length_otherSlots {nShort : Nat}
    (hslots : ∀ k ∈ prefilledSlots 0 prefilledtxn, k < nShort + prefilledtxn.length) :
    (otherSlots prefilledtxn (nShort+prefilledtxn.length)).length = nShort := by
  have hcnt := length_freeFrom 0
    (placeAll 0 prefilledtxn (replicate (nShort+prefilledtxn.length) none))
  rw [freeFrom_placeAll hslots,countP_placeAll (by simpa using hslots),length_placeAll] at hcnt
  · simp [countP_replicate] at hcnt
    omega
  · intro k _ hk
    rw [length_replicate] at hk
    simp [hk]

def ShortIDMap.assignAll : ShortIDMap → List (BitVec 64 × Nat) → ShortIDMap
  | m, [] => m
  | m, e::pairs => (m.assign e.1 e.2).assignAll pairs

section Index
theorem skipFilled_eq_ok {i fuel indexOffset k : Nat} {suffix : List CTransactionRef} {ks : List Nat}
    (hlen : avail.length ≤ 65535) (hsuf : avail.drop (i+indexOffset) = suffix)
    (hf : freeFrom (i+indexOffset) suffix = k::ks) (hfu : suffix.length ≤ fuel) :
    ∃ indexOffset', skipFilled avail i fuel indexOffset = .ok indexOffset' ∧ i + indexOffset' = k ∧
      k < avail.length ∧ freeFrom (k+1) (avail.drop (k+1)) = ks := by
  induction suffix generalizing fuel indexOffset with
  | nil => cases hf
  | cons slot suffix ih =>
    have hs : avail[i+indexOffset]? = some slot := by rw [← head?_drop,hsuf]; rfl
    have hlt := (List.getElem?_eq_some_iff.mp hs).1
    have hd : avail.drop (i + (indexOffset+1)) = suffix := by
      rw [← add_assoc,← tail_drop,hsuf,tail_cons]
    obtain ⟨fuel,rfl⟩ : ∃ n, fuel = n + 1 := ⟨fuel-1,by simp at hfu; omega⟩
    rw [skipFilled,readAt_eq_ok hs]
    cases slot with
    | none =>
      obtain ⟨rfl,rfl⟩ : i + indexOffset = k ∧ freeFrom (i + indexOffset + 1) suffix = ks := by
        simpa [freeFrom] using hf
      exact ⟨indexOffset,rfl,rfl,hlt,by rw [add_assoc,hd]⟩
    | some tx =>
      have hw : (indexOffset+1) % 65536 = indexOffset + 1 := mod_eq_of_lt (by omega)
      obtain ⟨indexOffset',hsk,hr⟩ := ih hd hf (le_of_succ_le_succ hfu)
      exact ⟨indexOffset',by simpa [bind,Except.bind,hw] using hsk,hr⟩

theorem indexShortIDs_succeeds {ids : List (BitVec 64)} {i indexOffset : Nat}
    {m : ShortIDMap} (hlen : avail.length ≤ 65535)
    (hcnt : (freeFrom (i+indexOffset) (avail.drop (i+indexOffset))).length = ids.length) :
    Succeeds (indexShortIDs env avail ids i indexOffset m) fun r => r.1 = true →
      r.2 = m.assignAll (ids.zip (freeFrom (i+indexOffset) (avail.drop (i+indexOffset)))) := by
  induction ids generalizing i indexOffset m with
  | nil => exact fun _ => rfl
  | cons id ids ih =>
    obtain ⟨k,ks,hf⟩ := exists_cons_of_length_pos (by rw [hcnt]; exact succ_pos _)
    have hfu : (avail.drop (i+indexOffset)).length ≤ avail.length + 1 := by
      rw [length_drop]
      omega
    obtain ⟨indexOffset',hs,rfl,hk,hks⟩ := skipFilled_eq_ok hlen rfl hf hfu
    have hw : (i+indexOffset') % 65536 = i + indexOffset' := mod_eq_of_lt (by omega)
    have hn : i + 1 + indexOffset' = i + indexOffset' + 1 := by omega
    rw [hf] at hcnt ⊢
    rw [indexShortIDs,hs,← hks,← hn]
    simp only [bind,Except.bind,hw]
    split
    · exact nofun
    · apply ih
      rw [hn,hks]
      simpa using hcnt
end Index
end Lcryp
