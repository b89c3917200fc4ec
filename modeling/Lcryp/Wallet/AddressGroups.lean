import Lcryp.Address.KeyIo
import Lcryp.Framework.Components
import Lcryp.Primitives.Transaction
import Mathlib.Data.List.AList
import Mathlib.Order.Lattice.Nat

/-!
# Address groupings

`GetAddressGroupings` of `wallet/receive.cpp`.  The sets it merges are objects on the heap; reading one
that was deleted gives `none`.
-/
namespace Lcryp
open Relation Finset Function
/-- What the wallet knows of scripts and addresses, and its transactions. -/
structure AddressWallet where
  mapWallet : AList fun _ : Uint256 => CTransaction
  isMine : CScript → Bool
  extractDestination : CScript → Option CTxDestination
  findAddressBookEntry : CTxDestination → Bool

variable (wallet : AddressWallet)
namespace AddressWallet
def spentOutput (txin : CTxIn) : Option CTxOut :=
  (wallet.mapWallet.lookup txin.prevout.hash).bind fun prev => prev.vout[txin.prevout.n]?
def inputIsMine (txin : CTxIn) : Bool := (wallet.spentOutput txin).any fun out => wallet.isMine out.scriptPubKey
def scriptIsChange (script : CScript) : Bool :=
  wallet.isMine script && match wallet.extractDestination script with
    | none => true
    | some address => !wallet.findAddressBookEntry address

def outputIsChange (txout : CTxOut) : Bool := wallet.scriptIsChange txout.scriptPubKey
def outputAddress (txout : CTxOut) : Option CTxDestination := wallet.extractDestination txout.scriptPubKey

variable (tx : CTransaction)
def inputAddresses : List CTxDestination :=
  tx.vin.filterMap fun txin =>
    if wallet.inputIsMine txin then (wallet.spentOutput txin).bind wallet.outputAddress else none

def changeAddresses : List CTxDestination :=
  (tx.vout.filter wallet.outputIsChange).filterMap wallet.outputAddress

/-- The addresses that a transaction spends from, and with them its change. -/
def spentTogether : Finset CTxDestination :=
  let any_mine := !(wallet.inputAddresses tx).isEmpty
  (wallet.inputAddresses tx++if any_mine then wallet.changeAddresses tx else []).toFinset

/-- The first loop: what one transaction of the wallet adds to `groupings`. -/
def addGroupings (groupings : Finset (Finset CTxDestination)) (tx : CTransaction) :
    Finset (Finset CTxDestination) :=
  let grouping := wallet.spentTogether tx
  let groupings := if 0 < tx.vin.length ∧ 0 < grouping.card then insert grouping groupings else groupings
  ((tx.vout.filter fun out => wallet.isMine out.scriptPubKey).filterMap wallet.outputAddress).foldl
    (fun groupings address => insert {address} groupings) groupings

def transactions : List CTransaction := wallet.mapWallet.entries.map Sigma.snd
def collectGroupings : Finset (Finset CTxDestination) := wallet.transactions.foldl wallet.addGroupings ∅
end AddressWallet

/-- What the source leaves to the library: the order in which the elements of a set are visited and the
address of the `n`th new object. -/
structure SetRuntime where
  visit {α : Type} : Finset α → List α
  mem_visit {α : Type} (s : Finset α) (a : α) : a ∈ visit s ↔ a ∈ s
  nodup_visit {α : Type} (s : Finset α) : (visit s).Nodup
  alloc : Nat → Finset Nat → Nat
  alloc_fresh (n : Nat) (used : Finset Nat) : alloc n used ∉ used

noncomputable def listRuntime : SetRuntime where
  visit := toList
  mem_visit _ _ := mem_toList
  nodup_visit := nodup_toList
  alloc n used := used.sup id + n + 1
  alloc_fresh n used hmem := by
    have hle := le_sup (f := id) hmem
    rw [id] at hle
    omega

variable {α β : Type}
section Merge
/-- Read a set through its pointer, use it and delete it. -/
def release (f : β → Finset α → β) :
    (Nat → Option (Finset α)) × β → Nat → Option ((Nat → Option (Finset α)) × β)
  | (heap, acc), hit => do
    let members ← heap hit
    return (update heap hit none, f acc members)

/-- The pointers in `uniqueGroupings` are those of the sets that are not deleted. -/
structure GroupState (α : Type) where
  allocated : Nat
  heap : Nat → Option (Finset α)
  uniqueGroupings : Finset Nat
  setmap : α → Option Nat

variable [DecidableEq α] (rt : SetRuntime)
/-- The second loop: one grouping joined with the sets that its addresses are in. -/
def mergeGrouping (st : GroupState α) (grouping : Finset α) : Option (GroupState α) := do
  let hits := grouping.biUnion fun address => (st.setmap address).toFinset
  let ptr := rt.alloc st.allocated st.uniqueGroupings
  let (heap, merged) ← (rt.visit hits).foldlM (release (· ∪ ·)) (st.heap, grouping)
  return ⟨st.allocated + 1, update heap ptr merged, insert ptr (st.uniqueGroupings \ hits),
    fun element => if element ∈ merged then some ptr else st.setmap element⟩

def mergeGroupings (groupings : Finset (Finset α)) : Option (Finset (Finset α)) := do
  let st ← (rt.visit groupings).foldlM (mergeGrouping rt) ⟨0, fun _ => none, ∅, fun _ => none⟩
  let (_, ret) ← (rt.visit st.uniqueGroupings).foldlM (release fun ret s => insert s ret) (st.heap, ∅)
  return ret
end Merge

def AddressWallet.getAddressGroupings (wallet : AddressWallet) (rt : SetRuntime) :
    Option (Finset (Finset CTxDestination)) :=
  mergeGroupings rt wallet.collectGroupings

section Merge
variable {heap : Nat → Option (Finset α)} {G : Set (Finset α)} {ps : List Nat}
theorem release_run {f : β → Finset α → β} (hn : ps.Nodup) {c : Nat → Finset α}
    (hc : ∀ p ∈ ps, heap p = some (c p)) (acc : β) : ps.foldlM (release f) (heap, acc) =
      some (fun p => if p ∈ ps then none else heap p, ps.foldl (fun acc p => f acc (c p)) acc) := by
  induction ps generalizing heap acc with
  | nil => simp
  | cons p ps ih =>
    simp only [List.nodup_cons,List.mem_cons,forall_eq_or_imp] at hn hc
    have hr := @ih (update heap p none) hn.2 (fun q hq => by
      rw [update_of_ne (ne_of_mem_of_not_mem hq hn.1),hc.2 q hq]) (f acc (c p))
    rw [List.foldlM_cons,release,hc.1]
    refine hr.trans ?_
    congr 2
    funext q
    by_cases hq : q = p <;> simp [hq]

variable [DecidableEq α] {st : GroupState α} (rt : SetRuntime)
/-- What holds after the groupings `G` are merged: `c` gives the set behind each pointer. -/
structure Grouped (G : Set (Finset α)) (c : Nat → Finset α) (st : GroupState α) : Prop where
  heap : ∀ p, st.heap p = if p ∈ st.uniqueGroupings then some (c p) else none
  setmap : ∀ a p, st.setmap a = some p ↔ p ∈ st.uniqueGroupings ∧ a ∈ c p
  component : ∀ p ∈ st.uniqueGroupings, IsComponent (LinkedBy G) (c p)
  covered : ∀ a, LinkedBy G a a ↔ ∃ p ∈ st.uniqueGroupings, a ∈ c p

theorem Grouped.merge {c : Nat → Finset α} (h : Grouped G c st) {g : Finset α} (hg : g.Nonempty) :
    ∃ st' c', mergeGrouping rt st g = some st' ∧ Grouped (insert g G) c' st' := by
  let hits := g.biUnion fun address => (st.setmap address).toFinset
  have hh : ∀ p, p ∈ hits ↔ p ∈ st.uniqueGroupings ∧ ∃ a ∈ g, a ∈ c p := by
    simp [hits,h.setmap]
    grind
  let merged := (rt.visit hits).foldl (fun acc p => acc ∪ c p) g
  have hm : ∀ a, a ∈ merged ↔ a ∈ g ∨ ∃ p ∈ hits, a ∈ c p := by
    intro a
    rw [mem_foldl (Q := (a ∈ c ·)) fun _ _ => mem_union]
    simp [rt.mem_visit]
  have hrun := @release_run _ _ st.heap _ (· ∪ ·) (rt.nodup_visit hits) c (fun p hp => by
    rw [h.heap,if_pos ((hh p).mp ((rt.mem_visit _ _).mp hp)).1]) g
  let ptr := rt.alloc st.allocated st.uniqueGroupings
  have hptr : ptr ∉ st.uniqueGroupings := rt.alloc_fresh _ _
  have hs : mergeGrouping rt st g = some ⟨st.allocated + 1,
      update (fun p => if p ∈ hits then none else st.heap p) ptr (some merged), insert ptr (st.uniqueGroupings \ hits),
      fun element => if element ∈ merged then some ptr else st.setmap element⟩ := by
    simp only [← rt.mem_visit hits]
    rw [mergeGrouping,hrun]
    rfl
  clear_value hits merged ptr
  refine ⟨_,update c ptr merged,hs,fun p => ?_,fun a p => ?_,fun p hp => ?_,fun a => ?_⟩
  · have hhe := h.heap p
    by_cases hp : p = ptr
    · simp [hp]
    · simp only [update_of_ne hp,mem_insert,mem_sdiff,hp,false_or]
      grind
  · have hset := h.setmap a
    by_cases hp : p = ptr
    · simp only [hp,update_self,mem_insert,true_or,true_and]
      grind
    · simp only [update_of_ne hp,mem_insert,mem_sdiff,hp,false_or]
      grind
  · rcases mem_insert.mp hp with rfl | hp
    · rw [update_self]
      refine IsComponent.merge (P := fun s => ∃ p ∈ st.uniqueGroupings, c p = s) ?_ ?_ hg fun a => ?_
      · rintro _ ⟨q,hq,rfl⟩
        exact h.component q hq
      · intro g' hg' a ha
        obtain ⟨q,hq,hac⟩ := (h.covered a).mp ⟨g',hg',ha,ha⟩
        exact ⟨_,⟨q,hq,rfl⟩,hac⟩
      · rw [hm]
        grind
    · obtain ⟨hp,hhit⟩ := mem_sdiff.mp hp
      rw [update_of_ne (ne_of_mem_of_not_mem hp hptr)]
      exact (h.component p hp).of_not_meet fun a ha hag => hhit ((hh p).mpr ⟨hp,a,hag,ha⟩)
  · have hl : LinkedBy (insert g G) a a ↔ a ∈ g ∨ ∃ p ∈ st.uniqueGroupings, a ∈ c p := by
      simp [← h.covered,LinkedBy]
    simp only [hl,update_apply,mem_insert,mem_sdiff]
    grind

theorem Grouped.run {c : Nat → Finset α} (h : Grouped G c st) {l : List (Finset α)} (hl : ∀ g ∈ l, g.Nonempty) :
    ∃ st' c', l.foldlM (mergeGrouping rt) st = some st' ∧ Grouped (G ∪ {g | g ∈ l}) c' st' := by
  induction l generalizing st G c with
  | nil => exact ⟨st,c,rfl,by simpa using h⟩
  | cons g l ih =>
    obtain ⟨next,c₁,hs,hn⟩ := h.merge rt (hl g List.mem_cons_self)
    obtain ⟨st',c',hrun,hst⟩ := ih hn fun g hg => hl g (List.mem_cons_of_mem _ hg)
    have hG : G ∪ {s | s ∈ g::l} = insert g G ∪ {s | s ∈ l} := by
      ext s
      simp [or_assoc,or_left_comm]
    exact ⟨st',c',by rw [List.foldlM_cons,hs]; exact hrun,hG ▸ hst⟩

theorem mergeGroupings_ok {groupings : Finset (Finset α)} (hne : ∀ g ∈ groupings, g.Nonempty) :
    ∃ ret, mergeGroupings rt groupings = some ret ∧ (∀ s ∈ ret, IsComponent (LinkedBy groupings) s) ∧
      ∀ a, LinkedBy groupings a a ↔ ∃ s ∈ ret, a ∈ s := by
  have hs : Grouped ∅ (fun _ => ∅) (⟨0, fun _ => none, ∅, fun _ => none⟩ : GroupState α) := by
    constructor <;> simp [LinkedBy]
  obtain ⟨st,c,hrun,hst⟩ := hs.run rt (l := rt.visit groupings) (by simpa [rt.mem_visit] using hne)
  simp only [Set.empty_union,rt.mem_visit] at hst
  have hret := @release_run _ _ st.heap _ (fun (ret : Finset (Finset α)) s => insert s ret)
    (rt.nodup_visit st.uniqueGroupings) c (fun p hp => by rw [hst.heap,if_pos ((rt.mem_visit _ _).mp hp)]) ∅
  have hmem (s : Finset α) : s ∈ (rt.visit st.uniqueGroupings).foldl (fun ret p => insert (c p) ret)
      (∅ : Finset (Finset α)) ↔ ∃ p ∈ st.uniqueGroupings, s = c p := by
    rw [mem_foldl (Q := (s = c ·)) fun _ _ => mem_insert.trans or_comm]
    simp [rt.mem_visit]
  refine ⟨_,by rw [mergeGroupings,hrun,Option.bind_eq_bind,Option.bind_some,hret]; rfl,?_,fun a => ?_⟩
  · simp only [hmem]
    rintro _ ⟨p,hp,rfl⟩
    exact hst.component p hp
  · simp only [hmem]
    refine (hst.covered a).trans ?_
    grind
end Merge

namespace AddressWallet
/-- One transaction spends from both addresses, its change counted with them, or an output of the wallet
pays to the one address that they are. -/
def Linked (a b : CTxDestination) : Prop :=
  ∃ tx ∈ wallet.transactions, (a ∈ wallet.spentTogether tx ∧ b ∈ wallet.spentTogether tx) ∨
    a = b ∧ ∃ out ∈ tx.vout, wallet.isMine out.scriptPubKey = true ∧ wallet.outputAddress out = some a

/-- What a transaction adds to the groupings. -/
def IsGrouping (tx : CTransaction) (g : Finset CTxDestination) : Prop :=
  g = wallet.spentTogether tx ∧ g.Nonempty ∨
    ∃ out ∈ tx.vout, wallet.isMine out.scriptPubKey = true ∧ ∃ a, wallet.outputAddress out = some a ∧ g = {a}

theorem mem_addGroupings (groupings : Finset (Finset CTxDestination)) (tx : CTransaction)
    (g : Finset CTxDestination) :
    g ∈ wallet.addGroupings groupings tx ↔ g ∈ groupings ∨ wallet.IsGrouping tx g := by
  have hvin : (wallet.spentTogether tx).Nonempty → 0 < tx.vin.length := by
    cases hvin : tx.vin <;> simp [spentTogether,inputAddresses,hvin]
  rw [addGroupings,mem_foldl (Q := (g = {·})) fun _ _ => mem_insert.trans or_comm]
  simp only [IsGrouping,List.mem_filterMap,List.mem_filter,card_pos]
  split <;> grind

theorem mem_collectGroupings (g : Finset CTxDestination) :
    g ∈ wallet.collectGroupings ↔ ∃ tx ∈ wallet.transactions, wallet.IsGrouping tx g := by
  rw [collectGroupings,mem_foldl (Q := (wallet.IsGrouping · g)) fun _ _ => wallet.mem_addGroupings _ _ g]
  simp

theorem linkedBy_collectGroupings :
    LinkedBy (wallet.collectGroupings : Set (Finset CTxDestination)) = wallet.Linked := by
  funext a b
  simp only [LinkedBy,mem_coe,mem_collectGroupings,Linked,IsGrouping,eq_iff_iff]
  constructor
  · rintro ⟨g,⟨tx,htx,⟨rfl,_⟩ | ⟨out,hout,hm,x,hx,rfl⟩⟩,ha,hb⟩
    · exact ⟨tx,htx,.inl ⟨ha,hb⟩⟩
    · obtain ⟨rfl,rfl⟩ := And.intro (mem_singleton.mp ha) (mem_singleton.mp hb)
      exact ⟨tx,htx,.inr ⟨rfl,out,hout,hm,hx⟩⟩
  · rintro ⟨tx,htx,⟨ha,hb⟩ | ⟨rfl,out,hout,hm,ha⟩⟩
    · exact ⟨_,⟨tx,htx,.inl ⟨rfl,a,ha⟩⟩,ha,hb⟩
    · exact ⟨{a},⟨tx,htx,.inr ⟨out,hout,hm,a,ha,rfl⟩⟩,by simp⟩

theorem getAddressGroupings_components (rt : SetRuntime) :
    ∃ ret, wallet.getAddressGroupings rt = some ret ∧ (∀ s ∈ ret, s.Nonempty) ∧
      (∀ s ∈ ret, ∀ t ∈ ret, s ≠ t → Disjoint s t) ∧
      (∀ a, (∃ s ∈ ret, a ∈ s) ↔ wallet.Linked a a) ∧
      ∀ s ∈ ret, ∀ a ∈ s, ∀ b, b ∈ s ↔ EqvGen wallet.Linked a b := by
  obtain ⟨ret,hrun,hcomp,hcover⟩ := @mergeGroupings_ok _ _ rt wallet.collectGroupings (by
    intro g hg
    obtain ⟨tx,_,⟨_,hne⟩ | ⟨_,_,_,a,_,rfl⟩⟩ := (wallet.mem_collectGroupings g).mp hg
    · exact hne
    · simp)
  rw [linkedBy_collectGroupings] at hcomp hcover
  refine ⟨ret,hrun,fun s hs => (hcomp s hs).1,fun s hs t ht hne => ?_,fun a => (hcover a).symm,
    fun s hs => (hcomp s hs).2⟩
  exact disjoint_left.mpr fun a has hat => hne ((hcomp s hs).eq_of_mem (hcomp t ht) has hat)

/-- One transaction spends from the first and the second address, another one from the second and the
third. -/
def overlapping : AddressWallet where
  mapWallet := List.toAList [⟨1#256, [], [⟨1, [1]⟩, ⟨1, [2]⟩, ⟨1, [2]⟩, ⟨1, [3]⟩], 2, 0#32⟩,
    ⟨2#256, [⟨⟨1#256, 0⟩, [], 0#32, []⟩, ⟨⟨1#256, 1⟩, [], 0#32, []⟩], [], 2, 0#32⟩,
    ⟨3#256, [⟨⟨1#256, 2⟩, [], 0#32, []⟩, ⟨⟨1#256, 3⟩, [], 0#32, []⟩], [], 2, 0#32⟩]
  isMine _ := true
  extractDestination script := some (.witnessUnknown 2 script)
  findAddressBookEntry _ := true

theorem overlapping_grouped : ∃ ret, overlapping.getAddressGroupings listRuntime = some ret ∧
    ∃ s ∈ ret, .witnessUnknown 2 [1] ∈ s ∧ .witnessUnknown 2 [3] ∈ s := by
  obtain ⟨ret,hret,_,_,hcover,hcomp⟩ := getAddressGroupings_components overlapping listRuntime
  have hfirst : overlapping.Linked (.witnessUnknown 2 [1]) (.witnessUnknown 2 [2]) :=
    ⟨_,.tail _ (.head _),.inl (by decide +kernel)⟩
  have hthird : overlapping.Linked (.witnessUnknown 2 [2]) (.witnessUnknown 2 [3]) :=
    ⟨_,.tail _ (.tail _ (.head _)),.inl (by decide +kernel)⟩
  obtain ⟨s,hs,hmem⟩ := (hcover (.witnessUnknown 2 [1])).mpr
    ⟨_,.tail _ (.head _),.inl (by decide +kernel)⟩
  refine ⟨ret,hret,s,hs,hmem,(hcomp s hs _ hmem _).mpr ?_⟩
  exact .trans _ _ _ (.rel _ _ hfirst) (.rel _ _ hthird)
end AddressWallet
end Lcryp
