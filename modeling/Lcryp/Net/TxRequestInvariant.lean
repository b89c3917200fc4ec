import Lcryp.Net.TxRequestGroup

/-!
# The invariant of the transaction request tracker

Every modification keeps one announcement per peer and hash and the counters of the peers.
-/
namespace Lcryp
open Codec AnnouncementState MultiIndex List
/-! ## The orders -/

theorem leValue_injective {bs bs' : Bytes} (hlen : bs.length = bs'.length)
    (h : leValue bs = leValue bs') : bs = bs' := by
  rw [← leBytes_leValue bs,← leBytes_leValue bs',hlen,h]

theorem memoryOrder_injective {a b : Uint256} (h : memoryOrder a = memoryOrder b) : a = b := by
  have hb := reverse_injective (leValue_injective (by simp) h)
  have hval := congrArg leValue hb
  rw [leValue_leBytes,leValue_leBytes] at hval
  apply BitVec.eq_of_toNat_eq
  rwa [Nat.mod_eq_of_lt (lt_of_lt_of_eq a.isLt (by norm_num)),
    Nat.mod_eq_of_lt (lt_of_lt_of_eq b.isLt (by norm_num))] at hval

variable {txhash : Uint256} {txhash' : Uint256}
@[simp] theorem byPeerKey_eq_iff {peer peer' : NodeId} {best best' : Bool} :
    byPeerKey peer best txhash = byPeerKey peer' best' txhash' ↔
      peer = peer' ∧ best = best' ∧ txhash = txhash' := by
  refine ⟨fun h => ?_,by rintro ⟨rfl,rfl,rfl⟩; rfl⟩
  obtain ⟨hp,h⟩ := Prod.mk.inj (toLex.injective h)
  obtain ⟨hb,h⟩ := Prod.mk.inj (toLex.injective h)
  exact ⟨hp,hb,memoryOrder_injective h⟩

theorem byTxHashKey_le_iff {state state' : AnnouncementState} {p p' : Nat} :
    byTxHashKey txhash state p ≤ byTxHashKey txhash' state' p' ↔
      memoryOrder txhash < memoryOrder txhash' ∨ (memoryOrder txhash = memoryOrder txhash' ∧
        (state.value < state'.value ∨ (state.value = state'.value ∧ p ≤ p'))) := by
  simp [byTxHashKey,Prod.Lex.toLex_le_toLex]

theorem hash_of_between {sip : SipHash} {a b c : Announcement} (hab : byTxHashView sip a ≤ byTxHashView sip b)
    (hbc : byTxHashView sip b ≤ byTxHashView sip c) (hh : a.m_txhash = c.m_txhash) :
    b.m_txhash = a.m_txhash ∧ a.m_state.value ≤ b.m_state.value ∧ b.m_state.value ≤ c.m_state.value := by
  simp only [byTxHashView,byTxHashKey_le_iff,hh] at hab hbc
  have hs : memoryOrder b.m_txhash = memoryOrder a.m_txhash := by
    rw [hh]
    omega
  refine ⟨by rw [memoryOrder_injective hs],?_,?_⟩ <;> omega

theorem priority_le_of_view_le {sip : SipHash} {a b : Announcement}
    (h : byTxHashView sip a ≤ byTxHashView sip b) (hh : a.m_txhash = b.m_txhash)
    (ha : a.m_state = candidateReady) (hb : b.m_state = candidateReady) :
    computePriority sip a ≤ computePriority sip b := by
  simp only [byTxHashView,byTxHashKey_le_iff,hh,ha,hb,if_true] at h
  omega

/-! ## Counters -/

def recomputePeerInfo (l : List Announcement) (peer : NodeId) : Option PeerInfo :=
  if l.countP (·.m_peer = peer) = 0 then none
  else some
    ⟨l.countP (·.m_peer = peer), l.countP fun ann => ann.m_peer = peer ∧ ann.m_state = completed,
      l.countP fun ann => ann.m_peer = peer ∧ ann.m_state = requested⟩

variable {l : List Announcement}
theorem recomputePeerInfo_perm {l' : List Announcement} (h : l.Perm l') :
    recomputePeerInfo l = recomputePeerInfo l' := by
  funext peer
  simp [recomputePeerInfo,h.countP_eq]

theorem recomputePeerInfo_cons_other {ann : Announcement} {peer : NodeId}
    (h : ann.m_peer ≠ peer) : recomputePeerInfo (ann::l) peer = recomputePeerInfo l peer := by
  simp [recomputePeerInfo,h]

theorem recomputePeerInfo_cons_self (ann : Announcement) (l : List Announcement) :
    recomputePeerInfo (ann::l) ann.m_peer = some
      ⟨l.countP (·.m_peer = ann.m_peer) + 1,
        (l.countP fun other => other.m_peer = ann.m_peer ∧ other.m_state = completed) +
          (ann.m_state == completed).toNat,
        (l.countP fun other => other.m_peer = ann.m_peer ∧ other.m_state = requested) +
          (ann.m_state == requested).toNat⟩ := by
  cases hstate : ann.m_state <;> simp [recomputePeerInfo,hstate]

/-! ## Modifications -/

variable {sip : SipHash}
def TxRequestTracker.members (t : TxRequestTracker sip) : Set Announcement := {x | x ∈ t.m_index}

structure TxRequestTracker.Keyed (t : TxRequestTracker sip) : Prop where
  unique : ∀ a ∈ t.members, ∀ b ∈ t.members, a.m_peer = b.m_peer → a.m_txhash = b.m_txhash → a = b
  counted : t.m_peerinfo = recomputePeerInfo t.m_index.first

structure Modified (t t' : TxRequestTracker sip) (it ann : Announcement) : Prop where
  keyed : t'.Keyed
  replaced : Exchanged t.members t'.members it ann
  counts : ∀ p : Announcement → Bool, t'.m_index.first.countP p + (p it).toNat =
    t.m_index.first.countP p + (p ann).toNat

structure Erased (t t' : TxRequestTracker sip) (it : Announcement) : Prop where
  keyed : t'.Keyed
  mem : ∀ x, x ∈ t'.members ↔ x ≠ it ∧ x ∈ t.members
  counts : ∀ p : Announcement → Bool, t'.m_index.first.countP p + (p it).toNat = t.m_index.first.countP p

namespace TxRequestTracker
variable {t t' : TxRequestTracker sip} {it ann : Announcement} {x : Announcement}
theorem mem_members : x ∈ t.members ↔ x ∈ t.m_index := Iff.rfl
theorem countP_eq_erase (hit : it ∈ l) (p : Announcement → Bool) :
    l.countP p = (l.erase it).countP p + (p it).toNat := by
  rw [(perm_cons_erase hit).countP_eq,countP_cons]
  cases p it <;> rfl

theorem Keyed.peerInfo (h : t.Keyed) (hit : it ∈ t.members) :
    t.m_peerinfo = recomputePeerInfo (it::t.m_index.first.erase it) := by
  rw [h.counted,recomputePeerInfo_perm (perm_cons_erase hit)]

theorem erase_succeeds (h : t.Keyed) (hit : it ∈ t.members) :
    Succeeds (t.erase it) fun t' => Erased t t' it := by
  have hi := h.peerInfo hit
  have hown := congrFun hi it.m_peer
  rw [recomputePeerInfo_cons_self] at hown
  rw [erase,if_pos (mem_members.mp hit),hown]
  exact {
    keyed := {
      unique := fun a ha b hb => h.unique a (mem_erase.mp ha).2 b (mem_erase.mp hb).2
      counted := by
        funext peer
        by_cases hp : peer = it.m_peer
        · subst hp
          simp [setPeerInfo,recomputePeerInfo,MultiIndex.erase]
        · simp [setPeerInfo,hp,hi,recomputePeerInfo_cons_other (Ne.symm hp),MultiIndex.erase] }
    mem := fun x => mem_erase
    counts := fun p => (countP_eq_erase hit p).symm }

theorem modify_succeeds (h : t.Keyed) (hit : it ∈ t.members) (hpe : ann.m_peer = it.m_peer)
    (hha : ann.m_txhash = it.m_txhash) : Succeeds (t.modify it ann) fun t' => Modified t t' it ann := by
  have hi := h.peerInfo hit
  have hown := congrFun hi it.m_peer
  rw [recomputePeerInfo_cons_self] at hown
  obtain ⟨index,hidx⟩ := t.m_index.exists_modify ann hit (by
    intro b hb hkey
    simp only [byPeerView,byPeerKey_eq_iff] at hkey
    exact h.unique b hb it hit (hkey.1.trans hpe) (hkey.2.2.trans hha))
  have hpr := modify_eq_some hidx
  rw [modify,dif_pos (mem_members.mp hit),hown]
  rw [hidx]
  have hr : Exchanged t.members {x | x ∈ index} it ann := by
    intro x
    exact (hpr.mem_iff.trans mem_cons).trans (or_congr_right t.m_index.nodup_first.mem_erase_iff)
  exact {
    keyed := {
      unique := by
        intro a ha b hb hp hh
        rcases (hr a).mp ha with rfl | ⟨hane,ha'⟩ <;> rcases (hr b).mp hb with rfl | ⟨hbne,hb'⟩
        · rfl
        · exact absurd (h.unique b hb' it hit (by rw [← hp,hpe]) (by rw [← hh,hha])) hbne
        · exact absurd (h.unique a ha' it hit (by rw [hp,hpe]) (by rw [hh,hha])) hane
        · exact h.unique a ha' b hb' hp hh
      counted := by
        funext peer
        rw [recomputePeerInfo_perm hpr]
        by_cases hp : peer = it.m_peer
        · subst hp
          rw [← hpe,recomputePeerInfo_cons_self]
          simp [setPeerInfo]
        · rw [recomputePeerInfo_cons_other (by rw [hpe]; exact Ne.symm hp)]
          simp [setPeerInfo,hp,hi,recomputePeerInfo_cons_other (Ne.symm hp)] }
    replaced := hr
    counts := by
      intro p
      have he := countP_eq_erase hit p
      rw [hpr.countP_eq,countP_cons]
      cases hann : p ann <;> simp <;> omega }

/-! ## Looking at the neighbours -/

structure Good (t : TxRequestTracker sip) : Prop where
  keyed : t.Keyed
  disciplined : ∀ txhash, Disciplined sip t.members txhash

/-- Behind a ready announcement stands something that is not farther than the selected one. -/
theorem exists_following {ready s : Announcement} (hr : ready ∈ t.members)
    (hrs : ready.m_state = candidateReady) (hs : s ∈ t.members) (hh : s.m_txhash = ready.m_txhash)
    (hss : s.m_state = candidateBest ∨ s.m_state = requested) :
    ∃ next, following t.m_index.second ready = some next ∧ next.m_txhash = ready.m_txhash ∧
      1 ≤ next.m_state.value ∧ next.m_state.value ≤ s.m_state.value := by
  have hne : s ≠ ready := by
    rintro rfl
    rw [hrs] at hss
    rcases hss with h | h <;> cases h
  rcases t.m_index.second_sorted.neighbour (mem_second.mpr hr) (mem_second.mpr hs) hne with
    ⟨b,-,hsb,hbr⟩ | ⟨b,hb,hrb,hbs⟩
  · have hle := (hash_of_between hsb hbr hh).2
    rw [hrs] at hle
    rcases hss with h | h <;> rw [h] at hle <;> simp [value] at hle <;> omega
  · obtain ⟨hbh,hle,hle'⟩ := hash_of_between hrb hbs hh.symm
    rw [hrs] at hle
    exact ⟨b,hb,hbh,hle,hle'⟩

/-- Before the leader stands the ready announcement of the highest priority, if there is one. -/
theorem successor_spec {leader : Announcement} (hl : LedBy sip t.members leader.m_txhash leader) :
    (t.successor leader = none ∧ ∀ x ∈ t.members, x.m_txhash = leader.m_txhash → x.m_state ≠ candidateReady) ∨
    ∃ prev, t.successor leader = some prev ∧ prev ∈ t.members ∧ prev ≠ leader ∧
      prev.m_txhash = leader.m_txhash ∧ prev.m_state = candidateReady ∧
      ∀ x ∈ t.members, x.m_txhash = leader.m_txhash → x.m_state = candidateReady →
        computePriority sip x ≤ computePriority sip prev := by
  have hsel : leader.isSelected = true := by simpa [Announcement.isSelected] using hl.selected
  -- Whatever is ready stands before the leader, and not behind its neighbour.
  have hbef : ∀ x ∈ t.members, x.m_txhash = leader.m_txhash → x.m_state = candidateReady →
      ∃ prev, t.successor leader = some prev ∧ byTxHashView sip x ≤ byTxHashView sip prev := by
    intro x hx hh hxs
    have hne : x ≠ leader := by
      rintro rfl
      rcases hl.selected with h | h <;> rw [hxs] at h <;> cases h
    rcases t.m_index.second_sorted.neighbour (mem_second.mpr hl.mem) (mem_second.mpr hx) hne with
      ⟨b,hb,hxb,hbl⟩ | ⟨b,-,hlb,hbx⟩
    · obtain ⟨hbh,hle,hle'⟩ := hash_of_between hxb hbl hh
      rw [hh] at hbh
      obtain ⟨hbm,hbne⟩ := mem_of_preceding hb
      obtain ⟨hbe,hreq,-⟩ := hl.others b (mem_second.mp hbm) hbh hbne
      have hbs : b.m_state = candidateReady := by
        rcases hl.selected with h | h <;> rw [h] at hle' <;> cases hs : b.m_state <;> simp_all [value]
      exact ⟨b,by simp [successor,hsel,hb,hbh,hbs],hxb⟩
    · have hle := (hash_of_between hlb hbx hh.symm).2
      rw [hxs] at hle
      rcases hl.selected with h | h <;> rw [h] at hle <;> simp [value] at hle <;> omega
  cases hsu : t.successor leader with
  | none =>
    refine .inl ⟨rfl,fun x hx hh hxs => ?_⟩
    obtain ⟨prev,hpr,-⟩ := hbef x hx hh hxs
    rw [hsu] at hpr
    cases hpr
  | some prev =>
    have hpr : preceding t.m_index.second leader = some prev ∧
        prev.m_txhash = leader.m_txhash ∧ prev.m_state = candidateReady := by
      simpa [successor,hsel] using hsu
    obtain ⟨hpre,hha,hstate⟩ := hpr
    obtain ⟨hmem,hne⟩ := mem_of_preceding hpre
    refine .inr ⟨prev,rfl,mem_second.mp hmem,hne,hha,hstate,fun x hx hh hxs => ?_⟩
    obtain ⟨prev',hp,hle⟩ := hbef x hx hh hxs
    obtain rfl : prev = prev' := by rwa [hsu,Option.some_inj] at hp
    exact priority_le_of_view_le hle (hh.trans hha.symm) hxs hstate

/-- Something else of the hash is not completed. -/
def Accompanied (t : TxRequestTracker sip) (it : Announcement) : Prop :=
  ∃ x ∈ t.members, x.m_txhash = it.m_txhash ∧ x ≠ it ∧ x.m_state ≠ completed

theorem accompanied_of_isOnlyNonCompleted (h : t.isOnlyNonCompleted it = false)
    (hit : it ∈ t.members) (hstate : it.m_state ≠ completed) : t.Accompanied it := by
  have hmem : it ∈ t.m_index.second := mem_second.mpr hit
  rw [isOnlyNonCompleted,Bool.and_eq_false_iff,Option.all_eq_false,Option.all_eq_false] at h
  rcases h with ⟨prev,hpr,h⟩ | ⟨next,hnx,h⟩
  · have hh : prev.m_txhash = it.m_txhash := by simpa using h
    obtain ⟨hpm,hne⟩ := mem_of_preceding hpr
    have hle := t.m_index.second_sorted.le_of_preceding hmem hpr
    refine ⟨prev,mem_second.mp hpm,hh,hne,fun hd => hstate ?_⟩
    -- Nothing but a completed announcement stands behind a completed one.
    have hval := (hash_of_between le_rfl hle hh).2.2
    cases hs : it.m_state <;> simp_all [value]
  · obtain ⟨hh,hl⟩ : next.m_txhash = it.m_txhash ∧ next.m_state ≠ completed := by simpa using h
    obtain ⟨hnm,hne⟩ := mem_of_following t.m_index.nodup_second hmem hnx
    exact ⟨next,mem_second.mp hnm,hh,hne,hl⟩

/-- In a sorted list that starts with the hash, or behind it, the announcements of the hash come
first. -/
theorem mem_takeWhile_hash (hso : Sorted (byTxHashView sip) l)
    (hs : ∀ x ∈ l, memoryOrder txhash ≤ memoryOrder x.m_txhash) (hx : x ∈ l)
    (hh : x.m_txhash = txhash) : x ∈ l.takeWhile (·.m_txhash = txhash) := by
  induction l with
  | nil => cases hx
  | cons y l ih =>
    have hyx : memoryOrder y.m_txhash ≤ memoryOrder x.m_txhash := by
      have hle : byTxHashView sip y ≤ byTxHashView sip x := hso.head_le rfl hx
      rw [byTxHashView,byTxHashView,byTxHashKey_le_iff] at hle
      omega
    have hy : y.m_txhash = txhash := by
      apply memoryOrder_injective
      rw [hh] at hyx
      exact le_antisymm hyx (hs y mem_cons_self)
    rw [takeWhile_cons_of_pos (by simpa using hy)]
    rcases mem_cons.mp hx with rfl | hx
    · exact mem_cons_self
    · exact mem_cons_of_mem _ (ih (pairwise_cons.mp hso).2 (fun x hx => hs x (mem_cons_of_mem _ hx)) hx)

theorem eraseWhile_succeeds {rest : List Announcement} (h : t.Keyed)
    (hnd : rest.Nodup) (hmem : ∀ x ∈ rest, x ∈ t.members) :
    Succeeds (t.eraseWhile txhash rest) fun t' => t'.Keyed ∧
      (∀ x, x ∈ t'.members ↔ x ∈ t.members ∧ x ∉ rest.takeWhile (·.m_txhash = txhash)) ∧
      ∀ p, t'.m_index.first.countP p ≤ t.m_index.first.countP p := by
  induction rest generalizing t with
  | nil => exact ⟨h,by simp,fun p => le_rfl⟩
  | cons it rest ih =>
    rw [eraseWhile]
    split
    next hh =>
      apply (erase_succeeds h (hmem it mem_cons_self)).bind
      intro t₁ h₁
      obtain ⟨hnot,hnd⟩ := nodup_cons.mp hnd
      apply (ih h₁.keyed hnd fun x hx => (h₁.mem x).mpr
        ⟨fun hxit => hnot (hxit ▸ hx),hmem x (mem_cons_of_mem _ hx)⟩).mono
      rintro t₂ ⟨hk,hm,hc⟩
      refine ⟨hk,fun x => ?_,fun p => ?_⟩
      · rw [hm,h₁.mem,takeWhile_cons_of_pos (by simpa using hh),mem_cons]
        tauto
      · have := h₁.counts p
        have := hc p
        omega
    next hh =>
      refine ⟨h,fun x => ?_,fun p => le_rfl⟩
      simp [takeWhile_cons_of_neg (p := fun x : Announcement => decide (x.m_txhash = txhash))
        (by simpa using hh)]

/-! ## Changes of state -/

theorem Good.of_change (h : t.Good) (hk : t'.Keyed)
    (hf : ∀ x, x.m_txhash ≠ txhash → (x ∈ t'.members ↔ x ∈ t.members))
    (hd : Disciplined sip t'.members txhash) : t'.Good where
  keyed := hk
  disciplined := by
    intro other
    by_cases hoth : other = txhash
    · rwa [hoth]
    · exact (h.disciplined other).congr fun x hx => hf x (hx ▸ hoth)

theorem Keyed.setState_fresh (h : t.Keyed) (hit : it ∈ t.members) {state : AnnouncementState}
    (hmem : it.setState state ∈ t.members) : it.setState state = it :=
  h.unique _ hmem _ hit rfl rfl

theorem setState_succeeds (h : t.Keyed) (hit : it ∈ t.members) (state : AnnouncementState) :
    Succeeds (t.modify it (it.setState state)) fun t' => Modified t t' it (it.setState state) :=
  modify_succeeds h hit rfl rfl

theorem Good.led (h : t.Good) (hx : x ∈ t.members) (hdel : x.m_state ≠ candidateDelayed)
    (hd : x.m_state ≠ completed) : ∃ s, LedBy sip t.members x.m_txhash s := by
  refine (h.disciplined x.m_txhash).resolve_left fun hi => ?_
  exact (hi.states x hx rfl).elim hdel hd

/-- What `PromoteCandidateReady` leaves: a delayed announcement counts as a ready or best one. -/
structure Promoted (t t' : TxRequestTracker sip) (it : Announcement) : Prop where
  good : t'.Good
  counts : ∀ p : Announcement → Bool,
    (∀ x : Announcement, p (x.setState candidateReady) = p (x.setState candidateBest)) →
    t'.m_index.first.countP p + (p it).toNat = t.m_index.first.countP p + (p (it.setState candidateReady)).toNat
section Promote
variable {t₁ : TxRequestTracker sip} (h : t.Good) (hit : it ∈ t.members)
  (hstate : it.m_state = candidateDelayed) (h₁ : Modified t t₁ it (it.setState candidateReady))
include h h₁

include hstate in
theorem promoted_of_led {s : Announcement} (hs : LedBy sip t.members it.m_txhash s)
    (hle : s.m_state = candidateBest → computePriority sip it ≤ computePriority sip s) : Promoted t t₁ it where
  good := h.of_change h₁.keyed (fun _ hx => h₁.replaced.frame rfl rfl hx)
    (.inr ⟨s,hs.change h₁.replaced (hs.not_delayed hstate).symm nofun nofun fun _ => hle⟩)
  counts := fun p _ => h₁.counts p

include hit in
theorem promoted_of_idle (hi : Idle t.members it.m_txhash) :
    Succeeds (t₁.modify (it.setState candidateReady)
      ((it.setState candidateReady).setState candidateBest)) fun t' => Promoted t t' it := by
  have hr : it.setState candidateReady ∈ t₁.members := (h₁.replaced _).mpr (.inl rfl)
  apply (setState_succeeds h₁.keyed hr candidateBest).mono
  intro t₂ h₂
  have hre := h₁.replaced.trans h₂.replaced (h.keyed.setState_fresh hit)
  exact {
    good := h.of_change h₂.keyed (fun _ hx => hre.frame rfl rfl hx) (.inr ⟨_,hi.select hre rfl (.inl rfl)⟩)
    counts := by
      intro p hp
      have hb := hp it
      have hc := h₂.counts p
      rw [show (it.setState candidateReady).setState candidateBest = it.setState candidateBest from rfl,
        ← hb] at hc
      have := h₁.counts p
      omega }

include hit hstate in
/-- The ready announcement takes the lead of a candidate with a lower priority. -/
theorem promoted_of_best {next : Announcement} (hnext : LedBy sip t.members it.m_txhash next)
    (hb : next.m_state = candidateBest) (hlt : computePriority sip next < computePriority sip it) :
    Succeeds (do
      let t₂ ← t₁.modify next (next.setState candidateReady)
      t₂.modify (it.setState candidateReady) ((it.setState candidateReady).setState candidateBest))
      fun t' => Promoted t t' it := by
  have hre : it.setState candidateReady ∈ t₁.members := (h₁.replaced _).mpr (.inl rfl)
  have hne : next ≠ it := hnext.not_delayed hstate
  have hne' : next.setState candidateReady ≠ it.setState candidateReady := by
    intro heq
    exact hne (h.keyed.unique next hnext.mem it hit (congrArg (·.m_peer) heq) hnext.hash)
  have hnx : next ∈ t₁.members := (h₁.replaced next).mpr (.inr ⟨hne,hnext.mem⟩)
  apply (setState_succeeds h₁.keyed hnx candidateReady).bind
  intro t₂ h₂
  have hready_ne : it.setState candidateReady ≠ next := by
    rintro rfl
    cases hb
  have hr : it.setState candidateReady ∈ t₂.members := (h₂.replaced _).mpr (.inr ⟨hready_ne,hre⟩)
  apply (setState_succeeds h₂.keyed hr candidateBest).mono
  intro t₃ h₃
  have hrp := (h₁.replaced.two h₂.replaced hready_ne).trans h₃.replaced (h.keyed.setState_fresh hit) hne'
  exact {
    good := by
      refine h.of_change h₃.keyed (fun _ hx => hrp.frame rfl rfl hnext.hash hnext.hash hx)
        (.inr ⟨_,hnext.handOver hrp rfl (.inl rfl) nofun nofun (fun _ _ => hlt.le) ?_⟩)
      intro x hx hh _ hxnext hxs _
      exact ((hnext.others x hx hh hxnext).2.2 hxs hb).trans hlt.le
    counts := by
      intro p hp
      have hn : next.setState candidateBest = next := by
        rw [← hb]
        rfl
      have hp₂ := hp next
      rw [hn] at hp₂
      have hp₃ : p ((it.setState candidateReady).setState candidateBest) =
        p (it.setState candidateReady) := (hp it).symm
      have hc := h₂.counts p
      have hco := h₃.counts p
      rw [hp₂] at hc
      rw [hp₃] at hco
      have := h₁.counts p
      omega }
end Promote

theorem promoteCandidateReady_succeeds (h : t.Good) (hit : it ∈ t.members)
    (hstate : it.m_state = candidateDelayed) :
    Succeeds (t.promoteCandidateReady it) fun t' => Promoted t t' it := by
  apply (Yields.require hstate).bind
  intro _ _
  apply (setState_succeeds h.keyed hit candidateReady).bind
  intro t₁ h₁
  have hr : it.setState candidateReady ∈ t₁.members := (h₁.replaced _).mpr (.inl rfl)
  -- A leader of the hash is still there, and nothing completed stands before it.
  have hnx : ∀ s, LedBy sip t.members it.m_txhash s → ∃ next,
      following t₁.m_index.second (it.setState candidateReady) = some next ∧
      next.m_txhash = it.m_txhash ∧ next.m_state ≠ completed := by
    intro s hs
    have hs₁ : s ∈ t₁.members := (h₁.replaced s).mpr (.inr ⟨hs.not_delayed hstate,hs.mem⟩)
    obtain ⟨next,hf,hh,-,hle⟩ := exists_following hr rfl hs₁ hs.hash hs.selected
    refine ⟨next,hf,hh,fun hd => ?_⟩
    rw [hd] at hle
    rcases hs.selected with hs | hs <;> rw [hs] at hle <;> simp [value] at hle
  split
  next hf =>
    refine promoted_of_idle h hit h₁ ((h.disciplined it.m_txhash).resolve_right ?_)
    rintro ⟨s,hs⟩
    obtain ⟨next,hnx,-⟩ := hnx s hs
    rw [hf] at hnx
    cases hnx
  next next hf =>
    split
    next hend =>
      refine promoted_of_idle h hit h₁ ((h.disciplined it.m_txhash).resolve_right ?_)
      rintro ⟨s,hs⟩
      obtain ⟨next',hnx,hh,hl⟩ := hnx s hs
      obtain rfl : next = next' := by rwa [hf,Option.some_inj] at hnx
      exact hend.elim (fun hne => hne hh) hl
    next hsa =>
      rw [not_or,not_not] at hsa
      obtain ⟨hh,hl⟩ := hsa
      obtain ⟨hmem,hne⟩ := mem_of_following t₁.m_index.nodup_second (mem_second.mpr hr) hf
      have hle := t₁.m_index.second_sorted.le_of_following (mem_second.mpr hr) hf
      have hmem : next ∈ t.members := (((h₁.replaced next).mp (mem_second.mp hmem)).resolve_left hne).2
      have hval := (hash_of_between hle le_rfl hh.symm).2.1
      have hdel : next.m_state ≠ candidateDelayed := by
        intro hs
        rw [hs] at hval
        cases hval
      obtain ⟨s,hs⟩ := h.led hmem hdel hl
      rw [hh] at hs
      split
      next hb =>
        obtain rfl : s = next := by
          by_contra hsne
          exact (hs.others next hmem hh (Ne.symm hsne)).1 hb
        split
        next hlt => exact promoted_of_best h hit hstate h₁ hs hb hlt
        next hge => exact promoted_of_led h hstate h₁ hs fun _ => not_lt.mp hge
      next hb =>
        refine promoted_of_led h hstate h₁ hs fun hsb => ?_
        have hsne : next ≠ s := by
          rintro rfl
          exact hb hsb
        obtain ⟨-,hreq,ho⟩ := hs.others next hmem hh hsne
        have hn : next.m_state = candidateReady := by cases hs : next.m_state <;> simp_all
        exact (priority_le_of_view_le hle hh.symm rfl hn).trans (ho hn hsb)

structure Reselected (t t' : TxRequestTracker sip) (it : Announcement) (newState : AnnouncementState) :
    Prop where
  good : t'.Good
  frame : ∀ x : Announcement, x.m_txhash ≠ it.m_txhash → (x ∈ t'.members ↔ x ∈ t.members)
  changed : it.setState newState ∈ t'.members
  mem : ∀ x ∈ t'.members, x = it.setState newState ∨ x.m_state = candidateBest ∨ (x ≠ it ∧ x ∈ t.members)
  counts : ∀ p : Announcement → Bool,
    (∀ x : Announcement, x.m_state = candidateReady → p (x.setState candidateBest) = p x) →
    t'.m_index.first.countP p + (p it).toNat = t.m_index.first.countP p + (p (it.setState newState)).toNat

variable {newState : AnnouncementState}
theorem reselected_of_modified (h : t.Good) (h' : Modified t t' it (it.setState newState))
    (hd : Disciplined sip t'.members it.m_txhash) : Reselected t t' it newState where
  good := h.of_change h'.keyed (fun _ hx => h'.replaced.frame rfl rfl hx) hd
  frame := fun _ hx => h'.replaced.frame rfl rfl hx
  changed := (h'.replaced _).mpr (.inl rfl)
  mem := fun x hx => ((h'.replaced x).mp hx).imp_right .inr
  counts := fun p _ => h'.counts p

theorem changeAndReselect_succeeds (h : t.Good) (hit : it ∈ t.members) (hdo : it.m_state ≠ completed)
    (hnew : (newState = completed ∧ t.Accompanied it) ∨
      (newState = candidateDelayed ∧ it.m_state ≠ candidateDelayed)) :
    Succeeds (t.changeAndReselect it newState) fun t' => Reselected t t' it newState := by
  apply (Yields.require (hnew.imp And.left And.left)).bind
  intro _ _
  have hnewBest : newState ≠ candidateBest := by rintro rfl; simp at hnew
  have hn : newState ≠ requested := by rintro rfl; simp at hnew
  have hnw : newState ≠ candidateReady := by rintro rfl; simp at hnew
  by_cases hl : ∃ s, LedBy sip t.members it.m_txhash s ∧ s = it
  · obtain ⟨s,hs,rfl⟩ := hl
    rcases successor_spec hs with ⟨hnn,hre⟩ |
      ⟨prev,hso,hpe,hne,hha,hpr,hmax⟩
    · -- Nothing is ready: the hash becomes idle.
      rw [hnn]
      apply (setState_succeeds h.keyed hit newState).mono
      intro t₁ h₁
      refine reselected_of_modified h h₁ (.inl (hs.abandon h₁.replaced rfl hre ?_))
      exact hnew.symm.imp And.left id
    · -- The best of the ready announcements takes the lead.
      rw [hso]
      apply (setState_succeeds h.keyed hpe candidateBest).bind
      intro t₁ h₁
      have hprev_ne : prev.setState candidateBest ≠ s := by
        intro heq
        exact hne (h.keyed.unique prev hpe s hit (congrArg (·.m_peer) heq) hha)
      have hs₁ : s ∈ t₁.members := (h₁.replaced s).mpr (.inr ⟨Ne.symm hne,hit⟩)
      apply (setState_succeeds h₁.keyed hs₁ newState).mono
      intro t₂ h₂
      have hrp := h₁.replaced.two h₂.replaced hprev_ne
      have hf : ∀ x, x.m_txhash ≠ s.m_txhash → (x ∈ t₂.members ↔ x ∈ t.members) :=
        fun x hx => hrp.frame hha hha rfl rfl hx
      refine {
        good := h.of_change h₂.keyed hf (.inr ⟨_,hs.handOver hrp hha (.inl rfl) hnewBest
          hn (fun _ hr => absurd hr hnw) fun x hx hh _ _ hxs _ => hmax x hx hh hxs⟩)
        frame := hf
        changed := (h₂.replaced _).mpr (.inl rfl)
        mem := ?_
        counts := ?_ }
      · intro x hx
        rcases (hrp x).mp hx with rfl | rfl | ⟨-,hxs,hx⟩
        · exact .inr (.inl rfl)
        · exact .inl rfl
        · exact .inr (.inr ⟨hxs,hx⟩)
      · intro p hp
        have hc := h₁.counts p
        rw [hp prev hpr] at hc
        have := h₂.counts p
        omega
  · -- The announcement is not selected.
    have hno : it.m_state ≠ candidateBest ∧ it.m_state ≠ requested := by
      rcases h.disciplined it.m_txhash with hi | ⟨s,hs⟩
      · rcases hi.states it hit rfl with hs | hs <;> simp [hs]
      · have hne : it ≠ s := fun heq => hl ⟨s,hs,heq.symm⟩
        obtain ⟨hb,hreq,-⟩ := hs.others it hit rfl hne
        exact ⟨hb,hreq⟩
    have hnn : t.successor it = none := by simp [successor,Announcement.isSelected,hno.1,hno.2]
    rw [hnn]
    apply (setState_succeeds h.keyed hit newState).mono
    intro t₁ h₁
    refine reselected_of_modified h h₁ ?_
    rcases h.disciplined it.m_txhash with hi | ⟨s,hs⟩
    · have hdel := (hi.states it hit rfl).resolve_right hdo
      obtain ⟨rfl,ha⟩ := hnew.resolve_right fun hd => hd.2 hdel
      exact .inl (hi.complete h₁.replaced rfl ha)
    · have hne : it ≠ s := fun heq => hl ⟨s,hs,heq.symm⟩
      exact .inr ⟨s,hs.change h₁.replaced hne hnewBest hn fun hr => absurd hr hnw⟩

/-- What `MakeCompleted` leaves: the announcement is gone with all others of its hash, or it is
completed. -/
structure Completed (t t' : TxRequestTracker sip) (it : Announcement) (left : Option Announcement) : Prop where
  good : t'.Good
  frame : ∀ x : Announcement, x.m_txhash ≠ it.m_txhash → (x ∈ t'.members ↔ x ∈ t.members)
  stays : ∀ it', left = some it' → it' ∈ t'.members ∧ it' = it.setState completed
  counts : ∀ p : Announcement → Bool,
    (∀ x : Announcement, x.m_state = candidateReady → p (x.setState candidateBest) = p x) →
    t'.m_index.first.countP p + (p it).toNat ≤ t.m_index.first.countP p + (left.any p).toNat

theorem makeCompleted_succeeds (h : t.Good) (hit : it ∈ t.members) :
    Succeeds (t.makeCompleted it) fun r => Completed t r.1 it r.2 := by
  rw [makeCompleted]
  split
  next hd =>
    refine {
      good := h
      frame := fun _ _ => Iff.rfl
      stays := ?_
      counts := fun p _ => by simp }
    rintro _ ⟨⟩
    refine ⟨hit,?_⟩
    rw [← hd]
    rfl
  next hd =>
    split
    next ho =>
      apply (erase_succeeds h.keyed hit).bind
      intro t₁ h₁
      have hsnd : it ∈ t.m_index.second := mem_second.mpr hit
      have hnd : (behind t.m_index.second it).Nodup := t.m_index.nodup_second.sublist behind_sublist
      have hr : ∀ x ∈ behind t.m_index.second it, x ∈ t₁.members := by
        intro x hx
        exact (h₁.mem x).mpr ⟨ne_of_mem_behind t.m_index.nodup_second hsnd hx,
          mem_second.mp (behind_sublist.subset hx)⟩
      apply (eraseWhile_succeeds h₁.keyed hnd hr).bind
      rintro t₂ ⟨hk,hmem,hc⟩
      have hf : ∀ x, x.m_txhash ≠ it.m_txhash → (x ∈ t₂.members ↔ x ∈ t.members) := by
        intro x hx
        have hne : x ≠ it := fun heq => hx (heq ▸ rfl)
        have hnot : x ∉ (behind t.m_index.second it).takeWhile (·.m_txhash = it.m_txhash) :=
          fun hmem => hx (by simpa using mem_takeWhile_imp hmem)
        rw [hmem,h₁.mem,and_iff_left hnot,and_iff_right hne]
      have hg : ∀ x ∈ t₂.members, x.m_txhash ≠ it.m_txhash := by
        intro x hx hh
        obtain ⟨hx,hnot⟩ := (hmem x).mp hx
        obtain ⟨hne,hx⟩ := (h₁.mem x).mp hx
        rcases mem_before_or_behind hsnd (mem_second.mpr hx) hne with hbef | hbeh
        · obtain ⟨prev,hpr,hxp,hpi⟩ := t.m_index.second_sorted.exists_preceding hsnd hbef
          have hha := (hash_of_between hxp hpi hh).1
          simp [isOnlyNonCompleted,hpr,hha,hh] at ho
        · refine hnot (mem_takeWhile_hash
            (t.m_index.second_sorted.sublist behind_sublist) (fun y hy => ?_) hbeh hh)
          have hle := t.m_index.second_sorted.le_of_mem_behind hsnd hy
          rw [byTxHashView,byTxHashView,byTxHashKey_le_iff] at hle
          omega
      exact {
        good := h.of_change hk hf (.of_forall_ne hg)
        frame := hf
        stays := nofun
        counts := by
          intro p _
          have := hc p
          have := h₁.counts p
          simp only
          omega }
    next ho =>
      have ha := accompanied_of_isOnlyNonCompleted (by simpa using ho) hit hd
      apply (changeAndReselect_succeeds h hit hd (.inl ⟨rfl,ha⟩)).bind
      intro t₁ h₁
      refine {
        good := h₁.good
        frame := h₁.frame
        stays := ?_
        counts := fun p hp => by simpa using (h₁.counts p hp).le }
      rintro _ ⟨⟩
      exact ⟨h₁.changed,rfl⟩
end TxRequestTracker
end Lcryp
