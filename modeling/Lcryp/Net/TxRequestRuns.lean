import Lcryp.Net.TxRequestInvariant

/-!
# Runs of the transaction request tracker

Every call leaves a good tracker.
-/
namespace Lcryp
open AnnouncementState MultiIndex TxRequestTracker List Announcement
variable {sip : SipHash} {t : TxRequestTracker sip} (now : Int)
def NothingDue (t : TxRequestTracker sip) : Prop :=
  ∀ x ∈ t.members, x.isWaiting = true → now < x.m_time

/-- No candidate that can be selected lies in the future. -/
def NothingEarly (t : TxRequestTracker sip) : Prop :=
  ∀ x ∈ t.members, x.isSelectable = true → x.m_time ≤ now
theorem runLoop_ends {σ : Type} {turn : σ → Except TrackerFault (Turn σ)} {I J : σ → Prop} {μ : σ → Nat}
    (ht : ∀ s, I s → Succeeds (turn s) (Turn.Ends I J μ s)) {size : Nat} {s : σ} (hs : I s)
    (hsi : μ s ≤ size) : Succeeds (runLoop turn size s) J := by
  apply (iterate_ends ht hs (Nat.lt_succ_of_le hsi)).bind
  rintro result ⟨s',rfl,hs'⟩
  exact hs'

variable {a : Announcement}
theorem byTimeView_le_iff {b : Announcement} :
    byTimeView a ≤ byTimeView b ↔ getWaitState a < getWaitState b ∨
      (getWaitState a = getWaitState b ∧ a.m_time ≤ b.m_time) := by
  simp [byTimeView,Prod.Lex.toLex_le_toLex]

theorem getWaitState_eq_zero : getWaitState a = 0 ↔ a.isWaiting = true := by
  unfold getWaitState
  split
  · simp_all
  · split <;> simp_all

theorem getWaitState_eq_two : getWaitState a = 2 ↔ a.isSelectable = true := by
  unfold getWaitState
  split
  next hw =>
    cases hs : a.m_state <;> simp_all [isWaiting,isSelectable]
  · split <;> simp_all

theorem getWaitState_le_two (a : Announcement) : getWaitState a ≤ 2 := by
  unfold getWaitState
  split
  · exact Nat.zero_le _
  · split <;> decide

variable {it : Announcement}
theorem TxRequestTracker.Completed.counts_lt {t' : TxRequestTracker sip} {left : Option Announcement}
    (h : Completed t t' it left) {p : Announcement → Bool}
    (hp : ∀ x, x.m_state = candidateReady → p (x.setState candidateBest) = p x) (hit : p it = true)
    (hd : p (it.setState completed) = false) : t'.m_index.first.countP p < t.m_index.first.countP p := by
  have hl : left.any p = false := by
    cases left with
    | none => rfl
    | some it' => rw [Option.any_some,(h.stays it' rfl).2,hd]
  have hc := h.counts p hp
  rw [hit,hl,Bool.toNat_true,Bool.toNat_false] at hc
  omega

theorem expireTurn_ends (s : TxRequestTracker sip × List (NodeId × GenTxid)) (h : s.1.Good) :
    Succeeds (expireTurn now s) (Turn.Ends (fun s => s.1.Good) (fun s => s.1.Good ∧ NothingDue now s.1)
      (fun s => s.1.m_index.first.countP isWaiting) s) := by
  rw [expireTurn]
  split
  next hemp =>
    refine ⟨h,fun x hx => ?_⟩
    rw [head?_eq_none_iff] at hemp
    have hn := mem_third.mpr hx
    rw [hemp] at hn
    cases hn
  next it hhead =>
    have hit : it ∈ s.1.members := mem_third.mp (mem_of_head? hhead)
    split
    next hdue =>
      apply (promoteCandidateReady_succeeds h hit hdue.1).bind
      intro t₁ h₁
      refine ⟨h₁.good,?_⟩
      have hw : it.isWaiting = true := by simp [isWaiting,hdue.1]
      have hc := h₁.counts isWaiting fun _ => rfl
      rw [hw] at hc
      exact Nat.lt_of_succ_le hc.le
    next hdel =>
      split
      next hdue =>
        apply (makeCompleted_succeeds h hit).bind
        rintro ⟨t₁,left⟩ h₁
        refine ⟨h₁.good,h₁.counts_lt (fun x hx => ?_) ?_ rfl⟩
        · simp only [isWaiting,hx]
          rfl
        · simp [isWaiting,hdue.1]
      next hreq =>
        refine ⟨h,fun x hx hw => ?_⟩
        have hle := s.1.m_index.third_sorted.head_le hhead (mem_third.mpr hx)
        rw [byTimeView_le_iff,getWaitState_eq_zero.mpr hw] at hle
        obtain ⟨hf,ht⟩ := hle.resolve_left (Nat.not_lt_zero _)
        have hst : it.m_state = requested ∨ it.m_state = candidateDelayed := by
          simpa [isWaiting] using getWaitState_eq_zero.mp hf
        rcases hst with hs | hs
        · have : ¬ it.m_time ≤ now := fun hdue => hreq ⟨hs,hdue⟩
          omega
        · have : ¬ it.m_time ≤ now := fun hdue => hdel ⟨hs,hdue⟩
          omega

theorem delayTurn_ends (t : TxRequestTracker sip) (h : t.Good ∧ NothingDue now t) :
    Succeeds (delayTurn now t) (Turn.Ends (fun t => t.Good ∧ NothingDue now t)
      (fun t => t.Good ∧ NothingDue now t ∧ NothingEarly now t)
      (fun t => t.m_index.first.countP isSelectable) t) := by
  rw [delayTurn]
  split
  next hemp =>
    refine ⟨h.1,h.2,fun x hx => ?_⟩
    rw [getLast?_eq_none_iff] at hemp
    have hn := mem_third.mpr hx
    rw [hemp] at hn
    cases hn
  next it hlast =>
    have hit : it ∈ t.members := mem_third.mp (mem_of_getLast? hlast)
    split
    next he =>
      have hst : it.m_state = candidateReady ∨ it.m_state = candidateBest := by simpa [isSelectable] using he.1
      have hd : it.m_state ≠ completed := by rcases hst with hs | hs <;> simp [hs]
      have hdel : it.m_state ≠ candidateDelayed := by rcases hst with hs | hs <;> simp [hs]
      apply (changeAndReselect_succeeds h.1 hit hd (.inr ⟨rfl,hdel⟩)).bind
      intro t₁ h₁
      refine ⟨⟨h₁.good,fun x hx hw => ?_⟩,?_⟩
      · rcases h₁.mem x hx with rfl | hb | ⟨-,hx⟩
        · exact he.2
        · simp [isWaiting,hb] at hw
        · exact h.2 x hx hw
      · have hc := h₁.counts isSelectable fun x hx => by simp [isSelectable,setState,hx]
        rw [he.1] at hc
        exact Nat.lt_of_succ_le hc.le
    next he =>
      refine ⟨h.1,h.2,fun x hx hselectable => ?_⟩
      have hle := t.m_index.third_sorted.le_getLast hlast (mem_third.mpr hx)
      rw [byTimeView_le_iff,getWaitState_eq_two.mpr hselectable] at hle
      obtain ⟨hp,ht⟩ := hle.resolve_left (not_lt.mpr (getWaitState_le_two it))
      have hnow : ¬ it.m_time > now := fun hlt => he ⟨getWaitState_eq_two.mp hp.symm,hlt⟩
      omega

theorem setTimePoint_succeeds (h : t.Good) (now : Int) :
    Succeeds (t.setTimePoint now) fun r => r.1.Good ∧ NothingDue now r.1 ∧ NothingEarly now r.1 := by
  apply (runLoop_ends (expireTurn_ends now) h countP_le_length).bind
  rintro ⟨t₁,expired⟩ h₁
  apply (runLoop_ends (delayTurn_ends now) h₁ countP_le_length).bind
  intro t₂ h₂
  exact h₂

theorem getRequestable_succeeds (h : t.Good) (peer : NodeId) (now : Int) :
    Succeeds (t.getRequestable peer now) fun r =>
      r.1.Good ∧ NothingDue now r.1 ∧ NothingEarly now r.1 := by
  apply (setTimePoint_succeeds h now).bind
  rintro ⟨t₁,expired⟩ h₁
  exact h₁

theorem disconnectTurn_ends (peer : NodeId) (s : TxRequestTracker sip × Option Announcement)
    (h : s.1.Good ∧ ∀ it, s.2 = some it → it ∈ s.1.members) :
    Succeeds (disconnectTurn peer s) (Turn.Ends
      (fun s => s.1.Good ∧ ∀ it, s.2 = some it → it ∈ s.1.members) (fun s => s.1.Good)
      (fun s => s.1.m_index.first.countP (·.m_peer = peer)) s) := by
  rw [disconnectTurn]
  split
  · exact h.1
  next it hsome =>
    have hit := h.2 it hsome
    split
    · exact h.1
    next hp =>
      rw [not_not] at hp
      apply (makeCompleted_succeeds h.1 hit).bind
      rintro ⟨t₁,left⟩ h₁
      -- The next announcement of the peer is one of another hash.
      have hnx : ∀ next, (following s.1.m_index.first it).filter (·.m_peer == peer) = some next →
          next ∈ t₁.members ∧ next.m_txhash ≠ it.m_txhash := by
        intro next hnx
        rw [Option.filter_eq_some_iff,beq_iff_eq] at hnx
        obtain ⟨hmem,hne⟩ := mem_of_following s.1.m_index.nodup_first hit hnx.1
        have hha : next.m_txhash ≠ it.m_txhash := fun hh =>
          hne (h.1.keyed.unique next hmem it hit (hnx.2.trans hp.symm) hh)
        exact ⟨(h₁.frame next hha).mpr hmem,hha⟩
      have hc := h₁.counts (·.m_peer = peer) fun _ _ => rfl
      simp only [hp] at hc
      cases left with
      | none =>
        refine ⟨⟨h₁.good,fun next hn => (hnx next hn).1⟩,?_⟩
        exact Nat.lt_of_succ_le hc
      | some it' =>
        obtain ⟨hit',rfl⟩ := h₁.stays it' rfl
        apply (erase_succeeds h₁.good.keyed hit').bind
        intro t₂ h₂
        refine ⟨⟨?_,fun next hn => ?_⟩,?_⟩
        · refine h₁.good.of_change h₂.keyed (fun x hx => ?_)
            ((h₁.good.disciplined it.m_txhash).forget h₂.mem rfl)
          rw [h₂.mem,and_iff_right fun heq => hx (by rw [heq]; rfl)]
        · obtain ⟨hmem,hha⟩ := hnx next hn
          exact (h₂.mem next).mpr ⟨fun heq => hha (by rw [heq]; rfl),hmem⟩
        · have he := h₂.counts (·.m_peer = peer)
          simp only [Option.any_some,decide_true,Bool.toNat_true] at he hc
          dsimp only
          omega

theorem disconnectedPeer_succeeds (h : t.Good) (peer : NodeId) : Succeeds (t.disconnectedPeer peer) Good := by
  have hs : ∀ it, (lowerBound byPeerView (byPeerKey peer false 0#256) t.m_index.first).head? =
      some it → it ∈ t.members := fun it hhead =>
    (dropWhile_sublist _).subset (mem_of_head? hhead)
  apply (runLoop_ends (disconnectTurn_ends peer) ⟨h,hs⟩ countP_le_length).bind
  rintro ⟨t₁,it⟩ h₁
  exact h₁

variable {x : Announcement} {l : List Announcement}
theorem mem_lowerBound {κ : Type} [LinearOrder κ] {view : Announcement → κ} {key : κ}
    (hs : Sorted view l) : x ∈ lowerBound view key l ↔ x ∈ l ∧ key ≤ view x := by
  rw [lowerBound]
  induction l with
  | nil => simp
  | cons y l ih =>
    obtain ⟨hy,hl⟩ := pairwise_cons.mp hs
    by_cases hlt : view y < key
    · rw [dropWhile_cons_of_pos (by simpa using hlt),ih hl,mem_cons,or_and_right]
      refine (or_iff_right ?_).symm
      rintro ⟨rfl,hle⟩
      exact hlt.not_ge hle
    · rw [dropWhile_cons_of_neg (by simpa using hlt)]
      refine (and_iff_left_of_imp fun hx => ?_).symm
      rcases mem_cons.mp hx with rfl | hx
      · exact not_lt.mp hlt
      · exact (not_lt.mp hlt).trans (hy x hx)

theorem sorted_lowerBound {κ : Type} [LinearOrder κ] {view : Announcement → κ} {key : κ}
    (hs : Sorted view l) : Sorted view (lowerBound view key l) :=
  hs.sublist (dropWhile_sublist _)

variable {txhash : Uint256}
theorem key_delayed_le (h : x.m_txhash = txhash) :
    byTxHashKey txhash candidateDelayed 0 ≤ byTxHashView sip x := by
  have hval : candidateDelayed.value = 0 := rfl
  rw [byTxHashView,byTxHashKey_le_iff,h]
  omega

theorem forgetTxHash_succeeds (h : t.Good) (txhash : Uint256) : Succeeds (t.forgetTxHash txhash) Good := by
  have hs := t.m_index.second_sorted
  have hmem : ∀ x, x ∈ lowerBound (byTxHashView sip) (byTxHashKey txhash candidateDelayed 0)
      t.m_index.second ↔ x ∈ t.m_index.second ∧ _ := fun x => mem_lowerBound hs
  apply (eraseWhile_succeeds h.keyed (t.m_index.nodup_second.sublist (dropWhile_sublist _))
    fun x hx => mem_second.mp ((hmem x).mp hx).1).mono
  rintro t₁ ⟨hk,hm,-⟩
  have hg : ∀ x ∈ t₁.members, x.m_txhash ≠ txhash := by
    intro x hx hh
    obtain ⟨hx,hnot⟩ := (hm x).mp hx
    refine hnot (mem_takeWhile_hash (sorted_lowerBound hs) (fun y hy => ?_)
      ((hmem x).mpr ⟨mem_second.mpr hx,key_delayed_le hh⟩) hh)
    have hle := ((hmem y).mp hy).2
    rw [byTxHashView,byTxHashKey_le_iff] at hle
    omega
  refine h.of_change hk (fun x hx => ?_) (.of_forall_ne hg)
  rw [hm,and_iff_left fun ht => hx (by simpa using mem_takeWhile_imp ht)]

theorem find_eq_some {peer : NodeId} {best : Bool} (h : t.find peer best txhash = some it) :
    it ∈ t.members ∧ it.m_peer = peer ∧ (it.m_state == candidateBest) = best ∧ it.m_txhash = txhash := by
  have hmem := mem_of_find?_eq_some h
  have hkey := find?_some h
  rw [decide_eq_true_eq,byPeerView,byPeerKey_eq_iff] at hkey
  exact ⟨hmem,hkey⟩

theorem receivedResponse_succeeds (h : t.Good) (peer : NodeId) (txhash : Uint256) :
    Succeeds (t.receivedResponse peer txhash) Good := by
  rw [receivedResponse]
  split
  · exact h
  next it hf =>
    have hit : it ∈ t.members := by
      rcases Option.or_eq_some_iff.mp hf with hf | ⟨-,hf⟩ <;> exact (find_eq_some hf).1
    apply (makeCompleted_succeeds h hit).bind
    rintro ⟨t₁,left⟩ h₁
    exact h₁.good

theorem receivedInv_fresh {ann : Announcement} {index : AnnouncementIndex sip}
    (hst : ann.m_state = candidateDelayed) (hidx : t.m_index.emplace ann = some index)
    (hf : t.find ann.m_peer true ann.m_txhash = none) (hx : x ∈ t.members)
    (hp : x.m_peer = ann.m_peer) : x.m_txhash ≠ ann.m_txhash := by
  intro hh
  by_cases hb : x.m_state = candidateBest
  · refine (find?_eq_none.mp hf x hx) ?_
    simp [byPeerView,hb,hp,hh]
  · refine (emplace_eq_some hidx).2 x hx ?_
    simp [byPeerView,hb,hp,hh,hst]

theorem recomputePeerInfo_getD (l : List Announcement) (peer : NodeId) :
    (recomputePeerInfo l peer).getD ⟨0, 0, 0⟩ =
      ⟨l.countP (·.m_peer = peer), l.countP fun ann => ann.m_peer = peer ∧ ann.m_state = completed,
        l.countP fun ann => ann.m_peer = peer ∧ ann.m_state = requested⟩ := by
  rw [recomputePeerInfo]
  split
  next hz =>
    have hn := countP_eq_zero.mp hz
    have hsub : ∀ state, (l.countP fun ann => ann.m_peer = peer ∧ ann.m_state = state) = 0 := by
      intro state
      rw [countP_eq_zero]
      intro ann hann
      simp [hn ann hann]
    rw [hz,hsub,hsub]
    rfl
  · rfl

theorem receivedInv_good (h : t.Good) (peer : NodeId) (gtxid : GenTxid) (preferred : Bool)
    (reqtime : Int) : (t.receivedInv peer gtxid preferred reqtime).Good := by
  rw [receivedInv]
  split
  · exact h
  next hbe =>
    rw [Bool.not_eq_true,Option.isSome_eq_false_iff,Option.isNone_iff_eq_none] at hbe
    dsimp only
    split
    · exact h
    next index hidx =>
      have hpe := (emplace_eq_some hidx).1
      have hf := fun x hx => receivedInv_fresh (x := x) rfl hidx hbe hx
      have hmem : ∀ x, x ∈ index ↔ _ ∨ x ∈ t.members := fun x => by
        rw [mem_def,hpe.mem_iff,mem_cons]
        rfl
      refine h.of_change ⟨?_,?_⟩ (fun x hx => ?_) ((h.disciplined gtxid.m_hash).insert hmem rfl rfl)
      · intro a ha b hb hp hh
        rcases (hmem a).mp ha with rfl | ha' <;> rcases (hmem b).mp hb with rfl | hb'
        · rfl
        · exact absurd hh.symm (hf b hb' hp.symm)
        · exact absurd hh (hf a ha' hp)
        · exact h.keyed.unique a ha' b hb' hp hh
      · funext other
        rw [recomputePeerInfo_perm hpe,h.keyed.counted,recomputePeerInfo_getD]
        by_cases hoth : other = peer
        · subst hoth
          simp [setPeerInfo,recomputePeerInfo]
        · rw [recomputePeerInfo_cons_other (Ne.symm hoth)]
          simp [setPeerInfo,hoth]
      · rw [mem_members,hmem,or_iff_right]
        rintro rfl
        exact hx rfl

theorem lowerBound_best (h : Disciplined sip t.members txhash) :
    (Idle t.members txhash ∧ ∀ old, (lowerBound (byTxHashView sip) (byTxHashKey txhash candidateBest 0)
      t.m_index.second).head? = some old → old.m_txhash = txhash → old.m_state = completed) ∨
    ∃ s, LedBy sip t.members txhash s ∧ (lowerBound (byTxHashView sip)
      (byTxHashKey txhash candidateBest 0) t.m_index.second).head? = some s := by
  have hso := t.m_index.second_sorted
  have hmem : ∀ x, x ∈ lowerBound (byTxHashView sip) (byTxHashKey txhash candidateBest 0)
      t.m_index.second ↔ x ∈ t.m_index.second ∧ _ := fun x => mem_lowerBound hso
  have hb : candidateBest.value = 2 := rfl
  rcases h with hi | ⟨s,hs⟩
  · refine .inl ⟨hi,fun old hold hh => ?_⟩
    obtain ⟨hin,hle⟩ := (hmem old).mp (mem_of_head? hold)
    refine (hi.states old (mem_second.mp hin) hh).resolve_left fun hdel => ?_
    rw [byTxHashView,byTxHashKey_le_iff,hh,hdel] at hle
    simp [value] at hle
  · have hval : 2 ≤ s.m_state.value ∧ s.m_state.value ≤ 3 := by
      rcases hs.selected with hs | hs <;> simp [hs,value]
    have hin : s ∈ lowerBound (byTxHashView sip) (byTxHashKey txhash candidateBest 0)
        t.m_index.second := by
      rw [hmem,byTxHashView,byTxHashKey_le_iff,hs.hash]
      exact ⟨mem_second.mpr hs.mem,by omega⟩
    obtain ⟨old,hold⟩ := Option.isSome_iff_exists.mp (isSome_head?.mpr (ne_nil_of_mem hin))
    have hle := (sorted_lowerBound hso).head_le hold hin
    obtain ⟨hin',hle'⟩ := (hmem old).mp (mem_of_head? hold)
    rw [byTxHashView,byTxHashKey_le_iff] at hle'
    rw [byTxHashView,byTxHashView,byTxHashKey_le_iff,hs.hash] at hle
    have hh : old.m_txhash = txhash := memoryOrder_injective (by omega)
    obtain rfl : old = s := by
      by_contra hne
      obtain ⟨hb,hreq,-⟩ := hs.others old (mem_second.mp hin') hh hne
      cases hst : old.m_state <;> simp_all [value]
      all_goals omega
    exact .inr ⟨old,hs,hold⟩

theorem unselect_succeeds (h : t.Good) (txhash : Uint256) :
    Succeeds (t.unselect txhash) fun t₁ => t₁.Keyed ∧
      ((Idle t.members txhash ∧ t₁ = t) ∨ ∃ s state, LedBy sip t.members txhash s ∧
        state ≠ candidateBest ∧ state ≠ requested ∧ Exchanged t.members t₁.members s (s.setState state)) := by
  rw [unselect]
  rcases lowerBound_best (h.disciplined txhash) with ⟨hi,hd⟩ | ⟨s,hs,hh⟩
  · split
    · exact ⟨h.keyed,.inl ⟨hi,rfl⟩⟩
    next old hold =>
      split
      · exact ⟨h.keyed,.inl ⟨hi,rfl⟩⟩
      next hha =>
        rw [hd old hold (not_not.mp hha)]
        exact ⟨h.keyed,.inl ⟨hi,rfl⟩⟩
  · rw [hh]
    dsimp only
    rw [if_neg (not_not.mpr hs.hash)]
    rcases hs.selected with hst | hst
    · rw [if_pos hst]
      apply (setState_succeeds h.keyed hs.mem candidateReady).mono
      intro t₁ h₁
      exact ⟨h₁.keyed,.inr ⟨s,candidateReady,hs,nofun,nofun,h₁.replaced⟩⟩
    · rw [if_neg (by rw [hst]; nofun),if_pos hst]
      apply (setState_succeeds h.keyed hs.mem completed).mono
      intro t₁ h₁
      exact ⟨h₁.keyed,.inr ⟨s,completed,hs,nofun,nofun,h₁.replaced⟩⟩

def Announcement.request (ann : Announcement) (expiry : Int) : Announcement :=
  { ann with m_state := requested, m_time := expiry }
theorem request_succeeds (h : t.Keyed) (hit : it ∈ t.members) (expiry : Int) :
    Succeeds (t.modify it (it.request expiry)) fun t' => Modified t t' it (it.request expiry) :=
  modify_succeeds h hit rfl rfl

theorem requestOther_succeeds (h : t.Good) (hit : it ∈ t.members)
    (hst : it.m_state = candidateDelayed ∨ it.m_state = candidateReady) (expiry : Int) :
    Succeeds (t.unselect it.m_txhash >>= fun t₁ => t₁.modify it (it.request expiry)) Good := by
  apply (unselect_succeeds h it.m_txhash).bind
  rintro t₁ ⟨hk,⟨hi,rfl⟩ | ⟨s,state,hs,hb,hreq,hr⟩⟩
  · apply (request_succeeds hk hit expiry).mono
    intro t₂ h₂
    exact h.of_change h₂.keyed (fun _ hx => h₂.replaced.frame rfl rfl hx)
      (.inr ⟨_,hi.select h₂.replaced rfl (.inr rfl)⟩)
  · have hne : it ≠ s := by
      rintro rfl
      rcases hs.selected with hs | hs <;> rw [hs] at hst <;> simp at hst
    have hne' : s.setState state ≠ it := fun heq =>
      hne (h.keyed.unique s hs.mem it hit (congrArg (·.m_peer) heq) hs.hash).symm
    apply (request_succeeds hk ((hr it).mpr (.inr ⟨hne,hit⟩)) expiry).mono
    intro t₂ h₂
    have htwo := (hr.two h₂.replaced hne').symm
    exact h.of_change h₂.keyed (fun _ hx => htwo.frame rfl rfl hs.hash hs.hash hx)
      (.inr ⟨_,hs.handOver htwo rfl (.inr rfl) hb hreq nofun fun _ _ _ _ _ _ => nofun⟩)

theorem requestedTx_succeeds (h : t.Good) (peer : NodeId) (txhash : Uint256) (expiry : Int) :
    Succeeds (t.requestedTx peer txhash expiry) Good := by
  rw [requestedTx]
  split
  next it hfind =>
    -- The best candidate is requested.
    obtain ⟨hit,-,hb,rfl⟩ := find_eq_some hfind
    rw [beq_iff_eq] at hb
    apply (request_succeeds h.keyed hit expiry).mono
    intro t₁ h₁
    obtain ⟨s,hs⟩ := h.led hit (by simp [hb]) (by simp [hb])
    obtain rfl : it = s := by
      by_contra hne
      exact (hs.others it hit rfl hne).1 hb
    exact h.of_change h₁.keyed (fun _ hx => h₁.replaced.frame rfl rfl hx)
      (.inr ⟨_,hs.request h₁.replaced rfl rfl⟩)
  next hn =>
    split
    · exact h
    next it hfind =>
      split
      · exact h
      next hst =>
        obtain ⟨hit,-,-,rfl⟩ := find_eq_some hfind
        refine requestOther_succeeds h hit ?_ expiry
        by_contra hneither
        exact hst (not_or.mp hneither)

theorem call_succeeds (h : t.Good) (call : Call) : Succeeds (t.call call) Good := by
  cases call with
  | receivedInv peer gtxid preferred reqtime => exact receivedInv_good h peer gtxid preferred reqtime
  | disconnectedPeer peer => exact disconnectedPeer_succeeds h peer
  | forgetTxHash txhash => exact forgetTxHash_succeeds h txhash
  | getRequestable peer now =>
    apply (getRequestable_succeeds h peer now).bind
    rintro ⟨t₁,result⟩ h₁
    exact h₁.1
  | requestedTx peer txhash expiry => exact requestedTx_succeeds h peer txhash expiry
  | receivedResponse peer txhash => exact receivedResponse_succeeds h peer txhash

theorem run_succeeds (sip : SipHash) (calls : List Call) :
    Succeeds (calls.foldlM call (new : TxRequestTracker sip)) Good :=
  Yields.foldlM (I := fun _ (t : TxRequestTracker sip) => t.Good) (fun _ c _ _ _ ht => call_succeeds ht c)
    ⟨⟨nofun,rfl⟩,fun _ => .of_forall_ne nofun⟩

/-- What `SanityCheck` asserts, in terms of the announcements. -/
structure Sane (t : TxRequestTracker sip) : Prop where
  unique : ∀ a ∈ t.m_index, ∀ b ∈ t.m_index, a.m_peer = b.m_peer → a.m_txhash = b.m_txhash → a = b
  selected : ∀ a ∈ t.m_index, ∀ b ∈ t.m_index, a.m_txhash = b.m_txhash → a.isSelected = true →
    b.isSelected = true → a = b
  ready : ∀ a ∈ t.m_index, a.m_state = candidateReady →
    ∃ b ∈ t.m_index, b.m_txhash = a.m_txhash ∧ b.isSelected = true
  best : ∀ a ∈ t.m_index, ∀ b ∈ t.m_index, a.m_txhash = b.m_txhash → a.m_state = candidateBest →
    b.isSelectable = true → computePriority sip b ≤ computePriority sip a
  alive : ∀ a ∈ t.m_index, ∃ b ∈ t.m_index, b.m_txhash = a.m_txhash ∧ b.m_state ≠ completed
  counters : ∀ peer, t.m_peerinfo peer = recomputePeerInfo t.m_index.first peer

theorem isSelected_iff : a.isSelected = true ↔ a.m_state = candidateBest ∨ a.m_state = requested := by
  simp [isSelected]

theorem TxRequestTracker.Good.leader (h : t.Good) (ha : a ∈ t.m_index)
    (hsel : a.isSelected = true) : LedBy sip t.members a.m_txhash a := by
  rw [isSelected_iff] at hsel
  obtain ⟨s,hs⟩ := h.led ha (by rcases hsel with hs | hs <;> simp [hs])
    (by rcases hsel with hs | hs <;> simp [hs])
  obtain rfl : a = s := by
    by_contra hne
    obtain ⟨hb,hreq,-⟩ := hs.others a ha rfl hne
    exact hsel.elim hb hreq
  exact hs

theorem TxRequestTracker.Good.sane (h : t.Good) : Sane t where
  unique := h.keyed.unique
  selected := by
    intro a ha b hb hh hsa hsb
    by_contra hne
    obtain ⟨hbe,hreq,-⟩ := (h.leader ha hsa).others b hb hh.symm (Ne.symm hne)
    exact (isSelected_iff.mp hsb).elim hbe hreq
  ready := by
    intro a ha hready
    obtain ⟨s,hs⟩ := h.led ha (by simp [hready]) (by simp [hready])
    exact ⟨s,hs.mem,hs.hash,isSelected_iff.mpr hs.selected⟩
  best := by
    intro a ha b hb hh hbe hselectable
    by_cases hne : b = a
    · rw [hne]
    · obtain ⟨hn,-,hle⟩ := (h.leader ha (isSelected_iff.mpr (.inl hbe))).others b hb hh.symm hne
      refine hle ?_ hbe
      simpa [isSelectable,hn] using hselectable
  alive := by
    intro a ha
    rcases h.disciplined a.m_txhash with hi | ⟨s,hs⟩
    · obtain ⟨d,hd,hdh,hds⟩ := hi.delayed a ha rfl
      exact ⟨d,hd,hdh,by simp [hds]⟩
    · exact ⟨s,hs.mem,hs.hash,by rcases hs.selected with hs | hs <;> simp [hs]⟩
  counters := congrFun h.keyed.counted

/-- Every sequence of calls ends in a sane tracker, from which `GetRequestable` leaves nothing due and
nothing early. -/
theorem txRequestTracker_sane (sip : SipHash) (calls : List Call) :
    ∃ t, calls.foldlM call (new : TxRequestTracker sip) = .ok t ∧ Sane t ∧
      ∀ peer now, ∃ t' requestable expired,
        t.getRequestable peer now = .ok (t', requestable, expired) ∧ Sane t' ∧
          (∀ a ∈ t'.m_index, a.m_state = candidateDelayed ∨ a.m_state = requested → now < a.m_time) ∧
          ∀ a ∈ t'.m_index, a.m_state = candidateReady ∨ a.m_state = candidateBest → a.m_time ≤ now := by
  obtain ⟨t,hrun,hgood⟩ := (run_succeeds sip calls).exists_ok
  refine ⟨t,hrun,hgood.sane,fun peer now => ?_⟩
  obtain ⟨⟨t',requestable,expired⟩,hget,hgood',hdue,hearly⟩ :=
    (getRequestable_succeeds hgood peer now).exists_ok
  refine ⟨t',requestable,expired,hget,hgood'.sane,fun a ha hst => hdue a ha ?_,fun a ha hst => hearly a ha ?_⟩
  · rcases hst with hs | hs <;> simp [isWaiting,hs]
  · rcases hst with hs | hs <;> simp [isSelectable,hs]
end Lcryp
