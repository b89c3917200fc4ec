import Lcryp.Net.TxRequest

/-!
# The selection discipline

The announcements of one transaction hash are idle, or one of them is selected and leads the others.
-/
namespace Lcryp
open AnnouncementState
/-- No announcement of the hash is ready or selected, and not all of them are completed. -/
structure Idle (A : Set Announcement) (txhash : Uint256) : Prop where
  states : ∀ x ∈ A, x.m_txhash = txhash → x.m_state = candidateDelayed ∨ x.m_state = completed
  delayed : ∀ x ∈ A, x.m_txhash = txhash → ∃ d ∈ A, d.m_txhash = txhash ∧ d.m_state = candidateDelayed

variable (sip : SipHash) (A : Set Announcement) (txhash : Uint256)

/-- The announcement of the hash that is selected. -/
structure LedBy (s : Announcement) : Prop where
  mem : s ∈ A
  hash : s.m_txhash = txhash
  selected : s.m_state = candidateBest ∨ s.m_state = requested
  others : ∀ x ∈ A, x.m_txhash = txhash → x ≠ s →
    x.m_state ≠ candidateBest ∧ x.m_state ≠ requested ∧
      (x.m_state = candidateReady → s.m_state = candidateBest → computePriority sip x ≤ computePriority sip s)

def Disciplined : Prop :=
  Idle A txhash ∨ ∃ s, LedBy sip A txhash s

section Change
variable {sip : SipHash} {A A' : Set Announcement} {txhash : Uint256} {a a' c c' s : Announcement}
theorem Disciplined.congr (h : Disciplined sip A txhash) (hsa : ∀ x, x.m_txhash = txhash → (x ∈ A' ↔ x ∈ A)) :
    Disciplined sip A' txhash := by
  rcases h with ⟨hst,hdel⟩ | ⟨s,hs⟩
  · refine .inl ⟨fun x hx hh => hst x ((hsa x hh).mp hx) hh,fun x hx hh => ?_⟩
    obtain ⟨d,hd,hdh,hds⟩ := hdel x ((hsa x hh).mp hx) hh
    exact ⟨d,(hsa d hdh).mpr hd,hdh,hds⟩
  · exact .inr ⟨s,(hsa s hs.hash).mpr hs.mem,hs.hash,hs.selected,
      fun x hx hh => hs.others x ((hsa x hh).mp hx) hh⟩

theorem Disciplined.of_forall_ne (h : ∀ x ∈ A, x.m_txhash ≠ txhash) : Disciplined sip A txhash :=
  .inl ⟨fun x hx hh => absurd hh (h x hx),fun x hx hh => absurd hh (h x hx)⟩
theorem LedBy.not_delayed (h : LedBy sip A txhash s) (ha : a.m_state = candidateDelayed) : s ≠ a := by
  rintro rfl
  rcases h.selected with hs | hs <;> rw [ha] at hs <;> cases hs

def Exchanged (A A' : Set Announcement) (a a' : Announcement) : Prop := ∀ x, x ∈ A' ↔ x = a' ∨ (x ≠ a ∧ x ∈ A)
def ExchangedTwo (A A' : Set Announcement) (a a' c c' : Announcement) : Prop :=
  ∀ x, x ∈ A' ↔ x = a' ∨ x = c' ∨ (x ≠ a ∧ x ≠ c ∧ x ∈ A)

variable {x : Announcement}
theorem Exchanged.frame (h : Exchanged A A' a a') (ha : a.m_txhash = txhash) (ha' : a'.m_txhash = txhash)
    (hx : x.m_txhash ≠ txhash) : x ∈ A' ↔ x ∈ A := by
  have hxa : x ≠ a := fun heq => hx (heq ▸ ha)
  have hxa' : x ≠ a' := fun heq => hx (heq ▸ ha')
  simp [h x,hxa,hxa']

theorem ExchangedTwo.frame (h : ExchangedTwo A A' a a' c c') (ha : a.m_txhash = txhash)
    (ha' : a'.m_txhash = txhash) (hc : c.m_txhash = txhash) (hc' : c'.m_txhash = txhash)
    (hx : x.m_txhash ≠ txhash) : x ∈ A' ↔ x ∈ A := by
  have hxa : x ≠ a := fun heq => hx (heq ▸ ha)
  have hxa' : x ≠ a' := fun heq => hx (heq ▸ ha')
  have hxc : x ≠ c := fun heq => hx (heq ▸ hc)
  have hxc' : x ≠ c' := fun heq => hx (heq ▸ hc')
  simp [h x,hxa,hxa',hxc,hxc']

variable {A'' : Set Announcement} {a'' : Announcement}
theorem Exchanged.trans (h : Exchanged A A' a a')
    (h' : Exchanged A' A'' a' a'') (hf : a' ∈ A → a' = a) : Exchanged A A'' a a'' := by
  intro x
  rw [h' x,h x]
  by_cases hx : x = a'
  · subst hx
    by_cases hmem : x ∈ A
    · simp [hf hmem]
    · simp [hmem]
  · simp [hx]

theorem Exchanged.two (h : Exchanged A A' a a') (h' : Exchanged A' A'' c c')
    (hne : a' ≠ c) : ExchangedTwo A A'' a a' c c' := by
  intro x
  rw [h' x,h x]
  by_cases hx : x = a'
  · subst hx
    simp [hne]
  · tauto

theorem ExchangedTwo.trans (h : ExchangedTwo A A' a a' c c') (h' : Exchanged A' A'' a' a'')
    (hf : a' ∈ A → a' = a) (hne : c' ≠ a') : ExchangedTwo A A'' a a'' c c' := by
  intro x
  rw [h' x,h x]
  by_cases hx : x = a'
  · subst hx
    by_cases hmem : x ∈ A
    · simp [hf hmem,Ne.symm (hf hmem ▸ hne)]
    · simp [hmem,Ne.symm hne]
  · simp [hx]

theorem ExchangedTwo.symm (h : ExchangedTwo A A' a a' c c') : ExchangedTwo A A' c c' a a' := by
  intro x
  rw [h x]
  tauto

theorem Idle.select (h : Idle A txhash) (hA : Exchanged A A' a a') (hha : a'.m_txhash = txhash)
    (hst : a'.m_state = candidateBest ∨ a'.m_state = requested) : LedBy sip A' txhash a' where
  mem := (hA a').mpr (.inl rfl)
  hash := hha
  selected := hst
  others := by
    intro x hx hh hne
    have hx := ((hA x).mp hx).resolve_left hne
    rcases h.states x hx.2 hh with hx | hx <;> simp [hx]

theorem LedBy.request (h : LedBy sip A txhash a) (hA : Exchanged A A' a a')
    (hha : a'.m_txhash = txhash) (hst : a'.m_state = requested) : LedBy sip A' txhash a' where
  mem := (hA a').mpr (.inl rfl)
  hash := hha
  selected := .inr hst
  others := by
    intro x hx hh hne
    have hx := ((hA x).mp hx).resolve_left hne
    obtain ⟨hb,hreq,-⟩ := h.others x hx.2 hh hx.1
    exact ⟨hb,hreq,by simp [hst]⟩

theorem LedBy.change (h : LedBy sip A txhash s) (hA : Exchanged A A' a a') (hne : a ≠ s)
    (hb : a'.m_state ≠ candidateBest) (hreq : a'.m_state ≠ requested)
    (hr : a'.m_state = candidateReady → s.m_state = candidateBest →
      computePriority sip a' ≤ computePriority sip s) : LedBy sip A' txhash s where
  mem := (hA s).mpr (.inr ⟨Ne.symm hne,h.mem⟩)
  hash := h.hash
  selected := h.selected
  others := by
    intro x hx hh hxs
    rcases (hA x).mp hx with rfl | ⟨-,hx⟩
    · exact ⟨hb,hreq,hr⟩
    · exact h.others x hx hh hxs

/-- A candidate takes the lead, and the leader becomes one that does not challenge it. -/
theorem LedBy.handOver (h : LedBy sip A txhash c) (hA : ExchangedTwo A A' a a' c c')
    (hha : a'.m_txhash = txhash) (hst : a'.m_state = candidateBest ∨ a'.m_state = requested)
    (hbe : c'.m_state ≠ candidateBest) (hreq : c'.m_state ≠ requested)
    (hl : a'.m_state = candidateBest → c'.m_state = candidateReady →
      computePriority sip c' ≤ computePriority sip a')
    (ho : ∀ x ∈ A, x.m_txhash = txhash → x ≠ a → x ≠ c → x.m_state = candidateReady →
      a'.m_state = candidateBest → computePriority sip x ≤ computePriority sip a') :
    LedBy sip A' txhash a' where
  mem := (hA a').mpr (.inl rfl)
  hash := hha
  selected := hst
  others := by
    intro x hx hh hne
    rcases ((hA x).mp hx).resolve_left hne with rfl | ⟨hxa,hxc,hx⟩
    · exact ⟨hbe,hreq,fun hr hb => hl hb hr⟩
    · obtain ⟨hxb,hxr,-⟩ := h.others x hx hh hxc
      exact ⟨hxb,hxr,ho x hx hh hxa hxc⟩

theorem LedBy.abandon (h : LedBy sip A txhash a) (hA : Exchanged A A' a a') (hha : a'.m_txhash = txhash)
    (hn : ∀ x ∈ A, x.m_txhash = txhash → x.m_state ≠ candidateReady)
    (hst : a'.m_state = candidateDelayed ∨ (a'.m_state = completed ∧
      ∃ x ∈ A, x.m_txhash = txhash ∧ x ≠ a ∧ x.m_state ≠ completed)) : Idle A' txhash := by
  have ho : ∀ x ∈ A, x.m_txhash = txhash → x ≠ a → x.m_state = candidateDelayed ∨ x.m_state = completed := by
    intro x hx hh hne
    obtain ⟨hb,hreq,-⟩ := h.others x hx hh hne
    cases hx' : x.m_state <;> simp_all
  constructor
  · intro x hx hh
    rcases (hA x).mp hx with rfl | ⟨hne,hx⟩
    · exact hst.imp_right And.left
    · exact ho x hx hh hne
  · intro _ _ _
    rcases hst with hdel | ⟨-,x,hx,hh,hne,hl⟩
    · exact ⟨a',(hA a').mpr (.inl rfl),hha,hdel⟩
    · exact ⟨x,(hA x).mpr (.inr ⟨hne,hx⟩),hh,(ho x hx hh hne).resolve_right hl⟩

theorem Idle.complete (h : Idle A txhash) (hA : Exchanged A A' a a') (hst : a'.m_state = completed)
    (hl : ∃ x ∈ A, x.m_txhash = txhash ∧ x ≠ a ∧ x.m_state ≠ completed) : Idle A' txhash := by
  obtain ⟨d,hd,hdh,hda,hds⟩ := hl
  constructor
  · intro x hx hh
    rcases (hA x).mp hx with rfl | ⟨-,hx⟩
    · exact .inr hst
    · exact h.states x hx hh
  · intro _ _ _
    exact ⟨d,(hA d).mpr (.inr ⟨hda,hd⟩),hdh,(h.states d hd hdh).resolve_right hds⟩

theorem Disciplined.insert (h : Disciplined sip A txhash) (hA : ∀ x, x ∈ A' ↔ x = a ∨ x ∈ A)
    (hha : a.m_txhash = txhash) (hst : a.m_state = candidateDelayed) : Disciplined sip A' txhash := by
  rcases h with h | ⟨s,hs⟩
  · refine .inl ⟨fun x hx hh => ?_,fun _ _ _ => ⟨a,(hA a).mpr (.inl rfl),hha,hst⟩⟩
    rcases (hA x).mp hx with rfl | hx
    · exact .inl hst
    · exact h.states x hx hh
  · refine .inr ⟨s,(hA s).mpr (.inr hs.mem),hs.hash,hs.selected,fun x hx hh hne => ?_⟩
    rcases (hA x).mp hx with rfl | hx
    · simp [hst]
    · exact hs.others x hx hh hne

theorem Disciplined.forget (h : Disciplined sip A txhash) (hA : ∀ x, x ∈ A' ↔ x ≠ a ∧ x ∈ A)
    (hst : a.m_state = completed) : Disciplined sip A' txhash := by
  rcases h with h | ⟨s,hs⟩
  · refine .inl ⟨fun x hx hh => h.states x ((hA x).mp hx).2 hh,fun x hx hh => ?_⟩
    obtain ⟨d,hd,hdh,hds⟩ := h.delayed x ((hA x).mp hx).2 hh
    refine ⟨d,(hA d).mpr ⟨?_,hd⟩,hdh,hds⟩
    rintro rfl
    rw [hst] at hds
    cases hds
  · refine .inr ⟨s,(hA s).mpr ⟨?_,hs.mem⟩,hs.hash,hs.selected,fun x hx hh hne =>
      hs.others x ((hA x).mp hx).2 hh hne⟩
    rintro rfl
    rcases hs.selected with hs | hs <;> rw [hst] at hs <;> cases hs
end Change
end Lcryp
