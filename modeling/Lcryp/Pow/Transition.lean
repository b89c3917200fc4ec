import Lcryp.Pow.Target

/-!
# Permitted difficulty transitions

`PermittedDifficultyTransition` keeps the rule of a periodic retarget.
-/
namespace Lcryp
open LeadingBytes Nat
/-- The target reached from `old_nbits` over a whole period of the given length. -/
def timespanTarget (params : ConsensusParams) (oldNbits : BitVec 32) (timespan : Int) : ArithUint256 :=
  let target := (setCompact oldNbits).target * ofInt64Low timespan /
    ofInt64 params.nPowTargetTimespan
  (setCompact (getCompact (if target > params.powLimit then params.powLimit else target))).target

def permittedDifficultyTransition (params : ConsensusParams) (height : Int)
    (oldNbits newNbits : BitVec 32) : Bool :=
  if params.fPowAllowMinDifficultyBlocks then true
  else if height.tmod params.difficultyAdjustmentInterval = 0 then
    let smallestTimespan := params.nPowTargetTimespan.tdiv 4
    let largestTimespan := params.nPowTargetTimespan * 4
    let observedNewTarget := (setCompact newNbits).target
    if timespanTarget params oldNbits largestTimespan < observedNewTarget then false
    else if timespanTarget params oldNbits smallestTimespan > observedNewTarget then false
    else true
  else if oldNbits ≠ newNbits then false
  else true

def compactNat (x : Nat) : Nat := if x = 0 then 0 else leadingMantissa x + 2^24 * leadingSize x

theorem getCompact_eq_iff (a : ArithUint256) (nBits : BitVec 32) :
    getCompact a = nBits ↔ compactNat a.toNat = nBits.toNat := by
  rw [← BitVec.toNat_inj]
  by_cases ha : a.toNat = 0
  · have hz : a = 0#256 := BitVec.eq_of_toNat_eq (by simpa using ha)
    subst hz
    simp [compactNat]
  · rw [getCompact_toNat a (pos_of_ne_zero ha),compactNat,if_neg ha]

/-- A bound of the window: the target scaled by the timespan modulo `2 ^ 256`, cut to the limit. -/
def windowTarget (params : ConsensusParams) (target : Nat) (timespan : Int) : Nat :=
  leadingFloor (min (target * (timespan % 2^32).toNat % 2^256 / params.nPowTargetTimespan.toNat)
    params.powLimit.toNat)

theorem timespanTarget_toNat (params : ConsensusParams) (oldNbits : BitVec 32) (timespan : Int) :
    (timespanTarget params oldNbits timespan).toNat =
      windowTarget params (setCompact oldNbits).target.toNat timespan := by
  have hs : (ofInt64 params.nPowTargetTimespan).toNat = params.nPowTargetTimespan.toNat := by
    have hpos := params.spacing_pos
    have hle := params.spacing_le_timespan
    have hlt := params.timespan_lt
    rw [ofInt64,BitVec.toNat_setWidth,BitVec.toNat_ofInt]
    omega
  rw [timespanTarget,(setCompact_getCompact _).1,cap_toNat,BitVec.toNat_udiv,hs]
  rfl

/-- Inside a period the regulated target keeps its compact form, and at its end it stays in the window. -/
def TransitionFits (params : ConsensusParams) (parent : CBlockIndex) (pprev : IndexChain) : Prop :=
  let target := (setCompact parent.nBits).target.toNat
  ∀ f, difficultyFactor (chainRegulation params parent pprev) = some f →
    let next := midasTarget params.powLimit.toNat target f
    if (parent.nHeight + 1 : Nat) % params.difficultyAdjustmentInterval = 0 then
      windowTarget params target (params.nPowTargetTimespan/4) ≤ leadingFloor next ∧
        leadingFloor next ≤ windowTarget params target (params.nPowTargetTimespan*4)
    else compactNat next = parent.nBits.toNat

/-- Inside a period a parent fits exactly if its factor is neutral, or if its target is the limit and the
factor would raise it. -/
theorem transitionFits_iff_neutral {params : ConsensusParams} {parent : CBlockIndex} {pprev : IndexChain} {f : Nat}
    (hperiod : (parent.nHeight + 1 : Nat) % params.difficultyAdjustmentInterval ≠ 0)
    (hcompact : getCompact (setCompact parent.nBits).target = parent.nBits)
    (hf : difficultyFactor (chainRegulation params parent pprev) = some (f : Int)) (hpos : 0 < f) (hword : f < 2^64)
    (hlow : 2^28 ≤ (setCompact parent.nBits).target.toNat)
    (hle : (setCompact parent.nBits).target.toNat ≤ params.powLimit.toNat)
    (hfits : (setCompact parent.nBits).target.toNat / f * 10000 < 2^256) :
    TransitionFits params parent pprev ↔ f = 10000 ∨ f < 10000 ∧ getCompact params.powLimit = parent.nBits ∧
      params.powLimit.toNat < (setCompact parent.nBits).target.toNat / f * 10000 := by
  have hfactor : factorWord f = f := by
    unfold factorWord
    omega
  have hnext := retarget_toNat (setCompact parent.nBits).target params.powLimit f
  rw [midasTarget,hfactor,if_neg hpos.ne',mod_eq_of_lt hfits] at hnext
  have hkept : getCompact (retarget (setCompact parent.nBits).target params.powLimit f) = parent.nBits →
      leadingFloor (retarget (setCompact parent.nBits).target params.powLimit f).toNat =
        (setCompact parent.nBits).target.toNat := by
    intro h
    rw [← (setCompact_getCompact _).1,h]
  simp only [TransitionFits,hf,Option.some.injEq,forall_eq',if_neg hperiod]
  rw [← retarget_toNat,← getCompact_eq_iff]
  generalize retarget (setCompact parent.nBits).target params.powLimit f = next at *
  generalize (setCompact parent.nBits).target = target at *
  rcases lt_trichotomy f 10000 with hlt | rfl | hgt
  · rw [if_neg (by omega)] at hnext
    rcases lt_or_ge params.powLimit.toNat (target.toNat / f * 10000) with hcap | hcap
    · rw [min_eq_right hcap.le] at hnext
      obtain rfl := BitVec.eq_of_toNat_eq hnext
      simp [hlt,hlt.ne,hcap]
    · have hrises : target.toNat / 9999 ≤ target.toNat / f := Nat.div_le_div_left (by omega) hpos
      have hcut := lt_leadingFloor (x := target.toNat / f * 10000) (by omega)
      rw [min_eq_left hcap] at hnext
      rw [hnext] at hkept
      refine iff_of_false (fun h => ?_) (by rintro (h | ⟨-,-,h⟩) <;> omega)
      have := hkept h
      omega
  · rw [if_pos (by norm_num),min_eq_left hle] at hnext
    obtain rfl := BitVec.eq_of_toNat_eq hnext
    simp [hcompact]
  · have hfalls : target.toNat / f * 10000 ≤ target.toNat / 10001 * 10000 :=
      Nat.mul_le_mul_right _ (Nat.div_le_div_left (by omega) (by omega))
    have hbelow := leadingFloor_le next.toNat
    rw [if_neg (by omega)] at hnext
    refine iff_of_false (fun h => ?_) (by omega)
    have := hkept h
    omega

section Mainnet
variable (params : ConsensusParams) (hflag : params.fPowAllowMinDifficultyBlocks = false)
include params hflag

theorem permittedDifficultyTransition_period_iff {height : Int}
    (hht : params.difficultyAdjustmentInterval ∣ height) (oldNbits newNbits : BitVec 32) :
    permittedDifficultyTransition params height oldNbits newNbits = true ↔
      (timespanTarget params oldNbits (params.nPowTargetTimespan/4)).toNat ≤
          (setCompact newNbits).target.toNat ∧
        (setCompact newNbits).target.toNat ≤
          (timespanTarget params oldNbits (params.nPowTargetTimespan*4)).toNat := by
  have hs : params.nPowTargetTimespan.tdiv 4 = params.nPowTargetTimespan / 4 := by
    have hpos := params.spacing_pos
    have hle := params.spacing_le_timespan
    exact Int.tdiv_eq_ediv_of_nonneg (by omega)
  simp only [permittedDifficultyTransition,Int.tmod_eq_zero_of_dvd hht]
  rw [← BitVec.le_def,← BitVec.le_def]
  split_ifs <;> simp_all

theorem permittedDifficultyTransition_iff (height : Nat) (oldNbits newNbits : BitVec 32) :
    permittedDifficultyTransition params height oldNbits newNbits = true ↔
      if height % params.difficultyAdjustmentInterval = 0 then
        (timespanTarget params oldNbits (params.nPowTargetTimespan/4)).toNat ≤
            (setCompact newNbits).target.toNat ∧
          (setCompact newNbits).target.toNat ≤
            (timespanTarget params oldNbits (params.nPowTargetTimespan*4)).toNat
      else newNbits = oldNbits := by
  by_cases hm : (height : Int) % params.difficultyAdjustmentInterval = 0
  · rw [if_pos hm]
    exact permittedDifficultyTransition_period_iff params hflag (Int.dvd_of_emod_eq_zero hm) _ _
  simp only [permittedDifficultyTransition,hflag,Bool.false_eq_true,if_false,
    Int.tmod_eq_emod_of_nonneg (Int.natCast_nonneg height)]
  split_ifs with hne
  · simp [Ne.symm hne]
  · simp only [not_not] at hne
    simp [hne]

theorem permitted_getNextWorkRequired_iff (parent : CBlockIndex) (pprev : IndexChain)
    (nBits : BitVec 32) (hw : getNextWorkRequired params (parent::pprev) = some nBits) :
    permittedDifficultyTransition params (parent.nHeight + 1 : Nat) parent.nBits nBits = true ↔
      TransitionFits params parent pprev := by
  rw [getNextWorkRequired_eq,Option.map_eq_some_iff] at hw
  obtain ⟨f,hf,rfl⟩ := hw
  rw [permittedDifficultyTransition_iff params hflag,timespanTarget_toNat,timespanTarget_toNat,
    (setCompact_getCompact _).1,getCompact_eq_iff,retarget_toNat]
  simp [TransitionFits,hf]
end Mainnet
variable (params : ConsensusParams)

/-- On a chain whose targets are the ones asked for, every transition is permitted exactly when
every parent fits. -/
theorem midasChain_permitted_iff
    (hflag : params.fPowAllowMinDifficultyBlocks = false) (chain : IndexChain)
    (hchain : MidasChain params chain) :
    (∀ child parent rest, child::parent::rest <:+ chain →
      permittedDifficultyTransition params (parent.nHeight + 1 : Nat) parent.nBits child.nBits = true) ↔
    ∀ child parent rest, child::parent::rest <:+ chain → TransitionFits params parent rest := by
  have hpair : ∀ child parent rest, child::parent::rest <:+ chain →
      (permittedDifficultyTransition params (parent.nHeight + 1 : Nat) parent.nBits child.nBits =
        true ↔ TransitionFits params parent rest) := by
    intro child parent rest hsuf
    exact permitted_getNextWorkRequired_iff params hflag parent rest child.nBits (hchain.of_suffix hsuf).1
  constructor
  · intro hall child parent rest hs
    exact (hpair child parent rest hs).mp (hall child parent rest hs)
  · intro hall child parent rest hs
    exact (hpair child parent rest hs).mpr (hall child parent rest hs)

/-- Two blocks on schedule: neither target moves, and both transitions are permitted. -/
theorem scheduledChain_permitted :
    MidasChain mainParams (timedChain [(1200, 0x207fffff#32), (600, 0x207fffff#32)]) ∧
      ∀ child parent rest, child::parent::rest <:+ timedChain [(1200, 0x207fffff#32), (600, 0x207fffff#32)] →
        permittedDifficultyTransition mainParams (parent.nHeight + 1 : Nat) parent.nBits child.nBits = true := by
  refine ⟨by decide,(midasChain_permitted_iff mainParams rfl _ (by decide)).mpr ?_⟩
  intro child parent rest hsuf
  simp only [timedChain,List.suffix_cons_iff,List.suffix_nil,List.cons.injEq,reduceCtorEq,or_false,and_false] at hsuf
  rcases hsuf with ⟨-,rfl,rfl⟩ | ⟨-,rfl,rfl⟩ <;>
    exact (transitionFits_iff_neutral (f := 10000) (by decide) (by decide) (by decide) (by decide) (by decide)
      (by decide) (by decide) (by decide)).mpr (.inl rfl)

/-- The second block after a one-second interval is asked for a lower target in mid-period. -/
theorem honestChain_not_permitted :
    MidasChain mainParams (timedChain [(2, 0x2060130e#32), (1, 0x207fffff#32)]) ∧
      (timedChain [(2, 0x2060130e#32), (1, 0x207fffff#32)]).MedianTimeRule ∧
      permittedDifficultyTransition mainParams 2 0x207fffff#32 0x2060130e#32 = false := by
  decide

/-- A bound of the window without the reduction modulo `2 ^ 256`. -/
def exactWindow (target : Nat) (timespan : Int) : Nat :=
  leadingFloor (min params.powLimit.toNat (target * timespan.toNat / params.nPowTargetTimespan.toNat))

def ExactlyPermitted (oldNbits newNbits : BitVec 32) : Prop :=
  let target := (setCompact oldNbits).target.toNat
  exactWindow params target (params.nPowTargetTimespan/4) ≤ (setCompact newNbits).target.toNat ∧
    (setCompact newNbits).target.toNat ≤ exactWindow params target (params.nPowTargetTimespan*4)
section Window
variable {params : ConsensusParams} (h : params.HourlyTimespan) {target : Nat}
include h

private theorem quarter_eq : exactWindow params target (params.nPowTargetTimespan/4) =
    leadingFloor (min params.powLimit.toNat (target * 900 / 3600)) := by
  rw [exactWindow,h.timespan]
  rfl

private theorem fourfold_eq : exactWindow params target (params.nPowTargetTimespan*4) =
    leadingFloor (min params.powLimit.toNat (4*target)) := by
  rw [exactWindow,h.timespan,show ((3600 * 4 : Int)).toNat = 3600 * 4 from rfl,
    show ((3600 : Int)).toNat = 3600 from rfl,show target * (3600*4) = 3600 * (4*target) by ring,
    Nat.mul_div_cancel_left _ (by norm_num)]

private theorem windowTarget_eq (target timespan : Nat) (hs : timespan < 2^32) :
    windowTarget params target timespan =
      leadingFloor (min (target * timespan % 2^256 / 3600) params.powLimit.toNat) := by
  have hw : ((timespan : Int) % 2^32).toNat = timespan := by omega
  rw [windowTarget,hw,h.timespan]
  rfl

theorem windowTarget_exact (hf : target * 14400 < 2^256) :
    windowTarget params target (params.nPowTargetTimespan/4) =
        exactWindow params target (params.nPowTargetTimespan/4) ∧
      windowTarget params target (params.nPowTargetTimespan*4) =
        exactWindow params target (params.nPowTargetTimespan*4) := by
  have hs : target * 900 < 2^256 := (mul_le_mul_left target (by norm_num)).trans_lt hf
  have hlow := windowTarget_eq h target 900 (by norm_num)
  have hh := windowTarget_eq h target 14400 (by norm_num)
  rw [mod_eq_of_lt hs] at hlow
  rw [mod_eq_of_lt hf] at hh
  rw [quarter_eq h,fourfold_eq h,min_comm,min_comm _ (4*target),h.timespan]
  refine ⟨hlow,hh.trans ?_⟩
  rw [show target * 14400 = 3600 * (4*target) by ring,Nat.mul_div_cancel_left _ (by norm_num)]

/-- Once the larger product wraps, the upper bound falls below the exact one. -/
theorem windowTarget_lt_exact (hw : 2^256 ≤ target * 14400) (hl : 2^245 ≤ params.powLimit.toNat) :
    windowTarget params target (params.nPowTargetTimespan*4) <
      exactWindow params target (params.nPowTargetTimespan*4) := by
  have hh := windowTarget_eq h target 14400 (by norm_num)
  have hcut := lt_leadingFloor (x := min params.powLimit.toNat (4*target)) (by omega)
  have hmod : target * 14400 % 2^256 ≤ target * 14400 - 2^256 := by
    rw [mod_eq_sub_mod hw]
    exact mod_le _ _
  have hf := leadingFloor_le (min (target * 14400 % 2^256 / 3600) params.powLimit.toNat)
  rw [fourfold_eq h,h.timespan]
  rw [show ((3600 * 4 : Int)) = (14400 : Nat) from rfl]
  omega

theorem le_exactWindow (hc : leadingFloor target = target) (hle : target ≤ params.powLimit.toNat) :
    exactWindow params target (params.nPowTargetTimespan/4) ≤ target ∧
      target ≤ exactWindow params target (params.nPowTargetTimespan*4) := by
  rw [quarter_eq h,fourfold_eq h]
  constructor
  · exact (leadingFloor_le _).trans (by omega)
  · calc target = leadingFloor target := hc.symm
      _ ≤ leadingFloor (min params.powLimit.toNat (4*target)) := leadingFloor_mono (by omega)

theorem exists_exactWindow (target : Nat) : ∃ newNbits, (setCompact newNbits).target.toNat =
    exactWindow params target (params.nPowTargetTimespan*4) := by
  have hlt : min params.powLimit.toNat (4*target) < 2^256 := by omega
  refine ⟨getCompact (BitVec.ofNat 256 (min params.powLimit.toNat (4*target))),?_⟩
  rw [(setCompact_getCompact _).1,BitVec.toNat_ofNat,mod_eq_of_lt hlt,fourfold_eq h]
end Window

/-- The window is the one over unbounded integers exactly if the fourfold product of the target fits in 256
bits. -/
theorem permitted_exact_iff (params : ConsensusParams) (h : params.HourlyTimespan)
    (hflag : params.fPowAllowMinDifficultyBlocks = false)
    (hlimit : params.powLimit.toNat * 14400 < 2^256 ∨ 2^245 ≤ params.powLimit.toNat)
    (height : Int) (hheight : params.difficultyAdjustmentInterval ∣ height) (oldNbits : BitVec 32)
    (hle : (setCompact oldNbits).target ≤ params.powLimit) :
    ((∀ newNbits, permittedDifficultyTransition params height oldNbits newNbits = true ↔
        ExactlyPermitted params oldNbits newNbits) ∧
      (getCompact (setCompact oldNbits).target = oldNbits →
        permittedDifficultyTransition params height oldNbits oldNbits = true)) ↔
    (setCompact oldNbits).target.toNat * 14400 < 2^256 := by
  set old := (setCompact oldNbits).target with hold
  have hle' : old.toNat ≤ params.powLimit.toNat := BitVec.le_def.mp hle
  have hperm : ∀ newNbits, permittedDifficultyTransition params height oldNbits newNbits = true ↔
      windowTarget params old.toNat (params.nPowTargetTimespan/4) ≤ (setCompact newNbits).target.toNat ∧
        (setCompact newNbits).target.toNat ≤ windowTarget params old.toNat (params.nPowTargetTimespan*4) := by
    intro newNbits
    rw [permittedDifficultyTransition_period_iff params hflag hheight,timespanTarget_toNat,timespanTarget_toNat]
  have hsame : getCompact old = oldNbits → leadingFloor old.toNat = old.toNat := by
    intro hcanonical
    rw [← (setCompact_getCompact _).1,hcanonical]
  constructor
  · rintro ⟨hexact,-⟩
    by_contra hwrap
    -- the exact upper bound is itself a target, and beyond the wrapped bound
    obtain ⟨newNbits,hnew⟩ := exists_exactWindow h old.toNat
    have hpermits : ExactlyPermitted params oldNbits newNbits := by
      refine ⟨?_,hnew.le⟩
      rw [hnew,quarter_eq h,fourfold_eq h,← hold]
      exact leadingFloor_mono (by omega)
    have hwith := ((hperm newNbits).mp ((hexact newNbits).mpr hpermits)).2
    have hbel := windowTarget_lt_exact h (not_lt.mp hwrap) (hlimit.resolve_left fun hsmall =>
      hwrap ((mul_le_mul_right _ hle').trans_lt hsmall))
    rw [hnew] at hwith
    exact absurd hwith (not_le.mpr hbel)
  · intro hfits
    obtain ⟨hlow,hhigh⟩ := windowTarget_exact h hfits
    have hexact : ∀ newNbits, permittedDifficultyTransition params height oldNbits newNbits = true ↔
        ExactlyPermitted params oldNbits newNbits := by
      intro newNbits
      rw [hperm,hlow,hhigh]
      rfl
    refine ⟨hexact,fun hcanonical => (hexact oldNbits).mpr ?_⟩
    exact le_exactWindow h (hsame hcanonical) hle'

theorem smallTarget_exactly_permitted :
    ((∀ newNbits, permittedDifficultyTransition mainParams 6 0x1d00ffff#32 newNbits = true ↔
        ExactlyPermitted mainParams 0x1d00ffff#32 newNbits) ∧
      (getCompact (setCompact 0x1d00ffff#32).target = 0x1d00ffff#32 →
        permittedDifficultyTransition mainParams 6 0x1d00ffff#32 0x1d00ffff#32 = true)) ∧
    (setCompact 0x1d00ffff#32).target.toNat * 14400 < 2^256 := by
  have hfits : (setCompact 0x1d00ffff#32).target.toNat * 14400 < 2^256 := by decide
  exact ⟨(permitted_exact_iff mainParams mainParams_hourly rfl (.inr (by decide)) 6 (by decide) _
    (by decide)).mpr hfits,hfits⟩

/-- The target of the genesis block may not be kept. -/
theorem genesisTarget_not_kept :
    getCompact (setCompact 0x207fffff#32).target = 0x207fffff#32 ∧
      (setCompact 0x207fffff#32).target ≤ mainParams.powLimit ∧
      permittedDifficultyTransition mainParams 6 0x207fffff#32 0x207fffff#32 = false := by
  decide
end Lcryp
