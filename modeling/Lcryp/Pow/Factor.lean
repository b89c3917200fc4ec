import Lcryp.Pow.Target

/-!
# Range of the difficulty factor

An adjusting branch scales the target by `(reg + 3 * interval) / (4 * interval)`, so a factor above
`13333` needs a negative `reg`.
-/
namespace Lcryp
open Int
variable (r : RecentTimestamps) (nIntervalDesired : Int)
/-- The guards of the two branches that raise the difficulty. -/
def IncreaseBranch : Prop :=
  (r.avgOf5 < tooFast nIntervalDesired ∧ r.avgOf7 < tooFast nIntervalDesired ∧
    r.avgOf9 < tooFast nIntervalDesired ∧ r.avgOf17 < nIntervalDesired) ∨
  (r.avgOf5 < nIntervalDesired ∧ r.avgOf7 < nIntervalDesired ∧ r.avgOf9 < nIntervalDesired ∧
    r.avgOf17 < nIntervalDesired)

/-- The factor exists, shrinks the target by at most a third of its inverse, and reaches `10000`
exactly in an increase branch or when no branch is taken. -/
def ProportionalFactor : Prop :=
  ∃ f, difficultyFactor (regulation r nIntervalDesired) = some f ∧ f ≤ 13333 ∧
    (10000 ≤ f ↔ IncreaseBranch r nIntervalDesired ∨ regulation r nIntervalDesired = none)

section Quotient
variable (g : Regulation) (hx : 0 < g.interval)
include hx in
theorem difficultyFactor_of_nonneg (hreg : 0 ≤ g.reg) :
    ∃ f, difficultyFactor (some g) = some f ∧ 0 ≤ f ∧ f ≤ 13333 ∧ (10000 ≤ f ↔ g.reg ≤ g.interval) := by
  have hd : 0 < g.divisor := by
    unfold Regulation.divisor
    omega
  refine ⟨10000 * (4*g.interval) / g.divisor,?_,?_,?_,?_⟩
  · rw [difficultyFactor,int64Div,if_neg (by omega),tdiv_eq_ediv_of_nonneg (by omega)]
  · exact ediv_nonneg (by omega) (by omega)
  · have := (Int.ediv_lt_iff_lt_mul hd (a := 10000 * (4*g.interval)) (b := 13334)).mpr
      (by unfold Regulation.divisor; omega)
    omega
  · rw [Int.le_ediv_iff_mul_le hd,Regulation.divisor]
    omega

include hx in
/-- A branch with a negative average traps, turns the factor negative or overshoots. -/
theorem difficultyFactor_of_neg (hb : g.interval ≤ 990) (hreg : g.reg < 0) (f : Int)
    (hf : difficultyFactor (some g) = some f) : f ≤ 0 ∨ 13333 < f := by
  rw [difficultyFactor,int64Div] at hf
  split_ifs at hf with hz
  cases hf
  rcases lt_or_gt_of_ne hz with hneg | hpos
  · have : 0 ≤ (10000 * (4*g.interval)).tdiv (-g.divisor) := Int.tdiv_nonneg (by omega) (by omega)
    rw [Int.tdiv_neg] at this
    omega
  · rw [tdiv_eq_ediv_of_nonneg (by omega)]
    have := (Int.le_ediv_iff_mul_le hpos (a := 13334) (b := 10000 * (4*g.interval))).mpr
      (by unfold Regulation.divisor; omega)
    omega
end Quotient

/-- The factor of four averages is proportional unless the emergency increase sees three negative
ones. -/
theorem proportionalFactor_iff (n : Int) (hlow : 540 ≤ n) (hh : n ≤ 660) :
    ProportionalFactor r n ↔ ¬ (r.avgOf5 < 0 ∧ r.avgOf7 < 0 ∧ r.avgOf9 < 0 ∧ r.avgOf17 < n) := by
  have hsp := tooFast_tooSlow (by omega : 0 ≤ n)
  constructor
  · rintro ⟨f,hf,hle,hb⟩ ⟨h5,h7,h9,h17⟩
    have hgu : r.avgOf5 < tooFast n ∧ r.avgOf7 < tooFast n ∧ r.avgOf9 < tooFast n ∧
        r.avgOf17 < n := ⟨by omega,by omega,by omega,h17⟩
    rw [regulation,if_pos hgu,selectOf3_gt] at hf
    have hl := hb.mpr (.inl (.inl hgu))
    have hout := difficultyFactor_of_neg ⟨tooFast n,max r.avgOf5 (max r.avgOf7 r.avgOf9)⟩
      (by simp only; omega) (by simp only; omega) (by simp only; omega) f hf
    omega
  · intro hnot
    rcases hg : regulation r n with _ | g
    · exact ⟨10000,by rw [hg]; rfl,by omega,by simp [hg]⟩
    -- `reg` is not negative, and it lies below the interval exactly in the increase branches
    have hs : 0 < g.interval ∧ 0 ≤ g.reg ∧ (g.reg ≤ g.interval ↔ IncreaseBranch r n) := by
      unfold IncreaseBranch
      rcases regulation_cases r n g hg with ⟨_,_,_,_,rfl⟩ | ⟨_,_,_,_,rfl⟩ |
        ⟨_,_,_,_,_,rfl⟩ | ⟨_,_,_,_,rfl⟩ <;> simp only <;> omega
    obtain ⟨hx,hreg,hb⟩ := hs
    obtain ⟨f,hf,_,hle,hiff⟩ := difficultyFactor_of_nonneg g hx hreg
    refine ⟨f,by rw [hg]; exact hf,hle,?_⟩
    rw [hiff,hb]
    simp [hg]

variable (params : ConsensusParams) (pindexLast : CBlockIndex) (pprev : IndexChain)
/-- The fifth, seventh and ninth ancestors are all dated after the tip, each by at least a second
for every block between, and the seventeenth is too close behind. -/
def Backdated : Prop :=
  let time := pindexLast.getBlockTime
  let desired := regulatedInterval params pindexLast pprev
  pprev ≠ [] ∧ (∀ k ∈ [5, 7, 9], time + (min pprev.length k : Nat) ≤ timeBack time pprev k) ∧
    time - timeBack time pprev 17 < desired * (min pprev.length 17 : Nat)

instance (params : ConsensusParams) (pindexLast : CBlockIndex) (pprev : IndexChain) :
    Decidable (Backdated params pindexLast pprev) :=
  inferInstanceAs (Decidable (_ ∧ _ ∧ _))

def ProportionalStep : Prop :=
  let r := avgRecentTimestamps params (pindexLast::pprev)
  ProportionalFactor r (intervalDesired params pindexLast.getBlockTime r.blockHeightTime)

/-- A step of the regulator is proportional exactly when the tip is not backdated. -/
theorem proportionalStep_iff (params : ConsensusParams) (h : params.HourlyTimespan) (pindexLast : CBlockIndex)
    (pprev : IndexChain) : ProportionalStep params pindexLast pprev ↔ ¬ Backdated params pindexLast pprev := by
  have hn := intervalDesired_range params h pindexLast.getBlockTime (scheduledTime params pindexLast pprev)
  by_cases hp : pprev = []
  · subst hp
    simp only [ProportionalStep,avgRecentTimestamps_genesis,h.spacing]
    rw [proportionalFactor_iff _ _ hn.1 hn.2]
    simp [Backdated]
  · have hlen : 0 < pprev.length := List.length_pos_iff.mpr hp
    have hneg : ∀ a : Int, ∀ k, 0 < k →
        (a.tdiv (min pprev.length k : Nat) < 0 ↔ a + (min pprev.length k : Nat) ≤ 0) := by
      intro a k hk
      have := tdiv_le_neg_iff a 1 (min pprev.length k) (by omega) (by omega)
      omega
    simp only [ProportionalStep,avgRecentTimestamps_eq params pindexLast pprev hp]
    rw [proportionalFactor_iff _ _ hn.1 hn.2]
    simp only [Backdated,regulatedInterval,List.forall_mem_cons,List.not_mem_nil,false_implies,
      implies_true,and_true,ne_eq,hp,not_false_eq_true,true_and]
    rw [hneg _ 5 (by omega),hneg _ 7 (by omega),hneg _ 9 (by omega),tdiv_lt_iff _ _ _ (by omega) (by omega)]
    omega

def backdatedTip : CBlockIndex := timedEntry 20 1667196499#32 0x20019ac8#32

/-- The blocks below it, of which the eleventh, thirteenth and fifteenth are dated just short of
what makes the divisor vanish. -/
def backdatedChain : IndexChain := timedChain
  ([(19, 0x2002234a#32), (18, 0x2002d928#32), (17, 0x2003cb75#32), (16, 0x20050e46#32),
    (6615, 0x20050e46#32), (14, 0x2006bc5d#32), (9253, 0x20065013#32), (12, 0x20086919#32),
    (11891, 0x200743a2#32)] ++ earlyBlocks)

/-- A chain that follows every rule and on which one step divides the target by `1760`. -/
theorem backdatedTip_overshoots :
    IndexChain.MedianTimeRule (backdatedTip::backdatedChain) ∧
      MidasChain mainParams (backdatedTip::backdatedChain) ∧
      chainRegulation mainParams backdatedTip backdatedChain = some ⟨440, -1319⟩ ∧
      difficultyFactor (some ⟨440, -1319⟩) = some 17600000 ∧
      ¬ ProportionalStep mainParams backdatedTip backdatedChain := by
  have hreg : chainRegulation mainParams backdatedTip backdatedChain = some ⟨440,-1319⟩ := by decide
  have hfactor : difficultyFactor (some ⟨440,-1319⟩) = some 17600000 := by decide
  refine ⟨by decide,by decide +kernel,hreg,hfactor,?_⟩
  rintro ⟨f,hf,hle,-⟩
  rw [chainRegulation] at hreg
  rw [hreg,hfactor,Option.some.injEq] at hf
  omega

theorem fastTip_proportional :
    difficultyFactor (chainRegulation mainParams fastTip [mainGenesis]) = some 12753 ∧
      ProportionalStep mainParams fastTip [mainGenesis] :=
  ⟨by decide,(proportionalStep_iff mainParams mainParams_hourly _ _).mpr (by decide)⟩

theorem difficultyFactor_le (n : Int) (hlow : 540 ≤ n) (hh : n ≤ 660)
    (f : Int) (hf : difficultyFactor (regulation r n) = some f) : f ≤ 40000000 := by
  rcases hg : regulation r n with _ | g
  · rw [hg] at hf
    cases hf
    omega
  · have hx : 0 ≤ g.interval ∧ g.interval ≤ 990 := by
      have hs := tooFast_tooSlow (by omega : 0 ≤ n)
      rcases regulation_cases r n g hg with ⟨_,_,_,_,rfl⟩ | ⟨_,_,_,_,rfl⟩ |
        ⟨_,_,_,_,_,rfl⟩ | ⟨_,_,_,_,rfl⟩ <;> simp only <;> omega
    rw [hg,difficultyFactor,int64Div] at hf
    split_ifs at hf
    cases hf
    have := natAbs_tdiv_le_natAbs (10000 * (4*g.interval)) g.divisor
    omega

/-- The encoded target is the unbounded product cut to the limit, and a factor below `10000` does not lower
it. -/
structure UnboundedRetarget (powLimit target : ArithUint256) (difficultyfactor : Int) : Prop where
  fits : difficultyfactor ≠ 10000 → target.toNat / difficultyfactor.toNat * 10000 < 2^256
  exact_value : (retarget target powLimit difficultyfactor).toNat =
    min powLimit.toNat (10000 * (target.toNat/difficultyfactor.toNat))
  slower_is_easier : difficultyfactor < 10000 → target.toNat ≤ (retarget target powLimit difficultyfactor).toNat

/-- The target is below the point where the product wraps; when the scaling is skipped it loses
nothing by rounding; and when the factor is below `10000` rounding costs less than the scaling
gains. -/
def ScalesExactly (target factor : Nat) : Prop :=
  (factor ≠ 10000 → target < factor * (2^256 / 10000 + 1)) ∧ (factor = 10000 → 10000 ∣ target) ∧
    (factor < 10000 → target % factor ≤ (10000-factor) * (target/factor))

instance (target factor : Nat) : Decidable (ScalesExactly target factor) :=
  inferInstanceAs (Decidable (_ ∧ _ ∧ _))

variable (target factor : Nat)
theorem quotient_fits_iff (hpos : 0 < factor) :
    target / factor * 10000 < 2^256 ↔ target < factor * (2^256 / 10000 + 1) := by
  rw [Nat.mul_comm factor,← Nat.div_lt_iff_lt_mul hpos]
  omega

theorem le_scaled_iff (hlt : factor < 10000) :
    target ≤ 10000 * (target/factor) ↔ target % factor ≤ (10000-factor) * (target/factor) := by
  have hdiv := Nat.div_add_mod target factor
  have hs : 10000 * (target/factor) = factor * (target/factor) + (10000-factor) * (target/factor) := by
    rw [← Nat.add_mul]
    congr 1
    omega
  omega

theorem unboundedRetarget_iff (powLimit target : ArithUint256) (factor : Nat)
    (hpos : 0 < factor) (hw : factor < 2^64) (hle : target.toNat ≤ powLimit.toNat) :
    UnboundedRetarget powLimit target factor ↔ ScalesExactly target.toNat factor := by
  have hf : factorWord factor = factor := by
    unfold factorWord
    omega
  have hval : (retarget target powLimit factor).toNat =
      if factor = 10000 then target.toNat
      else min (target.toNat / factor * 10000 % 2^256) powLimit.toNat := by
    rw [retarget_toNat,midasTarget,hf]
    split_ifs <;> omega
  have hfi := quotient_fits_iff target.toNat factor hpos
  constructor
  · intro h
    refine ⟨?_,?_,?_⟩
    · intro hne
      exact hfi.mp (by simpa using h.fits (by omega))
    · rintro rfl
      have he := h.exact_value
      rw [hval,if_pos rfl,toNat_natCast] at he
      omega
    · intro hlt
      rw [← le_scaled_iff _ _ hlt]
      have hea := h.slower_is_easier (by omega)
      have he := h.exact_value
      rw [toNat_natCast] at he
      omega
  · rintro ⟨hb,hdvd,hr⟩
    have he : (retarget target powLimit factor).toNat = min powLimit.toNat (10000 * (target.toNat/factor)) := by
      rw [hval]
      split_ifs with heq
      · subst heq
        omega
      · omega
    refine ⟨?_,?_,?_⟩
    · intro hne
      simpa using hfi.mpr (hb (by omega))
    · simpa using he
    · intro hlt
      have := (le_scaled_iff _ _ (by omega)).mpr (hr (by omega))
      omega

/-- The next target is the one over unbounded integers exactly when the parent's target scales exactly. -/
theorem getNextWorkRequired_unbounded_iff (params : ConsensusParams) (h : params.HourlyTimespan)
    (pindexLast : CBlockIndex) (pprev : IndexChain)
    (hle : (setCompact pindexLast.nBits).target.toNat ≤ params.powLimit.toNat) (f : Int)
    (hf : difficultyFactor (chainRegulation params pindexLast pprev) = some f) (hpos : 0 < f) :
    (getNextWorkRequired params (pindexLast::pprev) =
        some (getCompact (retarget (setCompact pindexLast.nBits).target params.powLimit f)) ∧
      UnboundedRetarget params.powLimit (setCompact pindexLast.nBits).target f) ↔
    ScalesExactly (setCompact pindexLast.nBits).target.toNat f.toNat := by
  have hn := intervalDesired_range params h pindexLast.getBlockTime
    (avgRecentTimestamps params (pindexLast::pprev)).blockHeightTime
  have hbound := difficultyFactor_le _ _ hn.1 hn.2 f hf
  have hcast : ((f.toNat : Nat) : Int) = f := toNat_of_nonneg (by omega)
  have hiff := unboundedRetarget_iff params.powLimit (setCompact pindexLast.nBits).target f.toNat
    (by omega) (by omega) hle
  rw [hcast] at hiff
  rw [getNextWorkRequired_eq,hf,hiff]
  simp

theorem fastBlock_unbounded :
    getNextWorkRequired mainParams [fastTip, mainGenesis] =
        some (getCompact (retarget (setCompact 0x1f346f24#32).target mainParams.powLimit 12753)) ∧
      UnboundedRetarget mainParams.powLimit (setCompact 0x1f346f24#32).target 12753 :=
  (getNextWorkRequired_unbounded_iff mainParams mainParams_hourly fastTip [mainGenesis] (by decide)
    12753 (by decide) (by decide)).mpr (by decide +kernel)

/-- The first block after genesis, dated 10535 seconds later. -/
def lateTip : CBlockIndex := timedEntry 1 1667207014#32 0x207fffff#32

/-- One slow block at the easiest target: the product wraps, and the difficulty rises more than
six hundredfold. -/
theorem lateTip_raises_difficulty :
    IndexChain.MedianTimeRule [lateTip, mainGenesis] ∧ 0 < (setCompact lateTip.nBits).target.toNat ∧
      (setCompact lateTip.nBits).target.toNat ≤ mainParams.powLimit.toNat ∧
      difficultyFactor (chainRegulation mainParams lateTip [mainGenesis]) = some 2499 ∧
      getNextWorkRequired mainParams [lateTip, mainGenesis] = some 0x1f346f24#32 ∧
      (setCompact 0x1f346f24#32).target.toNat * 600 < (setCompact lateTip.nBits).target.toNat ∧
      ¬ UnboundedRetarget mainParams.powLimit (setCompact lateTip.nBits).target 2499 := by
  refine ⟨by decide,by decide,by decide,by decide,by decide +kernel,by decide +kernel,?_⟩
  intro h
  have hfits := h.fits (by decide)
  revert hfits
  decide +kernel
end Lcryp
