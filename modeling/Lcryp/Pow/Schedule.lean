import Lcryp.Pow.Regulation

/-!
# The interval between two speeds

Behind the schedule the regulator aims at nine tenths of the spacing, ahead of it at eleven tenths.
-/
namespace Lcryp
open Option
/-- The result of an operation on `int64_t`; `none` is an overflow. -/
def int64 (n : Int) : Option Int := if -2^63 ≤ n ∧ n < 2^63 then some n else none

/-- The mean of two speeds, weighted by a distance and what it leaves of the window. -/
def interpolate64 (span spacing distance interval : Int) : Option Int := do
  let left ← int64 (span-distance)
  let nominal ← int64 (left*spacing)
  let regulated ← int64 (distance*interval)
  let sum ← int64 (nominal+regulated)
  int64Div sum span

variable (params : ConsensusParams) (now blockHeightTime : Int)
/-- `nIntervalDesired` in the arithmetic of the source. -/
def intervalDesired64 : Option Int := do
  let spacing := params.nPowTargetSpacing
  let span := params.difficultyAdjustmentInterval
  let nFastInterval := (← int64 (spacing*9)).tdiv 10
  let nSlowInterval := (← int64 (spacing*11)).tdiv 10
  let windowEnd ← int64 (blockHeightTime+span)
  if now < windowEnd ∧ now > blockHeightTime then
    let distance ← int64 (now-blockHeightTime)
    interpolate64 span spacing distance nFastInterval
  else
    let windowStart ← int64 (now+span)
    if windowStart > blockHeightTime ∧ now < blockHeightTime then
      let distance ← int64 (blockHeightTime-now)
      interpolate64 span spacing distance nSlowInterval
    else if now < blockHeightTime then return nSlowInterval
    else if now > blockHeightTime then return nFastInterval
    else return spacing

theorem int64_of_fits {n : Int} (h : -2^63 ≤ n ∧ n < 2^63) : int64 n = some n := if_pos h
theorem int64_of_large {n : Int} (h : 2^63 ≤ n) : int64 n = none := if_neg (by omega)

/-- The two sums that are not bounded by the window. -/
def WindowFits : Prop :=
  let span := params.difficultyAdjustmentInterval
  blockHeightTime + span < 2^63 ∧ (blockHeightTime < now ∧ now < blockHeightTime + span ∨ now + span < 2^63)

theorem getBlockTime_range (block : CBlockIndex) : 0 ≤ block.getBlockTime ∧ block.getBlockTime < 2^32 := by
  simp only [CBlockIndex.getBlockTime]
  omega

theorem timeBack_range (time : Int) (pprev : IndexChain) (k : Nat) (ht : 0 ≤ time ∧ time < 2^32) :
    0 ≤ timeBack time pprev k ∧ timeBack time pprev k < 2^32 := by
  induction pprev generalizing time k with
  | nil => simpa [timeBack] using ht
  | cons parent rest ih =>
    cases k with
    | zero => simpa using ht
    | succ k => exact ih _ k (getBlockTime_range parent)

section Hourly
variable {params : ConsensusParams} (h : params.HourlyTimespan)
include h

private theorem interpolate64_eq (distance interval : Int) (hpos : 0 < distance) (hlt : distance < 6)
    (hlow : 0 ≤ interval) (hh : interval ≤ 660) :
    interpolate64 params.difficultyAdjustmentInterval params.nPowTargetSpacing distance interval =
      some (((params.difficultyAdjustmentInterval-distance) * params.nPowTargetSpacing +
        distance * interval).tdiv params.difficultyAdjustmentInterval) := by
  have hnn : 0 ≤ distance * interval := Int.mul_nonneg hpos.le hlow
  have hp : distance * interval ≤ 6 * 660 := Int.mul_le_mul hlt.le hh hlow (by omega)
  rw [h.interval,h.spacing,interpolate64,int64_of_fits (by omega),bind_eq_bind,
    bind_some,int64_of_fits (by omega),bind_some,int64_of_fits (by omega),
    bind_some,int64_of_fits (by omega),bind_some,int64Div,if_neg (by omega)]

private theorem intervalDesired64_unfold (now blockHeightTime : Int) :
    intervalDesired64 params now blockHeightTime = (int64 (blockHeightTime+6)).bind fun windowEnd =>
      if now < windowEnd ∧ now > blockHeightTime then
        (int64 (now-blockHeightTime)).bind fun distance => interpolate64 6 600 distance 540
      else (int64 (now+6)).bind fun windowStart =>
        if windowStart > blockHeightTime ∧ now < blockHeightTime then
          (int64 (blockHeightTime-now)).bind fun distance => interpolate64 6 600 distance 660
        else if now < blockHeightTime then some 660
        else if now > blockHeightTime then some 540
        else some 600 := by
  rw [intervalDesired64,h.interval,h.spacing]
  rfl
section Times
variable {now blockHeightTime : Int} (hnow : -2^63 ≤ now ∧ now < 2^63)
  (hscheduled : -2^63 ≤ blockHeightTime ∧ blockHeightTime < 2^63)
include hnow hscheduled

theorem intervalDesired64_eq_some (hf : WindowFits params now blockHeightTime) :
    intervalDesired64 params now blockHeightTime = some (intervalDesired params now blockHeightTime) := by
  have hfa : Int.tdiv (600*9) 10 = 540 := by decide
  have hs : Int.tdiv (600*11) 10 = 660 := by decide
  simp only [WindowFits,h.interval] at hf
  rw [intervalDesired64_unfold h,int64_of_fits (by omega),bind_some]
  simp only [intervalDesired,h.interval,h.spacing,hfa,hs]
  by_cases hbeh : now < blockHeightTime + 6 ∧ now > blockHeightTime
  · have hm := interpolate64_eq h (now-blockHeightTime) 540 (by omega) (by omega) (by omega) (by omega)
    rw [h.interval,h.spacing] at hm
    rw [if_pos hbeh,if_pos hbeh,int64_of_fits (by omega),bind_some,hm]
  · rw [if_neg hbeh,if_neg hbeh,int64_of_fits (by omega),bind_some]
    by_cases ha : now + 6 > blockHeightTime ∧ now < blockHeightTime
    · have hm := interpolate64_eq h (blockHeightTime-now) 660 (by omega) (by omega) (by omega) (by omega)
      rw [h.interval,h.spacing] at hm
      rw [if_pos ha,if_pos ha,int64_of_fits (by omega),bind_some,hm]
    · split_ifs <;> rfl

theorem intervalDesired64_eq_none (hf : ¬ WindowFits params now blockHeightTime) :
    intervalDesired64 params now blockHeightTime = none := by
  simp only [WindowFits,h.interval] at hf
  rw [intervalDesired64_unfold h]
  by_cases hend : blockHeightTime + 6 < 2^63
  · rw [int64_of_fits (by omega),bind_some,if_neg (by omega),int64_of_large (by omega),bind_none]
  · rw [int64_of_large (by omega),bind_none]

private theorem eq_intervalDesired {interval : Int}
    (hi : intervalDesired64 params now blockHeightTime = some interval) :
    interval = intervalDesired params now blockHeightTime := by
  by_cases hf : WindowFits params now blockHeightTime
  · rw [intervalDesired64_eq_some h hnow hscheduled hf] at hi
    exact (some.inj hi).symm
  · rw [intervalDesired64_eq_none h hnow hscheduled hf] at hi
    cases hi
end Times

/-- The times of a chain have 32 bits, and the schedule adds at most seventeen spacings. -/
theorem scheduledTime_range (hgenesis : 0 ≤ params.genesisTime ∧ params.genesisTime < 2^32)
    (tip : CBlockIndex) (pprev : IndexChain) :
    0 ≤ scheduledTime params tip pprev ∧ scheduledTime params tip pprev < 2^33 := by
  have hs := timeBack_range tip.getBlockTime pprev 17 (getBlockTime_range tip)
  simp only [scheduledTime,h.spacing]
  split_ifs <;> omega
end Hourly

/-- The interval of a chain is computed without an overflow; wherever it is, it is within a tenth of the
spacing, is the spacing on schedule, and does not grow with the delay. -/
theorem intervalDesired64_regulates (params : ConsensusParams) (h : params.HourlyTimespan)
    (hgenesis : 0 ≤ params.genesisTime ∧ params.genesisTime < 2^32) :
    (∀ tip pprev,
      (intervalDesired64 params tip.getBlockTime (scheduledTime params tip pprev)).isSome) ∧
    ∀ now blockHeightTime, (-2^63 ≤ now ∧ now < 2^63) → (-2^63 ≤ blockHeightTime ∧ blockHeightTime < 2^63) →
      ((intervalDesired64 params now blockHeightTime).isSome ↔ WindowFits params now blockHeightTime) ∧
      ∀ interval, intervalDesired64 params now blockHeightTime = some interval →
        9 * params.nPowTargetSpacing ≤ 10 * interval ∧ 10 * interval ≤ 11 * params.nPowTargetSpacing ∧
        (now = blockHeightTime → interval = params.nPowTargetSpacing) ∧
        ∀ now' blockHeightTime' interval', (-2^63 ≤ now' ∧ now' < 2^63) →
          (-2^63 ≤ blockHeightTime' ∧ blockHeightTime' < 2^63) →
          intervalDesired64 params now' blockHeightTime' = some interval' →
          now - blockHeightTime ≤ now' - blockHeightTime' → interval' ≤ interval := by
  refine ⟨fun tip pprev => ?_,fun now blockHeightTime hnow hscheduled => ⟨?_,fun interval hinterval => ?_⟩⟩
  · have ht := getBlockTime_range tip
    have hs := scheduledTime_range h hgenesis tip pprev
    have hfits : WindowFits params tip.getBlockTime (scheduledTime params tip pprev) := by
      simp only [WindowFits,h.interval]
      omega
    rw [intervalDesired64_eq_some h (by omega) (by omega) hfits,isSome_some]
  · by_cases hfits : WindowFits params now blockHeightTime
    · simp [intervalDesired64_eq_some h hnow hscheduled hfits,hfits]
    · simp [intervalDesired64_eq_none h hnow hscheduled hfits,hfits]
  · rw [eq_intervalDesired h hnow hscheduled hinterval,intervalDesired_eq params h,h.spacing]
    refine ⟨by omega,by omega,by omega,?_⟩
    intro now' blockHeightTime' interval' hnow' hscheduled' hinterval' hle
    rw [eq_intervalDesired h hnow' hscheduled' hinterval',intervalDesired_eq params h]
    omega

theorem threeSecondsLate_regulated :
    intervalDesired64 mainParams 1003 1000 = some 570 ∧ 9 * mainParams.nPowTargetSpacing ≤ 10 * 570 ∧
      10 * 570 ≤ 11 * mainParams.nPowTargetSpacing := by
  have hlate : intervalDesired64 mainParams 1003 1000 = some 570 := by decide
  have hregulated := ((intervalDesired64_regulates mainParams mainParams_hourly (by decide)).2 1003 1000
    (by norm_num) (by norm_num)).2 570 hlate
  exact ⟨hlate,hregulated.1,hregulated.2.1⟩
end Lcryp
