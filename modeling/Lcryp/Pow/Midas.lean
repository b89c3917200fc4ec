import Lcryp.Chain.BlockIndex

/-!
# The MIDAS regulator

`GetNextWorkRequired` averages the last 5, 7, 9 and 17 block intervals and scales the target of the parent.
-/
namespace Lcryp
/-- The `int64_t` division of the regulator; `none` is the arithmetic trap. -/
def int64Div (a b : Int) : Option Int := if b = 0 then none else some (a.tdiv b)

structure IntervalSums where
  avgOf5 : Int
  avgOf7 : Int
  avgOf9 : Int
  avgOf17 : Int
  blocktime : Int
  countLimit : Nat

def IntervalSums.step (s : IntervalSums) (blockoffset : Nat) (blocktime : Int) : IntervalSums where
  avgOf5 := if blockoffset < 5 then s.avgOf5 + (s.blocktime-blocktime) else s.avgOf5
  avgOf7 := if blockoffset < 7 then s.avgOf7 + (s.blocktime-blocktime) else s.avgOf7
  avgOf9 := if blockoffset < 9 then s.avgOf9 + (s.blocktime-blocktime) else s.avgOf9
  avgOf17 := if blockoffset < 17 then s.avgOf17 + (s.blocktime-blocktime) else s.avgOf17
  blocktime := blocktime
  countLimit := s.countLimit + 1

/-- The loop over `blockoffset`, leaving at the seventeenth interval or at a null `pprev`. -/
def intervalLoop : IndexChain → Nat → IntervalSums → IntervalSums
  | [], _, s => s
  | pprev::rest, blockoffset, s =>
    if blockoffset < 17 then
      intervalLoop rest (blockoffset+1) (s.step blockoffset pprev.getBlockTime)
    else s

structure RecentTimestamps where
  avgOf5 : Int
  avgOf7 : Int
  avgOf9 : Int
  avgOf17 : Int
  blockHeightTime : Int
deriving DecidableEq

def intervalSums : IndexChain → IntervalSums
  | [] => ⟨0, 0, 0, 0, 0, 0⟩
  | pindexLast::pprev => intervalLoop pprev 0 ⟨0, 0, 0, 0, pindexLast.getBlockTime, 0⟩

variable (params : ConsensusParams)
def avgRecentTimestamps (pindexLast : IndexChain) : RecentTimestamps :=
  let s := intervalSums pindexLast
  let blockHeightTime := if s.blocktime = 0 then params.genesisTime
    else s.blocktime + s.countLimit * params.nPowTargetSpacing
  if s.countLimit ≠ 0 then
    { avgOf5 := s.avgOf5.tdiv (min s.countLimit 5 : Nat)
      avgOf7 := s.avgOf7.tdiv (min s.countLimit 7 : Nat)
      avgOf9 := s.avgOf9.tdiv (min s.countLimit 9 : Nat)
      avgOf17 := s.avgOf17.tdiv (min s.countLimit 17 : Nat)
      blockHeightTime := blockHeightTime }
  else
    { avgOf5 := params.nPowTargetSpacing
      avgOf7 := params.nPowTargetSpacing
      avgOf9 := params.nPowTargetSpacing
      avgOf17 := params.nPowTargetSpacing
      blockHeightTime := blockHeightTime }

/-- `nIntervalDesired`, the interval that steers the chain back to its schedule. -/
def intervalDesired (now blockHeightTime : Int) : Int :=
  let nFastInterval := (params.nPowTargetSpacing*9).tdiv 10
  let nSlowInterval := (params.nPowTargetSpacing*11).tdiv 10
  let span := params.difficultyAdjustmentInterval
  if now < blockHeightTime + span ∧ now > blockHeightTime then
    ((span - (now-blockHeightTime)) * params.nPowTargetSpacing +
      (now-blockHeightTime) * nFastInterval).tdiv span
  else if now + span > blockHeightTime ∧ now < blockHeightTime then
    ((span - (blockHeightTime-now)) * params.nPowTargetSpacing +
      (blockHeightTime-now) * nSlowInterval).tdiv span
  else if now < blockHeightTime then nSlowInterval
  else if now > blockHeightTime then nFastInterval
  else params.nPowTargetSpacing

variable (before : Int → Int → Prop)
/-- The selection of `reg` among three averages, for either direction of the comparison. -/
def selectOf3 [DecidableRel before] (a5 a7 a9 : Int) : Int :=
  if before a5 a7 ∧ before a5 a9 then a5 else if before a7 a9 then a7 else a9

/-- The selection of `reg` among all four averages. -/
def selectOf4 [DecidableRel before] (a5 a7 a9 a17 : Int) : Int :=
  if before a5 a7 ∧ before a5 a9 ∧ before a5 a17 then a5
  else if before a7 a9 ∧ before a7 a17 then a7
  else if before a9 a17 then a9 else a17

/-- What an adjusting branch fixes: the interval it compares with and the chosen average. -/
structure Regulation where
  interval : Int
  reg : Int
deriving DecidableEq

def Regulation.divisor (g : Regulation) : Int := g.reg + 3 * g.interval

variable (nIntervalDesired : Int)
def tooFast : Int := (nIntervalDesired*2).tdiv 3
def tooSlow : Int := (nIntervalDesired*3).tdiv 2

/-- The branch taken: emergency increase, emergency reduction, increase, reduction, or none. -/
def regulation (r : RecentTimestamps) (nIntervalDesired : Int) : Option Regulation :=
  let toofast := tooFast nIntervalDesired
  let tooslow := tooSlow nIntervalDesired
  if r.avgOf5 < toofast ∧ r.avgOf7 < toofast ∧ r.avgOf9 < toofast ∧ r.avgOf17 < nIntervalDesired then
    some ⟨toofast, selectOf3 (· > ·) r.avgOf5 r.avgOf7 r.avgOf9⟩
  else if r.avgOf5 > tooslow ∧ r.avgOf7 > tooslow ∧ r.avgOf9 > tooslow ∧ r.avgOf17 > nIntervalDesired then
    some ⟨tooslow, selectOf3 (· < ·) r.avgOf5 r.avgOf7 r.avgOf9⟩
  else if r.avgOf5 < nIntervalDesired ∧ r.avgOf7 < nIntervalDesired ∧
      r.avgOf9 < nIntervalDesired ∧ r.avgOf17 < nIntervalDesired then
    some ⟨nIntervalDesired, selectOf4 (· > ·) r.avgOf5 r.avgOf7 r.avgOf9 r.avgOf17⟩
  else if r.avgOf5 > nIntervalDesired ∧ r.avgOf7 > nIntervalDesired ∧
      r.avgOf9 > nIntervalDesired ∧ r.avgOf17 > nIntervalDesired then
    some ⟨nIntervalDesired, selectOf4 (· < ·) r.avgOf5 r.avgOf7 r.avgOf9 r.avgOf17⟩
  else none

/-- `difficultyfactor` after the branch; `none` when its division traps. -/
def difficultyFactor : Option Regulation → Option Int
  | none => some 10000
  | some g => int64Div (10000 * (4*g.interval)) g.divisor

/-- The scaled target.  A zero factor throws, and the handler answers with the limit. -/
def retarget (bnOld powLimit : ArithUint256) (difficultyfactor : Int) : ArithUint256 :=
  let scaled := if difficultyfactor ≠ 10000 then
      (arithDiv bnOld (ofInt64 difficultyfactor)).map (· * ofInt64Low 10000)
    else some bnOld
  match scaled with
  | none => powLimit
  | some bnNew => if bnNew > powLimit then powLimit else bnNew

def chainRegulation (pindexLast : CBlockIndex) (pprev : IndexChain) : Option Regulation :=
  let r := avgRecentTimestamps params (pindexLast::pprev)
  regulation r (intervalDesired params pindexLast.getBlockTime r.blockHeightTime)

/-- `GetNextWorkRequired`; it does not read the new header.  `none` is an abort: the assertion on
`pindexLast` or the trapping division. -/
def getNextWorkRequired : IndexChain → Option (BitVec 32)
  | [] => none
  | pindexLast::pprev =>
    (difficultyFactor (chainRegulation params pindexLast pprev)).map fun difficultyfactor =>
      getCompact (retarget (setCompact pindexLast.nBits).target params.powLimit difficultyfactor)

def checkProofOfWork (hash : Uint256) (nBits : BitVec 32) : Bool :=
  let bnTarget := setCompact nBits
  if bnTarget.fNegative || bnTarget.target == 0#256 || bnTarget.fOverflow ||
      decide (bnTarget.target > params.powLimit) then false
  else if hash > bnTarget.target then false
  else true
end Lcryp
