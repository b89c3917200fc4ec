import Mathlib.Data.Finmap
import Lcryp.Framework.OrderStatistic
import Lcryp.Chain.BlockIndex

/-!
# Version bits deployments

`AbstractThresholdConditionChecker` with its cache, which is keyed by the chain below an entry.
-/
namespace Lcryp
open List Option IndexChain
inductive ThresholdState
  | defined
  | started
  | lockedIn
  | active
  | failed
deriving DecidableEq

namespace BIP9Deployment
def alwaysActive : Int := -1
def neverActive : Int := -2
end BIP9Deployment

/-- What a subclass of `AbstractThresholdConditionChecker` supplies. -/
structure ThresholdChecker where
  condition : IndexChain → Bool
  beginTime : Int
  endTime : Int
  minActivationHeight : Int
  period : Nat
  threshold : Int

structure BIP9Deployment where
  bit : Nat
  nStartTime : Int
  nTimeout : Int
  minActivationHeight : Int

def versionBitsTopBits : BitVec 32 := 0x20000000#32
def versionBitsTopMask : BitVec 32 := 0xE0000000#32

def versionBitsConditionChecker (nMinerConfirmationWindow nRuleChangeActivationThreshold : Nat)
    (deployment : BIP9Deployment) : ThresholdChecker where
  condition pindex := match pindex with
    | [] => false
    | entry::_ =>
      let nVersion := BitVec.ofInt 32 entry.nVersion
      nVersion &&& versionBitsTopMask == versionBitsTopBits && nVersion &&& (1#32 <<< deployment.bit) != 0#32
  beginTime := deployment.nStartTime
  endTime := deployment.nTimeout
  minActivationHeight := deployment.minActivationHeight
  period := nMinerConfirmationWindow
  threshold := nRuleChangeActivationThreshold

abbrev ThresholdConditionCache := Finmap fun _ : IndexChain => ThresholdState

namespace IndexChain
/-- `CBlockIndex::GetAncestor` with the signed height of the source. -/
def getAncestorAt (pindex : IndexChain) (height : Int) : IndexChain :=
  if height < 0 then [] else getAncestor pindex height.toNat

/-- Every entry's height is the number of blocks below it. -/
def Heights : IndexChain → Prop
  | [] => True
  | entry::pprev => entry.nHeight = pprev.length ∧ Heights pprev

instance : (chain : IndexChain) → Decidable (Heights chain)
  | [] => isTrue trivial
  | _::pprev =>
    have : Decidable (Heights pprev) := instDecidableHeights pprev
    inferInstanceAs (Decidable (_ ∧ _))
end IndexChain

variable (checker : ThresholdChecker)
namespace ThresholdChecker
variable (pindexPrev : IndexChain)
def lastOfPeriod : IndexChain :=
  match pindexPrev with
  | [] => []
  | prev::_ =>
    pindexPrev.getAncestorAt (prev.nHeight - ((prev.nHeight+1) % checker.period : Nat))

def previousPeriod : IndexChain :=
  match pindexPrev with
  | [] => []
  | prev::_ => pindexPrev.getAncestorAt (prev.nHeight-checker.period)

/-- The first loop of `GetStateFor`: the walk back to a block whose state is known, with the blocks
passed on a stack. -/
def collect (checker : ThresholdChecker) (fuel : Nat) (cache : ThresholdConditionCache)
    (pindexPrev : IndexChain) (vToCompute : List IndexChain) :
    Option (ThresholdConditionCache × IndexChain × List IndexChain) :=
  if pindexPrev ∈ cache then some (cache, pindexPrev, vToCompute)
  else if pindexPrev = [] then some (cache.insert pindexPrev .defined, pindexPrev, vToCompute)
  else if pindexPrev.getMedianTimePast < checker.beginTime then
    some (cache.insert pindexPrev .defined, pindexPrev, vToCompute)
  else
    match fuel with
    | 0 => none
    | fuel+1 =>
      checker.collect fuel cache (checker.previousPeriod pindexPrev) (pindexPrev::vToCompute)

def countCondition (checker : ThresholdChecker) : Nat → IndexChain → Nat → Option Nat
  | 0, _, count => some count
  | _+1, [], _ => none
  | i+1, entry::pprev, count =>
    checker.countCondition i pprev (if checker.condition (entry::pprev) then count + 1 else count)

/-- The `switch` of `GetStateFor`. -/
def stateNext (state : ThresholdState) (pindexPrev : IndexChain) : Option ThresholdState :=
  match state with
  | .defined =>
    if pindexPrev.getMedianTimePast ≥ checker.beginTime then some .started else some .defined
  | .started => do
      let count ← checker.countCondition checker.period pindexPrev 0
      if (count : Int) ≥ checker.threshold ∧ count > 0 then some .lockedIn
      else if pindexPrev.getMedianTimePast ≥ checker.endTime then some .failed
      else some .started
  | .lockedIn =>
    match pindexPrev with
    | [] => none
    | prev::_ =>
      if (prev.nHeight : Int) + 1 ≥ checker.minActivationHeight then some .active
      else some .lockedIn
  | .failed => some .failed
  | .active => some .active

/-- The second loop of `GetStateFor`, which empties the stack. -/
def compute (checker : ThresholdChecker) (cache : ThresholdConditionCache) (state : ThresholdState) :
    List IndexChain → Option (ThresholdState × ThresholdConditionCache)
  | [] => some (state, cache)
  | pindexPrev::vToCompute => do
      let stateNext ← checker.stateNext state pindexPrev
      checker.compute (cache.insert pindexPrev stateNext) stateNext vToCompute

variable (cache : ThresholdConditionCache)
def getStateFor : Option (ThresholdState × ThresholdConditionCache) :=
  if checker.beginTime = BIP9Deployment.alwaysActive then some (.active, cache)
  else if checker.beginTime = BIP9Deployment.neverActive then some (.failed, cache)
  else do
    let start := checker.lastOfPeriod pindexPrev
    let (cache, known, vToCompute) ← checker.collect start.length cache start []
    let state ← cache.lookup known
    checker.compute cache state vToCompute

def sinceLoop (checker : ThresholdChecker) (initialState : ThresholdState) (fuel : Nat)
    (pindexPrev : IndexChain) (cache : ThresholdConditionCache) : Option (Nat × ThresholdConditionCache) :=
  match pindexPrev with
  | [] => none
  | prev::_ =>
    let previousPeriodParent := checker.previousPeriod pindexPrev
    if previousPeriodParent = [] then some (prev.nHeight+1, cache)
    else
      match fuel with
      | 0 => none
      | fuel+1 => do
          let (state, cache) ← checker.getStateFor previousPeriodParent cache
          if state = initialState then
            checker.sinceLoop initialState fuel previousPeriodParent cache
          else some (prev.nHeight+1, cache)

def getStateSinceHeightFor : Option (Nat × ThresholdConditionCache) :=
  if checker.beginTime = BIP9Deployment.alwaysActive ∨
      checker.beginTime = BIP9Deployment.neverActive then some (0, cache)
  else do
    let (initialState, cache) ← checker.getStateFor pindexPrev cache
    if initialState = .defined then some (0, cache)
    else
      let start := checker.lastOfPeriod pindexPrev
      checker.sinceLoop initialState start.length start cache
end ThresholdChecker

inductive ThresholdQuery
  | state (pindexPrev : IndexChain)
  | sinceHeight (pindexPrev : IndexChain)

inductive ThresholdAnswer
  | state (state : ThresholdState)
  | height (height : Nat)
deriving DecidableEq

def ThresholdQuery.pindexPrev : ThresholdQuery → IndexChain
  | .state pindexPrev => pindexPrev
  | .sinceHeight pindexPrev => pindexPrev

namespace ThresholdChecker
def answer (cache : ThresholdConditionCache) :
    ThresholdQuery → Option (ThresholdAnswer × ThresholdConditionCache)
  | .state pindexPrev => do
      let (state, cache) ← checker.getStateFor pindexPrev cache
      some (.state state, cache)
  | .sinceHeight pindexPrev => do
      let (height, cache) ← checker.getStateSinceHeightFor pindexPrev cache
      some (.height height, cache)

def answers (checker : ThresholdChecker) (cache : ThresholdConditionCache) :
    List ThresholdQuery → Option (List ThresholdAnswer)
  | [] => some []
  | query::rest => do
      let (first, cache) ← checker.answer cache query
      let others ← checker.answers cache rest
      some (first::others)

/-! ## The deployment state of a chain -/

variable (chain : IndexChain)
def signals : Nat := (chain.tails.take checker.period).countP checker.condition

def transition (state : ThresholdState) (chain : IndexChain) : ThresholdState :=
  match state with
  | .defined =>
    if checker.beginTime ≤ chain.getMedianTimePast then .started else .defined
  | .started =>
    if checker.threshold ≤ checker.signals chain ∧ 0 < checker.signals chain then .lockedIn
    else if checker.endTime ≤ chain.getMedianTimePast then .failed
    else .started
  | .lockedIn =>
    if checker.minActivationHeight ≤ chain.length then .active else .lockedIn
  | .active => .active
  | .failed => .failed

def periodState (checker : ThresholdChecker) : Nat → IndexChain → ThresholdState
  | 0, _ => .defined
  | periods+1, chain =>
    checker.transition (checker.periodState periods (chain.drop checker.period)) chain

def deploymentState : ThresholdState :=
  checker.periodState (chain.length/checker.period) (chain.drop (chain.length % checker.period))

/-- The blocks from the given height up to the one after the chain all have its state. -/
def HeldFrom (height : Nat) : Prop :=
  ∀ n, height ≤ n → n ≤ chain.length →
    checker.deploymentState (chain.drop (chain.length-n)) = checker.deploymentState chain

def Answers : ThresholdQuery → ThresholdAnswer → Prop
  | .state pindexPrev, answer => answer = .state (checker.deploymentState pindexPrev)
  | .sinceHeight pindexPrev, answer =>
    ∃ height, answer = .height height ∧ IsLeast {n | checker.HeldFrom pindexPrev n} height
end ThresholdChecker

/-- The moves of a deployment from one block to the next. -/
inductive ThresholdState.Moves : ThresholdState → ThresholdState → Prop
  | stay (state : ThresholdState) : Moves state state
  | start : Moves .defined .started
  | lockIn : Moves .started .lockedIn
  | fail : Moves .started .failed
  | activate : Moves .lockedIn .active

open Nat
namespace IndexChain
/-- A chain of the block tree: its heights count its blocks and it keeps the median-time rule. -/
structure OnTree (chain : IndexChain) : Prop where
  heights : chain.Heights
  medianTime : chain.MedianTimeRule

variable {chain : IndexChain}
theorem drop_of_tail {P : IndexChain → Prop} (ht : ∀ entry pprev, P (entry::pprev) → P pprev)
    (h : P chain) (n : Nat) : P (chain.drop n) := by
  induction n generalizing chain with
  | zero => exact h
  | succ n ih =>
    cases chain with
    | nil => exact h
    | cons entry pprev => exact ih (ht _ _ h)

theorem Heights.drop (h : chain.Heights) (n : Nat) : Heights (chain.drop n) :=
  drop_of_tail (fun _ _ => And.right) h n

variable {entry : CBlockIndex}
theorem MedianTimeRule.tail {pprev : IndexChain}
    (h : MedianTimeRule (entry::pprev)) : pprev.MedianTimeRule := by
  cases pprev with
  | nil => trivial
  | cons parent rest => exact h.2

theorem MedianTimeRule.drop (h : chain.MedianTimeRule) (n : Nat) : MedianTimeRule (chain.drop n) :=
  drop_of_tail (fun _ _ => tail) h n
theorem OnTree.drop (h : chain.OnTree) (n : Nat) : OnTree (chain.drop n) :=
  ⟨h.heights.drop n,h.medianTime.drop n⟩
theorem getMedianTimePast_eq (chain : IndexChain) :
    chain.getMedianTimePast =
      OrderStatistic.median ((chain.take nMedianTimeSpan).map CBlockIndex.getBlockTime) 0 := by
  simp [getMedianTimePast,OrderStatistic.median]

theorem getMedianTimePast_le_cons (hr : MedianTimeRule (entry::chain))
    (hc : chain ≠ []) : chain.getMedianTimePast ≤ getMedianTimePast (entry::chain) := by
  cases chain with
  | nil => exact absurd rfl hc
  | cons parent rest =>
    have hl := hr.1
    have hs : nMedianTimeSpan = 10 + 1 := rfl
    rw [getMedianTimePast_eq,hs] at hl ⊢
    rw [getMedianTimePast_eq,hs,take_succ_cons (a := entry)]
    apply OrderStatistic.median_le_cons (by simp) hl
    · exact (take_sublist_take_left (by omega)).map _
    · simp only [length_map,length_take]
      omega

theorem getMedianTimePast_drop_le (hr : chain.MedianTimeRule) (n : Nat)
    (hne : chain.drop n ≠ []) : getMedianTimePast (chain.drop n) ≤ chain.getMedianTimePast := by
  induction n generalizing chain with
  | zero => exact le_rfl
  | succ n ih =>
    cases chain with
    | nil => exact absurd rfl hne
    | cons entry pprev =>
      have hp : pprev ≠ [] := by
        rintro rfl
        simp at hne
      exact (ih hr.tail hne).trans (getMedianTimePast_le_cons hr hp)

/-- Where every block is later than the median time of its parent, the median time never falls. -/
theorem getMedianTimePast_monotone (hrule : chain.MedianTimeRule) (n : Nat) (hparent : chain.drop (n+1) ≠ []) :
    getMedianTimePast (chain.drop (n+1)) ≤ getMedianTimePast (chain.drop n) := by
  have hchild := hrule.drop n
  rw [← tail_drop] at hparent ⊢
  cases h : chain.drop n with
  | nil => exact absurd (by rw [h,tail_nil]) hparent
  | cons entry pprev =>
    rw [h] at hchild hparent
    exact getMedianTimePast_le_cons hchild hparent

theorem getAncestorAt_eq (h : Heights (entry::chain)) (n : Nat) :
    getAncestorAt (entry::chain) (entry.nHeight - n) = (entry::chain).drop n := by
  have hht := h.1
  unfold getAncestorAt
  split
  · rw [drop_eq_nil_of_le]
    simp only [length_cons]
    omega
  · rw [getAncestor,if_neg (by omega)]
    congr 1
    omega
end IndexChain

namespace ThresholdChecker
variable {checker : ThresholdChecker} {chain : IndexChain}
theorem lastOfPeriod_eq (h : chain.Heights) :
    checker.lastOfPeriod chain = chain.drop (chain.length % checker.period) := by
  cases chain with
  | nil => simp [lastOfPeriod]
  | cons entry pprev => rw [lastOfPeriod,getAncestorAt_eq h,h.1,length_cons]

theorem previousPeriod_eq (h : chain.Heights) : checker.previousPeriod chain = chain.drop checker.period := by
  cases chain with
  | nil => simp [previousPeriod]
  | cons entry pprev => exact getAncestorAt_eq h _

/-! ## Facts about the deployment state -/

variable (state : ThresholdState)
theorem moves_transition (chain : IndexChain) : state.Moves (checker.transition state chain) := by
  cases state <;> simp only [transition] <;> repeat' split
  all_goals constructor

theorem deploymentState_append (blocks : List CBlockIndex)
    (h : (blocks++chain).length / checker.period = chain.length / checker.period) :
    checker.deploymentState (blocks++chain) = checker.deploymentState chain := by
  have hs := div_add_mod (blocks++chain).length checker.period
  have hsp := div_add_mod chain.length checker.period
  rw [h] at hs
  have hmod : (blocks++chain).length % checker.period = blocks.length + chain.length % checker.period := by
    rw [length_append] at hs ⊢
    omega
  rw [deploymentState,deploymentState,h,hmod,← drop_drop,drop_left]

variable {n : Nat}
theorem deploymentState_drop (h : (chain.length-n) / checker.period = chain.length / checker.period) :
    checker.deploymentState (chain.drop n) = checker.deploymentState chain := by
  have hb : checker.deploymentState (chain.take n++chain.drop n) = checker.deploymentState (chain.drop n) := by
    apply deploymentState_append
    rw [take_append_drop,length_drop,h]
  rw [← hb,take_append_drop]

theorem deploymentState_nil : checker.deploymentState [] = .defined := by
  simp [deploymentState,periodState]
theorem period_le (hdvd : chain.length % checker.period = 0) (hc : chain ≠ []) :
    checker.period ≤ chain.length :=
  le_of_dvd (length_pos_iff.mpr hc) (dvd_of_mod_eq_zero hdvd)

private theorem drop_period_mod (hdvd : chain.length % n = 0) : (chain.drop n).length % n = 0 := by
  rw [length_drop]
  rcases lt_or_ge chain.length n with hlt | hge
  · rw [Nat.sub_eq_zero_of_le hlt.le,zero_mod]
  · rw [← mod_eq_sub_mod hge,hdvd]

private theorem lastOfPeriod_mod : (chain.drop (chain.length % checker.period)).length %
    checker.period = 0 := by
  rw [length_drop]
  exact sub_mod_eq_zero_of_mod_eq (mod_mod _ _).symm
variable (hperiod : 0 < checker.period)
section Periods
include hperiod

theorem deploymentState_of_dvd (hdvd : chain.length % checker.period = 0) (hc : chain ≠ []) :
    checker.deploymentState chain =
      checker.transition (checker.deploymentState (chain.drop checker.period)) chain := by
  obtain ⟨periods,hlen⟩ := Nat.exists_eq_add_of_le (period_le hdvd hc)
  have hr : (chain.drop checker.period).length = periods := by
    rw [length_drop]
    omega
  have hmod : periods % checker.period = 0 := by
    rw [hlen,add_mod_left] at hdvd
    exact hdvd
  rw [deploymentState,deploymentState,hdvd,hr,hmod,hlen,add_div_left _ hperiod]
  simp [periodState]

theorem deploymentState_drop_period
    (hdvd : chain.length % checker.period = 0) (hn : 0 < n) (hle : n ≤ checker.period) :
    checker.deploymentState (chain.drop n) = checker.deploymentState (chain.drop checker.period) := by
  obtain ⟨periods,hlen⟩ := dvd_of_mod_eq_zero hdvd
  have hr : chain.drop checker.period = (chain.drop n).drop (checker.period-n) := by
    rw [drop_drop,Nat.add_sub_cancel' hle]
  rw [hr]
  refine (deploymentState_drop ?_).symm
  rw [length_drop,hlen]
  cases periods with
  | zero => simp
  | succ periods =>
    have hfst : checker.period * (periods+1) - n = checker.period * periods + (checker.period-n) := by
      rw [mul_succ]
      omega
    rw [hfst,Nat.add_sub_cancel,Nat.mul_div_cancel_left _ hperiod,mul_add_div hperiod,
      div_eq_of_lt (by omega),add_zero]

theorem moves_cons (entry : CBlockIndex) (chain : IndexChain) :
    (checker.deploymentState chain).Moves (checker.deploymentState (entry::chain)) := by
  by_cases hdvd : (entry::chain).length % checker.period = 0
  · -- the new block ends a period, and the chain before it lies in that period
    rw [deploymentState_of_dvd hperiod hdvd (cons_ne_nil _ _),
      ← deploymentState_drop_period hperiod hdvd one_pos hperiod]
    exact moves_transition _ _
  · -- the new block lies inside a period
    have hs : checker.deploymentState ([entry]++chain) = checker.deploymentState chain := by
      apply deploymentState_append
      rw [length_append,length_singleton,add_comm,Nat.succ_div,if_neg]
      · rfl
      · exact fun hdiv => hdvd (mod_eq_zero_of_dvd hdiv)
    rw [← singleton_append,hs]
    exact .stay _

theorem deploymentState_final
    (hf : ∀ next, (checker.deploymentState chain).Moves next → next = checker.deploymentState chain)
    (blocks : List CBlockIndex) : checker.deploymentState (blocks++chain) = checker.deploymentState chain := by
  induction blocks with
  | nil => rfl
  | cons entry blocks ih =>
    have hm := moves_cons hperiod entry (blocks++chain)
    rw [ih] at hm
    exact hf _ hm

theorem deploymentState_drop_defined (n : Nat) (h : checker.deploymentState chain = .defined) :
    checker.deploymentState (chain.drop n) = .defined := by
  apply drop_of_tail (P := fun chain => checker.deploymentState chain = .defined) _ h
  intro entry pprev h
  have hm := moves_cons hperiod entry pprev
  rw [h] at hm
  generalize checker.deploymentState pprev = state at hm
  cases hm
  rfl

theorem deploymentState_of_early (hr : chain.MedianTimeRule) (hdvd : chain.length % checker.period = 0)
    (he : chain.getMedianTimePast < checker.beginTime) : checker.deploymentState chain = .defined := by
  obtain ⟨n,hn⟩ : ∃ n, chain.length = n := ⟨_,rfl⟩
  induction n using Nat.strong_induction_on generalizing chain with
  | _ n ih =>
    by_cases hc : chain = []
    · rw [hc,deploymentState_nil]
    rw [deploymentState_of_dvd hperiod hdvd hc]
    have hbef : checker.deploymentState (chain.drop checker.period) = .defined := by
      by_cases hre : chain.drop checker.period = []
      · rw [hre,deploymentState_nil]
      · refine ih _ ?_ (hr.drop _) (drop_period_mod hdvd)
          ((getMedianTimePast_drop_le hr _ hre).trans_lt he) rfl
        have hpos := length_pos_iff.mpr hc
        rw [length_drop]
        omega
    rw [hbef]
    simp [transition,he]

private theorem deploymentState_drop_mod (hn : n ≤ chain.length % checker.period) :
    checker.deploymentState (chain.drop n) = checker.deploymentState chain := by
  apply deploymentState_drop
  have hs := div_add_mod chain.length checker.period
  have hlt := mod_lt chain.length hperiod
  rw [show chain.length - n = checker.period * (chain.length/checker.period) +
    (chain.length % checker.period - n) by omega,mul_add_div hperiod,
    div_eq_of_lt ((sub_le _ _).trans_lt hlt),add_zero]
end Periods

/-! ## The cache -/

def CacheOk (checker : ThresholdChecker) (cache : ThresholdConditionCache) : Prop :=
  ∀ chain state, cache.lookup chain = some state → state = checker.deploymentState chain

variable {cache : ThresholdConditionCache}
theorem CacheOk.insert (h : checker.CacheOk cache)
    (chain : IndexChain) : checker.CacheOk (cache.insert chain (checker.deploymentState chain)) := by
  intro key state hget
  by_cases hkey : key = chain
  · subst hkey
    rw [Finmap.lookup_insert] at hget
    exact (some.inj hget).symm
  · rw [Finmap.lookup_insert_of_ne _ hkey] at hget
    exact h key state hget

/-- The stack leads, period by period, from a known block up to the block asked for. -/
def Climbs (checker : ThresholdChecker) : IndexChain → List IndexChain → IndexChain → Prop
  | known, [], top => known = top
  | known, chain::rest, top =>
    chain.OnTree ∧ chain ≠ [] ∧ chain.length % checker.period = 0 ∧
      chain.drop checker.period = known ∧ checker.Climbs chain rest top

theorem countCondition_eq (n : Nat) (count : Nat) (hn : n ≤ chain.length) :
    checker.countCondition n chain count = some (count + (chain.tails.take n).countP checker.condition) := by
  induction n generalizing chain count with
  | zero => simp [countCondition]
  | succ n ih =>
    cases chain with
    | nil => simp at hn
    | cons entry pprev =>
      rw [countCondition,ih _ (by simpa using hn),tails_cons,take_succ_cons,countP_cons]
      by_cases hent : checker.condition (entry::pprev) = true
      · simp only [hent,if_true]
        congr 1
        omega
      · simp only [hent]
        congr 1

theorem stateNext_eq (hhts : chain.Heights) (hc : chain ≠ []) (hle : checker.period ≤ chain.length) :
    checker.stateNext state chain = some (checker.transition state chain) := by
  cases state with
  | defined =>
    simp only [stateNext,transition]
    split <;> rfl
  | started =>
    have hcnt := checker.countCondition_eq _ 0 hle
    rw [zero_add,← signals] at hcnt
    simp only [stateNext,transition,hcnt,bind_eq_bind,bind_some]
    split
    · rfl
    · split <;> rfl
  | lockedIn =>
    cases chain with
    | nil => exact absurd rfl hc
    | cons entry pprev =>
      simp only [stateNext,transition,hhts.1,length_cons,cast_add,cast_one]
      split <;> rfl
  | active => rfl
  | failed => rfl

theorem heldFrom_drop_iff {height : Nat} (hn : n ≤ chain.length)
    (hs : ∀ k ≤ n, checker.deploymentState (chain.drop k) = checker.deploymentState chain) :
    checker.HeldFrom (chain.drop n) height ↔ checker.HeldFrom chain height := by
  have hd : ∀ m ≤ chain.length - n,
      (chain.drop n).drop ((chain.drop n).length - m) = chain.drop (chain.length-m) := by
    intro m hm
    rw [drop_drop,length_drop]
    congr 1
    omega
  constructor
  · intro hh m hm hle
    rcases lt_or_ge (chain.length-n) m with hlt | hge
    · exact hs _ (by omega)
    · rw [← hd m hge,← hs n le_rfl]
      exact hh m hm (by rwa [length_drop])
  · intro hh m hm hle
    rw [length_drop] at hle
    rw [hd m hle,hs n le_rfl]
    exact hh m hm (by omega)

theorem sinceLoop_of_nil (hhts : chain.Heights) (hc : chain ≠ []) (hnil : chain.drop checker.period = [])
    (initialState : ThresholdState) (fuel : Nat) (cache : ThresholdConditionCache) :
    checker.sinceLoop initialState fuel chain cache = some (chain.length, cache) := by
  cases chain with
  | nil => exact absurd rfl hc
  | cons prev pprev =>
    unfold sinceLoop
    rw [if_pos ((previousPeriod_eq hhts).trans hnil),hhts.1,length_cons]

theorem sinceLoop_succ (hhts : chain.Heights) (hr : chain.drop checker.period ≠ [])
    (initialState : ThresholdState) (fuel : Nat) (cache : ThresholdConditionCache) :
    checker.sinceLoop initialState (fuel+1) chain cache = (do
      let (state, cache) ← checker.getStateFor (chain.drop checker.period) cache
      if state = initialState then
        checker.sinceLoop initialState fuel (chain.drop checker.period) cache
      else some (chain.length, cache)) := by
  cases chain with
  | nil => exact absurd drop_nil hr
  | cons prev pprev =>
    rw [sinceLoop,previousPeriod_eq hhts,if_neg hr,hhts.1,length_cons]
section Cached
include hperiod
section Collect
variable (hcache : checker.CacheOk cache) (fuel : Nat) (pending : List IndexChain)
  (htree : chain.OnTree) (hdvd : chain.length % checker.period = 0)
include hcache fuel pending htree hdvd

/-- The walk stops at a block that is cached, at the null pointer and before the start time. -/
theorem collect_stop (hs : chain ∈ cache ∨ chain = [] ∨ chain.getMedianTimePast < checker.beginTime) :
    ∃ cache', checker.collect fuel cache chain pending = some (cache', chain, pending) ∧
      checker.CacheOk cache' ∧ cache'.lookup chain = some (checker.deploymentState chain) := by
  unfold collect
  by_cases hmem : chain ∈ cache
  · obtain ⟨state,hst⟩ := isSome_iff_exists.mp (Finmap.lookup_isSome.mpr hmem)
    have hk := hcache chain state hst
    exact ⟨cache,by rw [if_pos hmem],hcache,hk ▸ hst⟩
  · have hdef : checker.deploymentState chain = .defined := by
      rcases hs with hin | rfl | he
      · exact absurd hin hmem
      · exact deploymentState_nil
      · exact deploymentState_of_early hperiod htree.medianTime hdvd he
    refine ⟨cache.insert chain .defined,?_,hdef ▸ hcache.insert chain,?_⟩
    · rw [if_neg hmem]
      split
      · rfl
      · rename_i hc
        rw [if_pos (by simpa [hmem,hc] using hs)]
    · rw [Finmap.lookup_insert,hdef]

theorem collect_spec {top : IndexChain} (hf : chain.length ≤ fuel) (hcl : checker.Climbs chain pending top) :
    ∃ cache' known pending',
      checker.collect fuel cache chain pending = some (cache', known, pending') ∧
      checker.CacheOk cache' ∧ cache'.lookup known = some (checker.deploymentState known) ∧
      checker.Climbs known pending' top := by
  induction fuel generalizing chain pending with
  | zero =>
    have hnil : chain = [] := eq_nil_of_length_eq_zero (by omega)
    obtain ⟨cache',hc,hok,hget⟩ := collect_stop hperiod hcache 0 pending htree hdvd (.inr (.inl hnil))
    exact ⟨cache',chain,pending,hc,hok,hget,hcl⟩
  | succ fuel ih =>
    by_cases hs : chain ∈ cache ∨ chain = [] ∨ chain.getMedianTimePast < checker.beginTime
    · obtain ⟨cache',hc,hok,hget⟩ := collect_stop hperiod hcache (fuel+1) pending htree hdvd hs
      exact ⟨cache',chain,pending,hc,hok,hget,hcl⟩
    · simp only [not_or] at hs
      obtain ⟨hmem,hch,hl⟩ := hs
      rw [collect,if_neg hmem,if_neg hch,if_neg hl,previousPeriod_eq htree.heights]
      apply ih (chain::pending) (htree.drop _) (drop_period_mod hdvd)
      · rw [length_drop]
        omega
      · exact ⟨htree,hch,hdvd,rfl,hcl⟩
end Collect

theorem compute_spec (hcache : checker.CacheOk cache) {known top : IndexChain}
    (pending : List IndexChain) (hcl : checker.Climbs known pending top) :
    ∃ cache', checker.compute cache (checker.deploymentState known) pending =
      some (checker.deploymentState top, cache') ∧ checker.CacheOk cache' := by
  induction pending generalizing known cache with
  | nil =>
    obtain rfl := hcl
    exact ⟨cache,rfl,hcache⟩
  | cons chain rest ih =>
    obtain ⟨htree,hc,hdvd,rfl,hr⟩ := hcl
    obtain ⟨cache',hco,hok⟩ := ih (hcache.insert chain) hr
    refine ⟨cache',?_,hok⟩
    rw [compute,stateNext_eq _ htree.heights hc (period_le hdvd hc),← deploymentState_of_dvd hperiod hdvd hc]
    exact hco

/-- The first block of a period is the first with a state that the period before does not have. -/
theorem isLeast_heldFrom_length (hc : chain ≠ []) (hdvd : chain.length % checker.period = 0)
    (hoth : checker.deploymentState (chain.drop checker.period) ≠ checker.deploymentState chain) :
    IsLeast {n | checker.HeldFrom chain n} chain.length := by
  constructor
  · intro n hn hle
    rw [show chain.length - n = 0 by omega,drop_zero]
  · intro n hn
    have hpos := length_pos_iff.mpr hc
    by_contra hlt
    apply hoth
    rw [← deploymentState_drop_period hperiod hdvd Nat.one_pos hperiod,
      ← hn (chain.length-1) (by omega) (by omega),Nat.sub_sub_self hpos]
variable (halways : checker.beginTime ≠ BIP9Deployment.alwaysActive)
  (hnever : checker.beginTime ≠ BIP9Deployment.neverActive)
include halways hnever

theorem getStateFor_spec (htree : chain.OnTree) (hcache : checker.CacheOk cache) :
    ∃ cache', checker.getStateFor chain cache = some (checker.deploymentState chain, cache') ∧
      checker.CacheOk cache' := by
  obtain ⟨found,known,pending,hco,hf,hget,hcl⟩ :=
    collect_spec hperiod hcache _ [] (htree.drop (chain.length % checker.period))
      lastOfPeriod_mod le_rfl rfl
  obtain ⟨cache',hc,hok⟩ := compute_spec hperiod hf pending hcl
  refine ⟨cache',?_,hok⟩
  rw [deploymentState_drop_mod hperiod le_rfl] at hc
  rw [getStateFor,if_neg halways,if_neg hnever,lastOfPeriod_eq htree.heights]
  simp only [hco,hget,bind_eq_bind,bind_some]
  exact hc

/-! ## The height since which a state holds -/

theorem sinceLoop_spec (fuel : Nat) (htree : chain.OnTree)
    (hdvd : chain.length % checker.period = 0) (hf : chain.length ≤ fuel)
    (hst : checker.deploymentState chain ≠ .defined) (hcache : checker.CacheOk cache) :
    ∃ height cache',
      checker.sinceLoop (checker.deploymentState chain) fuel chain cache = some (height, cache') ∧
      checker.CacheOk cache' ∧ IsLeast {n | checker.HeldFrom chain n} height := by
  have hc : chain ≠ [] := fun hnil => hst (by rw [hnil,deploymentState_nil])
  induction fuel generalizing chain cache with
  | zero => exact absurd (eq_nil_of_length_eq_zero (le_zero.mp hf)) hc
  | succ fuel ih =>
    by_cases hnil : chain.drop checker.period = []
    · refine ⟨chain.length,cache,sinceLoop_of_nil htree.heights hc hnil _ _ _,hcache,?_⟩
      apply isLeast_heldFrom_length hperiod hc hdvd
      rw [hnil,deploymentState_nil]
      exact hst.symm
    · obtain ⟨cache₁,hget,hok₁⟩ := getStateFor_spec hperiod halways hnever (htree.drop checker.period) hcache
      rw [sinceLoop_succ htree.heights hnil]
      simp only [hget,bind_eq_bind,bind_some]
      by_cases hs : checker.deploymentState (chain.drop checker.period) = checker.deploymentState chain
      · obtain ⟨height,cache',hlo,hok',hl⟩ := ih (htree.drop checker.period)
          (drop_period_mod hdvd) (by rw [length_drop]; omega) (by rwa [hs]) hok₁ hnil
        refine ⟨height,cache',?_,hok',?_⟩
        · rw [if_pos hs,← hs]
          exact hlo
        · have hh : ∀ k ≤ checker.period,
              checker.deploymentState (chain.drop k) = checker.deploymentState chain := by
            intro k hk
            rcases Nat.eq_zero_or_pos k with rfl | hkp
            · rfl
            · rw [deploymentState_drop_period hperiod hdvd hkp hk,hs]
          simpa only [heldFrom_drop_iff (period_le hdvd hc) hh] using hl
      · rw [if_neg hs]
        exact ⟨chain.length,cache₁,rfl,hok₁,isLeast_heldFrom_length hperiod hc hdvd hs⟩

theorem getStateSinceHeightFor_spec (htree : chain.OnTree) (hcache : checker.CacheOk cache) :
    ∃ height cache', checker.getStateSinceHeightFor chain cache = some (height, cache') ∧
      checker.CacheOk cache' ∧ IsLeast {n | checker.HeldFrom chain n} height := by
  obtain ⟨cache₁,hget,hok₁⟩ := getStateFor_spec hperiod halways hnever htree hcache
  rw [getStateSinceHeightFor,if_neg (not_or.mpr ⟨halways,hnever⟩)]
  simp only [hget,bind_eq_bind,bind_some]
  by_cases hdef : checker.deploymentState chain = .defined
  · refine ⟨0,cache₁,if_pos hdef,hok₁,?_,fun n _ => zero_le n⟩
    intro n _ _
    rw [deploymentState_drop_defined hperiod _ hdef,hdef]
  · have hh := fun k => @deploymentState_drop_mod _ chain k hperiod
    have hla := hh _ le_rfl
    rw [if_neg hdef,lastOfPeriod_eq htree.heights,← hla]
    rw [← hla] at hdef
    obtain ⟨height,cache',hlo,hok',hl⟩ := sinceLoop_spec hperiod halways hnever _
      (htree.drop _) lastOfPeriod_mod le_rfl hdef hok₁
    refine ⟨height,cache',hlo,hok',?_⟩
    simpa only [heldFrom_drop_iff (mod_le _ _) hh] using hl

theorem answer_spec {query : ThresholdQuery} (htree : query.pindexPrev.OnTree)
    (hcache : checker.CacheOk cache) :
    ∃ given cache', checker.answer cache query = some (given, cache') ∧
      checker.Answers query given ∧ checker.CacheOk cache' := by
  cases query with
  | state pindexPrev =>
    change pindexPrev.OnTree at htree
    obtain ⟨cache',hget,hok⟩ := getStateFor_spec hperiod halways hnever htree hcache
    exact ⟨_,cache',by simp [answer,hget],rfl,hok⟩
  | sinceHeight pindexPrev =>
    change pindexPrev.OnTree at htree
    obtain ⟨height,cache',hget,hok,hl⟩ := getStateSinceHeightFor_spec hperiod halways hnever htree hcache
    exact ⟨_,cache',by simp [answer,hget],⟨height,rfl,hl⟩,hok⟩

theorem answers_spec (queries : List ThresholdQuery)
    (htree : ∀ query ∈ queries, query.pindexPrev.OnTree) (hcache : checker.CacheOk cache) :
    ∃ given, checker.answers cache queries = some given ∧ List.Forall₂ checker.Answers queries given := by
  induction queries generalizing cache with
  | nil => exact ⟨[],rfl,.nil⟩
  | cons query rest ih =>
    obtain ⟨first,cache',hfst,ha,hok⟩ := answer_spec hperiod halways hnever
      (htree query mem_cons_self) hcache
    obtain ⟨others,ho,hf⟩ := ih (fun other hoth => htree other (mem_cons_of_mem _ hoth)) hok
    exact ⟨first::others,by simp [answers,hfst,ho],.cons ha hf⟩
end Cached
end ThresholdChecker

/-- An answer depends on the block only. The state changes between periods, in the permitted ways, and stays
once final. -/
theorem thresholdAnswers_pure (checker : ThresholdChecker) (hperiod : 1 ≤ checker.period)
    (halways : checker.beginTime ≠ BIP9Deployment.alwaysActive)
    (hnever : checker.beginTime ≠ BIP9Deployment.neverActive) :
    (∀ queries : List ThresholdQuery, (∀ query ∈ queries, query.pindexPrev.OnTree) →
      ∃ given, checker.answers ∅ queries = some given ∧ List.Forall₂ checker.Answers queries given) ∧
    (∀ (chain : IndexChain) (blocks : List CBlockIndex),
      (blocks++chain).length / checker.period = chain.length / checker.period →
      checker.deploymentState (blocks++chain) = checker.deploymentState chain) ∧
    (∀ (entry : CBlockIndex) (pprev : IndexChain),
      (checker.deploymentState pprev).Moves (checker.deploymentState (entry::pprev))) ∧
    ∀ (chain : IndexChain) (blocks : List CBlockIndex),
      checker.deploymentState chain = .active ∨ checker.deploymentState chain = .failed →
      checker.deploymentState (blocks++chain) = checker.deploymentState chain := by
  refine ⟨fun queries htree => ThresholdChecker.answers_spec hperiod halways hnever queries htree
    (by simp [ThresholdChecker.CacheOk]),fun chain blocks => ThresholdChecker.deploymentState_append blocks,
    ThresholdChecker.moves_cons hperiod,?_⟩
  intro chain blocks hfinal
  apply ThresholdChecker.deploymentState_final hperiod
  intro next hmove
  rcases hfinal with hst | hst <;> rw [hst] at hmove ⊢ <;> cases hmove <;> rfl

def signalEntry (signal : Bool) (pprev : IndexChain) : CBlockIndex where
  phashBlock := 0#256
  nHeight := pprev.length
  nChainWork := 0#256
  nVersion := if signal then 0x30000000 else 0x20000000
  hashMerkleRoot := 0#256
  nTime := BitVec.ofNat 32 (60*pprev.length)
  nBits := 0x207fffff#32
  nNonce := 0#32
  nTimeMax := 0#32

def signalChain (signals : List Bool) : IndexChain :=
  signals.foldr (fun signal pprev => signalEntry signal pprev::pprev) []

/-- A deployment on bit 28 that two blocks of a window of three lock in. -/
def windowOfThree : ThresholdChecker := versionBitsConditionChecker 3 2 ⟨28, 100, 10000, 0⟩
def lockingBranch : IndexChain := signalChain [false, true, true, true, false, true, false, false, false, false]
def quietBranch : IndexChain := signalChain [false, false, true, false, false, false, false]

/-- A window of six blocks, then of seven. -/
theorem quietBranch_median :
    getMedianTimePast (quietBranch.drop 1) = 180 ∧
      getMedianTimePast (quietBranch.drop 1) ≤ getMedianTimePast (quietBranch.drop 0) :=
  ⟨by decide +kernel,getMedianTimePast_monotone (by decide +kernel) 0 (by decide)⟩

/-- Two branches are asked about with one cache: one has locked in, the other has not. -/
theorem windowOfThree_branches :
    windowOfThree.answers ∅ [.sinceHeight lockingBranch, .state quietBranch] =
      some [.height 9, .state .started] ∧
    ∃ given, windowOfThree.answers ∅ [.sinceHeight lockingBranch, .state quietBranch] = some given ∧
      List.Forall₂ windowOfThree.Answers [.sinceHeight lockingBranch, .state quietBranch] given := by
  refine ⟨by decide +kernel,?_⟩
  apply (thresholdAnswers_pure windowOfThree (by decide) (by decide) (by decide)).1
  intro query hquery
  simp only [mem_cons,not_mem_nil,or_false] at hquery
  rcases hquery with rfl | rfl <;> exact ⟨by decide +kernel,by decide +kernel⟩
end Lcryp
