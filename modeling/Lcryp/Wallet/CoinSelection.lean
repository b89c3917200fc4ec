import Lcryp.Framework.KeyedSet
import Lcryp.Framework.Loop
import Lcryp.Framework.Memory
import Lcryp.Framework.Random
import Lcryp.Primitives.FeeRate

/-!
# Coin selection

The algorithms of `wallet/coinselection.cpp` on groups of coins.
-/
namespace Lcryp
/-- A coin with the fee of spending it, as both constructors that set the fee leave it. -/
structure COutput where
  outpoint : COutPoint
  txout : CTxOut
  depth : Int
  /-- Negative if the size of the signed input is not known. -/
  input_bytes : Int
  spendable : Bool
  from_me : Bool
  fee : Int
  long_term_fee : Int
deriving DecidableEq

/-- `CFeeRate::GetFee`, which rounds in floating point. -/
abbrev GetFee := CFeeRate → Nat → Int

def inputFee (getFee : GetFee) (feerate : CFeeRate) (input_bytes : Int) : Int :=
  if input_bytes < 0 then 0 else getFee feerate input_bytes.toNat

namespace COutput
def getEffectiveValue (coin : COutput) : Int := coin.txout.nValue - coin.fee

/-- What a coin counts for: its value when fees are subtracted from the outputs, its value after the
fee of spending it otherwise. -/
def selectionAmount (subtract : Bool) (coin : COutput) : Int :=
  if subtract then coin.txout.nValue else coin.getEffectiveValue

def excessFee (coin : COutput) : Int := coin.fee - coin.long_term_fee
end COutput

structure CoinSelectionParams where
  m_min_change_target : Int
  min_viable_change : Int
  m_change_fee : Int
  m_cost_of_change : Int
  m_effective_feerate : CFeeRate
  m_long_term_feerate : CFeeRate
  m_subtract_fee_outputs : Bool
  m_avoid_partial_spends : Bool
  min_change_target_nonneg : 0 ≤ m_min_change_target
  change_fee_nonneg : 0 ≤ m_change_fee
  cost_of_change_nonneg : 0 ≤ m_cost_of_change

structure CoinEligibilityFilter where
  conf_mine : Int
  conf_theirs : Int
  max_ancestors : Nat
  max_descendants : Nat
  m_include_partial_groups : Bool

/-- Coins that are spent together.  Its amounts are the sums over its coins. -/
structure OutputGroup where
  m_outputs : List COutput
  m_from_me : Bool
  m_value : Int
  m_depth : Int
  m_ancestors : Nat
  m_descendants : Nat
  effective_value : Int
  fee : Int
  long_term_fee : Int
  m_long_term_feerate : CFeeRate
  m_subtract_fee_outputs : Bool
  value_eq : m_value = (m_outputs.map fun coin => coin.txout.nValue).sum
  effective_value_eq : effective_value = (m_outputs.map COutput.getEffectiveValue).sum
  excess_fee_eq : fee - long_term_fee = (m_outputs.map COutput.excessFee).sum

namespace OutputGroup
def new (params : CoinSelectionParams) : OutputGroup where
  m_outputs := []
  m_from_me := true
  m_value := 0
  m_depth := 999
  m_ancestors := 0
  m_descendants := 0
  effective_value := 0
  fee := 0
  long_term_fee := 0
  m_long_term_feerate := params.m_long_term_feerate
  m_subtract_fee_outputs := params.m_subtract_fee_outputs
  value_eq := rfl
  effective_value_eq := rfl
  excess_fee_eq := rfl

variable {l : List COutput}
theorem sum_append_singleton {f : COutput → Int} {x : Int}
    (h : x = (l.map f).sum) (coin : COutput) : x + f coin = ((l++[coin]).map f).sum := by
  rw [List.map_append,List.sum_append,← h]
  simp

variable (group : OutputGroup)
def push (coin : COutput) (ancestors descendants : Nat) : OutputGroup :=
  { group with
    m_outputs := group.m_outputs++[coin]
    fee := group.fee + coin.fee
    long_term_fee := group.long_term_fee + coin.long_term_fee
    effective_value := group.effective_value + coin.getEffectiveValue
    m_from_me := group.m_from_me && coin.from_me
    m_value := group.m_value + coin.txout.nValue
    m_depth := min group.m_depth coin.depth
    m_ancestors := group.m_ancestors + ancestors
    m_descendants := max group.m_descendants descendants
    value_eq := sum_append_singleton group.value_eq coin
    effective_value_eq := sum_append_singleton group.effective_value_eq coin
    excess_fee_eq := by
      rw [← sum_append_singleton group.excess_fee_eq,COutput.excessFee]
      omega }

def insert (getFee : GetFee) (group : OutputGroup) (output : COutput) (ancestors descendants : Nat)
    (positive_only : Bool) : OutputGroup :=
  if positive_only && decide (output.getEffectiveValue ≤ 0) then group
  else
    group.push
      { output with long_term_fee := inputFee getFee group.m_long_term_feerate output.input_bytes }
      ancestors descendants

def eligibleForSpending (eligibility_filter : CoinEligibilityFilter) : Bool :=
  decide (group.m_depth ≥
    if group.m_from_me then eligibility_filter.conf_mine else eligibility_filter.conf_theirs) &&
  decide (group.m_ancestors ≤ eligibility_filter.max_ancestors) &&
  decide (group.m_descendants ≤ eligibility_filter.max_descendants)

def getSelectionAmount : Int := if group.m_subtract_fee_outputs then group.m_value else group.effective_value
end OutputGroup

/-- `std::sort` with the comparator `descending`: the order of groups of one amount is its own. -/
structure GroupSort where
  sort : List OutputGroup → List OutputGroup
  perm : ∀ groups, (sort groups).Perm groups
  descending : ∀ groups, (sort groups).Pairwise fun a b => b.getSelectionAmount ≤ a.getSelectionAmount

inductive SelectionAlgorithm
  | bnb
  | knapsack
  | srd
  | manual
deriving DecidableEq

abbrev InputSet := KeyedSet COutput.outpoint
structure SelectionResult where
  m_selected_inputs : InputSet
  m_target : Int
  m_algo : SelectionAlgorithm
  m_use_effective : Bool
  m_waste : Option Int

def getSelectionWaste (inputs : InputSet) (change_cost target : Int) (use_effective_value : Bool) :
    Except MemoryFault Int := do
  require (inputs.elems ≠ []) .assertion
  let waste := inputs.total COutput.excessFee
  let selected_effective_value := inputs.total (COutput.selectionAmount !use_effective_value)
  if change_cost ≠ 0 then
    require (change_cost > 0) .assertion
    return waste + change_cost
  else
    require (selected_effective_value ≥ target) .assertion
    return waste + (selected_effective_value-target)

namespace SelectionResult
def new (target : Int) (algo : SelectionAlgorithm) : SelectionResult := ⟨.empty, target, algo, false, none⟩

variable (result : SelectionResult)
def getSelectedValue : Int := result.m_selected_inputs.total fun coin => coin.txout.nValue
def getSelectedEffectiveValue : Int := result.m_selected_inputs.total COutput.getEffectiveValue
def getChange (min_viable_change change_fee : Int) : Int :=
  let change :=
    if result.m_use_effective then result.getSelectedEffectiveValue - result.m_target - change_fee
    else result.getSelectedValue - result.m_target
  if change < min_viable_change then 0 else change

def computeAndSetWaste (min_viable_change change_cost change_fee : Int) :
    Except MemoryFault SelectionResult := do
  let change := result.getChange min_viable_change change_fee
  let waste ← getSelectionWaste result.m_selected_inputs (if change > 0 then change_cost else 0)
    result.m_target result.m_use_effective
  return { result with m_waste := some waste }

def getWaste : Except MemoryFault Int :=
  match result.m_waste with
  | some waste => .ok waste
  | none => .error .assertion

def addInput (group : OutputGroup) : SelectionResult :=
  { result with
    m_selected_inputs := result.m_selected_inputs.insertAll group.m_outputs
    m_use_effective := !group.m_subtract_fee_outputs }

def merge (result other : SelectionResult) : SelectionResult :=
  { result with
    m_target := result.m_target + other.m_target
    m_use_effective := result.m_use_effective || other.m_use_effective
    m_algo := if result.m_algo = .manual then other.m_algo else result.m_algo
    m_selected_inputs := result.m_selected_inputs.insertAll other.m_selected_inputs.elems }

def less (result other : SelectionResult) : Except MemoryFault Bool := do
  let waste ← result.getWaste
  let otherWaste ← other.getWaste
  return decide (waste < otherWaste) || (decide (waste = otherWaste) &&
    decide (result.m_selected_inputs.elems.length > other.m_selected_inputs.elems.length))

def minElement (smallest : SelectionResult) : List SelectionResult → Except MemoryFault SelectionResult
  | [] => .ok smallest
  | result::rest => do
      let smaller ← result.less smallest
      minElement (if smaller then result else smallest) rest
end SelectionResult

def totalTries : Nat := 100000

/-- The variables of the search; the selected indices, the last one first. -/
structure BnBState where
  curr_value : Int
  curr_selection : List Nat
  curr_available_value : Int
  curr_waste : Int
  best_selection : List Nat
  best_waste : Int
  utxo_pool_index : Nat

/-- A `size_t` that is decremented: below zero it wraps, to an index outside of every vector. -/
def decrement : Nat → Except MemoryFault Nat
  | 0 => .error .outOfRange
  | n+1 => .ok n

/-- The loop back to the last selected group, which makes the groups after it available again. -/
def walkBack (utxo_pool : List OutputGroup) (back : Nat) : Nat → Int → Except MemoryFault (Nat × Int)
  | 0, available => .ok (0, available)
  | index+1, available =>
    if index + 1 > back then do
      let utxo ← readAt utxo_pool (index+1)
      walkBack utxo_pool back index (available+utxo.getSelectionAmount)
    else .ok (index+1, available)

variable (utxo_pool : List OutputGroup)
namespace BnBState
variable (selection_target cost_of_change : Int) (st : BnBState)
def isCut : Except MemoryFault Bool :=
  if st.curr_value + st.curr_available_value < selection_target ∨
      st.curr_value > selection_target + cost_of_change then .ok true
  else if st.curr_waste > st.best_waste then do
    let first ← readAt utxo_pool 0
    return decide (first.fee - first.long_term_fee > 0)
  else .ok false

/-- A selection that reaches the target, kept if it wastes no more than the best one. -/
def keepBest : BnBState :=
  let waste := st.curr_waste + (st.curr_value-selection_target)
  if waste ≤ st.best_waste then { st with best_selection := st.curr_selection, best_waste := waste }
  else st

def backtrack : Except MemoryFault (Turn BnBState) :=
  match st.curr_selection with
  | [] => .ok (.done st)
  | back::rest => do
      let start ← decrement st.utxo_pool_index
      let (index, available) ← walkBack utxo_pool back start st.curr_available_value
      require (index = back) .assertion
      let utxo ← readAt utxo_pool index
      return .next { st with
        curr_available_value := available
        curr_value := st.curr_value - utxo.getSelectionAmount
        curr_waste := st.curr_waste - (utxo.fee-utxo.long_term_fee)
        curr_selection := rest
        utxo_pool_index := index + 1 }

/-- A group that equals the one before it is not tried if that one was left out. -/
def isTried (utxo : OutputGroup) : Except MemoryFault Bool :=
  match st.curr_selection with
  | [] => .ok true
  | back::_ =>
    if st.utxo_pool_index = back + 1 then .ok true
    else do
      let before ← decrement st.utxo_pool_index
      let previous ← readAt utxo_pool before
      return decide (utxo.getSelectionAmount ≠ previous.getSelectionAmount) || decide (utxo.fee ≠ previous.fee)

def advance : Except MemoryFault (Turn BnBState) := do
  let utxo ← readAt utxo_pool st.utxo_pool_index
  let tried ← st.isTried utxo_pool utxo
  let passed := { st with
    curr_available_value := st.curr_available_value - utxo.getSelectionAmount
    utxo_pool_index := st.utxo_pool_index + 1 }
  if tried then
    return .next { passed with
      curr_selection := st.utxo_pool_index::st.curr_selection
      curr_value := st.curr_value + utxo.getSelectionAmount
      curr_waste := st.curr_waste + (utxo.fee-utxo.long_term_fee) }
  else return .next passed

def turn : Except MemoryFault (Turn BnBState) := do
  let cut ← st.isCut utxo_pool selection_target cost_of_change
  if cut then st.backtrack utxo_pool
  else if st.curr_value ≥ selection_target then (st.keepBest selection_target).backtrack utxo_pool
  else st.advance utxo_pool
end BnBState

def addInputsAt (result : SelectionResult) (indexes : List Nat) : Except MemoryFault SelectionResult :=
  indexes.foldlM (fun result i => do
    let group ← readAt utxo_pool i
    return result.addInput group) result

def sumPositive : Except MemoryFault Int :=
  utxo_pool.foldlM (fun curr_available_value utxo => do
    require (utxo.getSelectionAmount > 0) .assertion
    return curr_available_value + utxo.getSelectionAmount) 0

/-- The search, which also sorts the pool of its caller unless the pool is too small. -/
def selectCoinsBnB (order : GroupSort) (utxo_pool : List OutputGroup) (selection_target cost_of_change : Int) :
    Except MemoryFault (Option SelectionResult × List OutputGroup) := do
  let curr_available_value ← sumPositive utxo_pool
  if curr_available_value < selection_target then return (none, utxo_pool)
  let sorted := order.sort utxo_pool
  let last ← iterateUpTo (BnBState.turn sorted selection_target cost_of_change) totalTries
    ⟨0, [], curr_available_value, 0, [], maxMoney, 0⟩
  if last.best_selection = [] then return (none, sorted)
  let chosen ← addInputsAt sorted (.new selection_target .bnb) last.best_selection.reverse
  let result ← chosen.computeAndSetWaste cost_of_change cost_of_change 0
  let waste ← result.getWaste
  require (last.best_waste = waste) .assertion
  return (some result, sorted)

def changeLower : Int := 50000

def drawUntil (utxo_pool : List OutputGroup) (target_value : Int) :
    List Nat → Int → SelectionResult → Except MemoryFault (Option SelectionResult)
  | [], _, _ => .ok none
  | i::indexes, selected_eff_value, result => do
      let group ← readAt utxo_pool i
      let selected := selected_eff_value + group.getSelectionAmount
      if selected ≥ target_value then return some (result.addInput group)
      else drawUntil utxo_pool target_value indexes selected (result.addInput group)

def selectCoinsSRD (target_value : Int) : Randomized MemoryFault (Option SelectionResult) := do
  let indexes ← shuffle (List.range utxo_pool.length)
  StateT.lift (drawUntil utxo_pool (target_value+changeLower) indexes 0 (.new target_value .srd))

/-- The variables of `ApproximateBestSubset` inside one repetition. -/
structure SubsetState where
  vfIncluded : List Bool
  nTotal : Int
  fReachedTarget : Bool
  vfBest : List Bool
  nBest : Int

variable (groups : List OutputGroup)
namespace SubsetState
/-- Whether a group is taken: a coin flip in the first pass, if it is not included yet in the second. -/
def isTaken (nPass : Nat) (included : Bool) : Randomized MemoryFault Bool :=
  if nPass = 0 then drawBool else pure !included

variable (nTargetValue : Int)
def consider (nPass : Nat) (st : SubsetState) (item : OutputGroup × Nat) :
    Randomized MemoryFault SubsetState := do
  let taken ← isTaken nPass (st.vfIncluded.getD item.2 false)
  if taken then
    let total := st.nTotal + item.1.getSelectionAmount
    let flags := st.vfIncluded.set item.2 true
    if total ≥ nTargetValue then
      let better := decide (total < st.nBest)
      return {
        vfIncluded := flags.set item.2 false
        nTotal := total - item.1.getSelectionAmount
        fReachedTarget := true
        vfBest := if better then flags else st.vfBest
        nBest := if better then total else st.nBest }
    else return { st with vfIncluded := flags, nTotal := total }
  else return st

def pass (st : SubsetState) (nPass : Nat) : Randomized MemoryFault SubsetState :=
  if st.fReachedTarget then pure st
  else groups.zipIdx.foldlM (consider nTargetValue nPass) st
end SubsetState

def approximateLoop (groups : List OutputGroup) (nTargetValue : Int) :
    Nat → List Bool × Int → Randomized MemoryFault (List Bool × Int)
  | 0, best => pure best
  | iterations+1, best =>
    if best.2 ≠ nTargetValue then do
      let st ← [0, 1].foldlM (SubsetState.pass groups nTargetValue)
        ⟨List.replicate groups.length false, 0, false, best.1, best.2⟩
      approximateLoop groups nTargetValue iterations (st.vfBest, st.nBest)
    else pure best

def approximateBestSubset (nTotalLower nTargetValue : Int) : Randomized MemoryFault (List Bool × Int) :=
  approximateLoop groups nTargetValue 1000 (List.replicate groups.length true, nTotalLower)

/-- The groups below the target with change, their sum and the smallest of the others. -/
structure KnapsackSplit where
  lowest_larger : Option OutputGroup
  applicable_groups : List OutputGroup
  nTotalLower : Int

/-- The loop over the groups; a group of exactly the target ends it. -/
def splitGroups (nTargetValue change_target : Int) :
    List OutputGroup → KnapsackSplit → OutputGroup ⊕ KnapsackSplit
  | [], split => .inr split
  | group::rest, split =>
    let amount := group.getSelectionAmount
    if amount = nTargetValue then .inl group
    else if amount < nTargetValue + change_target then
      splitGroups nTargetValue change_target rest { split with
        applicable_groups := split.applicable_groups++[group]
        nTotalLower := split.nTotalLower + amount }
    else if split.lowest_larger.all fun larger => decide (amount < larger.getSelectionAmount) then
      splitGroups nTargetValue change_target rest { split with lowest_larger := some group }
    else splitGroups nTargetValue change_target rest split

def flagged (flags : List Bool) : List OutputGroup := ((groups.zip flags).filter Prod.snd).map Prod.fst
def addInputs (result : SelectionResult) (groups : List OutputGroup) : SelectionResult :=
  groups.foldl SelectionResult.addInput result

/-- The subset for the target, or the one for the target with change if the first is not exact. -/
def bestSubset (nTotalLower nTargetValue change_target : Int) : Randomized MemoryFault (List Bool × Int) := do
  let first ← approximateBestSubset groups nTotalLower nTargetValue
  if first.2 ≠ nTargetValue ∧ nTotalLower ≥ nTargetValue + change_target then
    approximateBestSubset groups nTotalLower (nTargetValue+change_target)
  else pure first

def knapsackSolver (order : GroupSort) (groups : List OutputGroup)
    (nTargetValue change_target : Int) : Randomized MemoryFault (Option SelectionResult) := do
  let result := SelectionResult.new nTargetValue .knapsack
  let shuffled ← shuffle groups
  match splitGroups nTargetValue change_target shuffled ⟨none, [], 0⟩ with
  | .inl group => return some (result.addInput group)
  | .inr split =>
    if split.nTotalLower = nTargetValue then
      return some (addInputs result split.applicable_groups)
    else if split.nTotalLower < nTargetValue then
      return split.lowest_larger.map result.addInput
    else
      let applicable_groups := order.sort split.applicable_groups
      let best ← bestSubset applicable_groups split.nTotalLower nTargetValue change_target
      match split.lowest_larger with
      | some larger =>
        if (best.2 ≠ nTargetValue ∧ best.2 < nTargetValue + change_target) ∨
            larger.getSelectionAmount ≤ best.2 then
          return some (result.addInput larger)
        else return some (addInputs result (flagged applicable_groups best.1))
      | none => return some (addInputs result (flagged applicable_groups best.1))
end Lcryp
