import Lcryp.Wallet.CoinSelection

/-!
# Selecting the inputs of a payment

`SelectCoins` of `wallet/spend.cpp`.
-/
namespace Lcryp
def outputGroupMaxEntries : Nat := 100

/-- The types of outputs, in the order of the keys of `CoinsResult::coins`. -/
inductive OutputType
  | legacy
  | p2shSegwit
  | bech32
  | bech32m
  | unknown
deriving DecidableEq

structure CCoinControl where
  setSelected : List COutPoint
  m_external_txouts : COutPoint → Option CTxOut
  m_input_weights : COutPoint → Option Int
  m_include_unsafe_inputs : Bool
  m_allow_other_inputs : Bool
  m_avoid_partial_spends : Bool
  selected_distinct : setSelected.Nodup

def CCoinControl.hasSelected (coin_control : CCoinControl) : Bool := !coin_control.setSelected.isEmpty

/-- What `SelectCoins` reads of the wallet, the chain and the standard library. -/
structure WalletEnv where
  getFee : GetFee
  order : GroupSort
  getWalletTx : Uint256 → Option CTransaction
  /-- `CalculateMaximumSignedInputSize` of an output of the wallet, -1 if it is not known. -/
  signedInputSize : CTxOut → Int
  /-- `CalculateMaximumSignedInputSize` with the external provider of the coin control. -/
  externalInputSize : CTxOut → COutPoint → Int
  /-- Ancestors and descendants of a transaction in the pool. -/
  getTransactionAncestry : Uint256 → Nat × Nat
  /-- The limits on ancestors and descendants. -/
  getPackageLimits : Nat × Nat
  m_spend_zero_conf_change : Bool
  /-- `-walletrejectlongchains`. -/
  fRejectLongChains : Bool

abbrev CoinsResult := List (OutputType × List COutput)

namespace CoinsResult
variable (coins : CoinsResult)
def all : List COutput := coins.flatMap Prod.snd
def size : Nat := (coins.map fun it => it.2.length).sum

/-- `CoinsResult::Erase`, which stops at the first coin it erases. -/
def erase (preset_coins : List COutPoint) : CoinsResult → CoinsResult
  | [] => []
  | it::rest =>
    if it.2.any fun c => decide (c.outpoint ∈ preset_coins) then
      (it.1, it.2.eraseP fun c => decide (c.outpoint ∈ preset_coins))::rest
    else it::erase preset_coins rest

def shuffle : CoinsResult → Randomized MemoryFault CoinsResult
  | [] => pure []
  | it::rest => do
      let vec ← Lcryp.shuffle it.2
      let others ← shuffle rest
      return (it.1, vec)::others
end CoinsResult

/-- The order of scripts: shorter ones first. -/
def scriptLess (a b : CScript) : Bool :=
  decide (a.length < b.length) || (decide (a.length = b.length) && decide (a < b))

/-- The groups of each script, the last group of a script first. -/
abbrev SpkGroups := List (CScript × List OutputGroup)

def SpkGroups.update (spk : CScript) (f : List OutputGroup → List OutputGroup) : SpkGroups → SpkGroups
  | [] => [(spk, f [])]
  | entry::rest =>
    if entry.1 = spk then (spk, f entry.2)::rest
    else if scriptLess spk entry.1 then (spk, f [])::entry::rest
    else entry::SpkGroups.update spk f rest
variable (env : WalletEnv)
section Grouping
variable (params : CoinSelectionParams) (filter : CoinEligibilityFilter) (positive_only : Bool)
    (group : OutputGroup) (output : COutput)

def insertOutput : OutputGroup :=
  let ancestry := env.getTransactionAncestry output.outpoint.hash
  group.insert env.getFee output ancestry.1 ancestry.2 positive_only

/-- A coin goes to the last group of its script, or to a new one if that is full. -/
def insertIntoLast : List OutputGroup → List OutputGroup
  | [] => [insertOutput env positive_only (.new params) output]
  | group::rest =>
    if group.m_outputs.length ≥ outputGroupMaxEntries then
      insertOutput env positive_only (.new params) output::group::rest
    else insertOutput env positive_only group output::rest

def isUsable : Bool :=
  !(positive_only && decide (group.getSelectionAmount ≤ 0)) &&
    (decide (group.m_outputs.length > 0) && group.eligibleForSpending filter)

/-- The groups of a script, without the last one if there are several and partial groups are not wanted. -/
def usableGroups (groups : List OutputGroup) : List OutputGroup :=
  (if groups.length > 1 && !filter.m_include_partial_groups then groups.tail else groups).filter
    (isUsable filter positive_only)

variable (outputs : List COutput)
def spkToGroups (spk_to_groups_map : SpkGroups) : SpkGroups :=
  outputs.foldl (fun groups output =>
    groups.update output.txout.scriptPubKey (insertIntoLast env params positive_only output))
    spk_to_groups_map

def groupOutputs : List OutputGroup :=
  let spendable := outputs.filter COutput.spendable
  if !params.m_avoid_partial_spends then
    (spendable.map (insertOutput env positive_only (.new params))).filter (isUsable filter positive_only)
  else
    (spkToGroups env params positive_only spendable []).flatMap fun entry =>
      usableGroups filter positive_only entry.2
end Grouping

section Attempts
variable (nTargetValue : Int) (eligibility_filter : CoinEligibilityFilter) (params : CoinSelectionParams)
/-- The waste of a result of the two random algorithms. -/
def weigh (params : CoinSelectionParams) (result : SelectionResult) : Except MemoryFault SelectionResult :=
  result.computeAndSetWaste params.min_viable_change params.m_cost_of_change params.m_change_fee
def weighOption (params : CoinSelectionParams) :
    Option SelectionResult → Except MemoryFault (Option SelectionResult)
  | none => .ok none
  | some result => do
      let weighed ← weigh params result
      return some weighed

def bestResult : List SelectionResult → Except MemoryFault (Option SelectionResult)
  | [] => .ok none
  | result::rest => do
      let best ← result.minElement rest
      return some best

def chooseSelectionResult (available_coins : List COutput) :
    Randomized MemoryFault (Option SelectionResult) := do
  let positive_groups := groupOutputs env params eligibility_filter true available_coins
  let bnb ← StateT.lift
    (selectCoinsBnB env.order positive_groups nTargetValue params.m_cost_of_change)
  let all_groups := groupOutputs env params eligibility_filter false available_coins
  let knapsack ← knapsackSolver env.order all_groups nTargetValue params.m_min_change_target
  let knapsack_result ← StateT.lift (weighOption params knapsack)
  let srd ← selectCoinsSRD bnb.2 nTargetValue
  let srd_result ← StateT.lift (weighOption params srd)
  StateT.lift (bestResult (bnb.1.toList++knapsack_result.toList++srd_result.toList))

def selectByType : CoinsResult → Randomized MemoryFault (List SelectionResult)
  | [] => pure []
  | it::rest => do
      let result ← chooseSelectionResult env nTargetValue eligibility_filter params it.2
      let results ← selectByType rest
      return result.toList++results

def attemptSelection (available_coins : CoinsResult) (allow_mixed_output_types : Bool) :
    Randomized MemoryFault (Option SelectionResult) := do
  let results ← selectByType env nTargetValue eligibility_filter params available_coins
  if results ≠ [] then StateT.lift (bestResult results)
  else if allow_mixed_output_types then
    chooseSelectionResult env nTargetValue eligibility_filter params available_coins.all
  else pure none
end Attempts

/-- The filters of the attempts, each with whether types may be mixed. -/
def selectionAttempts (env : WalletEnv) (coin_control : CCoinControl) : List (CoinEligibilityFilter × Bool) :=
  let max_ancestors := max 1 env.getPackageLimits.1
  let max_descendants := max 1 env.getPackageLimits.2
  let uint64Max := 2^64 - 1
  [(⟨1, 6, 0, 0, false⟩, false), (⟨1, 1, 0, 0, false⟩, true)] ++
    if env.m_spend_zero_conf_change then
      [(⟨0, 1, 2, 2, false⟩, true),(⟨0, 1, min 4 (max_ancestors/3), min 4 (max_descendants/3), false⟩, true),
        (⟨0, 1, max_ancestors / 2, max_descendants / 2, false⟩, true),
        (⟨0, 1, max_ancestors - 1, max_descendants - 1, true⟩, true)] ++
      (if coin_control.m_include_unsafe_inputs then
        [(⟨0, 0, max_ancestors - 1, max_descendants - 1, true⟩, true)] else []) ++
      (if !env.fRejectLongChains then [(⟨0, 1, uint64Max, uint64Max, true⟩, true)] else [])
    else []

def firstSelection (env : WalletEnv) (value_to_select : Int) (params : CoinSelectionParams)
    (available_coins : CoinsResult) :
    List (CoinEligibilityFilter × Bool) → Randomized MemoryFault (Option SelectionResult)
  | [] => pure none
  | attempt::rest => do
      let result ← attemptSelection env value_to_select attempt.1 params available_coins attempt.2
      match result with
      | some r => return some r
      | none => firstSelection env value_to_select params available_coins rest

section Presets
variable (coin_control : CCoinControl) (params : CoinSelectionParams) (outpoint : COutPoint)
/-- The output that is spent and the size of its input, as the wallet knows them or the coin control does. -/
def lookUp : Option (CTxOut × Int) :=
  match env.getWalletTx outpoint.hash with
  | some tx => (tx.vout[outpoint.n]?).map fun txout => (txout, env.signedInputSize txout)
  | none => (coin_control.m_external_txouts outpoint).map fun txout => (txout, -1)

def inputWeightSize (weight : Int) : Int := ((max weight 0 + 3) / 4).bmod (2^32)

/-- The size of the input, -1 if nobody knows it; a weight that was set by hand comes first. -/
def presetInputBytes (txout : CTxOut) (known_bytes : Int) : Int :=
  let signed_bytes := if known_bytes = -1 then env.externalInputSize txout outpoint else known_bytes
  (coin_control.m_input_weights outpoint).elim signed_bytes inputWeightSize

def presetCoin : Option COutput := do
  let known ← lookUp env coin_control outpoint
  let input_bytes := presetInputBytes env coin_control outpoint known.1 known.2
  if input_bytes = -1 then none
  else
    some {
      outpoint := outpoint
      txout := known.1
      depth := 0
      input_bytes := input_bytes
      spendable := true
      from_me := false
      fee := inputFee env.getFee params.m_effective_feerate input_bytes
      long_term_fee := 0 }

/-- The loop over the preset inputs: what is left to select, and their group. -/
def addPresets : List COutPoint → Int → OutputGroup → Option (Int × OutputGroup)
  | [], value_to_select, preset_inputs => some (value_to_select, preset_inputs)
  | outpoint::rest, value_to_select, preset_inputs => do
      let output ← presetCoin env coin_control params outpoint
      addPresets rest (value_to_select - output.selectionAmount params.m_subtract_fee_outputs)
        (preset_inputs.insert env.getFee output 0 0 false)
end Presets
section SelectCoins
variable (available_coins : CoinsResult) (nTargetValue : Int) (coin_control : CCoinControl)
    (params : CoinSelectionParams) (preset_inputs : OutputGroup)

def selectManually : Except MemoryFault (Option SelectionResult) := do
  let result := (SelectionResult.new nTargetValue .manual).addInput preset_inputs
  if result.getSelectedValue < nTargetValue then return none
  let weighed ← weigh params result
  return some weighed

/-- The coins in random order if partial spends are avoided and some group could be full. -/
def shuffleMany (coins : CoinsResult) : Randomized MemoryFault CoinsResult :=
  if coin_control.m_avoid_partial_spends && decide (coins.size > outputGroupMaxEntries) then
    coins.shuffle
  else pure coins

def remainingCoins : CoinsResult :=
  if coin_control.hasSelected then available_coins.erase coin_control.setSelected else available_coins

variable (value_to_select : Int)
def selectRest : Randomized MemoryFault (Option SelectionResult) := do
  let shuffled ← shuffleMany coin_control (remainingCoins available_coins coin_control)
  if value_to_select ≤ 0 then return some (.new value_to_select .manual)
  else firstSelection env value_to_select params shuffled (selectionAttempts env coin_control)

def mergePresets (res : SelectionResult) : Except MemoryFault SelectionResult :=
  let preselected := (SelectionResult.new preset_inputs.getSelectionAmount .manual).addInput preset_inputs
  let merged := res.merge preselected
  if merged.m_algo = .manual then weigh params merged else .ok merged

def selectWithPresets (preset_inputs : OutputGroup) : Randomized MemoryFault (Option SelectionResult) :=
  if coin_control.hasSelected && !coin_control.m_allow_other_inputs then
    StateT.lift (selectManually nTargetValue params preset_inputs)
  else do
    let res ← selectRest env available_coins coin_control params value_to_select
    match res with
    | none => return none
    | some selected => do
        let merged ← StateT.lift (mergePresets params preset_inputs selected)
        return some merged

def selectCoins : Randomized MemoryFault (Option SelectionResult) :=
  match addPresets env coin_control params coin_control.setSelected nTargetValue (.new params) with
  | none => pure none
  | some presets =>
    selectWithPresets env available_coins nTargetValue coin_control params presets.1 presets.2
end SelectCoins
end Lcryp
