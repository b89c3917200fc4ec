import Lcryp.Script.Opcodes
import Lcryp.Wallet.CoinSelection

/-!
# Creating a transaction

`CreateTransactionInternal` of `wallet/spend.cpp`, with the exact ceiling as `GetFee`.
-/
namespace Lcryp
inductive CreateFault
  | assertion
  | outOfRange
  | failed (message : String)
deriving DecidableEq

structure CRecipient where
  scriptPubKey : CScript
  nAmount : Int
  fSubtractFeeFromAmount : Bool
deriving DecidableEq

def CRecipient.txout (recipient : CRecipient) : CTxOut := ⟨recipient.nAmount, recipient.scriptPubKey⟩
def getDustThreshold (txout : CTxOut) (dustRelayFee : CFeeRate) : Int :=
  if txout.scriptPubKey.isUnspendable then 0
  else
    dustRelayFee.getFee (txout.size +
      if txout.scriptPubKey.isWitnessProgram.isSome then 32 + 4 + 1 + 107 / witnessScaleFactor + 4
      else 32 + 4 + 1 + 107 + 4)

def isDust (txout : CTxOut) (dustRelayFee : CFeeRate) : Bool :=
  decide (txout.nValue < getDustThreshold txout dustRelayFee)

/-- What `CreateTransactionInternal` reads of the wallet, the coin control and the chain.  Fee rates are
not negative. -/
structure CreateEnv where
  /-- `GetMinimumFeeRate`. -/
  m_effective_feerate : CFeeRate
  /-- `coin_control.m_feerate`. -/
  requested_feerate : Option CFeeRate
  /-- The estimate is the fallback fee and the wallet does not allow it. -/
  fallbackDisabled : Bool
  /-- `GetDiscardRate`. -/
  m_discard_feerate : CFeeRate
  relayDustFee : CFeeRate
  /-- The script of the change, or why there is none. -/
  changeDestination : Except String CScript
  /-- `CalculateMaximumSignedInputSize` of the change, -1 if it is not known. -/
  change_spend_size : Int
  /-- `SelectCoins`, by whether fees are subtracted from outputs and the target. -/
  selectCoins : Bool → Int → Option SelectionResult
  /-- The signed input of a coin has a witness. -/
  hasWitness : COutput → Bool
  nSequence : BitVec 32
  /-- The lock time that `DiscourageFeeSniping` sets. -/
  nLockTime : BitVec 32
  /-- Signing was not asked for, or succeeds. -/
  signs : CTransaction → Bool
  /-- The weight is above `MAX_STANDARD_TX_WEIGHT`. -/
  isTooLarge : CTransaction → Bool
  m_default_max_tx_fee : Int
  /-- The limits on chains of transactions are not checked, or kept. -/
  keepsChainLimits : CTransaction → Bool
  effective_nonneg : 0 ≤ m_effective_feerate.nRypsPerK
  discard_nonneg : 0 ≤ m_discard_feerate.nRypsPerK

def dummyNestedP2wpkhInputSize : Nat := 91

variable (env : CreateEnv)
namespace CreateEnv
def scriptChange : CScript :=
  match env.changeDestination with
  | .ok script => script
  | .error _ => []

def changeError : String :=
  match env.changeDestination with
  | .ok _ => ""
  | .error reason =>
    "Transaction needs a change address, but we can't generate it." ++ " " ++ reason

def changeOutputSize : Nat := (CTxOut.mk 0 env.scriptChange).size
def m_change_fee : Int := env.m_effective_feerate.getFee env.changeOutputSize
def min_viable_change : Int :=
  let change_spend_size :=
    if env.change_spend_size = -1 then dummyNestedP2wpkhInputSize else env.change_spend_size.toNat
  let change_spend_fee := env.m_discard_feerate.getFee change_spend_size
  max (change_spend_fee+1) (getDustThreshold ⟨0, env.scriptChange⟩ env.m_discard_feerate)

def checkFeeRate : Except CreateFault Unit := do
  match env.requested_feerate with
  | some feerate =>
    require (¬ env.m_effective_feerate.nRypsPerK > feerate.nRypsPerK)
      (.failed ("Fee rate (" ++ feerate.textPerVByte ++
        ") is lower than the minimum fee rate setting (" ++ env.m_effective_feerate.textPerVByte ++
        ")"))
  | none => pure ()
  require (env.fallbackDisabled = false) (.failed
    "Fee estimation failed. Fallbackfee is disabled. Wait a few blocks or enable -fallbackfee.")

/-- The virtual size of the signed transaction; nothing if some input cannot be estimated.  The marker and
the flag of a transaction with witnesses count for one byte. -/
def signedTxSize (coins : List COutput) (vout : List CTxOut) : Option Nat :=
  if coins.all fun coin => decide (0 ≤ coin.input_bytes) then
    some (8 + (if coins.any env.hasWitness then 1 else 0) +
      vectorSize (fun coin : COutput => coin.input_bytes.toNat) coins + vectorSize CTxOut.size vout)
  else none
end CreateEnv

variable (vecSend : List CRecipient)
def recipientsSum : Int := (vecSend.map CRecipient.nAmount).sum
def outputsToSubtractFeeFrom : Nat := vecSend.countP CRecipient.fSubtractFeeFromAmount
def subtractsFee : Bool := vecSend.any CRecipient.fSubtractFeeFromAmount

/-- The size that is estimated before inputs are selected: ten bytes besides the outputs. -/
def txNoinputsSize : Nat :=
  if subtractsFee vecSend then 0 else 10 + vectorSize CTxOut.size (vecSend.map CRecipient.txout)
def selectionTarget (vecSend : List CRecipient) : Int :=
  recipientsSum vecSend + env.m_effective_feerate.getFee (txNoinputsSize vecSend)

/-- The variables after the size is known. -/
structure Draft where
  result : SelectionResult
  change_amount : Int
  nChangePosInOut : Option Nat
  selected_coins : List COutput
  vout : List CTxOut
  nBytes : Nat

def changePosition (change_pos : Int) (outputs : Nat) (change_amount : Int) :
    Randomized CreateFault (Option Nat) :=
  if change_amount > 0 then
    if change_pos = -1 then do
      let position ← drawBelow (outputs+1)
      return some position
    else if (change_pos % 0x100000000).toNat > outputs then
      StateT.lift (.error (.failed "Transaction change output index out of range"))
    else return some (change_pos % 0x100000000).toNat
  else return none

variable (vout : List CTxOut)
def insertChange (change : CTxOut) : Option Nat → List CTxOut
  | some position => vout.insertIdx position change
  | none => vout

def orFail {α : Type} (x : Option α) (message : String) : Except CreateFault α :=
  match x with
  | some a => .ok a
  | none => .error (.failed message)

def draftTransaction (vecSend : List CRecipient) (change_pos : Int) : Randomized CreateFault Draft := do
  StateT.lift env.checkFeeRate
  StateT.lift (require ((vecSend.any fun r => isDust r.txout env.relayDustFee) = false)
    (.failed "Transaction amount too small"))
  let result ← StateT.lift (orFail
    (env.selectCoins (subtractsFee vecSend) (selectionTarget env vecSend)) "Insufficient funds")
  let change_amount := result.getChange env.min_viable_change env.m_change_fee
  let position ← changePosition change_pos vecSend.length change_amount
  let vout := insertChange (vecSend.map CRecipient.txout) ⟨change_amount, env.scriptChange⟩ position
  let selected_coins ← shuffle result.m_selected_inputs.elems
  let nBytes ← StateT.lift (orFail (env.signedTxSize selected_coins vout)
    "Missing solving data for estimating transaction size")
  return ⟨result, change_amount, position, selected_coins, vout, nBytes⟩

/-- The share of the fee that a recipient pays; the first one also pays the remainder. -/
def feeShare (to_reduce : Int) (outputs_to_subtract_fee_from : Nat) (fFirst : Bool) : Int :=
  to_reduce.tdiv outputs_to_subtract_fee_from +
    if fFirst then to_reduce.tmod outputs_to_subtract_fee_from else 0

section Deduction
variable (to_reduce : Int) (outputs_to_subtract_fee_from : Nat)
def deductOne (fFirst : Bool) (recipient : CRecipient) (txout : CTxOut) : Except CreateFault CTxOut :=
  if recipient.fSubtractFeeFromAmount then do
    let reduced : CTxOut := { txout with
      nValue := txout.nValue - feeShare to_reduce outputs_to_subtract_fee_from fFirst }
    require (isDust reduced env.relayDustFee = false) (.failed
      (if reduced.nValue < 0 then "The transaction amount is too small to pay the fee"
        else "The transaction amount is too small to send after the fee has been deducted"))
    return reduced
  else .ok txout

/-- The loop over the recipients, from an index of the outputs on; it steps over the change. -/
def deductFees (nChangePosInOut : Option Nat) :
    Nat → Bool → List CRecipient → List CTxOut → Except CreateFault (List CTxOut)
  | _, _, [], vout => .ok vout
  | _, _, _::_, [] => .error .outOfRange
  | i, fFirst, recipient::vecSend, txout::vout =>
    if nChangePosInOut = some i then do
      let rest ← deductFees nChangePosInOut (i+1) fFirst (recipient::vecSend) vout
      return txout::rest
    else do
      let paid ← deductOne env to_reduce outputs_to_subtract_fee_from fFirst recipient txout
      let rest ← deductFees nChangePosInOut (i+1)
        (fFirst && !recipient.fSubtractFeeFromAmount) vecSend vout
      return paid::rest
end Deduction

def raiseChange (surplus : Int) : Option Nat → List CTxOut
  | some position => vout.modify position fun change => { change with nValue := change.nValue + surplus }
  | none => vout

structure CreatedTransactionResult where
  tx : CTransaction
  fee : Int
  change_pos : Option Nat

namespace Draft
variable (draft : Draft)
def feeNeeded : Int := env.m_effective_feerate.getFee draft.nBytes

/-- What the inputs leave after the recipients and the change. -/
def nFeeRet : Int := draft.result.getSelectedValue - recipientsSum vecSend - draft.change_amount

def raises : Bool := draft.nChangePosInOut.isSome && decide (draft.feeNeeded env < draft.nFeeRet vecSend)
def balanced : List CTxOut × Int :=
  if draft.raises env vecSend then
    (raiseChange draft.vout (draft.nFeeRet vecSend - draft.feeNeeded env) draft.nChangePosInOut,
      draft.feeNeeded env)
  else (draft.vout, draft.nFeeRet vecSend)

def settle : Except CreateFault (List CTxOut × Int) := do
  require (subtractsFee vecSend = true ∨ draft.feeNeeded env ≤ draft.nFeeRet vecSend) .assertion
  let balanced := draft.balanced env vecSend
  if subtractsFee vecSend then
    let vout ← deductFees env (draft.feeNeeded env - balanced.2) (outputsToSubtractFeeFrom vecSend)
      draft.nChangePosInOut 0 true vecSend balanced.1
    return (vout, draft.feeNeeded env)
  else return balanced

/-- `txNew` with the final outputs; signatures are not modelled. -/
def toTransaction (vout : List CTxOut) : CTransaction where
  vin := draft.selected_coins.map fun coin => ⟨coin.outpoint, [], env.nSequence, []⟩
  vout := vout
  nVersion := 2
  nLockTime := env.nLockTime

def finish : Except CreateFault CreatedTransactionResult := do
  let settled ← draft.settle env vecSend
  let tx := draft.toTransaction env settled.1
  require (¬ (env.scriptChange = [] ∧ draft.nChangePosInOut.isSome)) (.failed env.changeError)
  require (env.signs tx = true) (.failed "Signing transaction failed")
  require (env.isTooLarge tx = false) (.failed "Transaction too large")
  require (settled.2 ≤ env.m_default_max_tx_fee)
    (.failed "Fee exceeds maximum configured by user (e.g. -maxtxfee, maxfeerate)")
  require (env.keepsChainLimits tx = true)
    (.failed "Transaction has too long of a mempool chain")
  return ⟨tx, settled.2, draft.nChangePosInOut⟩
end Draft

def createTransactionInternal (vecSend : List CRecipient) (change_pos : Int) :
    Randomized CreateFault CreatedTransactionResult := do
  let draft ← draftTransaction env vecSend change_pos
  StateT.lift (draft.finish env vecSend)
end Lcryp
