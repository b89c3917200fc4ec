import Lcryp.Wallet.CreateTransaction
import Lcryp.Wallet.Selection

/-!
# Created transactions conserve value

Whatever a transaction pays to its recipients, to its change and as its fee is what its inputs are worth.
-/
namespace Lcryp
open SelectionResult List CRecipient Nat Int
namespace CFeeRate
variable {rate : CFeeRate} (hrate : 0 ≤ rate.nRypsPerK)
include hrate

theorem getFee_eq (numBytes : Nat) : rate.getFee numBytes = -(-(rate.nRypsPerK*numBytes) / 1000) := by
  unfold getFee
  dsimp only
  split
  next hz =>
    split
    next hpos =>
      have hp : 0 < rate.nRypsPerK * numBytes := mul_pos hpos (natCast_pos.mpr (pos_of_ne_zero hz.2))
      omega
    · split <;> omega
  · rfl

theorem getFee_nonneg (numBytes : Nat) : 0 ≤ rate.getFee numBytes := by
  have hnn : 0 ≤ rate.nRypsPerK * numBytes := mul_nonneg hrate (natCast_nonneg _)
  rw [getFee_eq hrate]
  omega

theorem getFee_mono {a b : Nat} (h : a ≤ b) : rate.getFee a ≤ rate.getFee b := by
  have hmul : rate.nRypsPerK * a ≤ rate.nRypsPerK * b :=
    mul_le_mul_of_nonneg_left (Int.ofNat_le.mpr h) hrate
  rw [getFee_eq hrate,getFee_eq hrate]
  omega

theorem getFee_add_le (a b : Nat) : rate.getFee (a+b) ≤ rate.getFee a + rate.getFee b := by
  have hmul : rate.nRypsPerK * (a + b : Nat) = rate.nRypsPerK * a + rate.nRypsPerK * b := by
    rw [natCast_add,mul_add]
  rw [getFee_eq hrate,getFee_eq hrate,getFee_eq hrate]
  omega

theorem getFee_sum_le (sizes : List Nat) : rate.getFee sizes.sum ≤ (sizes.map rate.getFee).sum := by
  induction sizes with
  | nil =>
    rw [getFee_eq hrate]
    simp
  | cons size sizes ih =>
    have hadd := getFee_add_le hrate size sizes.sum
    rw [sum_cons,map_cons,sum_cons]
    omega
end CFeeRate

def valueOf (vout : List CTxOut) : Int := (vout.map CTxOut.nValue).sum

def Fits (outputs : Nat) (position : Option Nat) : Prop := ∀ p ∈ position, p ≤ outputs

variable {vout : List CTxOut} {position : Option Nat}
theorem valueOf_insertChange (hf : Fits vout.length position) (change : CTxOut) :
    valueOf (insertChange vout change position) =
      valueOf vout + if position.isSome then change.nValue else 0 := by
  cases position with
  | none => simp [insertChange]
  | some p =>
    have hp := (perm_insertIdx change vout (hf p rfl)).map CTxOut.nValue
    simp only [insertChange,valueOf,hp.sum_eq]
    exact add_comm _ _

theorem modify_insertIdx {α : Type} (f : α → α) (a : α) {l : List α} {p : Nat} (h : p ≤ l.length) :
    (l.insertIdx p a).modify p f = l.insertIdx p (f a) := by
  induction l generalizing p with
  | nil =>
    obtain rfl : p = 0 := le_zero.mp h
    rfl
  | cons b l ih =>
    cases p with
    | zero => rfl
    | succ p =>
      rw [insertIdx_succ_cons,modify_succ_cons,ih (le_of_succ_le_succ h),insertIdx_succ_cons]

theorem raiseChange_insertChange (hf : Fits vout.length position) (change : CTxOut) (surplus : Int) :
    raiseChange (insertChange vout change position) surplus position =
      insertChange vout { change with nValue := change.nValue + surplus } position := by
  cases position with
  | none => rfl
  | some p => exact modify_insertIdx _ _ (hf p rfl)

def removeChange (vout : List CTxOut) : Option Nat → List CTxOut
  | some position => vout.eraseIdx position
  | none => vout

def changeValue (vout : List CTxOut) (position : Option Nat) : Int :=
  (position.bind fun p => vout[p]?).elim 0 CTxOut.nValue
theorem removeChange_insertChange (vout : List CTxOut) (position : Option Nat) (change : CTxOut) :
    removeChange (insertChange vout change position) position = vout := by
  cases position with
  | none => rfl
  | some p => exact eraseIdx_insertIdx_self change

theorem changeValue_insertChange (change : CTxOut) (hf : Fits vout.length position) :
    changeValue (insertChange vout change position) position =
      if position.isSome then change.nValue else 0 := by
  cases position with
  | none => rfl
  | some p =>
    have hle : p ≤ vout.length := hf p rfl
    simp [changeValue,insertChange,getElem?_insertIdx_self,hle]

variable {vout' : List CTxOut}
theorem vectorSize_of_scripts (h : vout.map CTxOut.scriptPubKey = vout'.map CTxOut.scriptPubKey) :
    vectorSize CTxOut.size vout = vectorSize CTxOut.size vout' := by
  have hlen := congrArg length h
  have hs := congrArg (fun scripts => (scripts.map fun script =>
    8 + byteVectorSize script).sum) h
  simp only [length_map,map_map] at hlen hs
  rw [vectorSize,hlen]
  exact congrArg _ hs

theorem scripts_insertChange {change change' : CTxOut}
    (position : Option Nat) (h : vout.map CTxOut.scriptPubKey = vout'.map CTxOut.scriptPubKey)
    (hchg : change.scriptPubKey = change'.scriptPubKey) :
    (insertChange vout change position).map CTxOut.scriptPubKey =
      (insertChange vout' change' position).map CTxOut.scriptPubKey := by
  cases position with
  | none => exact h
  | some p => rw [insertChange,insertChange,map_insertIdx,map_insertIdx,h,hchg]

def IsReported (e : CreateFault) : Prop := ∃ message, e = .failed message

/-- An output for a recipient, of its amount unless the recipient pays for the fee. -/
structure Pays (recipient : CRecipient) (txout : CTxOut) : Prop where
  script : txout.scriptPubKey = recipient.scriptPubKey
  amount : recipient.fSubtractFeeFromAmount = false → txout.nValue = recipient.nAmount

/-- What a recipient that pays for the fee does not get. -/
def deduction (recipient : CRecipient) (txout : CTxOut) : Int :=
  if recipient.fSubtractFeeFromAmount then recipient.nAmount - txout.nValue else 0
def deducted (vecSend : List CRecipient) (paid : List CTxOut) : Int := (List.zipWith deduction vecSend paid).sum

variable {vecSend : List CRecipient} {paid : List CTxOut}
theorem valueOf_paid (h : List.Forall₂ Pays vecSend paid) :
    valueOf paid = recipientsSum vecSend - deducted vecSend paid := by
  induction h with
  | nil => rfl
  | @cons recipient txout vecSend paid hpays _ ih =>
    simp only [valueOf,recipientsSum,deducted,map_cons,sum_cons,zipWith_cons_cons] at ih ⊢
    have hone : txout.nValue = recipient.nAmount - deduction recipient txout := by
      unfold deduction
      split
      · omega
      next hnot =>
        have hamt := hpays.amount (by simpa using hnot)
        omega
    omega

theorem scripts_paid (h : List.Forall₂ Pays vecSend paid) :
    paid.map CTxOut.scriptPubKey = (vecSend.map txout).map CTxOut.scriptPubKey := by
  induction h with
  | nil => rfl
  | cons hp _ ih =>
    simp only [map_cons,ih,hp.script]
    rfl

variable (env : CreateEnv)
section Deduction
variable (to_reduce : Int) (n : Nat)
theorem deductFees_past {position : Option Nat} {i : Nat} (h : ∀ p ∈ position, p < i)
    (fFirst : Bool) (vecSend : List CRecipient) (vout : List CTxOut) :
    deductFees env to_reduce n position i fFirst vecSend vout =
      deductFees env to_reduce n none 0 fFirst vecSend vout := by
  have hl : ∀ vout position i j fFirst vecSend, (∀ p ∈ position, p < i) →
      deductFees env to_reduce n position i fFirst vecSend vout =
        deductFees env to_reduce n none j fFirst vecSend vout := by
    intro vout
    induction vout with
    | nil =>
      intro position i j fFirst vecSend _
      cases vecSend <;> rfl
    | cons txout vout ih =>
      intro position i j fFirst vecSend h
      cases vecSend with
      | nil => rfl
      | cons recipient vecSend =>
        have hne : position ≠ some i := fun heq => lt_irrefl i (h i heq)
        have hn : (none : Option Nat) ≠ some j := fun heq => by cases heq
        rw [deductFees,deductFees,if_neg hne,if_neg hn,
          ih position (i+1) (j+1) _ vecSend fun p hp => lt_succ_of_lt (h p hp)]
  exact hl vout position i 0 fFirst vecSend h

theorem deductFees_none_cons (fFirst : Bool) (recipient : CRecipient) (vecSend : List CRecipient)
    (txout : CTxOut) (vout : List CTxOut) :
    deductFees env to_reduce n none 0 fFirst (recipient::vecSend) (txout::vout) = (do
      let paid ← deductOne env to_reduce n fFirst recipient txout
      let rest ← deductFees env to_reduce n none 0 (fFirst && !recipient.fSubtractFeeFromAmount)
        vecSend vout
      return paid::rest) := by
  have hn : (none : Option Nat) ≠ some 0 := fun heq => by cases heq
  have hne : ∀ p ∈ (none : Option Nat), p < 0 + 1 := fun p hp => by cases hp
  rw [deductFees,if_neg hn,deductFees_past env to_reduce n hne]

theorem deductFees_insertIdx (change : CTxOut) {vecSend : List CRecipient} {vout : List CTxOut}
    {k : Nat} (hlen : vecSend.length = vout.length) (hk : k ≤ vout.length) (i : Nat) (fFirst : Bool) :
    deductFees env to_reduce n (some (i+k)) i fFirst vecSend (vout.insertIdx k change) =
      (deductFees env to_reduce n none 0 fFirst vecSend vout).map (·.insertIdx k change) := by
  induction vout generalizing vecSend k i fFirst with
  | nil =>
    obtain rfl : vecSend = [] := length_eq_zero_iff.mp hlen
    obtain rfl : k = 0 := le_zero.mp hk
    rfl
  | cons txout vout ih =>
    cases vecSend with
    | nil => cases hlen
    | cons recipient vecSend =>
      cases k with
      | zero =>
        have hbeh : ∀ p ∈ some (i+0), p < i + 1 := fun p hp => by
          cases hp
          exact lt_succ_self _
        rw [insertIdx_zero,deductFees,if_pos (by rw [add_zero]),deductFees_past env to_reduce n hbeh]
        cases deductFees env to_reduce n none 0 fFirst (recipient::vecSend) (txout::vout) with
        | error e => rfl
        | ok paid => rfl
      | succ k =>
        have hne : (some (i + (k+1)) : Option Nat) ≠ some i := by
          intro heq
          have := Option.some.inj heq
          omega
        have hr := ih (succ.inj hlen) (le_of_succ_le_succ hk) (i+1)
          (fFirst && !recipient.fSubtractFeeFromAmount)
        rw [show i + 1 + k = i + (k+1) by omega] at hr
        rw [insertIdx_succ_cons,deductFees,if_neg hne,hr,deductFees_none_cons]
        cases deductOne env to_reduce n fFirst recipient txout with
        | error e => rfl
        | ok paid =>
          cases deductFees env to_reduce n none 0
            (fFirst && !recipient.fSubtractFeeFromAmount) vecSend vout with
          | error e => rfl
          | ok rest => rfl

theorem deductFees_insertChange (change : CTxOut) (vecSend : List CRecipient) {position : Option Nat}
    (hf : Fits vecSend.length position) :
    deductFees env to_reduce n position 0 true vecSend (insertChange (vecSend.map txout) change position) =
      (deductFees env to_reduce n none 0 true vecSend (vecSend.map txout)).map
        fun paid => insertChange paid change position := by
  cases position with
  | none =>
    cases hp : deductFees env to_reduce n none 0 true vecSend (vecSend.map txout) with
    | error e => exact hp
    | ok paid => exact hp
  | some p =>
    have hlen : vecSend.length = (vecSend.map txout).length := (length_map _).symm
    have hi := deductFees_insertIdx env to_reduce n change hlen (hlen ▸ hf p rfl) 0 true
    rw [zero_add] at hi
    exact hi

/-- What the fee payers of a list pay: a share each, and the first one the remainder. -/
def totalShares (fFirst : Bool) (vecSend : List CRecipient) : Int :=
  outputsToSubtractFeeFrom vecSend * to_reduce.tdiv n +
    if fFirst && subtractsFee vecSend then to_reduce.tmod n else 0

theorem deductFees_yields (fFirst : Bool) (vecSend : List CRecipient) :
    Yields IsReported
      (deductFees env to_reduce n none 0 fFirst vecSend (vecSend.map txout)) fun paid =>
        List.Forall₂ Pays vecSend paid ∧ deducted vecSend paid = totalShares to_reduce n fFirst vecSend := by
  induction vecSend generalizing fFirst with
  | nil => exact ⟨.nil,by simp [deducted,totalShares,outputsToSubtractFeeFrom,subtractsFee]⟩
  | cons recipient vecSend ih =>
    rw [map_cons,deductFees_none_cons]
    cases hp : recipient.fSubtractFeeFromAmount with
    | true =>
      have hone : Yields IsReported (deductOne env to_reduce n fFirst recipient recipient.txout)
          (· = { recipient.txout with
            nValue := recipient.nAmount - feeShare to_reduce n fFirst }) := by
        rw [deductOne,if_pos hp]
        exact (Yields.check fun _ => ⟨_,rfl⟩).bind fun _ _ => rfl
      apply hone.bind
      rintro paid rfl
      apply (ih (fFirst && !true)).bind
      rintro rest ⟨hr,hded⟩
      refine ⟨.cons ⟨rfl,fun h => by rw [hp] at h; cases h⟩ hr,?_⟩
      have hs : deduction recipient { recipient.txout with
          nValue := recipient.nAmount - feeShare to_reduce n fFirst } =
          feeShare to_reduce n fFirst := by
        rw [deduction,if_pos hp]
        dsimp only
        omega
      rw [deducted,zipWith_cons_cons,sum_cons,hs,← deducted,hded]
      simp only [totalShares,outputsToSubtractFeeFrom,subtractsFee,feeShare,countP_cons,
        any_cons,hp,Bool.not_true,Bool.and_false,Bool.false_and,Bool.true_or,
        Bool.and_true]
      push_cast
      rw [add_mul]
      omega
    | false =>
      have hone : Yields IsReported (deductOne env to_reduce n fFirst recipient recipient.txout)
          (· = recipient.txout) := by
        rw [deductOne,if_neg (by simp [hp])]
        rfl
      apply hone.bind
      rintro paid rfl
      apply (ih (fFirst && !false)).bind
      rintro rest ⟨hr,hded⟩
      refine ⟨.cons ⟨rfl,fun _ => rfl⟩ hr,?_⟩
      simp only [deducted,deduction,totalShares,outputsToSubtractFeeFrom,subtractsFee,
        zipWith_cons_cons,sum_cons,countP_cons,any_cons,hp,
        Bool.false_eq_true,if_false,Bool.not_false,Bool.and_true,zero_add] at hded ⊢
      exact hded
end Deduction

section Drafts
variable (vecSend : List CRecipient)
theorem one_le_min_viable_change : 1 ≤ env.min_viable_change := by
  have hnn : ∀ size, 0 ≤ env.m_discard_feerate.getFee size :=
    fun size => CFeeRate.getFee_nonneg env.discard_nonneg size
  exact le_max_of_le_left (by have := hnn (if env.change_spend_size = -1 then
    dummyNestedP2wpkhInputSize else env.change_spend_size.toNat); omega)

theorem getChange_eq_zero_or_pos (result : SelectionResult) (change_fee : Int) :
    result.getChange env.min_viable_change change_fee = 0 ∨
      0 < result.getChange env.min_viable_change change_fee := by
  have hv := one_le_min_viable_change env
  unfold getChange
  generalize (if result.m_use_effective then
    result.getSelectedEffectiveValue - result.m_target - change_fee
    else result.getSelectedValue - result.m_target) = change
  dsimp only
  split
  · exact .inl rfl
  · exact .inr (by omega)

/-- A transaction with its inputs and outputs, before its fee is settled. -/
structure IsDraft (draft : Draft) : Prop where
  selected : env.selectCoins (subtractsFee vecSend) (selectionTarget env vecSend) = some draft.result
  change_eq : draft.change_amount = draft.result.getChange env.min_viable_change env.m_change_fee
  isSome_iff : draft.nChangePosInOut.isSome = true ↔ 0 < draft.change_amount
  fits : Fits vecSend.length draft.nChangePosInOut
  coins : draft.selected_coins.Perm draft.result.m_selected_inputs.elems
  vout_eq : draft.vout = insertChange (vecSend.map CRecipient.txout)
    ⟨draft.change_amount, env.scriptChange⟩ draft.nChangePosInOut
  size_eq : env.signedTxSize draft.selected_coins draft.vout = some draft.nBytes
end Drafts

/-- The inputs are worth the outputs and the fee; those that pay for the fee pay what the inputs leave
uncovered. -/
structure IsConserved (env : CreateEnv) (vecSend : List CRecipient) (result : SelectionResult)
    (coins : List COutput) (created : CreatedTransactionResult) : Prop where
  selected : env.selectCoins (subtractsFee vecSend) (selectionTarget env vecSend) = some result
  perm : coins.Perm result.m_selected_inputs.elems
  inputs : created.tx.prevouts = coins.map COutput.outpoint
  balance : result.getSelectedValue = valueOf created.tx.vout + created.fee
  recipients : List.Forall₂ Pays vecSend (removeChange created.tx.vout created.change_pos)
  deductions : subtractsFee vecSend = true →
    ∃ nBytes, env.signedTxSize coins created.tx.vout = some nBytes ∧
      created.fee = env.m_effective_feerate.getFee nBytes ∧
      deducted vecSend (removeChange created.tx.vout created.change_pos) =
        created.fee - (result.getSelectedValue - recipientsSum vecSend -
          changeValue created.tx.vout created.change_pos)
namespace IsDraft
variable {env : CreateEnv} {draft : Draft} (h : IsDraft env vecSend draft)
include h

theorem fits_map : Fits (vecSend.map txout).length draft.nChangePosInOut := by
  rw [length_map]
  exact h.fits

theorem change_amount_eq : (if draft.nChangePosInOut.isSome then draft.change_amount else 0) =
    draft.change_amount := by
  split
  · rfl
  next hn =>
    rw [h.isSome_iff] at hn
    have hz := getChange_eq_zero_or_pos env draft.result env.m_change_fee
    rw [← h.change_eq] at hz
    omega

theorem balanced_eq : ∃ change, change.scriptPubKey = env.scriptChange ∧
    (draft.balanced env vecSend).1 = insertChange (vecSend.map txout) change draft.nChangePosInOut ∧
    (if draft.nChangePosInOut.isSome then change.nValue else 0) + (draft.balanced env vecSend).2 =
      draft.result.getSelectedValue - recipientsSum vecSend := by
  have hamt := h.change_amount_eq
  unfold Draft.balanced
  split
  next hr =>
    have hs : draft.nChangePosInOut.isSome = true := by
      rw [Draft.raises,Bool.and_eq_true] at hr
      exact hr.1
    refine ⟨⟨draft.change_amount + (draft.nFeeRet vecSend - draft.feeNeeded env),env.scriptChange⟩,rfl,?_,?_⟩
    · rw [h.vout_eq]
      exact raiseChange_insertChange h.fits_map _ _
    · rw [if_pos hs]
      dsimp only
      unfold Draft.nFeeRet
      omega
  · refine ⟨⟨draft.change_amount,env.scriptChange⟩,rfl,h.vout_eq,?_⟩
    dsimp only
    unfold Draft.nFeeRet
    omega
variable {change : CTxOut}
section
variable (hp : List.Forall₂ Pays vecSend paid) (hchg : change.scriptPubKey = env.scriptChange)
include hp hchg

theorem size_of_paid :
    env.signedTxSize draft.selected_coins (insertChange paid change draft.nChangePosInOut) =
      some draft.nBytes := by
  have hs : (insertChange paid change draft.nChangePosInOut).map CTxOut.scriptPubKey =
      (insertChange (vecSend.map txout) ⟨draft.change_amount,env.scriptChange⟩
        draft.nChangePosInOut).map CTxOut.scriptPubKey :=
    scripts_insertChange draft.nChangePosInOut (scripts_paid hp) hchg
  have hsi := h.size_eq
  rw [h.vout_eq] at hsi
  unfold CreateEnv.signedTxSize at hsi ⊢
  rw [vectorSize_of_scripts hs]
  exact hsi

/-- Outputs that pay the recipients and the change, with a fee that makes up the balance. -/
theorem conserved_of_paid {fee : Int}
    (hb : draft.result.getSelectedValue = recipientsSum vecSend - deducted vecSend paid +
      (if draft.nChangePosInOut.isSome then change.nValue else 0) + fee)
    (hfee : subtractsFee vecSend = true → fee = draft.feeNeeded env) :
    IsConserved env vecSend draft.result draft.selected_coins
      ⟨draft.toTransaction env (insertChange paid change draft.nChangePosInOut), fee,
        draft.nChangePosInOut⟩ := by
  have hf : Fits paid.length draft.nChangePosInOut := by
    rw [← hp.length_eq]
    exact h.fits
  have hval : valueOf (insertChange paid change draft.nChangePosInOut) =
      recipientsSum vecSend - deducted vecSend paid +
        if draft.nChangePosInOut.isSome then change.nValue else 0 := by
    rw [valueOf_insertChange hf,valueOf_paid hp]
  have hrem := removeChange_insertChange paid draft.nChangePosInOut change
  have hc := changeValue_insertChange change hf
  exact {
    selected := h.selected
    perm := h.coins
    inputs := by simp [CTransaction.prevouts,Draft.toTransaction]
    balance := by
      show _ = valueOf (insertChange paid change draft.nChangePosInOut) + fee
      rw [hval]
      exact hb
    recipients := by
      show List.Forall₂ Pays vecSend
        (removeChange (insertChange paid change draft.nChangePosInOut) draft.nChangePosInOut)
      rw [hrem]
      exact hp
    deductions := fun hsub => by
      refine ⟨draft.nBytes,h.size_of_paid hp hchg,hfee hsub,?_⟩
      show deducted vecSend (removeChange (insertChange paid change draft.nChangePosInOut)
        draft.nChangePosInOut) = fee - (draft.result.getSelectedValue - recipientsSum vecSend -
          changeValue (insertChange paid change draft.nChangePosInOut) draft.nChangePosInOut)
      rw [hrem]
      omega }
end

section
variable (hcov : subtractsFee vecSend = true ∨ draft.feeNeeded env ≤ draft.nFeeRet vecSend)
include hcov

theorem settle_yields :
    Yields IsReported (draft.settle env vecSend) fun settled =>
      IsConserved env vecSend draft.result draft.selected_coins
        ⟨draft.toTransaction env settled.1, settled.2, draft.nChangePosInOut⟩ := by
  obtain ⟨change,hchg,hv,hsum⟩ := h.balanced_eq
  rw [Draft.settle,require,if_pos hcov]
  dsimp only
  rw [hv]
  split
  next hsub =>
    rw [deductFees_insertChange env _ _ change vecSend h.fits]
    have hpa := deductFees_yields env (draft.feeNeeded env - (draft.balanced env vecSend).2)
      (outputsToSubtractFeeFrom vecSend) true vecSend
    cases hpi : deductFees env (draft.feeNeeded env - (draft.balanced env vecSend).2)
        (outputsToSubtractFeeFrom vecSend) none 0 true vecSend (vecSend.map txout) with
    | error e =>
      rw [hpi] at hpa
      exact hpa
    | ok paid =>
      rw [hpi] at hpa
      obtain ⟨hp,hded⟩ := hpa
      rw [totalShares,hsub,Bool.and_self,if_pos rfl,mul_tdiv_add_tmod] at hded
      exact h.conserved_of_paid hp hchg (by omega) fun _ => rfl
  next hnot =>
    have hpa : List.Forall₂ Pays vecSend (vecSend.map txout) := by
      rw [forall₂_map_right_iff]
      exact forall₂_same.mpr fun recipient _ => ⟨rfl,fun _ => rfl⟩
    have hval := valueOf_paid hpa
    rw [valueOf,map_map] at hval
    change recipientsSum vecSend = _ at hval
    have hb : draft.result.getSelectedValue = recipientsSum vecSend - deducted vecSend (vecSend.map txout) +
        (if draft.nChangePosInOut.isSome then change.nValue else 0) +
        (draft.balanced env vecSend).2 := by
      omega
    have hc := h.conserved_of_paid hpa hchg hb fun hsub => absurd hsub hnot
    rw [← hv] at hc
    exact hc

theorem finish_yields :
    Yields IsReported (draft.finish env vecSend)
      (IsConserved env vecSend draft.result draft.selected_coins) := by
  apply (h.settle_yields hcov).bind
  intro settled hsettled
  have hc : ∀ c [Decidable c] (message : String),
      Yields IsReported (require c (.failed message)) fun _ => True :=
    fun c _ message => (Yields.check fun _ => ⟨message,rfl⟩).mono fun _ _ => trivial
  iterate 5
    apply (hc _ _).bind
    intro _ _
  exact hsettled
end
end IsDraft
end Lcryp
