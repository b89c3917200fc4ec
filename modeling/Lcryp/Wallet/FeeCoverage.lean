import Lcryp.Wallet.Conservation

/-!
# Whether the estimated fees cover the transaction

Fees are estimated from ten bytes besides the outputs and rounded part by part before the inputs are
known.
-/
namespace Lcryp
open SelectionResult List CFeeRate COutput
/-- A selection as `SelectCoins` gives it: it reaches its target, and its coins carry the fees of their
inputs at the effective rate. -/
structure IsSelection (env : CreateEnv) (vecSend : List CRecipient) (result : SelectionResult) : Prop where
  target_eq : result.m_target = selectionTarget env vecSend
  effective : result.m_use_effective = !subtractsFee vecSend
  reaches : selectionTarget env vecSend ≤ result.selectedAmount (subtractsFee vecSend)
  fee_eq : ∀ coin ∈ result.m_selected_inputs.elems,
    coin.fee = inputFee CFeeRate.getFee env.m_effective_feerate coin.input_bytes

variable (env : CreateEnv) (vecSend : List CRecipient) (result : SelectionResult)

/-- What `SelectCoins` gives is a selection. -/
abbrev GivesSelection : Prop :=
  ∀ result ∈ env.selectCoins (subtractsFee vecSend) (selectionTarget env vecSend), IsSelection env vecSend result

/-- What the selection has over the target pays for a change output that is worth it. -/
def makesChange : Bool :=
  decide (env.min_viable_change ≤ result.selectedAmount (subtractsFee vecSend) - selectionTarget env vecSend -
    if subtractsFee vecSend then 0 else env.m_change_fee)

/-- Nothing is refused before the fee is settled. -/
structure ReachesFee (change_pos : Int) : Prop where
  rate : ∀ feerate ∈ env.requested_feerate, ¬ env.m_effective_feerate.nRypsPerK > feerate.nRypsPerK
  fallback : env.fallbackDisabled = false
  dust : (vecSend.any fun r => isDust r.txout env.relayDustFee) = false
  selected : env.selectCoins (subtractsFee vecSend) (selectionTarget env vecSend) = some result
  position : makesChange env vecSend result = true → change_pos = -1 ∨
    (change_pos % 0x100000000).toNat ≤ vecSend.length
  sizes : ∀ coin ∈ result.m_selected_inputs.elems, 0 ≤ coin.input_bytes

def signedSize : Nat :=
  8 + (if result.m_selected_inputs.elems.any env.hasWitness then 1 else 0) +
    vectorSize (fun coin : COutput => coin.input_bytes.toNat) result.m_selected_inputs.elems +
    vectorSize CTxOut.size (vecSend.map CRecipient.txout ++
      if makesChange env vecSend result then [⟨0, env.scriptChange⟩] else [])

/-- The fees of every input, of the recipients' outputs with ten bytes, and of the change or the surplus
without it. -/
def partFees : Int :=
  (result.m_selected_inputs.elems.map fun coin =>
    env.m_effective_feerate.getFee coin.input_bytes.toNat).sum +
  env.m_effective_feerate.getFee (txNoinputsSize vecSend) +
  if makesChange env vecSend result then env.m_change_fee
  else result.selectedAmount (subtractsFee vecSend) - selectionTarget env vecSend

/-- The fee of the whole is within those of its parts. -/
abbrev PartsCover : Prop := env.m_effective_feerate.getFee (signedSize env vecSend result) ≤ partFees env vecSend result

/-- An error that is reported before the fee is settled. -/
def Refused (change_pos : Int) (e : CreateFault) : Prop :=
  IsReported e ∧ ∀ result, ¬ ReachesFee env vecSend result change_pos

theorem getSelectedValue_eq :
    result.getSelectedValue = result.getSelectedEffectiveValue + result.m_selected_inputs.total fee := by
  rw [getSelectedValue,getSelectedEffectiveValue,KeyedSet.total,KeyedSet.total,KeyedSet.total,← sum_map_add]
  congr 1
  apply map_congr_left
  intro coin _
  rw [getEffectiveValue]
  omega

theorem orFail_yields {α : Type} {allowed : CreateFault → Prop} {x : Option α} {message : String}
    (h : x = none → allowed (.failed message)) : Yields allowed (orFail x message) fun a => x = some a := by
  cases x with
  | none => exact h rfl
  | some a => rfl

theorem vectorSize_perm {α : Type} {l l' : List α} (size : α → Nat) (h : l.Perm l') :
    vectorSize size l = vectorSize size l' := by
  rw [vectorSize,h.length_eq,(h.map size).sum_eq,vectorSize]

section Covered
variable {env : CreateEnv} {vecSend : List CRecipient} {result : SelectionResult} {change_pos : Int}
theorem IsSelection.getChange_eq (hsel : IsSelection env vecSend result) :
    result.getChange env.min_viable_change env.m_change_fee =
      if makesChange env vecSend result then
        result.selectedAmount (subtractsFee vecSend) - selectionTarget env vecSend -
          if subtractsFee vecSend then 0 else env.m_change_fee
      else 0 := by
  rw [SelectionResult.getChange_eq result hsel.effective,hsel.target_eq]
  simp only [makesChange,decide_eq_true_eq]
  split_ifs <;> omega

theorem IsSelection.getChange_pos_iff (hsel : IsSelection env vecSend result) :
    0 < result.getChange env.min_viable_change env.m_change_fee ↔ makesChange env vecSend result = true := by
  have hone := one_le_min_viable_change env
  rw [hsel.getChange_eq]
  split
  next hmake =>
    have hle := of_decide_eq_true hmake
    exact iff_of_true (by omega) hmake
  next hmake => exact iff_of_false (lt_irrefl 0) hmake

theorem checkFeeRate_yields : Yields (Refused env vecSend change_pos) env.checkFeeRate fun _ =>
    (∀ feerate ∈ env.requested_feerate, ¬ env.m_effective_feerate.nRypsPerK > feerate.nRypsPerK) ∧
      env.fallbackDisabled = false := by
  have hlast : ∀ {message : String}, Yields (Refused env vecSend change_pos)
      (require (env.fallbackDisabled = false) (.failed message)) fun _ => env.fallbackDisabled = false :=
    Yields.check fun hno => ⟨⟨_,rfl⟩,fun _ hreach => hno hreach.fallback⟩
  unfold CreateEnv.checkFeeRate
  cases hrate : env.requested_feerate with
  | none => exact hlast.mono fun _ hfallback => ⟨nofun,hfallback⟩
  | some feerate =>
    refine (Yields.check fun hno => ⟨⟨_,rfl⟩,fun _ hreach => hno (hreach.rate feerate hrate)⟩).bind fun _ hle =>
      hlast.mono fun _ hfallback => ⟨?_,hfallback⟩
    rintro _ ⟨rfl⟩
    exact hle

theorem changePosition_ensures {allowed : CreateFault → Prop} (outputs : Nat) (change_amount : Int)
    (h : ¬ (0 < change_amount → change_pos = -1 ∨ (change_pos % 0x100000000).toNat ≤ outputs) →
      ∀ message, allowed (.failed message)) :
    Ensures allowed (changePosition change_pos outputs change_amount) fun position =>
      (position.isSome = true ↔ 0 < change_amount) ∧ Fits outputs position ∧
        (0 < change_amount → change_pos = -1 ∨ (change_pos % 0x100000000).toNat ≤ outputs) := by
  unfold changePosition
  split
  next hchg =>
    split
    next hpos =>
      apply (Ensures.drawBelow _ (Nat.succ_pos outputs)).bind
      intro p hp
      refine .pure ⟨by simpa using hchg,fun q hq => ?_,fun _ => .inl hpos⟩
      cases hq
      exact Nat.le_of_lt_succ hp
    next hpos =>
      split
      next hfar => exact .lift (h (by omega) _)
      next hi =>
        refine .pure ⟨by simpa using hchg,fun q hq => ?_,fun _ => .inr (Nat.le_of_not_gt hi)⟩
        cases hq
        exact Nat.le_of_not_gt hi
  next hn => exact .pure ⟨by simpa using hn,nofun,fun hchg => absurd hchg hn⟩

/-- There is a draft exactly if nothing is refused. -/
theorem draftTransaction_ensures (hselection : GivesSelection env vecSend) :
    Ensures (Refused env vecSend change_pos) (draftTransaction env vecSend change_pos) fun draft =>
      IsDraft env vecSend draft ∧ ReachesFee env vecSend draft.result change_pos := by
  apply (Ensures.lift checkFeeRate_yields).bind
  rintro _ ⟨hrate,hfallback⟩
  apply (Ensures.lift (Yields.check fun hno => ⟨⟨_,rfl⟩,fun _ hreach => hno hreach.dust⟩)).bind
  intro _ hdust
  apply (Ensures.lift (orFail_yields fun hnone => ⟨⟨_,rfl⟩,fun _ hreach => by
    rw [hreach.selected] at hnone
    cases hnone⟩)).bind
  intro result hres
  have hiff := (hselection result hres).getChange_pos_iff
  have hsame {other : SelectionResult} (hreach : ReachesFee env vecSend other change_pos) : other = result :=
    Option.some.inj (hreach.selected.symm.trans hres)
  apply (changePosition_ensures _ _ fun hno _ => ⟨⟨_,rfl⟩,fun other hreach => by
    cases hsame hreach
    exact hno fun hchg => hreach.position (hiff.mp hchg)⟩).bind
  rintro position ⟨hs,hf,hpos⟩
  apply (shuffle_perm _).bind
  intro coins hc
  have hall : (coins.all fun coin => decide (0 ≤ coin.input_bytes)) = true ↔
      ∀ coin ∈ result.m_selected_inputs.elems, 0 ≤ coin.input_bytes := by
    simp [hc.mem_iff]
  apply (Ensures.lift (orFail_yields fun hnone => ⟨⟨_,rfl⟩,fun other hreach => by
    cases hsame hreach
    rw [CreateEnv.signedTxSize,if_pos (hall.mpr hreach.sizes)] at hnone
    cases hnone⟩)).bind
  intro nBytes hsi
  have hsizes := hsi
  rw [CreateEnv.signedTxSize,Option.ite_none_right_eq_some,hall] at hsizes
  exact .pure ⟨⟨hres,rfl,hs,hf,hc,rfl,hsi⟩,hrate,hfallback,hdust,hres,fun hmake => hpos (hiff.mpr hmake),
    hsizes.1⟩

variable {draft : Draft} (h : IsDraft env vecSend draft) (hsel : IsSelection env vecSend draft.result)
include h hsel

theorem IsDraft.isSome_eq : draft.nChangePosInOut.isSome = makesChange env vecSend draft.result := by
  rw [Bool.eq_iff_iff,h.isSome_iff,h.change_eq,hsel.getChange_pos_iff]

theorem IsDraft.nBytes_eq : draft.nBytes = signedSize env vecSend draft.result := by
  have hs := h.size_eq
  rw [CreateEnv.signedTxSize,Option.ite_none_right_eq_some,Option.some.injEq] at hs
  rw [← hs.2,signedSize,vectorSize_perm _ h.coins,h.coins.any_eq,← h.isSome_eq hsel,h.vout_eq]
  congr 1
  cases hpos : draft.nChangePosInOut with
  | none => simp [insertChange]
  | some p =>
    have hperm := perm_insertIdx (⟨draft.change_amount,env.scriptChange⟩ : CTxOut) (vecSend.map CRecipient.txout)
      (h.fits_map p hpos)
    rw [insertChange,vectorSize_perm _ (hperm.trans (perm_append_singleton _ _).symm)]
    apply vectorSize_of_scripts
    simp

omit h in
theorem IsSelection.total_fee (hreach : ReachesFee env vecSend draft.result change_pos) :
    draft.result.m_selected_inputs.total fee = (draft.result.m_selected_inputs.elems.map fun coin =>
      env.m_effective_feerate.getFee coin.input_bytes.toNat).sum := by
  rw [KeyedSet.total]
  congr 1
  apply map_congr_left
  intro coin hc
  have hk := hreach.sizes coin hc
  rw [hsel.fee_eq coin hc,inputFee,if_neg (by omega)]

/-- What the inputs leave for the fee is what the parts were estimated at. -/
theorem IsDraft.nFeeRet_eq (hreach : ReachesFee env vecSend draft.result change_pos)
    (hsub : subtractsFee vecSend = false) : draft.nFeeRet vecSend = partFees env vecSend draft.result := by
  have hamt : draft.result.selectedAmount (subtractsFee vecSend) = draft.result.getSelectedEffectiveValue := by
    rw [hsub]
    rfl
  have hchg := h.change_eq.trans hsel.getChange_eq
  have htgt : selectionTarget env vecSend =
      recipientsSum vecSend + env.m_effective_feerate.getFee (txNoinputsSize vecSend) := rfl
  rw [Draft.nFeeRet,partFees,getSelectedValue_eq,hsel.total_fee hreach]
  split_ifs at hchg ⊢ with hmake hyes
  · simp [hsub] at hyes
  · omega
  · omega
end Covered

/-- The outcome of a call: the assertion holds, and a transaction that is made conserves value. -/
def CreatesConserved (outcome : Except CreateFault (CreatedTransactionResult × (Nat → Nat))) : Prop :=
  Yields IsReported outcome fun r => ∃ result coins, IsConserved env vecSend result coins r.1

variable {vecSend : List CRecipient} {env : CreateEnv} {result : SelectionResult}
/-- With at most 252 inputs, and no prefix that the change makes longer, the parts cover the whole. -/
theorem IsSelection.fee_le_partFees (hsel : IsSelection env vecSend result)
    (hsub : subtractsFee vecSend = false) (hi : result.m_selected_inputs.elems.length < 253)
    (ho : makesChange env vecSend result = true →
      sizeOfCompactSize (vecSend.length+1) = sizeOfCompactSize vecSend.length) :
    PartsCover env vecSend result := by
  have hr := env.effective_nonneg
  -- The three parts whose fees were estimated make up the whole.
  have hb : signedSize env vecSend result ≤
      (result.m_selected_inputs.elems.map fun coin => coin.input_bytes.toNat).sum +
        (txNoinputsSize vecSend + if makesChange env vecSend result then env.changeOutputSize else 0) := by
    have hwit : (if result.m_selected_inputs.elems.any env.hasWitness then 1 else 0) ≤ 1 := by split <;> omega
    rw [signedSize,txNoinputsSize,hsub,vectorSize,sizeOfCompactSize,if_pos hi]
    cases hmake : makesChange env vecSend result with
    | false =>
      simp only [Bool.false_eq_true,if_false,append_nil]
      omega
    | true =>
      have hprefix := ho hmake
      have hsize : env.changeOutputSize = (CTxOut.mk 0 env.scriptChange).size := rfl
      simp only [if_true,Bool.false_eq_true,if_false,vectorSize,length_append,length_map,length_singleton,
        map_append,sum_append,map_singleton,sum_singleton]
      omega
  have hrc := hsel.reaches
  have hin := getFee_sum_le hr (result.m_selected_inputs.elems.map fun coin => coin.input_bytes.toNat)
  have hchg : env.m_effective_feerate.getFee
        (if makesChange env vecSend result then env.changeOutputSize else 0) ≤
      if makesChange env vecSend result then env.m_change_fee
      else result.selectedAmount (subtractsFee vecSend) - selectionTarget env vecSend := by
    split
    · exact le_rfl
    · rw [getFee_eq hr]
      omega
  rw [map_map] at hin
  calc env.m_effective_feerate.getFee (signedSize env vecSend result) ≤ _ := getFee_mono hr hb
    _ ≤ _ := getFee_add_le hr _ _
    _ ≤ _ := Int.add_le_add hin ((getFee_add_le hr _ _).trans (Int.add_le_add_left hchg _))
    _ = _ := (Int.add_assoc _ _ _).symm

def smallCoin (n : Nat) : COutput where
  outpoint := ⟨1#256, n⟩
  txout := ⟨100, []⟩
  depth := 10
  input_bytes := 68
  spendable := true
  from_me := true
  fee := 68
  long_term_fee := 0

variable (n : Nat)
theorem smallCoins_distinct : (((range n).map smallCoin).map outpoint).Nodup := by
  rw [map_map]
  apply List.Nodup.map _ nodup_range
  intro i j hij
  exact congrArg COutPoint.n hij

def smallCoins (n : Nat) (target : Int) : SelectionResult where
  m_selected_inputs := ⟨(List.range n).map smallCoin, smallCoins_distinct n⟩
  m_target := target
  m_algo := .knapsack
  m_use_effective := true
  m_waste := some 0

def smallWallet (n : Nat) : CreateEnv where
  m_effective_feerate := ⟨1000⟩
  requested_feerate := none
  fallbackDisabled := false
  m_discard_feerate := ⟨1000⟩
  relayDustFee := ⟨1000⟩
  changeDestination := .ok (0::20::List.replicate 20 0)
  change_spend_size := 68
  selectCoins _ target := some (smallCoins n target)
  hasWitness _ := false
  nSequence := 0xfffffffd#32
  nLockTime := 0#32
  signs _ := true
  isTooLarge _ := false
  m_default_max_tx_fee := 10000000
  keepsChainLimits _ := true
  effective_nonneg := by decide
  discard_nonneg := by decide

def payment (nAmount : Int) : List CRecipient := [⟨0::20::List.replicate 20 1, nAmount, false⟩]
theorem selectedAmount_smallCoins (target : Int) : (smallCoins n target).selectedAmount false = 32 * n := by
  have hc : ∀ i, selectionAmount false (smallCoin i) = 32 := fun _ => rfl
  simp [selectedAmount,KeyedSet.total,smallCoins,Function.comp_def,hc]
  omega

theorem selectionTarget_payment (nAmount : Int) :
    selectionTarget (smallWallet n) (payment nAmount) = nAmount + 42 := by
  have hsum : recipientsSum (payment nAmount) = nAmount := by simp [recipientsSum,payment]
  have hfee : (mk 1000).getFee 42 = 42 := by decide
  rw [selectionTarget,hsum]
  exact congrArg _ hfee

theorem smallWallet_selects {n : Nat} {nAmount : Int} (h : nAmount + 42 ≤ 32 * n) :
    GivesSelection (smallWallet n) (payment nAmount) := by
  rintro result ⟨⟩
  refine ⟨rfl,rfl,?_,?_⟩
  · rw [selectionTarget_payment]
    exact h.trans_eq (selectedAmount_smallCoins n _).symm
  · intro coin hcoin
    obtain ⟨i,-,rfl⟩ := mem_map.mp hcoin
    have hfee : (mk 1000).getFee 68 = 68 := by decide
    exact hfee.symm

def faultOf {ε α : Type} : Except ε α → Option ε
  | .ok _ => none
  | .error e => some e

theorem not_conserved_of_assertion {outcome : Except CreateFault (CreatedTransactionResult × (Nat → Nat))}
    (h : faultOf outcome = some .assertion) : ¬ CreatesConserved env vecSend outcome := by
  intro hc
  cases outcome with
  | ok r => cases h
  | error e =>
    cases h
    obtain ⟨message,hm⟩ := hc
    cases hm

end Lcryp
