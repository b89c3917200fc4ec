import Lcryp.Wallet.Attempts

/-!
# `SelectCoins` and its target

The preset inputs are subtracted from the target, erased from the available coins and merged back as a
set.
-/
namespace Lcryp
open SelectionResult OutputGroup CoinsResult KeyedSet COutput
theorem succeeds_some_iff {P : SelectionResult → Prop} (x : Except MemoryFault SelectionResult) :
    Succeeds (x >>= fun result => pure (some result)) (fun selected => ∀ r ∈ selected, P r) ↔ Succeeds x P := by
  cases x with
  | error e => exact Iff.rfl
  | ok result =>
    constructor
    · intro hall
      exact hall result rfl
    · rintro hres r ⟨⟩
      exact hres
variable {preset_inputs : OutputGroup} (env : WalletEnv)
section Presets
variable (coin_control : CCoinControl) (params : CoinSelectionParams)
variable (getFee : GetFee) (group : OutputGroup) (output : COutput) (ancestors descendants : Nat)

theorem getSelectionAmount_insert :
    (group.insert getFee output ancestors descendants false).getSelectionAmount =
      group.getSelectionAmount + output.selectionAmount group.m_subtract_fee_outputs := by
  have hsub := insert_subtract getFee group output ancestors descendants false
  unfold getSelectionAmount selectionAmount
  rw [hsub]
  split
  · rfl
  · rfl

theorem OutputGroup.insert_outpoints_eq :
    (group.insert getFee output ancestors descendants false).m_outputs.map outpoint =
      group.m_outputs.map outpoint++[output.outpoint] := by
  simp [insert,push]

theorem presetCoin_outpoint {outpoint : COutPoint} {output : COutput}
    (h : presetCoin env coin_control params outpoint = some output) : output.outpoint = outpoint := by
  obtain ⟨known,-,h⟩ := Option.bind_eq_some_iff.mp h
  dsimp only at h
  split at h
  · cases h
  · cases h
    rfl

theorem addPresets_eq_some {outpoints : List COutPoint} {value rest : Int} {group preset : OutputGroup}
    (hgrp : group.m_subtract_fee_outputs = params.m_subtract_fee_outputs)
    (h : addPresets env coin_control params outpoints value group = some (rest, preset)) :
    preset.m_subtract_fee_outputs = params.m_subtract_fee_outputs ∧
      preset.m_outputs.map outpoint = group.m_outputs.map outpoint++outpoints ∧
      rest + preset.getSelectionAmount = value + group.getSelectionAmount := by
  induction outpoints generalizing value group with
  | nil =>
    cases h
    exact ⟨hgrp,(List.append_nil _).symm,rfl⟩
  | cons outpoint outpoints ih =>
    obtain ⟨output,hout,h⟩ := Option.bind_eq_some_iff.mp h
    have hins := ih (by rw [insert_subtract,hgrp]) h
    rw [insert_outpoints_eq,getSelectionAmount_insert,hgrp,
      presetCoin_outpoint env coin_control params hout] at hins
    obtain ⟨hsub,ho,hamt⟩ := hins
    refine ⟨hsub,?_,by omega⟩
    rw [ho,List.append_assoc,List.singleton_append]

/-- The preset inputs, each as the wallet or the coin control knows it; none if one of them is not known. -/
def presetCoins : List COutPoint → Option (List COutput) := List.mapM (presetCoin env coin_control params)

/-- What the preset inputs count for: their value, less the fee for spending them where that is charged. -/
def presetAmount (coins : List COutput) : Int := (coins.map (selectionAmount params.m_subtract_fee_outputs)).sum

theorem addPresets_eq (outpoints : List COutPoint) (value : Int) (group : OutputGroup) :
    (addPresets env coin_control params outpoints value group).map (fun presets => (presets.1, presets.2.m_value)) =
      (presetCoins env coin_control params outpoints).map fun coins =>
        (value - presetAmount params coins, group.m_value + (coins.map fun coin => coin.txout.nValue).sum) := by
  induction outpoints generalizing value group with
  | nil => simp [addPresets,presetCoins,presetAmount]
  | cons outpoint outpoints ih =>
    unfold presetCoins at ih ⊢
    rw [List.mapM_cons,addPresets]
    cases presetCoin env coin_control params outpoint with
    | none => rfl
    | some output =>
      show (addPresets env coin_control params outpoints _ _).map _ = _
      rw [ih]
      cases outpoints.mapM (presetCoin env coin_control params) with
      | none => rfl
      | some coins =>
        simp [OutputGroup.insert,OutputGroup.push,presetAmount]
        omega

/-- The preset inputs as `SelectCoins` has looked them up. -/
structure ArePresets (nTargetValue value_to_select : Int) (preset_inputs : OutputGroup) : Prop where
  subtract : preset_inputs.m_subtract_fee_outputs = params.m_subtract_fee_outputs
  outpoints : preset_inputs.m_outputs.map COutput.outpoint = coin_control.setSelected
  amount : value_to_select + preset_inputs.getSelectionAmount = nTargetValue

theorem addPresets_arePresets {nTargetValue value_to_select : Int}
    (h : addPresets env coin_control params coin_control.setSelected nTargetValue (.new params) =
      some (value_to_select, preset_inputs)) :
    ArePresets coin_control params nTargetValue value_to_select preset_inputs := by
  have hnew : (OutputGroup.new params).getSelectionAmount = 0 := by
    unfold getSelectionAmount
    split <;> rfl
  obtain ⟨hsub,ho,hamt⟩ := addPresets_eq_some env coin_control params rfl h
  exact ⟨hsub,by simpa [OutputGroup.new] using ho,by omega⟩
end Presets
section Merge
variable {coin_control : CCoinControl} {params : CoinSelectionParams} {nTargetValue value_to_select : Int}
    (h : ArePresets coin_control params nTargetValue value_to_select preset_inputs)

include h
namespace ArePresets
theorem nodup : (preset_inputs.m_outputs.map outpoint).Nodup := by
  rw [h.outpoints]
  exact coin_control.selected_distinct

theorem amount_eq : preset_inputs.getSelectionAmount =
    (preset_inputs.m_outputs.map (selectionAmount params.m_subtract_fee_outputs)).sum := by
  rw [← h.subtract]
  exact preset_inputs.getSelectionAmount_eq

theorem elems_addInput (target : Int) (algo : SelectionAlgorithm) :
    ((new target algo).addInput preset_inputs).m_selected_inputs.elems = preset_inputs.m_outputs :=
  elems_insertAll_of_nodup (s := empty) (by simpa using h.nodup)
end ArePresets

def reselectedAmount (subtract : Bool) (preset_inputs : OutputGroup) (res : SelectionResult) : Int :=
  ((preset_inputs.m_outputs.filter fun coin => decide (coin.outpoint ∈ res.outpoints)).map
    (selectionAmount subtract)).sum

/-- What `SelectCoins` is for: a result reaches the target and has every preset input. -/
def IsFunded (coin_control : CCoinControl) (params : CoinSelectionParams) (nTargetValue : Int)
    (result : SelectionResult) : Prop :=
  nTargetValue ≤ result.selectedAmount params.m_subtract_fee_outputs ∧
    ∀ outpoint ∈ coin_control.setSelected, outpoint ∈ result.outpoints

omit h in
theorem weigh_succeeds_iff (coin_control : CCoinControl) (htgt : 0 < nTargetValue) {result : SelectionResult}
    (heff : result.m_use_effective = !params.m_subtract_fee_outputs) (hres : result.m_target = nTargetValue) :
    Succeeds (weigh params result) (IsFunded coin_control params nTargetValue) ↔
      IsFunded coin_control params nTargetValue result := by
  by_cases hr : nTargetValue ≤ result.selectedAmount params.m_subtract_fee_outputs
  · have hne := elems_ne_nil_of_reaches htgt hr
    rw [weigh,computeAndSetWaste_eq_ok params.min_viable_change params.m_cost_of_change
      params.m_change_fee heff hne (hres ▸ hr) params.cost_of_change_nonneg]
    exact Iff.rfl
  · rw [weigh,computeAndSetWaste_fails params.min_viable_change params.m_cost_of_change
      params.m_change_fee heff params.change_fee_nonneg (by omega)]
    exact ⟨False.elim,fun hf => hr hf.1⟩

def mergedResult (preset_inputs : OutputGroup) (res : SelectionResult) : SelectionResult :=
  res.merge ((new preset_inputs.getSelectionAmount .manual).addInput preset_inputs)

theorem selectedAmount_mergedResult (res : SelectionResult) :
    (mergedResult preset_inputs res).selectedAmount params.m_subtract_fee_outputs =
      res.selectedAmount params.m_subtract_fee_outputs + preset_inputs.getSelectionAmount -
        reselectedAmount params.m_subtract_fee_outputs preset_inputs res := by
  have ht := total_insertAll (selectionAmount params.m_subtract_fee_outputs) res.m_selected_inputs h.nodup
  rw [selectedAmount,mergedResult,merge]
  rw [h.elems_addInput,ht,h.amount_eq]
  rfl

theorem mem_outpoints_mergedResult (res : SelectionResult) {outpoint : COutPoint}
    (ho : outpoint ∈ coin_control.setSelected) : outpoint ∈ (mergedResult preset_inputs res).outpoints := by
  rw [mergedResult,merge]
  rw [h.elems_addInput]
  apply key_mem_insertAll _ h.nodup
  rw [h.outpoints]
  exact ho

/-- Merging keeps the target if the inputs that are selected again are worth no more than the surplus. -/
theorem mergePresets_succeeds_iff (htgt : 0 < nTargetValue) {res : SelectionResult}
    (hres : res.m_target = value_to_select)
    (heff : res.m_use_effective = true → params.m_subtract_fee_outputs = false) :
    Succeeds (mergePresets params preset_inputs res) (IsFunded coin_control params nTargetValue) ↔
      reselectedAmount params.m_subtract_fee_outputs preset_inputs res ≤
        res.selectedAmount params.m_subtract_fee_outputs - value_to_select := by
  have hamt := selectedAmount_mergedResult h res
  have hsum := h.amount
  have hf : IsFunded coin_control params nTargetValue (mergedResult preset_inputs res) ↔
      reselectedAmount params.m_subtract_fee_outputs preset_inputs res ≤
        res.selectedAmount params.m_subtract_fee_outputs - value_to_select := by
    constructor
    · rintro ⟨hr,-⟩
      omega
    · intro hs
      exact ⟨by omega,fun o ho => mem_outpoints_mergedResult h res ho⟩
  have huse : (mergedResult preset_inputs res).m_use_effective = !params.m_subtract_fee_outputs := by
    show (res.m_use_effective || !preset_inputs.m_subtract_fee_outputs) = _
    rw [h.subtract]
    cases hb : res.m_use_effective with
    | false => rfl
    | true =>
      rw [heff hb]
      rfl
  have hm : (mergedResult preset_inputs res).m_target = nTargetValue := by
    show res.m_target + preset_inputs.getSelectionAmount = nTargetValue
    rw [hres,hsum]
  rw [← hf]
  show Succeeds (if (mergedResult preset_inputs res).m_algo = .manual then
      weigh params (mergedResult preset_inputs res) else .ok (mergedResult preset_inputs res)) _ ↔ _
  split
  · exact weigh_succeeds_iff coin_control htgt huse hm
  · exact Iff.rfl

theorem selectManually_succeeds_iff (htgt : 0 < nTargetValue) :
    Succeeds (selectManually nTargetValue params preset_inputs)
        (fun selected => ∀ result ∈ selected, IsFunded coin_control params nTargetValue result) ↔
      preset_inputs.m_value < nTargetValue ∨ nTargetValue ≤ preset_inputs.getSelectionAmount := by
  have he := h.elems_addInput nTargetValue .manual
  have hval : ((new nTargetValue .manual).addInput preset_inputs).getSelectedValue = preset_inputs.m_value := by
    rw [getSelectedValue,total,he,preset_inputs.value_eq]
  have hamt : ((new nTargetValue .manual).addInput preset_inputs).selectedAmount
      params.m_subtract_fee_outputs = preset_inputs.getSelectionAmount := by
    rw [selectedAmount,total,he,h.amount_eq]
  have hpre : ∀ o ∈ coin_control.setSelected,
      o ∈ ((new nTargetValue .manual).addInput preset_inputs).outpoints := by
    intro o ho
    rw [outpoints,he,h.outpoints]
    exact ho
  have huse : ((new nTargetValue .manual).addInput preset_inputs).m_use_effective =
      !params.m_subtract_fee_outputs := by
    rw [← h.subtract]
    rfl
  have hw := weigh_succeeds_iff coin_control htgt huse rfl
  have hf : IsFunded coin_control params nTargetValue ((new nTargetValue .manual).addInput preset_inputs) ↔
      nTargetValue ≤ preset_inputs.getSelectionAmount := by
    rw [IsFunded,hamt]
    exact and_iff_left hpre
  unfold selectManually
  dsimp only
  rw [hval]
  split
  · next hbel => exact ⟨fun _ => .inl hbel,fun _ r hr => by cases hr⟩
  next hen =>
    rw [succeeds_some_iff,hw,hf,or_iff_right hen]
end Merge

section Rest
variable (available_coins : CoinsResult) (coin_control : CCoinControl) (params : CoinSelectionParams)
theorem all_cons (it : OutputType × List COutput) (rest : CoinsResult) : all (it::rest) = it.2++all rest :=
  List.flatMap_cons

theorem all_erase_sublist (preset_coins : List COutPoint) (coins : CoinsResult) :
    (coins.erase preset_coins).all.Sublist coins.all := by
  induction coins with
  | nil => exact .refl _
  | cons it rest ih =>
    rw [erase]
    split
    · exact List.eraseP_sublist.append_right _
    · exact ih.append_left _

theorem CoinsResult.all_shuffle_perm (coins : CoinsResult) :
    Surely coins.shuffle fun shuffled => shuffled.all.Perm coins.all := by
  induction coins with
  | nil => exact .pure (.refl _)
  | cons it rest ih =>
    apply (shuffle_perm it.2).bind
    intro vec hvec
    apply ih.bind
    intro others hoths
    apply Ensures.pure
    exact hvec.append hoths

theorem remainingCoins_sublist :
    (remainingCoins available_coins coin_control).all.Sublist available_coins.all := by
  unfold remainingCoins
  split
  · exact all_erase_sublist _ _
  · exact .refl _

theorem shuffleMany_perm (coins : CoinsResult) :
    Surely (shuffleMany coin_control coins) fun shuffled => shuffled.all.Perm coins.all := by
  unfold shuffleMany
  split
  · exact coins.all_shuffle_perm
  · exact .pure (.refl _)

/-- A selection of the rest: nothing is selected if nothing is left, otherwise it funds the rest. -/
structure SelectsRest (value_to_select : Int) (res : SelectionResult) : Prop where
  target_eq : res.m_target = value_to_select
  effective : res.m_use_effective = true → params.m_subtract_fee_outputs = false
  reaches : value_to_select ≤ res.selectedAmount params.m_subtract_fee_outputs
  within : ∀ outpoint ∈ res.outpoints,
    outpoint ∈ (remainingCoins available_coins coin_control).all.map COutput.outpoint
  empty : value_to_select ≤ 0 → res.outpoints = []

variable {available_coins} in
theorem selectRest_surely (hd : (available_coins.all.map outpoint).Nodup) (value_to_select : Int) :
    Surely (selectRest env available_coins coin_control params value_to_select) fun selected =>
      ∀ res ∈ selected, SelectsRest available_coins coin_control params value_to_select res := by
  apply (shuffleMany_perm coin_control _).bind
  intro shuffled hshuf
  have hp := hshuf.map outpoint
  split
  next hn =>
    apply Ensures.pure
    rintro res ⟨⟩
    exact {
      target_eq := rfl
      effective := fun heff => by cases heff
      reaches := hn
      within := fun o ho => by cases ho
      empty := fun _ => rfl }
  next hpos =>
    have hnd : (shuffled.all.map outpoint).Nodup :=
      hp.nodup_iff.mpr (hd.sublist ((remainingCoins_sublist available_coins coin_control).map _))
    apply (firstSelection_surely env (by omega) params hnd _).mono
    intro selected hsel res hres
    have hf := (hsel res hres).funds
    exact {
      target_eq := hf.target_eq
      effective := fun heff => by simpa [hf.effective] using heff
      reaches := hf.reaches
      within := fun o ho => hp.subset (hf.within o ho)
      empty := fun hle => absurd hle hpos }
end Rest

theorem not_mem_of_mem_erase {preset_coins : List COutPoint} {coins : CoinsResult}
    (h : coins.all.countP (fun c => decide (c.outpoint ∈ preset_coins)) ≤ 1) :
    ∀ c ∈ (coins.erase preset_coins).all, c.outpoint ∉ preset_coins := by
  induction coins with
  | nil => exact fun c hc => by cases hc
  | cons it rest ih =>
    rw [all_cons,List.countP_append] at h
    rw [erase]
    split
    next hany =>
      obtain ⟨a,ha,hp⟩ := List.any_eq_true.mp hany
      obtain ⟨b,l₁,l₂,-,hb,heq,he⟩ := List.exists_of_eraseP
        (p := fun c => decide (c.outpoint ∈ preset_coins)) ha hp
      rw [heq,List.countP_append,List.countP_cons,if_pos hb] at h
      intro c hc
      rw [all_cons,he,List.mem_append,List.mem_append] at hc
      have hn : ∀ l : List COutput,
          l.countP (fun c => decide (c.outpoint ∈ preset_coins)) = 0 → c ∈ l → c.outpoint ∉ preset_coins := by
        intro l hl hcl
        simpa using List.countP_eq_zero.mp hl c hcl
      rcases hc with (hc | hc) | hc
      · exact hn l₁ (by omega) hc
      · exact hn l₂ (by omega) hc
      · exact hn _ (by omega) hc
    next hany =>
      intro c hc
      rw [all_cons,List.mem_append] at hc
      rcases hc with hc | hc
      · intro hp
        exact hany (List.any_eq_true.mpr ⟨c,hc,by simpa using hp⟩)
      · exact ih (by omega) c hc

/-- No preset input is selected again if the rest is empty or at most one was among the available coins. -/
theorem SelectsRest.reselectedAmount_eq_zero {available_coins : CoinsResult} {coin_control : CCoinControl}
    {params : CoinSelectionParams} {nTargetValue value_to_select : Int} {res : SelectionResult}
    (hres : SelectsRest available_coins coin_control params value_to_select res)
    (hpre : ArePresets coin_control params nTargetValue value_to_select preset_inputs)
    (h : value_to_select ≤ 0 ∨
      available_coins.all.countP (fun c => decide (c.outpoint ∈ coin_control.setSelected)) ≤ 1) :
    reselectedAmount params.m_subtract_fee_outputs preset_inputs res = 0 := by
  have hn : ∀ coin ∈ preset_inputs.m_outputs, ¬ coin.outpoint ∈ res.outpoints := by
    intro coin hcoin hmem
    rcases h with hle | hone
    · rw [hres.empty hle] at hmem
      cases hmem
    have hs : coin.outpoint ∈ coin_control.setSelected := by
      rw [← hpre.outpoints]
      exact List.mem_map_of_mem hcoin
    obtain ⟨c,hc,heq⟩ := List.mem_map.mp (hres.within _ hmem)
    have hse : coin_control.hasSelected = true := by
      rw [CCoinControl.hasSelected,Bool.not_eq_true',List.isEmpty_eq_false_iff]
      exact List.ne_nil_of_mem hs
    rw [remainingCoins,if_pos hse] at hc
    exact not_mem_of_mem_erase hone c hc (heq ▸ hs)
  have hf : (preset_inputs.m_outputs.filter fun coin =>
      decide (coin.outpoint ∈ res.outpoints)) = [] :=
    List.filter_eq_nil_iff.mpr fun coin hcoin => by simpa using hn coin hcoin
  rw [reselectedAmount,hf]
  rfl

section SelectCoins
variable (available_coins : CoinsResult) (nTargetValue : Int) (coin_control : CCoinControl)
    (params : CoinSelectionParams) (stream : Nat → Nat)

/-- The outcome of a call: no assertion fails, and a result is one that is funded. -/
def FundsTarget (outcome : Except MemoryFault (Option SelectionResult × (Nat → Nat))) : Prop :=
  Succeeds outcome fun r => ∀ result ∈ r.1, IsFunded coin_control params nTargetValue result

variable {available_coins nTargetValue coin_control params}

/-- With other inputs allowed: what the merge comes to for every selection of the rest. -/
theorem selectWithPresets_funds {value_to_select : Int} (hd : (available_coins.all.map outpoint).Nodup)
    (htgt : 0 < nTargetValue) (hpre : ArePresets coin_control params nTargetValue value_to_select preset_inputs)
    (hothers : ¬(coin_control.hasSelected && !coin_control.m_allow_other_inputs) = true)
    (h : value_to_select ≤ 0 ∨
      available_coins.all.countP (fun c => decide (c.outpoint ∈ coin_control.setSelected)) ≤ 1) :
    FundsTarget nTargetValue coin_control params (selectWithPresets env available_coins nTargetValue
      coin_control params value_to_select preset_inputs stream) := by
  unfold FundsTarget selectWithPresets
  rw [if_neg hothers]
  obtain ⟨⟨selected,stream'⟩,hrun,hsel⟩ :=
    Succeeds.exists_ok (selectRest_surely env coin_control params hd value_to_select stream)
  rw [bind_ok_run hrun]
  cases selected with
  | none => exact fun result hr => by cases hr
  | some res =>
    have hres := hsel res rfl
    have hzero := hres.reselectedAmount_eq_zero hpre h
    have hreach := hres.reaches
    have hm := (mergePresets_succeeds_iff hpre htgt hres.target_eq hres.effective).mpr (by omega)
    obtain ⟨merged,heq,hf⟩ := Succeeds.exists_ok hm
    simp only [heq]
    rintro result ⟨⟩
    exact hf

/-- With preset inputs alone a call is right exactly if their value is below the target or suffices after
fees; with others it is if the preset inputs reach the target, or at most one is among the available coins. -/
theorem selectCoins_funds (hdistinct : (available_coins.all.map COutput.outpoint).Nodup)
    (htarget : 0 < nTargetValue) :
    ((coin_control.hasSelected && !coin_control.m_allow_other_inputs) = true →
      (FundsTarget nTargetValue coin_control params
          (selectCoins env available_coins nTargetValue coin_control params stream) ↔
        ∀ coins ∈ presetCoins env coin_control params coin_control.setSelected,
          (coins.map fun coin => coin.txout.nValue).sum < nTargetValue ∨
            nTargetValue ≤ presetAmount params coins)) ∧
    ((coin_control.hasSelected && !coin_control.m_allow_other_inputs) = false →
      (∀ coins ∈ presetCoins env coin_control params coin_control.setSelected,
          nTargetValue ≤ presetAmount params coins) ∨
        available_coins.all.countP (fun c => decide (c.outpoint ∈ coin_control.setSelected)) ≤ 1 →
      FundsTarget nTargetValue coin_control params
        (selectCoins env available_coins nTargetValue coin_control params stream)) := by
  have heq := addPresets_eq env coin_control params coin_control.setSelected nTargetValue (.new params)
  unfold selectCoins
  cases hadd : addPresets env coin_control params coin_control.setSelected nTargetValue
      (.new params) with
  | none =>
    rw [hadd] at heq
    rw [Option.map_eq_none_iff.mp heq.symm]
    refine ⟨fun _ => ⟨?_,?_⟩,?_⟩
    · rintro - coins ⟨⟩
    · rintro - result ⟨⟩
    · rintro - - result ⟨⟩
  | some presets =>
    rw [hadd] at heq
    obtain ⟨coins,hcoins,hpair⟩ := Option.map_eq_some_iff.mp heq.symm
    obtain ⟨hrest,hvalue⟩ := Prod.mk.inj hpair
    have hpre := addPresets_arePresets env coin_control params hadd
    have hsum := hpre.amount
    have hamt : presets.2.getSelectionAmount = presetAmount params coins := by omega
    have hval : presets.2.m_value = (coins.map fun coin => coin.txout.nValue).sum := by
      rw [← hvalue]
      exact zero_add _
    rw [hcoins]
    simp only [Option.mem_some_iff,forall_eq']
    constructor
    · intro hpres
      rw [selectWithPresets,if_pos hpres,← hval,← hamt]
      exact (yields_run_lift _ stream).trans (selectManually_succeeds_iff hpre htarget)
    · intro hothers h
      exact selectWithPresets_funds env stream hdistinct htarget hpre (by simp [hothers])
        (h.imp_left fun hle => by omega)
end SelectCoins

def insertionOrder : GroupSort where
  sort groups := groups.insertionSort fun a b => b.getSelectionAmount ≤ a.getSelectionAmount
  perm groups := List.perm_insertionSort _ groups
  descending groups := by exact List.pairwise_insertionSort _ groups

def hundredsWallet : WalletEnv where
  getFee := CFeeRate.getFee
  order := insertionOrder
  getWalletTx _ := some ⟨[], [⟨100, []⟩], 2, 0#32⟩
  signedInputSize _ := 68
  externalInputSize _ _ := -1
  getTransactionAncestry _ := (0, 0)
  getPackageLimits := (25, 25)
  m_spend_zero_conf_change := true
  fRejectLongChains := false

variable (feerate : CFeeRate)
def hundredCoin (hash : Uint256) : COutput where
  outpoint := ⟨hash, 0⟩
  txout := ⟨100, []⟩
  depth := 10
  input_bytes := 68
  spendable := true
  from_me := true
  fee := feerate.getFee 68
  long_term_fee := 0

def hundredCoins (hashes : List Uint256) : CoinsResult := [(.bech32, hashes.map (hundredCoin feerate))]

def presetControl (selected : List COutPoint) (distinct : selected.Nodup) (allow_other : Bool) :
    CCoinControl where
  setSelected := selected
  m_external_txouts _ := none
  m_input_weights _ := none
  m_include_unsafe_inputs := false
  m_allow_other_inputs := allow_other
  m_avoid_partial_spends := false
  selected_distinct := distinct

def paramsAt : CoinSelectionParams where
  m_min_change_target := 0
  min_viable_change := 1
  m_change_fee := 0
  m_cost_of_change := 0
  m_effective_feerate := feerate
  m_long_term_feerate := feerate
  m_subtract_fee_outputs := false
  m_avoid_partial_spends := false
  min_change_target_nonneg := le_refl 0
  change_fee_nonneg := le_refl 0
  cost_of_change_nonneg := le_refl 0

theorem twoPresets_distinct : [(⟨1#256, 0⟩ : COutPoint), ⟨2#256, 0⟩].Nodup := by decide
def outcomeAmount (outcome : Except MemoryFault (Option SelectionResult × (Nat → Nat))) : Option (Option Int) :=
  outcome.toOption.map fun r => r.1.map (selectedAmount false)

theorem not_fundsTarget_of_amount {nTargetValue amount : Int} {coin_control : CCoinControl}
    {params : CoinSelectionParams} {outcome : Except MemoryFault (Option SelectionResult × (Nat → Nat))}
    (hsub : params.m_subtract_fee_outputs = false) (h : outcomeAmount outcome = some (some amount))
    (hlt : amount < nTargetValue) : ¬ FundsTarget nTargetValue coin_control params outcome := by
  cases outcome with
  | error e => cases h
  | ok r =>
    obtain ⟨selected,stream⟩ := r
    cases selected with
    | none => cases h
    | some result =>
      intro hf
      have hr := (hf result rfl).1
      rw [hsub] at hr
      have hamt : result.selectedAmount false = amount := Option.some.inj (Option.some.inj h)
      omega

/-- A target of 300 with two preset inputs of 100 each. -/
abbrev selectHundreds (available : List Uint256) :=
  selectCoins hundredsWallet (hundredCoins ⟨0⟩ available) 300 (presetControl _ twoPresets_distinct true)
    (paramsAt ⟨0⟩) fun _ => 0

/-- Both are available: the second is selected again, and the result is worth 200. -/
theorem secondPreset_reselected :
    ((hundredCoins ⟨0⟩ [1#256, 2#256]).all.map COutput.outpoint).Nodup ∧
      outcomeAmount (selectHundreds [1#256, 2#256]) = some (some 200) ∧
      ¬ FundsTarget 300 (presetControl _ twoPresets_distinct true) (paramsAt ⟨0⟩)
        (selectHundreds [1#256, 2#256]) := by
  have hamt : outcomeAmount (selectHundreds [1#256,2#256]) = some (some 200) := by decide +kernel
  exact ⟨by decide,hamt,not_fundsTarget_of_amount rfl hamt (by decide)⟩

/-- A preset input of 100 alone, at a fee of 68, and a target of 50: the assertion on the waste fails. -/
example : selectCoins hundredsWallet [] 50
    (presetControl [⟨1#256, 0⟩] (List.nodup_singleton _) false) (paramsAt ⟨1000⟩) (fun _ => 0) =
      .error .assertion := by
  rfl

/-- With the second preset input not among the available coins, the same target is reached. -/
theorem secondPreset_funded :
    ((hundredCoins ⟨0⟩ [1#256, 3#256]).all.map COutput.outpoint).Nodup ∧
      FundsTarget 300 (presetControl _ twoPresets_distinct true) (paramsAt ⟨0⟩)
        (selectHundreds [1#256, 3#256]) := by
  have hdist : ((hundredCoins ⟨0⟩ [1#256,3#256]).all.map outpoint).Nodup := by decide
  exact ⟨hdist,(selectCoins_funds hundredsWallet _ hdist (by decide)).2 rfl (.inr (by decide))⟩
end Lcryp
