import Lcryp.Wallet.RandomSelection
import Lcryp.Wallet.Spend

/-!
# Attempts to select from the available coins

Grouping puts every coin into at most one group; each attempt gives nothing or a result that funds what is
asked for.
-/
namespace Lcryp
open SelectionResult List SpkGroups COutput
def outpointsOf (groups : List OutputGroup) : List COutPoint := (coinsOf groups).map outpoint

@[simp]
theorem outpointsOf_nil : outpointsOf [] = [] := rfl

@[simp]
theorem outpointsOf_cons (group : OutputGroup) (groups : List OutputGroup) :
    outpointsOf (group::groups) = group.m_outputs.map outpoint++outpointsOf groups := by
  simp [outpointsOf,coinsOf]

@[simp]
theorem outpointsOf_append (groups others : List OutputGroup) :
    outpointsOf (groups++others) = outpointsOf groups++outpointsOf others := by
  simp [outpointsOf]

theorem outpointsOf_sublist {groups others : List OutputGroup} (h : groups.Sublist others) :
    (outpointsOf groups).Sublist (outpointsOf others) :=
  (h.flatMap _).map _

variable (getFee : GetFee) (group : OutputGroup) (output : COutput) (ancestors descendants : Nat)
    (positive_only : Bool)

@[simp]
theorem OutputGroup.insert_subtract :
    (group.insert getFee output ancestors descendants positive_only).m_subtract_fee_outputs =
      group.m_subtract_fee_outputs := by
  unfold insert
  split
  · rfl
  · rfl

theorem OutputGroup.insert_outpoints :
    ((group.insert getFee output ancestors descendants positive_only).m_outputs.map
      outpoint).Sublist (group.m_outputs.map outpoint++[output.outpoint]) := by
  unfold insert
  split
  · exact sublist_append_left _ _
  · simp [push]

theorem count_outpoint_cons (output : COutput) (outputs : List COutput) (o : COutPoint) :
    ((output::outputs).map outpoint).count o = [output.outpoint].count o + (outputs.map outpoint).count o := by
  rw [← count_append]
  rfl

variable (env : WalletEnv)
section Grouping
variable (params : CoinSelectionParams) (filter : CoinEligibilityFilter) (positive_only : Bool)
theorem insertOutput_count (group : OutputGroup) (output : COutput) (o : COutPoint) :
    ((insertOutput env positive_only group output).m_outputs.map outpoint).count o ≤
      (group.m_outputs.map outpoint).count o + [output.outpoint].count o := by
  rw [← count_append]
  exact (OutputGroup.insert_outpoints _ _ _ _ _ _).count_le o

theorem insertOutput_new_count (output : COutput) (o : COutPoint) :
    ((insertOutput env positive_only (.new params) output).m_outputs.map outpoint).count o ≤
      [output.outpoint].count o := by
  have hnil : ((OutputGroup.new params).m_outputs.map outpoint).count o = 0 := rfl
  have hcnt := insertOutput_count env positive_only (.new params) output o
  omega

theorem insertIntoLast_count (output : COutput) (groups : List OutputGroup) (o : COutPoint) :
    (outpointsOf (insertIntoLast env params positive_only output groups)).count o ≤
      (outpointsOf groups).count o + [output.outpoint].count o := by
  have hnew := insertOutput_new_count env params positive_only output o
  cases groups with
  | nil => simpa [insertIntoLast] using hnew
  | cons group rest =>
    have hl := insertOutput_count env positive_only group output o
    rw [insertIntoLast]
    split
    · simp only [outpointsOf_cons,count_append] at hnew ⊢
      omega
    · simp only [outpointsOf_cons,count_append]
      omega

theorem insertIntoLast_uniform {output : COutput} {groups : List OutputGroup}
    (h : ∀ group ∈ groups, group.m_subtract_fee_outputs = params.m_subtract_fee_outputs) :
    ∀ group ∈ insertIntoLast env params positive_only output groups,
      group.m_subtract_fee_outputs = params.m_subtract_fee_outputs := by
  cases groups with
  | nil => simp [insertIntoLast,insertOutput,OutputGroup.new]
  | cons first rest =>
    rw [insertIntoLast]
    split
    · intro group hgrp
      rcases mem_cons.mp hgrp with rfl | hr
      · simp [insertOutput,OutputGroup.new]
      · exact h group hr
    · intro group hgrp
      rcases mem_cons.mp hgrp with rfl | hr
      · simpa [insertOutput] using h first mem_cons_self
      · exact h group (mem_cons_of_mem _ hr)

def SpkGroups.groups (entries : SpkGroups) : List OutputGroup := entries.flatMap Prod.snd

variable {f : List OutputGroup → List OutputGroup}
theorem update_count {o : COutPoint} {k : Nat}
    (hf : ∀ groups, (outpointsOf (f groups)).count o ≤ (outpointsOf groups).count o + k)
    (spk : CScript) (entries : SpkGroups) :
    (outpointsOf (entries.update spk f).groups).count o ≤ (outpointsOf entries.groups).count o + k := by
  have hnil := hf []
  rw [outpointsOf_nil,count_nil] at hnil
  induction entries with
  | nil => simpa [update,groups] using hnil
  | cons entry rest ih =>
    have hent := hf entry.2
    rw [update]
    simp only [groups] at ih
    split_ifs <;>
    · simp only [groups,flatMap_cons,outpointsOf_append,count_append]
      omega

theorem update_forall {P : OutputGroup → Prop}
    (hf : ∀ groups, (∀ group ∈ groups, P group) → ∀ group ∈ f groups, P group)
    (spk : CScript) {entries : SpkGroups} (h : ∀ group ∈ entries.groups, P group) :
    ∀ group ∈ (entries.update spk f).groups, P group := by
  have hnil : ∀ group ∈ f [], P group := hf [] (by simp)
  induction entries with
  | nil => simpa [update,groups] using hnil
  | cons entry rest ih =>
    simp only [groups,flatMap_cons,forall_mem_append] at h ih
    rw [update]
    split
    · simp only [groups,flatMap_cons,forall_mem_append]
      exact ⟨hf _ h.1,h.2⟩
    · split
      · simp only [groups,flatMap_cons,forall_mem_append]
        exact ⟨hnil,h⟩
      · simp only [groups,flatMap_cons,forall_mem_append]
        exact ⟨h.1,ih h.2⟩

variable (outputs : List COutput)
theorem spkToGroups_count (entries : SpkGroups) (o : COutPoint) :
    (outpointsOf (spkToGroups env params positive_only outputs entries).groups).count o ≤
      (outpointsOf entries.groups).count o + (outputs.map outpoint).count o := by
  induction outputs generalizing entries with
  | nil => exact Nat.le_refl _
  | cons output outputs ih =>
    have hs := update_count (fun groups => insertIntoLast_count env params positive_only output groups o)
      output.txout.scriptPubKey entries
    have hr := ih (entries.update output.txout.scriptPubKey
      (insertIntoLast env params positive_only output))
    rw [count_outpoint_cons]
    exact hr.trans (by omega)

theorem spkToGroups_uniform {entries : SpkGroups}
    (h : ∀ group ∈ entries.groups, group.m_subtract_fee_outputs = params.m_subtract_fee_outputs) :
    ∀ group ∈ (spkToGroups env params positive_only outputs entries).groups,
      group.m_subtract_fee_outputs = params.m_subtract_fee_outputs := by
  induction outputs generalizing entries with
  | nil => exact h
  | cons output outputs ih =>
    exact ih (update_forall
      (fun groups hgroups => insertIntoLast_uniform env params positive_only hgroups) _ h)

theorem usableGroups_sublist (groups : List OutputGroup) :
    (usableGroups filter positive_only groups).Sublist groups := by
  unfold usableGroups
  split
  · exact filter_sublist.trans (tail_sublist _)
  · exact filter_sublist

def allGroups (outputs : List COutput) : List OutputGroup :=
  if !params.m_avoid_partial_spends then
    (outputs.filter spendable).map (insertOutput env positive_only (.new params))
  else (spkToGroups env params positive_only (outputs.filter spendable) []).groups

theorem groupOutputs_sublist :
    (groupOutputs env params filter positive_only outputs).Sublist
      (allGroups env params positive_only outputs) := by
  unfold groupOutputs allGroups
  split
  · exact filter_sublist
  · dsimp only
    induction spkToGroups env params positive_only (outputs.filter spendable) [] with
    | nil => exact List.Sublist.refl _
    | cons entry rest ih =>
      exact (usableGroups_sublist filter positive_only entry.2).append ih

theorem allGroups_count (o : COutPoint) :
    (outpointsOf (allGroups env params positive_only outputs)).count o ≤ (outputs.map outpoint).count o := by
  have hs : ((outputs.filter spendable).map outpoint).count o ≤
      (outputs.map outpoint).count o := (filter_sublist.map _).count_le o
  apply le_trans _ hs
  unfold allGroups
  split
  · induction outputs.filter spendable with
    | nil => exact Nat.le_refl _
    | cons output rest ih =>
      have hnew := insertOutput_new_count env params positive_only output o
      rw [count_outpoint_cons,map_cons,outpointsOf_cons,count_append]
      exact Nat.add_le_add hnew ih
  · have hcnt := spkToGroups_count env params positive_only (outputs.filter spendable) [] o
    simpa [groups] using hcnt

theorem allGroups_uniform :
    ∀ group ∈ allGroups env params positive_only outputs,
      group.m_subtract_fee_outputs = params.m_subtract_fee_outputs := by
  unfold allGroups
  split
  · intro group hgrp
    obtain ⟨output,_,rfl⟩ := mem_map.mp hgrp
    simp [insertOutput,OutputGroup.new]
  · exact spkToGroups_uniform env params positive_only _ (by simp [groups])

theorem groupOutputs_isPool {outputs : List COutput} (h : (outputs.map outpoint).Nodup) :
    IsPool params.m_subtract_fee_outputs (groupOutputs env params filter positive_only outputs) where
  distinct := by
    have hs := outpointsOf_sublist (groupOutputs_sublist env params filter positive_only outputs)
    apply List.Nodup.sublist hs
    rw [nodup_iff_count_le_one] at h ⊢
    exact fun o => (allGroups_count env params positive_only outputs o).trans (h o)
  uniform group hgrp := allGroups_uniform env params positive_only outputs group
    ((groupOutputs_sublist env params filter positive_only outputs).subset hgrp)

theorem groupOutputs_within :
    ∀ c ∈ coinsOf (groupOutputs env params filter positive_only outputs),
      c.outpoint ∈ outputs.map outpoint := by
  intro c hc
  have hmem : c.outpoint ∈ outpointsOf (allGroups env params positive_only outputs) :=
    (outpointsOf_sublist (groupOutputs_sublist env params filter positive_only outputs)).subset
      (mem_map_of_mem hc)
  rw [← count_pos_iff] at hmem ⊢
  exact hmem.trans_le (allGroups_count env params positive_only outputs c.outpoint)

theorem groupOutputs_positive :
    ∀ group ∈ groupOutputs env params filter true outputs, 0 < group.getSelectionAmount := by
  have hu : ∀ group, isUsable filter true group = true → 0 < group.getSelectionAmount := by
    intro group h
    simp only [isUsable,Bool.true_and,Bool.and_eq_true,Bool.not_eq_true',decide_eq_false_iff_not]
      at h
    omega
  unfold groupOutputs
  split
  · intro group hgrp
    exact hu group (mem_filter.mp hgrp).2
  · intro group hgrp
    obtain ⟨entry,_,hent⟩ := mem_flatMap.mp hgrp
    exact hu group (mem_filter.mp hent).2
end Grouping

structure IsWeighed (subtract : Bool) (coins : List COutPoint) (target : Int)
    (result : SelectionResult) : Prop where
  funds : Funds subtract coins target result
  weighed : result.m_waste.isSome

theorem IsWeighed.mono {subtract : Bool} {coins others : List COutPoint} {target : Int}
    {result : SelectionResult} (h : IsWeighed subtract coins target result)
    (hc : ∀ o ∈ coins, o ∈ others) : IsWeighed subtract others target result where
  funds := { h.funds with within := fun o ho => hc o (h.funds.within o ho) }
  weighed := h.weighed
section Attempts
variable {target : Int} (htarget : 0 < target) (filter : CoinEligibilityFilter) (params : CoinSelectionParams)
include htarget

theorem weighOption_succeeds {coins : List COutPoint} {result : Option SelectionResult}
    (h : ∀ r ∈ result, Funds params.m_subtract_fee_outputs coins target r) :
    Succeeds (weighOption params result) fun weighed =>
      ∀ r ∈ weighed, IsWeighed params.m_subtract_fee_outputs coins target r := by
  cases result with
  | none => exact fun r hr => by cases hr
  | some r =>
    apply ((h r rfl).computeAndSetWaste htarget _ _ _ params.cost_of_change_nonneg).bind
    rintro weighed ⟨hf,hw⟩ r ⟨⟩
    exact ⟨hf,hw⟩

omit htarget in
theorem bestResult_succeeds {subtract : Bool} {coins : List COutPoint}
    {results : List SelectionResult} (h : ∀ r ∈ results, IsWeighed subtract coins target r) :
    Succeeds (bestResult results) fun best => ∀ r ∈ best, IsWeighed subtract coins target r := by
  cases results with
  | nil => exact fun r hr => by cases hr
  | cons result rest =>
    have hre : ∀ r ∈ rest, r.m_waste.isSome := fun r hr => (h r (mem_cons_of_mem _ hr)).weighed
    apply (minElement_mem hre (h result mem_cons_self).weighed).bind
    rintro best hbest r ⟨⟩
    exact h _ hbest

theorem chooseSelectionResult_surely {coins : List COutput} (hco : (coins.map outpoint).Nodup) :
    Surely (chooseSelectionResult env target filter params coins) fun chosen => ∀ r ∈ chosen,
      IsWeighed params.m_subtract_fee_outputs (coins.map outpoint) target r := by
  have hpos := groupOutputs_isPool env params filter true hco
  have hall := groupOutputs_isPool env params filter false hco
  have hw := groupOutputs_within env params filter true coins
  apply (Ensures.lift (selectCoinsBnB_succeeds env.order hpos hw
    (groupOutputs_positive env params filter coins) htarget params.cost_of_change_nonneg)).bind
  rintro ⟨bnb,sorted⟩ ⟨hp,hbnb⟩
  apply (knapsackSolver_surely env.order _ params.min_change_target_nonneg).bind
  rintro knapsack ⟨-,hk⟩
  apply (Ensures.lift (weighOption_succeeds htarget params fun r hr => (hk r hr).funds hall
    (groupOutputs_within env params filter false coins) htarget le_rfl)).bind
  intro knapsack_result hknapsack_result
  have hs : ∀ c ∈ coinsOf sorted, c.outpoint ∈ coins.map outpoint :=
    fun c hc => hw c ((hp.flatMap_right _).subset hc)
  have hl : target ≤ target + changeLower := by simp [changeLower]
  apply (selectCoinsSRD_surely (htarget.trans_le hl)).bind
  rintro srd ⟨-,hsrd⟩
  apply (Ensures.lift (weighOption_succeeds htarget params fun r hr => (hsrd r hr).funds
    (hpos.of_subperm hp.subperm) hs htarget hl)).bind
  intro srd_result hsrd_result
  apply Ensures.lift
  apply bestResult_succeeds
  intro r hr
  simp only [mem_append,Option.mem_toList] at hr
  rcases hr with (hr | hr) | hr
  · exact ⟨(hbnb r hr).1,(hbnb r hr).2⟩
  · exact hknapsack_result r hr
  · exact hsrd_result r hr

variable {coins : CoinsResult}
theorem selectByType_surely (hc : (coins.all.map outpoint).Nodup) :
    Surely (selectByType env target filter params coins) fun results => ∀ r ∈ results,
      IsWeighed params.m_subtract_fee_outputs (coins.all.map outpoint) target r := by
  induction coins with
  | nil => exact .pure fun r hr => by cases hr
  | cons it rest ih =>
    have hall : CoinsResult.all (it::rest) = it.2++CoinsResult.all rest := flatMap_cons
    rw [hall,map_append] at hc ⊢
    apply (chooseSelectionResult_surely env htarget filter params hc.of_append_left).bind
    intro chosen hch
    apply (ih hc.of_append_right).bind
    intro results hre
    apply Ensures.pure
    intro r hr
    simp only [mem_append,Option.mem_toList] at hr
    rcases hr with hr | hr
    · exact (hch r hr).mono fun o ho => mem_append_left _ ho
    · exact (hre r hr).mono fun o ho => mem_append_right _ ho

theorem attemptSelection_surely (hc : (coins.all.map outpoint).Nodup) (allow_mixed : Bool) :
    Surely (attemptSelection env target filter params coins allow_mixed) fun selected =>
      ∀ r ∈ selected,
        IsWeighed params.m_subtract_fee_outputs (coins.all.map outpoint) target r := by
  apply (selectByType_surely env htarget filter params hc).bind
  intro results hresults
  split
  · exact Ensures.lift (bestResult_succeeds hresults)
  · split
    · exact chooseSelectionResult_surely env htarget filter params hc
    · exact .pure fun r hr => by cases hr

theorem firstSelection_surely
    (hc : (coins.all.map outpoint).Nodup) (attempts : List (CoinEligibilityFilter × Bool)) :
    Surely (firstSelection env target params coins attempts) fun selected => ∀ r ∈ selected,
      IsWeighed params.m_subtract_fee_outputs (coins.all.map outpoint) target r := by
  induction attempts with
  | nil => exact .pure fun r hr => by cases hr
  | cons attempt rest ih =>
    apply (attemptSelection_surely env htarget attempt.1 params hc attempt.2).bind
    intro selected hsel
    cases selected with
    | some r => exact .pure hsel
    | none => exact ih
end Attempts
end Lcryp
