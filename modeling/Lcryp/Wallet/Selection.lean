import Lcryp.Wallet.CoinSelection

/-!
# What a selection of groups is worth

A result that some groups of a pool were added to has their coins as inputs, each of them once.
-/
namespace Lcryp
open List COutput
variable (groups : List OutputGroup)
def coinsOf : List COutput := groups.flatMap OutputGroup.m_outputs
def amountOf : Int := (groups.map OutputGroup.getSelectionAmount).sum
def excessFeeOf : Int := (groups.map fun group => group.fee - group.long_term_fee).sum

/-- Groups with distinct coins, that all subtract fees from the outputs or all do not. -/
structure IsPool (subtract : Bool) (pool : List OutputGroup) : Prop where
  distinct : ((coinsOf pool).map outpoint).Nodup
  uniform : ∀ group ∈ pool, group.m_subtract_fee_outputs = subtract

variable (group : OutputGroup)
namespace OutputGroup
theorem getSelectionAmount_eq :
    group.getSelectionAmount = (group.m_outputs.map (selectionAmount group.m_subtract_fee_outputs)).sum := by
  unfold getSelectionAmount
  split
  next h =>
    rw [h,group.value_eq]
    rfl
  next h =>
    rw [Bool.not_eq_true] at h
    rw [h,group.effective_value_eq]
    rfl
end OutputGroup

@[simp]
theorem coinsOf_append (groups others : List OutputGroup) :
    coinsOf (groups++others) = coinsOf groups++coinsOf others :=
  flatMap_append

@[simp]
theorem coinsOf_singleton : coinsOf [group] = group.m_outputs := by
  simp [coinsOf]

@[simp]
theorem amountOf_cons (groups : List OutputGroup) :
    amountOf (group::groups) = group.getSelectionAmount + amountOf groups := by
  simp [amountOf]

variable {groups others : List OutputGroup}
theorem amountOf_perm (h : groups.Perm others) : amountOf groups = amountOf others := (h.map _).sum_eq

variable {subtract : Bool}
theorem sum_selectionAmount {groups : List OutputGroup}
    (h : ∀ group ∈ groups, group.m_subtract_fee_outputs = subtract) :
    ((coinsOf groups).map (selectionAmount subtract)).sum = amountOf groups := by
  induction groups with
  | nil => rfl
  | cons group groups ih =>
    have hgrp := group.getSelectionAmount_eq
    rw [h group mem_cons_self] at hgrp
    have hr := ih fun g hg => h g (mem_cons_of_mem _ hg)
    rw [amountOf_cons,hgrp,← hr]
    simp [coinsOf]

theorem sum_excessFee (groups : List OutputGroup) :
    ((coinsOf groups).map excessFee).sum = excessFeeOf groups := by
  induction groups with
  | nil => rfl
  | cons group groups ih =>
    have hc : excessFeeOf (group::groups) =
        group.fee - group.long_term_fee + excessFeeOf groups := by simp [excessFeeOf]
    rw [hc,group.excess_fee_eq,← ih]
    simp [coinsOf]

theorem distinct_of_subperm {groups pool : List OutputGroup} (h : ((coinsOf pool).map outpoint).Nodup)
    (hsub : groups.Subperm pool) : ((coinsOf groups).map outpoint).Nodup := by
  obtain ⟨l,hp,hs⟩ := hsub
  have hl : ((coinsOf l).map outpoint).Nodup := h.sublist ((hs.flatMap _).map _)
  exact ((hp.flatMap_right _).map _).nodup_iff.mp hl

theorem IsPool.of_subperm {groups pool : List OutputGroup}
    (h : IsPool subtract pool) (hsub : groups.Subperm pool) : IsPool subtract groups where
  distinct := distinct_of_subperm h.distinct hsub
  uniform group hgrp := h.uniform group (hsub.subset hgrp)

namespace SelectionResult
def selectedAmount (subtract : Bool) (result : SelectionResult) : Int :=
  result.m_selected_inputs.total (selectionAmount subtract)
def outpoints (result : SelectionResult) : List COutPoint := result.m_selected_inputs.elems.map outpoint
structure Selects (subtract : Bool) (pool : List OutputGroup) (target : Int)
    (groups : List OutputGroup) (result : SelectionResult) : Prop where
  chosen : groups.Subperm pool
  inputs : result.m_selected_inputs.elems = coinsOf groups
  target_eq : result.m_target = target
  effective : groups ≠ [] → result.m_use_effective = !subtract

/-- A result that reaches its target with some of the coins, and counts them as it should. -/
structure Funds (subtract : Bool) (coins : List COutPoint) (target : Int)
    (result : SelectionResult) : Prop where
  target_eq : result.m_target = target
  effective : result.m_use_effective = !subtract
  reaches : target ≤ result.selectedAmount subtract
  within : ∀ outpoint ∈ result.outpoints, outpoint ∈ coins

variable {pool groups : List OutputGroup} {target : Int} {result : SelectionResult} {coins : List COutPoint}
namespace Selects
theorem new (target : Int) (algo : SelectionAlgorithm) : Selects subtract pool target [] (.new target algo) :=
  ⟨nil_subperm,rfl,rfl,fun h => absurd rfl h⟩
theorem ne_nil (htgt : 0 < target) (hr : target ≤ amountOf groups) : groups ≠ [] := by
  rintro rfl
  have hz : amountOf [] = 0 := rfl
  omega
variable (h : Selects subtract pool target groups result) (hpool : IsPool subtract pool)
include h hpool

theorem addInput {group : OutputGroup} (hc : (groups++[group]).Subperm pool) :
    Selects subtract pool target (groups++[group]) (result.addInput group) where
  chosen := hc
  inputs := by
    have hnd := (hpool.of_subperm hc).distinct
    rw [coinsOf_append,coinsOf_singleton,← h.inputs] at hnd ⊢
    exact KeyedSet.elems_insertAll_of_nodup hnd
  target_eq := h.target_eq
  effective _ := by
    have hgrp := (hpool.of_subperm hc).uniform group (by simp)
    simp [SelectionResult.addInput,hgrp]

theorem addInputs {others : List OutputGroup} (hc : (groups++others).Subperm pool) :
    Selects subtract pool target (groups++others) (Lcryp.addInputs result others) := by
  induction others generalizing groups result with
  | nil =>
    rw [append_nil]
    exact h
  | cons group others ih =>
    rw [← singleton_append,← append_assoc] at hc ⊢
    exact ih (h.addInput hpool ((sublist_append_left _ _).subperm.trans hc)) hc

theorem selectedAmount_eq : result.selectedAmount subtract = amountOf groups := by
  rw [selectedAmount,KeyedSet.total,h.inputs]
  exact sum_selectionAmount (hpool.of_subperm h.chosen).uniform

theorem funds (hco : ∀ c ∈ coinsOf pool, c.outpoint ∈ coins)
    (htgt : 0 < target) (hr : target ≤ amountOf groups) : Funds subtract coins target result where
  target_eq := h.target_eq
  effective := h.effective (ne_nil htgt hr)
  reaches := by
    rw [h.selectedAmount_eq hpool]
    exact hr
  within outpoint houtpoint := by
    rw [outpoints,h.inputs] at houtpoint
    obtain ⟨c,hc,rfl⟩ := mem_map.mp houtpoint
    obtain ⟨group,hgrp,hcg⟩ := mem_flatMap.mp hc
    exact hco c (mem_flatMap.mpr ⟨group,h.chosen.subset hgrp,hcg⟩)
end Selects

theorem elems_ne_nil_of_reaches (htgt : 0 < target)
    (hr : target ≤ result.selectedAmount subtract) : result.m_selected_inputs.elems ≠ [] := by
  intro hnil
  rw [selectedAmount,KeyedSet.total,hnil] at hr
  have hz : (map (selectionAmount subtract) []).sum = 0 := rfl
  omega

variable {inputs : InputSet}
theorem getSelectionWaste_eq_ok {change_cost : Int} (hne : inputs.elems ≠ [])
    (hc : 0 ≤ change_cost) (hr : target ≤ inputs.total (selectionAmount subtract)) :
    getSelectionWaste inputs change_cost target (!subtract) =
      .ok (inputs.total excessFee + if change_cost ≠ 0 then change_cost
        else inputs.total (selectionAmount subtract) - target) := by
  rw [getSelectionWaste,Bool.not_not,require,if_pos hne]
  by_cases hz : change_cost = 0
  · simp only [hz,ne_eq,not_true_eq_false,if_false]
    rw [require,if_pos hr]
    rfl
  · have hpos : change_cost > 0 := by omega
    simp only [hz,ne_eq]
    rw [require,if_pos hpos]
    rfl

theorem getSelectionWaste_eq_error (hs : inputs.total (selectionAmount subtract) < target) :
    getSelectionWaste inputs 0 target (!subtract) = .error .assertion := by
  have hnot : ¬ inputs.total (selectionAmount subtract) ≥ target := by omega
  rw [getSelectionWaste,Bool.not_not]
  by_cases hne : inputs.elems ≠ []
  · rw [require,if_pos hne]
    simp only [ne_eq,not_true_eq_false,if_false]
    rw [require,if_neg hnot]
    rfl
  · rw [require,if_neg hne]
    rfl

theorem getChange_eq (result : SelectionResult) (h : result.m_use_effective = !subtract)
    (min_viable_change change_fee : Int) :
    result.getChange min_viable_change change_fee =
      let change := result.selectedAmount subtract - result.m_target - (if subtract then 0 else change_fee)
      if change < min_viable_change then 0 else change := by
  cases subtract with
  | false =>
    simp only [getChange,h]
    rfl
  | true =>
    simp only [getChange,h,if_true,sub_zero]
    rfl

variable (min_viable_change change_cost change_fee : Int)
theorem computeAndSetWaste_eq_ok
    (heff : result.m_use_effective = !subtract) (hne : result.m_selected_inputs.elems ≠ [])
    (hr : result.m_target ≤ result.selectedAmount subtract) (hco : 0 ≤ change_cost) :
    let cost := if result.getChange min_viable_change change_fee > 0 then change_cost else 0
    result.computeAndSetWaste min_viable_change change_cost change_fee =
      .ok { result with
        m_waste := some (result.m_selected_inputs.total excessFee +
          if cost ≠ 0 then cost else result.selectedAmount subtract - result.m_target) } := by
  intro cost
  have hc : 0 ≤ cost := by
    dsimp only [cost]
    split
    · exact hco
    · exact le_refl 0
  have hw := getSelectionWaste_eq_ok hne hc hr
  rw [computeAndSetWaste,heff,hw]
  rfl

theorem computeAndSetWaste_fails (heff : result.m_use_effective = !subtract)
    (hfee : 0 ≤ change_fee) (hs : result.selectedAmount subtract < result.m_target) :
    result.computeAndSetWaste min_viable_change change_cost change_fee = .error .assertion := by
  have hchg : ¬ result.getChange min_viable_change change_fee > 0 := by
    rw [result.getChange_eq heff]
    dsimp only
    split
    · omega
    · split <;> omega
  rw [computeAndSetWaste,heff,if_neg hchg,getSelectionWaste_eq_error hs]
  rfl

theorem Funds.computeAndSetWaste (h : Funds subtract coins target result)
    (htgt : 0 < target) (min_viable_change change_cost change_fee : Int) (hc : 0 ≤ change_cost) :
    Succeeds (result.computeAndSetWaste min_viable_change change_cost change_fee) fun weighed =>
      Funds subtract coins target weighed ∧ weighed.m_waste.isSome := by
  have hr : result.m_target ≤ result.selectedAmount subtract := by
    rw [h.target_eq]
    exact h.reaches
  rw [computeAndSetWaste_eq_ok min_viable_change change_cost change_fee h.effective
    (elems_ne_nil_of_reaches htgt h.reaches) hr hc]
  exact ⟨⟨h.target_eq,h.effective,h.reaches,h.within⟩,rfl⟩

theorem less_succeeds {other : SelectionResult} (h : result.m_waste.isSome)
    (hoth : other.m_waste.isSome) : Succeeds (result.less other) fun _ => True := by
  obtain ⟨waste,hw⟩ := Option.isSome_iff_exists.mp h
  obtain ⟨otherWaste,ho⟩ := Option.isSome_iff_exists.mp hoth
  rw [less,getWaste,hw,getWaste,ho]
  trivial

theorem minElement_mem {results : List SelectionResult} (hre : ∀ r ∈ results, r.m_waste.isSome)
    (h : result.m_waste.isSome) : Succeeds (result.minElement results) (· ∈ result::results) := by
  induction results generalizing result with
  | nil => exact mem_singleton_self result
  | cons other results ih =>
    have hoth := hre other mem_cons_self
    have hrs : ∀ r ∈ results, r.m_waste.isSome := fun r hr => hre r (mem_cons_of_mem _ hr)
    apply (less_succeeds hoth h).bind
    intro smaller _
    cases smaller with
    | true => exact (ih hrs hoth).mono fun r hr => mem_cons_of_mem _ hr
    | false =>
      apply (ih hrs h).mono
      intro r hr
      rw [mem_cons] at hr ⊢
      exact hr.imp_right (mem_cons_of_mem _)
end SelectionResult
end Lcryp
