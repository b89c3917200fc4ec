import Lcryp.Wallet.Funding
import Mathlib.Algebra.Order.BigOperators.Group.List

/-!
# When the random algorithms find a selection

For groups with distinct coins and every outcome of the random choices.
-/
namespace Lcryp
open List
variable {result : SelectionResult}
theorem elems_addInputs {groups : List OutputGroup}
    (h : ((result.m_selected_inputs.elems++coinsOf groups).map COutput.outpoint).Nodup) :
    (addInputs result groups).m_selected_inputs.elems = result.m_selected_inputs.elems++coinsOf groups := by
  induction groups generalizing result with
  | nil => simp [addInputs,coinsOf]
  | cons group groups ih =>
    have hc : coinsOf (group::groups) = group.m_outputs++coinsOf groups := flatMap_cons
    rw [hc,← append_assoc] at h ⊢
    have hgrp : (result.addInput group).m_selected_inputs.elems =
        result.m_selected_inputs.elems++group.m_outputs :=
      KeyedSet.elems_insertAll_of_nodup (h.sublist ((sublist_append_left _ _).map _))
    rw [← hgrp] at h ⊢
    exact ih h

theorem amountOf_le_of_subperm {chosen groups : List OutputGroup} (h : chosen.Subperm groups)
    (hnn : ∀ group ∈ groups, 0 ≤ group.getSelectionAmount) : amountOf chosen ≤ amountOf groups := by
  obtain ⟨l,hp,hsub⟩ := h
  rw [← amountOf_perm hp]
  apply (hsub.map _).sum_le_sum
  simpa using hnn

/-- The inputs of a result are the coins of groups that are worth a goal together. -/
def Worth (groups : List OutputGroup) (goal : Int) (result : SelectionResult) : Prop :=
  ∃ chosen, chosen.Subperm groups ∧ result.m_selected_inputs.elems = coinsOf chosen ∧ goal ≤ amountOf chosen

variable {groups : List OutputGroup}
theorem Chooses.worth {target goal : Int} {algo : SelectionAlgorithm}
    (h : Chooses groups target goal algo result)
    (hd : ((coinsOf groups).map COutput.outpoint).Nodup) : Worth groups goal result := by
  obtain ⟨chosen,hc,hr,rfl⟩ := h
  exact ⟨chosen,hc,elems_addInputs (distinct_of_subperm hd hc),hr⟩

/-- The knapsack solver finds nothing only if all groups together are short of the target and none fits it;
what it finds reaches the target.  The single random draw of positive groups finds something whenever the
target with change can be reached. -/
theorem solvers_select (order : GroupSort) (hdistinct : ((coinsOf groups).map COutput.outpoint).Nodup)
    {target change_target : Int} (htarget : 0 < target) (hchange : 0 ≤ change_target) :
    (Surely (knapsackSolver order groups target change_target) fun solved =>
      (solved = none → Insufficient groups target change_target ∧
        ((∀ group ∈ groups, 0 ≤ group.getSelectionAmount) →
          ∀ group ∈ groups, group.getSelectionAmount < target)) ∧
      ∀ r ∈ solved, Worth groups target r) ∧
    (∀ goal, Surely (approximateBestSubset groups (amountOf groups) goal) fun best =>
      best.2 = amountOf (flagged groups best.1)) ∧
    ((∀ group ∈ groups, 0 < group.getSelectionAmount) →
      Surely (selectCoinsSRD groups target) fun drawn =>
        (drawn = none ↔ amountOf groups < target + changeLower) ∧
          ∀ r ∈ drawn, Worth groups (target+changeLower) r) := by
  refine ⟨?_,fun goal => (approximateBestSubset_surely groups goal).mono fun _ h => h.1,fun hpos => ?_⟩
  · apply (knapsackSolver_surely order groups hchange).mono
    rintro solved ⟨hnone,hsome⟩
    refine ⟨fun h => ⟨hnone h,fun hnn group hgrp => ?_⟩,fun r hr => (hsome r hr).worth hdistinct⟩
    have hle := amountOf_le_of_subperm (singleton_subperm_iff.mpr hgrp) hnn
    have hshort := (hnone h).1
    simp only [amountOf_cons] at hle
    have hnil : amountOf [] = 0 := rfl
    omega
  · have hgoal : 0 < target + changeLower := by
      simp only [changeLower]
      omega
    apply (selectCoinsSRD_surely hgoal).mono
    rintro drawn ⟨hnone,hsome⟩
    refine ⟨⟨hnone,fun hshort => ?_⟩,fun r hr => (hsome r hr).worth hdistinct⟩
    by_contra hne
    obtain ⟨r,hr⟩ := Option.ne_none_iff_exists'.mp hne
    obtain ⟨chosen,hchosen,hrchs,-⟩ := hsome r hr
    have := amountOf_le_of_subperm hchosen fun group hgrp => (hpos group hgrp).le
    omega

def groupOf (feerate : CFeeRate) (nValue : Int) (hash : Uint256) : OutputGroup :=
  (OutputGroup.new (paramsAt feerate)).push { hundredCoin feerate hash with txout := ⟨nValue, []⟩ } 0 0

/-- One group alone is short of the target with change, so the draw takes two of the three. -/
theorem threeGroups_drawn :
    let groups := [groupOf ⟨0⟩ 40000 1, groupOf ⟨0⟩ 45000 2, groupOf ⟨0⟩ 30000 3]
    Surely (selectCoinsSRD groups 10000) fun drawn => drawn ≠ none ∧ ∀ r ∈ drawn, Worth groups 60000 r :=
  ((solvers_select insertionOrder (by decide) (by decide) (le_refl 0)).2.2 (by decide)).mono
    fun _ h => ⟨fun hnone => absurd (h.1.mp hnone) (by decide),h.2⟩

/-- A group of 100 reaches the target of 90, but one of -36 is taken off the total. -/
theorem negativeGroup_unsolved :
    let groups := [groupOf ⟨0⟩ 100 1, groupOf ⟨2000⟩ 100 2]
    ((coinsOf groups).map COutput.outpoint).Nodup ∧ (∃ group ∈ groups, 90 ≤ group.getSelectionAmount) ∧
      outcomeAmount (knapsackSolver insertionOrder groups 90 20 fun _ => 0) = some none := by
  decide +kernel
end Lcryp
