import Lcryp.Wallet.BranchAndBound

/-!
# The random algorithms

The single random draw and the knapsack solver, for every outcome of the random choices.
-/
namespace Lcryp
open SelectionResult List Option
def Chooses (pool : List OutputGroup) (target goal : Int) (algo : SelectionAlgorithm)
    (result : SelectionResult) : Prop :=
  ∃ chosen, chosen.Subperm pool ∧ goal ≤ amountOf chosen ∧ result = addInputs (.new target algo) chosen
variable {group : OutputGroup}
section Draw
variable {pool : List OutputGroup} {target goal : Int} {algo : SelectionAlgorithm}
  {result : SelectionResult}

theorem Chooses.single (hgrp : group ∈ pool) (hr : goal ≤ group.getSelectionAmount) :
    Chooses pool target goal algo ((new target algo).addInput group) :=
  ⟨[group],singleton_subperm_iff.mpr hgrp,by simpa [amountOf] using hr,rfl⟩

theorem Chooses.funds {subtract : Bool} {coins : List COutPoint} (h : Chooses pool target goal algo result)
    (hp : IsPool subtract pool) (hco : ∀ c ∈ coinsOf pool, c.outpoint ∈ coins) (htgt : 0 < target)
    (hg : target ≤ goal) : Funds subtract coins target result := by
  obtain ⟨chosen,hc,hr,rfl⟩ := h
  have hnew : Selects subtract pool target [] (.new target algo) := .new target algo
  have hs := hnew.addInputs hp ((nil_append chosen).symm ▸ hc)
  exact hs.funds hp hco htgt (hg.trans hr)

theorem drawUntil_outcome {rest done : List Nat} (hnd : (done++rest).Nodup)
    (hlt : ∀ i ∈ done++rest, i < pool.length) (hbel : amountOf (groupsAt pool done) < goal) :
    Succeeds (drawUntil pool goal rest (amountOf (groupsAt pool done))
      (addInputs (.new target .srd) (groupsAt pool done))) fun drawn =>
        (drawn = none → amountOf (groupsAt pool (done++rest)) < goal) ∧
          ∀ r ∈ drawn, Chooses pool target goal .srd r := by
  induction rest generalizing done with
  | nil =>
    rw [append_nil]
    exact ⟨fun _ => hbel,fun r hr => by cases hr⟩
  | cons i rest ih =>
    have hi : i < pool.length := hlt i (by simp)
    have hra : pool[i]? = some pool[i] := getElem?_eq_getElem hi
    have happ := groupsAt_concat hra done
    have ha : done++i::rest = done++[i]++rest := by simp
    rw [ha] at hnd hlt ⊢
    have had : (addInputs (.new target .srd) (groupsAt pool done)).addInput pool[i] =
        addInputs (.new target .srd) (groupsAt pool (done++[i])) := by
      simp [happ,addInputs]
    have hamt : amountOf (groupsAt pool done) + pool[i].getSelectionAmount =
        amountOf (groupsAt pool (done++[i])) := by
      rw [happ]
      simp [amountOf]
    rw [drawUntil,readAt_eq_ok hra,ok_bind]
    dsimp only
    rw [hamt,had]
    split
    next hre =>
      refine ⟨fun hn => (some_ne_none _ hn).elim,?_⟩
      rintro r ⟨⟩
      exact ⟨_,groupsAt_subperm hnd.of_append_left fun j hj => hlt j (mem_append_left rest hj),hre,rfl⟩
    · exact ih hnd hlt (by omega)

theorem selectCoinsSRD_surely (hg : 0 < target + changeLower) :
    Surely (selectCoinsSRD pool target) fun drawn =>
      (drawn = none → amountOf pool < target + changeLower) ∧
        ∀ r ∈ drawn, Chooses pool target (target+changeLower) .srd r := by
  apply (shuffle_perm (range pool.length)).bind
  intro indexes hin
  apply Ensures.lift
  have ht : amountOf (groupsAt pool indexes) = amountOf pool := by
    rw [groupsAt,amountOf_perm (hin.filterMap _),← groupsAt,groupsAt_range]
  rw [← ht]
  exact @drawUntil_outcome pool target _ indexes [] (hin.nodup_iff.mpr nodup_range)
    (fun i hi => mem_range.mp (hin.subset hi)) hg
end Draw

variable (groups : List OutputGroup)
theorem flagged_sublist (flags : List Bool) : (flagged groups flags).Sublist groups := by
  have hzip : ((groups.zip flags).map Prod.fst).Sublist groups := by
    induction groups generalizing flags with
    | nil => exact List.Sublist.refl _
    | cons group groups ih =>
      cases flags with
      | nil => exact nil_sublist _
      | cons flag flags => exact (ih flags).cons_cons group
  exact (filter_sublist.map Prod.fst).trans hzip

theorem flagged_cons (group : OutputGroup) (groups : List OutputGroup) (flag : Bool) (flags : List Bool) :
    flagged (group::groups) (flag::flags) =
      if flag then group::flagged groups flags else flagged groups flags := by
  cases flag <;> rfl

theorem flagged_replicate_true : flagged groups (replicate groups.length true) = groups := by
  induction groups with
  | nil => rfl
  | cons group groups ih => rw [length_cons,replicate_succ,flagged_cons,if_pos rfl,ih]

theorem flagged_replicate_false (n : Nat) : flagged groups (replicate n false) = [] := by
  induction groups generalizing n with
  | nil => simp [flagged]
  | cons group groups ih =>
    cases n with
    | zero => rfl
    | succ n => rw [replicate_succ,flagged_cons,if_neg Bool.false_ne_true,ih]

variable {groups : List OutputGroup}
theorem amountOf_flagged_set {flags : List Bool} {i : Nat}
    (hgrp : groups[i]? = some group) (hf : flags[i]? = some false) :
    amountOf (flagged groups (flags.set i true)) =
      amountOf (flagged groups flags) + group.getSelectionAmount := by
  induction groups generalizing flags i with
  | nil => cases hgrp
  | cons g groups ih =>
    cases flags with
    | nil => cases hf
    | cons flag flags =>
      cases i with
      | zero =>
        obtain rfl : g = group := by simpa using hgrp
        obtain rfl : flag = false := by simpa using hf
        exact Int.add_comm _ _
      | succ i =>
        have hr : amountOf (flagged groups (flags.set i true)) =
            amountOf (flagged groups flags) + group.getSelectionAmount :=
          ih (by simpa using hgrp) (by simpa using hf)
        rw [set_cons_succ,flagged_cons,flagged_cons]
        split
        · rw [amountOf_cons,amountOf_cons,hr,Int.add_assoc]
        · exact hr

namespace SubsetState
/-- The totals belong to the flags, and the best ones reach the target if all groups do. -/
structure Sound (groups : List OutputGroup) (target : Int) (st : SubsetState) : Prop where
  length_eq : st.vfIncluded.length = groups.length
  total_eq : st.nTotal = amountOf (flagged groups st.vfIncluded)
  best_eq : st.nBest = amountOf (flagged groups st.vfBest)
  reaches : target ≤ amountOf groups → target ≤ st.nBest

variable {target : Int} {st : SubsetState}
/-- A group that is not included is taken in, and out again if the target is reached. -/
theorem consider_sound {nPass i : Nat} (h : Sound groups target st)
    (hgrp : groups[i]? = some group) (hf : nPass = 0 → st.vfIncluded[i]? = some false) :
    Surely (consider target nPass st (group, i)) fun st' =>
      Sound groups target st' ∧ ∀ j, j ≠ i → st'.vfIncluded[j]? = st.vfIncluded[j]? := by
  have hi : i < st.vfIncluded.length := by
    rw [h.length_eq]
    exact (List.getElem?_eq_some_iff.mp hgrp).1
  have hta : Surely (isTaken nPass (st.vfIncluded.getD i false)) fun taken =>
      taken = true → st.vfIncluded[i]? = some false := by
    unfold isTaken
    split
    · next hp => exact Ensures.drawBool.mono fun _ _ _ => hf hp
    · apply Ensures.pure
      intro hnot
      rw [getD_eq_getElem?_getD,getElem?_eq_getElem hi] at hnot
      rw [getElem?_eq_getElem hi]
      simpa using hnot
  apply hta.bind
  intro taken hfl
  cases taken with
  | false => exact .pure ⟨h,fun _ _ => rfl⟩
  | true =>
    have ht := amountOf_flagged_set hgrp (hfl rfl)
    rw [← h.total_eq] at ht
    have hoth : ∀ j, j ≠ i → (st.vfIncluded.set i true)[j]? = st.vfIncluded[j]? :=
      fun j hj => getElem?_set_ne (Ne.symm hj)
    simp only [if_true]
    split
    next hr =>
      have hout : (st.vfIncluded.set i true).set i false = st.vfIncluded := by
        rw [set_set]
        obtain ⟨_,hfa⟩ := List.getElem?_eq_some_iff.mp (hfl rfl)
        rw [← hfa,set_getElem_self]
      apply Ensures.pure
      rw [hout]
      refine ⟨⟨h.length_eq,?_,?_,?_⟩,fun _ _ => rfl⟩
      · rw [← h.total_eq]
        exact Int.add_sub_cancel _ _
      · by_cases hb : st.nTotal + group.getSelectionAmount < st.nBest
        · simp [hb,ht]
        · simpa [hb] using h.best_eq
      · by_cases hb : st.nTotal + group.getSelectionAmount < st.nBest
        · simpa [hb] using fun _ => hr
        · simpa [hb] using h.reaches
    · exact .pure ⟨⟨by rw [length_set,h.length_eq],ht.symm,h.best_eq,h.reaches⟩,hoth⟩

theorem pass_sound {nPass : Nat} (h : Sound groups target st)
    (hf : nPass = 0 → ∀ j, j < groups.length → st.vfIncluded[j]? = some false) :
    Surely (pass groups target st nPass) (Sound groups target) := by
  unfold pass
  split
  · exact .pure h
  have hl : Surely (groups.zipIdx.foldlM (consider target nPass) st)
      (fun st' => Sound groups target st' ∧ (nPass = 0 → ∀ j, groups.zipIdx.length ≤ j →
        j < groups.length → st'.vfIncluded[j]? = some false)) := by
    apply Ensures.foldlM (I := fun done st' => Sound groups target st' ∧
      (nPass = 0 → ∀ j, done.length ≤ j → j < groups.length → st'.vfIncluded[j]? = some false))
    · rintro done ⟨group,i⟩ rest st' hsplit ⟨hso,ha⟩
      have hi : groups.zipIdx[done.length]? = some (group, i) := by simp [hsplit]
      rw [getElem?_zipIdx,map_eq_some_iff] at hi
      obtain ⟨g,hg,hpa⟩ := hi
      obtain ⟨rfl,rfl⟩ : g = group ∧ done.length = i := by simpa using hpa
      have hlt := (List.getElem?_eq_some_iff.mp hg).1
      apply (consider_sound hso hg fun hp => ha hp _ (le_refl _) hlt).mono
      rintro st'' ⟨hs,hoth⟩
      refine ⟨hs,fun hp j hj hjlt => ?_⟩
      rw [length_append,length_singleton] at hj
      rw [hoth j (by omega)]
      exact ha hp j (by omega) hjlt
    · exact ⟨h,fun hp j _ hj => hf hp j hj⟩
  exact hl.mono fun _ hst => hst.1
end SubsetState

theorem approximateLoop_surely {target : Int} {iterations : Nat} {best : List Bool × Int}
    (hb : best.2 = amountOf (flagged groups best.1)) (hr : target ≤ amountOf groups → target ≤ best.2) :
    Surely (approximateLoop groups target iterations best) fun result =>
      result.2 = amountOf (flagged groups result.1) ∧ (target ≤ amountOf groups → target ≤ result.2) := by
  induction iterations generalizing best with
  | zero => exact .pure ⟨hb,hr⟩
  | succ iterations ih =>
    rw [approximateLoop]
    split
    · have hs : SubsetState.Sound groups target ⟨replicate groups.length false,0,false,best.1,best.2⟩ := {
        length_eq := length_replicate
        total_eq := by
          rw [flagged_replicate_false]
          rfl
        best_eq := hb
        reaches := hr }
      apply Ensures.bind (P := SubsetState.Sound groups target)
      · apply (SubsetState.pass_sound hs fun _ j hj => by simp [hj]).bind
        intro first hfst
        apply (SubsetState.pass_sound hfst fun hp => by cases hp).bind
        intro second hsnd
        exact .pure hsnd
      · intro st hst
        exact ih hst.best_eq hst.reaches
    · exact .pure ⟨hb,hr⟩

theorem approximateBestSubset_surely (groups : List OutputGroup) (target : Int) :
    Surely (approximateBestSubset groups (amountOf groups) target) fun result =>
      result.2 = amountOf (flagged groups result.1) ∧ (target ≤ amountOf groups → target ≤ result.2) :=
  approximateLoop_surely (by rw [flagged_replicate_true]) id

variable {target change_target : Int}
theorem bestSubset_surely (hr : target ≤ amountOf groups) (hchg : 0 ≤ change_target) :
    Surely (bestSubset groups (amountOf groups) target change_target) fun result =>
      result.2 = amountOf (flagged groups result.1) ∧ target ≤ result.2 := by
  apply (approximateBestSubset_surely groups target).bind
  intro first hfst
  split
  next hm =>
    apply (approximateBestSubset_surely groups (target+change_target)).mono
    rintro result ⟨hres,hw⟩
    exact ⟨hres,by omega⟩
  · exact .pure ⟨hfst.1,hfst.2 hr⟩

variable (groups : List OutputGroup)

structure KnapsackSplit.Sound (target change_target : Int) (split : KnapsackSplit) : Prop where
  applicable : split.applicable_groups.Sublist groups
  lower_eq : split.nTotalLower = amountOf split.applicable_groups
  larger : ∀ group ∈ split.lowest_larger,
    group ∈ groups ∧ target + change_target ≤ group.getSelectionAmount
  inexact : ∀ group ∈ groups, group.getSelectionAmount ≠ target
  smaller : split.lowest_larger = none → split.applicable_groups = groups ∧
    ∀ group ∈ groups, group.getSelectionAmount < target + change_target

/-- The loop ends at a group of exactly the target or with all groups put aside. -/
def SplitOutcome (target change_target : Int) : OutputGroup ⊕ KnapsackSplit → Prop
  | .inl group => group ∈ groups ∧ group.getSelectionAmount = target
  | .inr split => split.Sound groups target change_target

theorem splitGroups_outcome (rest : List OutputGroup)
    {done : List OutputGroup} {split : KnapsackSplit} (h : split.Sound done target change_target) :
    SplitOutcome (done++rest) target change_target
      (splitGroups target change_target rest split) := by
  induction rest generalizing done split with
  | nil =>
    rw [append_nil]
    exact h
  | cons group rest ih =>
    have ha : done++group::rest = done++[group]++rest := by simp
    have hk : ∀ g ∈ split.lowest_larger,
        g ∈ done++[group] ∧ target + change_target ≤ g.getSelectionAmount :=
      fun g hg => ⟨mem_append_left _ (h.larger g hg).1,(h.larger g hg).2⟩
    have happ : split.applicable_groups.Sublist (done++[group]) := h.applicable.trans (sublist_append_left _ _)
    rw [splitGroups]
    split
    · next he => exact ⟨by simp,he⟩
    next hin =>
      have hi := forall_mem_append.mpr ⟨h.inexact,forall_mem_singleton.mpr hin⟩
      rw [ha]
      split
      next hs =>
        apply ih
        refine ⟨h.applicable.append (.refl _),?_,hk,hi,fun hn => ?_⟩
        · rw [h.lower_eq]
          simp [amountOf]
        · obtain ⟨hall,hl⟩ := h.smaller hn
          exact ⟨by rw [hall],forall_mem_append.mpr ⟨hl,forall_mem_singleton.mpr hs⟩⟩
      next hla =>
        split
        · apply ih
          refine ⟨happ,h.lower_eq,?_,hi,fun hn => by cases hn⟩
          rintro g ⟨⟩
          exact ⟨by simp,by omega⟩
        next hso =>
          refine ih ⟨happ,h.lower_eq,hk,hi,fun hn => ?_⟩
          simp [hn] at hso

/-- What the groups are like when no result is returned. -/
def Insufficient (target change_target : Int) : Prop :=
  amountOf groups < target ∧ ∀ group ∈ groups, group.getSelectionAmount ≠ target ∧
    group.getSelectionAmount < target + change_target

theorem knapsackSolver_surely (order : GroupSort) (groups : List OutputGroup) (hchg : 0 ≤ change_target) :
    Surely (knapsackSolver order groups target change_target) fun solved =>
      (solved = none → Insufficient groups target change_target) ∧
        ∀ r ∈ solved, Chooses groups target target .knapsack r := by
  apply (shuffle_perm groups).bind
  intro shuffled hsh
  have hst : KnapsackSplit.Sound [] target change_target ⟨none,[],0⟩ :=
    ⟨.refl _,rfl,fun g hg => (not_mem_none g hg).elim,by simp,by simp⟩
  have hout := splitGroups_outcome shuffled hst
  rw [nil_append] at hout
  -- a result is right as soon as its groups are
  have hso : ∀ {r}, Chooses groups target target .knapsack r →
      (some r = none → Insufficient groups target change_target) ∧
        ∀ r' ∈ some r, Chooses groups target target .knapsack r' := by
    rintro r hr
    exact ⟨fun hn => (some_ne_none _ hn).elim,fun r' hr' => mem_some_iff.mp hr' ▸ hr⟩
  split
  next group hsplit =>
    rw [hsplit] at hout
    exact .pure (hso (.single (hsh.subset hout.1) hout.2.ge))
  next split hsplit =>
    rw [hsplit] at hout
    have happ : split.applicable_groups.Subperm groups := hout.applicable.subperm.trans hsh.subperm
    have hlo := hout.lower_eq
    have hla : ∀ g ∈ split.lowest_larger, Chooses groups target target .knapsack
        ((new target .knapsack).addInput g) := by
      intro g hg
      obtain ⟨hmem,hamt⟩ := hout.larger g hg
      exact .single (hsh.subset hmem) (by omega)
    split
    · next he => exact .pure (hso ⟨_,happ,by omega,rfl⟩)
    split
    next hbel =>
      apply Ensures.pure
      cases hl : split.lowest_larger with
      | some g => exact hso (hla g hl)
      | none =>
        refine ⟨fun _ => ?_,fun r hr => by cases hr⟩
        obtain ⟨hall,hle⟩ := hout.smaller hl
        rw [hlo,hall,amountOf_perm hsh] at hbel
        refine ⟨hbel,fun group hgrp => ?_⟩
        have hmem := hsh.mem_iff.mpr hgrp
        exact ⟨hout.inexact group hmem,hle group hmem⟩
    next hne hnotbelow =>
      have hsr := order.perm split.applicable_groups
      have hs : amountOf (order.sort split.applicable_groups) = split.nTotalLower := by
        rw [amountOf_perm hsr,hlo]
      rw [← hs] at hne hnotbelow ⊢
      apply (bestSubset_surely (by omega) hchg).bind
      rintro best ⟨hf,hrc⟩
      have hfl : Chooses groups target target .knapsack (addInputs (.new target .knapsack)
          (flagged (order.sort split.applicable_groups) best.1)) :=
        ⟨_,(flagged_sublist _ _).subperm.trans (hsr.subperm.trans happ),hf ▸ hrc,rfl⟩
      split
      next larger hl =>
        split
        · exact .pure (hso (hla larger hl))
        · exact .pure (hso hfl)
      · exact .pure (hso hfl)
end Lcryp
