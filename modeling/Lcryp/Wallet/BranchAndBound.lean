import Lcryp.Wallet.Selection

/-!
# Branch and bound

The search walks along the sorted pool.
-/
namespace Lcryp
open SelectionResult List Nat
def groupsAt (pool : List OutputGroup) (indexes : List Nat) : List OutputGroup :=
  indexes.filterMap fun i => pool[i]?

variable {pool : List OutputGroup} {group : OutputGroup}
theorem groupsAt_concat {i : Nat} (h : pool[i]? = some group) (indexes : List Nat) :
    groupsAt pool (indexes++[i]) = groupsAt pool indexes++[group] := by
  simp [groupsAt,h]

theorem groupsAt_range (pool : List OutputGroup) : groupsAt pool (range pool.length) = pool := by
  induction pool using reverseRecOn with
  | nil => rfl
  | append_singleton pool group ih =>
    rw [length_append,length_singleton,range_succ]
    have hp : groupsAt (pool++[group]) (range pool.length) = groupsAt pool (range pool.length) := by
      apply filterMap_congr
      intro i hi
      exact getElem?_append_left (mem_range.mp hi)
    have hl : groupsAt (pool++[group]) [pool.length] = [group] := by simp [groupsAt]
    rw [groupsAt,filterMap_append,← groupsAt,← groupsAt,hp,hl,ih]

variable {indexes : List Nat}
theorem groupsAt_subperm (hnd : indexes.Nodup)
    (hlt : ∀ i ∈ indexes, i < pool.length) : (groupsAt pool indexes).Subperm pool := by
  obtain ⟨l,hp,hsub⟩ := subperm_of_subset hnd fun i hi => mem_range.mpr (hlt i hi)
  refine ⟨groupsAt pool l,hp.filterMap _,?_⟩
  have hs := hsub.filterMap fun i => pool[i]?
  rwa [← groupsAt,← groupsAt,groupsAt_range] at hs

theorem groupsAt_reverse_perm (pool : List OutputGroup) (indexes : List Nat) :
    (groupsAt pool indexes.reverse).Perm (groupsAt pool indexes) :=
  (reverse_perm indexes).filterMap _

variable {subtract : Bool} {target : Int}
theorem addInputsAt_succeeds (hp : IsPool subtract pool) (hnd : indexes.Nodup)
    (hlt : ∀ i ∈ indexes, i < pool.length) (algo : SelectionAlgorithm) :
    Succeeds (addInputsAt pool (.new target algo) indexes)
      (Selects subtract pool target (groupsAt pool indexes)) := by
  apply Yields.foldlM (I := fun done result => Selects subtract pool target (groupsAt pool done) result)
  · intro done i rest result hindexes hdone
    have hs : (done++[i]).Sublist indexes := by
      rw [hindexes]
      exact (sublist_append_left [i] rest).append_left done
    have hi : i < pool.length := hlt i (hs.subset (by simp))
    have hr : pool[i]? = some pool[i] := getElem?_eq_getElem hi
    have happ := groupsAt_concat hr done
    rw [readAt_eq_ok hr,happ]
    apply hdone.addInput hp
    rw [← happ]
    exact groupsAt_subperm (hnd.sublist hs) fun j hj => hlt j (hs.subset hj)
  · exact .new target algo

structure IsSolution (pool : List OutputGroup) (target cost : Int) (selection : List Nat)
    (waste : Int) : Prop where
  descending : selection.Pairwise (· > ·)
  inside : ∀ i ∈ selection, i < pool.length
  reaches : target ≤ amountOf (groupsAt pool selection)
  bounded : amountOf (groupsAt pool selection) ≤ target + cost
  waste_eq : waste = excessFeeOf (groupsAt pool selection) + (amountOf (groupsAt pool selection) - target)

namespace BnBState
/-- The variables are sums over the selected groups and over those ahead. -/
structure Sound (pool : List OutputGroup) (target cost : Int) (st : BnBState) : Prop where
  descending : st.curr_selection.Pairwise (· > ·)
  behind : ∀ i ∈ st.curr_selection, i < st.utxo_pool_index
  index_le : st.utxo_pool_index ≤ pool.length
  value_eq : st.curr_value = amountOf (groupsAt pool st.curr_selection)
  waste_eq : st.curr_waste = excessFeeOf (groupsAt pool st.curr_selection)
  available_eq : st.curr_available_value = amountOf (pool.drop st.utxo_pool_index)
  best : st.best_selection = [] ∨ IsSolution pool target cost st.best_selection st.best_waste

variable {target cost : Int} {st : BnBState}
theorem amountOf_drop {index : Nat} (h : pool[index]? = some group) :
    amountOf (pool.drop index) = group.getSelectionAmount + amountOf (pool.drop (index+1)) := by
  obtain ⟨hlt,rfl⟩ := List.getElem?_eq_some_iff.mp h
  rw [List.drop_eq_getElem_cons hlt,amountOf_cons]

theorem groupsAt_eq_cons {back : Nat} (h : pool[back]? = some group) (rest : List Nat) :
    amountOf (groupsAt pool (back::rest)) = group.getSelectionAmount + amountOf (groupsAt pool rest) ∧
      excessFeeOf (groupsAt pool (back::rest)) =
        group.fee - group.long_term_fee + excessFeeOf (groupsAt pool rest) := by
  simp [groupsAt,h,excessFeeOf]

/-- The groups between the last selected one and the index are available again. -/
theorem walkBack_eq_ok {back index : Nat} (hb : back ≤ index) (hidx : index < pool.length) :
    walkBack pool back index (amountOf (pool.drop (index+1))) = .ok (back, amountOf (pool.drop (back+1))) := by
  induction index with
  | zero =>
    obtain rfl : back = 0 := le_zero.mp hb
    rfl
  | succ index ih =>
    rw [walkBack]
    by_cases hlt : index + 1 > back
    · have hr : pool[index+1]? = some pool[index+1] := getElem?_eq_getElem hidx
      rw [if_pos hlt,readAt_eq_ok hr,ok_bind,Int.add_comm,← amountOf_drop hr]
      exact ih (by omega) (by omega)
    · obtain rfl : back = index + 1 := by omega
      rw [if_neg hlt]

section
variable (h : Sound pool target cost st)
include h

theorem Sound.backtrack : Succeeds (st.backtrack pool) (Turn.Keeps (Sound pool target cost)) := by
  unfold BnBState.backtrack
  split
  · exact h
  next back rest hsel =>
    have hd := h.descending
    rw [hsel,pairwise_cons] at hd
    have hb : back < st.utxo_pool_index := h.behind back (by simp [hsel])
    have hidx := h.index_le
    have hr : pool[back]? = some pool[back] := getElem?_eq_getElem (by omega)
    obtain ⟨start,hs⟩ : ∃ start, st.utxo_pool_index = start + 1 := exists_eq_add_one.mpr (by omega)
    obtain ⟨hval,hw⟩ := groupsAt_eq_cons hr rest
    rw [hs,decrement,ok_bind,h.available_eq,hs,walkBack_eq_ok (by omega) (by omega),ok_bind]
    dsimp only
    rw [require,if_pos rfl,readAt_eq_ok hr]
    exact {
      descending := hd.2
      behind := fun i hi => by
        have hi' := hd.1 i hi
        show i < back + 1
        omega
      index_le := by
        show back + 1 ≤ pool.length
        omega
      value_eq := by
        have hc := h.value_eq
        rw [hsel] at hc
        show st.curr_value - _ = amountOf (groupsAt pool rest)
        omega
      waste_eq := by
        have hc := h.waste_eq
        rw [hsel] at hc
        show st.curr_waste - _ = excessFeeOf (groupsAt pool rest)
        omega
      available_eq := rfl
      best := h.best }

theorem Sound.keepBest (hr : target ≤ st.curr_value)
    (hb : st.curr_value ≤ target + cost) : Sound pool target cost (st.keepBest target) := by
  have hval := h.value_eq
  unfold BnBState.keepBest
  dsimp only
  split
  · exact { h with
      best := .inr {
        descending := h.descending
        inside := fun i hi => (h.behind i hi).trans_le h.index_le
        reaches := hval ▸ hr
        bounded := hval ▸ hb
        waste_eq := by rw [← hval,← h.waste_eq] } }
  · exact h

theorem Sound.isTried (utxo : OutputGroup) : Succeeds (st.isTried pool utxo) fun _ => True := by
  unfold BnBState.isTried
  split
  · trivial
  next back rest hsel =>
    have hb : back < st.utxo_pool_index := h.behind back (by simp [hsel])
    have hidx := h.index_le
    obtain ⟨before,hbef⟩ : ∃ before, st.utxo_pool_index = before + 1 := exists_eq_add_one.mpr (by omega)
    split
    · trivial
    · rw [hbef,decrement,ok_bind,readAt_eq_ok (getElem?_eq_getElem (show before < pool.length by omega))]
      trivial

theorem Sound.advance (hlt : st.utxo_pool_index < pool.length) :
    Succeeds (st.advance pool) (Turn.Keeps (Sound pool target cost)) := by
  have hr : pool[st.utxo_pool_index]? = some pool[st.utxo_pool_index] := getElem?_eq_getElem hlt
  have ha := amountOf_drop hr
  obtain ⟨hval,hw⟩ := groupsAt_eq_cons hr st.curr_selection
  have hp : st.curr_available_value - pool[st.utxo_pool_index].getSelectionAmount =
      amountOf (pool.drop (st.utxo_pool_index+1)) := by
    rw [h.available_eq]
    omega
  rw [BnBState.advance,readAt_eq_ok hr]
  apply (h.isTried pool[st.utxo_pool_index]).bind
  intro tried _
  cases tried with
  | true =>
    exact {
      descending := pairwise_cons.mpr ⟨fun i hi => h.behind i hi,h.descending⟩
      behind := by
        intro i hi
        rcases mem_cons.mp hi with rfl | hi'
        · exact lt_succ_self _
        · exact (h.behind i hi').trans (lt_succ_self _)
      index_le := hlt
      value_eq := by
        rw [hval,← h.value_eq]
        exact Int.add_comm _ _
      waste_eq := by
        rw [hw,← h.waste_eq]
        exact Int.add_comm _ _
      available_eq := hp
      best := h.best }
  | false =>
    exact {
      descending := h.descending
      behind := fun i hi => (h.behind i hi).trans (lt_succ_self _)
      index_le := hlt
      value_eq := h.value_eq
      waste_eq := h.waste_eq
      available_eq := hp
      best := h.best }
end

theorem isCut_succeeds (st : BnBState) (hp : pool ≠ []) :
    Succeeds (st.isCut pool target cost) fun cut => cut = false →
      target ≤ st.curr_value + st.curr_available_value ∧ st.curr_value ≤ target + cost := by
  unfold isCut
  split
  · exact fun h => by cases h
  next hbo =>
    have hb : target ≤ st.curr_value + st.curr_available_value ∧ st.curr_value ≤ target + cost := by omega
    split
    · have hr : pool[0]? = some (pool.head hp) := by rw [← head?_eq_getElem?,head?_eq_some_head hp]
      rw [readAt_eq_ok hr]
      exact fun _ => hb
    · exact fun _ => hb

theorem Sound.turn (h : Sound pool target cost st) (hp : pool ≠ []) :
    Succeeds (st.turn pool target cost) (Turn.Keeps (Sound pool target cost)) := by
  apply (isCut_succeeds st hp).bind
  intro cut hcut
  cases cut with
  | true => exact h.backtrack
  | false =>
    obtain ⟨ha,hb⟩ := hcut rfl
    simp only [Bool.false_eq_true,if_false]
    split
    · next hr => exact (h.keepBest hr hb).backtrack
    next hs =>
      -- Something is missing and available, so the index has not reached the end.
      apply h.advance
      by_contra hend
      have hd : pool.drop st.utxo_pool_index = [] := drop_eq_nil_iff.mpr (by omega)
      have hn := h.available_eq
      rw [hd] at hn
      have hz : amountOf [] = 0 := rfl
      omega
end BnBState

theorem sumPositive_succeeds (hpos : ∀ group ∈ pool, 0 < group.getSelectionAmount) :
    Succeeds (sumPositive pool) (· = amountOf pool) := by
  apply Yields.foldlM (I := fun done sum => sum = amountOf done)
  · intro done group rest sum hsplit hsum
    have hgrp : group.getSelectionAmount > 0 := hpos group (by simp [hsplit])
    rw [require,if_pos hgrp,ok_bind,hsum]
    simp [amountOf,Yields,pure,Except.pure]
  · rfl

variable {cost : Int}
theorem IsSolution.computeAndSetWaste {waste : Int} {selection : List Nat} {result : SelectionResult}
    (h : IsSolution pool target cost selection waste) (hpo : IsPool subtract pool) (htgt : 0 < target)
    (hc : 0 ≤ cost) (hs : Selects subtract pool target (groupsAt pool selection.reverse) result) :
    result.computeAndSetWaste cost cost 0 = .ok { result with m_waste := some waste } := by
  have hp := groupsAt_reverse_perm pool selection
  have hamt := hs.selectedAmount_eq hpo
  rw [amountOf_perm hp] at hamt
  have he : result.m_selected_inputs.total COutput.excessFee = excessFeeOf (groupsAt pool selection) := by
    rw [KeyedSet.total,hs.inputs,sum_excessFee]
    exact (hp.map _).sum_eq
  have hr := h.reaches
  have hb := h.bounded
  have hne : groupsAt pool selection.reverse ≠ [] := by
    apply Selects.ne_nil htgt
    rw [amountOf_perm hp]
    exact hr
  have heff := hs.effective hne
  rw [computeAndSetWaste_eq_ok cost cost 0 heff (elems_ne_nil_of_reaches htgt (hamt ▸ hr))
    (by rw [hs.target_eq,hamt]; exact hr) hc]
  rw [h.waste_eq,he,getChange_eq result heff,hamt,hs.target_eq]
  simp only [ite_self,sub_zero]
  congr 3
  split_ifs <;> omega

theorem selectCoinsBnB_succeeds {coins : List COutPoint} (order : GroupSort)
    (hpo : IsPool subtract pool) (hco : ∀ c ∈ coinsOf pool, c.outpoint ∈ coins)
    (hpos : ∀ group ∈ pool, 0 < group.getSelectionAmount) (htgt : 0 < target) (hcs : 0 ≤ cost) :
    Succeeds (selectCoinsBnB order pool target cost) fun outcome =>
      outcome.2.Perm pool ∧ ∀ result ∈ outcome.1,
        Funds subtract coins target result ∧ result.m_waste.isSome := by
  apply (sumPositive_succeeds hpos).bind
  rintro available rfl
  split
  · exact ⟨.refl _,by simp⟩
  next he =>
    have hp := order.perm pool
    have hso : IsPool subtract (order.sort pool) := hpo.of_subperm hp.subperm
    have hne : order.sort pool ≠ [] := by
      apply Selects.ne_nil htgt
      rw [amountOf_perm hp]
      omega
    have hsa : BnBState.Sound (order.sort pool) target cost ⟨0,[],amountOf pool,0,[],maxMoney,0⟩ := {
      descending := .nil
      behind := by simp
      index_le := zero_le _
      value_eq := rfl
      waste_eq := rfl
      available_eq := (amountOf_perm hp).symm
      best := .inl rfl }
    apply (iterateUpTo_yields (fun st hst => BnBState.Sound.turn hst hne) hsa).bind
    intro last hlast
    split
    · exact ⟨hp,by simp⟩
    next hb =>
      have hs := hlast.best.resolve_left hb
      have hnd : last.best_selection.reverse.Nodup :=
        nodup_reverse.mpr (hs.descending.imp fun h => ne_of_gt h)
      have hin : ∀ i ∈ last.best_selection.reverse, i < (order.sort pool).length :=
        fun i hi => hs.inside i (mem_reverse.mp hi)
      apply (addInputsAt_succeeds hso hnd hin .bnb).bind
      intro chosen hchosen
      rw [hs.computeAndSetWaste hso htgt hcs hchosen,ok_bind,getWaste,ok_bind,require,if_pos rfl]
      have hf : Funds subtract coins target chosen := by
        apply hchosen.funds hso _ htgt
        · rw [amountOf_perm (groupsAt_reverse_perm _ _)]
          exact hs.reaches
        · intro c hc
          exact hco c ((hp.flatMap_right _).subset hc)
      refine ⟨hp,?_⟩
      rintro result ⟨⟩
      exact ⟨⟨hf.target_eq,hf.effective,hf.reaches,hf.within⟩,rfl⟩
end Lcryp
