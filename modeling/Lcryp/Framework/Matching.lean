import Mathlib.Data.List.NodupEquivFin

/-!
# Matching a list into another in order

Each element of the first list is matched with an element of the second; the order is kept.
-/
namespace Lcryp.Matching
open List (SublistForall₂)
variable {α β : Type} {R : α → β → Prop} {a : α} {b : β} {as : List α} {bs : List β}
theorem tail (h : SublistForall₂ R (a::as) bs) : SublistForall₂ R as bs := by
  induction bs with
  | nil => cases h
  | cons b bs ih =>
    cases h with
    | cons _ hrest => exact hrest.cons_right
    | cons_right hrest => exact (ih hrest).cons_right

/-- Whatever can be matched first may as well be. -/
theorem cons_of_rel (h : R a b) : SublistForall₂ R (a::as) (b::bs) ↔ SublistForall₂ R as bs := by
  constructor
  · intro hm
    cases hm with
    | cons _ hrest => exact hrest
    | cons_right hrest => exact tail hrest
  · exact SublistForall₂.cons h

theorem cons_of_not_rel (h : ¬ R a b) : SublistForall₂ R (a::as) (b::bs) ↔ SublistForall₂ R (a::as) bs := by
  constructor
  · intro hm
    cases hm with
    | cons hrel _ => exact absurd hrel h
    | cons_right hrest => exact hrest
  · exact SublistForall₂.cons_right

theorem length_le (h : SublistForall₂ R as bs) : as.length ≤ bs.length := by
  obtain ⟨used,hu,hsub⟩ := List.sublistForall₂_iff.mp h
  rw [hu.length_eq]
  exact hsub.length_le

theorem iff_orderEmbedding :
    SublistForall₂ R as bs ↔ ∃ f : Fin as.length ↪o Fin bs.length, ∀ i, R (as.get i) (bs.get (f i)) := by
  rw [List.sublistForall₂_iff]
  constructor
  · rintro ⟨used,hu,hsub⟩
    obtain ⟨f,hf⟩ := List.sublist_iff_exists_fin_orderEmbedding_get_eq.mp hsub
    refine ⟨(Fin.castOrderIso hu.length_eq).toOrderEmbedding.trans f,fun i => ?_⟩
    have hrel := hu.get i.isLt (hu.length_eq ▸ i.isLt)
    rw [hf] at hrel
    exact hrel
  · rintro ⟨f,hf⟩
    refine ⟨List.ofFn fun i => bs.get (f i),List.forall₂_iff_get.mpr ⟨by simp,?_⟩,?_⟩
    · intro i hi _
      simpa using hf ⟨i,hi⟩
    · apply List.sublist_iff_exists_fin_orderEmbedding_get_eq.mpr
      exact ⟨(Fin.castOrderIso (by simp)).toOrderEmbedding.trans f,fun i => by simp; rfl⟩
end Lcryp.Matching
