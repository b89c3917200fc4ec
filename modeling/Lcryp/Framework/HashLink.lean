import Mathlib.Data.List.Induction

/-!
# Hash-linked lists

Every element names the hash of the one before it and the first one names a root.
-/
namespace Lcryp.HashLink
open List
variable {α ι : Type} (hash prev : α → ι)
/-- A list, oldest element first, that hangs on the given hash. -/
def Linked : ι → List α → Prop
  | _, [] => True
  | root, a::rest => prev a = root ∧ Linked (hash a) rest

/-- The hash that the next element has to name. -/
def tip : ι → List α → ι
  | root, [] => root
  | _, a::rest => tip (hash a) rest

structure Apart (root : ι) (elements : List α) : Prop where
  injective : ∀ a ∈ elements, ∀ b ∈ elements, hash a = hash b → a = b
  root_ne : ∀ a ∈ elements, hash a ≠ root

variable {hash prev} {root : ι} {l l' : List α}
instance [DecidableEq α] [DecidableEq ι] : Decidable (Apart hash root l) :=
  decidable_of_iff ((∀ a ∈ l, ∀ b ∈ l, hash a = hash b → a = b) ∧ ∀ a ∈ l, hash a ≠ root)
    ⟨fun h => ⟨h.1, h.2⟩, fun h => ⟨h.injective, h.root_ne⟩⟩

theorem tip_append (root : ι) (l l' : List α) : tip hash root (l++l') = tip hash (tip hash root l) l' := by
  induction l generalizing root with
  | nil => rfl
  | cons a rest ih => exact ih (hash a)

theorem linked_append (root : ι) (l l' : List α) :
    Linked hash prev root (l++l') ↔ Linked hash prev root l ∧ Linked hash prev (tip hash root l) l' := by
  induction l generalizing root with
  | nil => simp [Linked,tip]
  | cons a rest ih => simp [Linked,tip,ih,and_assoc]

theorem linked_concat (root : ι) (l : List α) (a : α) :
    Linked hash prev root (l++[a]) ↔ Linked hash prev root l ∧ prev a = tip hash root l := by
  simp [linked_append,Linked]

@[simp] theorem tip_concat (root : ι) (l : List α) (a : α) : tip hash root (l++[a]) = hash a := by
  simp [tip_append,tip]

theorem eq_of_tip_eq (ha : Apart hash root (l++l')) (hl : Linked hash prev root l)
    (hl' : Linked hash prev root l') (htip : tip hash root l = tip hash root l') : l = l' := by
  induction l using reverseRecOn generalizing l' with
  | nil =>
    cases l' using reverseRecOn with
    | nil => rfl
    | append_singleton init b =>
      rw [tip_concat] at htip
      exact absurd htip.symm (ha.root_ne b (by simp))
  | append_singleton init a ih =>
    cases l' using reverseRecOn with
    | nil =>
      rw [tip_concat] at htip
      exact absurd htip (ha.root_ne a (by simp))
    | append_singleton init' b =>
      rw [tip_concat,tip_concat] at htip
      obtain rfl := ha.injective a (by simp) b (by simp) htip
      obtain ⟨hin,hpr⟩ := (linked_concat _ _ _).mp hl
      obtain ⟨hi,hp⟩ := (linked_concat _ _ _).mp hl'
      have hsub : ∀ c ∈ init++init', c ∈ init++[a]++(init'++[a]) := by
        intro c hc
        simp only [mem_append] at hc ⊢
        tauto
      rw [ih ⟨fun c hc d hd => ha.injective c (hsub c hc) d (hsub d hd),
        fun c hc => ha.root_ne c (hsub c hc)⟩ hin hi (hpr.symm.trans hp)]

theorem Linked.nodup (h : Linked hash prev root l) (hap : Apart hash root l) : l.Nodup := by
  induction l using reverseRecOn with
  | nil => exact nodup_nil
  | append_singleton init a ih =>
    obtain ⟨hi,hp⟩ := (linked_concat _ _ _).mp h
    have ha : Apart hash root init :=
      ⟨fun c hc d hd => hap.injective c (by simp [hc]) d (by simp [hd]),
        fun c hc => hap.root_ne c (by simp [hc])⟩
    rw [nodup_append]
    refine ⟨ih hi ha,by simp,?_⟩
    rintro b hb c hc rfl
    obtain rfl := mem_singleton.mp hc
    -- the first occurrence hangs on the same hash as the last one
    obtain ⟨before,after,rfl⟩ := append_of_mem hb
    have hbef := ((linked_append _ _ _).mp hi).1
    have hb' := ((linked_append _ _ _).mp hi).2.1
    have hbo : Apart hash root (before++(before++b::after)) :=
      ⟨fun c hc d hd => ha.injective c (by simp at hc ⊢; tauto) d (by simp at hd ⊢; tauto),
        fun c hc => ha.root_ne c (by simp at hc ⊢; tauto)⟩
    have hs := eq_of_tip_eq hbo hbef hi (hb'.symm.trans hp)
    simp at hs
end Lcryp.HashLink
