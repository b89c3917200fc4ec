import Mathlib.Data.List.Perm.Lattice
import Mathlib.Data.List.TakeWhile
import Mathlib.Order.Lattice

/-!
# Containers with several orders

The elements of the container are kept in three lists, one for each order.  The first order has distinct
keys.
-/
namespace Lcryp.MultiIndex
open List Option
variable {α κ : Type} [LinearOrder κ] {key : α → κ}
def Sorted (key : α → κ) (l : List α) : Prop := l.Pairwise fun a b => key a ≤ key b

/-- An element is put behind all elements whose key is not greater. -/
def insertUpper (key : α → κ) (a : α) : List α → List α
  | [] => [a]
  | b::l => if key b ≤ key a then b::insertUpper key a l else a::b::l

theorem insertUpper_perm (a : α) (l : List α) : (insertUpper key a l).Perm (a::l) := by
  induction l with
  | nil => exact .refl _
  | cons b l ih =>
    rw [insertUpper]
    split
    · exact (ih.cons b).trans (.swap a b l)
    · exact .refl _

theorem Sorted.insertUpper {l : List α} (h : Sorted key l) (a : α) : Sorted key (insertUpper key a l) := by
  induction l with
  | nil => exact pairwise_singleton _ _
  | cons b l ih =>
    obtain ⟨hb,hl⟩ := pairwise_cons.mp h
    rw [MultiIndex.insertUpper]
    split
    next hle =>
      refine pairwise_cons.mpr ⟨fun c hc => ?_,ih hl⟩
      rcases mem_cons.mp ((insertUpper_perm a l).mem_iff.mp hc) with rfl | hc
      · exact hle
      · exact hb c hc
    next hlt =>
      have hab : key a ≤ key b := le_of_lt (not_le.mp hlt)
      refine pairwise_cons.mpr ⟨fun c hc => ?_,h⟩
      rcases mem_cons.mp hc with rfl | hc
      · exact hab
      · exact hab.trans (hb c hc)

theorem Sorted.le_getLast {b c : α} {l : List α} (hs : Sorted key l) (hb : l.getLast? = some b) (hc : c ∈ l) :
    key c ≤ key b := by
  obtain ⟨pre,rfl⟩ := getLast?_eq_some_iff.mp hb
  rcases mem_append.mp hc with hc | hc
  · exact (pairwise_append.mp hs).2.2 c hc b mem_cons_self
  · rw [mem_singleton.mp hc]

theorem Sorted.head_le {b c : α} {l : List α} (hs : Sorted key l) (hb : l.head? = some b) (hc : c ∈ l) : key b ≤ key c := by
  cases l with
  | nil => cases hb
  | cons d l =>
    obtain rfl : d = b := by simpa using hb
    rcases mem_cons.mp hc with rfl | hc
    · exact le_rfl
    · exact (pairwise_cons.mp hs).1 c hc

section Neighbours
variable [DecidableEq α] {a b c old new : α} {l : List α}
def before (l : List α) (a : α) : List α := l.takeWhile (· ≠ a)
def behind (l : List α) (a : α) : List α := (l.dropWhile (· ≠ a)).tail

/-- `std::prev`. -/
def preceding (l : List α) (a : α) : Option α := (before l a).getLast?

/-- `std::next`. -/
def following (l : List α) (a : α) : Option α := (behind l a).head?

theorem before_append_behind (h : a ∈ l) : before l a++a::behind l a = l := by
  induction l with
  | nil => cases h
  | cons b l ih =>
    by_cases hb : b = a
    · simp [before,behind,hb]
    · have ih := ih ((mem_cons.mp h).resolve_left (Ne.symm hb))
      simpa [before,behind,hb] using ih

theorem ne_of_mem_before (h : b ∈ before l a) : b ≠ a := by
  simpa using mem_takeWhile_imp h
theorem erase_eq (h : a ∈ l) : before l a++behind l a = l.erase a := by
  have hnot : a ∉ before l a := fun hmem => ne_of_mem_before hmem rfl
  nth_rewrite 3 [← before_append_behind h]
  rw [erase_append_right _ hnot,erase_cons_head]

theorem mem_of_preceding (h : preceding l a = some b) : b ∈ l ∧ b ≠ a := by
  have hmem := mem_of_getLast? h
  exact ⟨(takeWhile_sublist _).subset hmem,ne_of_mem_before hmem⟩

theorem behind_sublist : (behind l a).Sublist l := (tail_sublist _).trans (dropWhile_sublist _)
theorem ne_of_mem_behind (hl : l.Nodup) (ha : a ∈ l) (h : b ∈ behind l a) : b ≠ a := by
  rw [← before_append_behind ha] at hl
  rintro rfl
  exact (nodup_cons.mp hl.of_append_right).1 h

theorem mem_before_or_behind (ha : a ∈ l) (hb : b ∈ l) (hne : b ≠ a) : b ∈ before l a ∨ b ∈ behind l a := by
  rw [← before_append_behind ha,mem_append] at hb
  exact hb.imp_right fun hb => (mem_cons.mp hb).resolve_left hne

theorem mem_of_following (hl : l.Nodup) (ha : a ∈ l) (h : following l a = some b) : b ∈ l ∧ b ≠ a := by
  have hmem : b ∈ behind l a := mem_of_head? h
  exact ⟨behind_sublist.subset hmem,ne_of_mem_behind hl ha hmem⟩
section Order
variable (hs : Sorted key l)
include hs

theorem Sorted.le_of_preceding (ha : a ∈ l) (h : preceding l a = some b) : key b ≤ key a := by
  rw [← before_append_behind ha] at hs
  exact (pairwise_append.mp hs).2.2 b (mem_of_getLast? h) a mem_cons_self

theorem Sorted.le_of_mem_behind (ha : a ∈ l) (h : b ∈ behind l a) : key a ≤ key b := by
  rw [← before_append_behind ha] at hs
  exact (pairwise_cons.mp (pairwise_append.mp hs).2.1).1 b h

theorem Sorted.le_of_following (ha : a ∈ l) (h : following l a = some b) : key a ≤ key b :=
  hs.le_of_mem_behind ha (mem_of_head? h)
theorem Sorted.exists_preceding (ha : a ∈ l) (hc : c ∈ before l a) :
    ∃ b, preceding l a = some b ∧ key c ≤ key b ∧ key b ≤ key a := by
  have hbef : Sorted key (before l a) := hs.sublist (takeWhile_sublist _)
  obtain ⟨b,hb⟩ := isSome_iff_exists.mp (getLast?_isSome.mpr (ne_nil_of_mem hc))
  exact ⟨b,hb,hbef.le_getLast hb hc,hs.le_of_preceding ha hb⟩

theorem Sorted.exists_following (ha : a ∈ l) (hc : c ∈ behind l a) :
    ∃ b, following l a = some b ∧ key a ≤ key b ∧ key b ≤ key c := by
  have hbeh : Sorted key (behind l a) := hs.sublist behind_sublist
  obtain ⟨b,hb⟩ := isSome_iff_exists.mp (isSome_head?.mpr (ne_nil_of_mem hc))
  exact ⟨b,hb,hs.le_of_following ha hb,hbeh.head_le hb hc⟩

theorem Sorted.neighbour (ha : a ∈ l) (hc : c ∈ l) (hne : c ≠ a) :
    (∃ b, preceding l a = some b ∧ key c ≤ key b ∧ key b ≤ key a) ∨
      ∃ b, following l a = some b ∧ key a ≤ key b ∧ key b ≤ key c :=
  (mem_before_or_behind ha hc hne).imp (hs.exists_preceding ha) (hs.exists_following ha)
end Order

def relocate (key : α → κ) (old new : α) (l : List α) : List α :=
  if (∀ b ∈ preceding l old, key b ≤ key new) ∧ ∀ b ∈ following l old, key new ≤ key b then
    before l old++new::behind l old
  else insertUpper key new (before l old++behind l old)

theorem relocate_perm (h : old ∈ l) : (relocate key old new l).Perm (new::l.erase old) := by
  rw [relocate,← erase_eq h]
  split
  · exact perm_middle
  · exact insertUpper_perm _ _

theorem Sorted.relocate (hs : Sorted key l) (h : old ∈ l) : Sorted key (relocate key old new l) := by
  have hr : Sorted key (before l old++behind l old) := by
    rw [erase_eq h]
    exact hs.sublist erase_sublist
  rw [MultiIndex.relocate]
  split
  next hp =>
    obtain ⟨hbef,hbeh,hcr⟩ := pairwise_append.mp hr
    refine pairwise_append.mpr ⟨hbef,pairwise_cons.mpr ⟨fun c hc => ?_,hbeh⟩,?_⟩
    · obtain ⟨b,hb⟩ := isSome_iff_exists.mp (isSome_head?.mpr (ne_nil_of_mem hc))
      exact (hp.2 b hb).trans (Sorted.head_le hbeh hb hc)
    · intro c hc d hd
      rcases mem_cons.mp hd with rfl | hd
      · obtain ⟨b,hb⟩ := isSome_iff_exists.mp (getLast?_isSome.mpr (ne_nil_of_mem hc))
        exact (Sorted.le_getLast hbef hb hc).trans (hp.1 b hb)
      · exact hcr c hc d hd
  · exact hr.insertUpper new
end Neighbours
end MultiIndex

/-- The same elements in three orders, the first of which is unique. -/
structure MultiIndex {α κ₁ κ₂ κ₃ : Type} [LinearOrder κ₁] [LinearOrder κ₂] [LinearOrder κ₃]
    (k₁ : α → κ₁) (k₂ : α → κ₂) (k₃ : α → κ₃) where
  first : List α
  second : List α
  third : List α
  first_sorted : MultiIndex.Sorted k₁ first
  second_sorted : MultiIndex.Sorted k₂ second
  third_sorted : MultiIndex.Sorted k₃ third
  unique : (first.map k₁).Nodup
  second_perm : second.Perm first
  third_perm : third.Perm first
namespace MultiIndex
variable {α κ₁ κ₂ κ₃ : Type} [LinearOrder κ₁] [LinearOrder κ₂] [LinearOrder κ₃] {k₁ : α → κ₁}
  {k₂ : α → κ₂} {k₃ : α → κ₃} (idx : MultiIndex k₁ k₂ k₃)

instance : Membership α (MultiIndex k₁ k₂ k₃) := ⟨fun idx a => a ∈ idx.first⟩

variable {idx : MultiIndex k₁ k₂ k₃} {a : α}
theorem mem_def : a ∈ idx ↔ a ∈ idx.first := Iff.rfl
theorem mem_second : a ∈ idx.second ↔ a ∈ idx := idx.second_perm.mem_iff
theorem mem_third : a ∈ idx.third ↔ a ∈ idx := idx.third_perm.mem_iff
theorem nodup_first : idx.first.Nodup := idx.unique.of_map k₁
theorem nodup_second : idx.second.Nodup := idx.second_perm.nodup_iff.mpr idx.nodup_first

def empty : MultiIndex k₁ k₂ k₃ where
  first := []
  second := []
  third := []
  first_sorted := .nil
  second_sorted := .nil
  third_sorted := .nil
  unique := .nil
  second_perm := .refl _
  third_perm := .refl _

def emplace (a : α) : Option (MultiIndex k₁ k₂ k₃) :=
  if h : k₁ a ∈ idx.first.map k₁ then none
  else some {
    first := insertUpper k₁ a idx.first
    second := insertUpper k₂ a idx.second
    third := insertUpper k₃ a idx.third
    first_sorted := idx.first_sorted.insertUpper a
    second_sorted := idx.second_sorted.insertUpper a
    third_sorted := idx.third_sorted.insertUpper a
    unique := by
      rw [((insertUpper_perm a idx.first).map k₁).nodup_iff]
      exact List.nodup_cons.mpr ⟨h, idx.unique⟩
    second_perm := (insertUpper_perm _ _).trans ((idx.second_perm.cons a).trans (insertUpper_perm _ _).symm)
    third_perm := (insertUpper_perm _ _).trans ((idx.third_perm.cons a).trans (insertUpper_perm _ _).symm) }

variable {idx' : MultiIndex k₁ k₂ k₃}
theorem emplace_eq_some (h : idx.emplace a = some idx') :
    idx'.first.Perm (a::idx.first) ∧ ∀ b ∈ idx, k₁ b ≠ k₁ a := by
  unfold emplace at h
  split at h
  · cases h
  next hf =>
    rw [← Option.some_inj.mp h]
    exact ⟨insertUpper_perm _ _,fun b hb hkey => hf (List.mem_map.mpr ⟨b,hb,hkey⟩)⟩

variable [DecidableEq α]
instance (a : α) (idx : MultiIndex k₁ k₂ k₃) : Decidable (a ∈ idx) :=
  inferInstanceAs (Decidable (a ∈ idx.first))

def erase (a : α) : MultiIndex k₁ k₂ k₃ where
  first := idx.first.erase a
  second := idx.second.erase a
  third := idx.third.erase a
  first_sorted := idx.first_sorted.sublist List.erase_sublist
  second_sorted := idx.second_sorted.sublist List.erase_sublist
  third_sorted := idx.third_sorted.sublist List.erase_sublist
  unique := idx.unique.sublist (List.erase_sublist.map k₁)
  second_perm := idx.second_perm.erase a
  third_perm := idx.third_perm.erase a

theorem mem_erase {a b : α} : b ∈ idx.erase a ↔ b ≠ a ∧ b ∈ idx := idx.nodup_first.mem_erase_iff

/-- `modify` of an element; nothing if the key of the first order is taken by another one. -/
def modify (old new : α) (hold : old ∈ idx) : Option (MultiIndex k₁ k₂ k₃) :=
  if h : k₁ new ∈ (idx.first.erase old).map k₁ then none
  else some {
    first := relocate k₁ old new idx.first
    second := relocate k₂ old new idx.second
    third := relocate k₃ old new idx.third
    first_sorted := idx.first_sorted.relocate hold
    second_sorted := idx.second_sorted.relocate (mem_second.mpr hold)
    third_sorted := idx.third_sorted.relocate (mem_third.mpr hold)
    unique := by
      rw [((relocate_perm hold).map k₁).nodup_iff]
      exact List.nodup_cons.mpr ⟨h, idx.unique.sublist (List.erase_sublist.map k₁)⟩
    second_perm := (relocate_perm (mem_second.mpr hold)).trans
      (((idx.second_perm.erase old).cons new).trans (relocate_perm hold).symm)
    third_perm := (relocate_perm (mem_third.mpr hold)).trans
      (((idx.third_perm.erase old).cons new).trans (relocate_perm hold).symm) }

theorem modify_eq_some {old new : α} {hold : old ∈ idx}
    (h : idx.modify old new hold = some idx') : idx'.first.Perm (new::idx.first.erase old) := by
  unfold modify at h
  split at h
  · cases h
  · rw [← Option.some_inj.mp h]
    exact relocate_perm hold

theorem exists_modify {old : α} (new : α) (hold : old ∈ idx)
    (h : ∀ b ∈ idx, k₁ b = k₁ new → b = old) : ∃ idx', idx.modify old new hold = some idx' := by
  have hf : k₁ new ∉ (idx.first.erase old).map k₁ := by
    intro hmem
    obtain ⟨b,hb,hkey⟩ := List.mem_map.mp hmem
    rw [idx.nodup_first.mem_erase_iff] at hb
    exact hb.1 (h b hb.2 hkey)
  exact ⟨_,dif_neg hf⟩
end MultiIndex
end Lcryp
