import Mathlib.Algebra.BigOperators.Group.List.Basic
import Mathlib.Algebra.Ring.Int.Defs
import Mathlib.Data.List.Nodup

/-!
# Sets of values that are compared by a key

A set keeps the value that it has when another one with the same key is inserted.
-/
namespace Lcryp
open List
structure KeyedSet {α κ : Type} (key : α → κ) where
  elems : List α
  distinct : (elems.map key).Nodup

namespace KeyedSet
variable {α κ : Type} {key : α → κ}
def empty : KeyedSet key := ⟨[], List.nodup_nil⟩

@[simp]
theorem elems_empty : (empty : KeyedSet key).elems = [] := rfl

variable {l : List α}
theorem nodup_append_singleton {a : α} (hl : (l.map key).Nodup)
    (ha : key a ∉ l.map key) : ((l++[a]).map key).Nodup := by
  rw [map_append]
  exact hl.append (nodup_singleton _) (disjoint_singleton.mpr ha)

variable [DecidableEq κ] (s : KeyedSet key)
def insert (a : α) : KeyedSet key :=
  if h : key a ∈ s.elems.map key then s
  else ⟨s.elems++[a], nodup_append_singleton s.distinct h⟩

def insertAll (l : List α) : KeyedSet key := l.foldl insert s

theorem elems_insertAll (hl : (l.map key).Nodup) :
    (s.insertAll l).elems = s.elems++l.filter fun a => key a ∉ s.elems.map key := by
  induction l generalizing s with
  | nil => simp [insertAll]
  | cons a l ih =>
    rw [map_cons,nodup_cons] at hl
    have hs : s.insertAll (a::l) = (s.insert a).insertAll l := rfl
    rw [hs,ih _ hl.2]
    by_cases ha : key a ∈ s.elems.map key
    · rw [insert,dif_pos ha,filter_cons_of_neg (by simpa using ha)]
    -- No later value has the key of `a`, so the filter sees the old keys only.
    have hc : l.filter (fun b => key b ∉ (s.elems++[a]).map key) =
        l.filter fun b => key b ∉ s.elems.map key := by
      apply filter_congr
      intro b hb
      have hne : key b ≠ key a := fun h => hl.1 (h ▸ mem_map_of_mem hb)
      simp [hne]
    rw [insert,dif_neg ha,hc,filter_cons_of_pos (by simpa using ha)]
    simp

theorem elems_insertAll_of_nodup {s : KeyedSet key}
    (h : ((s.elems++l).map key).Nodup) : (s.insertAll l).elems = s.elems++l := by
  rw [map_append] at h
  rw [elems_insertAll s h.of_append_right,filter_eq_self.mpr]
  intro a ha
  have hne : key a ∉ s.elems.map key := fun hmem =>
    disjoint_of_nodup_append h hmem (mem_map_of_mem ha)
  simpa using hne

theorem key_mem_insertAll (hl : (l.map key).Nodup) {k : κ}
    (hk : k ∈ l.map key) : k ∈ (s.insertAll l).elems.map key := by
  rw [elems_insertAll s hl,map_append,mem_append]
  by_cases hs : k ∈ s.elems.map key
  · exact .inl hs
  · obtain ⟨a,ha,rfl⟩ := mem_map.mp hk
    exact .inr (mem_map_of_mem (mem_filter.mpr ⟨ha,by simpa using hs⟩))

def total (f : α → Int) (s : KeyedSet key) : Int := (s.elems.map f).sum

theorem total_insertAll (f : α → Int) (s : KeyedSet key) (hl : (l.map key).Nodup) :
    (s.insertAll l).total f =
      s.total f + (l.map f).sum - ((l.filter fun a => key a ∈ s.elems.map key).map f).sum := by
  have hs := ((filter_append_perm (fun a => decide (key a ∈ s.elems.map key)) l).map f).sum_eq
  simp only [map_append,sum_append,← decide_not] at hs
  simp only [total,elems_insertAll s hl,map_append,sum_append]
  omega
end KeyedSet
end Lcryp
