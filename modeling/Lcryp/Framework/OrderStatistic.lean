import Mathlib.Data.List.Sort

/-!
# Order statistics of a list

An entry of the sorted list is bounded from below by counting.
-/
namespace Lcryp.OrderStatistic
open List
variable {α : Type} [LinearOrder α]
private theorem le_getElem_iff {l : List α} (hl : l.Pairwise (· ≤ ·)) {i : Nat} (hi : i < l.length)
    (m : α) : m ≤ l[i] ↔ l.length ≤ l.countP (fun x => decide (m ≤ x)) + i := by
  induction l generalizing i with
  | nil => cases hi
  | cons a l ih =>
    rw [pairwise_cons] at hl
    by_cases ha : m ≤ a
    · -- all values are counted
      have hall : ∀ x ∈ a::l, m ≤ x := forall_mem_cons.mpr ⟨ha,fun x hx => ha.trans (hl.1 x hx)⟩
      have hcnt : (a::l).countP (fun x => decide (m ≤ x)) = (a::l).length :=
        countP_eq_length.mpr (by simpa using hall)
      exact iff_of_true (hall _ (getElem_mem hi)) (by omega)
    · rw [countP_cons_of_neg (by simpa using ha),length_cons]
      cases i with
      | zero =>
        have := countP_le_length (p := fun x => decide (m ≤ x)) (l := l)
        exact iff_of_false ha (by omega)
      | succ i =>
        rw [getElem_cons_succ,ih hl.2]
        omega

theorem le_sorted_iff (l : List α) {i : Nat} (hi : i < l.length) (d m : α) :
    m ≤ (l.insertionSort (· ≤ ·)).getD i d ↔ l.length ≤ l.countP (fun x => decide (m ≤ x)) + i := by
  have hp := perm_insertionSort (· ≤ ·) l
  have hs : (l.insertionSort (· ≤ ·)).Pairwise (· ≤ ·) := pairwise_insertionSort _ _
  have hi' : i < (l.insertionSort (· ≤ ·)).length := by rwa [hp.length_eq]
  rw [getD_eq_getElem?_getD,getElem?_eq_getElem hi',← hp.countP_eq,← hp.length_eq]
  exact le_getElem_iff hs hi' m

def median (l : List α) (d : α) : α := (l.insertionSort (· ≤ ·)).getD (l.length/2) d

/-- The median does not fall when a larger value enters and at most one value leaves. -/
theorem median_le_cons {l l' : List α} {d t : α} (hl : l ≠ []) (ht : median l d < t) (hsub : l'.Sublist l)
    (hlen : l'.length = l.length ∨ l'.length + 1 = l.length) : median l d ≤ median (t::l') d := by
  have hpos : 0 < l.length := length_pos_iff.mpr hl
  have hold := (le_sorted_iff l (by omega) d (median l d)).mp le_rfl
  have hlo := hsub.le_countP (fun x => decide (median l d ≤ x))
  refine (le_sorted_iff (t::l') ?_ d _).mpr ?_
  · simp only [length_cons]
    omega
  · rw [countP_cons_of_pos (by simpa using ht.le),length_cons]
    omega
end Lcryp.OrderStatistic
