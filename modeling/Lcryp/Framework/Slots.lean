
/-!
# Slots

A vector of optional values seen as slots that are filled one at a time.
-/
namespace Lcryp.Slots
open List
variable {α : Type}
/-- The free slots of the vector in order, if its first slot has number `p`. -/
def freeFrom : Nat → List (Option α) → List Nat
  | _, [] => []
  | p, none::l => p::freeFrom (p+1) l
  | p, some _::l => freeFrom (p+1) l

theorem length_freeFrom (p : Nat) (l : List (Option α)) :
    (freeFrom p l).length + l.countP Option.isSome = l.length := by
  induction l generalizing p with
  | nil => rfl
  | cons slot l ih =>
    have := ih (p+1)
    cases slot <;> simp [freeFrom] <;> omega

theorem freeFrom_eq_filter (p : Nat) (l : List (Option α)) :
    freeFrom p l = (range' p l.length).filter fun k => (l[k-p]?.join.isNone : Bool) := by
  induction l generalizing p with
  | nil => rfl
  | cons slot l ih =>
    have ht : (range' (p+1) l.length).filter (fun k => ((slot::l)[k-p]?.join.isNone : Bool)) =
        (range' (p+1) l.length).filter fun k => (l[k - (p+1)]?.join.isNone : Bool) := by
      apply filter_congr
      intro k hk
      rw [mem_range'_1] at hk
      rw [show k - p = (k - (p+1)) + 1 by omega,getElem?_cons_succ]
    rw [length_cons,range'_succ,filter_cons,ht,← ih]
    cases slot <;> simp [freeFrom]

def filled (ks : List Nat) (l : List (Option α)) : Nat := ks.countP fun k => l[k]?.join.isSome

variable {l : List (Option α)}
theorem filled_set_some {ks : List Nat} {k : Nat} (hks : ks.Nodup) (hk : k ∈ ks)
    (hf : l[k]? = some none) (a : α) : filled ks (l.set k (some a)) = filled ks l + 1 := by
  obtain ⟨hlt,hget⟩ := List.getElem?_eq_some_iff.mp hf
  have hoth : ∀ j, j ≠ k → (l.set k (some a))[j]? = l[j]? := fun j hj =>
    List.getElem?_set_ne (Ne.symm hj)
  induction ks with
  | nil => cases hk
  | cons j ks ih =>
    rw [nodup_cons] at hks
    simp only [filled,countP_cons] at ih ⊢
    by_cases hj : j = k
    · subst hj
      -- The slot does not occur again.
      have ht : ks.countP (fun i => (l.set j (some a))[i]?.join.isSome) =
          ks.countP fun i => l[i]?.join.isSome := by
        apply countP_congr
        intro i hi
        rw [hoth i fun h => hks.1 (h ▸ hi)]
      simp [ht,hget,hlt]
    · rw [ih hks.2 (mem_of_ne_of_mem (Ne.symm hj) hk),hoth j hj]
      omega

theorem filled_set_none {ks : List Nat} {k : Nat} {a : α} (hks : ks.Nodup)
    (hk : k ∈ ks) (hf : l[k]? = some (some a)) : filled ks (l.set k none) + 1 = filled ks l := by
  obtain ⟨hlt,hget⟩ := List.getElem?_eq_some_iff.mp hf
  have hb : (l.set k none).set k (some a) = l := by rw [set_set,← hget,set_getElem_self]
  rw [← filled_set_some hks hk (by simp [hlt]) a,hb]
end Lcryp.Slots
