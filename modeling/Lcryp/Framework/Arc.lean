import Mathlib.Data.BitVec
import Mathlib.Tactic.Abel

/-!
# Arcs of a cycle of machine words

An arc is a start and a number of words after it, counted around the cycle.
-/
namespace Lcryp
open BitVec
namespace Arc
variable {w : Nat}
/-- The `length` words after `start`. -/
def words : BitVec w → Nat → List (BitVec w)
  | _, 0 => []
  | start, length+1 => (start + 1#w)::words (start + 1#w) length

theorem mem_words {x start : BitVec w} {length : Nat} :
    x ∈ words start length ↔ ∃ i, 0 < i ∧ i ≤ length ∧ x = start + BitVec.ofNat w i := by
  induction length generalizing start with
  | zero => simp [words]
  | succ length ih =>
    have hs : ∀ i, start + 1#w + BitVec.ofNat w i = start + BitVec.ofNat w (i+1) := by
      intro i
      rw [ofNat_add]
      abel
    rw [words,List.mem_cons,ih]
    constructor
    · rintro (rfl | ⟨i,hi,hle,rfl⟩)
      · exact ⟨1,Nat.one_pos,by omega,rfl⟩
      · exact ⟨i+1,by omega,by omega,hs i⟩
    · rintro ⟨i,hi,hle,rfl⟩
      obtain ⟨i,rfl⟩ := Nat.exists_eq_succ_of_ne_zero hi.ne'
      rcases Nat.eq_zero_or_pos i with rfl | hpos
      · exact .inl rfl
      · exact .inr ⟨i,hpos,by omega,(hs i).symm⟩

theorem ofNat_mem_words {start : BitVec w} {x length : Nat} (hlt : start.toNat < x)
    (hle : x ≤ start.toNat + length) : BitVec.ofNat w x ∈ words start length := by
  refine mem_words.mpr ⟨x-start.toNat,by omega,by omega,?_⟩
  apply eq_of_toNat_eq
  rw [toNat_add,toNat_ofNat,toNat_ofNat,Nat.add_mod_mod,Nat.add_sub_cancel' hlt.le]

theorem words_append (start : BitVec w) (m n : Nat) :
    words start m++words (start + BitVec.ofNat w m) n = words start (m+n) := by
  induction m generalizing start with
  | zero => simp [words]
  | succ m ih =>
    have hn : start + BitVec.ofNat w (m+1) = start + 1#w + BitVec.ofNat w m := by
      rw [ofNat_add]
      abel
    rw [Nat.succ_add,words,words,List.cons_append,hn,ih]
end Arc
end Lcryp
