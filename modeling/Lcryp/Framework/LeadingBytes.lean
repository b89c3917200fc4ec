import Mathlib.Tactic.Ring
import Mathlib.Tactic.NormNum

/-!
# Leading bytes of a natural number

A positive number is cut after its leading bytes.
-/
namespace Lcryp.LeadingBytes
open Nat
variable (x : Nat)
def bitLength : Nat := if x = 0 then 0 else x.log2 + 1
theorem lt_two_pow_bitLength : x < 2^bitLength x := by
  unfold bitLength
  split
  · simp_all
  · exact lt_log2_self

theorem two_pow_le_of_pos (hx : 0 < x) : 2^(bitLength x - 1) ≤ x := by
  have hne : x ≠ 0 := by omega
  simp only [bitLength,if_neg hne]
  exact log2_self_le hne

theorem bitLength_le_of_lt (x k : Nat) (h : x < 2^k) : bitLength x ≤ k := by
  unfold bitLength
  split
  · omega
  · rename_i hne
    exact (log2_lt hne).mpr h

/-- Number of bytes once a clear bit is kept in front. -/
def leadingSize : Nat := bitLength x / 8 + 1

/-- The leading bytes, aligned to a three-byte window. -/
def leadingMantissa : Nat :=
  if leadingSize x ≤ 3 then x * 256^(3 - leadingSize x) else x / 256^(leadingSize x - 3)

/-- The number with everything below the three leading bytes cleared. -/
def leadingFloor : Nat := x / 256^(leadingSize x - 3) * 256^(leadingSize x - 3)
theorem pow256_eq (k : Nat) : 256^k = 2^(8*k) := by
  rw [show (256 : Nat) = 2^8 by norm_num,← pow_mul]

section Window
variable {x} {size b bits : Nat}
private theorem window_lt (hx : x < 2^b) (h : b + 24 ≤ bits + 8 * size) :
    (if size ≤ 3 then x * 256^(3-size) else x / 256^(size-3)) < 2^bits := by
  rw [pow256_eq,pow256_eq]
  split
  · calc x * 2^(8 * (3-size)) < 2^b * 2^(8 * (3-size)) := Nat.mul_lt_mul_of_pos_right hx (Nat.two_pow_pos _)
      _ = 2^(b + 8 * (3-size)) := (pow_add 2 _ _).symm
      _ ≤ 2^bits := Nat.pow_le_pow_right (by norm_num) (by omega)
  · rw [Nat.div_lt_iff_lt_mul (Nat.two_pow_pos _),← pow_add]
    exact hx.trans_le (Nat.pow_le_pow_right (by norm_num) (by omega))

private theorem le_window (hx : 2^b ≤ x) (h : bits + 8 * size ≤ b + 24) :
    2^bits ≤ if size ≤ 3 then x * 256^(3-size) else x / 256^(size-3) := by
  rw [pow256_eq,pow256_eq]
  split
  · calc 2^bits ≤ 2^(b + 8 * (3-size)) := Nat.pow_le_pow_right (by norm_num) (by omega)
      _ = 2^b * 2^(8 * (3-size)) := pow_add 2 _ _
      _ ≤ x * 2^(8 * (3-size)) := mul_le_mul_right _ hx
  · rw [Nat.le_div_iff_mul_le (Nat.two_pow_pos _),← pow_add]
    exact (Nat.pow_le_pow_right (by norm_num) (by omega)).trans hx
end Window

theorem leadingMantissa_lt : leadingMantissa x < 2^23 := by
  apply window_lt (lt_two_pow_bitLength x)
  unfold leadingSize
  omega

theorem leadingMantissa_pos (hx : 0 < x) : 0 < leadingMantissa x := by
  have hle : 2^0 ≤ leadingMantissa x := by
    apply le_window (two_pow_le_of_pos x hx)
    unfold leadingSize
    omega
  exact hle

theorem leadingFloor_le : leadingFloor x ≤ x := div_mul_le_self _ _

theorem leadingMantissa_place :
    (if leadingSize x ≤ 3 then leadingMantissa x / 256^(3 - leadingSize x)
      else leadingMantissa x * 256^(leadingSize x - 3)) = leadingFloor x := by
  unfold leadingMantissa leadingFloor
  split
  · rw [show leadingSize x - 3 = 0 by omega]
    simp
  · rfl

theorem leadingFloor_pos (hx : 0 < x) : 0 < leadingFloor x := by
  have hm := leadingMantissa_pos x hx
  rw [← leadingMantissa_place]
  split
  · rename_i h
    simp only [leadingMantissa,if_pos h]
    rw [Nat.mul_div_cancel _ (Nat.pow_pos (by norm_num))]
    exact hx
  · exact Nat.mul_pos hm (Nat.pow_pos (by norm_num))

@[simp]
theorem leadingFloor_zero : leadingFloor 0 = 0 := by simp [leadingFloor]
theorem bitLength_mono {x y : Nat} (h : x ≤ y) : bitLength x ≤ bitLength y :=
  bitLength_le_of_lt x (bitLength y) (h.trans_lt (lt_two_pow_bitLength y))
theorem leadingSize_mono {x y : Nat} (h : x ≤ y) : leadingSize x ≤ leadingSize y := by
  have := bitLength_mono h
  unfold leadingSize
  omega

theorem leadingFloor_of_short {x : Nat} (h : leadingSize x ≤ 3) : leadingFloor x = x := by
  simp [leadingFloor,show leadingSize x - 3 = 0 by omega]
theorem lt_leadingFloor_add : x < leadingFloor x + 256^(leadingSize x - 3) := by
  have hdiv := div_add_mod' x (256^(leadingSize x - 3))
  unfold leadingFloor
  omega

/-- The kept bytes of a longer number have at least sixteen bits, the first of which may be zero. -/
theorem pow_le_of_long {x : Nat} (h : 3 < leadingSize x) : 2^15 * 256^(leadingSize x - 3) ≤ x := by
  have hpos : 0 < x := by
    by_contra hz
    simp [show x = 0 by omega,leadingSize,bitLength] at h
  rw [pow256_eq,← pow_add]
  refine le_trans (Nat.pow_le_pow_right (by norm_num) ?_) (two_pow_le_of_pos x hpos)
  unfold leadingSize at h ⊢
  omega

theorem pow_le_leadingFloor {x : Nat} (h : 3 < leadingSize x) :
    2^15 * 256^(leadingSize x - 3) ≤ leadingFloor x := by
  apply Nat.mul_le_mul_right
  rw [Nat.le_div_iff_mul_le (Nat.pow_pos (by norm_num))]
  exact pow_le_of_long h

theorem leadingFloor_mono {x y : Nat} (h : x ≤ y) : leadingFloor x ≤ leadingFloor y := by
  have hsi := leadingSize_mono h
  by_cases hs : leadingSize y ≤ 3
  · rwa [leadingFloor_of_short hs,leadingFloor_of_short (hsi.trans hs)]
  rcases hsi.lt_or_eq with hlt | heq
  · -- a shorter number lies below the least cut number of the larger size
    have hb : bitLength x ≤ 15 + 8 * (leadingSize y - 3) := by
      unfold leadingSize at hlt hs ⊢
      omega
    calc leadingFloor x ≤ x := leadingFloor_le x
      _ ≤ 2^bitLength x := (lt_two_pow_bitLength x).le
      _ ≤ 2^(15 + 8 * (leadingSize y - 3)) := Nat.pow_le_pow_right (by norm_num) hb
      _ = 2^15 * 256^(leadingSize y - 3) := by rw [pow256_eq,pow_add]
      _ ≤ leadingFloor y := pow_le_leadingFloor (by omega)
  · simp only [leadingFloor,heq]
    exact Nat.mul_le_mul_right _ (Nat.div_le_div_right h)

/-- A number of at most three places of which the first has a clear bit in front is kept. -/
theorem leadingFloor_place {m : Nat} (k : Nat) (hm : m < 2^23) : leadingFloor (m * 256^k) = m * 256^k := by
  have hlt : m * 256^k < 2^(23 + 8 * k) := by
    rw [pow256_eq,pow_add]
    exact Nat.mul_lt_mul_of_pos_right hm (Nat.two_pow_pos _)
  have hs : leadingSize (m * 256^k) - 3 ≤ k := by
    have := bitLength_le_of_lt _ _ hlt
    unfold leadingSize
    omega
  exact Nat.div_mul_cancel ((pow_dvd_pow 256 hs).trans (Nat.dvd_mul_left _ _))

theorem isGreatest_leadingFloor : IsGreatest {v | v ≤ x ∧ ∃ m < 2^23, ∃ k, v = m * 256^k} (leadingFloor x) := by
  constructor
  · refine ⟨leadingFloor_le x,x / 256^(leadingSize x - 3),?_,leadingSize x - 3,rfl⟩
    have hlt := leadingMantissa_lt x
    unfold leadingMantissa at hlt
    split at hlt
    next h =>
      simp only [show leadingSize x - 3 = 0 by omega,pow_zero,Nat.div_one]
      exact (Nat.le_mul_of_pos_right x (Nat.pow_pos (by norm_num))).trans_lt hlt
    · exact hlt
  · rintro v ⟨hv,m,hm,k,rfl⟩
    rw [← leadingFloor_place k hm]
    exact leadingFloor_mono hv

theorem bitLength_leadingFloor : bitLength (leadingFloor x) = bitLength x := by
  rcases Nat.eq_zero_or_pos x with rfl | hx
  · rw [leadingFloor_zero]
  apply le_antisymm (bitLength_mono (leadingFloor_le x))
  -- the highest bit alone is a number of the kept form
  have hp : 2^(bitLength x - 1) = 2^((bitLength x - 1) % 8) * 256^((bitLength x - 1) / 8) := by
    rw [pow256_eq,← pow_add,mod_add_div]
  have htop : 2^(bitLength x - 1) ≤ leadingFloor x := by
    apply (isGreatest_leadingFloor x).2
    exact ⟨two_pow_le_of_pos x hx,_,Nat.pow_lt_pow_right (by norm_num) (by omega),_,hp⟩
  have hpos : 0 < bitLength x := by simp [bitLength,ne_of_gt hx]
  have hpow : ∀ n, bitLength (2^n) = n + 1 := by simp [bitLength]
  calc bitLength x = bitLength (2^(bitLength x - 1)) := by
        rw [hpow]
        omega
    _ ≤ bitLength (leadingFloor x) := bitLength_mono htop

theorem leadingSize_leadingFloor : leadingSize (leadingFloor x) = leadingSize x := by
  simp [leadingSize,bitLength_leadingFloor]
theorem leadingMantissa_leadingFloor : leadingMantissa (leadingFloor x) = leadingMantissa x := by
  unfold leadingMantissa
  rw [leadingSize_leadingFloor]
  split
  · next h => rw [leadingFloor_of_short h]
  · exact Nat.mul_div_cancel _ (Nat.pow_pos (by norm_num))

theorem lt_leadingFloor {x : Nat} (hx : 0 < x) : (2^15 - 1) * x < 2^15 * leadingFloor x := by
  by_cases hs : leadingSize x ≤ 3
  · rw [leadingFloor_of_short hs]
    omega
  · have hlow := lt_leadingFloor_add x
    have hu := pow_le_of_long (by omega : 3 < leadingSize x)
    omega

/-- The three-byte window that starts at the first non-zero byte. -/
def byteWindow : Nat :=
  if (bitLength x + 7) / 8 ≤ 3 then x * 256^(3 - (bitLength x + 7) / 8)
  else x / 256^((bitLength x + 7) / 8 - 3)

theorem byteWindow_lt : byteWindow x < 2^24 := window_lt (lt_two_pow_bitLength x) (by omega)

theorem byteWindow_top (hx : 0 < x) : 2^23 ≤ byteWindow x ↔ bitLength x % 8 = 0 := by
  constructor
  · by_contra hr
    have hlt : byteWindow x < 2^23 := window_lt (lt_two_pow_bitLength x) (by omega)
    omega
  · intro hr
    exact le_window (two_pow_le_of_pos x hx) (by omega)

private theorem byteWindow_full (hr : bitLength x % 8 = 0) :
    leadingSize x = (bitLength x + 7) / 8 + 1 ∧ leadingMantissa x = byteWindow x / 256 := by
  have hs : leadingSize x = (bitLength x + 7) / 8 + 1 := by
    unfold leadingSize
    omega
  refine ⟨hs,?_⟩
  unfold leadingMantissa byteWindow
  rw [hs]
  rcases lt_trichotomy ((bitLength x + 7) / 8) 3 with h | h | h
  · rw [if_pos (by omega),if_pos (by omega),
      show 3 - (bitLength x + 7) / 8 = 3 - ((bitLength x + 7) / 8 + 1) + 1 by omega,pow_succ,
      ← mul_assoc,Nat.mul_div_cancel _ (by norm_num)]
  · rw [h]
    simp
  · rw [if_neg (by omega),if_neg (by omega),Nat.div_div_eq_div_mul,
      show (bitLength x + 7) / 8 + 1 - 3 = (bitLength x + 7) / 8 - 3 + 1 by omega,pow_succ]

private theorem byteWindow_short (hr : bitLength x % 8 ≠ 0) :
    leadingSize x = (bitLength x + 7) / 8 ∧ leadingMantissa x = byteWindow x := by
  have hs : leadingSize x = (bitLength x + 7) / 8 := by
    unfold leadingSize
    omega
  refine ⟨hs,?_⟩
  unfold leadingMantissa byteWindow
  rw [hs]

/-- Dropping one byte when the window's top bit is set yields the mantissa and its size. -/
theorem byteWindow_normalize (hx : 0 < x) :
    (if 2^23 ≤ byteWindow x then ((bitLength x + 7) / 8 + 1, byteWindow x / 256)
      else ((bitLength x + 7) / 8, byteWindow x)) = (leadingSize x, leadingMantissa x) := by
  have htop := byteWindow_top x hx
  by_cases hr : bitLength x % 8 = 0
  · obtain ⟨hs,hm⟩ := byteWindow_full x hr
    rw [if_pos (htop.mpr hr),hs,hm]
  · obtain ⟨hs,hm⟩ := byteWindow_short x hr
    rw [if_neg (fun h => hr (htop.mp h)),hs,hm]
end Lcryp.LeadingBytes
