import Mathlib.Data.Nat.Digits.Lemmas

/-!
# Changing the radix of a number

Digit lists are written with the most significant digit first.
-/
namespace Lcryp.Radix
open List Nat
def value (base : Nat) (ds : List Nat) : Nat := ds.foldl (fun v d => base * v + d) 0
def minimal (base n : Nat) : List Nat := (digits base n).reverse

section Value
variable {base : Nat}
theorem value_eq_ofDigits (ds : List Nat) : value base ds = ofDigits base ds.reverse := by
  induction ds using reverseRecOn with
  | nil => rfl
  | append_singleton ds d ih =>
    rw [value,reverse_append,reverse_singleton,singleton_append,ofDigits_cons,← ih,value]
    simp [add_comm]

theorem value_append (first second : List Nat) :
    value base (first++second) = value base first * base^second.length + value base second := by
  rw [value_eq_ofDigits,reverse_append,ofDigits_append,← value_eq_ofDigits,← value_eq_ofDigits,length_reverse]
  ring

@[simp]
theorem value_nil : value base [] = 0 := rfl

@[simp]
theorem value_singleton (d : Nat) : value base [d] = d := by
  simp [value]
theorem value_cons (d : Nat) (ds : List Nat) : value base (d::ds) = d * base^ds.length + value base ds := by
  rw [← singleton_append,value_append,value_singleton]
theorem value_replicate_zero (k : Nat) (ds : List Nat) : value base (replicate k 0++ds) = value base ds := by
  have hz : value base (replicate k 0) = 0 := by
    rw [value_eq_ofDigits,reverse_replicate,ofDigits_replicate_zero]
  rw [value_append,hz,zero_mul,zero_add]

theorem value_minimal (n : Nat) : value base (minimal base n) = n := by
  rw [minimal,value_eq_ofDigits,reverse_reverse,ofDigits_digits]

theorem head?_minimal_ne_zero (n : Nat) : (minimal base n).head? ≠ some 0 := by
  rw [minimal,head?_reverse]
  intro h
  obtain ⟨hne,hl⟩ := mem_getLast?_eq_getLast h
  have hn : n ≠ 0 := by
    rintro rfl
    simp at hne
  exact getLast_digit_ne_zero base hn hl.symm
variable (hbase : 1 < base)
include hbase

theorem value_lt {ds : List Nat} (h : ∀ d ∈ ds, d < base) : value base ds < base^ds.length := by
  rw [value_eq_ofDigits,← length_reverse]
  apply ofDigits_lt_base_pow_length hbase
  simpa using h

theorem value_inj {ds es : List Nat} (hlen : ds.length = es.length) (hds : ∀ d ∈ ds, d < base)
    (hes : ∀ d ∈ es, d < base) (h : value base ds = value base es) : ds = es := by
  rw [value_eq_ofDigits,value_eq_ofDigits] at h
  apply reverse_injective
  apply ofDigits_inj_of_len_eq hbase (by simpa using hlen) (by simpa using hds) (by simpa using hes) h

theorem minimal_lt {n d : Nat} (h : d ∈ minimal base n) : d < base := digits_lt_base hbase (mem_reverse.mp h)

theorem minimal_value {ds : List Nat} (h : ∀ d ∈ ds, d < base) (hh : ds.head? ≠ some 0) :
    minimal base (value base ds) = ds := by
  rw [minimal,value_eq_ofDigits,digits_ofDigits base hbase,reverse_reverse]
  · simpa using h
  · intro hne hl
    apply hh
    rw [getLast_reverse] at hl
    rw [← hl,head?_eq_some_head]

theorem head?_minimal {n k : Nat} (hlow : base^k ≤ n) (hh : n < base^(k+1)) :
    (minimal base n).head? = some (n / base^k) := by
  have hpos : 0 < base^k := Nat.pow_pos (by omega)
  have hmod : n % base^k < base^k := mod_lt _ hpos
  have hfst : n / base^k < base := by
    rw [div_lt_iff_lt_mul hpos,mul_comm]
    exact hh
  have hval : value base (n / base^k::(digitsAppend base k (n % base^k)).reverse) = n := by
    rw [value_cons,value_eq_ofDigits,reverse_reverse,length_reverse,
      length_digitsAppend hbase k hmod,digitsAppend,ofDigits_append_replicate_zero,
      ofDigits_digits,mul_comm,div_add_mod]
  have hdi : ∀ d ∈ n / base^k::(digitsAppend base k (n % base^k)).reverse,
      d < base := by
    rw [forall_mem_cons]
    refine ⟨hfst,fun d hd => ?_⟩
    exact lt_of_mem_digitsAppend hbase k d (mem_reverse.mp hd)
  have hm := minimal_value hbase hdi (by
    have := div_pos hlow hpos
    simp only [head?_cons,ne_eq,Option.some.injEq]
    omega)
  rw [hval] at hm
  rw [hm,head?_cons]
end Value

/-- Room for a number in another radix, from a fraction above the ratio of the logarithms. -/
theorem pow_le_scaled {a b p q : Nat} (hb : 0 < b) (hq : 0 < q) (h : a^q ≤ b^p) (n : Nat) :
    a^n ≤ b^(n * p / q + 1) := by
  rw [← Nat.pow_le_pow_iff_left hq.ne']
  have hr : p * n ≤ (n * p / q + 1) * q := by
    have := lt_mul_div_succ (n*p) hq
    rw [mul_comm p,mul_comm _ q]
    omega
  calc (a^n)^q = (a^q)^n := by rw [← pow_mul,← pow_mul,mul_comm]
    _ ≤ (b^p)^n := Nat.pow_le_pow_left h n
    _ = b^(p*n) := (pow_mul b p n).symm
    _ ≤ b^((n * p / q + 1) * q) := Nat.pow_le_pow_right hb hr
    _ = (b^(n * p / q + 1))^q := pow_mul b _ q

/-- Multiply the digits in radix `dst` by `src` and add the carry. The result is the digits, the carry left
and the number of places gone through. -/
def mulAdd (src dst : Nat) : Nat → Nat → List Nat → List Nat × Nat × Nat
  | carry, _, [] => ([], carry, 0)
  | carry, length, d::ds =>
    if carry ≠ 0 ∨ 0 < length then
      let sum := carry + src * d
      let rest := mulAdd src dst (sum/dst) (length-1) ds
      (sum % dst::rest.1, rest.2.1, rest.2.2 + 1)
    else (d::ds, carry, 0)

section MulAdd
variable {src dst : Nat} (hsrc : 0 < src) (hdst : 1 < dst)
include hdst in
theorem digitsAppend_succ (k n : Nat) : digitsAppend dst (k+1) n = n % dst::digitsAppend dst k (n/dst) := by
  unfold digitsAppend
  rcases Nat.eq_zero_or_pos n with rfl | hpos
  · simp [replicate_succ]
  · rw [digits_def' hdst hpos]
    simp

include hdst in
theorem digits_length_pred (n : Nat) : (digits dst n).length - 1 = (digits dst (n/dst)).length := by
  rcases Nat.eq_zero_or_pos n with rfl | hpos
  · simp
  · rw [digits_def' hdst hpos]
    simp

include hsrc hdst in
/-- With room for the new number the result is its digits; otherwise a carry is left. -/
theorem mulAdd_digitsAppend (k n carry : Nat) (hn : n < dst^k) :
    (src * n + carry < dst^k → mulAdd src dst carry (digits dst n).length (digitsAppend dst k n) =
      (digitsAppend dst k (src * n + carry), 0, (digits dst (src * n + carry)).length)) ∧
    (dst^k ≤ src * n + carry →
      (mulAdd src dst carry (digits dst n).length (digitsAppend dst k n)).2.1 ≠ 0) := by
  induction k generalizing n carry with
  | zero =>
    obtain rfl : n = 0 := by simpa using hn
    rw [pow_zero,mul_zero,zero_add]
    refine ⟨fun h => ?_,fun h => ?_⟩
    · obtain rfl := lt_one_iff.mp h
      simp [digitsAppend,mulAdd]
    · simpa [digitsAppend,mulAdd] using one_le_iff_ne_zero.mp h
  | succ k ih =>
    rw [digitsAppend_succ hdst,mulAdd]
    have hu : (carry ≠ 0 ∨ 0 < (digits dst n).length) ↔ 0 < src * n + carry := by
      rw [length_pos_iff,digits_ne_nil_iff_ne_zero]
      have := mul_pos_iff_of_pos_left hsrc (b := n)
      omega
    by_cases hpos : 0 < src * n + carry
    · -- one place: the carry that goes on belongs to the quotient of the new number
      have hs : src * n + carry = carry + src * (n % dst) + dst * (src * (n/dst)) := by
        have hmod := mod_add_div n dst
        calc src * n + carry = src * (n % dst + dst * (n/dst)) + carry := by rw [hmod]
          _ = _ := by ring
      have hq : (src * n + carry) / dst = src * (n/dst) + (carry + src * (n % dst)) / dst := by
        rw [hs,add_mul_div_left _ _ (by omega),add_comm]
      have hrem : (src * n + carry) % dst = (carry + src * (n % dst)) % dst := by rw [hs,add_mul_mod_self_left]
      have hr (m : Nat) : m / dst < dst^k ↔ m < dst^(k+1) := by
        rw [div_lt_iff_lt_mul (by omega),pow_succ]
      obtain ⟨hfit,hleft⟩ := ih (n/dst) ((carry + src * (n % dst)) / dst) ((hr n).mpr hn)
      rw [if_pos (hu.mpr hpos),digits_length_pred hdst]
      rw [← hq] at hfit hleft
      refine ⟨fun h => ?_,fun h => hleft (not_lt.mp fun hlt => h.not_gt ((hr _).mp hlt))⟩
      dsimp only
      rw [hfit ((hr _).mpr h),digitsAppend_succ hdst k (src * n + carry),digits_def' hdst hpos,hrem,length_cons]
    · have hz := mul_pos_iff_of_pos_left hsrc (b := n)
      obtain rfl : n = 0 := by omega
      obtain rfl : carry = 0 := by omega
      simp [digitsAppend_succ hdst,ne_zero_of_lt hdst]
end MulAdd

theorem shiftLeft_xor_eq_add (n : Nat) {v k : Nat} (hv : v < 2^k) : n <<< k ^^^ v = 2^k * n + v := by
  apply eq_of_testBit_eq
  intro j
  rw [testBit_xor,testBit_two_pow_mul_add n hv j]
  by_cases hj : j < k
  · simp [not_le.mpr hj]
  · rw [testBit_lt_two_pow (hv.trans_le (Nat.pow_le_pow_right (by decide) (not_lt.mp hj)))]
    simp [not_lt.mp hj]
end Lcryp.Radix
