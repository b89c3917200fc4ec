import Lcryp.Chain.BlockIndex
import Mathlib.Data.Nat.Size

/-!
# The limbs of 256-bit numbers

`base_uint` keeps a number in limbs of 32 bits, the least significant first.
-/
namespace Lcryp.BaseUint
open List Nat
abbrev Limbs := List (BitVec 32)
def val : Limbs → Nat
  | [] => 0
  | x::pn => x.toNat + 2^32 * val pn

/-- The loop of the operators that carry, for the sums of the limbs. -/
def carryLoop : List Nat → Nat → Limbs
  | [], _ => []
  | t::ts, carry =>
    let n := (carry + t) % 2^64
    .ofNat 32 n::carryLoop ts (n >>> 32)

def add (pn b : Limbs) : Limbs := carryLoop ((pn.zip b).map fun w => w.1.toNat + w.2.toNat) 0
def mulWord (pn : Limbs) (b32 : BitVec 32) : Limbs := carryLoop (pn.map fun x => b32.toNat * x.toNat) 0
/-- The rows of a product; `a` are the limbs that the row and those after it change. -/
def mulLoop : Limbs → Limbs → Limbs → Limbs
  | [], _, a => a
  | x::pn, b, a =>
    match carryLoop ((a.zip b).map fun w => w.1.toNat + x.toNat * w.2.toNat) 0 with
    | [] => []
    | y::a => y::mulLoop pn b a

def mul (pn b : Limbs) : Limbs := mulLoop pn b (replicate pn.length 0#32)
def increment : Limbs → Limbs
  | [] => []
  | x::pn => if x + 1 = 0#32 then 0#32::increment pn else (x+1)::pn

def not (pn : Limbs) : Limbs := pn.map (~~~·)
def neg (b : Limbs) : Limbs := increment (not b)
def sub (pn b : Limbs) : Limbs := add pn (neg b)
def compareTo : Limbs → Limbs → Int
  | x::pn, y::b =>
    -- the limbs above are compared before
    if compareTo pn b ≠ 0 then compareTo pn b else if x < y then -1 else if x > y then 1 else 0
  | _, _ => 0

def bitsLoop (x : BitVec 32) : Nat → Nat
  | 0 => 1
  | nbits+1 => if x.getLsbD (nbits+1) then nbits + 2 else bitsLoop x nbits

def bits : Limbs → Nat
  | [] => 0
  | x::pn => if bits pn ≠ 0 then 32 + bits pn else if x ≠ 0 then bitsLoop x 31 else 0

/-- `pn[i] |= x` for the writes, in their order. -/
def orAll (pn : Limbs) (writes : List (Nat × BitVec 32)) : Limbs :=
  writes.foldl (fun pn w => pn.modify w.1 (· ||| w.2)) pn
def shiftLeft (a : Limbs) (shift : Nat) : Limbs :=
  let k := shift / 32
  let s := shift % 32
  orAll (replicate a.length 0#32) ((range a.length).flatMap fun i =>
    (if i + k + 1 < a.length ∧ s ≠ 0 then [(i + k + 1, a.getD i 0 >>> (32-s))] else []) ++
      if i + k < a.length then [(i+k, a.getD i 0 <<< s)] else [])

def shiftRight (a : Limbs) (shift : Nat) : Limbs :=
  let k := shift / 32
  let s := shift % 32
  orAll (replicate a.length 0#32) ((range a.length).flatMap fun i =>
    (if k + 1 ≤ i ∧ s ≠ 0 then [(i - k - 1, a.getD i 0 <<< (32-s))] else []) ++
      if k ≤ i then [(i-k, a.getD i 0 >>> s)] else [])

/-- The loop of a division, from the shift before which it stops. -/
def divLoop : Nat → Limbs → Limbs → Limbs → Limbs
  | 0, _, _, pn => pn
  | shift+1, num, div, pn =>
    if compareTo num div ≥ 0 then
      divLoop shift (sub num div) (shiftRight div 1) (orAll pn [(shift/32, 1#32 <<< (shift % 32))])
    else divLoop shift num (shiftRight div 1) pn

/-- `none` is the exception. -/
def div (num b : Limbs) : Option Limbs :=
  let zero := replicate num.length 0#32
  if bits b = 0 then none
  else if bits b > bits num then some zero
  else
    let shift := bits num - bits b
    some (divLoop (shift+1) num (shiftLeft b shift) zero)

variable {pn a b : Limbs} {n : Nat}
theorem pow_limbs (k : Nat) : 2^(32 * (k+1)) = 2^32 * 2^(32*k) := by rw [mul_succ,pow_add,mul_comm]
theorem val_lt (pn : Limbs) : val pn < 2^(32 * pn.length) := by
  induction pn with
  | nil => simp [val]
  | cons x pn ih =>
    have hx := x.isLt
    rw [val,length_cons,pow_limbs]
    omega

theorem cons_mod {x v k : Nat} (hx : x < 2^32) : x + 2^32 * (v % 2^(32*k)) = (x + 2^32 * v) % 2^(32 * (k+1)) := by
  rw [pow_limbs,mod_mul,add_mul_mod_self_left,add_mul_div_left _ _ (by decide),
    mod_eq_of_lt hx,div_eq_of_lt hx,zero_add]

/-! ## Carries -/

@[simp]
theorem length_carryLoop (ts : List Nat) (c : Nat) : (carryLoop ts c).length = ts.length := by
  induction ts generalizing c with
  | nil => rfl
  | cons t ts ih => simp [carryLoop,ih]

theorem val_row {c : Nat} (hc : c < 2^32) (x : BitVec 32) (hle : a.length ≤ b.length) :
    val (carryLoop ((a.zip b).map fun w => w.1.toNat + x.toNat * w.2.toNat) c) =
      (c + val a + x.toNat * val b) % 2^(32 * a.length) := by
  induction a generalizing b c with
  | nil => simp [carryLoop,val,mod_one]
  | cons y a ih =>
    cases b with
    | nil => cases hle
    | cons z b =>
      have hp := mul_le_mul (le_sub_one_of_lt x.isLt) (le_sub_one_of_lt z.isLt)
      have hy := y.isLt
      have hn : (c + (y.toNat + x.toNat * z.toNat)) % 2^64 = c + (y.toNat + x.toNat * z.toNat) :=
        mod_eq_of_lt (by omega)
      have hx : x.toNat * val (z::b) = x.toNat * z.toNat + 2^32 * (x.toNat * val b) := by
        rw [val]
        ring
      simp only [zip_cons_cons,map_cons,carryLoop,hn,shiftRight_eq_div_pow]
      rw [val,BitVec.toNat_ofNat,ih (by omega) (le_of_succ_le_succ hle),length_cons,
        cons_mod (mod_lt _ (by decide)),hx,val]
      congr 1
      omega

theorem val_add (h : pn.length = b.length) : val (add pn b) = (val pn + val b) % 2^(32 * pn.length) := by
  simpa [add] using val_row (Nat.two_pow_pos 32) 1#32 h.le
theorem val_replicate (n : Nat) : val (replicate n 0#32) = 0 := by
  induction n with
  | zero => rfl
  | succ n ih => simp [replicate_succ,val,ih]

theorem val_mulWord (b32 : BitVec 32) : val (mulWord pn b32) = val pn * b32.toNat % 2^(32 * pn.length) := by
  have hz : ((replicate pn.length 0#32).zip pn).map (fun w => w.1.toNat + b32.toNat * w.2.toNat) =
      pn.map fun x => b32.toNat * x.toNat := by
    induction pn with
    | nil => rfl
    | cons x pn ih => simp [replicate_succ,ih]
  have hrow := @val_row (replicate pn.length 0#32) pn 0 (Nat.two_pow_pos 32) b32 (by simp)
  rwa [hz,val_replicate,length_replicate,zero_add,zero_add,mul_comm] at hrow

theorem val_mulLoop (hpn : pn.length = a.length) (hle : a.length ≤ b.length) :
    val (mulLoop pn b a) = (val a + val pn * val b) % 2^(32 * a.length) := by
  induction pn generalizing a with
  | nil =>
    obtain rfl := eq_nil_of_length_eq_zero hpn.symm
    simp [mulLoop,val]
  | cons x pn ih =>
    have hrow := val_row (Nat.two_pow_pos 32) x hle
    have hlen := length_carryLoop ((a.zip b).map fun w => w.1.toNat + x.toNat * w.2.toNat) 0
    rw [length_map,length_zip,min_eq_left hle,← hpn] at hlen
    rw [mulLoop]
    split
    · rename_i hnil
      rw [hnil] at hlen
      cases hlen
    · rename_i y a' heq
      rw [heq] at hrow hlen
      have hla := succ.inj hlen
      have hk : a.length = a'.length + 1 := hpn.symm.trans hlen.symm
      have hsum : y.toNat + 2^32 * (val a' + val pn * val b) = val (y::a') + 2^32 * (val pn * val b) := by
        rw [val,mul_add,add_assoc]
      rw [val,ih hla.symm (by omega),cons_mod y.isLt,hsum,hrow,hk,mod_add_mod,val]
      ring_nf

theorem val_mul (h : pn.length = b.length) : val (mul pn b) = val pn * val b % 2^(32 * pn.length) := by
  have hm := @val_mulLoop pn (replicate pn.length 0#32) b (by simp) (by simp [h])
  rwa [val_replicate,zero_add,length_replicate] at hm

/-! ## Complements -/

theorem val_not (pn : Limbs) : val (not pn) + val pn + 1 = 2^(32 * pn.length) := by
  induction pn with
  | nil => rfl
  | cons x pn ih =>
    have hx := x.isLt
    simp only [not,map_cons,val,BitVec.toNat_not,length_cons,pow_limbs] at ih ⊢
    omega

theorem val_increment (pn : Limbs) : val (increment pn) = (val pn + 1) % 2^(32 * pn.length) := by
  induction pn with
  | nil => rfl
  | cons x pn ih =>
    have hx := x.isLt
    rw [increment,length_cons]
    have hs : (x+1).toNat = (x.toNat + 1) % 2^32 := BitVec.toNat_add x 1
    split
    · rename_i h
      rw [h] at hs
      rw [val,ih,cons_mod (by decide),val]
      congr 1
      rw [BitVec.toNat_ofNat] at hs ⊢
      omega
    · rename_i h
      have := val_lt pn
      have hne : (x+1).toNat ≠ 0 := fun h0 => h (BitVec.eq_of_toNat_eq h0)
      rw [val,val,pow_limbs,mod_eq_of_lt (by omega)]
      omega

@[simp]
theorem length_neg (b : Limbs) : (neg b).length = b.length := by
  have hi (pn : Limbs) : (increment pn).length = pn.length := by
    induction pn with
    | nil => rfl
    | cons x pn ih =>
      rw [increment]
      split <;> simp [ih]
  rw [neg,hi,not,length_map]

theorem val_sub (h : pn.length = b.length) :
    val (sub pn b) = (val pn + (2^(32 * pn.length) - val b)) % 2^(32 * pn.length) := by
  have hnot := val_not b
  rw [← h] at hnot
  rw [sub,val_add (by simp [h]),neg,val_increment,not,length_map,← not,← h,add_mod_mod]
  congr 2
  omega

theorem compareTo_eq (h : pn.length = b.length) :
    compareTo pn b = if val pn < val b then -1 else if val b < val pn then 1 else 0 := by
  induction pn generalizing b with
  | nil =>
    obtain rfl := eq_nil_of_length_eq_zero h.symm
    rfl
  | cons x pn ih =>
    cases b with
    | nil => cases h
    | cons y b =>
      have hx := x.isLt
      have hy := y.isLt
      simp only [compareTo,ih (succ.inj h),val,BitVec.lt_def,gt_iff_lt]
      split_ifs <;> omega

/-! ## Bits -/

theorem bitsLoop_eq {x : BitVec 32} {k : Nat} (h0 : 0 < x.toNat) (hlt : x.toNat < 2^(k+1)) :
    bitsLoop x k = size x.toNat := by
  induction k with
  | zero => exact le_antisymm (lt_size.mpr h0) (size_le.mpr hlt)
  | succ k ih =>
    rw [bitsLoop]
    split
    · rename_i hb
      exact le_antisymm (lt_size.mpr (ge_two_pow_of_testBit hb)) (size_le.mpr hlt)
    · rename_i hb
      apply ih
      by_contra hge
      exact hb (testBit_of_two_pow_le_and_two_pow_add_one_gt (not_lt.mp hge) hlt)

theorem size_cons {x v : Nat} (hx : x < 2^32) (hv : v ≠ 0) : size (x + 2^32 * v) = 32 + size v := by
  apply le_antisymm
  · rw [size_le,pow_add]
    have := lt_size_self v
    omega
  · rw [add_comm,← size_shiftLeft hv,shiftLeft_eq,mul_comm]
    exact size_le_size (Nat.le_add_left ..)

theorem bits_eq (pn : Limbs) : bits pn = size (val pn) := by
  induction pn with
  | nil => rfl
  | cons x pn ih =>
    rw [bits,ih,val]
    by_cases hv : val pn = 0
    · by_cases hx : x = 0
      · simp [hv,hx]
      · rw [hv,if_neg (by simp),if_pos hx,bitsLoop_eq _ x.isLt,mul_zero,add_zero]
        exact pos_of_ne_zero fun h => hx (BitVec.eq_of_toNat_eq h)
    · rw [if_pos (mt size_eq_zero.mp hv),size_cons x.isLt hv]

theorem testBit_val (pn : Limbs) (j : Nat) : (val pn).testBit j = (pn.getD (j/32) 0#32).getLsbD (j % 32) := by
  induction pn generalizing j with
  | nil => simp [val]
  | cons x pn ih =>
    rw [val,add_comm,testBit_two_pow_mul_add _ x.isLt]
    split
    · rename_i h
      rw [div_eq_of_lt h,mod_eq_of_lt h]
      rfl
    · rename_i h
      obtain ⟨k,rfl⟩ := Nat.exists_eq_add_of_le (not_lt.mp h)
      rw [ih,Nat.add_sub_cancel_left,add_div_left _ (by decide),add_mod_left]
      rfl

variable (writes : List (Nat × BitVec 32)) {j : Nat} (shift : Nat)

@[simp]
theorem length_orAll : (orAll pn writes).length = pn.length := by
  induction writes generalizing pn with
  | nil => rfl
  | cons w writes ih => exact ih.trans (length_modify ..)

theorem testBit_orAll (hj : j < 32 * pn.length) :
    (val (orAll pn writes)).testBit j =
      ((val pn).testBit j || writes.any fun w => w.1 == j/32 && w.2.getLsbD (j % 32)) := by
  induction writes generalizing pn with
  | nil => simp [orAll]
  | cons w writes ih =>
    rw [orAll,foldl_cons,← orAll,ih (by rwa [length_modify]),any_cons,← Bool.or_assoc,testBit_val,testBit_val]
    congr 1
    have hlt : j / 32 < pn.length := by omega
    by_cases hw : w.1 = j / 32
    · simp [getD_eq_getElem?_getD,hw,getElem?_eq_getElem hlt]
    · simp [getD_eq_getElem?_getD,hw]

theorem val_orAll {v : Nat} (hv : v < 2^(32 * pn.length))
    (h : ∀ j < 32 * pn.length, ((val pn).testBit j ||
      writes.any fun w => w.1 == j/32 && w.2.getLsbD (j % 32)) = v.testBit j) : val (orAll pn writes) = v := by
  apply eq_of_testBit_eq
  intro j
  by_cases hj : j < 32 * pn.length
  · rw [testBit_orAll _ hj,h j hj]
  · have hlt := val_lt (orAll pn writes)
    rw [length_orAll] at hlt
    have hle : 2^(32 * pn.length) ≤ 2^j := Nat.pow_le_pow_right (by decide) (not_lt.mp hj)
    rw [testBit_lt_two_pow (hlt.trans_le hle),testBit_lt_two_pow (hv.trans_le hle)]

theorem val_shiftLeft : val (shiftLeft a shift) = val a * 2^shift % 2^(32 * a.length) := by
  apply val_orAll _ (by simpa using mod_lt _ (by positivity))
  intro j hj
  rw [length_replicate] at hj
  rw [val_replicate,testBit_mod_two_pow,testBit_mul_two_pow,testBit_val,Bool.eq_iff_iff]
  simp [hj]
  constructor
  · rintro ⟨i,hi,⟨_,hq,hb⟩ | ⟨_,hq,_,hb⟩⟩
    · have := BitVec.lt_of_getLsbD hb
      rw [show (j-shift) / 32 = i by omega,show (j-shift) % 32 = 32 - shift % 32 + j % 32 by omega]
      exact ⟨by omega,hb⟩
    · rw [show (j-shift) / 32 = i by omega,show (j-shift) % 32 = j % 32 - shift % 32 by omega]
      exact ⟨by omega,hb⟩
  · rintro ⟨hle,hb⟩
    refine ⟨(j-shift) / 32,by omega,?_⟩
    by_cases hr : shift % 32 ≤ j % 32
    · rw [show (j-shift) % 32 = j % 32 - shift % 32 by omega] at hb
      exact .inr ⟨by omega,by omega,by omega,hb⟩
    · rw [show (j-shift) % 32 = 32 - shift % 32 + j % 32 by omega] at hb
      exact .inl ⟨by omega,by omega,hb⟩

theorem val_shiftRight : val (shiftRight a shift) = val a / 2^shift := by
  apply val_orAll _ (by simpa using (div_le_self ..).trans_lt (val_lt a))
  intro j hj
  rw [length_replicate] at hj
  rw [val_replicate,testBit_div_two_pow,testBit_val,Bool.eq_iff_iff]
  simp
  constructor
  · rintro ⟨i,hi,⟨_,hq,_,hb⟩ | ⟨_,hq,hb⟩⟩
    · rw [show (j+shift) / 32 = i by omega,show (j+shift) % 32 = j % 32 - (32 - shift % 32) by omega]
      exact hb
    · have := BitVec.lt_of_getLsbD hb
      rw [show (j+shift) / 32 = i by omega,show (j+shift) % 32 = shift % 32 + j % 32 by omega]
      exact hb
  · intro hb
    refine ⟨(j+shift) / 32,by_contra fun hout => ?_,?_⟩
    · rw [List.getElem?_eq_none (by omega)] at hb
      simp at hb
    by_cases hr : j % 32 + shift % 32 < 32
    · rw [show (j+shift) % 32 = shift % 32 + j % 32 by omega] at hb
      exact .inr ⟨by omega,by omega,hb⟩
    · rw [show (j+shift) % 32 = j % 32 - (32 - shift % 32) by omega] at hb
      exact .inl ⟨by omega,by omega,by omega,hb⟩

/-! ## Division -/

theorem length_sub (h : pn.length = b.length) : (sub pn b).length = pn.length := by simp [sub,add,h]
theorem val_sub_of_le (h : pn.length = b.length) (hle : val b ≤ val pn) : val (sub pn b) = val pn - val b := by
  have hlt := val_lt pn
  rw [val_sub h,← Nat.add_sub_assoc (by omega),Nat.sub_add_comm hle,add_mod_right,mod_eq_of_lt (by omega)]

theorem val_setBit {f : Nat} (hf : f < 32 * pn.length) (hdvd : 2^(f+1) ∣ val pn) :
    val (orAll pn [(f/32, 1#32 <<< (f % 32))]) = val pn + 2^f := by
  obtain ⟨q,hq⟩ := hdvd
  have hor : val pn + 2^f = val pn ||| 2^f := by
    rw [hq]
    exact two_pow_add_eq_or_of_lt (Nat.pow_lt_pow_right (by decide) (lt_succ_self f)) q
  rw [hor]
  apply val_orAll _ (or_lt_two_pow (val_lt pn) (Nat.pow_lt_pow_right (by decide) hf))
  intro j _
  rw [testBit_or,testBit_two_pow,Bool.eq_iff_iff]
  simp
  refine or_congr_right ?_
  omega

-- the induction is on the shift; `D * 2^shift` is the divisor and the quotient's lower bits are still clear
theorem val_divLoop {f D : Nat} {num div : Limbs} (h0 : 0 < D) (hnum : num.length = n) (hdiv : div.length = n)
    (hpn : pn.length = n) (hf : f ≤ 32 * n) (hD : f ≠ 0 → 2 * val div = D * 2^f) (hlt : val num < D * 2^f)
    (hdvd : 2^f ∣ val pn) : val (divLoop f num div pn) = val pn + val num / D := by
  induction f generalizing num div pn with
  | zero =>
    rw [divLoop,div_eq_of_lt (by simpa using hlt),add_zero]
  | succ f ih =>
    have hpow : D * 2^(f+1) = 2 * (D * 2^f) := by ring
    rw [hpow] at hlt hD
    have hd : val div = D * 2^f := Nat.eq_of_mul_eq_mul_left (by decide) (hD (succ_ne_zero f))
    have hhalf (hf0 : f ≠ 0) : 2 * val (shiftRight div 1) = D * 2^f := by
      rw [val_shiftRight,pow_one,hd]
      exact Nat.mul_div_cancel' ((dvd_pow_self 2 hf0).mul_left D)
    have hr : (shiftRight div 1).length = n := by simp [shiftRight,hdiv]
    have hdvd' : 2^f ∣ val pn := (pow_dvd_pow 2 (le_succ f)).trans hdvd
    have hsame := hnum.trans hdiv.symm
    rw [divLoop,compareTo_eq hsame]
    by_cases hc : val num < val div
    · rw [if_neg (by simp [hc]),ih hnum hr hpn (by omega) hhalf (hd ▸ hc) hdvd']
    · have hge := not_lt.mp hc
      have hs : val (sub num div) = val num - D * 2^f := hd ▸ val_sub_of_le hsame hge
      rw [if_pos (by simp [hc]; split <;> omega),ih ((length_sub hsame).trans hnum) hr
        ((length_orAll _).trans hpn) (by omega) hhalf,hs,val_setBit (by omega) hdvd]
      · have hle : 2^f ≤ val num / D := (le_div_iff_mul_le h0).mpr (by rw [mul_comm]; omega)
        rw [sub_mul_div]
        omega
      · omega
      · rw [val_setBit (by omega) hdvd]
        exact (Nat.dvd_add_right hdvd').mpr dvd_rfl

theorem div_spec (h : a.length = b.length) (h0 : val b ≠ 0) :
    ∃ q, div a b = some q ∧ val q = val a / val b := by
  have hb := lt_size_self (val b)
  have ha := lt_size_self (val a)
  simp only [div,bits_eq,size_eq_zero,h0,if_false]
  split
  · rename_i hgt
    refine ⟨_,rfl,?_⟩
    rw [val_replicate,div_eq_of_lt]
    exact ha.trans_le (lt_size.mp hgt)
  · rename_i hle
    obtain ⟨s,hs⟩ := Nat.exists_eq_add_of_le (not_lt.mp hle)
    have hn : size (val a) ≤ 32 * a.length := size_le.mpr (val_lt a)
    have hlt : val b * 2^s < 2^(32 * a.length) := by
      refine lt_of_lt_of_le ?_ (Nat.pow_le_pow_right (by decide) hn)
      rw [hs,pow_add]
      exact mul_lt_mul_of_pos_right hb (by positivity)
    have hd : val (shiftLeft b s) = val b * 2^s := by rw [val_shiftLeft,← h,mod_eq_of_lt hlt]
    rw [hs,Nat.add_sub_cancel_left]
    refine ⟨_,rfl,?_⟩
    have hpos : 0 < size (val b) := size_pos.mpr (pos_of_ne_zero h0)
    rw [val_divLoop (pos_of_ne_zero h0) rfl (by simp [shiftLeft,h]) (length_replicate ..),
      val_replicate,zero_add]
    · omega
    · intro _
      rw [hd]
      ring
    · obtain ⟨k,hk⟩ := exists_eq_succ_of_ne_zero hpos.ne'
      have hle : 2^k ≤ val b := lt_size.mp (by omega)
      calc val a < 2^(k+1+s) := by rwa [hs,hk] at ha
        _ = 2^k * 2^(s+1) := by ring
        _ ≤ val b * 2^(s+1) := mul_le_mul_right _ hle
    · simp [val_replicate]

theorem div_eq_none : div a b = none ↔ val b = 0 := by
  simp only [div,bits_eq,size_eq_zero]
  split <;> [skip; split] <;> simp_all

/-! ## The proof of a block -/

/-- A word is below the highest bit, and a shifted word leaves out the lowest. -/
theorem target_lt (nBits : BitVec 32) : (setCompact nBits).target.toNat + 1 < 2^256 := by
  have hne : (setCompact nBits).target ≠ BitVec.allOnes 256 := by
    intro h
    have h0 := congrArg (BitVec.getLsbD · 0) h
    have h255 := congrArg (BitVec.getLsbD · 255) h
    simp only [setCompact] at h0 h255
    split at h0 <;> simp_all
  have hlt := (setCompact nBits).target.isLt
  rw [ne_eq,← BitVec.toNat_inj,BitVec.toNat_allOnes] at hne
  omega

theorem floor_eq {T : Nat} (h0 : T ≠ 0) (hT : T + 1 < 2^256) :
    ((2^256 - 1 - T) / (T+1) + 1) % 2^256 = 2^256 / (T+1) := by
  rw [Nat.sub_sub,add_comm 1 T,← div_eq_sub_div (succ_pos T) hT.le]
  exact mod_eq_of_lt (div_lt_self (by positivity) (by omega))

theorem getBlockProof_eq {nBits : BitVec 32} (hneg : (setCompact nBits).fNegative = false)
    (hover : (setCompact nBits).fOverflow = false) (h0 : (setCompact nBits).target ≠ 0#256) :
    (getBlockProof nBits).toNat = 2^256 / ((setCompact nBits).target.toNat + 1) := by
  have hT := target_lt nBits
  rw [← floor_eq (by simpa [← BitVec.toNat_inj] using h0) hT]
  have hadd : ((setCompact nBits).target + 1#256).toNat = (setCompact nBits).target.toNat + 1 := by
    rw [BitVec.toNat_add]
    exact mod_eq_of_lt hT
  simp [getBlockProof,hneg,hover,h0,-BitVec.toNat_add,hadd,BitVec.toNat_add _ 1#256]

/-- The operators are those of numbers modulo `2^256`, a division throws where the divisor is zero only, and a
block counts for the hashes that its target takes on average. -/
theorem operators_eq (hpn : pn.length = 8) (hb : b.length = 8) (b32 : BitVec 32) (shift : Nat) :
    val (add pn b) = (val pn + val b) % 2^256 ∧ val (sub pn b) = (val pn + (2^256 - val b)) % 2^256 ∧
      val (mulWord pn b32) = val pn * b32.toNat % 2^256 ∧ val (mul pn b) = val pn * val b % 2^256 ∧
      (div pn b = none ↔ val b = 0) ∧ (∀ q, div pn b = some q → val q = val pn / val b) ∧
      val (shiftLeft pn shift) = val pn * 2^shift % 2^256 ∧ val (shiftRight pn shift) = val pn / 2^shift ∧
      compareTo pn b = (if val pn < val b then -1 else if val b < val pn then 1 else 0) ∧
      bits pn = size (val pn) ∧
      ∀ nBits, (setCompact nBits).fNegative = false → (setCompact nBits).fOverflow = false →
        (setCompact nBits).target ≠ 0#256 →
        (getBlockProof nBits).toNat = 2^256 / ((setCompact nBits).target.toNat + 1) := by
  have h := hpn.trans hb.symm
  have hadd := val_add h
  have hsub := val_sub h
  have hword := @val_mulWord pn b32
  have hmul := val_mul h
  have hshift := @val_shiftLeft pn shift
  rw [hpn] at hadd hsub hword hmul hshift
  refine ⟨hadd,hsub,hword,hmul,div_eq_none,fun q hq => ?_,hshift,val_shiftRight shift,compareTo_eq h,bits_eq pn,
    fun nBits => getBlockProof_eq⟩
  have h0 : val b ≠ 0 := fun h0 => by simp [div_eq_none.mpr h0] at hq
  obtain ⟨q',hq',hv⟩ := div_spec h h0
  cases hq.symm.trans hq'
  exact hv

theorem operators_eq_one :
    val (add (1#32::replicate 7 0#32) (1#32::replicate 7 0#32)) = 2 ∧
      (getBlockProof 0x207fffff#32).toNat = 2^256 / ((setCompact 0x207fffff#32).target.toNat + 1) := by
  obtain ⟨hadd,_,_,_,_,_,_,_,_,_,hp⟩ := @operators_eq (1#32::replicate 7 0#32) (1#32::replicate 7 0#32) rfl rfl 0#32 0
  exact ⟨hadd,hp _ (by decide) (by decide) (by decide)⟩
end Lcryp.BaseUint
