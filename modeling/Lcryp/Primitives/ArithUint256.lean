import Mathlib.Data.Nat.Bitwise
import Lcryp.Framework.LeadingBytes

/-!
# 256-bit words and the compact target encoding

`uint256` blobs and `arith_uint256` numbers share one representation: the little-endian reading of the
blob.
-/
namespace Lcryp
open LeadingBytes BitVec
/-- A 256-bit hash, read as the number `UintToArith256` gives it. -/
abbrev Uint256 := BitVec 256
instance decidableMemHashes (a : Uint256) (l : List Uint256) : Decidable (a ∈ l) :=
  List.instDecidableMemOfLawfulBEq a l
abbrev ArithUint256 := BitVec 256

variable (a : ArithUint256)
/-- Position of the highest set bit, counted from one; zero for zero. -/
def bits : Nat := if a = 0#256 then 0 else a.toNat.log2 + 1

/-- A compact value after `SetCompact`: the number and the two out-parameters. -/
structure DecodedTarget where
  target : ArithUint256
  fNegative : Bool
  fOverflow : Bool
deriving DecidableEq

variable (nCompact : BitVec 32)
def setCompact : DecodedTarget :=
  let nSize := (nCompact >>> 24).toNat
  let nMantissa := nCompact &&& 0x007fffff#32
  let nWord := if nSize ≤ 3 then nMantissa >>> (8 * (3-nSize)) else nMantissa
  { target := if nSize ≤ 3 then nWord.setWidth 256
      else nWord.setWidth 256 <<< (8 * (nSize-3))
    fNegative := decide (nWord ≠ 0#32) && decide (nCompact &&& 0x00800000#32 ≠ 0#32)
    fOverflow := decide (nWord ≠ 0#32) &&
      (decide (nSize > 34) || (decide (nWord.toNat > 0xff) && decide (nSize > 33)) ||
        (decide (nWord.toNat > 0xffff) && decide (nSize > 32))) }

def getCompact : BitVec 32 :=
  let nSize := (bits a + 7) / 8
  let nCompact : BitVec 32 :=
    if nSize ≤ 3 then (a.setWidth 64 <<< (8 * (3-nSize))).setWidth 32
    else ((a >>> (8 * (nSize-3))).setWidth 64).setWidth 32
  if nCompact &&& 0x00800000#32 ≠ 0#32 then
    nCompact >>> 8 ||| BitVec.ofNat 32 (nSize+1) <<< 24
  else
    nCompact ||| BitVec.ofNat 32 nSize <<< 24

/-- `arith_uint256::GetCompact` with either sign. -/
def getCompactSigned (fNegative : Bool) : BitVec 32 :=
  let nCompact := getCompact a
  nCompact ||| if fNegative ∧ nCompact &&& 0x007fffff#32 ≠ 0#32 then 0x00800000#32 else 0#32

/-- The number that a compact value stands for, whatever its sign. -/
def compactValue : ℚ := (nCompact &&& 0x007fffff#32).toNat * 256^(((nCompact >>> 24).toNat : ℤ) - 3)

/-- The implicit conversion of an `int64_t` operand to `base_uint<256>` through `uint64_t`. -/
def ofInt64 (n : Int) : ArithUint256 := (BitVec.ofInt 64 n).setWidth 256

/-- The implicit conversion of an `int64_t` operand to the `uint32_t` of `operator*=`. -/
def ofInt64Low (n : Int) : ArithUint256 := (BitVec.ofInt 32 n).setWidth 256

/-- `base_uint::operator/`, which throws `uint_error` on a zero divisor. -/
def arithDiv (a b : ArithUint256) : Option ArithUint256 := if b = 0#256 then none else some (a/b)
theorem bits_eq_bitLength : bits a = bitLength a.toNat := by
  unfold bits bitLength
  by_cases h : a = 0#256
  · simp [h]
  · have hn : a.toNat ≠ 0 := fun h' => h (eq_of_toNat_eq (by simpa using h'))
    simp [h,hn]

private theorem and_signBit_ne_zero (w : BitVec 32) (hw : w.toNat < 2^24) :
    w &&& 0x00800000#32 ≠ 0#32 ↔ 2^23 ≤ w.toNat := by
  have hand : (w &&& 0x00800000#32).toNat = w.toNat &&& 2^23 := by simp
  have hbit : w.toNat.testBit 23 = decide (2^23 ≤ w.toNat) := by
    rw [Nat.testBit_eq_decide_div_mod_eq]
    congr 1
    apply propext
    omega
  constructor
  · intro h
    by_contra hlt
    apply h
    apply eq_of_toNat_eq
    rw [hand,Nat.and_two_pow,hbit,decide_eq_false hlt]
    rfl
  · intro h hz
    have h0 := congrArg BitVec.toNat hz
    rw [hand,Nat.and_two_pow,hbit,decide_eq_true h] at h0
    simp at h0

private theorem or_exponent_toNat (w : BitVec 32) (s : Nat) (hw : w.toNat < 2^24) (hs : s < 256) :
    (w ||| BitVec.ofNat 32 s <<< 24).toNat = w.toNat + 2^24 * s := by
  have hsh : (BitVec.ofNat 32 s <<< 24).toNat = 2^24 * s := by
    rw [toNat_shiftLeft,toNat_ofNat,Nat.mod_eq_of_lt (by omega),Nat.shiftLeft_eq,
      Nat.mod_eq_of_lt (by omega),Nat.mul_comm]
  rw [toNat_or,hsh,Nat.or_comm,← Nat.two_pow_add_eq_or_of_lt hw,Nat.add_comm]

private theorem window_toNat :
    (if (bits a + 7) / 8 ≤ 3 then (a.setWidth 64 <<< (8 * (3 - (bits a + 7) / 8))).setWidth 32
      else ((a >>> (8 * ((bits a + 7) / 8 - 3))).setWidth 64).setWidth 32 : BitVec 32).toNat =
      byteWindow a.toNat := by
  have hlt := byteWindow_lt a.toNat
  have hx := lt_two_pow_bitLength a.toNat
  rw [bits_eq_bitLength]
  unfold byteWindow at hlt ⊢
  split
  · rename_i h
    rw [if_pos h,pow256_eq] at hlt
    have hs : a.toNat < 2^64 := hx.trans_le (Nat.pow_le_pow_right (by norm_num) (by omega))
    rw [pow256_eq,toNat_setWidth,toNat_shiftLeft,toNat_setWidth,
      Nat.mod_eq_of_lt hs,Nat.shiftLeft_eq,Nat.mod_eq_of_lt (by omega),
      Nat.mod_eq_of_lt (by omega)]
  · rename_i h
    rw [if_neg h,pow256_eq] at hlt
    rw [pow256_eq,toNat_setWidth,toNat_setWidth,toNat_ushiftRight,Nat.shiftRight_eq_div_pow]
    generalize a.toNat / 2^(8 * ((bitLength a.toNat + 7) / 8 - 3)) = q at hlt ⊢
    omega

private theorem leadingSize_lt : leadingSize a.toNat < 34 := by
  have h := bitLength_le_of_lt a.toNat 256 a.isLt
  unfold leadingSize
  omega

theorem getCompact_toNat (ha : 0 < a.toNat) :
    (getCompact a).toNat = leadingMantissa a.toNat + 2^24 * leadingSize a.toNat := by
  have hw := window_toNat a
  have hlt := byteWindow_lt a.toNat
  have hn := byteWindow_normalize a.toNat ha
  have hs := leadingSize_lt a
  unfold getCompact
  simp only
  rw [← bits_eq_bitLength] at hn
  generalize (if (bits a + 7) / 8 ≤ 3 then (a.setWidth 64 <<< (8 * (3 - (bits a + 7) / 8))).setWidth 32
      else ((a >>> (8 * ((bits a + 7) / 8 - 3))).setWidth 64).setWidth 32 : BitVec 32) = w at hw ⊢
  rw [← hw] at hlt hn
  have hsg := and_signBit_ne_zero w hlt
  by_cases htop : 2^23 ≤ w.toNat
  · rw [if_pos htop] at hn
    obtain ⟨hsi,hma⟩ := Prod.mk.inj hn
    have hsh : (w >>> 8).toNat = leadingMantissa a.toNat := by
      rw [toNat_ushiftRight,Nat.shiftRight_eq_div_pow,← hma]
    rw [if_pos (hsg.mpr htop),or_exponent_toNat _ _ (by omega) (by omega),hsh,hsi]
  · rw [if_neg htop] at hn
    obtain ⟨hsi,hma⟩ := Prod.mk.inj hn
    rw [if_neg (fun h => htop (hsg.mp h)),or_exponent_toNat _ _ hlt (by omega),hma,hsi]

@[simp]
theorem getCompact_zero : getCompact 0#256 = 0#32 := by decide

@[simp]
theorem setCompact_zero : setCompact 0#32 = ⟨0#256, false, false⟩ := by decide
section Fields
variable (v : BitVec 32) (m s : Nat) (hm : m < 2^23) (hv : v.toNat = m + 2^24 * s)
include v m s hm hv

private theorem size_field : (v >>> 24).toNat = s := by
  rw [toNat_ushiftRight]
  omega

private theorem mantissa_field : (v &&& 0x007fffff#32).toNat = m := by
  have hand : (v &&& 0x007fffff#32).toNat = v.toNat &&& 2^23 - 1 := by simp
  rw [hand,Nat.and_two_pow_sub_one_eq_mod]
  omega

private theorem sign_field : v &&& 0x00800000#32 = 0#32 := by
  apply eq_of_toNat_eq
  have hand : (v &&& 0x00800000#32).toNat = v.toNat &&& 2^23 := by simp
  have hbit : v.toNat.testBit 23 = false := by
    rw [Nat.testBit_eq_decide_div_mod_eq]
    simp only [decide_eq_false_iff_not]
    omega
  rw [hand,Nat.and_two_pow,hbit]
  simp

theorem setCompact_target_toNat :
    (setCompact v).target.toNat = (if s ≤ 3 then m / 256^(3-s) else m * 256^(s-3)) % 2^256 := by
  have hs := size_field v m s hm hv
  have hma := mantissa_field v m s hm hv
  simp only [setCompact,hs]
  split
  · rw [toNat_setWidth,toNat_ushiftRight,Nat.shiftRight_eq_div_pow,hma,pow256_eq]
  · rw [toNat_shiftLeft,toNat_setWidth,hma,Nat.shiftLeft_eq,pow256_eq,Nat.mod_eq_of_lt (by omega : m < 2^256)]
end Fields

theorem setCompact_getCompact :
    (setCompact (getCompact a)).target.toNat = leadingFloor a.toNat ∧
      (setCompact (getCompact a)).fNegative = false ∧ (setCompact (getCompact a)).fOverflow = false := by
  by_cases ha : 0 < a.toNat
  · have hv := getCompact_toNat a ha
    have hm := leadingMantissa_lt a.toNat
    have hs := leadingSize_lt a
    have hma := mantissa_field _ _ _ hm hv
    refine ⟨?_,?_,?_⟩
    · rw [setCompact_target_toNat _ _ _ hm hv,leadingMantissa_place,
        Nat.mod_eq_of_lt ((leadingFloor_le _).trans_lt a.isLt)]
    · simp [setCompact,sign_field _ _ _ hm hv]
    · have hsi := size_field _ _ _ hm hv
      have h33 : leadingSize a.toNat = 33 → leadingMantissa a.toNat ≤ 0xffff := by
        intro h
        simp only [leadingMantissa,h]
        norm_num
        omega
      simp only [setCompact,hsi]
      by_cases hle : leadingSize a.toNat ≤ 3
      · simp [show ¬ 34 < leadingSize a.toNat by omega,show ¬ 33 < leadingSize a.toNat by omega,
          show ¬ 32 < leadingSize a.toNat by omega]
      simp only [if_neg hle,hma]
      by_cases h : leadingSize a.toNat = 33
      · have := h33 h
        simp [h,this]
      · simp [show ¬ 34 < leadingSize a.toNat by omega,show ¬ 33 < leadingSize a.toNat by omega,
          show ¬ 32 < leadingSize a.toNat by omega]
  · have hz : a = 0#256 := eq_of_toNat_eq (by simp; omega)
    subst hz
    simp

/-- The sign bit changes neither the target nor the overflow flag, and is seen where the target is not
zero. -/
theorem setCompact_signed (v : BitVec 32) :
    (setCompact (v ||| 0x00800000#32)).target = (setCompact v).target ∧
      ((setCompact v).target ≠ 0#256 → (setCompact (v ||| 0x00800000#32)).fNegative = true) := by
  have hs : (v ||| 0x00800000#32) >>> 24 = v >>> 24 := by
    rw [ushiftRight_or_distrib,show 0x00800000#32 >>> 24 = 0#32 by decide,or_zero]
  have hma : (v ||| 0x00800000#32) &&& 0x007fffff#32 = v &&& 0x007fffff#32 := by
    rw [BitVec.and_comm,and_or_distrib_left,BitVec.and_comm _ v,
      show 0x007fffff#32 &&& 0x00800000#32 = 0#32 by decide,or_zero]
  have hsi : (v ||| 0x00800000#32) &&& 0x00800000#32 ≠ 0#32 := by
    intro hz
    have hbit := congrArg (getLsbD · 23) hz
    simp at hbit
  simp only [setCompact,hs,hma,hsi,decide_true,Bool.and_true,ne_eq,not_false_eq_true,true_and,decide_eq_true_eq]
  intro htgt hword
  rw [hword] at htgt
  simp at htgt

theorem getCompact_setCompact : getCompact (setCompact (getCompact a)).target = getCompact a := by
  have htgt := (setCompact_getCompact a).1
  by_cases ha : 0 < a.toNat
  · apply eq_of_toNat_eq
    rw [getCompact_toNat a ha,getCompact_toNat _ (htgt ▸ leadingFloor_pos _ ha),htgt,
      leadingMantissa_leadingFloor,leadingSize_leadingFloor]
  · have hz : a = 0#256 := eq_of_toNat_eq (by simp; omega)
    simp [hz]

theorem getCompactSigned_setCompact (fNegative : Bool) :
    getCompactSigned (setCompact (getCompactSigned a fNegative)).target
      (setCompact (getCompactSigned a fNegative)).fNegative = getCompactSigned a fNegative := by
  have hb := getCompact_setCompact a
  by_cases hneg : fNegative = true ∧ getCompact a &&& 0x007fffff#32 ≠ 0#32
  · have htgt : (setCompact (getCompact a)).target ≠ 0#256 := by
      intro hz
      rw [hz] at hb
      simp [← hb] at hneg
    have hc : getCompactSigned a fNegative = getCompact a ||| 0x00800000#32 := by
      rw [getCompactSigned,if_pos hneg]
    obtain ⟨hs,hsi⟩ := setCompact_signed (getCompact a)
    rw [hc,hs,hsi htgt,getCompactSigned,hb,if_pos ⟨rfl,hneg.2⟩]
  · have hc : getCompactSigned a fNegative = getCompact a := by rw [getCompactSigned,if_neg hneg,or_zero]
    rw [hc,(setCompact_getCompact a).2.1,getCompactSigned,hb]
    simp

theorem setCompact_fOverflow_iff (nCompact : BitVec 32) :
    (setCompact nCompact).fOverflow = true ↔ compactValue nCompact ≠ 0 ∧ 2^256 ≤ compactValue nCompact := by
  have hma : (nCompact &&& 0x007fffff#32).toNat < 2^23 := by exact Nat.and_lt_two_pow _ (by decide)
  have hval : 2^256 ≤ compactValue nCompact ↔
      256^35 ≤ (nCompact &&& 0x007fffff#32).toNat * 256^(nCompact >>> 24).toNat := by
    rw [compactValue,zpow_sub₀ (by norm_num),mul_div_assoc',le_div_iff₀ (by norm_num)]
    norm_cast
  have hpos : 2^256 ≤ compactValue nCompact → compactValue nCompact ≠ 0 :=
    fun h => ne_of_gt (lt_of_lt_of_le (by norm_num) h)
  rw [and_iff_right_of_imp hpos,hval]
  unfold setCompact
  generalize (nCompact >>> 24).toNat = nSize
  generalize nCompact &&& 0x007fffff#32 = nMantissa at hma ⊢
  have hz : nMantissa = 0#32 ↔ nMantissa.toNat = 0 := by simp [← toNat_inj]
  rcases Nat.lt_or_ge 32 nSize with hlo | hs
  · simp only [if_neg (show ¬ nSize ≤ 3 by omega),hz,Bool.and_eq_true,Bool.or_eq_true,decide_eq_true_eq,ne_eq]
    obtain rfl | rfl | hl : nSize = 33 ∨ nSize = 34 ∨ 35 ≤ nSize := by omega
    · omega
    · omega
    · have hle : 256^35 ≤ nMantissa.toNat * 256^nSize ↔ 0 < nMantissa.toNat := by
        constructor
        · exact fun h => Nat.pos_of_mul_pos_right (lt_of_lt_of_le (by norm_num) h)
        · exact fun h => (Nat.pow_le_pow_right (by norm_num) hl).trans (Nat.le_mul_of_pos_left _ h)
      omega
  · have hlt : nMantissa.toNat * 256^nSize < 256^35 :=
      calc nMantissa.toNat * 256^nSize ≤ nMantissa.toNat * 256^32 :=
            Nat.mul_le_mul_left _ (Nat.pow_le_pow_right (by norm_num) hs)
        _ < 256^35 := by omega
    have hf : ¬ 34 < nSize ∧ ¬ 33 < nSize ∧ ¬ 32 < nSize := by omega
    simpa [hf] using hlt

/-- The encoding cuts a number to the greatest one it can hold, is read back and keeps the order. -/
theorem compact_encoding :
    (∀ x, (setCompact (getCompact x)).fNegative = false ∧ (setCompact (getCompact x)).fOverflow = false ∧
      IsGreatest {v | v ≤ x.toNat ∧ ∃ m < 2^23, ∃ k, v = m * 256^k}
        (setCompact (getCompact x)).target.toNat) ∧
    (∀ x fNegative, getCompactSigned (setCompact (getCompactSigned x fNegative)).target
      (setCompact (getCompactSigned x fNegative)).fNegative = getCompactSigned x fNegative) ∧
    (∀ x y, x ≤ y → (setCompact (getCompact x)).target ≤ (setCompact (getCompact y)).target) ∧
    ∀ nCompact, (setCompact nCompact).fOverflow = true ↔
      compactValue nCompact ≠ 0 ∧ 2^256 ≤ compactValue nCompact := by
  refine ⟨fun x => ?_,getCompactSigned_setCompact,fun x y h => ?_,setCompact_fOverflow_iff⟩
  · obtain ⟨htgt,hneg,hover⟩ := setCompact_getCompact x
    exact ⟨hneg,hover,htgt ▸ isGreatest_leadingFloor x.toNat⟩
  · rw [le_def,(setCompact_getCompact x).1,(setCompact_getCompact y).1]
    exact leadingFloor_mono h

theorem compact_encoding_sample :
    (setCompact (getCompact 0x12345678#256)).target = 0x12345600#256 ∧
      (setCompact (getCompact 0x12345678#256)).target ≤ (setCompact (getCompact 0x12345700#256)).target :=
  ⟨by decide,compact_encoding.2.2.1 _ _ (by decide)⟩
end Lcryp
