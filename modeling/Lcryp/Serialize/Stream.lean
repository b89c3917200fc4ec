import Lcryp.Framework.Codec
import Lcryp.Primitives.Transaction

/-!
# Serialization primitives

The integer, vector and variable-length formats of `serialize.h`.
-/
namespace Lcryp
open Codec Decodes List Nat
/-- `CDataStream` as the source of a reader. -/
abbrev StreamReader := Reader String
def endOfData : String := "CDataStream::read(): end of data"
def maxSize : Nat := 0x02000000
def serWritedata (k n : Nat) : Bytes := leBytes k n
def serReaddata (k : Nat) : StreamReader Nat := readLe endOfData k

variable (bits : Nat)
/-- `Serialize(s, a)` for a signed integer of the given number of bits. -/
def serializeInt (a : Int) : Bytes := serWritedata (bits/8) (BitVec.ofInt bits a).toNat
def unserializeInt : StreamReader Int := do
  let n ← serReaddata (bits/8)
  return (BitVec.ofNat bits n).toInt

/-- An unsigned integer, or a `uint256`. -/
def serializeUint {bits : Nat} (a : BitVec bits) : Bytes := serWritedata (bits/8) a.toNat
def unserializeUint : StreamReader (BitVec bits) := do
  let n ← serReaddata (bits/8)
  return BitVec.ofNat bits n

theorem serReaddata_decodes {k n : Nat} (h : n < 256^k) : Decodes (serReaddata k) (serWritedata k n) n :=
  readLe_decodes endOfData h
section Integers
variable {bits : Nat} (hbits : 8 ∣ bits)
include hbits

private theorem two_pow_bits : 256^(bits/8) = 2^bits := by
  obtain ⟨k,rfl⟩ := hbits
  rw [Nat.mul_div_cancel_left k (by norm_num),Nat.pow_mul]

theorem unserializeUint_decodes (a : BitVec bits) : Decodes (unserializeUint bits) (serializeUint a) a := by
  apply bind_pure (serReaddata_decodes (by rw [two_pow_bits hbits]; exact a.isLt))
  simp

theorem unserializeUint_canonical : Canonical (unserializeUint bits) serializeUint := by
  intro s a rest h
  simp only [unserializeUint,run_bind_eq_ok] at h
  obtain ⟨n,mid,hn,rfl,rfl⟩ := h
  obtain ⟨hs,hlt⟩ := readLe_eq_ok hn
  rw [two_pow_bits hbits] at hlt
  rw [serializeUint,BitVec.toNat_ofNat,mod_eq_of_lt hlt]
  exact hs

theorem unserializeInt_decodes {a : Int} (hpos : 0 < bits) (hlow : -2^(bits-1) ≤ a)
    (hh : a < 2^(bits-1)) : Decodes (unserializeInt bits) (serializeInt bits a) a := by
  apply bind_pure (serReaddata_decodes (by rw [two_pow_bits hbits]; exact (BitVec.ofInt bits a).isLt))
  rw [BitVec.ofNat_toNat,BitVec.setWidth_eq,BitVec.toInt_ofInt_eq_self hpos hlow hh]

theorem unserializeInt_canonical : Canonical (unserializeInt bits) (serializeInt bits) := by
  intro s a rest h
  simp only [unserializeInt,run_bind_eq_ok] at h
  obtain ⟨n,mid,hn,rfl,rfl⟩ := h
  obtain ⟨hs,hlt⟩ := readLe_eq_ok hn
  rw [two_pow_bits hbits] at hlt
  rw [serializeInt,BitVec.ofInt_toInt,BitVec.toNat_ofNat,mod_eq_of_lt hlt]
  exact hs
end Integers

def writeCompactSize (nSize : Nat) : Bytes :=
  if nSize < 253 then serWritedata 1 nSize
  else if nSize ≤ 0xffff then serWritedata 1 253++serWritedata 2 nSize
  else if nSize ≤ 0xffffffff then serWritedata 1 254++serWritedata 4 nSize
  else serWritedata 1 255++serWritedata 8 nSize

/-- One of the longer forms, which must not hold a size that a shorter form can hold. -/
def readLongSize (k least : Nat) : StreamReader Nat := do
  let nSizeRet ← serReaddata k
  if nSizeRet < least then throw "non-canonical ReadCompactSize()" else return nSizeRet

/-- `ReadCompactSize` up to its range check. -/
def readSizeForm : StreamReader Nat := do
  let chSize ← serReaddata 1
  if chSize < 253 then return chSize
  else if chSize = 253 then readLongSize 2 253
  else if chSize = 254 then readLongSize 4 0x10000
  else readLongSize 8 0x100000000

def readCompactSize (rangeCheck : Bool) : StreamReader Nat := do
  let nSizeRet ← readSizeForm
  if rangeCheck && decide (nSizeRet > maxSize) then throw "ReadCompactSize(): size too large"
  else return nSizeRet

variable {s : Bytes}
theorem readLongSize_eq_ok {k least n : Nat} {rest : Bytes} (h : (readLongSize k least).run s = .ok (n, rest)) :
    s = serWritedata k n++rest ∧ least ≤ n ∧ n < 256^k := by
  simp only [readLongSize,run_bind_eq_ok] at h
  obtain ⟨m,mid,hm,h⟩ := h
  split at h
  · cases h
  · obtain ⟨rfl,rfl⟩ := h
    obtain ⟨hs,hlt⟩ := readLe_eq_ok hm
    exact ⟨hs,by omega,hlt⟩

variable {n : Nat}
theorem readSizeForm_decodes (h : n < 2^64) : Decodes readSizeForm (writeCompactSize n) n := by
  unfold writeCompactSize
  split_ifs with h1 h2 h3
  · apply Decodes.bind_pure (serReaddata_decodes (by omega))
    rw [if_pos h1]
  all_goals
    apply bind (serReaddata_decodes (by norm_num))
    apply Decodes.bind_pure (serReaddata_decodes (by omega))
    rw [if_neg (by omega)]

theorem readSizeForm_canonical : Canonical readSizeForm writeCompactSize := by
  intro s n rest h
  simp only [readSizeForm,run_bind_eq_ok] at h
  obtain ⟨chSize,mid,hch,h⟩ := h
  obtain ⟨rfl,hb⟩ := readLe_eq_ok hch
  unfold writeCompactSize
  split_ifs at h with h1 h2 h3
  · obtain ⟨rfl,rfl⟩ := h
    rw [if_pos h1]
    rfl
  · obtain ⟨rfl,hl,hlt⟩ := readLongSize_eq_ok h
    rw [if_neg (by omega),if_pos (by omega),h2]
    rfl
  · obtain ⟨rfl,hl,hlt⟩ := readLongSize_eq_ok h
    rw [if_neg (by omega),if_neg (by omega),if_pos (by omega),h3]
    rfl
  · obtain ⟨rfl,hl,hlt⟩ := readLongSize_eq_ok h
    have hch' : chSize = 255 := by omega
    rw [if_neg (by omega),if_neg (by omega),if_neg (by omega),hch']
    rfl

theorem readCompactSize_decodes (h : n ≤ maxSize) : Decodes (readCompactSize true) (writeCompactSize n) n := by
  have hlt : n < 2^64 := by
    unfold maxSize at h
    omega
  apply bind_pure (readSizeForm_decodes hlt)
  rw [if_neg (by simp [h])]

theorem readCompactSize_canonical {rangeCheck : Bool} :
    Canonical (readCompactSize rangeCheck) writeCompactSize := by
  intro s n rest h
  simp only [readCompactSize,run_bind_eq_ok] at h
  obtain ⟨m,mid,hm,h⟩ := h
  split at h
  · cases h
  · obtain ⟨rfl,rfl⟩ := h
    exact readSizeForm_canonical _ _ _ hm

theorem readCompactSize_large (h : maxSize < n) (h' : n < 2^64) (rest : Bytes) :
    (readCompactSize true).run (writeCompactSize n++rest) = .error "ReadCompactSize(): size too large" := by
  rw [readCompactSize,(readSizeForm_decodes h').run_bind,if_pos (by simp [h])]
  rfl

/-- `VectorFormatter::Ser`. -/
def serializeVector {α : Type} (ser : α → Bytes) (v : List α) : Bytes :=
  writeCompactSize v.length++v.flatMap ser
def unserializeVector {α : Type} (unser : StreamReader α) : StreamReader (List α) := do
  let size ← readCompactSize true
  readMany unser size

/-- The form of vectors of bytes, which are written and read in blocks. -/
def serializeBytes (v : Bytes) : Bytes := writeCompactSize v.length++v
def unserializeBytes : StreamReader Bytes := do
  let nSize ← readCompactSize true
  readBytes endOfData nSize

section Vectors
variable {α : Type} {ser : α → Bytes} {unser : StreamReader α}
theorem unserializeVector_decodes {v : List α} (hs : v.length ≤ maxSize)
    (h : ∀ a ∈ v, Decodes unser (ser a) a) : Decodes (unserializeVector unser) (serializeVector ser v) v :=
  bind (readCompactSize_decodes hs) (readMany_decodes h)

theorem unserializeVector_canonical (h : Canonical unser ser) :
    Canonical (unserializeVector unser) (serializeVector ser) := by
  intro s v rest hrun
  simp only [unserializeVector,run_bind_eq_ok] at hrun
  obtain ⟨size,mid,hs,hrun⟩ := hrun
  obtain ⟨rfl,rfl⟩ := readMany_eq_ok h hrun
  rw [readCompactSize_canonical _ _ _ hs,serializeVector,append_assoc]

theorem unserializeBytes_decodes {v : Bytes} (hs : v.length ≤ maxSize) :
    Decodes unserializeBytes (serializeBytes v) v :=
  bind (readCompactSize_decodes hs) (readBytes_decodes endOfData v)

theorem unserializeBytes_canonical : Canonical unserializeBytes serializeBytes := by
  intro s v rest hrun
  simp only [unserializeBytes,run_bind_eq_ok] at hrun
  obtain ⟨size,mid,hs,hrun⟩ := hrun
  obtain ⟨rfl,rfl⟩ := readBytes_eq_ok.mp hrun
  rw [readCompactSize_canonical _ _ _ hs,serializeBytes,append_assoc]
end Vectors

/-- The loop of `WriteVarInt`: the groups of seven bits, the lowest first, at most as many as its buffer
holds. -/
def varIntGroups : Nat → Bool → Nat → Bytes
  | 0, _, _ => []
  | size+1, more, n =>
    let tmp := UInt8.ofNat (n % 128 + if more then 128 else 0)
    if n ≤ 0x7F then [tmp] else tmp::varIntGroups size true (n / 128 - 1)

/-- `WriteVarInt` for an unsigned type of the given number of bits. -/
def writeVarInt (bits n : Nat) : Bytes := (varIntGroups ((bits+6) / 7) false n).reverse

/-- The loop of `ReadVarInt` for a type with the given largest value. -/
def readVarIntFrom (limit : Nat) : Nat → Bytes → Except String (Nat × Bytes)
  | _, [] => .error endOfData
  | n, chData::rest =>
    if n > limit / 128 then .error "ReadVarInt(): size too large"
    else
      let n := n * 128 + chData.toNat % 128
      if chData.toNat < 128 then .ok (n, rest)
      else if n = limit then .error "ReadVarInt(): size too large"
      else readVarIntFrom limit (n+1) rest

def readVarInt : StreamReader Nat := readVarIntFrom (2^bits - 1) 0

variable {limit n : Nat}
private theorem readVarIntFrom_last (hn : n ≤ limit) (rest : Bytes) :
    readVarIntFrom limit (n/128) (UInt8.ofNat (n % 128)::rest) = .ok (n, rest) := by
  have hb : (UInt8.ofNat (n % 128)).toNat = n % 128 := by
    rw [UInt8.toNat_ofNat']
    omega
  have hval : n / 128 * 128 + n % 128 % 128 = n := by omega
  rw [readVarIntFrom,if_neg (by omega)]
  simp only [hb,hval,if_pos (mod_lt n (by norm_num : 128 > 0))]

/-- A group with the continuation bit is read as the number it completes, plus one. -/
private theorem readVarIntFrom_next (hn : n < limit) (rest : Bytes) :
    readVarIntFrom limit (n/128) (UInt8.ofNat (n % 128 + 128)::rest) = readVarIntFrom limit (n+1) rest := by
  have hb : (UInt8.ofNat (n % 128 + 128)).toNat = n % 128 + 128 := by
    rw [UInt8.toNat_ofNat']
    omega
  have hval : n / 128 * 128 + (n % 128 + 128) % 128 = n := by omega
  rw [readVarIntFrom,if_neg (by omega)]
  simp only [hb,hval,if_neg (by omega : ¬ n % 128 + 128 < 128),if_neg hn.ne]

private theorem readVarIntFrom_more {limit size n : Nat} (hn : n < 128^(size+1))
    (hl : n < limit) (rest : Bytes) :
    readVarIntFrom limit 0 ((varIntGroups (size+1) true n).reverse++rest) =
      readVarIntFrom limit (n+1) rest := by
  rw [← readVarIntFrom_next hl]
  induction size generalizing n rest with
  | zero =>
    have hz : n / 128 = 0 := by omega
    rw [varIntGroups,if_pos (by omega),hz]
    rfl
  | succ size ih =>
    by_cases hs : n ≤ 0x7F
    · have hz : n / 128 = 0 := by omega
      rw [varIntGroups,if_pos hs,hz]
      rfl
    · have hnx : n / 128 - 1 < 128^(size+1) := by omega
      have hne : n / 128 - 1 < limit := by omega
      have hsu : n / 128 - 1 + 1 = n / 128 := by omega
      rw [varIntGroups,if_neg hs,reverse_cons,append_assoc,ih hnx hne,readVarIntFrom_next hne,hsu]
      rfl

/-- The buffer has room for the groups of any number of the type. -/
private theorem groups_room {bits n : Nat} (hbits : 0 < bits) (h : n < 2^bits) :
    ∃ size, (bits+6) / 7 = size + 1 ∧ n < 128^(size+1) := by
  refine ⟨(bits+6) / 7 - 1,by omega,?_⟩
  rw [show (128 : Nat) = 2^7 by norm_num,← pow_mul]
  exact lt_of_lt_of_le h (Nat.pow_le_pow_right (by norm_num) (by omega))

theorem readVarInt_decodes {bits n : Nat} (hbits : 0 < bits) (h : n < 2^bits) :
    Decodes (readVarInt bits) (writeVarInt bits n) n := by
  intro rest
  have hl : n ≤ 2^bits - 1 := by omega
  have hla := readVarIntFrom_last hl rest
  obtain ⟨size,hsi,hg⟩ := groups_room hbits h
  rw [writeVarInt,hsi,varIntGroups]
  by_cases hs : n ≤ 0x7F
  · rw [if_pos hs]
    rwa [div_eq_of_lt (by omega)] at hla
  -- there is a group before the last one, so the buffer has room for it
  obtain ⟨size,rfl⟩ : ∃ k, size = k + 1 := by
    cases size with
    | zero => omega
    | succ k => exact ⟨k,rfl⟩
  have hn : n / 128 - 1 < 128^(size+1) := by omega
  have hsu : n / 128 - 1 + 1 = n / 128 := by omega
  rw [if_neg hs,reverse_cons,append_assoc]
  refine (readVarIntFrom_more hn (by omega) _).trans ?_
  rw [hsu]
  exact hla

/-! ## Canonical prefixes -/

/-- The loop of `GetSizeOfVarInt`. -/
def getSizeOfVarInt (n : Nat) : Nat := if n ≤ 0x7F then 1 else getSizeOfVarInt (n / 128 - 1) + 1
termination_by n

/-- Seven-bit groups of which exactly the last lacks the continuation bit. -/
def Terminated : Bytes → Prop
  | [] => False
  | chData::rest => if chData.toNat < 128 then rest = [] else Terminated rest

/-- The number that groups continue from `n`. -/
def varIntValue : Nat → Bytes → Nat
  | n, [] => n
  | n, chData::rest =>
    if chData.toNat < 128 then n * 128 + chData.toNat else varIntValue (n * 128 + chData.toNat % 128 + 1) rest

theorem writeCompactSize_length (n : Nat) : (writeCompactSize n).length = sizeOfCompactSize n := by
  unfold writeCompactSize sizeOfCompactSize serWritedata
  split_ifs <;> simp

theorem varIntGroups_length {size n : Nat} (more : Bool) (h : n < 128^(size+1)) :
    (varIntGroups (size+1) more n).length = getSizeOfVarInt n := by
  rw [varIntGroups,getSizeOfVarInt]
  by_cases hs : n ≤ 0x7F
  · rw [if_pos hs,if_pos hs]
    rfl
  · rw [if_neg hs,if_neg hs,length_cons]
    cases size with
    | zero => omega
    | succ size => rw [varIntGroups_length true (by omega)]

theorem Terminated.length_pos (h : Terminated s) : 0 < s.length := by
  cases s with
  | nil => exact h.elim
  | cons chData s => simp

theorem le_varIntValue (n : Nat) (h : Terminated s) : n * 128 ≤ varIntValue n s := by
  induction s generalizing n with
  | nil => exact h.elim
  | cons chData s ih =>
    rw [varIntValue]
    by_cases hl : chData.toNat < 128
    · rw [if_pos hl]
      omega
    · rw [Terminated,if_neg hl] at h
      have hr := ih (n * 128 + chData.toNat % 128 + 1) h
      rw [if_neg hl]
      omega

/-- The loop finds that a number does not fit before it would leave the type. -/
theorem readVarIntFrom_terminated (hli : 128 ∣ limit + 1) (h : Terminated s)
    (rest : Bytes) : readVarIntFrom limit n (s++rest) =
      if varIntValue n s ≤ limit then .ok (varIntValue n s, rest)
      else .error "ReadVarInt(): size too large" := by
  induction s generalizing n with
  | nil => exact h.elim
  | cons chData s ih =>
    have hval := le_varIntValue n h
    rw [cons_append,readVarIntFrom]
    by_cases hl : n > limit / 128
    · rw [if_pos hl,if_neg (by omega)]
    rw [if_neg hl]
    by_cases hla : chData.toNat < 128
    · rw [Terminated,if_pos hla] at h
      simp only [varIntValue,if_pos hla,mod_eq_of_lt hla,h]
      rw [if_pos (by omega)]
      rfl
    · rw [Terminated,if_neg hla] at h
      have hr := le_varIntValue (n * 128 + chData.toNat % 128 + 1) h
      simp only [varIntValue,if_neg hla]
      by_cases hmax : n * 128 + chData.toNat % 128 = limit
      · rw [if_pos hmax,if_neg (by omega)]
      · rw [if_neg hmax,ih h]

theorem readVarIntFrom_eq_ok {limit n v : Nat} (h : readVarIntFrom limit n s = .ok (v, [])) :
    Terminated s ∧ varIntValue n s = v := by
  induction s generalizing n with
  | nil => cases h
  | cons chData s ih =>
    rw [readVarIntFrom] at h
    rw [Terminated,varIntValue]
    dsimp only at h
    split_ifs at h ⊢ with hl hlast
    · cases h
      exact ⟨rfl,by rw [mod_eq_of_lt hl]⟩
    · exact ih h

theorem varIntValue_injective {m n : Nat} {t : Bytes} (hs : Terminated s) (ht : Terminated t)
    (hlen : s.length = t.length) (h : varIntValue m s = varIntValue n t) : m = n ∧ s = t := by
  induction s generalizing m n t with
  | nil => exact hs.elim
  | cons c s ih =>
    cases t with
    | nil => exact ht.elim
    | cons d t =>
      simp only [Terminated,varIntValue,length_cons,add_right_cancel_iff] at hs ht hlen h
      have hc := c.toNat_lt
      have hd := d.toNat_lt
      split_ifs at hs ht h with hl hlastd hlastd
      · have hb : c = d := UInt8.toNat_inj.mp (by omega)
        exact ⟨by omega,by rw [hb,hs,ht]⟩
      · rw [hs] at hlen
        exact absurd hlen ht.length_pos.ne
      · rw [ht] at hlen
        exact absurd hlen hs.length_pos.ne'
      · obtain ⟨hst,rfl⟩ := ih hs ht hlen h
        have hb : c = d := UInt8.toNat_inj.mp (by omega)
        exact ⟨by omega,by rw [hb]⟩

theorem varIntValue_ne {m n : Nat} {t : Bytes} (hs : Terminated s) (ht : Terminated t)
    (hst : m ≤ n) (hlen : s.length < t.length) : varIntValue m s ≠ varIntValue n t := by
  induction t generalizing n with
  | nil => exact ht.elim
  | cons d t ih =>
    by_cases hl : d.toNat < 128
    · rw [Terminated,if_pos hl] at ht
      rw [ht] at hlen
      exact absurd hlen (not_lt.mpr hs.length_pos)
    · rw [Terminated,if_neg hl] at ht
      rw [varIntValue,if_neg hl]
      rcases (le_of_lt_succ hlen).eq_or_lt with heq | hlt
      · intro h
        have he := (varIntValue_injective hs ht heq h).1
        omega
      · exact ih ht (by omega) hlt

theorem lengthPrefixes_canonical (size : Nat) (hsize : 0 < size) :
    ((∀ n < 2^64, Decodes (readCompactSize false) (writeCompactSize n) n ∧
        sizeOfCompactSize n = (writeCompactSize n).length) ∧
      Canonical (readCompactSize false) writeCompactSize) ∧
    (∀ n < 2^(8*size), Decodes (readVarInt (8*size)) (writeVarInt (8*size) n) n ∧
      getSizeOfVarInt n = (writeVarInt (8*size) n).length) ∧
    Set.BijOn (writeVarInt (8*size)) {n | n < 2^(8*size)}
      {s | Terminated s ∧ varIntValue 0 s < 2^(8*size)} ∧
    ∀ s rest, Terminated s → (readVarInt (8*size)).run (s++rest) =
      if varIntValue 0 s < 2^(8*size) then .ok (varIntValue 0 s, rest)
      else .error "ReadVarInt(): size too large" := by
  have hbits : 0 < 8 * size := by omega
  have hread := fun n hn => @readVarInt_decodes (8*size) n hbits hn
  have hwr : ∀ n < 2^(8*size), Terminated (writeVarInt (8*size) n) ∧
      varIntValue 0 (writeVarInt (8*size) n) = n := by
    intro n hn
    have hrun := hread n hn []
    rw [append_nil] at hrun
    exact readVarIntFrom_eq_ok hrun
  refine ⟨⟨fun n hn => ⟨bind_pure (readSizeForm_decodes hn) rfl,(writeCompactSize_length n).symm⟩,
    readCompactSize_canonical⟩,fun n hn => ⟨hread n hn,?_⟩,⟨?_,?_,?_⟩,?_⟩
  · obtain ⟨k,hk,hlt⟩ := groups_room hbits hn
    rw [writeVarInt,length_reverse,hk,varIntGroups_length _ hlt]
  · intro n hn
    obtain ⟨hterm,hval⟩ := hwr n hn
    exact ⟨hterm,hval.symm ▸ hn⟩
  · intro m hm n hn heq
    rw [← (hwr m hm).2,heq,(hwr n hn).2]
  · intro s hs
    obtain ⟨hterm,hval⟩ := hwr _ hs.2
    refine ⟨_,hs.2,?_⟩
    rcases lt_trichotomy (writeVarInt (8*size) (varIntValue 0 s)).length s.length with hlt | heq | hgt
    · exact absurd hval (varIntValue_ne hterm hs.1 le_rfl hlt)
    · exact (varIntValue_injective hterm hs.1 heq hval).2
    · exact absurd hval.symm (varIntValue_ne hs.1 hterm le_rfl hgt)
  · intro s rest hs
    have hpos := Nat.two_pow_pos (8*size)
    have hdvd : 128 ∣ 2^(8*size) - 1 + 1 := by
      rw [Nat.sub_add_cancel hpos]
      exact pow_dvd_pow 2 (by omega : 7 ≤ 8 * size)
    refine (readVarIntFrom_terminated hdvd hs rest).trans ?_
    simp [Nat.le_sub_one_iff_lt hpos]

theorem varInt_bijective :
    Set.BijOn (writeVarInt 64) {n | n < 2^64} {s | Terminated s ∧ varIntValue 0 s < 2^64} :=
  (lengthPrefixes_canonical 8 (by norm_num)).2.2.1
end Lcryp
