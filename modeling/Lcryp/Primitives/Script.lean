import Mathlib.Data.Nat.Digits.Lemmas

/-!
# Scripts

Scripts are byte strings.
-/
namespace Lcryp
open UInt8 Nat List
abbrev CScript := List UInt8
def maxScriptSize : Nat := 10000
def opReturn : UInt8 := 0x6a
def opDup : UInt8 := 0x76
def opEqual : UInt8 := 0x87
def opEqualVerify : UInt8 := 0x88
def opHash160 : UInt8 := 0xa9
def opCheckSig : UInt8 := 0xac
def CScript.isUnspendable (script : CScript) : Bool :=
  (script.head?.any (· == opReturn)) || decide (script.length > maxScriptSize)

def scriptNumSerialize (value : Int) : List UInt8 :=
  let result := (digits 256 value.natAbs).map ofNat
  match result.getLast? with
  | none => []
  | some back =>
    if back &&& 0x80 ≠ 0 then result++[if value < 0 then 0x80 else 0]
    else if value < 0 then result.dropLast++[back ||| 0x80]
    else result

/-- `CScript() << b` for a byte vector; the two longer length forms are little-endian. -/
def pushData (b : List UInt8) : CScript :=
  if b.length < 0x4c then ofNat b.length::b
  else if b.length ≤ 0xff then 0x4c::ofNat b.length::b
  else if b.length ≤ 0xffff then
    0x4d::ofNat (b.length % 256)::ofNat (b.length/256)::b
  else
    0x4e::ofNat (b.length % 256)::ofNat (b.length / 256 % 256) ::
      ofNat (b.length / 65536 % 256)::ofNat (b.length/16777216)::b

/-- `CScript() << n`. -/
def pushInt64 (n : Int) : CScript :=
  if n = -1 ∨ (1 ≤ n ∧ n ≤ 16) then [ofNat (n+0x50).toNat]
  else if n = 0 then [0]
  else pushData (scriptNumSerialize n)

variable (n : Nat)
private theorem digits_bytes : ((digits 256 n).map ofNat).map toNat = digits 256 n := by
  rw [map_map]
  refine (map_congr_left ?_).trans (map_id _)
  intro d hd
  have hlt : d < 256 := digits_lt_base (by norm_num) hd
  simp [mod_eq_of_lt hlt]

/-- The magnitude of a non-negative number can be read back; the sign byte adds nothing. -/
theorem ofDigits_scriptNumSerialize : ofDigits 256 ((scriptNumSerialize n).map toNat) = n := by
  unfold scriptNumSerialize
  simp only [Int.natAbs_natCast]
  split
  · rename_i hnone
    have hnil : digits 256 n = [] := by simpa using hnone
    rw [digits_eq_nil_iff_eq_zero] at hnil
    simp [hnil]
  · have hneg : ¬ (n : Int) < 0 := by omega
    split
    · rw [map_append,ofDigits_append,digits_bytes,ofDigits_digits]
      simp
    · rw [digits_bytes,ofDigits_digits]

private theorem scriptNumSerialize_length (h : n < 2^31) : (scriptNumSerialize n).length < 0x4c := by
  have hd : (digits 256 n).length ≤ 4 := by
    rw [digits_length_le_iff (by norm_num)]
    omega
  unfold scriptNumSerialize
  simp only [Int.natAbs_natCast]
  split
  · simp
  · split_ifs <;> simp <;> omega

/-- A pushed positive height is one opcode or a length byte with as many bytes behind it. -/
private theorem pushInt64_cases (hpos : 0 < n) (h : n < 2^31) :
    (n ≤ 16 ∧ pushInt64 n = [ofNat (n+0x50)]) ∨
      (16 < n ∧ pushInt64 n = ofNat (scriptNumSerialize n).length::scriptNumSerialize n) := by
  by_cases hs : n ≤ 16
  · refine .inl ⟨hs,?_⟩
    rw [pushInt64,if_pos (by omega)]
    congr 2
  · refine .inr ⟨by omega,?_⟩
    rw [pushInt64,if_neg (by omega),if_neg (by omega),pushData,if_pos (scriptNumSerialize_length n h)]

theorem pushInt64_prefix_eq (m n : Nat) (hm : 0 < m) (hn : 0 < n) (hm' : m < 2^31)
    (hn' : n < 2^31) (h : pushInt64 m <+: pushInt64 n) : m = n := by
  have hlm := scriptNumSerialize_length m hm'
  have hln := scriptNumSerialize_length n hn'
  rcases pushInt64_cases m hm hm' with ⟨hms,hpm⟩ | ⟨hms,hpm⟩ <;>
    rcases pushInt64_cases n hn hn' with ⟨hns,hpn⟩ | ⟨hns,hpn⟩ <;>
    rw [hpm,hpn,cons_prefix_cons] at h
  all_goals
    have hb := congrArg toNat h.1
    simp only [toNat_ofNat'] at hb
  iterate 3 omega
  rw [← ofDigits_scriptNumSerialize m,h.2.eq_of_length (by omega),ofDigits_scriptNumSerialize]

theorem pushInt64_prefix_free (m n : Nat) (script : CScript) (hm : 0 < m) (hn : 0 < n) (hm' : m < 2^31)
    (hn' : n < 2^31) (h1 : pushInt64 m <+: script) (h2 : pushInt64 n <+: script) : m = n := by
  rcases prefix_or_prefix_of_prefix h1 h2 with h | h
  · exact pushInt64_prefix_eq m n hm hn hm' hn' h
  · exact (pushInt64_prefix_eq n m hn hm hn' hm' h).symm
end Lcryp
