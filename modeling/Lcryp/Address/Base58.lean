import Lcryp.Framework.Codec
import Lcryp.Framework.Radix
import Lcryp.Primitives.ArithUint256
import Mathlib.Data.List.TakeWhile

/-!
# Base58

`EncodeBase58`, `DecodeBase58` and the variants with a checksum.  A text is a list of bytes.  Nothing is
returned where an assertion fails, a vector is given a negative size or an `int` overflows.
-/
namespace Lcryp
open Codec Radix List Nat
def ascii (c : Char) : UInt8 := UInt8.ofNat c.toNat
def isSpace (c : UInt8) : Bool := c == 0x20 || c == 0x0c || c == 0x0a || c == 0x0d || c == 0x09 || c == 0x0b
def pszBase58 : List Char :=
  ['1','2','3','4','5','6','7','8','9','A','B','C','D','E','F','G',
    'H','J','K','L','M','N','P','Q','R','S','T','U','V','W','X','Y',
    'Z','a','b','c','d','e','f','g','h','i','j','k','m','n','o','p',
    'q','r','s','t','u','v','w','x','y','z']

def mapBase58 : List Int :=
  replicate 48 (-1) ++
    [-1,0,1,2,3,4,5,6,7,8,-1,-1,-1,-1,-1,-1,
      -1,9,10,11,12,13,14,15,16,-1,17,18,19,20,21,-1,
      22,23,24,25,26,27,28,29,30,31,32,-1,-1,-1,-1,-1,
      -1,33,34,35,36,37,38,39,40,41,42,43,-1,44,45,46,
      47,48,49,50,51,52,53,54,55,56,57,-1,-1,-1,-1,-1] ++
    replicate 128 (-1)

def base58Char (d : Nat) : UInt8 := ascii (pszBase58.getD d '1')
def base58Digit (c : UInt8) : Int := mapBase58.getD c.toNat (-1)
def encodeBase58Loop : Bytes → List Nat → Nat → Option (List Nat × Nat)
  | [], b58, length => some (b58, length)
  | c::input, b58, length =>
    let r := mulAdd 256 58 c.toNat length b58
    -- the assertion on the carry
    if r.2.1 = 0 then encodeBase58Loop input r.1 r.2.2 else none

/-- A size that is stored in an `int`. -/
def narrow (size : Nat) : Int := (size : Int).bmod (2^32)

/-- The places of a vector of a narrowed size. -/
def places (size : Nat) : Option (List Nat) :=
  if narrow size < 0 then none else some (replicate (narrow size).toNat 0)

def encodeBase58 (input : Bytes) : Option Bytes := do
  let zeroes := (input.takeWhile (· == 0)).length
  guard (zeroes < 2^31)
  let input := input.dropWhile (· == 0)
  let b58 ← places (input.length * 138 % 2^64 / 100 + 1)
  let r ← encodeBase58Loop input b58 0
  return replicate zeroes (ascii '1') ++ ((r.1.take r.2).reverse.dropWhile (· == 0)).map base58Char

/-- The loop of `DecodeBase58` over the digits: what is left of the text, the places and their number.
The inner `Option` is empty if the text is refused. -/
def decodeBase58Loop (zeroes : Nat) (maxRetLen : Int) :
    Bytes → List Nat → Nat → Option (Option (Bytes × List Nat × Nat))
  | [], b256, length => some (some ([], b256, length))
  | c::psz, b256, length =>
    if isSpace c then some (some (c::psz, b256, length))
    else if base58Digit c = -1 then some none
    else
      let r := mulAdd 58 256 (base58Digit c).toNat length b256
      if r.2.1 ≠ 0 ∨ 2^31 ≤ r.2.2 + zeroes then none
      else if r.2.2 + zeroes > maxRetLen then some none
      else decodeBase58Loop zeroes maxRetLen psz r.1 r.2.2

def decodeBase58 (str : Bytes) (maxRetLen : Int) : Option (Option Bytes) :=
  if str.contains 0 then some none
  else
    let psz := str.dropWhile isSpace
    let zeroes := (psz.takeWhile (· == ascii '1')).length
    -- compared at each one that is read
    if zeroes ≠ 0 ∧ zeroes > maxRetLen then if maxRetLen < 2^31 - 1 then some none else none
    else do
      let psz := psz.dropWhile (· == ascii '1')
      let b256 ← places (psz.length * 733 % 2^64 / 1000 + 1)
      let result ← decodeBase58Loop zeroes maxRetLen psz b256 0
      return result.bind fun r =>
        if r.1.dropWhile isSpace ≠ [] then none
        else some (replicate zeroes 0++(r.2.1.take r.2.2).reverse.map UInt8.ofNat)

variable (hash : Bytes → Uint256)
section Checksum
def base58Checksum (vch : Bytes) : Bytes := leBytes 4 (hash vch).toNat
def encodeBase58Check (input : Bytes) : Option Bytes := encodeBase58 (input++base58Checksum hash input)

def decodeBase58Check (str : Bytes) (maxRetLen : Int) : Option (Option Bytes) :=
  (decodeBase58 str (min (maxRetLen+4) (2^31 - 1))).map fun result =>
    result.bind fun vchRet =>
      if vchRet.length < 4 then none
      else
        let data := vchRet.take (vchRet.length-4)
        if vchRet.drop (vchRet.length-4) = base58Checksum hash data then some data else none
end Checksum

def toDigits (bytes : Bytes) : List Nat := bytes.map UInt8.toNat

/-- The number that bytes denote, the most significant first. -/
def bytesValue (bytes : Bytes) : Nat := value 256 (toDigits bytes)
def minimalBytes (n : Nat) : Bytes := (minimal 256 n).map UInt8.ofNat
theorem toDigits_lt {bytes : Bytes} {d : Nat} (h : d ∈ toDigits bytes) : d < 256 := by
  obtain ⟨b,-,rfl⟩ := mem_map.mp h
  exact b.toNat_lt

variable (bytes : Bytes)
theorem ofNat_toDigits : (toDigits bytes).map UInt8.ofNat = bytes := by
  simp [toDigits,Function.comp_def]

variable {α : Type}
theorem takeWhile_beq_eq_replicate [BEq α] [LawfulBEq α] (l : List α) (a : α) :
    l.takeWhile (· == a) = replicate (l.takeWhile (· == a)).length a := by
  rw [eq_replicate_iff]
  refine ⟨rfl,fun b hb => ?_⟩
  simpa using mem_takeWhile_imp hb

theorem head?_dropWhile_beq_ne [BEq α] [LawfulBEq α] (l : List α) (a : α) :
    (l.dropWhile (· == a)).head? ≠ some a := by
  intro h
  have := head?_dropWhile_not (· == a) l
  rw [h] at this
  simp at this

theorem bytesValue_dropWhile_zero : bytesValue (bytes.dropWhile (· == 0)) = bytesValue bytes := by
  have hs := takeWhile_append_dropWhile (p := (· == 0)) (l := bytes)
  rw [takeWhile_beq_eq_replicate] at hs
  conv_rhs => rw [← hs,bytesValue,toDigits,map_append,map_replicate]
  exact (value_replicate_zero _ _).symm

theorem eq_replicate_append_minimalBytes :
    bytes = replicate (bytes.takeWhile (· == 0)).length 0++minimalBytes (bytesValue bytes) := by
  have hr : minimalBytes (bytesValue bytes) = bytes.dropWhile (· == 0) := by
    rw [← bytesValue_dropWhile_zero,minimalBytes,bytesValue,minimal_value (by decide) (fun d => toDigits_lt),
      ofNat_toDigits]
    intro hz
    rw [toDigits,head?_map,Option.map_eq_some_iff] at hz
    obtain ⟨b,hb,hb0⟩ := hz
    apply head?_dropWhile_beq_ne bytes 0
    rw [hb,← UInt8.toNat_inj.mp (hb0.trans UInt8.toNat_zero.symm)]
  rw [hr,← takeWhile_beq_eq_replicate,takeWhile_append_dropWhile]

theorem base58Digit_char {d : Nat} (h : d < 58) :
    base58Digit (base58Char d) = d ∧ isSpace (base58Char d) = false ∧ base58Char d ≠ 0 ∧
      (base58Char d = ascii '1' ↔ d = 0) := by
  have ht : ∀ d : Fin 58, base58Digit (base58Char d) = d.val ∧
      isSpace (base58Char d) = false ∧ base58Char d ≠ 0 ∧
      (base58Char d = ascii '1' ↔ d.val = 0) := by decide
  exact ht ⟨d,h⟩

theorem base58Char_digit {c : UInt8} (h : base58Digit c ≠ -1) :
    (base58Digit c).toNat < 58 ∧ base58Char (base58Digit c).toNat = c := by
  have ht : ∀ k : Fin 256, base58Digit (UInt8.ofNat k) ≠ -1 →
      (base58Digit (UInt8.ofNat k)).toNat < 58 ∧
        base58Char (base58Digit (UInt8.ofNat k)).toNat = UInt8.ofNat k := by decide +kernel
  have := ht ⟨c.toNat,c.toNat_lt⟩
  simp only [UInt8.ofNat_toNat] at this
  exact this h

/-- The text of a number with some zeros before it. -/
def base58Text (zeroes n : Nat) : Bytes := replicate zeroes (ascii '1')++(minimal 58 n).map base58Char

theorem encodeBase58Loop_spec (input : Bytes) (size n : Nat) (hn : n < 58^size) :
    encodeBase58Loop input (digitsAppend 58 size n) (digits 58 n).length =
      if n * 256^input.length + bytesValue input < 58^size then
        some (digitsAppend 58 size (n * 256^input.length + bytesValue input),
          (digits 58 (n * 256^input.length + bytesValue input)).length)
      else none := by
  induction input generalizing n with
  | nil => simp [encodeBase58Loop,bytesValue,toDigits,hn]
  | cons c input ih =>
    have hval : n * 256^(c::input).length + bytesValue (c::input) =
        (256 * n + c.toNat) * 256^input.length + bytesValue input := by
      rw [bytesValue,toDigits,map_cons,value_cons,length_map,length_cons]
      change _ + (_ + bytesValue input) = _
      ring
    obtain ⟨hfit,hleft⟩ := mulAdd_digitsAppend (show 0 < 256 by decide) (by decide) size n c.toNat hn
    rw [hval,encodeBase58Loop]
    by_cases hs : 256 * n + c.toNat < 58^size
    · rw [hfit hs]
      exact ih _ hs
    · have hle := Nat.le_mul_of_pos_right (256 * n + c.toNat) (Nat.pow_pos (by decide) : 0 < 256^input.length)
      rw [if_neg (hleft (not_lt.mp hs)),if_neg (by omega)]

theorem bytesValue_lt : bytesValue bytes < 256^bytes.length := by
  have hlt : value 256 (toDigits bytes) < 256^(toDigits bytes).length :=
    value_lt (by decide) fun d hd => toDigits_lt hd
  rwa [toDigits,length_map] at hlt

/-- The lengths for which the size in `EncodeBase58` is an `int`. -/
def FitsInt (bytes : Bytes) : Prop := bytes.length * 138 / 100 + 1 < 2^31

theorem digitsAppend_zero (base k : Nat) : digitsAppend base k 0 = replicate k 0 := by
  simp [digitsAppend]

theorem places_of_lt {size : Nat} (h : size < 2^31) : places size = some (replicate size 0) := by
  have hsize : narrow size = size := Int.bmod_eq_of_le (by omega) (by omega)
  rw [places,hsize,if_neg (by omega),Int.toNat_natCast]

theorem places_eq_some {size : Nat} {l : List Nat} (h : places size = some l) : ∃ k, l = replicate k 0 := by
  unfold places at h
  split at h
  · cases h
  · exact ⟨_,(Option.some.inj h).symm⟩

theorem encodeBase58_eq_some {input text : Bytes} (h : encodeBase58 input = some text) :
    text = base58Text (input.takeWhile (· == 0)).length (bytesValue input) := by
  obtain ⟨_,-,h⟩ := Option.bind_eq_some_iff.mp h
  obtain ⟨b58,hplaces,h⟩ := Option.bind_eq_some_iff.mp h
  obtain ⟨r,hr,h⟩ := Option.bind_eq_some_iff.mp h
  obtain ⟨size,rfl⟩ := places_eq_some hplaces
  have hl := encodeBase58Loop_spec (input.dropWhile (· == 0)) size 0 (Nat.pow_pos (by decide))
  rw [digitsAppend_zero,digits_zero,length_nil,hr,zero_mul,zero_add,bytesValue_dropWhile_zero] at hl
  split at hl
  · cases hl
    have hd : (minimal 58 (bytesValue input)).dropWhile (· == 0) = minimal 58 (bytesValue input) := by
      rw [dropWhile_eq_self_iff]
      intro hlt hzero
      have hh : (minimal 58 (bytesValue input)).head? ≠ some 0 := head?_minimal_ne_zero _
      apply hh
      rw [head?_eq_getElem?,getElem?_eq_getElem hlt]
      simpa using hzero
    rw [digitsAppend,take_left,← minimal,hd] at h
    exact (Option.some.inj h).symm
  · cases hl

theorem encodeBase58_eq {input : Bytes} (h : FitsInt input) :
    encodeBase58 input = some (base58Text (input.takeWhile (· == 0)).length (bytesValue input)) := by
  unfold FitsInt at h
  have hz := (takeWhile_sublist (· == 0) (l := input)).length_le
  have hd := (dropWhile_sublist (· == 0) (l := input)).length_le
  have hr := pow_le_scaled (by decide) (by decide) (by norm_num : 256^100 ≤ 58^138)
    (input.dropWhile (· == 0)).length
  have hl := encodeBase58Loop_spec (input.dropWhile (· == 0))
    ((input.dropWhile (· == 0)).length * 138 / 100 + 1) 0 (Nat.pow_pos (by decide))
  rw [zero_mul,zero_add,if_pos ((bytesValue_lt _).trans_le hr),digitsAppend_zero,digits_zero,length_nil] at hl
  obtain ⟨text,ht⟩ : ∃ text, encodeBase58 input = some text := by
    simp only [encodeBase58,guard]
    rw [if_pos (by omega),Nat.mod_eq_of_lt (by omega),places_of_lt (by omega)]
    exact ⟨_,by rw [pure_bind,Option.bind_eq_bind,Option.bind_some,hl]; rfl⟩
  rw [ht,encodeBase58_eq_some ht]

theorem takeWhile_replicate_append [BEq α] [LawfulBEq α] (k : Nat) (a : α) (l : List α) (h : l.head? ≠ some a) :
    (replicate k a++l).takeWhile (· == a) = replicate k a ∧ (replicate k a++l).dropWhile (· == a) = l := by
  induction k with
  | zero =>
    cases l with
    | nil => simp
    | cons b l =>
      have hne : b ≠ a := by simpa using h
      simp [hne]
  | succ k ih => simp [replicate_succ,ih]

theorem toDigits_minimalBytes (n : Nat) : toDigits (minimalBytes n) = minimal 256 n := by
  rw [toDigits,minimalBytes,map_map]
  conv_rhs => rw [← map_id (minimal 256 n)]
  apply map_congr_left
  intro d hd
  simpa using minimal_lt (by decide) hd

theorem encodeBase58_minimalBytes {zeroes n : Nat} (h : FitsInt (replicate zeroes 0++minimalBytes n)) :
    encodeBase58 (replicate zeroes 0++minimalBytes n) = some (base58Text zeroes n) := by
  have hh : (minimalBytes n).head? ≠ some 0 := by
    intro h
    have hz := congrArg (Option.map UInt8.toNat) h
    rw [← head?_map] at hz
    change (toDigits (minimalBytes n)).head? = some 0 at hz
    rw [toDigits_minimalBytes] at hz
    exact head?_minimal_ne_zero n hz
  have hval : bytesValue (replicate zeroes 0++minimalBytes n) = n := by
    rw [bytesValue,toDigits,map_append,map_replicate]
    change value 256 (replicate zeroes 0++toDigits (minimalBytes n)) = n
    rw [value_replicate_zero,toDigits_minimalBytes,value_minimal]
  rw [encodeBase58_eq h,hval,(takeWhile_replicate_append zeroes 0 _ hh).1,length_replicate]

/-- A text is empty or goes on with a space. -/
def EndsWord (rest : Bytes) : Prop := ∀ c, rest.head? = some c → isSpace c = true

variable (zeroes size n : Nat) (maxRetLen : Int)
theorem decodeBase58Loop_digits (ds : List Nat) (rest : Bytes)
    (hds : ∀ d ∈ ds, d < 58) (hr : EndsWord rest) (hfit : n * 58^ds.length + value 58 ds < 256^size)
    (hmax : ds ≠ [] → (digits 256 (n * 58^ds.length + value 58 ds)).length + zeroes ≤ maxRetLen)
    (hint : (digits 256 (n * 58^ds.length + value 58 ds)).length + zeroes < 2^31) :
    decodeBase58Loop zeroes maxRetLen (ds.map base58Char++rest) (digitsAppend 256 size n)
        (digits 256 n).length =
      some (some (rest, digitsAppend 256 size (n * 58^ds.length + value 58 ds),
        (digits 256 (n * 58^ds.length + value 58 ds)).length)) := by
  induction ds generalizing n with
  | nil =>
    simp only [map_nil,nil_append,length_nil,pow_zero,mul_one,value_nil,add_zero]
    cases rest with
    | nil => rfl
    | cons c rest => rw [decodeBase58Loop,if_pos (hr c rfl)]
  | cons d ds ih =>
    have hd : d < 58 := hds d mem_cons_self
    have hn : n * 58^(d::ds).length + value 58 (d::ds) = (58 * n + d) * 58^ds.length + value 58 ds := by
      rw [value_cons,length_cons]
      ring
    have hmax := hmax (cons_ne_nil d ds)
    rw [hn] at hfit hmax hint ⊢
    have hle : 58 * n + d ≤ (58 * n + d) * 58^ds.length + value 58 ds := by
      have := Nat.le_mul_of_pos_right (58 * n + d) (Nat.pow_pos (by decide) : 0 < 58^ds.length)
      omega
    have hlen := le_length_digits_le 256 _ _ hle
    obtain ⟨hdi,hs,-,-⟩ := base58Digit_char hd
    rw [map_cons,cons_append,decodeBase58Loop,hs,hdi,if_neg (by decide),if_neg (by omega),Int.toNat_natCast,
      (mulAdd_digitsAppend (by decide) (by decide) size n d (by omega)).1 (by omega)]
    dsimp only
    rw [if_neg (by omega),if_neg (by omega)]
    exact ih _ (fun e he => hds e (mem_cons_of_mem d he)) hfit (fun _ => hmax) hint

/-- What is read off the text when the loop ends well. -/
structure ReadOff (psz : Bytes) (r : Bytes × List Nat × Nat) (ds : List Nat) : Prop where
  digits : ∀ d ∈ ds, d < 58
  text : psz = ds.map base58Char++r.1
  word : EndsWord r.1
  places : r.2.1 = digitsAppend 256 size (n * 58^ds.length + value 58 ds)
  length : r.2.2 = (Nat.digits 256 (n * 58^ds.length + value 58 ds)).length
  limit : ds = [] ∨ r.2.2 + zeroes ≤ maxRetLen

/-- With room for the number that the text denotes the loop does not run out of places. -/
theorem decodeBase58Loop_spec (psz : Bytes) (hn : n < 256^size) :
    (∀ r, decodeBase58Loop zeroes maxRetLen psz (digitsAppend 256 size n) (digits 256 n).length =
      some (some r) → ∃ ds, ReadOff zeroes size n maxRetLen psz r ds) ∧
    ((n+1) * 58^psz.length ≤ 256^size → size + zeroes < 2^31 →
      ∃ result, decodeBase58Loop zeroes maxRetLen psz (digitsAppend 256 size n) (digits 256 n).length =
        some result) := by
  induction psz generalizing n with
  | nil =>
    refine ⟨?_,fun _ _ => ⟨_,rfl⟩⟩
    rintro r ⟨rfl⟩
    exact ⟨[],by simp,by simp,by simp [EndsWord],by simp,by simp,.inl rfl⟩
  | cons c psz ih =>
    rw [decodeBase58Loop]
    by_cases hs : isSpace c = true
    · rw [if_pos hs]
      refine ⟨?_,fun _ _ => ⟨_,rfl⟩⟩
      rintro r ⟨rfl⟩
      refine ⟨[],by simp,by simp,?_,by simp,by simp,.inl rfl⟩
      rintro b ⟨rfl⟩
      exact hs
    rw [if_neg hs]
    by_cases hbad : base58Digit c = -1
    · rw [if_pos hbad]
      exact ⟨nofun,fun _ _ => ⟨_,rfl⟩⟩
    obtain ⟨hlt,hc⟩ := base58Char_digit hbad
    obtain ⟨hfit,hleft⟩ := mulAdd_digitsAppend (show 0 < 58 by decide) (by decide) size n
      (base58Digit c).toNat hn
    rw [if_neg hbad]
    by_cases hroom : 58 * n + (base58Digit c).toNat < 256^size
    · obtain ⟨hread,htotal⟩ := ih _ hroom
      rw [hfit hroom]
      dsimp only
      refine ⟨fun r hr => ?_,fun hr hint => ?_⟩
      · split_ifs at hr with hover hlen
        · cases hr
        obtain ⟨ds,hds⟩ := hread r hr
        have hval : n * 58^((base58Digit c).toNat::ds).length + value 58 ((base58Digit c).toNat::ds) =
            (58 * n + (base58Digit c).toNat) * 58^ds.length + value 58 ds := by
          rw [value_cons,length_cons]
          ring
        refine ⟨(base58Digit c).toNat::ds,forall_mem_cons.mpr ⟨hlt,hds.digits⟩,?_,hds.word,?_,?_,.inr ?_⟩
        · rw [map_cons,hc,cons_append,← hds.text]
        · rw [hval,hds.places]
        · rw [hval,hds.length]
        · rcases hds.limit with rfl | hmax
          · rw [hds.length,length_nil,pow_zero,mul_one,value_nil,add_zero]
            omega
          · exact hmax
      · have hlen := (digits_length_le_iff (by decide) _).mpr hroom
        rw [if_neg (by omega)]
        split
        · exact ⟨none,rfl⟩
        · refine htotal (le_trans ?_ hr) hint
          rw [length_cons,pow_succ,mul_comm (58^psz.length),← mul_assoc]
          exact Nat.mul_le_mul_right _ (by omega)
    · rw [if_pos (.inl (hleft (not_lt.mp hroom)))]
      refine ⟨nofun,fun hr => ?_⟩
      have := Nat.le_mul_of_pos_right ((n+1) * 58) (Nat.pow_pos (by decide) : 0 < 58^psz.length)
      rw [length_cons,pow_succ,mul_comm (58^psz.length),← mul_assoc] at hr
      omega

theorem head?_map_base58Char_ne (n : Nat) : ((minimal 58 n).map base58Char).head? ≠ some (ascii '1') := by
  intro h
  rw [head?_map,Option.map_eq_some_iff] at h
  obtain ⟨d,hd,hc⟩ := h
  have hlt : d < 58 := minimal_lt (by decide) (mem_of_head? hd)
  rw [(base58Digit_char hlt).2.2.2.mp hc] at hd
  exact head?_minimal_ne_zero n hd

theorem mem_base58Text {zeroes n : Nat} {c : UInt8} (h : c ∈ base58Text zeroes n) :
    ∃ d, d < 58 ∧ c = base58Char d := by
  rw [base58Text,mem_append] at h
  rcases h with h | h
  · exact ⟨0,by decide,eq_of_mem_replicate h⟩
  · obtain ⟨d,hd,rfl⟩ := mem_map.mp h
    exact ⟨d,minimal_lt (by decide) hd,rfl⟩

theorem pow_58_le_pow_256 : 58^1000 ≤ 256^733 := by decide +kernel

def Spaced (str text : Bytes) : Prop :=
  ∃ before after : Bytes, str = before++text++after ∧ before.all isSpace = true ∧ after.all isSpace = true

theorem Spaced.dropWhile {str : Bytes} {zeroes n : Nat} (h : Spaced str (base58Text zeroes n)) :
    str.contains 0 = false ∧ ∃ after, (∀ c ∈ after, isSpace c = true) ∧
      str.dropWhile isSpace = base58Text zeroes n++after := by
  obtain ⟨before,after,rfl,hbef,ha⟩ := h
  rw [all_eq_true] at hbef ha
  constructor
  · rw [← Bool.not_eq_true,contains_iff_mem,mem_append,mem_append]
    intro h
    rcases h with (h | h) | h
    · cases hbef 0 h
    · obtain ⟨d,hd,hz⟩ := mem_base58Text h
      exact (base58Digit_char hd).2.2.1 hz.symm
    · cases ha 0 h
  · rw [append_assoc,dropWhile_append_of_pos hbef]
    cases ht : base58Text zeroes n with
    | nil => exact ⟨[],by simp,dropWhile_eq_nil_iff.mpr ha⟩
    | cons c text =>
      obtain ⟨d,hd,rfl⟩ := mem_base58Text (ht ▸ mem_cons_self : c ∈ base58Text zeroes n)
      refine ⟨after,ha,?_⟩
      rw [cons_append,dropWhile_cons_of_neg (by simp [(base58Digit_char hd).2.1])]

theorem decodeBase58_encode {str data text : Bytes} {maxRetLen : Int} (hdata : FitsInt data)
    (hfits : FitsInt str) (ht : encodeBase58 data = some text)
    (hstr : Spaced str text) (hmax : data = [] ∨ data.length ≤ maxRetLen) :
    decodeBase58 str maxRetLen = some (some data) := by
  obtain ⟨zeroes,n,rfl⟩ : ∃ zeroes n, data = replicate zeroes 0++minimalBytes n :=
    ⟨_,_,eq_replicate_append_minimalBytes data⟩
  rw [encodeBase58_minimalBytes hdata,Option.some.injEq] at ht
  subst ht
  obtain ⟨hnul,after,ha,hs⟩ := hstr.dropWhile
  rw [← length_eq_zero_iff] at hmax
  have hlen : (replicate zeroes (0 : UInt8)++minimalBytes n).length = zeroes + (digits 256 n).length := by
    rw [length_append,length_replicate,minimalBytes,length_map,minimal,length_reverse]
  rw [FitsInt,hlen] at hdata
  rw [hlen] at hmax
  have hw : EndsWord after := fun c hc => ha c (mem_of_mem_head? hc)
  have hh : ((minimal 58 n).map base58Char++after).head? ≠ some (ascii '1') := by
    rw [head?_append]
    intro h
    rcases Option.or_eq_some_iff.mp h with h | ⟨-,h⟩
    · exact head?_map_base58Char_ne n h
    · cases hw _ h
  obtain ⟨hta,hdr⟩ := takeWhile_replicate_append zeroes (ascii '1') _ hh
  have hval : value 58 (minimal 58 n) = n := value_minimal n
  have hr := pow_le_scaled (by decide) (by decide) pow_58_le_pow_256 ((minimal 58 n).length + after.length)
  have hlt : value 58 (minimal 58 n) < 58^((minimal 58 n).length + after.length) :=
    (value_lt (by decide) fun d hd => minimal_lt (by decide) hd).trans_le
      (Nat.pow_le_pow_right (by decide) (le_add_right _ _))
  have hl := decodeBase58Loop_digits zeroes
    (((minimal 58 n).length + after.length) * 733 / 1000 + 1) 0 maxRetLen (minimal 58 n) after
    (fun d hd => minimal_lt (by decide) hd) hw (by omega) fun hne => by
      have hn : (digits 256 n).length ≠ 0 := by simpa [minimal,digits_eq_nil_iff_eq_zero] using hne
      rw [zero_mul,zero_add,hval]
      omega
  rw [zero_mul,zero_add,hval,digitsAppend_zero,digits_zero,length_nil] at hl
  have hpsz := (dropWhile_sublist isSpace (l := str)).length_le
  rw [hs,base58Text,length_append,length_append,length_map] at hpsz
  unfold FitsInt at hfits
  rw [decodeBase58,hnul,if_neg (by decide),hs]
  simp only [base58Text,append_assoc,hta,hdr,length_replicate,length_append,length_map]
  rw [if_neg (by omega),Nat.mod_eq_of_lt (by omega),places_of_lt (by omega),Option.bind_eq_bind,
    Option.bind_some,hl (by omega)]
  simpa [minimalBytes,minimal,digitsAppend] using ha

/-- After its leading ones a text has no digit zero in front, so none is lost. -/
theorem eq_base58Text_append {l rest : Bytes} {ds : List Nat} (hds : ∀ d ∈ ds, d < 58)
    (h : l.dropWhile (· == ascii '1') = ds.map base58Char++rest) :
    l = base58Text (l.takeWhile (· == ascii '1')).length (value 58 ds)++rest := by
  have hh : ds.head? ≠ some 0 := by
    intro hz
    apply head?_dropWhile_beq_ne l (ascii '1')
    rw [h,head?_append,head?_map,hz]
    rfl
  rw [base58Text,minimal_value (by decide) hds hh,← takeWhile_beq_eq_replicate,append_assoc,← h,
    takeWhile_append_dropWhile]

/-- A text that is read is the text of what was read. -/
theorem decodeBase58_eq_some {str data : Bytes} {maxRetLen : Int}
    (h : decodeBase58 str maxRetLen = some (some data)) : (data = [] ∨ data.length ≤ maxRetLen) ∧
      (FitsInt data → ∃ text, encodeBase58 data = some text ∧ Spaced str text) := by
  rw [decodeBase58] at h
  split at h
  · cases h
  dsimp only at h
  split_ifs at h with hz
  · cases h
  obtain ⟨b256,hplaces,h⟩ := Option.bind_eq_some_iff.mp h
  obtain ⟨result,hres,h⟩ := Option.bind_eq_some_iff.mp h
  obtain ⟨r,rfl,hd⟩ := Option.bind_eq_some_iff.mp (Option.some.inj h)
  obtain ⟨size,rfl⟩ := places_eq_some hplaces
  obtain ⟨ds,hds⟩ := (decodeBase58Loop_spec ((str.dropWhile isSpace).takeWhile (· == ascii '1')).length size 0
    maxRetLen ((str.dropWhile isSpace).dropWhile (· == ascii '1')) (Nat.pow_pos (by decide))).1 r (by
      rwa [digitsAppend_zero,digits_zero])
  have hp := hds.places
  have hlen := hds.length
  rw [zero_mul,zero_add] at hp hlen
  split at hd
  · cases hd
  next ha =>
    rw [not_not] at ha
    rw [hp,hlen,digitsAppend,take_left,Option.some.injEq,← minimal,← minimalBytes] at hd
    subst hd
    refine ⟨?_,fun hfits => ⟨_,encodeBase58_minimalBytes hfits,str.takeWhile isSpace,r.1,?_,?_,?_⟩⟩
    · have hb : (minimalBytes (value 58 ds)).length = (digits 256 (value 58 ds)).length := by
        rw [minimalBytes,length_map,minimal,length_reverse]
      rw [← length_eq_zero_iff,length_append,length_replicate,hb]
      rcases hds.limit with rfl | hmax
      · simp only [value_nil,digits_zero,length_nil]
        omega
      · omega
    · rw [append_assoc,← eq_base58Text_append hds.digits hds.text,takeWhile_append_dropWhile]
    · rw [all_eq_true]
      exact fun c hc => mem_takeWhile_imp hc
    · rw [all_eq_true]
      exact dropWhile_eq_nil_iff.mp ha

theorem decodeBase58_isSome {str : Bytes} (maxRetLen : Int) (h : FitsInt str) :
    (decodeBase58 str maxRetLen).isSome := by
  unfold FitsInt at h
  have hs := (dropWhile_sublist isSpace (l := str)).length_le
  have hsplit := congrArg length (takeWhile_append_dropWhile (p := (· == ascii '1')) (l := str.dropWhile isSpace))
  rw [length_append] at hsplit
  rw [decodeBase58]
  split
  · rfl
  dsimp only
  split
  · rw [if_pos (by omega)]
    rfl
  have hro := pow_le_scaled (by decide) (by decide) pow_58_le_pow_256
    ((str.dropWhile isSpace).dropWhile (· == ascii '1')).length
  obtain ⟨result,hres⟩ := (decodeBase58Loop_spec ((str.dropWhile isSpace).takeWhile (· == ascii '1')).length
    _ 0 maxRetLen ((str.dropWhile isSpace).dropWhile (· == ascii '1')) (Nat.pow_pos (by decide))).2
    (by simpa using hro) (by omega)
  rw [digitsAppend_zero,digits_zero,length_nil] at hres
  rw [Nat.mod_eq_of_lt (by omega),places_of_lt (by omega),Option.bind_eq_bind,Option.bind_some,hres]
  rfl

theorem exists_base58Digits {text : Bytes} (h : ∀ c ∈ text, base58Digit c ≠ -1) :
    ∃ ds : List Nat, (∀ d ∈ ds, d < 58) ∧ text = ds.map base58Char := by
  induction text with
  | nil => exact ⟨[],by simp,rfl⟩
  | cons c text ih =>
    rw [forall_mem_cons] at h
    obtain ⟨ds,hds,rfl⟩ := ih h.2
    obtain ⟨hlt,hc⟩ := base58Char_digit h.1
    exact ⟨_::ds,forall_mem_cons.mpr ⟨hlt,hds⟩,by rw [map_cons,hc]⟩

/-- Exactly the texts over the alphabet are encodings. -/
theorem encodeBase58_surjective {text : Bytes} (hfits : FitsInt text) :
    (∃ data, encodeBase58 data = some text) ↔ ∀ c ∈ text, base58Digit c ≠ -1 := by
  constructor
  · rintro ⟨data,hda⟩ c hc
    obtain ⟨d,hd,rfl⟩ := mem_base58Text (encodeBase58_eq_some hda ▸ hc)
    rw [(base58Digit_char hd).1]
    omega
  · intro h
    obtain ⟨ds,hds,hr⟩ := exists_base58Digits fun c hc =>
      h c ((dropWhile_suffix (· == ascii '1')).mem hc)
    have ht := eq_base58Text_append hds (hr.trans (append_nil _).symm)
    rw [append_nil] at ht
    refine ⟨_,(encodeBase58_minimalBytes ?_).trans (congrArg some ht.symm)⟩
    have hvalue := (value_lt (by decide) hds).trans_le (Nat.pow_le_pow_left (by decide : 58 ≤ 256) _)
    have hle := (digits_length_le_iff (by decide) _).mpr hvalue
    have hsplit := congrArg length (takeWhile_append_dropWhile (p := (· == ascii '1')) (l := text))
    rw [hr,length_append,length_map] at hsplit
    rw [FitsInt,length_append,length_replicate,minimalBytes,length_map,minimal,length_reverse]
    unfold FitsInt at hfits
    omega

/-- For texts and bytes whose sizes are an `int` neither assertion fails.  Exactly the encodings that are not
longer than allowed are read, with spaces around them, and as what they encode; an empty text is always
read. -/
theorem base58_codec (str data : Bytes) (maxRetLen : Int) (hstr : FitsInt str) (hdata : FitsInt data) :
    (∃ text, encodeBase58 data = some text) ∧ (∃ result, decodeBase58 str maxRetLen = some result) ∧
    (decodeBase58 str maxRetLen = some (some data) ↔ (data = [] ∨ data.length ≤ maxRetLen) ∧
      ∃ text, encodeBase58 data = some text ∧ Spaced str text) ∧
    ((∃ data, encodeBase58 data = some str) ↔ ∀ c ∈ str, base58Digit c ≠ -1) := by
  refine ⟨⟨_,encodeBase58_eq hdata⟩,Option.isSome_iff_exists.mp (decodeBase58_isSome maxRetLen hstr),⟨?_,?_⟩,
    encodeBase58_surjective hstr⟩
  · intro h
    exact (decodeBase58_eq_some h).imp_right fun htext => htext hdata
  · rintro ⟨hmax,text,htext,hspaced⟩
    exact decodeBase58_encode hdata hstr htext hspaced hmax

/-- The text `18Qq` between spaces, with a leading zero. -/
theorem spacedText_codec :
    encodeBase58 [0, 0x61, 0x62] = some [0x31, 0x38, 0x51, 0x71] ∧
      decodeBase58 [0x20, 0x31, 0x38, 0x51, 0x71, 0x20] 3 = some (some [0, 0x61, 0x62]) := by
  have htext : encodeBase58 [0,0x61,0x62] = some [0x31,0x38,0x51,0x71] := by decide
  refine ⟨htext,(base58_codec _ _ 3 (by simp [FitsInt]) (by simp [FitsInt])).2.2.1.mpr ⟨.inr (by decide),_,htext,?_⟩⟩
  exact ⟨[0x20],[0x20],by decide⟩

theorem emptyText_read : decodeBase58 [] (-1) = some (some []) := by decide

section Check
theorem base58Checksum_length (vch : Bytes) : (base58Checksum hash vch).length = 4 := leBytes_length _ _

/-- Room for the text of bytes that are not many. -/
theorem FitsInt.of_encode {data text : Bytes} (hlen : data.length < 2^21) (h : encodeBase58 data = some text) :
    FitsInt text := by
  have hvalue := (bytesValue_lt data).trans_le
    (pow_le_scaled (by decide) (by decide) (by norm_num : 256^100 ≤ 58^138) data.length)
  have hle := (digits_length_le_iff (by decide) _).mpr hvalue
  have hz := (takeWhile_sublist (· == 0) (l := data)).length_le
  rw [encodeBase58_eq_some h,FitsInt,base58Text,length_append,length_replicate,length_map,minimal,length_reverse]
  omega

theorem decodeBase58Check_encode (data : Bytes) (maxRetLen : Int) (hmax : data.length ≤ maxRetLen)
    (hb : maxRetLen < 2^20) :
    ∃ text, encodeBase58Check hash data = some text ∧
      decodeBase58Check hash text maxRetLen = some (some data) := by
  have hlen : (data++base58Checksum hash data).length = data.length + 4 := by
    rw [length_append,base58Checksum_length]
  have hfits : FitsInt (data++base58Checksum hash data) := by
    unfold FitsInt
    omega
  obtain ⟨text,ht⟩ : ∃ text, encodeBase58Check hash data = some text := ⟨_,encodeBase58_eq hfits⟩
  refine ⟨text,ht,?_⟩
  rw [decodeBase58Check,decodeBase58_encode hfits (.of_encode (by omega) ht) ht ⟨[],[],by simp⟩
    (.inr (by omega))]
  have hta : (data++base58Checksum hash data).length - 4 = data.length := by omega
  simp only [Option.map_some,Option.bind_some,hta,take_left,drop_left]
  rw [if_neg (by omega),if_pos trivial]

theorem decodeBase58Check_eq_some {str data : Bytes} {maxRetLen : Int} (hb : maxRetLen < 2^20)
    (h : decodeBase58Check hash str maxRetLen = some (some data)) :
    ∃ text, encodeBase58Check hash data = some text ∧ Spaced str text := by
  obtain ⟨result,hres,h⟩ := Option.map_eq_some_iff.mp h
  obtain ⟨vchRet,rfl,hd⟩ := Option.bind_eq_some_iff.mp h
  obtain ⟨hmax,htext⟩ := decodeBase58_eq_some hres
  split at hd
  · cases hd
  dsimp only at hd
  split at hd
  next hc =>
    cases hd
    rw [encodeBase58Check,← hc,take_append_drop]
    refine htext ?_
    rw [← length_eq_zero_iff] at hmax
    unfold FitsInt
    omega
  · cases hd
end Check
end Lcryp
