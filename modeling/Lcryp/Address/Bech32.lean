import Lcryp.Address.Base58

/-!
# Bech32

`bech32::Encode` and `bech32::Decode`.  The checksum is linear over the bits of its input.
-/
namespace Lcryp
open Codec Radix List Nat
inductive Bech32Encoding
  | invalid
  | bech32
  | bech32m
deriving DecidableEq

namespace Bech32
def charset : List Char :=
  ['q','p','z','r','y','9','x','8','g','f','2','t','v','d','w','0',
    's','3','j','n','5','4','k','h','c','e','6','m','u','a','7','l']

def charsetRev : List Int :=
  replicate 48 (-1) ++
    [15,-1,10,17,21,20,26,30,7,5,-1,-1,-1,-1,-1,-1,
      -1,29,-1,24,13,25,9,8,23,-1,18,22,31,27,19,-1,
      1,0,3,16,11,28,12,14,6,4,2,-1,-1,-1,-1,-1,
      -1,29,-1,24,13,25,9,8,23,-1,18,22,31,27,19,-1,
      1,0,3,16,11,28,12,14,6,4,2,-1,-1,-1,-1,-1]

def charsetChar (v : Nat) : UInt8 := ascii (charset.getD v 'q')

variable (encoding : Bech32Encoding)
def encodingConstant : BitVec 32 := if encoding = .bech32 then 1#32 else 0x2bc830a3#32

def polyModStep (c v : BitVec 32) : BitVec 32 :=
  let c0 := c >>> 25
  ((c &&& 0x1ffffff#32) <<< 5) ^^^ v ^^^ (if c0.getLsbD 0 then 0x3b6a57b2#32 else 0#32) ^^^
    (if c0.getLsbD 1 then 0x26508e6d#32 else 0#32) ^^^
    (if c0.getLsbD 2 then 0x1ea119fa#32 else 0#32) ^^^
    (if c0.getLsbD 3 then 0x3d4233dd#32 else 0#32) ^^^
    (if c0.getLsbD 4 then 0x2a1462b3#32 else 0#32)

def polyModFrom (c : BitVec 32) (v : List Nat) : BitVec 32 :=
  v.foldl (fun c v => polyModStep c (BitVec.ofNat 32 v)) c
def polyMod (v : List Nat) : BitVec 32 := polyModFrom 1#32 v
def lowerCase (c : UInt8) : UInt8 := if ascii 'A' ≤ c ∧ c ≤ ascii 'Z' then c - ascii 'A' + ascii 'a' else c

def checkCharactersLoop : Bytes → Nat → Bool → Bool → List Nat
  | [], _, _, _ => []
  | c::str, i, lower, upper =>
    if ascii 'a' ≤ c ∧ c ≤ ascii 'z' then
      if upper then i::checkCharactersLoop str (i+1) lower upper
      else checkCharactersLoop str (i+1) true upper
    else if ascii 'A' ≤ c ∧ c ≤ ascii 'Z' then
      if lower then i::checkCharactersLoop str (i+1) lower upper
      else checkCharactersLoop str (i+1) lower true
    else if c < 33 ∨ c > 126 then i::checkCharactersLoop str (i+1) lower upper
    else checkCharactersLoop str (i+1) lower upper

/-- `CheckCharacters`; a text passes if there are no errors. -/
def checkCharacters (str : Bytes) : List Nat := checkCharactersLoop str 0 false false
def expandHRP (hrp : Bytes) : List Nat :=
  hrp.map (fun c : UInt8 => (c >>> 5).toNat)++[0] ++ hrp.map fun c : UInt8 => (c &&& 0x1f).toNat
def verifyChecksum (hrp : Bytes) (values : List Nat) : Bech32Encoding :=
  let check := polyMod (expandHRP hrp++values)
  if check = encodingConstant .bech32 then .bech32
  else if check = encodingConstant .bech32m then .bech32m
  else .invalid

def createChecksum (hrp : Bytes) (values : List Nat) : List Nat :=
  let mod := polyMod (expandHRP hrp++values++List.replicate 6 0) ^^^ encodingConstant encoding
  (List.range 6).map fun i => (mod >>> (5 * (5-i)) &&& 31#32).toNat

/-- `Encode`; `none` if the assertion on upper-case letters fails. -/
def encode (hrp : Bytes) (values : List Nat) : Option Bytes :=
  if hrp.all fun c => c < ascii 'A' || c > ascii 'Z' then
    some (hrp++[ascii '1'] ++ (values++createChecksum encoding hrp values).map charsetChar)
  else none

structure DecodeResult where
  encoding : Bech32Encoding
  hrp : Bytes
  data : List Nat
deriving DecidableEq

def DecodeResult.invalid : DecodeResult := ⟨.invalid, [], []⟩

def rfind (c : UInt8) : Bytes → Option Nat
  | [] => none
  | b::str =>
    match rfind c str with
    | some i => some (i+1)
    | none => if b = c then some 0 else none

def decode (str : Bytes) : DecodeResult :=
  if checkCharacters str ≠ [] then .invalid
  else
    match rfind (ascii '1') str with
    | none => .invalid
    | some pos =>
      if str.length > 90 ∨ pos = 0 ∨ pos + 7 > str.length then .invalid
      else
        let revs := (str.drop (pos+1)).map fun c => charsetRev.getD c.toNat (-1)
        if revs.any (· == -1) then .invalid
        else
          let values := revs.map Int.toNat
          let hrp := (str.take pos).map lowerCase
          let result := verifyChecksum hrp values
          if result = .invalid then .invalid
          else ⟨result, hrp, values.take (values.length-6)⟩

theorem ite_xor (a b : Bool) (g : BitVec 32) :
    (if (a ^^ b) then g else 0#32) = (if a then g else 0#32) ^^^ (if b then g else 0#32) := by
  cases a <;> cases b <;> simp

theorem xor_and_mask (c d mask : BitVec 32) : (c ^^^ d) &&& mask = (c &&& mask) ^^^ (d &&& mask) := by
  apply BitVec.eq_of_getLsbD_eq
  simp [Bool.and_xor_distrib_right]

theorem polyModStep_xor (c d v w : BitVec 32) :
    polyModStep (c ^^^ d) (v ^^^ w) = polyModStep c v ^^^ polyModStep d w := by
  simp only [polyModStep,BitVec.ushiftRight_xor_distrib,BitVec.getLsbD_xor,ite_xor,
    xor_and_mask,BitVec.shiftLeft_xor_distrib]
  ac_rfl

theorem polyModFrom_xor (c d : BitVec 32) (v : List Nat) :
    polyModFrom (c ^^^ d) v = polyModFrom c (replicate v.length 0) ^^^ polyModFrom d v := by
  induction v generalizing c d with
  | nil => rfl
  | cons v rest ih =>
    have hs : polyModStep (c ^^^ d) (BitVec.ofNat 32 v) =
        polyModStep c 0#32 ^^^ polyModStep d (BitVec.ofNat 32 v) := by
      rw [← polyModStep_xor,BitVec.zero_xor]
    simp only [polyModFrom,foldl_cons,hs]
    exact ih _ _

theorem polyModStep_small (n v : Nat) (hn : n < 2^25) (hv : v < 32) :
    polyModStep (BitVec.ofNat 32 n) (BitVec.ofNat 32 v) = BitVec.ofNat 32 (32 * n + v) := by
  have hh : BitVec.ofNat 32 n >>> 25 = 0#32 := by
    apply BitVec.eq_of_toNat_eq
    rw [BitVec.toNat_ushiftRight,BitVec.toNat_ofNat,mod_eq_of_lt (by omega),
      shiftRight_eq_div_pow,div_eq_of_lt hn]
    rfl
  have hlow : BitVec.ofNat 32 n &&& 0x1ffffff#32 = BitVec.ofNat 32 n := by
    apply BitVec.eq_of_toNat_eq
    rw [BitVec.toNat_and,BitVec.toNat_ofNat,mod_eq_of_lt (by omega)]
    exact (and_two_pow_sub_one_eq_mod n 25).trans (mod_eq_of_lt hn)
  have hs : BitVec.ofNat 32 n <<< 5 ^^^ BitVec.ofNat 32 v = BitVec.ofNat 32 (32 * n + v) := by
    apply BitVec.eq_of_toNat_eq
    rw [BitVec.toNat_xor,BitVec.toNat_shiftLeft,BitVec.toNat_ofNat,BitVec.toNat_ofNat,
      BitVec.toNat_ofNat,mod_eq_of_lt (by omega : n < 2^32),shiftLeft_eq,
      mod_eq_of_lt (by omega : n * 2^5 < 2^32),mod_eq_of_lt (by omega : v < 2^32),
      mod_eq_of_lt (by omega : 32 * n + v < 2^32),← shiftLeft_eq,
      shiftLeft_xor_eq_add n hv]
    rfl
  simp [polyModStep,hh,hlow,hs]

theorem polyModFrom_zero (v : List Nat) (hv : ∀ x ∈ v, x < 32) (hlen : v.length ≤ 6) :
    polyModFrom 0#32 v = BitVec.ofNat 32 (value 32 v) := by
  induction v using reverseRecOn with
  | nil => rfl
  | append_singleton v x ih =>
    rw [forall_mem_append] at hv
    rw [length_append,length_singleton] at hlen
    have hlt : value 32 v < 2^25 := by
      have hb : value 32 v < 32^v.length := value_lt (by decide) hv.1
      have hpow : 32^v.length ≤ 32^5 := Nat.pow_le_pow_right (by decide) (by omega)
      omega
    have hfst := ih hv.1 (by omega)
    rw [polyModFrom] at hfst ⊢
    rw [foldl_append,hfst,foldl_cons,foldl_nil,
      polyModStep_small _ _ hlt (hv.2 x (mem_singleton_self x)),value_append,value_singleton,
      length_singleton,pow_one,mul_comm]

theorem polyModStep_lt (c v : BitVec 32) (hv : v.toNat < 2^30) : (polyModStep c v).toNat < 2^30 := by
  have hgen : ∀ (b : Bool) g, g.toNat < 2^30 → (if b then g else 0#32).toNat < 2^30 := by
    intro b g hg
    cases b
    · simp
    · exact hg
  have hs : ((c &&& 0x1ffffff#32) <<< 5).toNat < 2^30 := by
    have hm : (c &&& 0x1ffffff#32).toNat < 2^25 := by exact and_lt_two_pow _ (by decide)
    rw [BitVec.toNat_shiftLeft]
    omega
  repeat' apply xor_lt_two_pow
  · exact hs
  · exact hv
  all_goals exact hgen _ _ (by decide)

theorem polyModFrom_lt (c : BitVec 32) (v : List Nat) (hc : c.toNat < 2^30)
    (hv : ∀ x ∈ v, x < 32) : (polyModFrom c v).toNat < 2^30 := by
  induction v generalizing c with
  | nil => exact hc
  | cons x v ih =>
    rw [forall_mem_cons] at hv
    apply ih _ _ hv.2
    apply polyModStep_lt
    rw [BitVec.toNat_ofNat]
    omega

theorem expandHRP_lt {hrp : Bytes} {x : Nat} (h : x ∈ expandHRP hrp) : x < 32 := by
  simp only [expandHRP,mem_append,mem_map,mem_singleton] at h
  rcases h with (⟨c,-,rfl⟩ | rfl) | ⟨c,-,rfl⟩
  · have := c.toNat_lt
    rw [UInt8.toNat_shiftRight,shiftRight_eq_div_pow]
    change c.toNat / 2^5 < 32
    omega
  · decide
  · exact lt_of_le_of_lt and_le_right (by decide)

/-- The checksum of a text, before it is cut into groups. -/
def checksumWord (hrp : Bytes) (values : List Nat) : BitVec 32 :=
  polyMod (expandHRP hrp++values++List.replicate 6 0) ^^^ encodingConstant encoding

variable (hrp : Bytes)
variable (values : List Nat)
theorem checksumWord_lt (hv : ∀ x ∈ values, x < 32) : (checksumWord encoding hrp values).toNat < 2^30 := by
  apply xor_lt_two_pow
  · apply polyModFrom_lt _ _ (by decide)
    simp only [forall_mem_append]
    refine ⟨⟨fun x hx => expandHRP_lt hx,hv⟩,fun x hx => ?_⟩
    rw [eq_of_mem_replicate hx]
    decide
  · cases encoding <;> decide

theorem createChecksum_eq :
    createChecksum encoding hrp values = (range 6).map fun i =>
      (checksumWord encoding hrp values).toNat / 2^(5 * (5-i)) % 32 := by
  apply map_congr_left
  intro i _
  rw [BitVec.toNat_and,BitVec.toNat_ushiftRight,shiftRight_eq_div_pow]
  exact and_two_pow_sub_one_eq_mod _ 5

theorem createChecksum_spec (hv : ∀ x ∈ values, x < 32) :
    (createChecksum encoding hrp values).length = 6 ∧ (∀ x ∈ createChecksum encoding hrp values, x < 32) ∧
      value 32 (createChecksum encoding hrp values) = (checksumWord encoding hrp values).toNat := by
  have hlt := checksumWord_lt encoding hrp values hv
  rw [createChecksum_eq]
  refine ⟨by simp,?_,?_⟩
  · intro x hx
    obtain ⟨i,-,rfl⟩ := mem_map.mp hx
    exact mod_lt _ (by decide)
  · simp only [range,range.loop,map_cons,map_nil,value,foldl_cons,foldl_nil]
    omega

theorem polyMod_eq_iff (values checksum : List Nat) (hv : ∀ x ∈ values, x < 32)
    (hsum : ∀ x ∈ checksum, x < 32) (hlen : checksum.length = 6) :
    polyMod (expandHRP hrp++(values++checksum)) = encodingConstant encoding ↔
      checksum = createChecksum encoding hrp values := by
  obtain ⟨hl,hlt',hva⟩ := createChecksum_spec encoding hrp values hv
  have hs : polyMod (expandHRP hrp++(values++checksum)) =
      polyMod (expandHRP hrp++values++replicate 6 0) ^^^ BitVec.ofNat 32 (value 32 checksum) := by
    have happ : ∀ tail, polyMod (expandHRP hrp++values++tail) =
        polyModFrom (polyMod (expandHRP hrp++values)) tail := by
      intro tail
      rw [polyMod,polyModFrom,foldl_append]
      rfl
    rw [← append_assoc,happ,happ,← polyModFrom_zero checksum hsum (by omega),
      ← hlen,← polyModFrom_xor,BitVec.xor_zero]
  have hw : polyMod (expandHRP hrp++values++replicate 6 0) =
      checksumWord encoding hrp values ^^^ encodingConstant encoding := by
    rw [checksumWord,BitVec.xor_assoc,BitVec.xor_self,BitVec.xor_zero]
  have hn : BitVec.ofNat 32 (value 32 checksum) = checksumWord encoding hrp values ↔
      checksum = createChecksum encoding hrp values := by
    have hb : value 32 checksum < 32^checksum.length := value_lt (by decide) hsum
    rw [hlen] at hb
    rw [← BitVec.toNat_inj,BitVec.toNat_ofNat,mod_eq_of_lt (by omega),← hva]
    constructor
    · exact value_inj (by decide) (hlen.trans hl.symm) hsum hlt'
    · exact fun h => congrArg _ h
  rw [hs,hw,← hn,BitVec.xor_comm (checksumWord encoding hrp values),BitVec.xor_assoc]
  generalize BitVec.ofNat 32 (value 32 checksum) = given
  generalize checksumWord encoding hrp values = word
  constructor
  · intro h
    have hc : word ^^^ given = 0#32 := by
      have := congrArg (encodingConstant encoding ^^^ ·) h
      simpa [← BitVec.xor_assoc] using this
    exact (BitVec.xor_eq_zero_iff.mp hc).symm
  · rintro rfl
    simp

/-- A printable character that is not an upper-case letter. -/
def Plain (c : UInt8) : Prop := 33 ≤ c ∧ c ≤ 126 ∧ ¬ (ascii 'A' ≤ c ∧ c ≤ ascii 'Z')
instance (c : UInt8) : Decidable (Plain c) := inferInstanceAs (Decidable (_ ∧ _ ∧ ¬ _))

variable {c : UInt8}
theorem lowerCase_of_plain (h : Plain c) : lowerCase c = c := if_neg h.2.2
theorem charsetChar_spec {v : Nat} (h : v < 32) :
    charsetRev.getD (charsetChar v).toNat (-1) = v ∧ Plain (charsetChar v) ∧ charsetChar v ≠ ascii '1' := by
  have ht : ∀ v : Fin 32, charsetRev.getD (charsetChar v).toNat (-1) = v.val ∧
      Plain (charsetChar v) ∧ charsetChar v ≠ ascii '1' := by decide
  exact ht ⟨v,h⟩

theorem charsetRev_spec (h : charsetRev.getD c.toNat (-1) ≠ -1) :
    (charsetRev.getD c.toNat (-1)).toNat < 32 ∧
      charsetChar (charsetRev.getD c.toNat (-1)).toNat = lowerCase c := by
  have ht : ∀ k : Fin 256, charsetRev.getD (UInt8.ofNat k).toNat (-1) ≠ -1 →
      (charsetRev.getD (UInt8.ofNat k).toNat (-1)).toNat < 32 ∧
        charsetChar (charsetRev.getD (UInt8.ofNat k).toNat (-1)).toNat = lowerCase (UInt8.ofNat k) := by
    decide +kernel
  have := ht ⟨c.toNat,c.toNat_lt⟩
  simp only [UInt8.ofNat_toNat] at this
  exact this h

theorem lowerCase_not_upper (c : UInt8) : (lowerCase c < ascii 'A' || lowerCase c > ascii 'Z') = true := by
  have ht : ∀ k : Fin 256, (lowerCase (UInt8.ofNat k) < ascii 'A' ||
      lowerCase (UInt8.ofNat k) > ascii 'Z') = true := by decide +kernel
  have := ht ⟨c.toNat,c.toNat_lt⟩
  simpa only [UInt8.ofNat_toNat] using this

theorem checkCharactersLoop_plain (str : Bytes) (i : Nat) (lower : Bool) (h : ∀ c ∈ str, Plain c) :
    checkCharactersLoop str i lower false = [] := by
  induction str generalizing i lower with
  | nil => rfl
  | cons c str ih =>
    rw [forall_mem_cons] at h
    obtain ⟨⟨hlow,hh,hu⟩,hr⟩ := h
    have hra : ¬ (c < 33 ∨ c > 126) := by
      rw [not_or]
      exact ⟨UInt8.not_lt.mpr hlow,UInt8.not_lt.mpr hh⟩
    simp only [checkCharactersLoop]
    split <;> exact ih _ _ hr

theorem rfind_append (c : UInt8) (before after : Bytes) (h : c ∉ after) :
    rfind c (before++c::after) = some before.length := by
  have ha : rfind c after = none := by
    induction after with
    | nil => rfl
    | cons b after ih =>
      rw [mem_cons,not_or] at h
      rw [rfind,ih h.2]
      exact if_neg (Ne.symm h.1)
  induction before with
  | nil =>
    rw [nil_append,rfind,ha]
    exact if_pos rfl
  | cons b before ih =>
    rw [cons_append,rfind,ih]
    rfl

theorem rfind_eq_some {str : Bytes} {pos : Nat} (h : rfind c str = some pos) :
    str = str.take pos++c::str.drop (pos+1) ∧ pos < str.length := by
  induction str generalizing pos with
  | nil => cases h
  | cons b str ih =>
    rw [rfind] at h
    split at h
    next i hi =>
      cases h
      obtain ⟨hs,hlt⟩ := ih hi
      refine ⟨?_,by simpa using hlt⟩
      rw [take_succ_cons,drop_succ_cons,cons_append,← hs]
    · split at h
      next hb =>
        cases h
        simp [hb]
      · cases h

theorem verifyChecksum_eq_iff (henc : encoding ≠ .invalid) (hrp : Bytes) (values : List Nat) :
    verifyChecksum hrp values = encoding ↔ polyMod (expandHRP hrp++values) = encodingConstant encoding := by
  unfold verifyChecksum
  dsimp only
  cases encoding with
  | invalid => exact absurd rfl henc
  | bech32 =>
    split_ifs with h1 h2 <;> simp [h1]
  | bech32m =>
    split_ifs with h1 h2
    · simp [h1]
      decide
    · simp [h2]
    · simp [h2]

theorem decode_encode (henc : encoding ≠ .invalid) (hrp : Bytes) (values : List Nat) (hhrp : hrp ≠ [])
    (hp : ∀ c ∈ hrp, Plain c) (hva : ∀ x ∈ values, x < 32) (hs : hrp.length + 7 + values.length ≤ 90) :
    ∃ text, encode encoding hrp values = some text ∧ decode text = ⟨encoding, hrp, values⟩ := by
  obtain ⟨hlen,hlt,-⟩ := createChecksum_spec encoding hrp values hva
  have hall : ∀ x ∈ values++createChecksum encoding hrp values, x < 32 := by
    rw [forall_mem_append]
    exact ⟨hva,hlt⟩
  have ha : (hrp.all fun c => c < ascii 'A' || c > ascii 'Z') = true := by
    rw [all_eq_true]
    intro c hc
    have := lowerCase_not_upper c
    rwa [lowerCase_of_plain (hp c hc)] at this
  refine ⟨_,if_pos ha,?_⟩
  have hpos : 0 < hrp.length := length_pos_iff.mpr hhrp
  have hv := (verifyChecksum_eq_iff encoding henc hrp (values++createChecksum encoding hrp values)).mpr
    ((polyMod_eq_iff encoding hrp values _ hva hlt hlen).mpr rfl)
  have ht : (values++createChecksum encoding hrp values).take values.length = values := take_left
  have hco : (values++createChecksum encoding hrp values).length = values.length + 6 := by
    rw [length_append,hlen]
  generalize values++createChecksum encoding hrp values = combined at *
  rw [append_assoc,singleton_append]
  have hch : checkCharacters (hrp++ascii '1'::combined.map charsetChar) = [] := by
    apply checkCharactersLoop_plain
    simp only [forall_mem_append,forall_mem_cons,forall_mem_map]
    exact ⟨hp,by decide,fun x hx => (charsetChar_spec (hall x hx)).2.1⟩
  have hf : rfind (ascii '1') (hrp++ascii '1'::combined.map charsetChar) = some hrp.length := by
    apply rfind_append
    rw [mem_map]
    rintro ⟨x,hx,hone⟩
    exact (charsetChar_spec (hall x hx)).2.2 hone
  have hr : (combined.map charsetChar).map (fun c => charsetRev.getD c.toNat (-1)) =
      combined.map Int.ofNat := by
    rw [map_map]
    apply map_congr_left
    exact fun x hx => (charsetChar_spec (hall x hx)).1
  have hn : (combined.map Int.ofNat).map Int.toNat = combined := by
    rw [map_map]
    exact map_id _
  have hno : (combined.map Int.ofNat).any (· == -1) = false := by simp
  have hl : hrp.map lowerCase = hrp := by
    conv_rhs => rw [← map_id hrp]
    exact map_congr_left fun c hc => lowerCase_of_plain (hp c hc)
  have hd : (hrp++ascii '1'::combined.map charsetChar).drop (hrp.length+1) = combined.map charsetChar := by
    rw [← drop_drop,drop_left]
    rfl
  simp only [decode,hch,hf,hd,hr,hn,hno,take_left,hl,hv,
    ht,henc,ne_eq,not_true_eq_false,if_false,Bool.false_eq_true,length_append,
    length_cons,length_map,hco,Nat.add_sub_cancel]
  rw [if_neg (by omega)]

theorem encode_decode (str : Bytes) (h : (decode str).encoding ≠ .invalid) :
    (∀ x ∈ (decode str).data, x < 32) ∧
      encode (decode str).encoding (decode str).hrp (decode str).data = some (str.map lowerCase) := by
  unfold decode at h ⊢
  split at h
  · exact absurd rfl h
  next hch =>
  rw [if_neg hch]
  split at h
  · exact absurd rfl h
  next pos hpos =>
  split at h
  · exact absurd rfl h
  next hsi =>
  dsimp only at h
  split at h
  · exact absurd rfl h
  next hany =>
  split at h
  · exact absurd rfl h
  next hv =>
  obtain ⟨hs,-⟩ := rfind_eq_some hpos
  rw [if_neg hsi,if_neg hany,if_neg hv]
  have hr : ∀ c ∈ str.drop (pos+1), charsetRev.getD c.toNat (-1) ≠ -1 := by
    intro c hc hbad
    apply hany
    rw [any_eq_true]
    exact ⟨_,mem_map_of_mem hc,beq_iff_eq.mpr hbad⟩
  have hlen : 6 ≤ (str.drop (pos+1)).length := by
    rw [length_drop]
    omega
  rw [map_map] at hv ⊢
  have hva : ∀ x ∈ (str.drop (pos+1)).map
      (Int.toNat ∘ fun c => charsetRev.getD c.toNat (-1)), x < 32 := by
    intro x hx
    obtain ⟨c,hc,rfl⟩ := mem_map.mp hx
    exact (charsetRev_spec (hr c hc)).1
  have hca : ((str.drop (pos+1)).map (Int.toNat ∘ fun c => charsetRev.getD c.toNat (-1))).map charsetChar =
      (str.drop (pos+1)).map lowerCase := by
    rw [map_map]
    exact map_congr_left fun c hc => (charsetRev_spec (hr c hc)).2
  have hl : ((str.drop (pos+1)).map
      (Int.toNat ∘ fun c => charsetRev.getD c.toNat (-1))).length = (str.drop (pos+1)).length :=
    length_map _
  generalize (str.drop (pos+1)).map (Int.toNat ∘ fun c => charsetRev.getD c.toNat (-1)) = values at *
  have hd : ∀ x ∈ values.take (values.length-6), x < 32 := fun x hx =>
    hva x (mem_of_mem_take hx)
  refine ⟨hd,?_⟩
  -- the last six groups are the checksum that the encoder creates
  have hsum : values.drop (values.length-6) =
      createChecksum (verifyChecksum ((str.take pos).map lowerCase) values)
        ((str.take pos).map lowerCase) (values.take (values.length-6)) := by
    rw [← polyMod_eq_iff _ _ _ _ hd (fun x hx => hva x (mem_of_mem_drop hx))
      (by rw [length_drop]; omega),take_append_drop]
    exact (verifyChecksum_eq_iff _ hv _ _).mp rfl
  rw [encode,if_pos,← hsum,take_append_drop,hca]
  · conv_rhs => rw [hs]
    rw [map_append,append_assoc]
    rfl
  · rw [all_eq_true]
    intro c hc
    obtain ⟨b,-,rfl⟩ := mem_map.mp hc
    exact lowerCase_not_upper b
end Bech32
end Lcryp
