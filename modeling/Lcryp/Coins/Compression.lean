import Lcryp.Coins.View
import Lcryp.Serialize.Stream

/-!
# Compressed coins

Coins are stored with compressed amounts and scripts.
-/
namespace Lcryp
open Codec List Decodes Nat Option UInt8
/-- The loop of `CompressAmount` that divides by ten, with the number of rounds left. -/
def stripZeros : Nat → Nat → Nat × Nat
  | 0, n => (n, 0)
  | left+1, n =>
    if n % 10 = 0 then
      let stripped := stripZeros left (n/10)
      (stripped.1, stripped.2 + 1)
    else (n, 0)

variable (wrap : Nat → Nat) (n : Nat)
/-- `CompressAmount`, where every sum and product goes through the given reduction. -/
def compressAmountWith : Nat :=
  if n = 0 then 0
  else
    let stripped := stripZeros 9 n
    let n := stripped.1
    let e := stripped.2
    if e < 9 then
      let d := n % 10
      let n := n / 10
      wrap (wrap (1 + wrap ((wrap (wrap (n*9) + d) - 1) * 10)) + e)
    else wrap (wrap (1 + wrap ((n-1) * 10)) + 9)

/-- The loop of `DecompressAmount` that multiplies by ten. -/
def appendZeros (wrap : Nat → Nat) : Nat → Nat → Nat
  | 0, n => n
  | e+1, n => appendZeros wrap e (wrap (n*10))

def decompressAmountWith (x : Nat) : Nat :=
  if x = 0 then 0
  else
    let x := x - 1
    let e := x % 10
    let x := x / 10
    let n :=
      if e < 9 then
        let d := x % 9 + 1
        let x := x / 9
        wrap (wrap (x*10) + d)
      else wrap (x+1)
    appendZeros wrap e n

/-- `uint64_t` arithmetic. -/
def wrap64 : Nat := n % 2^64
def compressAmount : Nat := compressAmountWith wrap64 n
def decompressAmount (x : Nat) : Nat := decompressAmountWith wrap64 x

theorem stripZeros_spec (left n : Nat) :
    (stripZeros left n).1 * 10^(stripZeros left n).2 = n ∧ (stripZeros left n).2 ≤ left ∧
      ((stripZeros left n).2 < left → (stripZeros left n).1 % 10 ≠ 0) := by
  induction left generalizing n with
  | zero => simp [stripZeros]
  | succ left ih =>
    by_cases hz : n % 10 = 0
    · obtain ⟨hval,hle,hd⟩ := ih (n/10)
      simp only [stripZeros,if_pos hz]
      rw [pow_succ,← mul_assoc]
      omega
    · simp [stripZeros,hz]

theorem stripZeros_le (left n : Nat) : (stripZeros left n).1 ≤ n := by
  conv_rhs => rw [← (stripZeros_spec left n).1]
  exact Nat.le_mul_of_pos_right _ (Nat.pow_pos (by norm_num))

theorem appendZeros_exact {wrap : Nat → Nat} (hwrap : ∀ y < 2^64, wrap y = y) {e n : Nat}
    (h : n * 10^e < 2^64) : appendZeros wrap e n = n * 10^e := by
  induction e generalizing n with
  | zero => simp [appendZeros]
  | succ e ih =>
    have hs : n * 10^(e+1) = n * 10 * 10^e := by ring
    have hle : n * 10 ≤ n * 10 * 10^e := Nat.le_mul_of_pos_right _ (Nat.pow_pos (by norm_num))
    rw [hs] at h ⊢
    rw [appendZeros,hwrap _ (by omega),ih h]
section Amounts
variable {wrap : Nat → Nat} (hwrap : ∀ y < 2^64, wrap y = y) {n : Nat} (hn : n < 2^60)
include hwrap hn

theorem compressAmountWith_eq (hpos : 0 < n) :
    compressAmountWith wrap n =
      if (stripZeros 9 n).2 < 9 then
        1 + ((stripZeros 9 n).1 / 10 * 9 + (stripZeros 9 n).1 % 10 - 1) * 10 + (stripZeros 9 n).2
      else 1 + ((stripZeros 9 n).1 - 1) * 10 + 9 := by
  obtain ⟨-,hle,hd⟩ := stripZeros_spec 9 n
  have hm := stripZeros_le 9 n
  rw [compressAmountWith,if_neg hpos.ne']
  simp only
  split <;> simp (disch := omega) only [hwrap]

theorem decompressAmountWith_compressAmountWith :
    decompressAmountWith wrap (compressAmountWith wrap n) = n := by
  rcases Nat.eq_zero_or_pos n with rfl | hpos
  · rfl
  obtain ⟨hval,hle,hdi⟩ := stripZeros_spec 9 n
  have hm := stripZeros_le 9 n
  have hm' : 0 < (stripZeros 9 n).1 := by
    by_contra hze
    simp only [not_lt,le_zero] at hze
    rw [hze] at hval
    omega
  have hb : (stripZeros 9 n).1 * 10^(stripZeros 9 n).2 < 2^64 := by omega
  have hz := appendZeros_exact hwrap hb
  rw [hval] at hz
  rw [compressAmountWith_eq hwrap hn hpos,decompressAmountWith]
  generalize (stripZeros 9 n).1 = m at *
  generalize (stripZeros 9 n).2 = e at *
  by_cases he : e < 9
  · simp only [if_pos he]
    have hx : 1 + (m / 10 * 9 + m % 10 - 1) * 10 + e - 1 = (m / 10 * 9 + m % 10 - 1) * 10 + e := by omega
    have hmod : ((m / 10 * 9 + m % 10 - 1) * 10 + e) % 10 = e := by omega
    have hdiv : ((m / 10 * 9 + m % 10 - 1) * 10 + e) / 10 = m / 10 * 9 + m % 10 - 1 := by omega
    have hd : (m / 10 * 9 + m % 10 - 1) % 9 + 1 = m % 10 := by omega
    have hq : (m / 10 * 9 + m % 10 - 1) / 9 = m / 10 := by omega
    have hn' : wrap (wrap (m / 10 * 10) + m % 10) = m := by
      rw [hwrap (m / 10 * 10) (by omega),hwrap _ (by omega)]
      omega
    rw [if_neg (by omega),hx,hmod,hdiv,if_pos he,hd,hq,hn',hz]
  · have he9 : e = 9 := by omega
    have hx : 1 + (m-1) * 10 + 9 - 1 = (m-1) * 10 + 9 := by omega
    have hmod : ((m-1) * 10 + 9) % 10 = 9 := by omega
    have hdiv : ((m-1) * 10 + 9) / 10 + 1 = m := by omega
    simp only [if_neg he]
    rw [if_neg (by omega),hx,hmod,if_neg (by norm_num),hdiv,hwrap _ (by omega),← he9,hz]
end Amounts

/-- What `CPubKey` asks of the curve library. -/
structure PubKeyOps where
  isFullyValid : Bytes → Bool
  decompress : Bytes → Option { key : Bytes // key.length = 65 }

variable (ops : PubKeyOps)
def PubKeyOps.Inverse : Prop :=
  ∀ key : { key : Bytes // key.length = 65 }, key.val[0]? = some 0x04 → ops.isFullyValid key.val = true →
    ops.decompress ((0x02 ||| key.val.getD 64 0 &&& 1)::(key.val.drop 1).take 32) = some key

variable (script : CScript)
def isToKeyID : Option Bytes :=
  if script.length = 25 ∧ script[0]? = some opDup ∧ script[1]? = some opHash160 ∧
      script[2]? = some 20 ∧ script[23]? = some opEqualVerify ∧ script[24]? = some opCheckSig then
    some ((script.drop 3).take 20)
  else none

def isToScriptID : Option Bytes :=
  if script.length = 23 ∧ script[0]? = some opHash160 ∧ script[1]? = some 20 ∧ script[22]? = some opEqual then
    some ((script.drop 2).take 20)
  else none

def isToPubKey : Option Bytes :=
  if script.length = 35 ∧ script[0]? = some 33 ∧ script[34]? = some opCheckSig ∧
      (script[1]? = some 0x02 ∨ script[1]? = some 0x03) then
    some ((script.drop 1).take 33)
  else if script.length = 67 ∧ script[0]? = some 65 ∧ script[66]? = some opCheckSig ∧
      script[1]? = some 0x04 then
    let pubkey := (script.drop 1).take 65
    if ops.isFullyValid pubkey then some pubkey else none
  else none

def compressScript : Option Bytes :=
  match isToKeyID script with
  | some keyID => some (0x00::keyID)
  | none =>
    match isToScriptID script with
    | some scriptID => some (0x01::scriptID)
    | none =>
      match isToPubKey ops script with
      | none => none
      | some pubkey =>
        let key := (pubkey.drop 1).take 32
        if pubkey[0]? = some 0x02 ∨ pubkey[0]? = some 0x03 then
          some (pubkey.getD 0 0::key)
        else if pubkey[0]? = some 0x04 then
          some ((0x04 ||| pubkey.getD 64 0 &&& 0x01)::key)
        else none

def getSpecialScriptSize (nSize : Nat) : Nat :=
  if nSize = 0 ∨ nSize = 1 then 20
  else if nSize = 2 ∨ nSize = 3 ∨ nSize = 4 ∨ nSize = 5 then 32
  else 0

def decompressScript (nSize : Nat) (input : Bytes) : CScript :=
  match nSize with
  | 0x00 => [opDup, opHash160, 20]++input.take 20++[opEqualVerify, opCheckSig]
  | 0x01 => [opHash160, 20]++input.take 20++[opEqual]
  | 0x02 => [33, 0x02]++input.take 32++[opCheckSig]
  | 0x03 => [33, 0x03]++input.take 32++[opCheckSig]
  | 0x04 => match ops.decompress (0x02::input.take 32) with
    | none => script
    | some pubkey => 65::pubkey.val++[opCheckSig]
  | 0x05 => match ops.decompress (0x03::input.take 32) with
    | none => script
    | some pubkey => 65::pubkey.val++[opCheckSig]
  | _ => script

def nSpecialScripts : Nat := 6

/-- `ScriptCompression::Ser`. -/
def serializeScript : Bytes :=
  match compressScript ops script with
  | some compr => compr
  | none => writeVarInt 32 ((script.length+nSpecialScripts) % 2^32)++script

/-- `ScriptCompression::Unser` into a script object that may hold something already. -/
def unserializeScript : StreamReader CScript := do
  let nSize ← readVarInt 32
  if nSize < nSpecialScripts then do
    let vch ← readBytes endOfData (getSpecialScriptSize nSize)
    return decompressScript ops script nSize vch
  else if nSize - nSpecialScripts > maxScriptSize then do
    let _ ← readBytes "CDataStream::ignore(): end of data" (nSize-nSpecialScripts)
    return script++[opReturn]
  else readBytes endOfData (nSize-nSpecialScripts)

private theorem drop_of_getElem? {l : Bytes} {i : Nat} {b : UInt8} (h : l[i]? = some b) :
    l.drop i = b::l.drop (i+1) := by
  obtain ⟨hlt,rfl⟩ := List.getElem?_eq_some_iff.mp h
  exact drop_eq_getElem_cons hlt

private theorem drop_eq_take_append (l : Bytes) (i n : Nat) : l.drop i = (l.drop i).take n++l.drop (i+n) := by
  rw [← drop_drop,take_append_drop]

/-- A compressed script is a kind and as many bytes as the kind has, from which the script can be
rebuilt. -/
structure Compressed (ops : PubKeyOps) (script : CScript) (compr : Bytes) (nSize : Nat)
    (input : Bytes) : Prop where
  bytes : compr = ofNat nSize::input
  special : nSize < nSpecialScripts
  length : input.length = getSpecialScriptSize nSize
  rebuilt : ∀ prior, decompressScript ops prior nSize input = script

variable {ops : PubKeyOps} {script : CScript}
theorem isToKeyID_compressed {keyID : Bytes}
    (h : isToKeyID script = some keyID) : Compressed ops script (0x00::keyID) 0 keyID := by
  unfold isToKeyID at h
  split at h
  · rename_i hscr
    obtain ⟨hlen,h0,h1,h2,h23,h24⟩ := hscr
    cases h
    have hs : ((script.drop 3).take 20).length = 20 := by simp [hlen]
    refine ⟨rfl,by simp [nSpecialScripts],by simp [hs,getSpecialScriptSize],fun prior => ?_⟩
    have hend : script.drop 25 = [] := drop_eq_nil_of_le hlen.le
    rw [decompressScript]
    conv_rhs => rw [← drop_zero (l := script),drop_of_getElem? h0,drop_of_getElem? h1,
      drop_of_getElem? h2,drop_eq_take_append script 3 20,drop_of_getElem? h23,
      drop_of_getElem? h24,hend]
    simp
  · cases h

theorem isToScriptID_compressed {scriptID : Bytes}
    (h : isToScriptID script = some scriptID) : Compressed ops script (0x01::scriptID) 1 scriptID := by
  unfold isToScriptID at h
  split at h
  · rename_i hscr
    obtain ⟨hlen,h0,h1,h22⟩ := hscr
    cases h
    have hs : ((script.drop 2).take 20).length = 20 := by simp [hlen]
    refine ⟨rfl,by simp [nSpecialScripts],by simp [hs,getSpecialScriptSize],fun prior => ?_⟩
    have hend : script.drop 23 = [] := drop_eq_nil_of_le hlen.le
    rw [decompressScript]
    conv_rhs => rw [← drop_zero (l := script),drop_of_getElem? h0,drop_of_getElem? h1,
      drop_eq_take_append script 2 20,drop_of_getElem? h22,hend]
    simp
  · cases h

variable {pubkey : Bytes}
theorem isToPubKey_cases (h : isToPubKey ops script = some pubkey) :
    (pubkey.length = 33 ∧ script = 33::pubkey++[opCheckSig] ∧
        (pubkey[0]? = some 0x02 ∨ pubkey[0]? = some 0x03)) ∨
      (pubkey.length = 65 ∧ script = 65::pubkey++[opCheckSig] ∧ pubkey[0]? = some 0x04 ∧
        ops.isFullyValid pubkey = true) := by
  unfold isToPubKey at h
  split at h
  · rename_i hscr
    obtain ⟨hlen,h0,h34,h1⟩ := hscr
    cases h
    have hend : script.drop 35 = [] := drop_eq_nil_of_le hlen.le
    refine .inl ⟨by simp [hlen],?_,by simpa using h1⟩
    conv_lhs => rw [← drop_zero (l := script),drop_of_getElem? h0,
      drop_eq_take_append script 1 33,drop_of_getElem? h34,hend]
    simp
  · split at h
    · rename_i hscr
      obtain ⟨hlen,h0,h66,h1⟩ := hscr
      simp only [ite_none_right_eq_some,some.injEq] at h
      obtain ⟨hv,rfl⟩ := h
      have hend : script.drop 67 = [] := drop_eq_nil_of_le hlen.le
      refine .inr ⟨by simp [hlen],?_,by simpa using h1,hv⟩
      conv_lhs => rw [← drop_zero (l := script),drop_of_getElem? h0,
        drop_eq_take_append script 1 65,drop_of_getElem? h66,hend]
      simp
    · cases h

private theorem key_eq_cons {first : UInt8} (h : pubkey[0]? = some first)
    (hlen : pubkey.length = 33) : pubkey = first::(pubkey.drop 1).take 32 := by
  have hs : (pubkey.drop 1).length ≤ 32 := by simp [hlen]
  rw [take_of_length_le hs]
  exact drop_of_getElem? h

private theorem and_one_cases (b : UInt8) : b &&& 1 = 0 ∨ b &&& 1 = 1 := by
  have hbit : (b &&& 1).toNat = b.toNat % 2 := by exact and_one_is_mod b.toNat
  rcases mod_two_eq_zero_or_one b.toNat with h | h
  · exact .inl (UInt8.toNat_inj.mp (by rw [hbit,h]; rfl))
  · exact .inr (UInt8.toNat_inj.mp (by rw [hbit,h]; rfl))

theorem compressScript_compressed (hops : ops.Inverse) {compr : Bytes}
    (h : compressScript ops script = some compr) : ∃ nSize input, Compressed ops script compr nSize input := by
  unfold compressScript at h
  split at h
  · rename_i keyID hkey
    cases h
    exact ⟨0,keyID,isToKeyID_compressed hkey⟩
  split at h
  · rename_i scriptID hscr
    cases h
    exact ⟨1,scriptID,isToScriptID_compressed hscr⟩
  split at h
  · cases h
  rename_i pubkey hpubkey
  have hkey : ∀ n, 33 ≤ n → pubkey.length = n → ((pubkey.drop 1).take 32).length = 32 := by
    simp only [length_take,length_drop]
    omega
  -- the 32 bytes behind the first one of the key are kept; the kind tells the parity of a full key
  rcases isToPubKey_cases hpubkey with ⟨hlen,rfl,h0 | h0⟩ | ⟨hlen,rfl,h0,hv⟩
  · simp only [h0,true_or,if_true,getD_eq_getElem?_getD,some.injEq] at h
    refine ⟨2,_,h.symm,by simp [nSpecialScripts],hkey 33 le_rfl hlen,fun prior => ?_⟩
    rw [decompressScript]
    conv_rhs => rw [key_eq_cons h0 hlen]
    simp
  · simp only [h0,or_true,if_true,getD_eq_getElem?_getD,some.injEq] at h
    refine ⟨3,_,h.symm,by simp [nSpecialScripts],hkey 33 le_rfl hlen,fun prior => ?_⟩
    rw [decompressScript]
    conv_rhs => rw [key_eq_cons h0 hlen]
    simp
  · rw [if_neg (by simp [h0]),if_pos h0] at h
    have hi := hops ⟨pubkey,hlen⟩ h0 hv
    have hs := hkey 65 (by norm_num) hlen
    rcases and_one_cases (pubkey.getD 64 0) with hbit | hbit
    · rw [hbit] at hi h
      refine ⟨4,_,(some.inj h).symm,by simp [nSpecialScripts],hs,fun prior => ?_⟩
      have hk : ops.decompress (0x02::(pubkey.drop 1).take 32) = some ⟨pubkey,hlen⟩ := hi
      rw [decompressScript,take_of_length_le hs.le,hk]
    · rw [hbit] at hi h
      refine ⟨5,_,(some.inj h).symm,by simp [nSpecialScripts],hs,fun prior => ?_⟩
      have hk : ops.decompress (0x03::(pubkey.drop 1).take 32) = some ⟨pubkey,hlen⟩ := hi
      rw [decompressScript,take_of_length_le hs.le,hk]

private theorem writeVarInt_small {n : Nat} (h : n < 128) : writeVarInt 32 n = [ofNat n] := by
  simp [writeVarInt,varIntGroups,mod_eq_of_lt h,show n ≤ 127 by omega]
private theorem special_decodes {nSize : Nat} (h : nSize < nSpecialScripts) :
    Decodes (readVarInt 32) [ofNat nSize] nSize := by
  unfold nSpecialScripts at h
  rw [← writeVarInt_small (by omega)]
  exact readVarInt_decodes (by norm_num) (by omega)

theorem unserializeScript_decodes (hops : ops.Inverse) (prior : CScript) (h : script.length ≤ maxScriptSize) :
    Decodes (unserializeScript ops prior) (serializeScript ops script) script := by
  unfold serializeScript
  split
  · rename_i compr hcompr
    obtain ⟨nSize,input,hb,hs,hlen,hr⟩ := compressScript_compressed hops hcompr
    rw [hb]
    apply bind (special_decodes hs)
    rw [if_pos hs,← hlen]
    exact bind_pure (readBytes_decodes endOfData input) (by rw [hr])
  · have hsum : (script.length+nSpecialScripts) % 2^32 = script.length + nSpecialScripts := by
      unfold maxScriptSize at h
      unfold nSpecialScripts
      omega
    rw [hsum]
    apply bind (readVarInt_decodes (by norm_num) (hsum ▸ mod_lt _ (by norm_num)))
    rw [if_neg (by omega),if_neg (by omega)]
    exact readBytes_decodes endOfData script

variable {script' : CScript}
private theorem compressed_ne_general {compr : Bytes}
    {nSize : Nat} {input : Bytes} (h : Compressed ops script compr nSize input) :
    compr ≠ writeVarInt 32 ((script'.length+nSpecialScripts) % 2^32)++script' := by
  intro heq
  rw [h.bytes] at heq
  obtain ⟨hsi,hscr⟩ := (special_decodes h.special).unique
    (readVarInt_decodes (by norm_num) (mod_lt _ (by norm_num))) heq
  have hlen := h.length
  have hs := h.special
  have hle : getSpecialScriptSize nSize ≤ 32 := by
    unfold getSpecialScriptSize
    split_ifs <;> omega
  rw [hscr] at hlen
  unfold nSpecialScripts at hsi hs
  omega

theorem serializeScript_injective (hops : ops.Inverse)
    (h : serializeScript ops script = serializeScript ops script') : script = script' := by
  unfold serializeScript at h
  split at h
  · rename_i compr hcompr
    obtain ⟨nSize,input,hc⟩ := compressScript_compressed hops hcompr
    split at h
    · rename_i compr' hcompr'
      obtain ⟨nSize',input',hc'⟩ := compressScript_compressed hops hcompr'
      rw [hc.bytes,hc'.bytes] at h
      obtain ⟨hs,hi⟩ := (special_decodes hc.special).unique (special_decodes hc'.special) h
      rw [← hc.rebuilt [],← hc'.rebuilt [],hs,hi]
    · exact absurd h (compressed_ne_general hc)
  · split at h
    · rename_i compr' hcompr'
      obtain ⟨nSize',input',hc'⟩ := compressScript_compressed hops hcompr'
      exact absurd h.symm (compressed_ne_general hc')
    · exact ((readVarInt_decodes (by norm_num) (mod_lt _ (by norm_num))).unique
        (readVarInt_decodes (by norm_num) (mod_lt _ (by norm_num))) h).2

def serializeTxOutCompressed (ops : PubKeyOps) (out : CTxOut) : Bytes :=
  writeVarInt 64 (compressAmount (BitVec.ofInt 64 out.nValue).toNat) ++ serializeScript ops out.scriptPubKey
def unserializeTxOutCompressed (ops : PubKeyOps) (prior : CScript) : StreamReader CTxOut := do
  let v ← readVarInt 64
  let scriptPubKey ← unserializeScript ops prior
  return ⟨(BitVec.ofNat 64 (decompressAmount v)).toInt, scriptPubKey⟩

/-- The height and the coinbase flag in one `uint32_t`. -/
def Coin.code (coin : Coin) : Nat := (coin.nHeight * 2 + coin.fCoinBase.toNat) % 2^32

/-- `Coin::Serialize`; nothing is its failed assertion. -/
def serializeCoin (ops : PubKeyOps) (coin : Coin) : Option Bytes :=
  if coin.isSpent then none
  else some (writeVarInt 32 coin.code++serializeTxOutCompressed ops coin.out)

def unserializeCoin (ops : PubKeyOps) (prior : CScript) : StreamReader Coin := do
  let code ← readVarInt 32
  let out ← unserializeTxOutCompressed ops prior
  return ⟨out, code % 2 = 1, code / 2⟩

def serializeTxInUndo (ops : PubKeyOps) (txout : Coin) : Bytes :=
  writeVarInt 32 txout.code++(if txout.nHeight > 0 then serWritedata 1 0 else []) ++
    serializeTxOutCompressed ops txout.out

/-- `TxInUndoFormatter::Unser`; a version number of the old format is skipped. -/
def unserializeTxInUndo (ops : PubKeyOps) (prior : CScript) : StreamReader Coin := do
  let nCode ← readVarInt 32
  let _ ← (if nCode / 2 > 0 then readVarInt 32 else pure 0)
  let out ← unserializeTxOutCompressed ops prior
  return ⟨out, nCode % 2 = 1, nCode / 2⟩

theorem wrap64_of_lt (y : Nat) (h : y < 2^64) : wrap64 y = y := mod_eq_of_lt h
theorem compressAmount_lt (n : Nat) : compressAmount n < 2^64 := by
  unfold compressAmount compressAmountWith
  simp only
  split_ifs
  · norm_num
  all_goals exact mod_lt _ (by norm_num)

theorem moneyRange_toNat {nValue : Int} (h : moneyRange nValue = true) :
    (BitVec.ofInt 64 nValue).toNat = nValue.toNat ∧ nValue.toNat < 2^60 := by
  rw [moneyRange_iff,maxMoney,coin] at h
  rw [BitVec.toNat_ofInt]
  omega

structure Coin.Storable (coin : Coin) : Prop where
  value : moneyRange coin.out.nValue = true
  height : coin.nHeight < 2^31
  script : coin.out.scriptPubKey.length ≤ maxScriptSize
section Coins
variable (hops : ops.Inverse) (prior : CScript) {coin : Coin} (hcoin : coin.Storable)
include hops hcoin

theorem unserializeTxOutCompressed_decodes :
    Decodes (unserializeTxOutCompressed ops prior) (serializeTxOutCompressed ops coin.out)
      coin.out := by
  obtain ⟨hval,hlt⟩ := moneyRange_toNat hcoin.value
  apply bind (readVarInt_decodes (by norm_num) (compressAmount_lt _))
  apply bind_pure (unserializeScript_decodes hops prior hcoin.script)
  have hamt : decompressAmount (compressAmount (BitVec.ofInt 64 coin.out.nValue).toNat) =
      (BitVec.ofInt 64 coin.out.nValue).toNat :=
    decompressAmountWith_compressAmountWith wrap64_of_lt (hval ▸ hlt)
  have hr := (moneyRange_iff _).mp hcoin.value
  have hb : (BitVec.ofInt 64 coin.out.nValue).toInt = coin.out.nValue := by
    exact BitVec.toInt_ofInt_eq_self (by norm_num) (by omega) (by omega)
  rw [hamt,BitVec.ofNat_toNat,BitVec.setWidth_eq,hb]

omit hops in
theorem Coin.Storable.code_eq : coin.code = coin.nHeight * 2 + coin.fCoinBase.toNat := by
  have hht := hcoin.height
  have hf := Bool.toNat_lt coin.fCoinBase
  unfold Coin.code
  omega

omit hops in
theorem Coin.Storable.code_parts : coin.code / 2 = coin.nHeight ∧
    decide (coin.code % 2 = 1) = coin.fCoinBase ∧ coin.code < 2^32 := by
  have hht := hcoin.height
  rw [hcoin.code_eq]
  cases coin.fCoinBase with
  | false =>
    simp only [Bool.toNat_false,decide_eq_false_iff_not]
    omega
  | true =>
    simp only [Bool.toNat_true,decide_eq_true_eq]
    omega

theorem unserializeCoin_decodes :
    ∃ bytes, serializeCoin ops coin = some bytes ∧ Decodes (unserializeCoin ops prior) bytes coin := by
  obtain ⟨hht,hf,hlt⟩ := hcoin.code_parts
  have hu : coin.isSpent = false := Coin.isSpent_of_nonneg ((moneyRange_iff _).mp hcoin.value).1
  refine ⟨_,by rw [serializeCoin,hu]; rfl,?_⟩
  apply bind (readVarInt_decodes (by norm_num) hlt)
  apply bind_pure (unserializeTxOutCompressed_decodes hops prior hcoin)
  rw [hht,hf]

theorem unserializeTxInUndo_decodes :
    Decodes (unserializeTxInUndo ops prior) (serializeTxInUndo ops coin) coin := by
  obtain ⟨hht,hf,hlt⟩ := hcoin.code_parts
  have hver : Decodes (if coin.code / 2 > 0 then readVarInt 32 else pure 0)
      (if coin.nHeight > 0 then serWritedata 1 0 else []) 0 := by
    rw [hht]
    split
    · exact special_decodes (by simp [nSpecialScripts])
    · exact pure 0
  rw [serializeTxInUndo,append_assoc]
  apply bind (readVarInt_decodes (by norm_num) hlt)
  apply bind hver
  apply bind_pure (unserializeTxOutCompressed_decodes hops prior hcoin)
  rw [hht,hf]
end Coins

/-- Stored coins are read back, amounts are compressed without loss or overflow, and scripts do not share an
encoding. The reduction is arbitrary above the bound, so that an overflow would show. -/
theorem coin_codec (ops : PubKeyOps) (hops : ops.Inverse) :
    (∀ coin : Coin, coin.Storable → ∀ prior : CScript, (∃ bytes, serializeCoin ops coin = some bytes ∧
        Decodes (unserializeCoin ops prior) bytes coin) ∧
      Decodes (unserializeTxInUndo ops prior) (serializeTxInUndo ops coin) coin) ∧
    (∀ nValue : Int, moneyRange nValue = true → decompressAmount (compressAmount nValue.toNat) = nValue.toNat ∧
      ∀ wrap : Nat → Nat, (∀ y < 2^64, wrap y = y) →
        compressAmountWith wrap nValue.toNat = compressAmount nValue.toNat ∧
        decompressAmountWith wrap (compressAmount nValue.toNat) = nValue.toNat) ∧
    ∀ script script' : CScript,
      serializeScript ops script = serializeScript ops script' → script = script' := by
  refine ⟨fun coin hcoin prior => ⟨unserializeCoin_decodes hops prior hcoin,
    unserializeTxInUndo_decodes hops prior hcoin⟩,?_,fun _ _ => serializeScript_injective hops⟩
  intro nValue hval
  have hlt := (moneyRange_toNat hval).2
  refine ⟨decompressAmountWith_compressAmountWith wrap64_of_lt hlt,fun wrap hwrap => ?_⟩
  have hsame : compressAmountWith wrap nValue.toNat = compressAmount nValue.toNat := by
    rcases Nat.eq_zero_or_pos nValue.toNat with hzero | hpos
    · simp [hzero,compressAmount,compressAmountWith]
    · rw [compressAmount,compressAmountWith_eq hwrap hlt hpos,compressAmountWith_eq wrap64_of_lt hlt hpos]
  exact ⟨hsame,hsame ▸ decompressAmountWith_compressAmountWith hwrap hlt⟩

/-- The field of secp256k1, and the generator of the curve. -/
def fieldSize : Nat := 2^256 - 2^32 - 977
def generatorX : Nat := 0x79be667ef9dcbbac55a06295ce870b07029bfcdb2dce28d959f2815b16f81798
def generatorY : Nat := 0x483ada7726a3c4655da4fbfc0e1108a8fd17b448a68554199c47d08ffb10d4b8
def coordinate (n : Nat) : Bytes := (range 32).map fun i => ofNat (n / 256^(31-i))

/-- The uncompressed key of the point with the generator's abscissa. -/
def generatorKey (y : Nat) : { key : Bytes // key.length = 65 } :=
  ⟨0x04::(coordinate generatorX++coordinate y), by simp [coordinate]⟩

/-- The curve cut down to the generator and its negative. -/
def generatorKeys : PubKeyOps where
  isFullyValid key := key = (generatorKey generatorY).val ∨ key = (generatorKey (fieldSize-generatorY)).val
  decompress key :=
    if key = 0x02::coordinate generatorX then some (generatorKey generatorY)
    else if key = 0x03::coordinate generatorX then some (generatorKey (fieldSize-generatorY))
    else none

theorem generatorKeys_inverse : generatorKeys.Inverse := by
  intro key _ hvalid
  rcases of_decide_eq_true hvalid with h | h
  · obtain rfl := Subtype.ext h
    decide +kernel
  · obtain rfl := Subtype.ext h
    decide +kernel

def generatorCoin : Coin :=
  ⟨⟨150*coin, 65::((generatorKey (fieldSize-generatorY)).val++[opCheckSig])⟩, true, 1000⟩

theorem generatorCoin_stored :
    (fieldSize-generatorY)^2 % fieldSize = (generatorX^3 + 7) % fieldSize ∧
      (serializeTxInUndo generatorKeys generatorCoin).length = 38 ∧
      Decodes (unserializeTxInUndo generatorKeys []) (serializeTxInUndo generatorKeys generatorCoin)
        generatorCoin := by
  have hcoin : generatorCoin.Storable := ⟨by decide,by decide,by decide⟩
  exact ⟨by decide +kernel,by decide +kernel,
    ((coin_codec generatorKeys generatorKeys_inverse).1 generatorCoin hcoin []).2⟩
end Lcryp
