import Lcryp.Framework.Matching
import Lcryp.Script.SoftFork

/-!
# Signature encodings and multiple signatures

The strict encoding of a signature as a list of its parts, and the signatures that `OP_CHECKMULTISIG`
accepts.
-/
namespace Lcryp
open Codec List Nat
/-- A test of `IsValidSignatureEncoding`; it has no result if it reads a byte outside the string. -/
def refuseIf (test rest : Option Bool) : Option Bool := test.bind fun bad => if bad then some false else rest
def refuseByteIf (byte : Option Nat) (bad : Nat → Prop) [DecidablePred bad] : Option Bool → Option Bool :=
  refuseIf (byte.map (decide <| bad ·))

/-- The test for a leading zero that no sign bit needs. -/
def needlessZero (byte : Nat → Option Nat) (len i : Nat) : Option Bool :=
  if len > 1 then (byte i).bind fun b =>
    if b = 0 then (byte (i+1)).map (decide <| · < 0x80) else some false
  else some false

/-- `IsValidSignatureEncoding` with its reads of the string one by one. -/
def readSignatureEncoding (sig : Bytes) : Option Bool :=
  let byte := fun i => sig[i]?.map UInt8.toNat
  refuseIf (some (sig.length < 9)) <|
  refuseIf (some (sig.length > 73)) <|
  refuseByteIf (byte 0) (· ≠ 0x30) <|
  refuseByteIf (byte 1) (· ≠ sig.length - 3) <|
  (byte 3).bind fun lenR =>
  refuseIf (some (5 + lenR ≥ sig.length)) <|
  (byte (5+lenR)).bind fun lenS =>
  refuseIf (some (lenR + lenS + 7 ≠ sig.length)) <|
  refuseByteIf (byte 2) (· ≠ 0x02) <|
  refuseIf (some (lenR = 0)) <|
  refuseByteIf (byte 4) (0x80 ≤ ·) <|
  refuseIf (needlessZero byte lenR 4) <|
  refuseByteIf (byte (lenR+4)) (· ≠ 0x02) <|
  refuseIf (some (lenS = 0)) <|
  refuseByteIf (byte (lenR+6)) (0x80 ≤ ·) <|
  refuseIf (needlessZero byte lenS (lenR+6)) <|
  some true

/-- The contents of a DER integer that is not negative and has no needless leading zero. -/
def IsDerInteger (contents : Bytes) : Prop :=
  contents ≠ [] ∧ (contents.getD 0 0).toNat < 0x80 ∧
    ¬ (1 < contents.length ∧ (contents.getD 0 0).toNat = 0 ∧ (contents.getD 1 0).toNat < 0x80)

def IsDerSignature (sig : Bytes) : Prop :=
  9 ≤ sig.length ∧ sig.length ≤ 73 ∧ ∃ len lenR lenS hashtype R S,
    sig = 0x30::len::0x02::lenR::(R++0x02::lenS::(S++[hashtype])) ∧
    len.toNat = sig.length - 3 ∧ lenR.toNat = R.length ∧ lenS.toNat = S.length ∧
    IsDerInteger R ∧ IsDerInteger S

section Reads
variable {sig : Bytes} {rest : Option Bool} {passes : Bool} {i : Nat}
/-- What comes after a test is read only where the test has passed. -/
theorem refuseIf_eq {test : Option Bool} {bad : Prop} [Decidable bad] (ht : test = some (decide bad))
    (hr : ¬ bad → rest = some passes) : refuseIf test rest = some (decide (¬ bad) && passes) := by
  by_cases h : bad
  · simp [refuseIf,ht,h]
  · simp [refuseIf,ht,h,hr h]

theorem readByte_eq (hi : i < sig.length) : sig[i]?.map UInt8.toNat = some (sig.getD i 0).toNat := by
  simp [hi]
theorem refuseByteIf_eq {bad : Nat → Prop} [DecidablePred bad] (hi : i < sig.length)
    (hr : ¬ bad (sig.getD i 0).toNat → rest = some passes) :
    refuseByteIf (sig[i]?.map UInt8.toNat) bad rest = some (decide (¬ bad (sig.getD i 0).toNat) && passes) :=
  refuseIf_eq (by rw [readByte_eq hi,Option.map_some]) hr

theorem bindByte_eq {f : Nat → Option Bool} (hi : i < sig.length)
    (hr : f (sig.getD i 0).toNat = some passes) : (sig[i]?.map UInt8.toNat).bind f = some passes := by
  rw [readByte_eq hi,Option.bind_some,hr]

theorem needlessZero_eq {len : Nat} (hi : i < sig.length) (hn : 1 < len → i + 1 < sig.length) :
    needlessZero (fun i => sig[i]?.map UInt8.toNat) len i =
      some (decide (len > 1 ∧ (sig.getD i 0).toNat = 0 ∧ (sig.getD (i+1) 0).toNat < 0x80)) := by
  unfold needlessZero
  split
  next h =>
    simp only [readByte_eq hi,Option.bind_some]
    split <;> simp_all
  · next h => simp [h]

theorem readSignatureEncoding_eq (sig : Bytes) :
    readSignatureEncoding sig = some (isValidSignatureEncoding sig) := by
  refine (refuseIf_eq rfl fun h9 => refuseIf_eq rfl fun h73 =>
    refuseByteIf_eq (by omega) fun _ => refuseByteIf_eq (by omega) fun _ =>
    bindByte_eq (by omega) <| refuseIf_eq rfl fun hR => bindByte_eq (by omega) <|
    refuseIf_eq rfl fun hS => refuseByteIf_eq (by omega) fun _ => refuseIf_eq rfl fun _ =>
    refuseByteIf_eq (by omega) fun _ => refuseIf_eq (needlessZero_eq (by omega) (by omega)) fun _ =>
    refuseByteIf_eq (by omega) fun _ => refuseIf_eq rfl fun _ => refuseByteIf_eq (by omega) fun _ =>
    refuseIf_eq (needlessZero_eq (by omega) (by omega)) fun _ => rfl).trans ?_
  rw [Option.some_inj,Bool.eq_iff_iff]
  simp [isValidSignatureEncoding,and_assoc,or_assoc]
end Reads

theorem isDerInteger_append (v l : Bytes) :
    IsDerInteger v ↔ v.length ≠ 0 ∧ ((v++l).getD 0 0).toNat < 0x80 ∧
      ¬ (1 < v.length ∧ ((v++l).getD 0 0).toNat = 0 ∧ ((v++l).getD 1 0).toNat < 0x80) := by
  cases v with
  | nil => simp [IsDerInteger]
  | cons a v =>
    cases v with
    | nil => simp [IsDerInteger]
    | cons b v => simp [IsDerInteger]

theorem isValidSignatureEncoding_parts {sig R S : Bytes} {tag len tagR lenR tagS lenS hashtype : UInt8}
    (h : sig = tag::len::tagR::lenR::(R++tagS::lenS::(S++[hashtype])))
    (hR : lenR.toNat = R.length) (hS : lenS.toNat = S.length) :
    isValidSignatureEncoding sig = true ↔ 9 ≤ sig.length ∧ sig.length ≤ 73 ∧ tag = 0x30 ∧
      len.toNat = sig.length - 3 ∧ tagR = 0x02 ∧ tagS = 0x02 ∧ IsDerInteger R ∧ IsDerInteger S := by
  have ht : ∀ n i, n = R.length + i + 4 → sig.getD n 0 = (tagS::lenS::(S++[hashtype])).getD i 0 := by
    rintro n i rfl
    rw [h]
    simp only [getD_cons_succ]
    rw [getD_append_right _ _ _ _ (by omega),Nat.add_sub_cancel_left]
  have hl : sig.length = R.length + S.length + 7 := by
    rw [h]
    simp only [length_cons,length_append,length_nil]
    omega
  have hb : sig.getD 0 0 = tag ∧ sig.getD 1 0 = len ∧ sig.getD 2 0 = tagR ∧ sig.getD 3 0 = lenR ∧
      sig.getD 4 0 = (R++tagS::lenS::(S++[hashtype])).getD 0 0 ∧
      sig.getD 5 0 = (R++tagS::lenS::(S++[hashtype])).getD 1 0 := by
    rw [h]
    exact ⟨rfl,rfl,rfl,rfl,rfl,rfl⟩
  have htag : ∀ b c : UInt8, b = c ↔ b.toNat = c.toNat := fun b c => UInt8.toNat_inj.symm
  rw [isDerInteger_append R (tagS::lenS::(S++[hashtype])),isDerInteger_append S [hashtype],htag tag,
    htag tagR,htag tagS]
  simp only [isValidSignatureEncoding,hb,hR,ht (5+R.length) 1 (by omega),getD_cons_succ,
    getD_cons_zero,hS,ht (R.length+4) 0 (by omega),ht (R.length+6) 2 (by omega),
    ht (R.length+7) 3 (by omega),Bool.and_eq_true,decide_eq_true_eq,beq_iff_eq,bne_iff_ne,
    Bool.not_eq_true',← Bool.not_eq_true,and_assoc]
  have hf : 5 + R.length < sig.length ∧ R.length + S.length + 7 = sig.length := by omega
  simp only [hf,true_and]
  -- The second tag is tested behind the first integer.
  constructor
  · rintro ⟨hmin,hmax,htag,hlen,hta,hs,hsi,hz,htg,hr⟩
    exact ⟨hmin,hmax,htag,hlen,hta,htg,hs,hsi,hz,hr⟩
  · rintro ⟨hmin,hmax,htag,hlen,hta,htg,hs,hsi,hz,hr⟩
    exact ⟨hmin,hmax,htag,hlen,hta,hs,hsi,hz,htg,hr⟩

theorem signature_parts {sig : Bytes} (hl : 9 ≤ sig.length)
    (hlen : (sig.getD 3 0).toNat + (sig.getD (5 + (sig.getD 3 0).toNat) 0).toNat + 7 = sig.length) :
    ∃ tag len tagR lenR tagS lenS hashtype R S,
      sig = tag::len::tagR::lenR::(R++tagS::lenS::(S++[hashtype])) ∧
      lenR.toNat = R.length ∧ lenS.toNat = S.length := by
  rcases sig with _ | ⟨tag,_ | ⟨len,_ | ⟨tagR,_ | ⟨lenR,body⟩⟩⟩⟩
  iterate 4 simp at hl
  rw [add_comm 5] at hlen
  simp only [getD_cons_succ,getD_cons_zero,length_cons] at hlen
  have hd : (body.drop lenR.toNat).getD 1 0 = body.getD (lenR.toNat+1) 0 := by simp
  have ht : (body.drop lenR.toNat).length = body.length - lenR.toNat := length_drop
  rcases hr : body.drop lenR.toNat with _ | ⟨tagS,_ | ⟨lenS,tail⟩⟩
  iterate 2 simp only [hr,length_cons,length_nil] at ht; omega
  simp only [hr,getD_cons_succ,getD_cons_zero,length_cons] at hd ht
  rw [← hd] at hlen
  refine ⟨tag,len,tagR,lenR,tagS,lenS,tail.getLast (by grind),body.take lenR.toNat,tail.dropLast,?_,?_,?_⟩
  · rw [dropLast_append_getLast,← hr,take_append_drop]
  · rw [length_take]
    omega
  · rw [length_dropLast]
    omega

theorem isValidSignatureEncoding_iff (sig : Bytes) :
    isValidSignatureEncoding sig = true ↔ IsDerSignature sig := by
  constructor
  · intro h
    have hp : 9 ≤ sig.length ∧ (sig.getD 3 0).toNat +
        (sig.getD (5 + (sig.getD 3 0).toNat) 0).toNat + 7 = sig.length := by
      simp only [isValidSignatureEncoding,Bool.and_eq_true,decide_eq_true_eq,beq_iff_eq] at h
      tauto
    obtain ⟨tag,len,tagR,lenR,tagS,lenS,hashtype,R,S,hsig,hR,hS⟩ := signature_parts hp.1 hp.2
    obtain ⟨h9,h73,rfl,hlen,rfl,rfl,hder⟩ := (isValidSignatureEncoding_parts hsig hR hS).mp h
    exact ⟨h9,h73,len,lenR,lenS,hashtype,R,S,hsig,hlen,hR,hS,hder⟩
  · rintro ⟨h9,h73,len,lenR,lenS,hashtype,R,S,hsig,hlen,hR,hS,hder⟩
    exact (isValidSignatureEncoding_parts hsig hR hS).mpr ⟨h9,h73,rfl,hlen,rfl,rfl,hder⟩

/-- Exactly the strictly encoded signatures pass, and no test reads outside the string. -/
theorem signatureEncoding_strict (sig : Bytes) :
    readSignatureEncoding sig = some (isValidSignatureEncoding sig) ∧
      (isValidSignatureEncoding sig = true ↔ IsDerSignature sig) :=
  ⟨readSignatureEncoding_eq sig,isValidSignatureEncoding_iff sig⟩

section Multisig
variable {ctx : EvalContext} {scriptCode : CScript} {sigs keys : List Bytes}
def Verifies (ctx : EvalContext) (scriptCode : CScript) (vchSig vchPubKey : Bytes) : Prop :=
  ctx.checker.checkECDSASignature vchSig vchPubKey scriptCode ctx.sigversion = true

theorem matchSignatures_iff (hs : ∀ sig ∈ sigs, checkSignatureEncoding ctx.crypto ctx.flags sig = .ok ())
    (hk : ∀ key ∈ keys, checkPubKeyEncoding key ctx.flags ctx.sigversion = .ok ()) :
    ∃ fSuccess, matchSignatures ctx scriptCode sigs keys = .ok fSuccess ∧
      (fSuccess = true ↔ List.SublistForall₂ (Verifies ctx scriptCode) sigs keys) := by
  induction keys generalizing sigs with
  | nil =>
    cases sigs with
    | nil => exact ⟨true,rfl,by simp [List.SublistForall₂.nil]⟩
    | cons sig sigs => exact ⟨false,rfl,by simp; nofun⟩
  | cons key keys ih =>
    cases sigs with
    | nil => exact ⟨true,by simp [matchSignatures,pure,Except.pure],by simp [List.SublistForall₂.nil]⟩
    | cons sig sigs =>
      simp only [mem_cons,forall_eq_or_imp] at hs hk
      simp only [matchSignatures,hs.1,hk.1]
      generalize hn : (if ctx.checker.checkECDSASignature sig key scriptCode ctx.sigversion = true
        then sigs else sig::sigs) = next
      have he : ∀ s ∈ next, checkSignatureEncoding ctx.crypto ctx.flags s = .ok () := by
        rw [← hn]
        split
        · exact hs.2
        · simpa using hs
      have hst : List.SublistForall₂ (Verifies ctx scriptCode) (sig::sigs) (key::keys) ↔
          List.SublistForall₂ (Verifies ctx scriptCode) next keys := by
        rw [← hn]
        split
        · next hv => exact Matching.cons_of_rel hv
        · next hv => exact Matching.cons_of_not_rel hv
      rw [hst]
      split
      next h =>
        exact ⟨false,rfl,by simpa using fun hm => h.not_ge (Matching.length_le hm)⟩
      · exact ih he hk.2

theorem popArguments_append (popped rest : List Bytes) (ikey2 : Nat) :
    popArguments false popped.length ikey2 (popped++rest) = .ok rest := by
  induction popped generalizing ikey2 with
  | nil => rfl
  | cons top popped ih => exact ih (ikey2-1)

/-- With every encoding accepted, the operation gives true exactly if the signatures verify, in their
order, under some of the keys. -/
theorem checkMultiSig_iff (st : EvalState) {vchKeys vchSigs dummy : Bytes} {rest : List Bytes}
    (hstack : st.stack = vchKeys::(keys++vchSigs::(sigs++dummy::rest)))
    (hkeysNum : scriptNum vchKeys (hasFlag ctx.flags scriptVerifyMinimaldata) 4 = .ok keys.length)
    (hsigsNum : scriptNum vchSigs (hasFlag ctx.flags scriptVerifyMinimaldata) 4 = .ok sigs.length)
    (hle : sigs.length ≤ keys.length) (hmax : keys.length ≤ maxPubkeysPerMultisig)
    (hops : st.nOpCount + keys.length ≤ maxOpsPerScript) (hversion : ctx.sigversion ≠ .tapscript)
    (hscript : removeSignatures ctx.flags ctx.sigversion st.codeHash sigs = .ok scriptCode)
    (hsigs : ∀ sig ∈ sigs, checkSignatureEncoding ctx.crypto ctx.flags sig = .ok ())
    (hkeys : ∀ key ∈ keys, checkPubKeyEncoding key ctx.flags ctx.sigversion = .ok ())
    (hdummy : hasFlag ctx.flags scriptVerifyNulldummy = true → dummy = []) :
    checkMultiSig ctx false st = .ok { st with
        stack := vchBool true::rest
        nOpCount := st.nOpCount + keys.length } ↔
      ∃ f : Fin sigs.length ↪o Fin keys.length,
        ∀ i, Verifies ctx scriptCode (sigs.get i) (keys.get (f i)) := by
  have hint : ∀ n, n ≤ maxPubkeysPerMultisig → getint n = n := by
    intro n hn
    unfold maxPubkeysPerMultisig at hn
    unfold getint
    omega
  have hget : st.stack.getD (1+keys.length) [] = vchSigs := by
    rw [hstack,Nat.add_comm,getD_cons_succ,getD_append_right _ _ _ _ le_rfl,Nat.sub_self,getD_cons_zero]
  have htakeKeys : (st.stack.drop 1).take keys.length = keys := by simp [hstack]
  have htakeSigs : (st.stack.drop (2+keys.length)).take sigs.length = sigs := by simp [hstack,add_comm 2]
  have hlen : st.stack.length ≥ 3 + keys.length + sigs.length := by
    simp [hstack]
    omega
  have hpop : popArguments false (3 + keys.length + sigs.length - 1) (keys.length+2) st.stack =
      .ok (dummy::rest) := by
    have := popArguments_append (vchKeys::(keys++vchSigs::sigs)) (dummy::rest) (keys.length+2)
    simpa [hstack,add_comm,add_left_comm] using this
  obtain ⟨fSuccess,hmatch,hiff⟩ : ∃ fSuccess, matchSignatures ctx scriptCode sigs keys = .ok fSuccess ∧
      (fSuccess = true ↔ _) := matchSignatures_iff hsigs hkeys
  rw [← Matching.iff_orderEmbedding,← hiff]
  have hget0 : st.stack.getD 0 [] = vchKeys := by simp [hstack]
  simp only [checkMultiSig,require_bind_eq_ok,hget0,hkeysNum,ok_bind,hint _ hmax,Int.toNat_natCast,
    hget,hsigsNum,hint _ (hle.trans hmax),htakeKeys,htakeSigs,hscript,hmatch]
  constructor
  · rintro ⟨-,-,-,-,-,-,-,hrun⟩
    obtain ⟨stack,-,hrun⟩ := bind_eq_ok.mp hrun
    cases stack with
    | nil => cases hrun
    | cons top stack =>
      obtain ⟨_,-,hrun⟩ := bind_eq_ok.mp hrun
      cases fSuccess with
      | true => rfl
      | false => simp [pure,Except.pure,vchBool,vchTrue,vchFalse] at hrun
  · rintro rfl
    have hnull : checkWhen (hasFlag ctx.flags scriptVerifyNulldummy)
        (require (dummy = []) ScriptError.sigNullDummy) = .ok () := by
      unfold checkWhen require
      split
      · next hflag => rw [if_pos (hdummy hflag)]
      · rfl
    refine ⟨hversion,by omega,by omega,hops,by omega,by omega,hlen,?_⟩
    simp only [Bool.not_true,Bool.false_and,hpop,ok_bind,hnull]
    rfl
end Multisig

def equalKeys : EvalContext where
  crypto := sampleCrypto
  checker := { sampleChecker with checkECDSASignature := fun vchSig vchPubKey _ _ => vchSig == vchPubKey }
  flags := 0#32
  sigversion := .base

def twoOfThree : EvalState := ⟨[[3], [9], [8], [7], [2], [9], [7], []], [], .new, 0, [], .empty⟩

theorem twoOfThree_accepted :
    checkMultiSig equalKeys false twoOfThree =
        .ok { twoOfThree with stack := [vchBool true], nOpCount := 0 + [[9], [8], [7]].length } ∧
      ∃ f : Fin [[9], [7]].length ↪o Fin [[9], [8], [7]].length,
        ∀ i, Verifies equalKeys [] ([[9], [7]].get i) ([[9], [8], [7]].get (f i)) :=
  ⟨rfl,(checkMultiSig_iff twoOfThree rfl rfl rfl (by decide) (by decide) (by decide) (by decide) rfl
    (by decide) (by decide) (by decide)).mp rfl⟩
end Lcryp
