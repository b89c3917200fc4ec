import Lcryp.Script.Verify
import Lcryp.Validation.Chainstate

/-!
# Script flags only restrict

Under more flags the interpreter makes more checks and does nothing else.
-/
namespace Lcryp
open Codec
variable {flags flags' : BitVec 32}
section Interpreter
variable (h : FlagSubset flags flags') (crypto : ScriptCrypto) (checker : SignatureChecker)
    (sigversion : SigVersion)
/-- The computation is stricter under more flags. -/
abbrev FlagSubset.Restricts {α : Type} (_ : FlagSubset flags flags')
    (f : BitVec 32 → Except ScriptError α) : Prop :=
  Stricter (f flags') (f flags)

include h in
theorem FlagSubset.checkWhen (flag : BitVec 32) {x y : Except ScriptError Unit} (hxy : Stricter x y) :
    Stricter (checkWhen (hasFlag flags' flag) x) (checkWhen (hasFlag flags flag) y) :=
  .checkWhen h.has fun _ => hxy

theorem FlagSubset.check (flag : BitVec 32) (x : Except ScriptError Unit) :
    h.Restricts fun flags => Lcryp.checkWhen (hasFlag flags flag) x :=
  h.checkWhen flag (.refl x)

theorem scriptNum_restricts (vch : Bytes) (nMaxNumSize : Nat) :
    h.Restricts fun flags => scriptNum vch (hasFlag flags scriptVerifyMinimaldata) nMaxNumSize := by
  refine .bind_same fun _ => .followed ?_ _
  exact .require fun hminimal hflag => hminimal (h.has hflag)

theorem checkSignatureEncoding_restricts (vchSig : Bytes) :
    h.Restricts fun flags => checkSignatureEncoding crypto flags vchSig := by
  apply Stricter.ite (.refl _)
  refine (h.check _ _).bind fun _ => ?_
  exact (h.check _ _).bind fun _ => h.check _ _

theorem checkPubKeyEncoding_restricts (vchPubKey : Bytes) :
    h.Restricts fun flags => checkPubKeyEncoding vchPubKey flags sigversion :=
  (h.check _ _).bind fun _ => h.check _ _

variable (scriptCode : CScript)
theorem removeSignature_restricts (vchSig : Bytes) :
    h.Restricts fun flags => removeSignature flags sigversion scriptCode vchSig :=
  .ite ((h.check _ _).followed _) (.refl _)

theorem evalChecksigPreTapscript_restricts (codeHash : CScript) (vchSig vchPubKey : Bytes) :
    h.Restricts fun flags =>
      evalChecksigPreTapscript ⟨crypto, checker, flags, sigversion⟩ codeHash vchSig vchPubKey := by
  refine (removeSignature_restricts h _ _ _).bind fun scriptCode => ?_
  refine (checkSignatureEncoding_restricts h _ _).bind fun _ => ?_
  refine (checkPubKeyEncoding_restricts h _ _).bind fun _ => ?_
  exact (h.check _ _).followed _

theorem evalChecksigTapscript_restricts (execdata : ScriptExecutionData) (sig pubkey : Bytes) :
    h.Restricts fun flags =>
      evalChecksigTapscript ⟨crypto, checker, flags, sigversion⟩ execdata sig pubkey := by
  refine .bind_same fun execdata => ?_
  exact .ite (.refl _) (.ite (.refl _) ((h.check _ _).followed _))

variable (st : EvalState)
theorem evalChecksig_restricts (sig pubkey : Bytes) :
    h.Restricts fun flags => evalChecksig ⟨crypto, checker, flags, sigversion⟩ st sig pubkey := by
  cases sigversion with
  | base => exact (evalChecksigPreTapscript_restricts h _ _ _ _ _ _).followed _
  | witnessV0 => exact (evalChecksigPreTapscript_restricts h _ _ _ _ _ _).followed _
  | tapscript => exact evalChecksigTapscript_restricts h _ _ _ _ _ _
  | taproot => exact .refl _

theorem removeSignatures_restricts (sigs : List Bytes) :
    h.Restricts fun flags => removeSignatures flags sigversion scriptCode sigs := by
  induction sigs generalizing scriptCode with
  | nil => exact .refl _
  | cons vchSig rest ih => exact (removeSignature_restricts h _ _ _).bind fun _ => ih _

theorem matchSignatures_restricts (sigs keys : List Bytes) :
    h.Restricts fun flags =>
      matchSignatures ⟨crypto, checker, flags, sigversion⟩ scriptCode sigs keys := by
  induction keys generalizing sigs with
  | nil =>
    cases sigs with
    | nil => exact .refl _
    | cons vchSig sigs => exact .refl _
  | cons vchPubKey keys ih =>
    cases sigs with
    | nil => exact .refl _
    | cons vchSig sigs =>
      refine (checkSignatureEncoding_restricts h _ _).bind fun _ => ?_
      refine (checkPubKeyEncoding_restricts h _ _).bind fun _ => ?_
      exact .ite (.refl _) (ih _)

theorem popArguments_restricts (fSuccess : Bool) (i ikey2 : Nat) (stack : List Bytes) :
    h.Restricts fun flags =>
      popArguments (!fSuccess && hasFlag flags scriptVerifyNullfail) i ikey2 stack := by
  induction i generalizing ikey2 stack with
  | zero => exact .refl _
  | succ i ih =>
    cases stack with
    | nil => exact .refl _
    | cons top stack =>
      refine .bind (.checkWhen ?_ fun _ => .refl _) fun _ => ih _ _
      rw [Bool.and_eq_true,Bool.and_eq_true]
      exact fun hboth => ⟨hboth.1,h.has hboth.2⟩

theorem checkMultiSig_restricts (verify : Bool) (st : EvalState) :
    h.Restricts fun flags => checkMultiSig ⟨crypto, checker, flags, sigversion⟩ verify st := by
  refine .bind_same fun _ => .bind_same fun _ => ?_
  refine (scriptNum_restricts h _ _).bind fun keysNum => ?_
  refine .bind_same fun _ => .bind_same fun _ => .bind_same fun _ => ?_
  refine (scriptNum_restricts h _ _).bind fun sigsNum => ?_
  refine .bind_same fun _ => .bind_same fun _ => ?_
  refine (removeSignatures_restricts h _ _ _).bind fun scriptCode => ?_
  refine (matchSignatures_restricts h _ _ _ _ _ _).bind fun fSuccess => ?_
  refine (popArguments_restricts h _ _ _ _).bind fun stack => ?_
  cases stack with
  | nil => exact .refl _
  | cons dummy stack => exact (h.check _ _).followed _

theorem openConditional_restricts (negate fExec : Bool) (st : EvalState) :
    h.Restricts fun flags => openConditional ⟨crypto, checker, flags, sigversion⟩ negate fExec st := by
  apply Stricter.ite _ (.refl _)
  split
  · exact .refl _
  · exact .bind_same fun _ => (h.check _ _).followed _

theorem binaryTop_restricts (op : BinaryOp) (st : EvalState) :
    h.Restricts fun flags => binaryTop (hasFlag flags scriptVerifyMinimaldata) op st := by
  refine .bind_same fun _ => (scriptNum_restricts h _ _).bind fun _ => ?_
  exact (scriptNum_restricts h _ _).followed _

theorem withinTop_restricts :
    h.Restricts fun flags => withinTop (hasFlag flags scriptVerifyMinimaldata) st := by
  refine .bind_same fun _ => (scriptNum_restricts h _ _).bind fun _ => ?_
  exact (scriptNum_restricts h _ _).bind fun _ => (scriptNum_restricts h _ _).followed _

theorem checkSig_restricts (verify : Bool) (st : EvalState) :
    h.Restricts fun flags => checkSig ⟨crypto, checker, flags, sigversion⟩ verify st := by
  unfold FlagSubset.Restricts checkSig
  split
  · exact (evalChecksig_restricts h _ _ _ _ _ _).followed _
  · exact .refl _

theorem checkSigAdd_restricts :
    h.Restricts fun flags => checkSigAdd ⟨crypto, checker, flags, sigversion⟩ st := by
  refine .bind_same fun _ => ?_
  split
  · refine (scriptNum_restricts h _ _).bind fun _ => ?_
    exact (evalChecksig_restricts h _ _ _ _ _ _).followed _
  · exact .refl _

variable (opcodePos : Nat)
theorem executeOpcode_restricts (op : ScriptOp) (fExec : Bool) (st : EvalState) :
    h.Restricts fun flags =>
      executeOpcode ⟨crypto, checker, flags, sigversion⟩ opcodePos op fExec st := by
  unfold executeOpcode
  cases decodeOpcode op.opcode with
  | pushData => exact (h.check _ _).followed _
  | checkLockTimeVerify =>
    exact (h.checkWhen _ (.bind_same fun _ => (scriptNum_restricts h _ _).followed _)).followed _
  | checkSequenceVerify =>
    exact (h.checkWhen _ (.bind_same fun _ => (scriptNum_restricts h _ _).followed _)).followed _
  | upgradableNop => exact (h.check _ _).followed _
  | conditional negate => exact openConditional_restricts h _ _ _ _ _ _
  | pick roll => exact .bind_same fun _ => (scriptNum_restricts h _ _).followed _
  | unary op => exact .bind_same fun _ => (scriptNum_restricts h _ _).followed _
  | binary op => exact binaryTop_restricts h _ _
  | within => exact withinTop_restricts h _
  | checkSig verify => exact checkSig_restricts h _ _ _ _ _
  | checkSigAdd => exact checkSigAdd_restricts h _ _ _ _
  | checkMultiSig verify => exact checkMultiSig_restricts h _ _ _ _ _
  | number n => exact .refl _
  | nop => exact .refl _
  | opElse => exact .refl _
  | endIf => exact .refl _
  | verify => exact .refl _
  | opReturn => exact .refl _
  | stack op => exact .refl _
  | equal verify => exact .refl _
  | hash hashOp => exact .refl _
  | codeSeparator => exact .refl _
  | disabled => exact .refl _
  | invalid => exact .refl _

theorem evalOp_restricts (op : ScriptOp) (st : EvalState) :
    h.Restricts fun flags => evalOp ⟨crypto, checker, flags, sigversion⟩ opcodePos op st := by
  refine .bind_same fun _ => .bind_same fun _ => .bind_same fun _ => ?_
  refine (h.check _ _).bind fun _ => ?_
  exact .followed (.ite (executeOpcode_restricts h _ _ _ _ _ _ _) (.refl _)) _

variable (ops : List (Option ScriptOp))
theorem evalOps_restricts (st : EvalState) :
    h.Restricts fun flags => evalOps ⟨crypto, checker, flags, sigversion⟩ opcodePos ops st := by
  induction ops generalizing opcodePos st with
  | nil => exact .refl _
  | cons op rest ih =>
    cases op with
    | none => exact .refl _
    | some op => exact (evalOp_restricts h _ _ _ _ _ _).bind fun _ => ih _ _

variable (stack : List Bytes)
theorem evalScript_restricts (script : CScript) (execdata : ScriptExecutionData) :
    h.Restricts fun flags => evalScript ⟨crypto, checker, flags, sigversion⟩ stack script execdata :=
  .bind_same fun _ => .bind_same fun _ => (evalOps_restricts h _ _ _ _ _ _).followed _

theorem scanOpSuccess_restricts : h.Restricts fun flags => scanOpSuccess flags ops := by
  induction ops with
  | nil => exact .refl _
  | cons op rest ih =>
    cases op with
    | none => exact .refl _
    | some op => exact .ite ((h.check _ _).followed _) ih

theorem executeWitnessScript_restricts (execScript : CScript) (execdata : ScriptExecutionData) :
    h.Restricts fun flags =>
      executeWitnessScript ⟨crypto, checker, flags⟩ stack execScript sigversion execdata := by
  refine .bind (.ite (scanOpSuccess_restricts h _) (.refl _)) fun opSuccess => ?_
  apply Stricter.ite (.refl _)
  exact .bind_same fun _ => .bind_same fun _ => (evalScript_restricts h _ _ _ _ _ _).followed _

variable (witness : List Bytes)
theorem verifyTaproot_restricts (program : Bytes) :
    h.Restricts fun flags => verifyTaproot ⟨crypto, checker, flags⟩ witness program := by
  refine .bind_same fun _ => ?_
  dsimp only
  split
  · refine .bind_same fun _ => .bind_same fun _ => ?_
    exact .ite (executeWitnessScript_restricts h _ _ _ _ _ _) (h.check _ _)
  · exact .refl _

theorem verifyWitnessProgram_restricts (witversion : Nat) (program : Bytes) (isP2sh : Bool) :
    h.Restricts fun flags =>
      verifyWitnessProgram ⟨crypto, checker, flags⟩ witness witversion program isP2sh := by
  apply Stricter.ite
  · apply Stricter.ite
    · split
      · exact .refl _
      · exact .bind_same fun _ => executeWitnessScript_restricts h _ _ _ _ _ _
    · exact .ite (.bind_same fun _ => executeWitnessScript_restricts h _ _ _ _ _ _) (.refl _)
  · exact .ite (h.checkWhen _ (verifyTaproot_restricts h _ _ _ _)) (h.check _ _)
end Interpreter
section Verify
variable (h : FlagSubset flags flags') (crypto : ScriptCrypto) (checker : SignatureChecker)
include h

omit h in
theorem verifyWitness_lacking (hlacks : hasFlag flags scriptVerifyWitness = false)
    (witness : List Bytes) (script : CScript) (isP2sh : Bool) (malleated : Except ScriptError Unit) :
    verifyWitness ⟨crypto, checker, flags⟩ witness script isP2sh malleated = .ok false := by
  simp [verifyWitness,hlacks,pure,Except.pure]

theorem verifyWitness_restricts (hhas : hasFlag flags scriptVerifyWitness = true) (witness : List Bytes)
    (script : CScript) (isP2sh : Bool) (malleated : Except ScriptError Unit) :
    h.Restricts fun flags => verifyWitness ⟨crypto, checker, flags⟩ witness script isP2sh malleated := by
  simp only [FlagSubset.Restricts,verifyWitness,hhas,h.has hhas,if_true]
  split
  · exact .refl _
  · exact .bind_same fun _ => (verifyWitnessProgram_restricts h _ _ _ _ _ _).followed _

theorem verifyScriptHash_restricts (hhas : hasFlag flags scriptVerifyWitness = true)
    (scriptSig : CScript) (witness stackCopy : List Bytes) :
    h.Restricts fun flags => verifyScriptHash ⟨crypto, checker, flags⟩ scriptSig witness stackCopy := by
  refine .bind_same fun _ => ?_
  cases stackCopy with
  | nil => exact .refl _
  | cons pubKey2 stack =>
    refine .bind (evalScript_restricts h _ _ _ _ _ _) fun stack => ?_
    refine .bind_same fun _ => ?_
    exact (verifyWitness_restricts h _ _ hhas _ _ _ _).followed _

theorem verifyScriptHash_admits (hlacks : hasFlag flags scriptVerifyWitness = false)
    (scriptSig : CScript) (witness stackCopy : List Bytes) :
    Admits (verifyScriptHash ⟨crypto, checker, flags'⟩ scriptSig witness stackCopy)
      (verifyScriptHash ⟨crypto, checker, flags⟩ scriptSig witness stackCopy) := by
  apply Admits.bind (Stricter.refl _)
  intro _
  cases stackCopy with
  | nil => exact Admits.error _ _
  | cons pubKey2 stack =>
    apply Admits.bind (evalScript_restricts h _ _ _ _ _ _)
    intro stack
    apply Admits.bind (Stricter.refl _)
    intro _
    rw [verifyWitness_lacking _ _ hlacks]
    exact Admits.ok _ _

theorem verifyPrograms_restricts (hhas : hasFlag flags scriptVerifyWitness = true)
    (hP2SH : hasFlag flags scriptVerifyP2SH = true) (scriptSig scriptPubKey : CScript)
    (witness stackCopy stack : List Bytes) :
    h.Restricts fun flags =>
      verifyPrograms ⟨crypto, checker, flags⟩ scriptSig scriptPubKey witness stackCopy stack := by
  refine .bind (verifyWitness_restricts h _ _ hhas _ _ _ _) fun hadWitness => ?_
  simp only [hP2SH,h.has hP2SH]
  exact .ite ((verifyScriptHash_restricts h _ _ hhas _ _ _).followed _) (.refl _)

theorem verifyPrograms_admits (hlacks : hasFlag flags scriptVerifyWitness = false)
    (scriptSig scriptPubKey : CScript) (witness stackCopy stack : List Bytes) :
    Admits (verifyPrograms ⟨crypto, checker, flags'⟩ scriptSig scriptPubKey witness stackCopy stack)
      (verifyPrograms ⟨crypto, checker, flags⟩ scriptSig scriptPubKey witness stackCopy stack) := by
  apply Admits.skip
  intro hadWitness
  rw [verifyPrograms,verifyWitness_lacking _ _ hlacks]
  by_cases hP2SH : (hasFlag flags scriptVerifyP2SH && scriptPubKey.isPayToScriptHash) = true
  · have hP2SH' : (hasFlag flags' scriptVerifyP2SH && scriptPubKey.isPayToScriptHash) = true := by
      rw [Bool.and_eq_true] at hP2SH ⊢
      exact ⟨h.has hP2SH.1,hP2SH.2⟩
    rw [if_pos hP2SH',ok_bind,if_pos hP2SH]
    exact Admits.bind_ok (verifyScriptHash_admits h _ _ hlacks _ _ _) fun _ => ⟨_,rfl⟩
  · rw [ok_bind,if_neg hP2SH]
    exact Admits.ok _ _

theorem checkLeftovers_restricts (hF : FlagsConsistent flags) (witness stack : List Bytes)
    (hadWitness : Bool) : h.Restricts fun flags => checkLeftovers flags witness stack hadWitness := by
  -- What is asserted of the flags holds of the smaller set.
  apply Stricter.bind
  · apply Stricter.checkWhen fun hflag => h.has hflag
    intro hclean
    refine .bind (Stricter.require fun _ => (hF.cleanstack hclean).1) fun _ => ?_
    exact .followed (.require fun _ => (hF.cleanstack hclean).2) _
  · intro _
    apply Stricter.checkWhen fun hflag => h.has hflag
    intro hwit
    exact .followed (.require fun _ => hF.witness hwit) _

omit h in
theorem checkLeftovers_lacking (hF : FlagsConsistent flags)
    (hlacks : hasFlag flags scriptVerifyWitness = false) (witness stack : List Bytes)
    (hadWitness : Bool) : checkLeftovers flags witness stack hadWitness = .ok () := by
  have hclean : hasFlag flags scriptVerifyCleanstack = false := by
    by_contra hhas
    rw [Bool.not_eq_false] at hhas
    rw [(hF.cleanstack hhas).2] at hlacks
    cases hlacks
  simp [checkLeftovers,checkWhen,hlacks,hclean,bind,Except.bind]

theorem verifyScript_restricts (hF : FlagsConsistent flags) (scriptSig scriptPubKey : CScript)
    (witness : List Bytes) :
    h.Restricts fun flags => verifyScript ⟨crypto, checker, flags⟩ scriptSig scriptPubKey witness := by
  refine .bind (h.check _ _) fun _ => ?_
  refine .bind (evalScript_restricts h _ _ _ _ _ _) fun stackCopy => ?_
  refine .bind (evalScript_restricts h _ _ _ _ _ _) fun stack => ?_
  refine .bind_same fun _ => ?_
  by_cases hhas : hasFlag flags scriptVerifyWitness = true
  · refine .bind (verifyPrograms_restricts h _ _ hhas (hF.witness hhas) _ _ _ _ _) fun _ => ?_
    exact checkLeftovers_restricts h hF _ _ _
  · rw [Bool.not_eq_true] at hhas
    apply Admits.stricter
    apply Admits.bind_ok (verifyPrograms_admits h _ _ hhas _ _ _ _ _)
    intro _
    exact ⟨(),checkLeftovers_lacking hF hhas _ _ _⟩
end Verify
section Consensus
variable (env : ValidationEnv) (index : CBlockIndex)
  (hexceptions : ∀ flags, env.scriptFlagExceptions index.phashBlock = some flags →
    FlagSubset flags standardScriptVerifyFlags ∧ FlagsConsistent flags)
include hexceptions

theorem exceptionFlags_standard :
    FlagSubset ((env.scriptFlagExceptions index.phashBlock).getD
        (scriptVerifyP2SH ||| scriptVerifyWitness ||| scriptVerifyTaproot))
      standardScriptVerifyFlags ∧
    FlagsConsistent ((env.scriptFlagExceptions index.phashBlock).getD
      (scriptVerifyP2SH ||| scriptVerifyWitness ||| scriptVerifyTaproot)) := by
  cases hexception : env.scriptFlagExceptions index.phashBlock with
  | none => exact ⟨by decide,by decide⟩
  | some flags => exact hexceptions flags hexception

theorem getBlockScriptFlags_subset : FlagSubset (getBlockScriptFlags env index) standardScriptVerifyFlags := by
  have hbase := (exceptionFlags_standard env index hexceptions).1
  simp only [getBlockScriptFlags]
  iterate 3 apply FlagSubset.or _ (by split <;> decide)
  exact FlagSubset.or hbase (by split <;> decide)

theorem getBlockScriptFlags_consistent : FlagsConsistent (getBlockScriptFlags env index) := by
  have hbase := (exceptionFlags_standard env index hexceptions).2
  simp only [getBlockScriptFlags]
  iterate 3 apply FlagsConsistent.or _ (by split <;> decide)
  exact FlagsConsistent.or hbase (by split <;> decide)
end Consensus

/-- Fewer flags accept whatever more flags accept, as long as both sets meet the assertions of
`VerifyScript`; block and signet flags are among the standard ones unless an exception adds to them. -/
theorem verifyScript_softFork (crypto : ScriptCrypto) (checker : SignatureChecker)
    (scriptSig scriptPubKey : CScript) (witness : List Bytes) :
    (∀ flags flags' : BitVec 32, FlagSubset flags flags' → FlagsConsistent flags → FlagsConsistent flags' →
      verifyScript ⟨crypto, checker, flags'⟩ scriptSig scriptPubKey witness = .ok () →
      verifyScript ⟨crypto, checker, flags⟩ scriptSig scriptPubKey witness = .ok ()) ∧
    (verifyScript ⟨crypto, checker, standardScriptVerifyFlags⟩ scriptSig scriptPubKey witness = .ok () →
      (∀ (env : ValidationEnv) (index : CBlockIndex),
        (∀ flags, env.scriptFlagExceptions index.phashBlock = some flags →
          FlagSubset flags standardScriptVerifyFlags ∧ FlagsConsistent flags) →
        verifyScript ⟨crypto, checker, getBlockScriptFlags env index⟩ scriptSig scriptPubKey
          witness = .ok ()) ∧
      verifyScript ⟨crypto, checker, blockScriptVerifyFlags⟩ scriptSig scriptPubKey witness = .ok ()) := by
  have hsubset : ∀ flags flags', FlagSubset flags flags' → FlagsConsistent flags →
      verifyScript ⟨crypto,checker,flags'⟩ scriptSig scriptPubKey witness = .ok () →
      verifyScript ⟨crypto,checker,flags⟩ scriptSig scriptPubKey witness = .ok () :=
    fun _ _ hsub hF => verifyScript_restricts hsub crypto checker hF scriptSig scriptPubKey witness ()
  constructor
  · exact fun flags flags' hsub hF _ => hsubset flags flags' hsub hF
  · intro hstd
    constructor
    · intro env index hexceptions
      exact hsubset _ _ (getBlockScriptFlags_subset env index hexceptions)
        (getBlockScriptFlags_consistent env index hexceptions) hstd
    · exact hsubset _ _ (by decide) (by decide) hstd

def sampleKeyHash : Bytes := List.replicate 20 7
def samplePubKey : Bytes := 2::List.replicate 32 9
def sampleSignature : Bytes := [0x30, 6, 2, 1, 1, 2, 1, 1, 1]

/-- One key hashes to the program, and its signature is good. -/
def sampleCrypto : ScriptCrypto where
  hash := fun _ vch => if vch = samplePubKey then sampleKeyHash else []
  checkLowS := fun _ => true
  tapleafHash := fun _ script => script
  tapbranchHash := fun left right => left++right
  annexHash := id
  checkTapTweak := fun _ _ _ _ => false

def sampleChecker : SignatureChecker where
  checkECDSASignature := fun vchSig vchPubKey _ _ =>
    vchSig == sampleSignature && vchPubKey == samplePubKey
  checkSchnorrSignature := fun _ _ _ _ => .error .schnorrSig
  checkLockTime := fun _ => false
  checkSequence := fun _ => false

/-- Verified under the standard flags, hence by a block; where witnesses are unknown the output script is
run alone. -/
theorem keyHash_softFork :
    verifyScript ⟨sampleCrypto, sampleChecker, standardScriptVerifyFlags⟩ []
      (0::pushData sampleKeyHash) [sampleSignature, samplePubKey] = .ok () ∧
    verifyScript ⟨sampleCrypto, sampleChecker, getBlockScriptFlags sampleEnv mainGenesis⟩ []
      (0::pushData sampleKeyHash) [sampleSignature, samplePubKey] = .ok () ∧
    verifyScript ⟨sampleCrypto, sampleChecker, mandatoryScriptVerifyFlags⟩ []
      (0::pushData sampleKeyHash) [sampleSignature, samplePubKey] = .ok () := by
  have hstd : verifyScript ⟨sampleCrypto,sampleChecker,standardScriptVerifyFlags⟩ []
      (0::pushData sampleKeyHash) [sampleSignature,samplePubKey] = .ok () := by decide +kernel
  have hsoftFork := verifyScript_softFork sampleCrypto sampleChecker [] (0::pushData sampleKeyHash)
    [sampleSignature,samplePubKey]
  refine ⟨hstd,(hsoftFork.2 hstd).1 sampleEnv mainGenesis ?_,?_⟩
  · intro flags hexception
    cases hexception
  · exact hsoftFork.1 _ _ (by decide) (by decide) (by decide) hstd
end Lcryp
