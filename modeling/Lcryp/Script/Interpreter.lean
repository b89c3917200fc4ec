import Lcryp.Primitives.Transaction
import Lcryp.Script.Flags
import Lcryp.Script.Opcodes

/-!
# The script interpreter

`EvalScript` over the operations of a script.  Stacks are lists with the top first.
-/
namespace Lcryp
open Codec
inductive SigVersion
  | base
  | witnessV0
  | taproot
  | tapscript
deriving DecidableEq

/-- `ScriptExecutionData`; a member that is not initialised has no value. -/
structure ScriptExecutionData where
  tapleafHash : Option Bytes
  codeseparatorPos : Option Nat
  /-- The annex hash, once it is known whether there is an annex. -/
  annex : Option (Option Bytes)
  validationWeightLeft : Option Int
  outputHash : Option Bytes

def ScriptExecutionData.empty : ScriptExecutionData := ⟨none, none, none, none, none⟩

/-- `BaseSignatureChecker`.  A Schnorr check may cache the hash of the outputs. -/
structure SignatureChecker where
  checkECDSASignature : (vchSig vchPubKey : Bytes) → (scriptCode : CScript) → SigVersion → Bool
  checkSchnorrSignature : (sig pubkey : Bytes) → SigVersion → ScriptExecutionData →
    Except ScriptError ScriptExecutionData
  checkLockTime : Int → Bool
  checkSequence : Int → Bool

/-- Hash functions and curve operations. -/
structure ScriptCrypto where
  hash : HashOp → Bytes → Bytes
  /-- `CPubKey::CheckLowS`. -/
  checkLowS : Bytes → Bool
  /-- `ComputeTapleafHash`. -/
  tapleafHash : UInt8 → CScript → Bytes
  /-- The tagged hash of two nodes. -/
  tapbranchHash : Bytes → Bytes → Bytes
  /-- `(HashWriter{} << annex).GetSHA256()`. -/
  annexHash : Bytes → Bytes
  /-- `XOnlyPubKey::CheckTapTweak` of an output key, an internal key, a root and a parity. -/
  checkTapTweak : Bytes → Bytes → Bytes → Bool → Bool

structure EvalContext where
  crypto : ScriptCrypto
  checker : SignatureChecker
  flags : BitVec 32
  sigversion : SigVersion

structure ConditionStack where
  stackSize : Nat
  firstFalsePos : Option Nat

namespace ConditionStack
def new : ConditionStack := ⟨0, none⟩

variable (vfExec : ConditionStack)
def isEmpty : Bool := vfExec.stackSize == 0
def allTrue : Bool := vfExec.firstFalsePos.isNone
def pushBack (f : Bool) : ConditionStack where
  stackSize := vfExec.stackSize + 1
  firstFalsePos := if vfExec.firstFalsePos.isNone && !f then some vfExec.stackSize else vfExec.firstFalsePos

def popBack : ConditionStack where
  stackSize := vfExec.stackSize - 1
  firstFalsePos := if vfExec.firstFalsePos = some (vfExec.stackSize-1) then none else vfExec.firstFalsePos

def toggleTop : ConditionStack where
  stackSize := vfExec.stackSize
  firstFalsePos :=
    if vfExec.firstFalsePos = none then some (vfExec.stackSize-1)
    else if vfExec.firstFalsePos = some (vfExec.stackSize-1) then none
    else vfExec.firstFalsePos
end ConditionStack

structure EvalState where
  stack : List Bytes
  altstack : List Bytes
  vfExec : ConditionStack
  nOpCount : Nat
  /-- The script from `pbegincodehash` on. -/
  codeHash : CScript
  execdata : ScriptExecutionData

abbrev EvalResult := Except ScriptError EvalState

def maxScriptElementSize : Nat := 520
def maxOpsPerScript : Nat := 201
def maxPubkeysPerMultisig : Nat := 20
def maxStackSize : Nat := 1000
def validationWeightPerSigopPassed : Int := 50

variable (vchPubKey : Bytes)
def isCompressedOrUncompressedPubKey : Bool :=
  if vchPubKey.length < 33 then false
  else if vchPubKey[0]? = some 0x04 then vchPubKey.length == 65
  else if vchPubKey[0]? = some 0x02 ∨ vchPubKey[0]? = some 0x03 then vchPubKey.length == 33
  else false

def isCompressedPubKey : Bool :=
  vchPubKey.length == 33 && (vchPubKey[0]? == some 0x02 || vchPubKey[0]? == some 0x03)

def isValidSignatureEncoding (sig : Bytes) : Bool :=
  let byte := fun i => (sig.getD i 0).toNat
  let lenR := byte 3
  let lenS := byte (5+lenR)
  9 ≤ sig.length && sig.length ≤ 73 && byte 0 == 0x30 && byte 1 == sig.length - 3 &&
    5 + lenR < sig.length && lenR + lenS + 7 == sig.length &&
    byte 2 == 0x02 && lenR != 0 && byte 4 < 0x80 && !(lenR > 1 && byte 4 == 0 && byte 5 < 0x80) &&
    byte (lenR+4) == 0x02 && lenS != 0 && byte (lenR+6) < 0x80 &&
    !(lenS > 1 && byte (lenR+6) == 0 && byte (lenR+7) < 0x80)

variable (crypto : ScriptCrypto)
def isLowDERSignature (vchSig : Bytes) : Except ScriptError Unit := do
  require (isValidSignatureEncoding vchSig = true) .sigDer
  require (crypto.checkLowS vchSig.dropLast = true) .sigHighS

def isDefinedHashtypeSignature (vchSig : Bytes) : Bool :=
  match vchSig.getLast? with
  | none => false
  | some back =>
    let nHashType := back &&& 0x7f
    1 ≤ nHashType && nHashType ≤ 3

variable (flags : BitVec 32)
def checkSignatureEncoding (vchSig : Bytes) : Except ScriptError Unit :=
  if vchSig = [] then .ok ()
  else do
    checkWhen (hasFlag flags (scriptVerifyDersig ||| scriptVerifyLowS ||| scriptVerifyStrictenc))
      (require (isValidSignatureEncoding vchSig = true) .sigDer)
    checkWhen (hasFlag flags scriptVerifyLowS) (isLowDERSignature crypto vchSig)
    checkWhen (hasFlag flags scriptVerifyStrictenc)
      (require (isDefinedHashtypeSignature vchSig = true) .sigHashtype)

variable (sigversion : SigVersion)
def checkPubKeyEncoding : Except ScriptError Unit := do
  checkWhen (hasFlag flags scriptVerifyStrictenc)
    (require (isCompressedOrUncompressedPubKey vchPubKey = true) .pubkeyType)
  checkWhen (hasFlag flags scriptVerifyWitnessPubkeytype)
    (require (sigversion = .witnessV0 → isCompressedPubKey vchPubKey = true) .witnessPubkeyType)

/-- The removal of a signature from the script it signs, in scripts without a witness. -/
def removeSignature (scriptCode : CScript) (vchSig : Bytes) : Except ScriptError CScript :=
  if sigversion = .base then do
    let deleted := findAndDelete scriptCode (pushData vchSig)
    checkWhen (hasFlag flags scriptVerifyConstScriptcode) (require (deleted.2 = 0) .sigFindAndDelete)
    return deleted.1
  else return scriptCode

variable (ctx : EvalContext)
def evalChecksigPreTapscript (codeHash : CScript) (vchSig vchPubKey : Bytes) : Except ScriptError Bool := do
  let scriptCode ← removeSignature ctx.flags ctx.sigversion codeHash vchSig
  checkSignatureEncoding ctx.crypto ctx.flags vchSig
  checkPubKeyEncoding vchPubKey ctx.flags ctx.sigversion
  let fSuccess := ctx.checker.checkECDSASignature vchSig vchPubKey scriptCode ctx.sigversion
  checkWhen (hasFlag ctx.flags scriptVerifyNullfail) (require (fSuccess = true ∨ vchSig = []) .sigNullFail)
  return fSuccess

def evalChecksigTapscript (execdata : ScriptExecutionData) (sig pubkey : Bytes) :
    Except ScriptError (Bool × ScriptExecutionData) := do
  let success := sig ≠ []
  let execdata ← (if success then
      match execdata.validationWeightLeft with
      | none => .error .assertion
      | some weight => do
          require (weight - validationWeightPerSigopPassed ≥ 0) .tapscriptValidationWeight
          return { execdata with
            validationWeightLeft := some (weight-validationWeightPerSigopPassed) }
    else return execdata)
  if pubkey.length = 0 then .error .pubkeyType
  else if pubkey.length = 32 then do
    let execdata ← (if success then
        ctx.checker.checkSchnorrSignature sig pubkey ctx.sigversion execdata
      else return execdata)
    return (decide success, execdata)
  else do
    checkWhen (hasFlag ctx.flags scriptVerifyDiscourageUpgradablePubkeytype)
      (.error .discourageUpgradablePubkeyType)
    return (decide success, execdata)

variable (st : EvalState)
def evalChecksig (sig pubkey : Bytes) : Except ScriptError (Bool × ScriptExecutionData) :=
  match ctx.sigversion with
  | .base | .witnessV0 => do
      let fSuccess ← evalChecksigPreTapscript ctx st.codeHash sig pubkey
      return (fSuccess, st.execdata)
  | .tapscript => evalChecksigTapscript ctx st.execdata sig pubkey
  | .taproot => .error .assertion

/-- The first loop of `OP_CHECKMULTISIG`. -/
def removeSignatures (flags : BitVec 32) (sigversion : SigVersion) :
    CScript → List Bytes → Except ScriptError CScript
  | scriptCode, [] => return scriptCode
  | scriptCode, vchSig::rest => do
      let scriptCode ← removeSignature flags sigversion scriptCode vchSig
      removeSignatures flags sigversion scriptCode rest

/-- The matching loop of `OP_CHECKMULTISIG`: each key is tried for the next signature. -/
def matchSignatures (ctx : EvalContext) (scriptCode : CScript) :
    List Bytes → List Bytes → Except ScriptError Bool
  | [], _ => return true
  | _::_, [] => return false
  | vchSig::sigs, vchPubKey::keys => do
      checkSignatureEncoding ctx.crypto ctx.flags vchSig
      checkPubKeyEncoding vchPubKey ctx.flags ctx.sigversion
      let fOk := ctx.checker.checkECDSASignature vchSig vchPubKey scriptCode ctx.sigversion
      let sigs := if fOk then sigs else vchSig::sigs
      if sigs.length > keys.length then return false
      else matchSignatures ctx scriptCode sigs keys

/-- The loop that takes the arguments of `OP_CHECKMULTISIG` off the stack; the first `ikey2` of them
are not signatures. -/
def popArguments (nullFail : Bool) : Nat → Nat → List Bytes → Except ScriptError (List Bytes)
  | 0, _, stack => return stack
  | _+1, _, [] => .error .unknownError
  | i+1, ikey2, top::stack => do
      checkWhen nullFail (require (ikey2 > 0 ∨ top = []) .sigNullFail)
      popArguments nullFail i (ikey2-1) stack

variable (verify : Bool)
def checkMultiSig (st : EvalState) : EvalResult := do
  let fRequireMinimal := hasFlag ctx.flags scriptVerifyMinimaldata
  require (ctx.sigversion ≠ .tapscript) .tapscriptCheckMultiSig
  require (st.stack.length ≥ 1) .invalidStackOperation
  let keysNum ← scriptNum (st.stack.getD 0 []) fRequireMinimal 4
  require (0 ≤ getint keysNum ∧ getint keysNum ≤ maxPubkeysPerMultisig) .pubkeyCount
  let nKeysCount := (getint keysNum).toNat
  require (st.nOpCount + nKeysCount ≤ maxOpsPerScript) .opCount
  require (st.stack.length ≥ 2 + nKeysCount) .invalidStackOperation
  let sigsNum ← scriptNum (st.stack.getD (1+nKeysCount) []) fRequireMinimal 4
  require (0 ≤ getint sigsNum ∧ getint sigsNum ≤ nKeysCount) .sigCount
  let nSigsCount := (getint sigsNum).toNat
  let i := 3 + nKeysCount + nSigsCount
  require (st.stack.length ≥ i) .invalidStackOperation
  let keys := (st.stack.drop 1).take nKeysCount
  let sigs := (st.stack.drop (2+nKeysCount)).take nSigsCount
  let scriptCode ← removeSignatures ctx.flags ctx.sigversion st.codeHash sigs
  let fSuccess ← matchSignatures ctx scriptCode sigs keys
  let stack ← popArguments (!fSuccess && hasFlag ctx.flags scriptVerifyNullfail) (i-1)
    (nKeysCount+2) st.stack
  match stack with
  | [] => .error .invalidStackOperation
  | dummy::stack => do
      checkWhen (hasFlag ctx.flags scriptVerifyNulldummy) (require (dummy = []) .sigNullDummy)
      let st := { st with nOpCount := st.nOpCount + nKeysCount }
      if verify then do
        require (fSuccess = true) .checkMultiSigVerify
        return { st with stack := stack }
      else return { st with stack := vchBool fSuccess::stack }

def checkLockTimeVerify : Except ScriptError Unit := do
  require (st.stack.length ≥ 1) .invalidStackOperation
  let nLockTime ← scriptNum (st.stack.getD 0 []) (hasFlag ctx.flags scriptVerifyMinimaldata) 5
  require (0 ≤ nLockTime) .negativeLocktime
  require (ctx.checker.checkLockTime nLockTime = true) .unsatisfiedLocktime

def checkSequenceVerify : Except ScriptError Unit := do
  require (st.stack.length ≥ 1) .invalidStackOperation
  let nSequence ← scriptNum (st.stack.getD 0 []) (hasFlag ctx.flags scriptVerifyMinimaldata) 5
  require (0 ≤ nSequence) .negativeLocktime
  require (nSequence.toNat &&& sequenceLocktimeDisableFlag.toNat ≠ 0 ∨
    ctx.checker.checkSequence nSequence = true) .unsatisfiedLocktime

/-- A truth value of one byte at most, and that byte 1. -/
def minimalTruth (vch : Bytes) : Bool := vch == [] || vch == [1]

def openConditional (negate fExec : Bool) (st : EvalState) : EvalResult :=
  if fExec then
    match st.stack with
    | [] => .error .unbalancedConditional
    | vch::stack => do
        require (ctx.sigversion = .tapscript → minimalTruth vch = true) .tapscriptMinimalIf
        checkWhen (hasFlag ctx.flags scriptVerifyMinimalif)
          (require (ctx.sigversion = .witnessV0 → minimalTruth vch = true) .minimalIf)
        return { st with
          stack := stack
          vfExec := st.vfExec.pushBack (castToBool vch != negate) }
  else return { st with vfExec := st.vfExec.pushBack false }

def manipulateStack (op : StackManipulation) : EvalResult :=
  match op, st.stack with
  | .toAltStack, a::rest => return { st with stack := rest, altstack := a::st.altstack }
  | .fromAltStack, _ =>
    match st.altstack with
    | [] => .error .invalidAltstackOperation
    | a::rest => return { st with stack := a::st.stack, altstack := rest }
  | .drop2, _::_::rest => return { st with stack := rest }
  | .dup2, b::a::rest => return { st with stack := b::a::b::a::rest }
  | .dup3, c::b::a::rest => return { st with stack := c::b::a::c::b::a::rest }
  | .over2, d::c::b::a::rest =>
    return { st with stack := b::a::d::c::b::a::rest }
  | .rot2, f::e::d::c::b::a::rest =>
    return { st with stack := b::a::f::e::d::c::rest }
  | .swap2, d::c::b::a::rest => return { st with stack := b::a::d::c::rest }
  | .ifDup, a::rest =>
    return { st with stack := if castToBool a then a::a::rest else a::rest }
  | .depth, stack => return { st with stack := scriptNumSerialize stack.length::stack }
  | .drop, _::rest => return { st with stack := rest }
  | .dup, a::rest => return { st with stack := a::a::rest }
  | .nip, b::_::rest => return { st with stack := b::rest }
  | .over, b::a::rest => return { st with stack := a::b::a::rest }
  | .rot, c::b::a::rest => return { st with stack := a::c::b::rest }
  | .swap, b::a::rest => return { st with stack := a::b::rest }
  | .tuck, b::a::rest => return { st with stack := b::a::b::rest }
  | .size, a::rest => return { st with stack := scriptNumSerialize a.length::a::rest }
  | _, _ => .error .invalidStackOperation

def pickFromStack (fRequireMinimal roll : Bool) (st : EvalState) : EvalResult := do
  require (st.stack.length ≥ 2) .invalidStackOperation
  let n ← scriptNum (st.stack.getD 0 []) fRequireMinimal 4
  let stack := st.stack.drop 1
  require (0 ≤ getint n ∧ getint n < stack.length) .invalidStackOperation
  let vch := stack.getD (getint n).toNat []
  return { st with stack := vch::if roll then stack.eraseIdx (getint n).toNat else stack }

def equalTop (st : EvalState) : EvalResult :=
  match st.stack with
  | vch2::vch1::rest =>
    if verify then do
      require (vch1 = vch2) .equalVerify
      return { st with stack := rest }
    else return { st with stack := vchBool (vch1 == vch2)::rest }
  | _ => .error .invalidStackOperation

def UnaryOp.eval : UnaryOp → Int → Int
  | .add1, bn => bn + 1
  | .sub1, bn => bn - 1
  | .negate, bn => -bn
  | .abs, bn => if bn < 0 then -bn else bn
  | .not, bn => if bn = 0 then 1 else 0
  | .notEqual0, bn => if bn ≠ 0 then 1 else 0

variable (fRequireMinimal : Bool)
def unaryTop (op : UnaryOp) (st : EvalState) : EvalResult := do
  require (st.stack.length ≥ 1) .invalidStackOperation
  let bn ← scriptNum (st.stack.getD 0 []) fRequireMinimal 4
  return { st with stack := scriptNumSerialize (op.eval bn)::st.stack.drop 1 }

def BinaryOp.eval : BinaryOp → Int → Int → Int
  | .add, bn1, bn2 => bn1 + bn2
  | .sub, bn1, bn2 => bn1 - bn2
  | .boolAnd, bn1, bn2 => if bn1 ≠ 0 ∧ bn2 ≠ 0 then 1 else 0
  | .boolOr, bn1, bn2 => if bn1 ≠ 0 ∨ bn2 ≠ 0 then 1 else 0
  | .numEqual, bn1, bn2 => if bn1 = bn2 then 1 else 0
  | .numEqualVerify, bn1, bn2 => if bn1 = bn2 then 1 else 0
  | .numNotEqual, bn1, bn2 => if bn1 ≠ bn2 then 1 else 0
  | .lessThan, bn1, bn2 => if bn1 < bn2 then 1 else 0
  | .greaterThan, bn1, bn2 => if bn1 > bn2 then 1 else 0
  | .lessThanOrEqual, bn1, bn2 => if bn1 ≤ bn2 then 1 else 0
  | .greaterThanOrEqual, bn1, bn2 => if bn1 ≥ bn2 then 1 else 0
  | .min, bn1, bn2 => if bn1 < bn2 then bn1 else bn2
  | .max, bn1, bn2 => if bn1 > bn2 then bn1 else bn2

def binaryTop (op : BinaryOp) (st : EvalState) : EvalResult := do
  require (st.stack.length ≥ 2) .invalidStackOperation
  let bn1 ← scriptNum (st.stack.getD 1 []) fRequireMinimal 4
  let bn2 ← scriptNum (st.stack.getD 0 []) fRequireMinimal 4
  let vch := scriptNumSerialize (op.eval bn1 bn2)
  let rest := st.stack.drop 2
  if op = .numEqualVerify then do
    require (castToBool vch = true) .numEqualVerify
    return { st with stack := rest }
  else return { st with stack := vch::rest }

def withinTop (st : EvalState) : EvalResult := do
  require (st.stack.length ≥ 3) .invalidStackOperation
  let bn1 ← scriptNum (st.stack.getD 2 []) fRequireMinimal 4
  let bn2 ← scriptNum (st.stack.getD 1 []) fRequireMinimal 4
  let bn3 ← scriptNum (st.stack.getD 0 []) fRequireMinimal 4
  return { st with stack := vchBool (decide (bn2 ≤ bn1 ∧ bn1 < bn3))::st.stack.drop 3 }

def checkSig (st : EvalState) : EvalResult :=
  match st.stack with
  | vchPubKey::vchSig::rest => do
      let (fSuccess, execdata) ← evalChecksig ctx st vchSig vchPubKey
      if verify then do
        require (fSuccess = true) .checkSigVerify
        return { st with stack := rest, execdata := execdata }
      else return { st with stack := vchBool fSuccess::rest, execdata := execdata }
  | _ => .error .invalidStackOperation

def checkSigAdd : EvalResult := do
  require (ctx.sigversion ≠ .base ∧ ctx.sigversion ≠ .witnessV0) .badOpcode
  match st.stack with
  | pubkey::numVch::sig::rest => do
      let num ← scriptNum numVch (hasFlag ctx.flags scriptVerifyMinimaldata) 4
      let (success, execdata) ← evalChecksig ctx st sig pubkey
      return { st with
        stack := scriptNumSerialize (num + if success then 1 else 0)::rest
        execdata := execdata }
  | _ => .error .invalidStackOperation

variable (opcodePos : Nat)
def executeOpcode (op : ScriptOp) (fExec : Bool) (st : EvalState) : EvalResult :=
  let fRequireMinimal := hasFlag ctx.flags scriptVerifyMinimaldata
  match decodeOpcode op.opcode with
  | .pushData => do
      checkWhen fRequireMinimal (require (checkMinimalPush op.data op.opcode = true) .minimalData)
      return { st with stack := op.data::st.stack }
  | .number n => return { st with stack := scriptNumSerialize n::st.stack }
  | .nop => return st
  | .checkLockTimeVerify => do
      checkWhen (hasFlag ctx.flags scriptVerifyChecklocktimeverify) (checkLockTimeVerify ctx st)
      return st
  | .checkSequenceVerify => do
      checkWhen (hasFlag ctx.flags scriptVerifyChecksequenceverify) (checkSequenceVerify ctx st)
      return st
  | .upgradableNop => do
      checkWhen (hasFlag ctx.flags scriptVerifyDiscourageUpgradableNops) (.error .discourageUpgradableNops)
      return st
  | .conditional negate => openConditional ctx negate fExec st
  | .opElse => do
      require (st.vfExec.isEmpty = false) .unbalancedConditional
      return { st with vfExec := st.vfExec.toggleTop }
  | .endIf => do
      require (st.vfExec.isEmpty = false) .unbalancedConditional
      return { st with vfExec := st.vfExec.popBack }
  | .verify =>
    match st.stack with
    | [] => .error .invalidStackOperation
    | vch::rest => do
        require (castToBool vch = true) .verify
        return { st with stack := rest }
  | .opReturn => .error .opReturn
  | .stack op => manipulateStack st op
  | .pick roll => pickFromStack fRequireMinimal roll st
  | .equal verify => equalTop verify st
  | .unary op => unaryTop fRequireMinimal op st
  | .binary op => binaryTop fRequireMinimal op st
  | .within => withinTop fRequireMinimal st
  | .hash hashOp =>
    match st.stack with
    | [] => .error .invalidStackOperation
    | vch::rest => return { st with stack := ctx.crypto.hash hashOp vch::rest }
  | .codeSeparator =>
    return { st with
      codeHash := op.after
      execdata := { st.execdata with codeseparatorPos := some opcodePos } }
  | .checkSig verify => checkSig ctx verify st
  | .checkSigAdd => checkSigAdd ctx st
  | .checkMultiSig verify => checkMultiSig ctx verify st
  | .disabled => .error .disabledOpcode
  | .invalid => .error .badOpcode

/-- The opcodes that are looked at in a branch that is not executed, `OP_IF` to `OP_ENDIF`. -/
def isControl (opcode : UInt8) : Bool := 0x63 ≤ opcode && opcode ≤ 0x68

/-- Scripts from before tapscript have limits on their size and number of operations. -/
def SigVersion.isLimited : Bool := sigversion == .base || sigversion == .witnessV0

def evalOp (op : ScriptOp) (st : EvalState) : EvalResult := do
  let fExec := st.vfExec.allTrue
  require (op.data.length ≤ maxScriptElementSize) .pushSize
  let counted := ctx.sigversion.isLimited && decide (op.opcode > op16)
  let nOpCount := if counted then st.nOpCount + 1 else st.nOpCount
  require (counted = true → nOpCount ≤ maxOpsPerScript) .opCount
  require (decodeOpcode op.opcode ≠ .disabled) .disabledOpcode
  checkWhen (hasFlag ctx.flags scriptVerifyConstScriptcode)
    (require (¬ (decodeOpcode op.opcode = .codeSeparator ∧ ctx.sigversion = .base)) .opCodeSeparator)
  let st := { st with nOpCount := nOpCount }
  let st ← (if fExec || isControl op.opcode then executeOpcode ctx opcodePos op fExec st
    else return st)
  require (st.stack.length + st.altstack.length ≤ maxStackSize) .stackSize
  return st

def evalOps (ctx : EvalContext) : Nat → List (Option ScriptOp) → EvalState → EvalResult
  | _, [], st => return st
  | _, none::_, _ => .error .badOpcode
  | opcodePos, some op::rest, st => do
      let st ← evalOp ctx opcodePos op st
      evalOps ctx (opcodePos+1) rest st

def evalScript (stack : List Bytes) (script : CScript)
    (execdata : ScriptExecutionData) : Except ScriptError (List Bytes) := do
  require (ctx.sigversion ≠ .taproot) .assertion
  require (ctx.sigversion.isLimited = true → script.length ≤ maxScriptSize) .scriptSize
  let st ← evalOps ctx 0 (scriptOps script)
    { stack := stack
      altstack := []
      vfExec := .new
      nOpCount := 0
      codeHash := script
      execdata := { execdata with codeseparatorPos := some 0xffffffff } }
  require (st.vfExec.isEmpty = true) .unbalancedConditional
  return st.stack
end Lcryp
