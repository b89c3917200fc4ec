import Lcryp.Script.Interpreter

/-!
# Verifying scripts

`VerifyScript` runs the scripts of an input and of the output it spends, then the script or witness
program that the output commits to.
-/
namespace Lcryp
open Codec
def annexTag : UInt8 := 0x50
def taprootLeafMask : UInt8 := 0xfe
def taprootLeafTapscript : UInt8 := 0xc0
def taprootControlBaseSize : Nat := 33
def taprootControlNodeSize : Nat := 32
def taprootControlMaxSize : Nat := taprootControlBaseSize + taprootControlNodeSize * 128
def validationWeightOffset : Int := 50

/-- What `VerifyScript` and the functions below it are given besides scripts. -/
structure VerifyContext where
  crypto : ScriptCrypto
  checker : SignatureChecker
  flags : BitVec 32

variable (ctx : VerifyContext)
def VerifyContext.eval (sigversion : SigVersion) : EvalContext :=
  ⟨ctx.crypto, ctx.checker, ctx.flags, sigversion⟩

def scanOpSuccess (flags : BitVec 32) : List (Option ScriptOp) → Except ScriptError Bool
  | [] => return false
  | none::_ => .error .badOpcode
  | some op::rest =>
    if isOpSuccess op.opcode then do
      checkWhen (hasFlag flags scriptVerifyDiscourageOpSuccess) (.error .discourageOpSuccess)
      return true
    else scanOpSuccess flags rest

variable (stack : List Bytes)
def executeWitnessScript (execScript : CScript)
    (sigversion : SigVersion) (execdata : ScriptExecutionData) : Except ScriptError Unit := do
  let opSuccess ← (if sigversion = .tapscript then scanOpSuccess ctx.flags (scriptOps execScript)
    else return false)
  if opSuccess then return ()
  else do
    require (sigversion = .tapscript → stack.length ≤ maxStackSize) .stackSize
    require (∀ elem ∈ stack, elem.length ≤ maxScriptElementSize) .pushSize
    let stack ← evalScript (ctx.eval sigversion) stack execScript execdata
    match stack with
    | [top] => require (castToBool top = true) .evalFalse
    | _ => .error .cleanStack

/-- `std::lexicographical_compare`. -/
def lexLess : Bytes → Bytes → Bool
  | _, [] => false
  | [], _::_ => true
  | a::as, b::bs => a < b || (a == b && lexLess as bs)

/-- The loop of `ComputeTaprootMerkleRoot` over the nodes of the path. -/
def taprootMerkleRoot (crypto : ScriptCrypto) : Nat → Bytes → Bytes → Bytes
  | 0, _, k => k
  | n+1, path, k =>
    let node := path.take taprootControlNodeSize
    taprootMerkleRoot crypto n (path.drop taprootControlNodeSize)
      (if lexLess k node then crypto.tapbranchHash k node else crypto.tapbranchHash node k)

variable (crypto : ScriptCrypto)
def verifyTaprootCommitment (control program tapleafHash : Bytes) : Bool :=
  let path := control.drop taprootControlBaseSize
  let merkleRoot := taprootMerkleRoot crypto (path.length/taprootControlNodeSize) path tapleafHash
  crypto.checkTapTweak program ((control.drop 1).take 32) merkleRoot (control.getD 0 0 &&& 1 == 1)

/-- The annex of a witness, which is its last element if it starts with the tag, and the rest.  The
stack has its last element first. -/
def splitAnnex (stack : List Bytes) : Option Bytes × List Bytes :=
  match stack with
  | annex::rest =>
    if rest ≠ [] ∧ annex.head? = some annexTag then (some (crypto.annexHash annex), rest)
    else (none, stack)
  | [] => (none, stack)

variable (witness : List Bytes)
def verifyTaproot (program : Bytes) : Except ScriptError Unit := do
  require (witness ≠ []) .witnessProgramWitnessEmpty
  let (annex, stack) := splitAnnex ctx.crypto witness.reverse
  let execdata := { ScriptExecutionData.empty with annex := some annex }
  match stack with
  | control::script::stack => do
      require (taprootControlBaseSize ≤ control.length ∧ control.length ≤ taprootControlMaxSize ∧
        (control.length-taprootControlBaseSize) % taprootControlNodeSize = 0)
        .taprootWrongControlSize
      let leafVersion := control.getD 0 0 &&& taprootLeafMask
      let tapleafHash := ctx.crypto.tapleafHash leafVersion script
      require (verifyTaprootCommitment ctx.crypto control program tapleafHash = true)
        .witnessProgramMismatch
      let execdata := { execdata with tapleafHash := some tapleafHash }
      if leafVersion = taprootLeafTapscript then
        executeWitnessScript ctx stack script .tapscript { execdata with
          validationWeightLeft := some (vectorSize byteVectorSize witness + validationWeightOffset) }
      else
        checkWhen (hasFlag ctx.flags scriptVerifyDiscourageUpgradableTaprootVersion)
          (.error .discourageUpgradableTaprootVersion)
  | _ => do
      let _ ← ctx.checker.checkSchnorrSignature (stack.headD []) program .taproot execdata
      return ()

def verifyWitnessProgram (witversion : Nat) (program : Bytes) (isP2sh : Bool) : Except ScriptError Unit :=
  if witversion = 0 then
    if program.length = 32 then
      match witness.reverse with
      | [] => .error .witnessProgramWitnessEmpty
      | script::stack => do
          require (ctx.crypto.hash .sha256 script = program) .witnessProgramMismatch
          executeWitnessScript ctx stack script .witnessV0 .empty
    else if program.length = 20 then do
      require (witness.length = 2) .witnessProgramMismatch
      executeWitnessScript ctx witness.reverse
        ([opDup, opHash160]++pushData program++[opEqualVerify, opCheckSig]) .witnessV0 .empty
    else .error .witnessProgramWrongLength
  else if witversion = 1 ∧ program.length = 32 ∧ isP2sh = false then
    checkWhen (hasFlag ctx.flags scriptVerifyTaproot) (verifyTaproot ctx witness program)
  else
    checkWhen (hasFlag ctx.flags scriptVerifyDiscourageUpgradableWitnessProgram)
      (.error .discourageUpgradableWitnessProgram)

def requireTrue : Except ScriptError Unit :=
  match stack with
  | [] => .error .evalFalse
  | top::_ => require (castToBool top = true) .evalFalse

def verifyWitness (script : CScript) (isP2sh : Bool)
    (malleated : Except ScriptError Unit) : Except ScriptError Bool :=
  if hasFlag ctx.flags scriptVerifyWitness then
    match script.isWitnessProgram with
    | none => return false
    | some (witnessversion, witnessprogram) => do
        malleated
        verifyWitnessProgram ctx witness witnessversion witnessprogram isP2sh
        return true
  else return false

/-- `stack.resize(1)` of a stack that is not empty, for a witness program. -/
def resizeForWitness (hadWitness : Bool) (stack : List Bytes) : List Bytes :=
  if hadWitness then [stack.getLastD []] else stack

def verifyScriptHash (scriptSig : CScript) (witness : List Bytes)
    (stackCopy : List Bytes) : Except ScriptError (List Bytes × Bool) := do
  require (scriptSig.isPushOnly = true) .sigPushOnly
  match stackCopy with
  | [] => .error .assertion
  | pubKey2::stack => do
      let stack ← evalScript (ctx.eval .base) stack pubKey2 .empty
      requireTrue stack
      let hadWitness ← verifyWitness ctx witness pubKey2 true
        (require (scriptSig = pushData pubKey2) .witnessMalleatedP2SH)
      return (resizeForWitness hadWitness stack, hadWitness)

variable (scriptSig scriptPubKey : CScript)
/-- The programs that the output script commits to: the stack they leave and whether the witness was
for one of them. -/
def verifyPrograms (witness : List Bytes)
    (stackCopy stack : List Bytes) : Except ScriptError (List Bytes × Bool) := do
  let hadWitness ← verifyWitness ctx witness scriptPubKey false
    (require (scriptSig = []) .witnessMalleated)
  if hasFlag ctx.flags scriptVerifyP2SH && scriptPubKey.isPayToScriptHash then do
    let (stack, hadWitness2) ← verifyScriptHash ctx scriptSig witness stackCopy
    return (stack, hadWitness || hadWitness2)
  else return (resizeForWitness hadWitness stack, hadWitness)

def checkLeftovers (flags : BitVec 32) (witness stack : List Bytes) (hadWitness : Bool) :
    Except ScriptError Unit := do
  checkWhen (hasFlag flags scriptVerifyCleanstack) do
    require (hasFlag flags scriptVerifyP2SH = true) .assertion
    require (hasFlag flags scriptVerifyWitness = true) .assertion
    require (stack.length = 1) .cleanStack
  checkWhen (hasFlag flags scriptVerifyWitness) do
    require (hasFlag flags scriptVerifyP2SH = true) .assertion
    require (hadWitness = true ∨ witness = []) .witnessUnexpected

def verifyScript (witness : List Bytes) : Except ScriptError Unit := do
  checkWhen (hasFlag ctx.flags scriptVerifySigpushonly) (require (scriptSig.isPushOnly = true) .sigPushOnly)
  let stackCopy ← evalScript (ctx.eval .base) [] scriptSig .empty
  let stack ← evalScript (ctx.eval .base) stackCopy scriptPubKey .empty
  requireTrue stack
  let (stack, hadWitness) ← verifyPrograms ctx scriptSig scriptPubKey witness stackCopy stack
  checkLeftovers ctx.flags witness stack hadWitness
end Lcryp
