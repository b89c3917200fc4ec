import Lcryp.Framework.Codec
import Lcryp.Framework.Stricter
import Lcryp.Primitives.Script

/-!
# Opcodes, pushes and script numbers

The operations of a script are read one after the other; a script whose end is malformed ends with a bad
operation.
-/
namespace Lcryp
open Codec
inductive ScriptError
  | unknownError
  | evalFalse
  | opReturn
  | scriptSize
  | pushSize
  | opCount
  | stackSize
  | sigCount
  | pubkeyCount
  | verify
  | equalVerify
  | checkMultiSigVerify
  | checkSigVerify
  | numEqualVerify
  | badOpcode
  | disabledOpcode
  | invalidStackOperation
  | invalidAltstackOperation
  | unbalancedConditional
  | negativeLocktime
  | unsatisfiedLocktime
  | sigHashtype
  | sigDer
  | minimalData
  | sigPushOnly
  | sigHighS
  | sigNullDummy
  | pubkeyType
  | cleanStack
  | minimalIf
  | sigNullFail
  | discourageUpgradableNops
  | discourageUpgradableWitnessProgram
  | discourageUpgradableTaprootVersion
  | discourageOpSuccess
  | discourageUpgradablePubkeyType
  | witnessProgramWrongLength
  | witnessProgramWitnessEmpty
  | witnessProgramMismatch
  | witnessMalleated
  | witnessMalleatedP2SH
  | witnessUnexpected
  | witnessPubkeyType
  | schnorrSigSize
  | schnorrSigHashtype
  | schnorrSig
  | taprootWrongControlSize
  | tapscriptValidationWeight
  | tapscriptCheckMultiSig
  | tapscriptMinimalIf
  | opCodeSeparator
  | sigFindAndDelete
  /-- A failed assertion, which ends the program. -/
  | assertion
deriving DecidableEq

/-- The opcode and its data, with the script behind it. -/
structure ScriptOp where
  opcode : UInt8
  data : Bytes
  after : CScript
deriving DecidableEq

variable (opcode : UInt8)
def readPush (nSize : Nat) (pc : CScript) : Option ScriptOp :=
  if pc.length < nSize then none else some ⟨opcode, pc.take nSize, pc.drop nSize⟩

def getScriptOp : CScript → Option ScriptOp
  | [] => none
  | opcode::pc =>
    if opcode < 0x4c then readPush opcode opcode.toNat pc
    else if opcode = 0x4c then
      if pc.length < 1 then none else readPush opcode (leValue (pc.take 1)) (pc.drop 1)
    else if opcode = 0x4d then
      if pc.length < 2 then none else readPush opcode (leValue (pc.take 2)) (pc.drop 2)
    else if opcode = 0x4e then
      if pc.length < 4 then none else readPush opcode (leValue (pc.take 4)) (pc.drop 4)
    else some ⟨opcode, [], pc⟩

def scriptOpsUpTo : Nat → CScript → List (Option ScriptOp)
  | 0, _ => []
  | _+1, [] => []
  | n+1, script =>
    match getScriptOp script with
    | none => [none]
    | some op => some op::scriptOpsUpTo n op.after

variable (script : CScript)
/-- The operations of a script in order; a malformed end is no operation. -/
def scriptOps : List (Option ScriptOp) := scriptOpsUpTo script.length script

theorem readPush_after {opcode : UInt8} {nSize : Nat} {pc : CScript} {op : ScriptOp}
    (h : readPush opcode nSize pc = some op) : op.opcode = opcode ∧ op.after <:+ pc := by
  unfold readPush at h
  split at h
  · cases h
  · cases h
    exact ⟨rfl,List.drop_suffix _ _⟩

/-- An operation is at least its opcode, and no more than that without data. -/
theorem getScriptOp_after {opcode : UInt8} {pc : CScript} {op : ScriptOp}
    (h : getScriptOp (opcode::pc) = some op) :
    op.opcode = opcode ∧ op.after <:+ pc ∧ (0x4e < opcode → op.after = pc) := by
  have hl : ∀ nSize skip, readPush opcode nSize (pc.drop skip) = some op → opcode ≤ 0x4e →
      op.opcode = opcode ∧ op.after <:+ pc ∧ (0x4e < opcode → op.after = pc) := by
    intro nSize skip hpush hle
    obtain ⟨ho,ha⟩ := readPush_after hpush
    exact ⟨ho,ha.trans (List.drop_suffix _ _),fun hlt => absurd hlt (UInt8.not_lt.mpr hle)⟩
  rw [getScriptOp] at h
  split_ifs at h with h1 h2 _ h3 _ h4
  · exact hl _ 0 h (UInt8.le_of_lt (UInt8.lt_trans h1 (by decide)))
  · exact hl _ _ h (h2 ▸ by decide)
  · exact hl _ _ h (h3 ▸ by decide)
  · exact hl _ _ h (by rw [h4]; decide)
  · cases h
    exact ⟨rfl,List.suffix_rfl,fun _ => rfl⟩

def isOpSuccess : Bool :=
  opcode == 80 || opcode == 98 || (126 ≤ opcode && opcode ≤ 129) ||
    (131 ≤ opcode && opcode ≤ 134) || (137 ≤ opcode && opcode ≤ 138) ||
    (141 ≤ opcode && opcode ≤ 142) || (149 ≤ opcode && opcode ≤ 153) ||
    (187 ≤ opcode && opcode ≤ 254)

def op16 : UInt8 := 0x60

namespace CScript
def isPushOnly : Bool := (scriptOps script).all fun op => op.any fun op => op.opcode ≤ op16
def isPayToScriptHash : Bool :=
  script.length == 23 && script[0]? == some opHash160 && script[1]? == some 0x14 && script[22]? == some opEqual
def decodeOpN : Nat := if opcode = 0 then 0 else opcode.toNat - 0x50

def isWitnessProgram : Option (Nat × Bytes) :=
  match script with
  | first::second::program =>
    if script.length < 4 ∨ script.length > 42 then none
    else if first ≠ 0 ∧ (first < 0x51 ∨ first > op16) then none
    else if second.toNat + 2 = script.length then some (decodeOpN first, program)
    else none
  | _ => none
end CScript

def checkMinimalPush (data : Bytes) (opcode : UInt8) : Bool :=
  match data with
  | [] => opcode == 0
  | [byte] =>
    if 1 ≤ byte && byte ≤ 16 then false else if byte == 0x81 then false else opcode == 1
  | _ =>
    if data.length ≤ 75 then opcode.toNat == data.length
    else if data.length ≤ 255 then opcode == 0x4c
    else if data.length ≤ 65535 then opcode == 0x4d
    else true

/-- `FindAndDelete`'s inner loop: the script behind the copies of `b` it starts with. -/
def skipCopies (b : CScript) : Nat → CScript → CScript × Nat
  | 0, script => (script, 0)
  | n+1, script =>
    if b <+: script then
      let skipped := skipCopies b n (script.drop b.length)
      (skipped.1, skipped.2 + 1)
    else (script, 0)

/-- The outer loop of `FindAndDelete`, operation by operation. -/
def deleteCopies (b : CScript) : Nat → CScript → CScript × Nat
  | 0, script => (script, 0)
  | n+1, script =>
    let skipped := skipCopies b script.length script
    match getScriptOp skipped.1 with
    | none => skipped
    | some op =>
      let rest := deleteCopies b n op.after
      (skipped.1.take (skipped.1.length-op.after.length)++rest.1, skipped.2 + rest.2)

def findAndDelete (script b : CScript) : CScript × Nat :=
  if b = [] then (script, 0)
  else
    let deleted := deleteCopies b (script.length+1) script
    if deleted.2 > 0 then deleted else (script, 0)

def castToBool : Bytes → Bool
  | [] => false
  | [byte] => byte ≠ 0 ∧ byte ≠ 0x80
  | byte::rest => byte ≠ 0 || castToBool rest

variable (vch : Bytes)
/-- `CScriptNum::set_vch`. -/
def scriptNumValue : Int :=
  match vch.getLast? with
  | none => 0
  | some back =>
    if back &&& 0x80 ≠ 0 then -((leValue vch : Int) - 0x80 * 256^(vch.length-1))
    else leValue vch

/-- The encoding is as short as it can be. -/
def scriptNumMinimal : Bool :=
  match vch.getLast? with
  | none => true
  | some back =>
    !(back &&& 0x7f == 0 && (decide (vch.length ≤ 1) || vch.getD (vch.length-2) 0 &&& 0x80 == 0))

/-- The constructor of `CScriptNum`; its exceptions end the script with an unknown error. -/
def scriptNum (fRequireMinimal : Bool) (nMaxNumSize : Nat) : Except ScriptError Int := do
  require (vch.length ≤ nMaxNumSize) .unknownError
  require (fRequireMinimal = true → scriptNumMinimal vch = true) .unknownError
  return scriptNumValue vch

def getint (value : Int) : Int := max (min value (2^31 - 1)) (-2^31)
def vchFalse : Bytes := []
def vchTrue : Bytes := [1]
def vchBool (value : Bool) : Bytes := if value then vchTrue else vchFalse

inductive StackManipulation
  | toAltStack
  | fromAltStack
  | drop2
  | dup2
  | dup3
  | over2
  | rot2
  | swap2
  | ifDup
  | depth
  | drop
  | dup
  | nip
  | over
  | rot
  | swap
  | tuck
  | size
deriving DecidableEq

inductive UnaryOp
  | add1
  | sub1
  | negate
  | abs
  | not
  | notEqual0
deriving DecidableEq

inductive BinaryOp
  | add
  | sub
  | boolAnd
  | boolOr
  | numEqual
  | numEqualVerify
  | numNotEqual
  | lessThan
  | greaterThan
  | lessThanOrEqual
  | greaterThanOrEqual
  | min
  | max
deriving DecidableEq

inductive HashOp
  | ripemd160
  | sha1
  | sha256
  | hash160
  | hash256
deriving DecidableEq

inductive Opcode
  | pushData
  | number (n : Int)
  | nop
  | checkLockTimeVerify
  | checkSequenceVerify
  | upgradableNop
  | conditional (negate : Bool)
  | opElse
  | endIf
  | verify
  | opReturn
  | stack (op : StackManipulation)
  | pick (roll : Bool)
  | equal (verify : Bool)
  | unary (op : UnaryOp)
  | binary (op : BinaryOp)
  | within
  | hash (op : HashOp)
  | codeSeparator
  | checkSig (verify : Bool)
  | checkSigAdd
  | checkMultiSig (verify : Bool)
  | disabled
  | invalid
deriving DecidableEq

def decodeOpcode : Opcode :=
  if opcode ≤ 0x4e then .pushData
  else if opcode = 0x4f ∨ (0x51 ≤ opcode ∧ opcode ≤ op16) then .number ((opcode.toNat : Int) - 0x50)
  else
    match opcode.toNat with
    | 0x61 => .nop
    | 0x63 => .conditional false
    | 0x64 => .conditional true
    | 0x67 => .opElse
    | 0x68 => .endIf
    | 0x69 => .verify
    | 0x6a => .opReturn
    | 0x6b => .stack .toAltStack
    | 0x6c => .stack .fromAltStack
    | 0x6d => .stack .drop2
    | 0x6e => .stack .dup2
    | 0x6f => .stack .dup3
    | 0x70 => .stack .over2
    | 0x71 => .stack .rot2
    | 0x72 => .stack .swap2
    | 0x73 => .stack .ifDup
    | 0x74 => .stack .depth
    | 0x75 => .stack .drop
    | 0x76 => .stack .dup
    | 0x77 => .stack .nip
    | 0x78 => .stack .over
    | 0x79 => .pick false
    | 0x7a => .pick true
    | 0x7b => .stack .rot
    | 0x7c => .stack .swap
    | 0x7d => .stack .tuck
    -- OP_CAT, OP_SUBSTR, OP_LEFT, OP_RIGHT
    | 0x7e | 0x7f | 0x80 | 0x81 => .disabled
    | 0x82 => .stack .size
    -- OP_INVERT, OP_AND, OP_OR, OP_XOR
    | 0x83 | 0x84 | 0x85 | 0x86 => .disabled
    | 0x87 => .equal false
    | 0x88 => .equal true
    | 0x8b => .unary .add1
    | 0x8c => .unary .sub1
    -- OP_2MUL, OP_2DIV
    | 0x8d | 0x8e => .disabled
    | 0x8f => .unary .negate
    | 0x90 => .unary .abs
    | 0x91 => .unary .not
    | 0x92 => .unary .notEqual0
    | 0x93 => .binary .add
    | 0x94 => .binary .sub
    -- OP_MUL, OP_DIV, OP_MOD, OP_LSHIFT, OP_RSHIFT
    | 0x95 | 0x96 | 0x97 | 0x98 | 0x99 => .disabled
    | 0x9a => .binary .boolAnd
    | 0x9b => .binary .boolOr
    | 0x9c => .binary .numEqual
    | 0x9d => .binary .numEqualVerify
    | 0x9e => .binary .numNotEqual
    | 0x9f => .binary .lessThan
    | 0xa0 => .binary .greaterThan
    | 0xa1 => .binary .lessThanOrEqual
    | 0xa2 => .binary .greaterThanOrEqual
    | 0xa3 => .binary .min
    | 0xa4 => .binary .max
    | 0xa5 => .within
    | 0xa6 => .hash .ripemd160
    | 0xa7 => .hash .sha1
    | 0xa8 => .hash .sha256
    | 0xa9 => .hash .hash160
    | 0xaa => .hash .hash256
    | 0xab => .codeSeparator
    | 0xac => .checkSig false
    | 0xad => .checkSig true
    | 0xae => .checkMultiSig false
    | 0xaf => .checkMultiSig true
    | 0xb0 => .upgradableNop
    | 0xb1 => .checkLockTimeVerify
    | 0xb2 => .checkSequenceVerify
    | 0xb3 | 0xb4 | 0xb5 | 0xb6 | 0xb7 | 0xb8 | 0xb9 => .upgradableNop
    | 0xba => .checkSigAdd
    | _ => .invalid
end Lcryp
