import Lcryp.Chain.BlockIndex
import Lcryp.Primitives.Script

/-!
# Transactions and blocks

The transaction id is the hash of a transaction without its witnesses; the hash itself is a parameter of
the validation environment.
-/
namespace Lcryp
def coin : Int := 100000000
def maxMoney : Int := 22024000 * coin
def moneyRange (nValue : Int) : Bool := decide (0 ≤ nValue) && decide (nValue ≤ maxMoney)

@[simp]
theorem moneyRange_iff (nValue : Int) : moneyRange nValue = true ↔ 0 ≤ nValue ∧ nValue ≤ maxMoney := by
  simp [moneyRange]
def hashToString (hash : Uint256) : String :=
  let digits := Nat.toDigits 16 hash.toNat
  String.ofList (List.replicate (64-digits.length) '0'++digits)

structure COutPoint where
  hash : Uint256
  n : Nat
deriving DecidableEq

instance decidableMemOutPoints (a : COutPoint) (l : List COutPoint) : Decidable (a ∈ l) :=
  List.instDecidableMemOfLawfulBEq a l
def nullIndex : Nat := 0xffffffff
def COutPoint.isNull (outpoint : COutPoint) : Bool := outpoint.hash == 0#256 && outpoint.n == nullIndex
def sequenceLocktimeDisableFlag : BitVec 32 := 0x80000000#32
structure CTxIn where
  prevout : COutPoint
  scriptSig : CScript
  nSequence : BitVec 32
  scriptWitness : List (List UInt8)
deriving DecidableEq

structure CTxOut where
  nValue : Int
  scriptPubKey : CScript
deriving DecidableEq

def CTxOut.null : CTxOut := ⟨-1, []⟩
def CTxOut.isNull (out : CTxOut) : Bool := out.nValue == -1
structure CTransaction where
  vin : List CTxIn
  vout : List CTxOut
  nVersion : Int
  nLockTime : BitVec 32
deriving DecidableEq

variable (tx : CTransaction)
namespace CTransaction
def isCoinBase : Bool :=
  match tx.vin with
  | [txin] => txin.prevout.isNull
  | _ => false

def hasWitness : Bool := tx.vin.any fun txin => !txin.scriptWitness.isEmpty

/-- What the transaction id commits to. -/
def stripWitness : CTransaction := { tx with vin := tx.vin.map fun txin => { txin with scriptWitness := [] } }
def prevouts : List COutPoint := tx.vin.map CTxIn.prevout

/-- The loop of `GetValueOut`; `none` is the exception. -/
def sumValueOut : Int → List CTxOut → Option Int
  | nValueOut, [] => some nValueOut
  | nValueOut, out::rest =>
    if !moneyRange out.nValue || !moneyRange (nValueOut+out.nValue) then none
    else sumValueOut (nValueOut+out.nValue) rest

def getValueOut : Option Int := sumValueOut 0 tx.vout

@[simp]
theorem stripWitness_prevouts : tx.stripWitness.prevouts = tx.prevouts := by
  simp [stripWitness,prevouts]

@[simp]
theorem stripWitness_isCoinBase : tx.stripWitness.isCoinBase = tx.isCoinBase := by
  obtain ⟨vin,vout,nVersion,nLockTime⟩ := tx
  match vin with
  | [] => rfl
  | [_] => rfl
  | _::_::_ => rfl
end CTransaction

structure CBlock where
  header : CBlockHeader
  vtx : List CTransaction
deriving DecidableEq

def sizeOfCompactSize (nSize : Nat) : Nat :=
  if nSize < 253 then 1
  else if nSize ≤ 0xffff then 3
  else if nSize ≤ 0xffffffff then 5
  else 9

def vectorSize {α : Type} (size : α → Nat) (items : List α) : Nat :=
  sizeOfCompactSize items.length + (items.map size).sum
def byteVectorSize (bytes : List UInt8) : Nat := sizeOfCompactSize bytes.length + bytes.length
def CTxIn.size (txin : CTxIn) : Nat := 36 + byteVectorSize txin.scriptSig + 4
def CTxOut.size (out : CTxOut) : Nat := 8 + byteVectorSize out.scriptPubKey

/-- `GetSerializeSize` with `SERIALIZE_TRANSACTION_NO_WITNESS`. -/
def CTransaction.strippedSize : Nat := 4 + vectorSize CTxIn.size tx.vin + vectorSize CTxOut.size tx.vout + 4

/-- `GetSerializeSize` with witnesses. -/
def CTransaction.totalSize : Nat :=
  if tx.hasWitness then
    tx.strippedSize + 2 + (tx.vin.map fun txin => vectorSize byteVectorSize txin.scriptWitness).sum
  else tx.strippedSize

variable (block : CBlock)
def CBlock.strippedSize : Nat := 80 + vectorSize CTransaction.strippedSize block.vtx
def CBlock.totalSize : Nat := 80 + vectorSize CTransaction.totalSize block.vtx
def witnessScaleFactor : Nat := 4
def CTransaction.weight : Nat := tx.strippedSize * (witnessScaleFactor-1) + tx.totalSize
def CBlock.weight : Nat := block.strippedSize * (witnessScaleFactor-1) + block.totalSize
end Lcryp
