import Lcryp.Framework.Memory
import Lcryp.Serialize.TransactionCodec
import Lcryp.Validation.Checks

/-!
# Compact blocks

`CBlockHeaderAndShortTxIDs` and `PartiallyDownloadedBlock`.  A slot of `txn_available` that is empty is a
null pointer.
-/
namespace Lcryp
abbrev CTransactionRef := Option CTransaction
def CTransaction.isNull (tx : CTransaction) : Bool := tx.vin.isEmpty && tx.vout.isEmpty

/-- What the functions on compact blocks leave to the cryptographic and standard libraries. -/
structure CompactEnv extends ValidationEnv where
  /-- `GetWitnessHash`. -/
  witnessHash : CTransaction → Uint256
  /-- `FillShortTxIDSelector`: both keys from the SHA-256 of header and nonce. -/
  shortTxIDSelector : CBlockHeader → BitVec 64 → BitVec 64 × BitVec 64
  sipHashUint256 : BitVec 64 → BitVec 64 → Uint256 → BitVec 64
  /-- The bucket of the last key holds more than twelve of the keys in the map. -/
  bucketOverfull : List (BitVec 64) → Bool

structure PrefilledTransaction where
  index : BitVec 16
  tx : CTransaction
deriving DecidableEq

structure CBlockHeaderAndShortTxIDs where
  header : CBlockHeader
  nonce : BitVec 64
  shorttxidk0 : BitVec 64
  shorttxidk1 : BitVec 64
  shorttxids : List (BitVec 64)
  prefilledtxn : List PrefilledTransaction
deriving DecidableEq

variable (env : CompactEnv) (cmpctblock : CBlockHeaderAndShortTxIDs)
namespace CBlockHeaderAndShortTxIDs
def blockTxCount : Nat := cmpctblock.shorttxids.length + cmpctblock.prefilledtxn.length
def getShortID (txhash : Uint256) : BitVec 64 :=
  env.sipHashUint256 cmpctblock.shorttxidk0 cmpctblock.shorttxidk1 txhash &&& 0xffffffffffff#64

def withSelector (header : CBlockHeader) (nonce : BitVec 64) (shorttxids : List (BitVec 64))
    (prefilledtxn : List PrefilledTransaction) : CBlockHeaderAndShortTxIDs where
  header := header
  nonce := nonce
  shorttxidk0 := (env.shortTxIDSelector header nonce).1
  shorttxidk1 := (env.shortTxIDSelector header nonce).2
  shorttxids := shorttxids
  prefilledtxn := prefilledtxn

/-- The constructor from a block, which reads the first transaction. -/
def ofBlock (nonce : BitVec 64) (block : CBlock) : Except MemoryFault CBlockHeaderAndShortTxIDs :=
  match block.vtx with
  | [] => .error .outOfRange
  | coinbase::rest =>
    let selector := withSelector env block.header nonce [] []
    .ok { selector with
      shorttxids := rest.map fun tx => selector.getShortID env (env.witnessHash tx)
      prefilledtxn := [⟨0, coinbase⟩] }
end CBlockHeaderAndShortTxIDs

def unserializeBlockHeader : StreamReader CBlockHeader := do
  let nVersion ← unserializeInt 32
  let hashPrevBlock ← unserializeUint 256
  let hashMerkleRoot ← unserializeUint 256
  let nTime ← unserializeUint 32
  let nBits ← unserializeUint 32
  let nNonce ← unserializeUint 32
  return ⟨nVersion, hashPrevBlock, hashMerkleRoot, nTime, nBits, nNonce⟩

/-- `CustomUintFormatter<6>`. -/
def unserializeShortID : StreamReader (BitVec 64) := do
  let n ← serReaddata 6
  return BitVec.ofNat 64 n

def unserializePrefilled : StreamReader PrefilledTransaction := do
  let n ← readCompactSize true
  if n > 65535 then throw "CompactSize exceeds limit of type"
  let tx ← unserializeTransaction true
  return ⟨BitVec.ofNat 16 n, tx⟩

/-- `CBlockHeaderAndShortTxIDs` read from a stream. -/
def unserializeCompactBlock : StreamReader CBlockHeaderAndShortTxIDs := do
  let header ← unserializeBlockHeader
  let nonce ← unserializeUint 64
  let shorttxids ← unserializeVector unserializeShortID
  let prefilledtxn ← unserializeVector unserializePrefilled
  if shorttxids.length + prefilledtxn.length > 65535 then throw "indexes overflowed 16 bits"
  return .withSelector env header nonce shorttxids prefilledtxn

inductive ReadStatus
  | ok
  | invalid
  | failed
  | checkBlockFailed
deriving DecidableEq

structure PartiallyDownloadedBlock where
  header : CBlockHeader
  txnAvailable : List CTransactionRef
  prefilledCount : Nat
  mempoolCount : Nat
  extraCount : Nat
deriving DecidableEq

def PartiallyDownloadedBlock.new : PartiallyDownloadedBlock := ⟨.null, [], 0, 0, 0⟩

/-- `MAX_BLOCK_WEIGHT / MIN_SERIALIZABLE_TRANSACTION_WEIGHT`. -/
def maxCompactTransactions : Nat := 4000000 / (4*10)

/-- The loop over `prefilledtxn` from position `i` on; the flag is false for `READ_STATUS_INVALID`. -/
def placePrefilled (nShort : Nat) : List PrefilledTransaction → Nat → Int → List CTransactionRef →
    Except MemoryFault (Bool × List CTransactionRef)
  | [], _, _, avail => .ok (true, avail)
  | p::rest, i, lastprefilledindex, avail =>
    if p.tx.isNull then .ok (false, avail)
    else
      let lastprefilledindex := lastprefilledindex + (p.index.toNat+1)
      if lastprefilledindex > 65535 then .ok (false, avail)
      else if lastprefilledindex.toNat > nShort + i then .ok (false, avail)
      else do
        let avail ← writeAt avail lastprefilledindex.toNat (some p.tx)
        placePrefilled nShort rest (i+1) lastprefilledindex avail

/-- The inner loop over filled slots.  The fuel is more than there are slots. -/
def skipFilled (avail : List CTransactionRef) (i : Nat) : Nat → Nat → Except MemoryFault Nat
  | 0, _ => .error .outOfRange
  | fuel+1, indexOffset => do
      let slot ← readAt avail (i+indexOffset)
      if slot.isSome then skipFilled avail i fuel ((indexOffset+1) % 65536)
      else return indexOffset

/-- `std::unordered_map<uint64_t, uint16_t>`; the last assignment comes first. -/
abbrev ShortIDMap := List (BitVec 64 × Nat)
def ShortIDMap.assign (m : ShortIDMap) (id : BitVec 64) (slot : Nat) : ShortIDMap :=
  (id, slot)::m.filter (·.1 != id)
def ShortIDMap.slotOf (m : ShortIDMap) (id : BitVec 64) : Option Nat := (m.find? (·.1 == id)).map Prod.snd

/-- The loop over `shorttxids` from position `i` on; the flag is false for `READ_STATUS_FAILED`. -/
def indexShortIDs (env : CompactEnv) (avail : List CTransactionRef) :
    List (BitVec 64) → Nat → Nat → ShortIDMap → Except MemoryFault (Bool × ShortIDMap)
  | [], _, _, m => .ok (true, m)
  | id::rest, i, indexOffset, m => do
      let indexOffset ← skipFilled avail i (avail.length+1) indexOffset
      let m := m.assign id ((i+indexOffset) % 65536)
      if env.bucketOverfull (m.map Prod.fst) then return (false, m)
      else indexShortIDs env avail rest (i+1) indexOffset m

structure SlotState where
  txnAvailable : List CTransactionRef
  haveTxn : List Bool
  mempoolCount : Nat
  extraCount : Nat
deriving DecidableEq

def sizePred (n : Nat) : Nat := (n + (2^64 - 1)) % 2^64

section Loops
variable (m : ShortIDMap)
def poolStep (s : SlotState) (entry : Uint256 × CTransaction) : Except MemoryFault SlotState :=
  match m.slotOf (cmpctblock.getShortID env entry.1) with
  | none => .ok s
  | some k => do
      let have_txn ← readAt s.haveTxn k
      if !have_txn then
        let txnAvailable ← writeAt s.txnAvailable k (some entry.2)
        let haveTxn ← writeAt s.haveTxn k true
        return { s with
          txnAvailable := txnAvailable
          haveTxn := haveTxn
          mempoolCount := s.mempoolCount + 1 }
      else
        let slot ← readAt s.txnAvailable k
        if slot.isSome then
          let txnAvailable ← writeAt s.txnAvailable k none
          return { s with
            txnAvailable := txnAvailable
            mempoolCount := sizePred s.mempoolCount }
        else return s

/-- One entry of the extra list, whose pointer may be null. -/
def extraStep (s : SlotState) (entry : Uint256 × CTransactionRef) : Except MemoryFault SlotState :=
  match m.slotOf (cmpctblock.getShortID env entry.1) with
  | none => .ok s
  | some k => do
      let have_txn ← readAt s.haveTxn k
      if !have_txn then
        let txnAvailable ← writeAt s.txnAvailable k entry.2
        let haveTxn ← writeAt s.haveTxn k true
        return { s with
          txnAvailable := txnAvailable
          haveTxn := haveTxn
          mempoolCount := s.mempoolCount + 1
          extraCount := s.extraCount + 1 }
      else
        match ← readAt s.txnAvailable k with
        | none => return s
        | some tx =>
          match entry.2 with
          | none => throw .nullPointer
          | some extra =>
            if env.witnessHash tx ≠ env.witnessHash extra then
              let txnAvailable ← writeAt s.txnAvailable k none
              return { s with
                txnAvailable := txnAvailable
                mempoolCount := sizePred s.mempoolCount
                extraCount := sizePred s.extraCount }
            else return s

/-- A loop over transactions that stops when every short id has been counted. -/
def fillLoop {α : Type} (step : SlotState → α → Except MemoryFault SlotState) :
    List α → SlotState → Except MemoryFault SlotState
  | [], s => .ok s
  | entry::rest, s => do
      let s ← step s entry
      if s.mempoolCount = m.length then return s else fillLoop step rest s
end Loops

variable (vTxHashes : List (Uint256 × CTransaction))
/-- `InitData` up to the loop over the extra list, called once: the status of an early return, or the map
with the state after the pool. -/
def scanPool :
    Except MemoryFault (Except (ReadStatus × PartiallyDownloadedBlock) (ShortIDMap × SlotState)) := do
  let self := PartiallyDownloadedBlock.new
  if cmpctblock.header.isNull || (cmpctblock.shorttxids.isEmpty && cmpctblock.prefilledtxn.isEmpty) then
    return .error (.invalid, self)
  if cmpctblock.blockTxCount > maxCompactTransactions then
    return .error (.invalid, self)
  let self := { self with header := cmpctblock.header }
  let (placed, avail) ← placePrefilled cmpctblock.shorttxids.length cmpctblock.prefilledtxn 0 (-1)
    (List.replicate cmpctblock.blockTxCount none)
  if !placed then return .error (.invalid, { self with txnAvailable := avail })
  let self := { self with
    txnAvailable := avail
    prefilledCount := cmpctblock.prefilledtxn.length }
  let (indexed, m) ← indexShortIDs env avail cmpctblock.shorttxids 0 0 []
  if !indexed || m.length != cmpctblock.shorttxids.length then return .error (.failed, self)
  let s ← fillLoop m (poolStep env cmpctblock m) vTxHashes
    ⟨avail, List.replicate avail.length false, 0, 0⟩
  return .ok (m, s)

def initData (extraTxn : List (Uint256 × CTransactionRef)) :
    Except MemoryFault (ReadStatus × PartiallyDownloadedBlock) := do
  match ← scanPool env cmpctblock vTxHashes with
  | .error early => return early
  | .ok (m, s) =>
    let s ← fillLoop m (extraStep env cmpctblock m) extraTxn s
    return (.ok,
      { header := cmpctblock.header
        txnAvailable := s.txnAvailable
        prefilledCount := cmpctblock.prefilledtxn.length
        mempoolCount := s.mempoolCount
        extraCount := s.extraCount })

/-- The loop of `FillBlock`: the transactions of the block and the missing ones that are left;
`none` if there are too few. -/
def takeMissing : List CTransactionRef → List CTransaction → Option (List CTransaction × List CTransaction)
  | [], vtxMissing => some ([], vtxMissing)
  | none::_, [] => none
  | none::slots, tx::vtxMissing =>
    (takeMissing slots vtxMissing).map fun r => (tx::r.1, r.2)
  | some tx::slots, vtxMissing =>
    (takeMissing slots vtxMissing).map fun r => (tx::r.1, r.2)

/-- `FillBlock`; the block is given unless the transactions run out on the way. -/
def fillBlock (self : PartiallyDownloadedBlock) (vtxMissing : List CTransaction) :
    Except MemoryFault (ReadStatus × Option CBlock) :=
  if self.header.isNull then .error .assertion
  else
    match takeMissing self.txnAvailable vtxMissing with
    | none => .ok (.invalid, none)
    | some (vtx, left) =>
      let block : CBlock := ⟨self.header, vtx⟩
      if !left.isEmpty then .ok (.invalid, some block)
      else
        match checkBlock env.toValidationEnv block true true with
        | .error invalid =>
          .ok (if invalid.result = .mutated then .failed else .checkBlockFailed, some block)
        | .ok () => .ok (.ok, some block)
end Lcryp
