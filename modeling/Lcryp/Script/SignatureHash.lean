import Lcryp.Framework.Run
import Lcryp.Script.Interpreter
import Lcryp.Serialize.TransactionCodec

/-!
# Signature hashes

`SignatureHash` takes the hashes over all inputs and outputs from a `PrecomputedTransactionData`, if that
has them.
-/
namespace Lcryp
open Codec List
def sighashNone : BitVec 32 := 2
def sighashSingle : BitVec 32 := 3
def sighashAnyoneCanPay : BitVec 32 := 0x80

/-- The output type of a hash type: `nHashType & 0x1f`. -/
def outputType (nHashType : BitVec 32) : BitVec 32 := nHashType &&& 0x1f

/-- Where a failing `GetScriptOp` leaves the iterator. -/
def afterFailure : CScript → CScript
  | [] => []
  | opcode::pc =>
    let nSize := if opcode = 0x4c then 1 else if opcode = 0x4d then 2 else if opcode = 0x4e then 4 else 0
    if pc.length < nSize then pc else pc.drop nSize

/-- The loops of `SerializeScriptCode`: the number of separators, and what is written without them. -/
def withoutSeparators : Nat → CScript → Nat × Bytes
  | 0, _ => (0, [])
  | fuel+1, it =>
    match getScriptOp it with
    | none => (0, it.take (it.length - (afterFailure it).length))
    | some op =>
      let (nCodeSeparators, written) := withoutSeparators fuel op.after
      if op.opcode = 0xab then (nCodeSeparators+1, written)
      else (nCodeSeparators, it.take (it.length-op.after.length)++written)

def serializeScriptCode (scriptCode : CScript) : Bytes :=
  let (nCodeSeparators, written) := withoutSeparators scriptCode.length scriptCode
  writeCompactSize (scriptCode.length-nCodeSeparators)++written

/-- The script without the separators that parsing finds. -/
def stripSeparators : Nat → CScript → CScript
  | 0, it => it
  | fuel+1, it =>
    match getScriptOp it with
    | none => it
    | some op =>
      (if op.opcode = 0xab then [] else it.take (it.length-op.after.length)) ++
        stripSeparators fuel op.after

def unparsed : Nat → CScript → CScript
  | 0, it => it
  | fuel+1, it =>
    match getScriptOp it with
    | none => it
    | some op => unparsed fuel op.after

theorem afterFailure_suffix (it : CScript) : afterFailure it <:+ it := by
  cases it with
  | nil => exact suffix_rfl
  | cons opcode pc =>
    have hcut : ∀ nSize, (if pc.length < nSize then pc else pc.drop nSize) <:+ pc := by
      intro nSize
      split
      · exact suffix_rfl
      · exact drop_suffix _ _
    exact (hcut _).trans (suffix_cons _ _)

/-- All bytes are accounted for: the separators are counted, and what parsing leaves is not written. -/
theorem withoutSeparators_spec {fuel : Nat} {it : CScript} (h : it.length ≤ fuel) :
    (withoutSeparators fuel it).2++afterFailure (unparsed fuel it) = stripSeparators fuel it ∧
      (stripSeparators fuel it).length + (withoutSeparators fuel it).1 = it.length := by
  induction fuel generalizing it with
  | zero =>
    obtain rfl := eq_nil_of_length_eq_zero (Nat.le_zero.mp h)
    exact ⟨rfl,rfl⟩
  | succ fuel ih =>
    rw [withoutSeparators,unparsed,stripSeparators]
    cases hop : getScriptOp it with
    | none => exact ⟨suffix_iff_eq_append.mp (afterFailure_suffix it),rfl⟩
    | some op =>
      cases it with
      | nil => cases hop
      | cons opcode pc =>
        obtain ⟨ho,hsuf,hone⟩ := getScriptOp_after hop
        have hle := hsuf.length_le
        obtain ⟨hwr,hlen⟩ := @ih op.after (by rw [length_cons] at h; omega)
        by_cases hsep : op.opcode = 0xab
        · simp only [if_pos hsep,nil_append,length_cons]
          rw [hone (by rw [← ho,hsep]; decide)] at hlen hwr ⊢
          exact ⟨hwr,by omega⟩
        · simp only [if_neg hsep,append_assoc,hwr,length_append,length_take,length_cons,true_and]
          omega

/-- The size and the bytes that are written are those of the script without its separators exactly if
the iterator is at the end where parsing stops. -/
theorem serializeScriptCode_iff (scriptCode : CScript) :
    serializeScriptCode scriptCode =
        writeCompactSize (stripSeparators scriptCode.length scriptCode).length ++
          stripSeparators scriptCode.length scriptCode ↔
      afterFailure (unparsed scriptCode.length scriptCode) = [] := by
  obtain ⟨hwr,hlen⟩ := withoutSeparators_spec (le_refl scriptCode.length)
  have hsize := Nat.sub_eq_of_eq_add hlen.symm
  rw [serializeScriptCode]
  dsimp only
  rw [hsize,append_cancel_left_eq,← hwr]
  exact self_eq_append_right

/-- A push of five bytes that has two of them: three bytes are announced and one is written. -/
theorem truncatedPush_written : serializeScriptCode [0x05, 1, 2] = [3, 5] ∧
    stripSeparators 3 [0x05, 1, 2] = [0x05, 1, 2] := by
  decide

section Hashes
variable (sha256 : Bytes → Uint256)
def sha256Uint256 (hash : Uint256) : Uint256 := sha256 (serializeUint hash)
def doubleHash (bytes : Bytes) : Uint256 := sha256Uint256 sha256 (sha256 bytes)

variable (txTo : CTransaction)
def getPrevoutsSHA256 : Uint256 := sha256 (txTo.vin.flatMap fun txin => serializeOutPoint txin.prevout)
def getSequencesSHA256 : Uint256 := sha256 (txTo.vin.flatMap fun txin => serializeUint txin.nSequence)
def getOutputsSHA256 : Uint256 := sha256 (txTo.vout.flatMap serializeTxOut)

variable (outputsSpent : List CTxOut)
def getSpentAmountsSHA256 : Uint256 := sha256 (outputsSpent.flatMap fun txout => serializeInt 64 txout.nValue)
def getSpentScriptsSHA256 : Uint256 :=
  sha256 (outputsSpent.flatMap fun txout => serializeBytes txout.scriptPubKey)

structure PrecomputedTransactionData where
  prevoutsSingleHash : Uint256 := 0
  sequencesSingleHash : Uint256 := 0
  outputsSingleHash : Uint256 := 0
  spentAmountsSingleHash : Uint256 := 0
  spentScriptsSingleHash : Uint256 := 0
  bip341TaprootReady : Bool := false
  hashPrevouts : Uint256 := 0
  hashSequence : Uint256 := 0
  hashOutputs : Uint256 := 0
  bip143SegwitReady : Bool := false
  spentOutputs : List CTxOut := []
  spentOutputsReady : Bool := false

/-- The loop of `Init`: whether an input uses BIP 143, and whether one uses BIP 341. -/
def usesLoop (ready : Bool) (spentOutputs : List CTxOut) : Nat → List CTxIn → Bool → Bool → Bool × Bool
  | _, [], segwit, taproot => (segwit, taproot)
  | inpos, txin::rest, segwit, taproot =>
    let scriptPubKey := (spentOutputs.getD inpos .null).scriptPubKey
    if segwit && taproot then (segwit, taproot)
    else if txin.scriptWitness.isEmpty then usesLoop ready spentOutputs (inpos+1) rest segwit taproot
    else if ready && scriptPubKey.length = 34 && scriptPubKey.head? = some 0x51 then
      usesLoop ready spentOutputs (inpos+1) rest segwit true
    else usesLoop ready spentOutputs (inpos+1) rest true taproot

namespace PrecomputedTransactionData
/-- `Init`; nothing if an assertion fails. -/
def init (spentOutputs : List CTxOut) (force : Bool)
    (data : PrecomputedTransactionData) : Option PrecomputedTransactionData :=
  if data.spentOutputsReady || !spentOutputs.isEmpty && spentOutputs.length ≠ txTo.vin.length then none
  else
    let data := { data with spentOutputs, spentOutputsReady := !spentOutputs.isEmpty }
    let uses := usesLoop data.spentOutputsReady spentOutputs 0 txTo.vin force force
    let data := if uses.1 || uses.2 then
        { data with
          prevoutsSingleHash := getPrevoutsSHA256 sha256 txTo
          sequencesSingleHash := getSequencesSHA256 sha256 txTo
          outputsSingleHash := getOutputsSHA256 sha256 txTo }
      else data
    let data := if uses.1 then
        { data with
          hashPrevouts := sha256Uint256 sha256 data.prevoutsSingleHash
          hashSequence := sha256Uint256 sha256 data.sequencesSingleHash
          hashOutputs := sha256Uint256 sha256 data.outputsSingleHash
          bip143SegwitReady := true }
      else data
    some (if uses.2 then
        { data with
          spentAmountsSingleHash := getSpentAmountsSHA256 sha256 spentOutputs
          spentScriptsSingleHash := getSpentScriptsSHA256 sha256 spentOutputs
          bip341TaprootReady := true }
      else data)

def initAll : List (List CTxOut × Bool) → Option PrecomputedTransactionData :=
  Run.run (fun data call => data.init sha256 txTo call.1 call.2) {}

/-- The hashes of BIP 143, once they are there, are those of the transaction. -/
structure RightFor (txTo : CTransaction) (data : PrecomputedTransactionData) : Prop where
  prevouts : data.hashPrevouts = sha256Uint256 sha256 (getPrevoutsSHA256 sha256 txTo)
  sequence : data.hashSequence = sha256Uint256 sha256 (getSequencesSHA256 sha256 txTo)
  outputs : data.hashOutputs = sha256Uint256 sha256 (getOutputsSHA256 sha256 txTo)

variable {sha256} {txTo : CTransaction} {data data' : PrecomputedTransactionData}
theorem init_rightFor {spentOutputs : List CTxOut} {force : Bool}
    (h : data.bip143SegwitReady = true → data.RightFor sha256 txTo)
    (hi : data.init sha256 txTo spentOutputs force = some data') (hr : data'.bip143SegwitReady = true) :
    data'.RightFor sha256 txTo := by
  unfold init at hi
  split at hi
  · cases hi
  cases hi
  generalize usesLoop _ _ _ _ _ _ = uses at hr ⊢
  obtain ⟨segwit,taproot⟩ := uses
  cases segwit with
  | true => cases taproot <;> exact ⟨rfl,rfl,rfl⟩
  | false =>
    -- only the single hashes and the fields of BIP 341 change
    obtain ⟨hp,hs,ho⟩ := h (by cases taproot <;> exact hr)
    cases taproot <;> exact ⟨hp,hs,ho⟩
end PrecomputedTransactionData

variable (scriptCode : CScript) (nIn : Nat) (nHashType : BitVec 32)
/-- `SerializeInput` of an input and its position. -/
def serializeInput (nInput : Nat) (txin : CTxIn) : Bytes :=
  serializeOutPoint txin.prevout ++
    (if nInput ≠ nIn then serializeBytes [] else serializeScriptCode scriptCode) ++
    if nInput ≠ nIn ∧ outputType nHashType ∈ [sighashSingle, sighashNone] then serializeInt 32 0
    else serializeUint txin.nSequence

def serializeOutput (nOutput : Nat) : Bytes :=
  serializeTxOut (if outputType nHashType = sighashSingle ∧ nOutput ≠ nIn then .null
    else txTo.vout.getD nOutput .null)

/-- `CTransactionSignatureSerializer::Serialize` for the input at the given position. -/
def serializeForSignature (txin : CTxIn) (nHashType : BitVec 32) : Bytes :=
  let nOutputs := if outputType nHashType = sighashNone then 0
    else if outputType nHashType = sighashSingle then nIn + 1 else txTo.vout.length
  serializeInt 32 txTo.nVersion ++
    (if nHashType &&& sighashAnyoneCanPay ≠ 0 then
      writeCompactSize 1++serializeInput scriptCode nIn nHashType nIn txin
    else writeCompactSize txTo.vin.length ++
      txTo.vin.zipIdx.flatMap fun input => serializeInput scriptCode nIn nHashType input.2 input.1) ++
    writeCompactSize nOutputs++(List.range nOutputs).flatMap (serializeOutput txTo nIn nHashType) ++
    serializeUint txTo.nLockTime

/-- `SignatureHash`; nothing if its assertion fails. -/
def signatureHash (txTo : CTransaction) (nIn : Nat) (nHashType : BitVec 32)
    (amount : Int) (sigversion : SigVersion) (cache : Option PrecomputedTransactionData) :
    Option Uint256 := do
  let txin ← txTo.vin[nIn]?
  if sigversion = .witnessV0 then
    let ready := cache.filter (·.bip143SegwitReady)
    let allInputs := nHashType &&& sighashAnyoneCanPay = 0
    let allOutputs := outputType nHashType ≠ sighashSingle ∧ outputType nHashType ≠ sighashNone
    let hashPrevouts := if allInputs then
        (ready.map (·.hashPrevouts)).getD (sha256Uint256 sha256 (getPrevoutsSHA256 sha256 txTo))
      else 0
    let hashSequence := if allInputs ∧ allOutputs then
        (ready.map (·.hashSequence)).getD (sha256Uint256 sha256 (getSequencesSHA256 sha256 txTo))
      else 0
    let hashOutputs := if allOutputs then
        (ready.map (·.hashOutputs)).getD (sha256Uint256 sha256 (getOutputsSHA256 sha256 txTo))
      else if outputType nHashType = sighashSingle then
        (txTo.vout[nIn]?.map fun txout => doubleHash sha256 (serializeTxOut txout)).getD 0
      else 0
    return doubleHash sha256 (serializeInt 32 txTo.nVersion++serializeUint hashPrevouts ++
      serializeUint hashSequence++serializeOutPoint txin.prevout++serializeBytes scriptCode ++
      serializeInt 64 amount++serializeUint txin.nSequence++serializeUint hashOutputs ++
      serializeUint txTo.nLockTime++serializeUint nHashType)
  else if outputType nHashType = sighashSingle ∧ txTo.vout.length ≤ nIn then return 1
  else
    return doubleHash sha256 (serializeForSignature txTo scriptCode nIn txin nHashType ++
      serializeUint nHashType)

variable {sha256} {data : PrecomputedTransactionData}
theorem getD_ready {field : PrecomputedTransactionData → Uint256}
    {value : Uint256} (h : data.bip143SegwitReady = true → field data = value) :
    (((some data).filter (·.bip143SegwitReady)).map field).getD value = value := by
  cases hr : data.bip143SegwitReady with
  | true => simp [Option.filter,hr,h hr]
  | false => simp [Option.filter,hr]

/-- Whatever calls of `Init` for the transaction have filled the cache, it does not change a hash. -/
theorem signatureHash_cached {txTo : CTransaction} (inits : List (List CTxOut × Bool))
    (hinits : PrecomputedTransactionData.initAll sha256 txTo inits = some data)
    (scriptCode : CScript) (nIn : Nat) (nHashType : BitVec 32) (amount : Int) (sigversion : SigVersion) :
    signatureHash sha256 scriptCode txTo nIn nHashType amount sigversion (some data) =
      signatureHash sha256 scriptCode txTo nIn nHashType amount sigversion none := by
  have hright : data.bip143SegwitReady = true → data.RightFor sha256 txTo :=
    Run.run_invariant (fun _ _ _ h hinit => PrecomputedTransactionData.init_rightFor h hinit) inits {} data
      nofun hinits
  simp [signatureHash,getD_ready fun h => (hright h).prevouts,
    getD_ready fun h => (hright h).sequence,getD_ready fun h => (hright h).outputs]
end Hashes

def lengthHash (bytes : Bytes) : Uint256 := BitVec.ofNat 256 bytes.length

/-- Two calls of `Init`, the second with the spent output. -/
theorem wireTx_hash_cached :
    ∃ data, PrecomputedTransactionData.initAll lengthHash (wireTx [] [[1]])
        [([], false), ([⟨5, [0]⟩], true)] = some data ∧ data.bip143SegwitReady = true ∧
      signatureHash lengthHash [] (wireTx [] [[1]]) 0 1 5 .witnessV0 (some data) =
        signatureHash lengthHash [] (wireTx [] [[1]]) 0 1 5 .witnessV0 none :=
  ⟨_,rfl,rfl,signatureHash_cached [([], false),([⟨5,[0]⟩], true)] rfl [] 0 1 5 .witnessV0⟩
end Lcryp
