import Lcryp.Serialize.Stream

/-!
# The wire format of transactions

A transaction with witnesses is written behind an empty vector of inputs and a flag byte.
-/
namespace Lcryp
open Codec List Decodes CTransaction
def serializeOutPoint (prevout : COutPoint) : Bytes :=
  serializeUint prevout.hash++serializeUint (BitVec.ofNat 32 prevout.n)
def unserializeOutPoint : StreamReader COutPoint := do
  let hash ← unserializeUint 256
  let n ← unserializeUint 32
  return ⟨hash, n.toNat⟩

variable (txin : CTxIn)
def serializeTxIn : Bytes :=
  serializeOutPoint txin.prevout++serializeBytes txin.scriptSig++serializeUint txin.nSequence
def unserializeTxIn : StreamReader CTxIn := do
  let prevout ← unserializeOutPoint
  let scriptSig ← unserializeBytes
  let nSequence ← unserializeUint 32
  return ⟨prevout, scriptSig, nSequence, []⟩

def serializeTxOut (out : CTxOut) : Bytes := serializeInt 64 out.nValue++serializeBytes out.scriptPubKey
def unserializeTxOut : StreamReader CTxOut := do
  let nValue ← unserializeInt 64
  let scriptPubKey ← unserializeBytes
  return ⟨nValue, scriptPubKey⟩

def serializeWitness : Bytes := serializeVector serializeBytes txin.scriptWitness

def unserializeWitnesses : List CTxIn → StreamReader (List CTxIn)
  | [] => return []
  | txin::rest => do
      let stack ← unserializeVector unserializeBytes
      let others ← unserializeWitnesses rest
      return { txin with scriptWitness := stack }::others

variable (fAllowWitness : Bool) (tx : CTransaction)
def serializeTransaction : Bytes :=
  let flags : BitVec 8 := if fAllowWitness && tx.hasWitness then 1 else 0
  serializeInt 32 tx.nVersion ++
    (if flags ≠ 0 then serializeVector serializeTxIn []++serializeUint flags else []) ++
    serializeVector serializeTxIn tx.vin ++
    serializeVector serializeTxOut tx.vout ++
    (if flags &&& 1 ≠ 0 then tx.vin.flatMap serializeWitness else []) ++
    serializeUint tx.nLockTime

/-- The flags, the inputs and the outputs, given the first vector of inputs. -/
def unserializeInOut (vin : List CTxIn) : StreamReader (BitVec 8 × List CTxIn × List CTxOut) :=
  if vin.length = 0 ∧ fAllowWitness then do
    let flags ← unserializeUint 8
    if flags ≠ 0 then do
      let vin ← unserializeVector unserializeTxIn
      let vout ← unserializeVector unserializeTxOut
      return (flags, vin, vout)
    else return (flags, vin, [])
  else do
    let vout ← unserializeVector unserializeTxOut
    return (0, vin, vout)

/-- The witness section, and the flags that are left. -/
def unserializeFlagged (flags : BitVec 8) (vin : List CTxIn) : StreamReader (BitVec 8 × List CTxIn) :=
  if flags &&& 1 ≠ 0 ∧ fAllowWitness then do
    let vin ← unserializeWitnesses vin
    if !vin.any fun txin => !txin.scriptWitness.isEmpty then throw "Superfluous witness record"
    else return (flags ^^^ 1, vin)
  else return (flags, vin)

def unserializeTransaction : StreamReader CTransaction := do
  let nVersion ← unserializeInt 32
  let vin ← unserializeVector unserializeTxIn
  let (flags, vin, vout) ← unserializeInOut fAllowWitness vin
  let (flags, vin) ← unserializeFlagged fAllowWitness flags vin
  if flags ≠ 0 then throw "Unknown transaction optional data"
  else do
    let nLockTime ← unserializeUint 32
    return ⟨vin, vout, nVersion, nLockTime⟩

/-- The fields are in the range of their types. -/
structure CTransaction.Representable : Prop where
  version : -2^31 ≤ tx.nVersion ∧ tx.nVersion < 2^31
  indices : ∀ txin ∈ tx.vin, txin.prevout.n < 2^32
  values : ∀ out ∈ tx.vout, -2^63 ≤ out.nValue ∧ out.nValue < 2^63

structure CTransaction.SizesInRange : Prop where
  inputs : tx.vin.length ≤ maxSize
  outputs : tx.vout.length ≤ maxSize
  scriptSigs : ∀ txin ∈ tx.vin, txin.scriptSig.length ≤ maxSize
  scriptPubKeys : ∀ out ∈ tx.vout, out.scriptPubKey.length ≤ maxSize
  witnesses : ∀ txin ∈ tx.vin, txin.scriptWitness.length ≤ maxSize
  witnessItems : ∀ txin ∈ tx.vin, ∀ item ∈ txin.scriptWitness, item.length ≤ maxSize

theorem unserializeOutPoint_decodes {prevout : COutPoint} (h : prevout.n < 2^32) :
    Decodes unserializeOutPoint (serializeOutPoint prevout) prevout := by
  apply bind (unserializeUint_decodes (by norm_num) prevout.hash)
  apply bind_pure (unserializeUint_decodes (by norm_num) _)
  rw [BitVec.toNat_ofNat,Nat.mod_eq_of_lt h]

def CTxIn.stripWitness : CTxIn := { txin with scriptWitness := [] }
theorem serializeInputs_stripWitness (vin : List CTxIn) :
    serializeVector serializeTxIn (vin.map CTxIn.stripWitness) = serializeVector serializeTxIn vin := by
  simp only [serializeVector,length_map,flatMap_map]
  rfl

theorem unserializeTxIn_decodes {txin : CTxIn} (h : txin.prevout.n < 2^32)
    (hs : txin.scriptSig.length ≤ maxSize) :
    Decodes unserializeTxIn (serializeTxIn txin) txin.stripWitness := by
  apply bind (unserializeOutPoint_decodes h)
  apply bind (unserializeBytes_decodes hs)
  exact bind_pure (unserializeUint_decodes (by norm_num) txin.nSequence) rfl

theorem unserializeTxOut_decodes {out : CTxOut} (h : -2^63 ≤ out.nValue ∧ out.nValue < 2^63)
    (hs : out.scriptPubKey.length ≤ maxSize) : Decodes unserializeTxOut (serializeTxOut out) out := by
  apply Decodes.bind (unserializeInt_decodes (by norm_num) (by norm_num) h.1 h.2)
  exact bind_pure (unserializeBytes_decodes hs) rfl

variable {vin : List CTxIn}
theorem unserializeWitnesses_decodes (hs : ∀ txin ∈ vin, txin.scriptWitness.length ≤ maxSize)
    (hi : ∀ txin ∈ vin, ∀ item ∈ txin.scriptWitness, item.length ≤ maxSize) :
    Decodes (unserializeWitnesses (vin.map CTxIn.stripWitness)) (vin.flatMap serializeWitness) vin := by
  induction vin with
  | nil => exact pure []
  | cons txin rest ih =>
    rw [forall_mem_cons] at hs hi
    apply Decodes.bind (unserializeVector_decodes hs.1 fun item hitem =>
      unserializeBytes_decodes (hi.1 item hitem))
    exact bind_pure (ih hs.2 hi.2) rfl
section RoundTrip
variable {tx : CTransaction} (hfits : tx.Representable) (hsizes : tx.SizesInRange)
include hfits hsizes

theorem unserializeInputs_decodes :
    Decodes (unserializeVector unserializeTxIn) (serializeVector serializeTxIn tx.vin)
      (tx.vin.map CTxIn.stripWitness) := by
  rw [← serializeInputs_stripWitness]
  apply unserializeVector_decodes (by simpa using hsizes.inputs)
  simp only [mem_map,forall_exists_index,and_imp,forall_apply_eq_imp_iff₂]
  exact fun txin htxin =>
    unserializeTxIn_decodes (hfits.indices txin htxin) (hsizes.scriptSigs txin htxin)

theorem unserializeOutputs_decodes :
    Decodes (unserializeVector unserializeTxOut) (serializeVector serializeTxOut tx.vout) tx.vout :=
  unserializeVector_decodes hsizes.outputs fun out hout =>
    unserializeTxOut_decodes (hfits.values out hout) (hsizes.scriptPubKeys out hout)

theorem unserializeTransaction_decodes (hvin : tx.vin ≠ []) :
    Decodes (unserializeTransaction true) (serializeTransaction true tx) tx := by
  have hver : Decodes (unserializeInt 32) (serializeInt 32 tx.nVersion) tx.nVersion :=
    unserializeInt_decodes (by norm_num) (by norm_num) hfits.version.1 hfits.version.2
  have hin := unserializeInputs_decodes hfits hsizes
  have ho := unserializeOutputs_decodes hfits hsizes
  have hl := unserializeUint_decodes (by norm_num) tx.nLockTime
  cases hwit : tx.hasWitness with
  | false =>
    have hs : tx.vin.map CTxIn.stripWitness = tx.vin := by
      simp only [hasWitness,any_eq_false] at hwit
      refine (map_congr_left fun txin htxin => ?_).trans (map_id _)
      have hnil : txin.scriptWitness = [] := by simpa using hwit txin htxin
      simp [CTxIn.stripWitness,← hnil]
    have hi : Decodes (unserializeInOut true (tx.vin.map CTxIn.stripWitness))
        (serializeVector serializeTxOut tx.vout) (0, tx.vin.map CTxIn.stripWitness, tx.vout) := by
      rw [unserializeInOut,if_neg (by simpa using hvin)]
      exact bind_pure ho rfl
    have hb : serializeTransaction true tx = serializeInt 32 tx.nVersion ++
        (serializeVector serializeTxIn tx.vin++(serializeVector serializeTxOut tx.vout ++
          ([]++serializeUint tx.nLockTime))) := by
      simp [serializeTransaction,hwit]
    rw [hb]
    apply bind hver
    apply bind hin
    apply bind hi
    apply bind (pure _)
    rw [hs]
    exact bind_pure hl rfl
  | true =>
    have hm : Decodes (unserializeVector unserializeTxIn) (serializeVector serializeTxIn []) [] :=
      unserializeVector_decodes (by simp) (by simp)
    have hf := unserializeUint_decodes (by norm_num) (1 : BitVec 8)
    have hi : Decodes (unserializeInOut true [])
        (serializeUint (1 : BitVec 8)++(serializeVector serializeTxIn tx.vin ++
          serializeVector serializeTxOut tx.vout))
        (1, tx.vin.map CTxIn.stripWitness, tx.vout) := by
      apply bind hf
      apply bind hin
      exact bind_pure ho rfl
    have hfl : Decodes (unserializeFlagged true 1 (tx.vin.map CTxIn.stripWitness))
        (tx.vin.flatMap serializeWitness) (0, tx.vin) := by
      apply bind_pure (unserializeWitnesses_decodes hsizes.witnesses hsizes.witnessItems)
      rw [hasWitness] at hwit
      rw [if_neg (by simp [hwit])]
      rfl
    have hb : serializeTransaction true tx = serializeInt 32 tx.nVersion ++
        (serializeVector serializeTxIn []++((serializeUint (1 : BitVec 8) ++
          (serializeVector serializeTxIn tx.vin++serializeVector serializeTxOut tx.vout)) ++
          (tx.vin.flatMap serializeWitness++serializeUint tx.nLockTime))) := by
      simp [serializeTransaction,hwit]
    rw [hb]
    apply bind hver
    apply bind hm
    apply bind hi
    apply bind hfl
    exact bind_pure hl rfl
end RoundTrip

theorem unserializeOutPoint_canonical : Canonical unserializeOutPoint serializeOutPoint := by
  intro s prevout rest h
  simp only [unserializeOutPoint,run_bind_eq_ok] at h
  obtain ⟨hash,mid,hh,n,last,hn,rfl,rfl⟩ := h
  rw [unserializeUint_canonical (by norm_num) _ _ _ hh,
    unserializeUint_canonical (by norm_num) _ _ _ hn,serializeOutPoint,append_assoc,
    BitVec.ofNat_toNat,BitVec.setWidth_eq]

variable {rest s : Bytes}
theorem unserializeTxIn_eq_ok {txin : CTxIn} (h : unserializeTxIn.run s = .ok (txin, rest)) :
    s = serializeTxIn txin++rest ∧ txin.stripWitness = txin := by
  simp only [unserializeTxIn,run_bind_eq_ok] at h
  obtain ⟨prevout,mid,hp,scriptSig,mid',hscr,nSequence,last,hs,rfl,rfl⟩ := h
  refine ⟨?_,rfl⟩
  rw [unserializeOutPoint_canonical _ _ _ hp,unserializeBytes_canonical _ _ _ hscr,
    unserializeUint_canonical (by norm_num) _ _ _ hs,serializeTxIn]
  simp

theorem unserializeTxOut_canonical : Canonical unserializeTxOut serializeTxOut := by
  intro s out rest h
  simp only [unserializeTxOut,run_bind_eq_ok] at h
  obtain ⟨nValue,mid,hval,script,last,hscr,rfl,rfl⟩ := h
  rw [unserializeInt_canonical (by norm_num) _ _ _ hval,
    unserializeBytes_canonical _ _ _ hscr,serializeTxOut,append_assoc]

theorem unserializeInputs_eq_ok (h : (unserializeVector unserializeTxIn).run s = .ok (vin, rest)) :
    s = serializeVector serializeTxIn vin++rest ∧ ∀ txin ∈ vin, txin.stripWitness = txin := by
  refine ⟨unserializeVector_canonical (fun _ _ _ h => (unserializeTxIn_eq_ok h).1) _ _ _ h,?_⟩
  simp only [unserializeVector,run_bind_eq_ok] at h
  obtain ⟨size,mid,_,hrun⟩ := h
  exact readMany_forall (fun _ _ _ h => (unserializeTxIn_eq_ok h).2) hrun

variable {vin' : List CTxIn}
theorem unserializeWitnesses_eq_ok (h : (unserializeWitnesses vin).run s = .ok (vin', rest)) :
    s = vin'.flatMap serializeWitness++rest ∧ vin'.map CTxIn.stripWitness = vin.map CTxIn.stripWitness := by
  induction vin generalizing s vin' with
  | nil =>
    simp only [unserializeWitnesses,run_pure_eq_ok] at h
    simp [← h.1,h.2]
  | cons txin others ih =>
    simp only [unserializeWitnesses,run_bind_eq_ok] at h
    obtain ⟨stack,mid,hst,read,last,hr,rfl,rfl⟩ := h
    obtain ⟨rfl,hsr⟩ := ih hr
    have hs := unserializeVector_canonical unserializeBytes_canonical _ _ _ hst
    simp [hs,hsr,serializeWitness,CTxIn.stripWitness]

/-- The two formats: outputs after the inputs read so far, or no inputs and then flags, inputs and outputs.
-/
theorem unserializeInOut_eq_ok {flags : BitVec 8}
    {vout : List CTxOut} (h : (unserializeInOut true vin).run s = .ok ((flags, vin', vout), rest)) :
    (flags = 0 ∧ vin' = vin ∧ s = serializeVector serializeTxOut vout++rest) ∨
      (vin = [] ∧ flags ≠ 0 ∧ (∀ txin ∈ vin', txin.stripWitness = txin) ∧
        s = serializeUint flags++(serializeVector serializeTxIn vin' ++
          (serializeVector serializeTxOut vout++rest))) := by
  unfold unserializeInOut at h
  split at h
  · rename_i hemp
    simp only [run_bind_eq_ok] at h
    obtain ⟨byte,mid,hb,h⟩ := h
    have hs := unserializeUint_canonical (by norm_num) _ _ _ hb
    split at h
    · rename_i hf
      simp only [run_bind_eq_ok] at h
      obtain ⟨read,mid',hr,outs,last,ho,⟨rfl,rfl,rfl⟩,rfl⟩ := h
      obtain ⟨hs',hst⟩ := unserializeInputs_eq_ok hr
      have hs'' := unserializeVector_canonical unserializeTxOut_canonical _ _ _ ho
      exact .inr ⟨length_eq_zero_iff.mp hemp.1,hf,hst,by rw [hs,hs',hs'']⟩
    · rename_i hf
      obtain ⟨⟨rfl,rfl,rfl⟩,rfl⟩ := h
      have hz := not_not.mp hf
      refine .inl ⟨hz,rfl,?_⟩
      -- a zero flag byte is also the size of no outputs
      rw [hs,hz]
      rfl
  · simp only [run_bind_eq_ok] at h
    obtain ⟨outs,mid,ho,⟨rfl,rfl,rfl⟩,rfl⟩ := h
    exact .inl ⟨rfl,rfl,unserializeVector_canonical unserializeTxOut_canonical _ _ _ ho⟩

/-- A witness section is there exactly if the flag says so, and then not all of it is empty. -/
theorem unserializeFlagged_eq_ok {flags left : BitVec 8}
    (h : (unserializeFlagged true flags vin).run s = .ok ((left, vin'), rest)) (hl : left = 0) :
    (flags = 0 ∧ vin' = vin ∧ s = rest) ∨
      (flags = 1 ∧ (vin'.any fun txin => !txin.scriptWitness.isEmpty) = true ∧
        vin'.map CTxIn.stripWitness = vin.map CTxIn.stripWitness ∧
        s = vin'.flatMap serializeWitness++rest) := by
  unfold unserializeFlagged at h
  split at h
  · simp only [run_bind_eq_ok] at h
    obtain ⟨read,mid,hr,h⟩ := h
    obtain ⟨hs,hst⟩ := unserializeWitnesses_eq_ok hr
    split at h
    · cases h
    · rename_i hany
      simp only [run_pure_eq_ok,Prod.mk.injEq] at h
      obtain ⟨⟨hf,rfl⟩,rfl⟩ := h
      rw [hl] at hf
      refine .inr ⟨by simpa using hf,by simpa using hany,hst,hs⟩
  · obtain ⟨⟨rfl,rfl⟩,rfl⟩ := h
    exact .inl ⟨hl,rfl,rfl⟩

theorem unserializeTransaction_canonical :
    Canonical (unserializeTransaction true) (serializeTransaction true) := by
  intro s tx rest h
  simp only [unserializeTransaction,run_bind_eq_ok] at h
  obtain ⟨nVersion,mid,hver,first,mid1,hfst,⟨flags,vin,vout⟩,mid2,hi,⟨left,vin'⟩,mid3,hfl,h⟩ := h
  split at h
  · cases h
  rename_i hleft
  simp only [run_bind_eq_ok] at h
  obtain ⟨nLockTime,last,hl,rfl,rfl⟩ := h
  obtain ⟨hs1,hst⟩ := unserializeInputs_eq_ok hfst
  rw [unserializeInt_canonical (by norm_num) _ _ _ hver,hs1]
  have hs3 := unserializeUint_canonical (by norm_num) _ _ _ hl
  rcases unserializeInOut_eq_ok hi with ⟨hf,rfl,rfl⟩ | ⟨rfl,hf,hs,rfl⟩
  · rcases unserializeFlagged_eq_ok hfl (not_not.mp hleft) with ⟨_,rfl,rfl⟩ | ⟨hone,_⟩
    · have hwit : hasWitness ⟨vin',vout,nVersion,nLockTime⟩ = false := by
        simp only [hasWitness,any_eq_false]
        intro txin htxin
        rw [← hst txin htxin]
        simp [CTxIn.stripWitness]
      simp [serializeTransaction,hwit,hs3]
    · rw [hf] at hone
      cases hone
  · rcases unserializeFlagged_eq_ok hfl (not_not.mp hleft) with ⟨hz,_⟩ |
      ⟨rfl,hwit,hsa,rfl⟩
    · exact absurd hz hf
    · have hvin : serializeVector serializeTxIn vin = serializeVector serializeTxIn vin' := by
        have hmap : vin = vin'.map CTxIn.stripWitness := by
          rw [hsa]
          exact ((map_congr_left hs).trans (map_id _)).symm
        rw [hmap,serializeInputs_stripWitness]
      have hw : hasWitness ⟨vin',vout,nVersion,nLockTime⟩ = true := hwit
      simp [serializeTransaction,hw,hvin,hs3]

/-- Transactions with an input and vectors of admissible size are read back, and what is accepted is what is
written. -/
theorem transaction_codec :
    (∀ tx : CTransaction, tx.Representable → tx.SizesInRange → tx.vin ≠ [] →
      Decodes (unserializeTransaction true) (serializeTransaction true tx) tx) ∧
    Canonical (unserializeTransaction true) (serializeTransaction true) ∧
    ∀ (s s' rest rest' : Bytes) (tx : CTransaction),
      (unserializeTransaction true).run s = .ok (tx, rest) →
      (unserializeTransaction true).run s' = .ok (tx, rest') → ∃ used, s = used++rest ∧ s' = used++rest' := by
  refine ⟨fun tx hfits hsizes hvin => unserializeTransaction_decodes hfits hsizes hvin,
    unserializeTransaction_canonical,?_⟩
  intro s s' rest rest' tx h h'
  exact ⟨serializeTransaction true tx,unserializeTransaction_canonical _ _ _ h,
    unserializeTransaction_canonical _ _ _ h'⟩

def wireTx (scriptSig : CScript) (witness : List Bytes) : CTransaction where
  vin := [⟨⟨5#256, 1⟩, scriptSig, 0#32, witness⟩]
  vout := [⟨50, [0x51]⟩]
  nVersion := 2
  nLockTime := 7#32

theorem wireTx_read_back :
    (serializeTransaction true (wireTx [0x51] [[1, 2], []])).length = 69 ∧
      Decodes (unserializeTransaction true) (serializeTransaction true (wireTx [0x51] [[1, 2], []]))
        (wireTx [0x51] [[1, 2], []]) := by
  refine ⟨by decide +kernel,?_⟩
  apply transaction_codec.1
  · constructor <;> simp [wireTx]
  · constructor <;> simp [wireTx,maxSize]
  · simp [wireTx]

private theorem wireTx_long {script : CScript} (hl : maxSize < script.length) (hlt : script.length < 2^64) :
    (unserializeTransaction true).run (serializeTransaction true (wireTx script [])) =
      .error "ReadCompactSize(): size too large" := by
  have hver : Decodes (unserializeInt 32) (serializeInt 32 2) 2 :=
    unserializeInt_decodes (by norm_num) (by norm_num) (by norm_num) (by norm_num)
  have hcnt : Decodes (readCompactSize true) (writeCompactSize 1) 1 :=
    readCompactSize_decodes (by simp [maxSize])
  have hp : Decodes unserializeOutPoint (serializeOutPoint ⟨5#256,1⟩) ⟨5#256,1⟩ :=
    unserializeOutPoint_decodes (by norm_num)
  obtain ⟨behind,hb⟩ : ∃ behind, serializeTransaction true (wireTx script []) =
      serializeInt 32 2++(writeCompactSize 1++(serializeOutPoint ⟨5#256,1⟩ ++
        (writeCompactSize script.length++behind))) := by
    simp [serializeTransaction,wireTx,hasWitness,serializeVector,serializeTxIn,serializeBytes]
  rw [hb,unserializeTransaction,hver.run_bind]
  apply run_bind_of_error
  rw [unserializeVector,hcnt.run_bind]
  apply run_bind_of_error
  rw [unserializeTxIn,hp.run_bind]
  apply run_bind_of_error
  apply run_bind_of_error
  exact readCompactSize_large hl hlt behind

/-- A script longer than `MAX_SIZE` is written, but its size is refused when it is read. -/
theorem longScript_not_read_back :
    (wireTx (List.replicate (maxSize+1) 0) []).Representable ∧
      (unserializeTransaction true).run
          (serializeTransaction true (wireTx (List.replicate (maxSize+1) 0) [])) =
        .error "ReadCompactSize(): size too large" := by
  refine ⟨?_,?_⟩
  · constructor <;> simp [wireTx]
  · apply wireTx_long
    · simp
    · norm_num [maxSize]
end Lcryp
