import Lcryp.Address.Bech32
import Lcryp.Address.ConvertBits

/-!
# Addresses

`EncodeDestination` and `DecodeDestination` on the parameters of a network.
-/
namespace Lcryp
open Codec
abbrev Uint160 := BitVec 160

/-- The bytes of a hash or of a key, in memory order. -/
def blobBytes (n : Nat) (a : BitVec (8*n)) : Bytes := leBytes n a.toNat

/-- `std::copy` of bytes into a hash or a key. -/
def blobOfBytes (n : Nat) (bytes : Bytes) : BitVec (8*n) := BitVec.ofNat _ (leValue bytes)

/-- `CTxDestination`.  Of an unknown program only the bytes up to its length are compared. -/
inductive CTxDestination
  | noDestination
  | pkHash (hash : Uint160)
  | scriptHash (hash : Uint160)
  | witnessV0ScriptHash (hash : Uint256)
  | witnessV0KeyHash (hash : Uint160)
  | witnessV1Taproot (key : Uint256)
  | witnessUnknown (version : Nat) (program : Bytes)
deriving DecidableEq

structure AddressParams where
  pubkeyAddress : Bytes
  scriptAddress : Bytes
  bech32HRP : Bytes

def mainAddressParams : AddressParams := ⟨[0], [5], ['b', 'c', 'l', 'c', 'r'].map ascii⟩
def testAddressParams : AddressParams := ⟨[111], [196], ['t', 'b', 'l', 'c', 'r'].map ascii⟩

def signetAddressParams : AddressParams := ⟨[111], [196], ['t', 'b', 'l', 'c', 'r'].map ascii⟩
def regtestAddressParams : AddressParams := ⟨[111], [196], ['b', 'c', 'r', 't', 'l', 'c', 'r'].map ascii⟩
def networks : List AddressParams :=
  [mainAddressParams, testAddressParams, signetAddressParams, regtestAddressParams]

variable (hash : Bytes → Uint256)
section Encoder
variable (params : AddressParams)
/-- The witness addresses: the version and the program in groups of five bits. -/
def encodeWitness (encoding : Bech32Encoding) (version : Nat) (program : Bytes) : Option Bytes :=
  Bech32.encode encoding params.bech32HRP (version::(convertBits 8 5 true (toDigits program)).getD [])

def encodeDestination : CTxDestination → Option Bytes
  | .noDestination => some []
  | .pkHash id => encodeBase58Check hash (params.pubkeyAddress++blobBytes 20 id)
  | .scriptHash id => encodeBase58Check hash (params.scriptAddress++blobBytes 20 id)
  | .witnessV0KeyHash id => encodeWitness params .bech32 0 (blobBytes 20 id)
  | .witnessV0ScriptHash id => encodeWitness params .bech32 0 (blobBytes 32 id)
  | .witnessV1Taproot tap => encodeWitness params .bech32m 1 (blobBytes 32 tap)
  | .witnessUnknown version program =>
    if version < 1 ∨ version > 16 ∨ program.length < 2 ∨ program.length > 40 then some []
    else encodeWitness params .bech32m version program
end Encoder

/-- `CNoDestination` with `error_str` and the error locations. -/
structure DestinationError where
  errorStr : String
  errorLocations : List Nat
deriving DecidableEq

section Decoder
variable (locateErrors : Bytes → String × List Nat) (params : AddressParams)
/-- The branch of `DecodeDestination` for data with a valid Base58 checksum. -/
def decodeBase58Data (data : Bytes) : Except DestinationError CTxDestination :=
  let pubkeyPrefix := params.pubkeyAddress
  let scriptPrefix := params.scriptAddress
  if data.length = 20 + pubkeyPrefix.length ∧ pubkeyPrefix <+: data then
    .ok (.pkHash (blobOfBytes 20 (data.drop pubkeyPrefix.length)))
  else if data.length = 20 + scriptPrefix.length ∧ scriptPrefix <+: data then
    .ok (.scriptHash (blobOfBytes 20 (data.drop scriptPrefix.length)))
  else if (data.length ≥ scriptPrefix.length ∧ scriptPrefix <+: data) ∨
      (data.length ≥ pubkeyPrefix.length ∧ pubkeyPrefix <+: data) then
    .error ⟨"Invalid length for Base58 address", []⟩
  else .error ⟨"Invalid prefix for Base58-encoded address", []⟩

def witnessDestination (version : Nat) (data : Bytes) : Except DestinationError CTxDestination :=
  if version = 0 then
    if data.length = 20 then .ok (.witnessV0KeyHash (blobOfBytes 20 data))
    else if data.length = 32 then .ok (.witnessV0ScriptHash (blobOfBytes 32 data))
    else .error ⟨"Invalid Bech32 v0 address data size", []⟩
  else if version = 1 ∧ data.length = 32 then .ok (.witnessV1Taproot (blobOfBytes 32 data))
  else if version > 16 then .error ⟨"Invalid Bech32 address witness version", []⟩
  else if data.length < 2 ∨ data.length > 40 then
    .error ⟨"Invalid Bech32 address data size", []⟩
  else .ok (.witnessUnknown version data)

/-- The branch of `DecodeDestination` for a text that starts with the network's HRP. -/
def decodeWitness (str : Bytes) : Except DestinationError CTxDestination :=
  let dec := Bech32.decode str
  let located : Except DestinationError CTxDestination := .error ⟨(locateErrors str).1, (locateErrors str).2⟩
  if dec.encoding = .invalid then located
  else
    match dec.data with
    | [] => located
    | version::groups =>
      if dec.hrp ≠ params.bech32HRP then .error ⟨"Invalid prefix for Bech32 address", []⟩
      else if version = 0 ∧ dec.encoding ≠ .bech32 then
        .error ⟨"Version 0 witness address must use Bech32 checksum", []⟩
      else if version ≠ 0 ∧ dec.encoding ≠ .bech32m then
        .error ⟨"Version 1+ witness address must use Bech32m checksum", []⟩
      else
        match convertBits 5 8 false groups with
        | none => located
        | some data => witnessDestination version (data.map UInt8.ofNat)

def decodeDestination (str : Bytes) : Option (Except DestinationError CTxDestination) :=
  if (str.take params.bech32HRP.length).map Bech32.lowerCase = params.bech32HRP then
    some (decodeWitness locateErrors params str)
  else
    match decodeBase58Check hash str 21 with
    | none => none
    | some (some data) => some (decodeBase58Data params data)
    | some none =>
      (decodeBase58 str 100).map fun result =>
        if result.isNone then .error ⟨"Not a valid Bech32 or Base58 encoding", []⟩
        else .error ⟨"Invalid checksum or length of Base58 address", []⟩
end Decoder
end Lcryp
