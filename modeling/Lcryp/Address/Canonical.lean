import Lcryp.Address.KeyIo

/-!
# Addresses are canonical

On the parameters of every network, a destination and its address determine each other.
-/
namespace Lcryp
open Codec Radix List Bech32 Nat
@[simp]
theorem blobBytes_length (n : Nat) (a : BitVec (8*n)) : (blobBytes n a).length = n := leBytes_length _ _

@[simp]
theorem blobOfBytes_blobBytes (n : Nat) (a : BitVec (8*n)) : blobOfBytes n (blobBytes n a) = a := by
  apply BitVec.eq_of_toNat_eq
  have hpow : 256^n = 2^(8*n) := by rw [Nat.pow_mul]
  rw [blobOfBytes,blobBytes,leValue_leBytes,BitVec.toNat_ofNat,hpow,mod_mod]
  exact mod_eq_of_lt a.isLt

theorem blobBytes_blobOfBytes (n : Nat) (bytes : Bytes) (h : bytes.length = n) :
    blobBytes n (blobOfBytes n bytes) = bytes := by
  subst h
  have hpow : 256^bytes.length = 2^(8*bytes.length) := by rw [Nat.pow_mul]
  have hlt := leValue_lt bytes
  rw [hpow] at hlt
  rw [blobBytes,blobOfBytes,BitVec.toNat_ofNat,mod_eq_of_lt hlt,leBytes_leValue]

/-- The leading Base58 digits of 25 bytes that start with a given byte. -/
def leadingDigits (version : UInt8) : List Nat :=
  if version = 0 then [0] else if version = 5 then [2] else if version = 111 then [44, 45]
  else if version = 196 then [1] else []

theorem bytesValue_cons_bounds (b : UInt8) (rest : Bytes) :
    b.toNat * 256^rest.length ≤ bytesValue (b::rest) ∧
      bytesValue (b::rest) < (b.toNat+1) * 256^rest.length := by
  have hr := bytesValue_lt rest
  have hc : bytesValue (b::rest) = b.toNat * 256^rest.length + bytesValue rest := by
    rw [bytesValue,toDigits,map_cons,value_cons,length_map]
    rfl
  rw [add_mul]
  omega

theorem head?_base58Text {b n : Nat} (k low high : Nat) (hlow : b * 256^24 ≤ n) (hh : n < (b+1) * 256^24)
    (hk : low * 58^k ≤ b * 256^24) (hk' : (b+1) * 256^24 ≤ (high+1) * 58^k) (hd : 0 < low ∧ high < 58) :
    ∃ d, (base58Text 0 n).head? = some (base58Char d) ∧ low ≤ d ∧ d < high + 1 := by
  have hpow : 0 < 58^k := by positivity
  refine ⟨n / 58^k,?_,(le_div_iff_mul_le hpow).mpr (hk.trans hlow),
    (div_lt_iff_lt_mul hpow).mpr (hh.trans_le hk')⟩
  have hl : 58^k ≤ n := (Nat.le_mul_of_pos_left _ hd.1).trans (hk.trans hlow)
  have hr : n < 58^(k+1) := by
    rw [pow_succ']
    exact hh.trans_le (hk'.trans (mul_le_mul_right _ hd.2))
  rw [base58Text,replicate_zero,nil_append,head?_map,head?_minimal (by decide) hl hr]
  rfl

theorem head?_encodeBase58 (version : UInt8) (hver : version ∈ [0, 5, 111, 196]) (rest : Bytes)
    (hr : rest.length = 24) :
    ∃ text, encodeBase58 (version::rest) = some text ∧
      ∃ d ∈ leadingDigits version, text.head? = some (base58Char d) := by
  refine ⟨_,encodeBase58_eq (by rw [FitsInt,length_cons,hr]; decide),?_⟩
  obtain ⟨hlow,hhi⟩ := bytesValue_cons_bounds version rest
  rw [hr] at hlow hhi
  simp only [mem_cons,not_mem_nil,or_false] at hver
  rcases hver with rfl | rfl | rfl | rfl
  · refine ⟨0,by decide,?_⟩
    rfl
  · obtain ⟨d,hh,hd,hd'⟩ := head?_base58Text 33 2 2 hlow hhi (by decide +kernel)
      (by decide +kernel) (by decide)
    obtain rfl : d = 2 := by omega
    exact ⟨2,by decide,hh⟩
  · obtain ⟨d,hh,hd,hd'⟩ := head?_base58Text 33 44 45 hlow hhi (by decide +kernel)
      (by decide +kernel) (by decide)
    obtain rfl | rfl : d = 44 ∨ d = 45 := by omega
    · exact ⟨44,by decide,hh⟩
    · exact ⟨45,by decide,hh⟩
  · obtain ⟨d,hh,hd,hd'⟩ := head?_base58Text 34 1 1 hlow hhi (by decide +kernel)
      (by decide +kernel) (by decide)
    obtain rfl : d = 1 := by omega
    exact ⟨1,by decide,hh⟩

/-- What the codec needs of a network: two different version bytes, and an HRP that no Base58 address
with one of them starts with. -/
structure AddressParams.Sound (params : AddressParams) (pubkey script : UInt8) : Prop where
  pubkey_eq : params.pubkeyAddress = [pubkey]
  script_eq : params.scriptAddress = [script]
  versions : pubkey ∈ [0, 5, 111, 196] ∧ script ∈ [0, 5, 111, 196]
  ne : pubkey ≠ script
  hrp_ne : params.bech32HRP ≠ []
  hrp_plain : ∀ c ∈ params.bech32HRP, Bech32.Plain c
  hrp_length : params.bech32HRP.length ≤ 18
  hrp_first : ∀ d ∈ leadingDigits pubkey++leadingDigits script,
    params.bech32HRP.head? ≠ some (Bech32.lowerCase (base58Char d))

theorem forall_plain_of_all {l : Bytes} (h : (l.all fun c => decide (Bech32.Plain c)) = true) :
    ∀ c ∈ l, Bech32.Plain c := by
  simpa using h

theorem networks_sound (params : AddressParams) (h : params ∈ networks) :
    ∃ pubkey script, params.Sound pubkey script := by
  simp only [networks,mem_cons,not_mem_nil,or_false] at h
  rcases h with rfl | h
  · exact ⟨0,5,⟨rfl,rfl,by decide,by decide,by decide,forall_plain_of_all (by decide),by decide,by decide⟩⟩
  · rcases h with rfl | rfl | rfl <;>
      exact ⟨111,196,⟨rfl,rfl,by decide,by decide,by decide,forall_plain_of_all (by decide),
        by decide,by decide⟩⟩

def witnessEncoding (version : Nat) : Bech32Encoding := if version = 0 then .bech32 else .bech32m
theorem witnessEncoding_ne_invalid (version : Nat) : witnessEncoding version ≠ .invalid := by
  unfold witnessEncoding
  split <;> decide

theorem toDigits_map_ofNat {ds : List Nat} (h : ∀ d ∈ ds, d < 256) : toDigits (ds.map UInt8.ofNat) = ds := by
  rw [toDigits,map_map]
  conv_rhs => rw [← map_id ds]
  apply map_congr_left
  intro d hd
  simpa using h d hd
variable {params : AddressParams} {pubkey script : UInt8}
section Witness
variable (hparams : params.Sound pubkey script) (locateErrors : Bytes → String × List Nat)
include hparams

theorem decodeWitness_encodeWitness (version : Nat) (program : Bytes) (hver : version < 32)
    (hpr : program.length ≤ 40) :
    ∃ text, encodeWitness params (witnessEncoding version) version program = some text ∧
      (text.take params.bech32HRP.length).map lowerCase = params.bech32HRP ∧
      decodeWitness locateErrors params text = witnessDestination version program := by
  have hdi : ∀ d ∈ toDigits program, d < 2^8 := fun d hd => toDigits_lt hd
  obtain ⟨groups,fill,hg,hp⟩ := convertBits_pad (by decide : 0 < 5) (toDigits program) hdi
  have hlen := hp.length_eq
  have hf := hp.fill_lt
  rw [toDigits,length_map] at hlen
  have hb := convertBits_of_padded (by decide) (by decide) hp
  obtain ⟨text,ht,hdec⟩ := decode_encode (witnessEncoding version)
    (witnessEncoding_ne_invalid version) params.bech32HRP (version::groups) hparams.hrp_ne
    hparams.hrp_plain (forall_mem_cons.mpr ⟨hver,hp.output_lt⟩)
    (by have := hparams.hrp_length; rw [length_cons]; omega)
  refine ⟨text,by rw [encodeWitness,hg]; exact ht,?_,?_⟩
  · unfold encode at ht
    split at ht
    · cases ht
      rw [append_assoc,take_left]
      conv_rhs => rw [← map_id params.bech32HRP]
      exact map_congr_left fun c hc => lowerCase_of_plain (hparams.hrp_plain c hc)
    · cases ht
  · have hv0 : ¬ (version = 0 ∧ witnessEncoding version ≠ .bech32) := by
      rintro ⟨rfl,h⟩
      exact h rfl
    have hv1 : ¬ (version ≠ 0 ∧ witnessEncoding version ≠ .bech32m) := by
      rintro ⟨hne,h⟩
      exact h (if_neg hne)
    simp only [decodeWitness,hdec,witnessEncoding_ne_invalid,if_false,ne_eq,not_true_eq_false,hb,ofNat_toDigits]
    rw [if_neg hv0,if_neg hv1]

omit hparams in
theorem encodeWitness_of_decodeWitness (str : Bytes) (d : CTxDestination)
    (h : decodeWitness locateErrors params str = .ok d) :
    ∃ version program, witnessDestination version program = .ok d ∧
      encodeWitness params (witnessEncoding version) version program = some (str.map lowerCase) := by
  unfold decodeWitness at h
  dsimp only at h
  split at h
  · cases h
  next hv =>
  split at h
  · cases h
  next version groups hdata =>
  split at h
  · cases h
  next hhrp =>
  split at h
  · cases h
  next hv0 =>
  split at h
  · cases h
  next hv1 =>
  split at h
  · cases h
  next data hconvert =>
  obtain ⟨hlt,he⟩ := encode_decode str hv
  rw [hdata] at hlt he
  rw [forall_mem_cons] at hlt
  rw [not_not] at hhrp
  obtain ⟨fill,hp⟩ := padded_of_convertBits (by decide) (by decide) hlt.2 hconvert
  refine ⟨version,data.map UInt8.ofNat,h,?_⟩
  have hd := toDigits_map_ofNat hp.input_lt
  obtain ⟨output,fill',hout,hpa⟩ := convertBits_pad (by decide : 0 < 5) data hp.input_lt
  have henc : witnessEncoding version = (decode str).encoding := by
    unfold witnessEncoding
    split
    next hz =>
      by_contra hne
      exact hv0 ⟨hz,Ne.symm hne⟩
    next hz =>
      by_contra hne
      exact hv1 ⟨hz,Ne.symm hne⟩
  rw [encodeWitness,hd,hout,hpa.unique (by decide) hp,henc,← hhrp]
  exact he
end Witness

def CTxDestination.Encodable : CTxDestination → Prop
  | .noDestination => False
  | .witnessUnknown version program =>
    1 ≤ version ∧ version ≤ 16 ∧ 2 ≤ program.length ∧ program.length ≤ 40 ∧
      ¬ (version = 1 ∧ program.length = 32)
  | _ => True

theorem encodeDestination_witnessDestination (hash : Bytes → Uint256) (params : AddressParams) (version : Nat)
    (program : Bytes) (d : CTxDestination) (h : witnessDestination version program = .ok d) :
    d.Encodable ∧ encodeDestination hash params d =
      encodeWitness params (witnessEncoding version) version program := by
  unfold witnessDestination at h
  split_ifs at h with h0 h20 h32 htap h16 hsize
  all_goals cases h
  · subst h0
    refine ⟨trivial,?_⟩
    rw [encodeDestination,blobBytes_blobOfBytes 20 program h20]
    rfl
  · subst h0
    refine ⟨trivial,?_⟩
    rw [encodeDestination,blobBytes_blobOfBytes 32 program h32]
    rfl
  · obtain ⟨rfl,hlen⟩ := htap
    refine ⟨trivial,?_⟩
    rw [encodeDestination,blobBytes_blobOfBytes 32 program hlen]
    rfl
  · refine ⟨⟨by omega,by omega,by omega,by omega,htap⟩,?_⟩
    rw [encodeDestination,if_neg (by omega),witnessEncoding,if_neg h0]
section Base58
variable (hparams : params.Sound pubkey script) (hash : Bytes → Uint256)
include hparams

omit hparams in
theorem decodeBase58Data_pubkey (id : Uint160) :
    decodeBase58Data params (params.pubkeyAddress++blobBytes 20 id) = .ok (.pkHash id) := by
  have hlen : (params.pubkeyAddress++blobBytes 20 id).length = 20 + params.pubkeyAddress.length := by
    rw [length_append,blobBytes_length,add_comm]
  rw [decodeBase58Data,if_pos ⟨hlen,prefix_append _ _⟩,drop_left]
  exact congrArg _ (congrArg _ (blobOfBytes_blobBytes 20 id))

theorem decodeBase58Data_script (id : Uint160) :
    decodeBase58Data params (params.scriptAddress++blobBytes 20 id) = .ok (.scriptHash id) := by
  have hlen : (params.scriptAddress++blobBytes 20 id).length = 20 + params.scriptAddress.length := by
    rw [length_append,blobBytes_length,add_comm]
  have hoth : ¬ params.pubkeyAddress <+: params.scriptAddress++blobBytes 20 id := by
    rw [hparams.pubkey_eq,hparams.script_eq]
    intro hpre
    exact hparams.ne (cons_prefix_cons.mp hpre).1
  rw [decodeBase58Data,if_neg (fun h => hoth h.2),if_pos ⟨hlen,prefix_append _ _⟩,drop_left]
  exact congrArg _ (congrArg _ (blobOfBytes_blobBytes 20 id))

theorem not_hrp_of_base58 (version : UInt8) (hver : version = pubkey ∨ version = script) (id : Uint160)
    (text : Bytes) (hte : encodeBase58Check hash ([version]++blobBytes 20 id) = some text) :
    (text.take params.bech32HRP.length).map lowerCase ≠ params.bech32HRP := by
  have hmem : version ∈ [0,5,111,196] := by
    rcases hver with rfl | rfl
    · exact hparams.versions.1
    · exact hparams.versions.2
  obtain ⟨text',ht,d,hd,hh⟩ := head?_encodeBase58 version hmem
    (blobBytes 20 id++base58Checksum hash ([version]++blobBytes 20 id))
    (by rw [length_append,blobBytes_length,base58Checksum_length])
  rw [encodeBase58Check,append_assoc,singleton_append,ht] at hte
  cases hte
  intro hhrp
  have hd' : d ∈ leadingDigits pubkey++leadingDigits script := by
    rw [mem_append]
    rcases hver with rfl | rfl
    · exact .inl hd
    · exact .inr hd
  apply hparams.hrp_first d hd'
  have hpos : params.bech32HRP.length ≠ 0 := by simpa using hparams.hrp_ne
  rw [← hhrp,head?_map,head?_take,if_neg hpos,hh]
  rfl

omit hparams in
theorem encodeDestination_of_decodeBase58Data (data : Bytes) (d : CTxDestination)
    (h : decodeBase58Data params data = .ok d) :
    ((∃ id, d = .pkHash id) ∨ ∃ id, d = .scriptHash id) ∧
      encodeDestination hash params d = encodeBase58Check hash data := by
  unfold decodeBase58Data at h
  dsimp only at h
  split_ifs at h with hp hscr
  · cases h
    refine ⟨.inl ⟨_,rfl⟩,?_⟩
    rw [encodeDestination,blobBytes_blobOfBytes 20 _ (by rw [length_drop]; omega),prefix_iff_eq_append.mp hp.2]
  · cases h
    refine ⟨.inr ⟨_,rfl⟩,?_⟩
    rw [encodeDestination,blobBytes_blobOfBytes 20 _ (by rw [length_drop]; omega),
      prefix_iff_eq_append.mp hscr.2]
end Base58

/-- A text is an address up to what the decoder ignores: spaces around a Base58 address, and letter
case of a witness address. -/
def AddressText (d : CTxDestination) (str text : Bytes) : Prop :=
  match d with
  | .pkHash _ | .scriptHash _ =>
    ∃ before after : Bytes, str = before++text++after ∧ before.all isSpace = true ∧ after.all isSpace = true
  | _ => str.map Bech32.lowerCase = text
section Codec
variable (hparams : params.Sound pubkey script) (hash : Bytes → Uint256)
    (locateErrors : Bytes → String × List Nat)
include hparams

theorem decodeDestination_witness (version : Nat) (program : Bytes) (d : CTxDestination) (hver : version < 32)
    (hp : program.length ≤ 40) (hd : witnessDestination version program = .ok d) :
    ∃ text, encodeDestination hash params d = some text ∧
      decodeDestination hash locateErrors params text = some (.ok d) := by
  obtain ⟨text,ht,hhrp,hdec⟩ := decodeWitness_encodeWitness hparams locateErrors version program hver hp
  refine ⟨text,?_,?_⟩
  · rw [(encodeDestination_witnessDestination hash params version program d hd).2,ht]
  · rw [decodeDestination,if_pos hhrp,hdec,hd]

theorem decodeDestination_base58 (version : UInt8) (hver : version = pubkey ∨ version = script) (id : Uint160)
    (d : CTxDestination) (hd : decodeBase58Data params ([version]++blobBytes 20 id) = .ok d) :
    ∃ text, encodeBase58Check hash ([version]++blobBytes 20 id) = some text ∧
      decodeDestination hash locateErrors params text = some (.ok d) := by
  obtain ⟨text,ht,hdec⟩ := decodeBase58Check_encode hash ([version]++blobBytes 20 id) 21
    (by rw [length_append,blobBytes_length,length_singleton]; decide) (by decide)
  refine ⟨text,ht,?_⟩
  rw [decodeDestination,if_neg (not_hrp_of_base58 hparams hash version hver id text ht),hdec]
  exact congrArg some hd

theorem decodeDestination_encodeDestination (d : CTxDestination) (h : d.Encodable) :
    ∃ text, encodeDestination hash params d = some text ∧
      decodeDestination hash locateErrors params text = some (.ok d) := by
  cases d with
  | noDestination => exact h.elim
  | pkHash id =>
    rw [encodeDestination,hparams.pubkey_eq]
    apply decodeDestination_base58 hparams hash locateErrors pubkey (.inl rfl)
    rw [← hparams.pubkey_eq]
    exact decodeBase58Data_pubkey id
  | scriptHash id =>
    rw [encodeDestination,hparams.script_eq]
    apply decodeDestination_base58 hparams hash locateErrors script (.inr rfl)
    rw [← hparams.script_eq]
    exact decodeBase58Data_script hparams id
  | witnessV0ScriptHash id =>
    apply decodeDestination_witness hparams hash locateErrors 0 (blobBytes 32 id) _ (by decide)
      (by rw [blobBytes_length]; decide)
    simp [witnessDestination]
  | witnessV0KeyHash id =>
    apply decodeDestination_witness hparams hash locateErrors 0 (blobBytes 20 id) _ (by decide)
      (by rw [blobBytes_length]; decide)
    simp [witnessDestination]
  | witnessV1Taproot key =>
    apply decodeDestination_witness hparams hash locateErrors 1 (blobBytes 32 key) _ (by decide)
      (by rw [blobBytes_length]; decide)
    simp [witnessDestination]
  | witnessUnknown version program =>
    obtain ⟨hlow,hh,hs,hl,ht⟩ := h
    apply decodeDestination_witness hparams hash locateErrors version program _ (by omega) hl
    rw [witnessDestination,if_neg (by omega),if_neg ht,if_neg (by omega),if_neg (by omega)]

omit hparams in
theorem encodeDestination_decodeDestination {str : Bytes} {d : CTxDestination}
    (h : decodeDestination hash locateErrors params str = some (.ok d)) :
    d.Encodable ∧ ∃ text, encodeDestination hash params d = some text ∧ AddressText d str text := by
  unfold decodeDestination at h
  split at h
  · obtain ⟨version,program,hde,ht⟩ := encodeWitness_of_decodeWitness locateErrors str d (Option.some.inj h)
    obtain ⟨hen,he⟩ := encodeDestination_witnessDestination hash params version program d hde
    refine ⟨hen,_,he.trans ht,?_⟩
    -- the destination of a version and program is a witness destination
    unfold witnessDestination at hde
    split_ifs at hde
    all_goals
      cases hde
      rfl
  · split at h
    next => cases h
    next data hdata =>
      obtain ⟨text,ht,hstr⟩ := decodeBase58Check_eq_some hash (by decide) hdata
      obtain ⟨hk,he⟩ := encodeDestination_of_decodeBase58Data hash data d (Option.some.inj h)
      rw [ht] at he
      rcases hk with ⟨id,rfl⟩ | ⟨id,rfl⟩ <;> exact ⟨trivial,text,he,hstr⟩
    next =>
      obtain ⟨plain,-,hd⟩ := Option.map_eq_some_iff.mp h
      split at hd <;> cases hd

omit hparams in
theorem decodeDestination_isSome {str : Bytes} (h : FitsInt str) :
    ∃ result, decodeDestination hash locateErrors params str = some result := by
  have hcheck := decodeBase58_isSome (min (21+4) (2^31 - 1)) h
  obtain ⟨plain,hplain⟩ := Option.isSome_iff_exists.mp (decodeBase58_isSome 100 h)
  unfold decodeDestination
  split
  · exact ⟨_,rfl⟩
  · split
    next hnone =>
      rw [decodeBase58Check,Option.map_eq_none_iff] at hnone
      rw [hnone] at hcheck
      cases hcheck
    next => exact ⟨_,rfl⟩
    next => exact ⟨_,by rw [hplain]; rfl⟩
end Codec

/-- Destinations are read back from their addresses, and only addresses are accepted. -/
theorem address_codec (params : AddressParams) (h : params ∈ networks) (hash : Bytes → Uint256)
    (locateErrors : Bytes → String × List Nat) :
    (∀ d : CTxDestination, d.Encodable →
      ∃ text, encodeDestination hash params d = some text ∧
        decodeDestination hash locateErrors params text = some (.ok d)) ∧
    (∀ str, (FitsInt str → ∃ result, decodeDestination hash locateErrors params str = some result) ∧
      ∀ d, decodeDestination hash locateErrors params str = some (.ok d) → d.Encodable ∧
        ∃ text, encodeDestination hash params d = some text ∧ AddressText d str text) ∧
    ∀ d d' : CTxDestination, d.Encodable → d'.Encodable →
      encodeDestination hash params d = encodeDestination hash params d' → d = d' := by
  obtain ⟨pubkey,script,hparams⟩ := networks_sound params h
  have hround := decodeDestination_encodeDestination hparams hash locateErrors
  refine ⟨hround,fun str => ⟨decodeDestination_isSome hash locateErrors,
    fun d => encodeDestination_decodeDestination hash locateErrors⟩,?_⟩
  intro d d' hd hd' hsame
  obtain ⟨text,htext,hdec⟩ := hround d hd
  obtain ⟨text',htext',hdec'⟩ := hround d' hd'
  rw [hsame,htext'] at htext
  cases htext
  rw [hdec] at hdec'
  exact Except.ok.inj (Option.some.inj hdec')

/-- A program of the future on the main network. -/
theorem futureProgram_round_trip :
    ∃ text, encodeDestination (fun _ => 0#256) mainAddressParams (.witnessUnknown 16 [7, 11]) = some text ∧
      decodeDestination (fun _ => 0#256) (fun _ => ("", [])) mainAddressParams text =
        some (.ok (.witnessUnknown 16 [7, 11])) :=
  (address_codec mainAddressParams mem_cons_self (fun _ => 0#256) (fun _ => ("", []))).1 _
    ⟨by decide,by decide,by decide,by decide,by decide⟩
end Lcryp
