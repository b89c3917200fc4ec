import Lcryp.Framework.LeadingBytes
import Lcryp.Framework.Loop

/-!
# The map of addresses to autonomous systems

`util/asmap.cpp`: the check of a map and the interpreter that runs it.
-/
namespace Lcryp.Asmap
open LeadingBytes Option Nat List
variable (asmap ip : List Bool)
def readBits : Nat → Nat → Nat → Option (Nat × Nat)
  | 0, val, pos => some (val, pos)
  | b+1, val, pos => do readBits b (val + (← asmap[pos]?).toNat <<< b) (pos+1)

/-- `INVALID` is `none`: no caller reads on after it, and the values below stay under it. -/
def decodeBits : List Nat → Nat → Nat → Option (Nat × Nat)
  | [], _, _ => none
  | [size], val, pos => readBits asmap size val pos
  | size::sizes, val, pos => do
    if ← asmap[pos]? then decodeBits sizes (val + 1 <<< size) (pos+1)
    else readBits asmap size val (pos+1)

inductive Instruction
  | RETURN
  | JUMP
  | MATCH
  | DEFAULT
deriving DecidableEq

def Instruction.ofValue : Nat → Instruction
  | 0 => RETURN
  | 1 => JUMP
  | 2 => MATCH
  | _ => DEFAULT

def decodeType (pos : Nat) : Option (Instruction × Nat) :=
  (decodeBits asmap [0, 0, 1] 0 pos).map (Prod.map .ofValue id)
def decodeASN : Nat → Option (Nat × Nat) := decodeBits asmap (.range' 15 10) 1
def decodeMatch : Nat → Option (Nat × Nat) := decodeBits asmap (.range' 1 8) 2
def decodeJump : Nat → Option (Nat × Nat) := decodeBits asmap (.range' 5 26) 17

/-- The value that both loops read after an instruction. -/
def decodeOperand : Instruction → Nat → Option (Nat × Nat)
  | .RETURN | .DEFAULT => decodeASN asmap
  | .JUMP => decodeJump asmap
  | .MATCH => decodeMatch asmap

def decodeInstruction (pos : Nat) : Option (Instruction × Nat × Nat) :=
  (decodeType asmap pos).bind fun (opcode, pos) => (decodeOperand asmap opcode pos).map (opcode, ·)

/-- `CountBits(match) - 1`, for a value that is at least 2. -/
def matchLength (value : Nat) : Nat := bitLength value - 1
inductive Lookup
  | returned (asn : Nat)
  | assertion
  | outOfBounds

structure Cursor where
  (pos bits default_asn : Nat)
def addressBit (bits : Nat) : Except Lookup Bool := do
  require (bits ≤ ip.length) .outOfBounds
  ip[ip.length-bits]?.getDM (throw .outOfBounds)

def matchLoop (default_asn value : Nat) : Nat → Nat → Except Lookup Nat
  | 0, bits => return bits
  | bit+1, bits => do
    require ((← addressBit ip bits) = value.testBit bit) (.returned default_asn)
    matchLoop default_asn value bit (bits-1)

def execute (bits default_asn : Nat) : Instruction × Nat × Nat → Except Lookup Cursor
  | (.RETURN, asn, _) => throw (.returned asn)
  | (.JUMP, jump, pos) => do
    require (bits ≠ 0 ∧ jump < asmap.length - pos) .assertion
    return ⟨if ← addressBit ip bits then pos + jump else pos, bits-1, default_asn⟩
  | (.MATCH, value, pos) => do
    require (matchLength value ≤ bits) .assertion
    return ⟨pos, ← matchLoop ip default_asn value (matchLength value) bits, default_asn⟩
  | (.DEFAULT, asn, pos) => return ⟨pos, bits, asn⟩

/-- A turn of the loop of `Interpret`; what breaks out of it meets the assertion. -/
def interpretTurn : Cursor → Except Lookup Cursor
  | ⟨pos, bits, default_asn⟩ => do
    require (pos ≤ asmap.length) .outOfBounds
    execute asmap ip bits default_asn (← (decodeInstruction asmap pos).getDM (throw .assertion))

structure Sanity where
  (pos bits : Nat)
  jumps : List (Nat × Nat)
  prevopcode : Instruction
  had_incomplete_match : Bool

/-- A turn of the loop of `SanityCheckASMap`. -/
def sanityTurn : Sanity → Except Bool Sanity
  | ⟨pos, bits, jumps, prevopcode, had_incomplete_match⟩ => do
    require (∀ jump ∈ jumps.head?, pos % 2^32 < jump.1) false
    match ← (decodeInstruction asmap pos).getDM (throw false), jumps with
    | (.RETURN, _, pos), [] =>
      throw (decide (prevopcode ≠ .DEFAULT ∧ asmap.length - pos ≤ 7 ∧ (asmap.drop pos).all (!·)))
    | (.RETURN, _, pos), (jump_offset, bits)::jumps => do
      require (prevopcode ≠ .DEFAULT ∧ pos % 2^32 = jump_offset) false
      return ⟨pos, bits, jumps, .JUMP, had_incomplete_match⟩
    | (.JUMP, jump, pos), jumps => do
      let jump_offset := (pos + jump) % 2^32
      require (jump ≤ asmap.length - pos ∧ bits ≠ 0 ∧ ∀ jump ∈ jumps.head?, jump_offset < jump.1) false
      return ⟨pos, bits-1, (jump_offset, bits-1)::jumps, .JUMP, had_incomplete_match⟩
    | (.MATCH, value, pos), jumps => do
      let matchlen := matchLength value
      require ((8 ≤ matchlen ∨ ¬(had_incomplete_match ∧ prevopcode = .MATCH)) ∧ matchlen ≤ bits) false
      return ⟨pos, bits-matchlen, jumps, .MATCH, matchlen < 8⟩
    | (.DEFAULT, _, pos), jumps => do
      require (prevopcode ≠ .DEFAULT) false
      return ⟨pos, bits, jumps, .DEFAULT, had_incomplete_match⟩

def interpret (fuel : Nat) : Option Lookup := turns (interpretTurn asmap ip) fuel ⟨0, ip.length % 2^8, 0⟩
def sanityCheckASMap (fuel bits : Nat) : Option Bool :=
  turns (sanityTurn asmap) fuel ⟨0, bits, [], .JUMP, false⟩

variable {asmap ip} {value bits val pos n : Nat} {out : Nat × Nat}
theorem readBits_le (h : readBits asmap n val pos = some out) (hpos : pos ≤ asmap.length) :
    out.2 ≤ asmap.length := by
  induction n generalizing val pos with
  | zero =>
    cases h
    exact hpos
  | succ n ih =>
    obtain ⟨bit,hbit,h⟩ := bind_eq_some_iff.mp h
    exact ih h (List.getElem?_eq_some_iff.mp hbit).1

theorem decodeBits_le {sizes : List Nat} (h : decodeBits asmap sizes val pos = some out)
    (hpos : pos ≤ asmap.length) : out.2 ≤ asmap.length := by
  fun_induction decodeBits asmap sizes val pos with
  | case1 => cases h
  | case2 => exact readBits_le h hpos
  | case3 size sizes val pos hne ih =>
    obtain ⟨bit,hbit,h⟩ := bind_eq_some_iff.mp h
    have hlt := (List.getElem?_eq_some_iff.mp hbit).1
    split at h
    · exact ih h hlt
    · exact readBits_le h hlt

theorem decodeOperand_le (opcode : Instruction) (h : decodeOperand asmap opcode pos = some out)
    (hpos : pos ≤ asmap.length) : out.2 ≤ asmap.length := by
  cases opcode <;> exact decodeBits_le h hpos

theorem decodeInstruction_le {opcode : Instruction} (hpos : pos ≤ asmap.length)
    (h : decodeInstruction asmap pos = some (opcode, out)) : out.2 ≤ asmap.length := by
  obtain ⟨_,ht,h⟩ := bind_eq_some_iff.mp h
  obtain ⟨_,hb,rfl⟩ := map_eq_some_iff.mp ht
  obtain ⟨_,hop,h⟩ := map_eq_some_iff.mp h
  cases h
  exact decodeOperand_le _ hop (decodeBits_le hb hpos)

/-- From here `Interpret` returns, whatever the answer so far. -/
def Safe (asmap ip : List Bool) (pos bits : Nat) : Prop :=
  ∀ asn, ∃ fuel asn', turns (interpretTurn asmap ip) fuel ⟨pos, bits, asn⟩ = some (.returned asn')
def Returned (e : Lookup) : Prop := ∃ asn, e = .returned asn

theorem Safe.of_execute {out : Instruction × Nat × Nat} (hpos : pos ≤ asmap.length)
    (hd : decodeInstruction asmap pos = some out)
    (h : ∀ asn, Yields Returned (execute asmap ip bits asn out) fun next => Safe asmap ip next.pos next.bits) :
    Safe asmap ip pos bits := by
  intro asn
  have hs : interpretTurn asmap ip ⟨pos, bits, asn⟩ = execute asmap ip bits asn out := by
    rw [interpretTurn,require,if_pos hpos,hd]
    rfl
  have hexec := h asn
  cases hrun : execute asmap ip bits asn out with
  | error e =>
    rw [hrun] at hexec
    obtain ⟨asn',rfl⟩ := hexec
    exact ⟨1,asn',by rw [turns,hs,hrun]; rfl⟩
  | ok next =>
    rw [hrun] at hexec
    obtain ⟨fuel,asn',hret⟩ := hexec next.default_asn
    exact ⟨fuel+1,asn',by rw [turns,hs,hrun]; exact hret⟩

theorem not_safe_end : ¬Safe asmap ip asmap.length bits := by
  intro h
  obtain ⟨fuel,_,hrun⟩ := h 0
  cases fuel <;> simp [turns,interpretTurn,decodeInstruction,decodeType,decodeBits,require] at hrun
  cases hrun

theorem addressBit_yields (hz : bits ≠ 0) (hb : bits ≤ ip.length) :
    Yields Returned (addressBit ip bits) fun _ => True := by
  refine (Yields.require hb).bind fun _ _ => ?_
  rw [getElem?_eq_getElem (by omega)]
  trivial

theorem matchLoop_yields (asn value : Nat) (hn : n ≤ bits) (hb : bits ≤ ip.length) :
    Yields Returned (matchLoop ip asn value n bits) (· = bits-n) := by
  induction n generalizing bits with
  | zero => exact rfl
  | succ n ih =>
    refine (addressBit_yields (by omega) hb).bind fun b _ => (Yields.check fun _ => ⟨asn,rfl⟩).bind fun _ _ => ?_
    rw [sub_add_eq,Nat.sub_right_comm]
    exact ih (by omega) (by omega)

/-- What the check accepts, `Interpret` gets through: from where the check is and from the target of
every jump that it still has to reach. -/
theorem safe_of_sanity (hsi : asmap.length < 2^32) {fuel : Nat} {jumps : List (Nat × Nat)}
    {prevopcode : Instruction} {had : Bool} (hpos : pos ≤ asmap.length) (hb : bits ≤ ip.length)
    (hj : ∀ jump ∈ jumps, jump.2 ≤ ip.length)
    (h : turns (sanityTurn asmap) fuel ⟨pos, bits, jumps, prevopcode, had⟩ = some true) :
    Safe asmap ip pos bits ∧ ∀ jump ∈ jumps, Safe asmap ip jump.1 jump.2 := by
  induction fuel generalizing pos bits jumps prevopcode had with
  | zero => cases h
  | succ fuel ih =>
    have hne : false ≠ true := by decide
    replace h := (afterTurn_require hne h).2
    cases hd : decodeInstruction asmap pos with
    | none =>
      rw [hd] at h
      cases h
    | some out =>
      obtain ⟨opcode,value,pos'⟩ := out
      have hn : pos' ≤ asmap.length := decodeInstruction_le hpos hd
      rw [hd] at h
      cases opcode with
      | RETURN =>
        refine ⟨.of_execute hpos hd fun asn => ⟨value,rfl⟩,?_⟩
        cases jumps with
        | nil => simp
        | cons jump jumps =>
          obtain ⟨⟨-,ht⟩,h⟩ := afterTurn_require hne h
          rw [forall_mem_cons] at hj ⊢
          rw [← ht,mod_eq_of_lt (by omega)]
          exact ih hn hj.1 hj.2 h
      | JUMP =>
        obtain ⟨⟨hv,hz,-⟩,h⟩ := afterTurn_require hne h
        have hle : bits - 1 ≤ ip.length := by omega
        obtain ⟨hsa,hs⟩ := ih hn hle (forall_mem_cons.mpr ⟨hle,hj⟩) h
        rw [forall_mem_cons,mod_eq_of_lt (by omega)] at hs
        have hi : value < asmap.length - pos' := by
          refine lt_of_le_of_ne hv fun heq => not_safe_end (?_ : Safe asmap ip _ (bits-1))
          convert hs.1 using 1
          dsimp only
          omega
        refine ⟨.of_execute hpos hd fun asn => (Yields.require ⟨hz,hi⟩).bind fun _ _ =>
          (addressBit_yields hz hb).bind fun bit _ => ?_,hs.2⟩
        cases bit with
        | false => exact hsa
        | true => exact hs.1
      | MATCH =>
        obtain ⟨⟨-,hlen⟩,h⟩ := afterTurn_require hne h
        obtain ⟨hsa,hs⟩ := ih hn ((Nat.sub_le _ _).trans hb) hj h
        refine ⟨.of_execute hpos hd fun asn => (Yields.require hlen).bind fun _ _ =>
          (matchLoop_yields asn value hlen hb).bind ?_,hs⟩
        rintro _ rfl
        exact hsa
      | DEFAULT =>
        obtain ⟨hsa,hs⟩ := ih hn hb hj (afterTurn_require hne h).2
        exact ⟨.of_execute hpos hd fun asn => hsa,hs⟩

theorem interpret_returns (asmap ip : List Bool) (hsize : asmap.length < 2^32) (hip : ip.length = 128)
    {fuel : Nat} (h : sanityCheckASMap asmap fuel 128 = some true) :
    ∃ fuel asn, interpret asmap ip fuel = some (.returned asn) := by
  have hsafe := (safe_of_sanity hsize (zero_le _) hip.ge (by simp) h).1 0
  simpa [interpret,hip] using hsafe

theorem interpret_returns_branch : ∃ fuel asn,
    interpret (true::.replicate 41 false) (.replicate 128 true) fuel = some (.returned asn) :=
  interpret_returns _ _ (by decide) length_replicate (by decide : sanityCheckASMap _ 3 128 = some true)
end Lcryp.Asmap
