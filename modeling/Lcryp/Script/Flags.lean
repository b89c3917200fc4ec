
/-!
# Script verification flags

The flags are bits of a word.  Flag sets are compared bit by bit, and only those that satisfy the
assertions of `VerifyScript` are used.
-/
namespace Lcryp
def scriptVerifyP2SH : BitVec 32 := 0x1#32
def scriptVerifyStrictenc : BitVec 32 := 0x2#32
def scriptVerifyDersig : BitVec 32 := 0x4#32
def scriptVerifyLowS : BitVec 32 := 0x8#32
def scriptVerifyNulldummy : BitVec 32 := 0x10#32
def scriptVerifySigpushonly : BitVec 32 := 0x20#32
def scriptVerifyMinimaldata : BitVec 32 := 0x40#32
def scriptVerifyDiscourageUpgradableNops : BitVec 32 := 0x80#32
def scriptVerifyCleanstack : BitVec 32 := 0x100#32
def scriptVerifyChecklocktimeverify : BitVec 32 := 0x200#32
def scriptVerifyChecksequenceverify : BitVec 32 := 0x400#32
def scriptVerifyWitness : BitVec 32 := 0x800#32
def scriptVerifyDiscourageUpgradableWitnessProgram : BitVec 32 := 0x1000#32
def scriptVerifyMinimalif : BitVec 32 := 0x2000#32
def scriptVerifyNullfail : BitVec 32 := 0x4000#32
def scriptVerifyWitnessPubkeytype : BitVec 32 := 0x8000#32
def scriptVerifyConstScriptcode : BitVec 32 := 0x10000#32
def scriptVerifyTaproot : BitVec 32 := 0x20000#32
def scriptVerifyDiscourageUpgradableTaprootVersion : BitVec 32 := 0x40000#32
def scriptVerifyDiscourageOpSuccess : BitVec 32 := 0x80000#32
def scriptVerifyDiscourageUpgradablePubkeytype : BitVec 32 := 0x100000#32
def mandatoryScriptVerifyFlags : BitVec 32 := scriptVerifyP2SH
/-- All flags but `NONE` and `SIGPUSHONLY`. -/
def standardScriptVerifyFlags : BitVec 32 := 0x1fffdf#32
def standardNotMandatoryVerifyFlags : BitVec 32 := standardScriptVerifyFlags &&& ~~~mandatoryScriptVerifyFlags
def blockScriptVerifyFlags : BitVec 32 :=
  scriptVerifyP2SH ||| scriptVerifyWitness ||| scriptVerifyDersig ||| scriptVerifyNulldummy
def hasFlag (flags flag : BitVec 32) : Bool := flags &&& flag != 0#32
def FlagSubset (flags flags' : BitVec 32) : Prop := flags &&& flags' = flags
structure FlagsConsistent (flags : BitVec 32) : Prop where
  witness : hasFlag flags scriptVerifyWitness = true → hasFlag flags scriptVerifyP2SH = true
  cleanstack : hasFlag flags scriptVerifyCleanstack = true →
    hasFlag flags scriptVerifyP2SH = true ∧ hasFlag flags scriptVerifyWitness = true

instance (flags flags' : BitVec 32) : Decidable (FlagSubset flags flags') := inferInstanceAs (Decidable (_ = _))
instance (flags : BitVec 32) : Decidable (FlagsConsistent flags) :=
  decidable_of_iff
    ((hasFlag flags scriptVerifyWitness = true → hasFlag flags scriptVerifyP2SH = true) ∧
      (hasFlag flags scriptVerifyCleanstack = true →
        hasFlag flags scriptVerifyP2SH = true ∧ hasFlag flags scriptVerifyWitness = true))
    ⟨fun h => ⟨h.1, h.2⟩, fun h => ⟨h.witness, h.cleanstack⟩⟩

theorem FlagSubset.has {flags flags' : BitVec 32} (h : FlagSubset flags flags') {flag : BitVec 32}
    (hf : hasFlag flags flag = true) : hasFlag flags' flag = true := by
  simp only [hasFlag,bne_iff_ne] at hf ⊢
  intro hz
  apply hf
  rw [← show flags &&& flags' = flags from h,BitVec.and_assoc,hz,BitVec.and_zero]

theorem FlagSubset.or {flags extra flags' : BitVec 32} (h : FlagSubset flags flags')
    (hextra : FlagSubset extra flags') : FlagSubset (flags ||| extra) flags' := by
  unfold FlagSubset at *
  rw [BitVec.and_comm,BitVec.and_or_distrib_left,BitVec.and_comm,h,BitVec.and_comm,hextra]

theorem hasFlag_or (flags extra flag : BitVec 32) (hl : hasFlag extra flag = false) :
    hasFlag (flags ||| extra) flag = hasFlag flags flag := by
  simp only [hasFlag,bne_eq_false_iff_eq] at hl ⊢
  rw [BitVec.and_comm,BitVec.and_or_distrib_left,BitVec.and_comm flag extra,hl,BitVec.or_zero,BitVec.and_comm]

theorem FlagsConsistent.or {flags extra : BitVec 32} (h : FlagsConsistent flags)
    (hextra : hasFlag extra scriptVerifyP2SH = false ∧ hasFlag extra scriptVerifyWitness = false ∧
      hasFlag extra scriptVerifyCleanstack = false) : FlagsConsistent (flags ||| extra) := by
  have hP2SH := hasFlag_or flags extra _ hextra.1
  have hwit := hasFlag_or flags extra _ hextra.2.1
  have hc := hasFlag_or flags extra _ hextra.2.2
  constructor
  · rw [hwit,hP2SH]
    exact h.witness
  · rw [hc,hwit,hP2SH]
    exact h.cleanstack
end Lcryp
