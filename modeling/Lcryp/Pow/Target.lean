import Lcryp.Pow.Regulation

/-!
# Targets the regulator asks for

Over the naturals the scaled target is `midasTarget`.
-/
namespace Lcryp
open LeadingBytes
/-- The unsigned divisor that a signed factor becomes. -/
def factorWord (difficultyfactor : Int) : Nat := (difficultyfactor % 2^64).toNat
def midasTarget (limit target : Nat) (difficultyfactor : Int) : Nat :=
  if difficultyfactor = 10000 then min target limit
  else if factorWord difficultyfactor = 0 then limit
  else min (target / factorWord difficultyfactor * 10000 % 2^256) limit

private theorem ofInt64_toNat (n : Int) : (ofInt64 n).toNat = factorWord n := by
  have hlt : factorWord n < 2^64 := by
    unfold factorWord
    omega
  rw [ofInt64,BitVec.toNat_setWidth,BitVec.toNat_ofInt]
  exact Nat.mod_eq_of_lt (lt_trans hlt (by norm_num))

theorem cap_toNat (a limit : ArithUint256) :
    (if a > limit then limit else a).toNat = min a.toNat limit.toNat := by
  by_cases h : a > limit
  · rw [if_pos h,min_eq_right (Nat.le_of_lt (BitVec.lt_def.mp h))]
  · rw [if_neg h,min_eq_left (Nat.le_of_not_lt fun hlt => h (BitVec.lt_def.mpr hlt))]

theorem retarget_toNat (bnOld powLimit : ArithUint256) (difficultyfactor : Int) :
    (retarget bnOld powLimit difficultyfactor).toNat =
      midasTarget powLimit.toNat bnOld.toNat difficultyfactor := by
  unfold retarget midasTarget
  by_cases hf : difficultyfactor = 10000
  · simp [hf,cap_toNat]
  simp only [hf,ne_eq,not_false_eq_true,if_true,if_false]
  by_cases hz : factorWord difficultyfactor = 0
  · have hze : ofInt64 difficultyfactor = 0#256 := BitVec.eq_of_toNat_eq (by rw [ofInt64_toNat,hz]; rfl)
    simp [arithDiv,hze,hz]
  · have hne : ofInt64 difficultyfactor ≠ 0#256 := by
      intro h
      apply hz
      rw [← ofInt64_toNat,h]
      rfl
    have hten : (ofInt64Low 10000).toNat = 10000 := by decide
    simp [arithDiv,if_neg hne,if_neg hz,cap_toNat,ofInt64_toNat,hten]

/-- The range test of `CheckProofOfWork`. -/
structure TargetInRange (params : ConsensusParams) (nBits : BitVec 32) : Prop where
  nonneg : (setCompact nBits).fNegative = false
  no_overflow : (setCompact nBits).fOverflow = false
  ne_zero : (setCompact nBits).target ≠ 0#256
  le_limit : (setCompact nBits).target ≤ params.powLimit

variable (params : ConsensusParams)
theorem checkProofOfWork_eq_true_iff (hash : Uint256) (nBits : BitVec 32) :
    checkProofOfWork params hash nBits = true ↔
      TargetInRange params nBits ∧ hash ≤ (setCompact nBits).target := by
  have hle : ∀ a b : BitVec 256, ¬ a > b ↔ a ≤ b := fun a b => BitVec.not_lt
  unfold checkProofOfWork
  simp only [Bool.or_eq_true,decide_eq_true_eq,beq_iff_eq]
  constructor
  · intro h
    split_ifs at h with h1 h2
    simp only [not_or,Bool.not_eq_true,hle] at h1
    exact ⟨⟨h1.1.1.1,h1.1.2,h1.1.1.2,h1.2⟩,(hle _ _).mp h2⟩
  · rintro ⟨⟨hneg,ho,hz,hl⟩,hh⟩
    rw [if_neg (by simp [hneg,ho,hz,hl]),if_neg ((hle _ _).mpr hh)]

theorem exists_checkProofOfWork_iff (nBits : BitVec 32) :
    (∃ hash, checkProofOfWork params hash nBits = true) ↔ TargetInRange params nBits := by
  constructor
  · rintro ⟨hash,h⟩
    exact ((checkProofOfWork_eq_true_iff _ _ _).mp h).1
  · intro h
    exact ⟨0#256,(checkProofOfWork_eq_true_iff _ _ _).mpr ⟨h,BitVec.le_def.mpr (Nat.zero_le _)⟩⟩

/-- Encoding a number under the limit fails the range test only at zero. -/
theorem targetInRange_getCompact_iff (a : ArithUint256)
    (ha : a.toNat ≤ params.powLimit.toNat) : TargetInRange params (getCompact a) ↔ a.toNat ≠ 0 := by
  obtain ⟨htgt,hneg,ho⟩ := setCompact_getCompact a
  constructor
  · intro h hz
    apply h.ne_zero
    apply BitVec.eq_of_toNat_eq
    rw [htgt,hz]
    simp
  · intro hpos
    refine ⟨hneg,ho,?_,?_⟩
    · intro hz
      rw [hz] at htgt
      have := leadingFloor_pos a.toNat (Nat.pos_of_ne_zero hpos)
      simp at htgt
      omega
    · rw [BitVec.le_def,htgt]
      exact (leadingFloor_le _).trans ha

variable (limit target : Nat)
theorem midasTarget_le (f : Int) : midasTarget limit target f ≤ limit := by
  unfold midasTarget
  split_ifs <;> omega

/-- A parent's target survives the adjustment: no trap, and the quotient by the factor is neither
zero nor a multiple of `2 ^ 252`, which the multiplication by `10000` would wrap to zero. -/
def RetargetUsable (target : Nat) : Option Regulation → Prop
  | none => target ≠ 0
  | some g =>
    g.divisor ≠ 0 ∧
      let f := (10000 * (4*g.interval)).tdiv g.divisor
      if f = 10000 then target ≠ 0
      else factorWord f ≠ 0 → ¬ 2^252 ∣ target / factorWord f

private theorem mul_mod_eq_zero_iff (q : Nat) : q * 10000 % 2^256 = 0 ↔ 2^252 ∣ q := by
  rw [← Nat.dvd_iff_mod_eq_zero,show (2 : Nat)^256 = 2^252 * 16 by norm_num,
    show q * 10000 = q * 625 * 16 by ring,Nat.mul_dvd_mul_iff_right (by norm_num)]
  constructor
  · exact Nat.Coprime.dvd_of_dvd_mul_right (Nat.Coprime.pow_left 252 (by decide))
  · exact fun h => dvd_mul_of_dvd_left h 625

private theorem midasTarget_ne_zero_iff (f : Int) (hl : limit ≠ 0) :
    midasTarget limit target f ≠ 0 ↔
      if f = 10000 then target ≠ 0
      else factorWord f ≠ 0 → ¬ 2^252 ∣ target / factorWord f := by
  unfold midasTarget
  split_ifs with hf hz
  · omega
  · simp [hz,hl]
  · rw [← mul_mod_eq_zero_iff]
    generalize target / factorWord f * 10000 % 2^256 = q
    constructor
    · omega
    · omega

theorem getNextWorkRequired_eq (pindexLast : CBlockIndex) (pprev : IndexChain) :
    getNextWorkRequired params (pindexLast::pprev) =
      (difficultyFactor (chainRegulation params pindexLast pprev)).map fun f =>
        getCompact (retarget (setCompact pindexLast.nBits).target params.powLimit f) := rfl

/-- The target asked for is in range exactly when the parent's target survives the adjustment. -/
theorem getNextWorkRequired_inRange_iff (pindexLast : CBlockIndex) (pprev : IndexChain) :
    (∃ nBits, getNextWorkRequired mainParams (pindexLast::pprev) = some nBits ∧
      TargetInRange mainParams nBits ∧ ∃ hash, checkProofOfWork mainParams hash nBits = true) ↔
    RetargetUsable (setCompact pindexLast.nBits).target.toNat
      (chainRegulation mainParams pindexLast pprev) := by
  have hrange : ∀ f, TargetInRange mainParams
      (getCompact (retarget (setCompact pindexLast.nBits).target mainParams.powLimit f)) ↔
        if f = 10000 then (setCompact pindexLast.nBits).target.toNat ≠ 0
        else factorWord f ≠ 0 → ¬ 2^252 ∣ (setCompact pindexLast.nBits).target.toNat / factorWord f := by
    intro f
    have hle := midasTarget_le mainParams.powLimit.toNat (setCompact pindexLast.nBits).target.toNat f
    rw [← retarget_toNat] at hle
    rw [targetInRange_getCompact_iff _ _ hle,retarget_toNat,midasTarget_ne_zero_iff _ _ _ (by decide)]
  simp only [getNextWorkRequired_eq,exists_checkProofOfWork_iff,and_self]
  cases chainRegulation mainParams pindexLast pprev with
  | none =>
    simp [difficultyFactor,hrange,RetargetUsable]
  | some g =>
    by_cases hd : g.divisor = 0
    · simp [difficultyFactor,int64Div,hd,RetargetUsable]
    · simp only [difficultyFactor,int64Div,if_neg hd,Option.map_some,Option.some.injEq,
        exists_eq_left',hrange,RetargetUsable]
      exact ⟨fun h => ⟨hd,h⟩,fun h => h.2⟩

/-- A chain on which every block after the first carries the target asked for. -/
def MidasChain (params : ConsensusParams) : IndexChain → Prop
  | [] => True
  | [_] => True
  | entry::parent::rest =>
    getNextWorkRequired params (parent::rest) = some entry.nBits ∧ MidasChain params (parent::rest)

instance (params : ConsensusParams) : (chain : IndexChain) → Decidable (MidasChain params chain)
  | [] => isTrue trivial
  | [_] => isTrue trivial
  | _::parent::rest =>
    have : Decidable (MidasChain params (parent::rest)) := instDecidableMidasChain params _
    inferInstanceAs (Decidable (_ ∧ _))

theorem MidasChain.of_suffix {params : ConsensusParams} {chain below : IndexChain}
    (h : MidasChain params chain) (hs : below <:+ chain) : MidasChain params below := by
  induction chain with
  | nil => rwa [List.suffix_nil.mp hs]
  | cons entry pprev ih =>
    rcases List.suffix_cons_iff.mp hs with rfl | hs'
    · exact h
    · apply ih _ hs'
      cases pprev with
      | nil => trivial
      | cons parent rest => exact h.2

/-- A chain that follows every rule and on which no target is asked for any more. -/
theorem rewoundChain_no_target :
    rewoundChain.getLast? = some mainGenesis ∧ MidasChain mainParams rewoundChain ∧
      rewoundChain.MedianTimeRule ∧
      ¬ ∃ nBits, getNextWorkRequired mainParams rewoundChain = some nBits ∧ TargetInRange mainParams nBits := by
  have hnone : getNextWorkRequired mainParams rewoundChain = none := by decide
  refine ⟨rfl,by decide +kernel,by decide,?_⟩
  rintro ⟨nBits,hsome,_⟩
  cases hsome
end Lcryp
