import Lcryp.Framework.Radix

/-!
# Regrouping bits

`ConvertBits` cuts the bits of its input into groups of another size, with or without padding.
-/
namespace Lcryp
open Nat Radix List
/-- The inner loop: the groups that are complete, and the bits left. -/
def emitGroups (tobits acc : Nat) : Nat → Nat → List Nat × Nat
  | 0, bits => ([], bits)
  | fuel+1, bits =>
    if tobits ≤ bits then
      let rest := emitGroups tobits acc fuel (bits-tobits)
      ((acc >>> (bits-tobits) &&& (1 <<< tobits) - 1)::rest.1, rest.2)
    else ([], bits)

/-- The outer loop: what was put out, and `acc` and `bits`. -/
def convertBitsLoop (frombits tobits : Nat) : List Nat → Nat → Nat → List Nat × Nat × Nat
  | [], acc, bits => ([], acc, bits)
  | v::it, acc, bits =>
    let acc := (acc <<< frombits ||| v) &&& (1 <<< (frombits + tobits - 1)) - 1
    let groups := emitGroups tobits acc (bits+frombits) (bits+frombits)
    let rest := convertBitsLoop frombits tobits it acc groups.2
    (groups.1++rest.1, rest.2)

/-- `ConvertBits` of values that are not negative; `none` if it returns false. -/
def convertBits (frombits tobits : Nat) (pad : Bool) (input : List Nat) : Option (List Nat) :=
  let r := convertBitsLoop frombits tobits input 0 0
  let acc := r.2.1
  let bits := r.2.2
  let last := acc <<< (tobits-bits) &&& (1 <<< tobits) - 1
  if pad then
    if bits ≠ 0 then some (r.1++[last]) else some r.1
  else if bits ≥ frombits ∨ last ≠ 0 then none
  else some r.1

theorem emitGroups_spec (tobits acc : Nat) (hto : 0 < tobits) (fuel bits : Nat) (hf : bits ≤ fuel) :
    let r := emitGroups tobits acc fuel bits
    (∀ d ∈ r.1, d < 2^tobits) ∧ r.2 < tobits ∧ bits = tobits * r.1.length + r.2 ∧
      acc % 2^bits = value (2^tobits) r.1 * 2^r.2 + acc % 2^r.2 := by
  induction fuel generalizing bits with
  | zero =>
    obtain rfl : bits = 0 := by omega
    simpa [emitGroups] using hto
  | succ fuel ih =>
    rw [emitGroups]
    dsimp only
    split
    next hle =>
      obtain ⟨hlt,hb,hcnt,hval⟩ := ih (bits-tobits) (by omega)
      -- the top group and what is below it
      have htop : acc % 2^bits = acc / 2^(bits-tobits) % 2^tobits * 2^(bits-tobits) +
          acc % 2^(bits-tobits) := by
        conv_lhs => rw [show bits = bits - tobits + tobits by omega,pow_add,mod_mul]
        ring
      rw [one_shiftLeft,and_two_pow_sub_one_eq_mod,shiftRight_eq_div_pow]
      refine ⟨?_,hb,?_,?_⟩
      · rw [forall_mem_cons]
        exact ⟨mod_lt _ (Nat.two_pow_pos _),hlt⟩
      · rw [length_cons,mul_add]
        omega
      · rw [htop,hval,value_cons,← pow_mul,add_mul,mul_assoc _ (2^_) (2^_),← pow_add,← hcnt]
        ring
    next hlt =>
      simp
      omega

theorem convertBitsLoop_spec (frombits tobits : Nat) (hto : 0 < tobits) (input : List Nat)
    (hi : ∀ v ∈ input, v < 2^frombits) (acc bits : Nat) (hbi : bits < tobits) :
    let r := convertBitsLoop frombits tobits input acc bits
    (∀ d ∈ r.1, d < 2^tobits) ∧ r.2.2 < tobits ∧ frombits * input.length + bits = tobits * r.1.length + r.2.2 ∧
      acc % 2^bits * 2^(frombits*input.length) + value (2^frombits) input =
        value (2^tobits) r.1 * 2^r.2.2 + r.2.1 % 2^r.2.2 := by
  induction input generalizing acc bits with
  | nil => simpa [convertBitsLoop] using hbi
  | cons v it ih =>
    have hv : v < 2^frombits := hi v mem_cons_self
    -- the mask keeps all bits that are pending after the shift
    have hacc : ((acc <<< frombits ||| v) &&& (1 <<< (frombits + tobits - 1)) - 1) %
        2^(bits+frombits) = acc % 2^bits * 2^frombits + v := by
      rw [one_shiftLeft,and_two_pow_sub_one_eq_mod,← shiftLeft_add_eq_or_of_lt hv,
        shiftLeft_eq,mod_mod_of_dvd _ (pow_dvd_pow 2 (by omega)),add_comm bits,
        pow_add,mod_mul,mul_add_mod_self_right,mod_eq_of_lt hv,
        add_comm (acc * 2^frombits) v,add_mul_div_right _ _ (Nat.two_pow_pos _),
        div_eq_of_lt hv]
      ring_nf
    rw [convertBitsLoop]
    dsimp only
    generalize (acc <<< frombits ||| v) &&& (1 <<< (frombits + tobits - 1)) - 1 = next at hacc ⊢
    obtain ⟨hg,hl,hcnt,hval⟩ := emitGroups_spec tobits next hto (bits+frombits) (bits+frombits) (le_refl _)
    generalize emitGroups tobits next (bits+frombits) (bits+frombits) = groups at *
    obtain ⟨hr,hb,hc,hva⟩ := ih (fun w hw => hi w (mem_cons_of_mem v hw)) next groups.2 hl
    generalize convertBitsLoop frombits tobits it next groups.2 = rest at *
    refine ⟨?_,hb,?_,?_⟩
    · rw [forall_mem_append]
      exact ⟨hg,hr⟩
    · rw [length_cons,length_append,mul_add,mul_add]
      omega
    · calc acc % 2^bits * 2^(frombits * (v::it).length) + value (2^frombits) (v::it)
          = (acc % 2^bits * 2^frombits + v) * 2^(frombits*it.length) + value (2^frombits) it := by
            rw [value_cons,length_cons]
            ring
        _ = value (2^tobits) groups.1 * 2^(groups.2 + frombits * it.length) +
              (next % 2^groups.2 * 2^(frombits*it.length) + value (2^frombits) it) := by
            rw [← hacc,hval]
            ring
        _ = value (2^tobits) groups.1 * (2^tobits)^rest.1.length * 2^rest.2.2 +
              (value (2^tobits) rest.1 * 2^rest.2.2 + rest.2.1 % 2^rest.2.2) := by
            rw [hva,add_comm groups.2,hc]
            ring
        _ = value (2^tobits) (groups.1++rest.1) * 2^rest.2.2 + rest.2.1 % 2^rest.2.2 := by
            rw [value_append]
            ring

/-- The fine groups hold the bits of the coarse ones, filled up with zeros to whole groups. -/
structure Padded (coarse fine : Nat) (input output : List Nat) (fill : Nat) : Prop where
  input_lt : ∀ v ∈ input, v < 2^coarse
  output_lt : ∀ v ∈ output, v < 2^fine
  fill_lt : fill < fine
  length_eq : coarse * input.length + fill = fine * output.length
  value_eq : value (2^coarse) input * 2^fill = value (2^fine) output

section Padded
variable {coarse fine : Nat} (hfine : 0 < fine) (hle : fine ≤ coarse)
theorem last_eq (acc bits tobits : Nat) (h : bits ≤ tobits) :
    (acc <<< (tobits-bits) &&& (1 <<< tobits) - 1) = acc % 2^bits * 2^(tobits-bits) := by
  rw [one_shiftLeft,and_two_pow_sub_one_eq_mod,shiftLeft_eq]
  conv_lhs => rw [show tobits = bits + (tobits-bits) by omega,pow_add]
  rw [Nat.add_sub_cancel_left,mul_mod_mul_right]

include hfine in
theorem convertBits_pad (input : List Nat) (hi : ∀ v ∈ input, v < 2^coarse) :
    ∃ output fill, convertBits coarse fine true input = some output ∧ Padded coarse fine input output fill := by
  obtain ⟨hout,hb,hcnt,hval⟩ := convertBitsLoop_spec coarse fine hfine input hi 0 0 hfine
  simp only [convertBits,if_true]
  generalize convertBitsLoop coarse fine input 0 0 = r at *
  rw [zero_mod,zero_mul,zero_add] at hval
  by_cases hz : r.2.2 = 0
  · rw [if_neg (by omega)]
    refine ⟨r.1,0,rfl,hi,hout,hfine,by omega,?_⟩
    rw [hval,hz,pow_zero,mod_one]
    simp
  · rw [if_pos hz,last_eq _ _ _ (by omega)]
    have hpow : 2^fine = 2^r.2.2 * 2^(fine-r.2.2) := by
      rw [← pow_add]
      congr 1
      omega
    refine ⟨_,fine-r.2.2,rfl,hi,?_,by omega,?_,?_⟩
    · rw [forall_mem_append]
      refine ⟨hout,?_⟩
      simp only [mem_singleton,forall_eq]
      rw [hpow]
      exact mul_lt_mul_of_pos_right (mod_lt _ (Nat.two_pow_pos _)) (Nat.two_pow_pos _)
    · rw [length_append,length_singleton,mul_add]
      omega
    · rw [hval,value_append,value_singleton,length_singleton,hpow]
      ring

include hfine hle in
theorem convertBits_of_padded {input output : List Nat} {fill : Nat}
    (h : Padded coarse fine input output fill) : convertBits fine coarse false output = some input := by
  obtain ⟨hout,hb,hcnt,hval⟩ := convertBitsLoop_spec fine coarse (by omega) output h.output_lt 0 0 (by omega)
  simp only [convertBits,Bool.false_eq_true,if_false]
  generalize convertBitsLoop fine coarse output 0 0 = r at *
  rw [zero_mod,zero_mul,zero_add,← h.value_eq] at hval
  rw [add_zero,← h.length_eq] at hcnt
  -- lengths are quotient and remainder of one number
  have hf := h.fill_lt
  have hlen : input.length = r.1.length := by
    have hl : (coarse * input.length + fill) / coarse = input.length := by
      rw [mul_add_div (by omega),div_eq_of_lt (by omega),add_zero]
    have hr : (coarse * r.1.length + r.2.2) / coarse = r.1.length := by
      rw [mul_add_div (by omega),div_eq_of_lt hb,add_zero]
    rw [← hl,hcnt,hr]
  have hs : r.2.2 = fill := by
    rw [hlen] at hcnt
    omega
  rw [hs] at hval ⊢
  have hp : r.2.1 % 2^fill = 0 := by
    have := congrArg (· % 2^fill) hval
    simpa using this.symm
  have hi : r.1 = input := by
    apply value_inj (Nat.one_lt_two_pow (by omega)) hlen.symm hout h.input_lt
    rw [hp] at hval
    exact (eq_of_mul_eq_mul_right (Nat.two_pow_pos fill) hval).symm
  rw [last_eq _ _ _ (by omega),hp,if_neg (by omega),hi]

include hfine hle in
theorem padded_of_convertBits {input output : List Nat} (ho : ∀ v ∈ output, v < 2^fine)
    (h : convertBits fine coarse false output = some input) : ∃ fill, Padded coarse fine input output fill := by
  obtain ⟨hout,hb,hcnt,hval⟩ := convertBitsLoop_spec fine coarse (by omega) output ho 0 0 (by omega)
  simp only [convertBits,Bool.false_eq_true,if_false] at h
  generalize convertBitsLoop fine coarse output 0 0 = r at *
  rw [zero_mod,zero_mul,zero_add] at hval
  split at h
  · cases h
  next hc =>
    cases h
    rw [not_or,not_not,last_eq _ _ _ (by omega),mul_eq_zero] at hc
    have hp : r.2.1 % 2^r.2.2 = 0 := hc.2.resolve_right (Nat.two_pow_pos _).ne'
    refine ⟨r.2.2,hout,ho,by omega,by omega,?_⟩
    rw [hval,hp,add_zero]

include hfine in
theorem Padded.unique {input first second : List Nat} {fill fill' : Nat}
    (h : Padded coarse fine input first fill) (h' : Padded coarse fine input second fill') :
    first = second := by
  have hfi := h.fill_lt
  have hf := h'.fill_lt
  have hlen := h.length_eq
  have hl := h'.length_eq
  have hs : first.length = second.length := by
    rcases lt_trichotomy first.length second.length with hlt | heq | hgt
    · have := mul_le_mul_left fine hlt
      rw [mul_succ] at this
      omega
    · exact heq
    · have := mul_le_mul_left fine hgt
      rw [mul_succ] at this
      omega
  obtain rfl : fill = fill' := by
    rw [hs] at hlen
    omega
  apply value_inj (Nat.one_lt_two_pow (by omega)) hs h.output_lt h'.output_lt
  rw [← h.value_eq,← h'.value_eq]
end Padded
end Lcryp
