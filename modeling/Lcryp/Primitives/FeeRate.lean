import Lcryp.Primitives.Transaction

/-!
# Fee rates

`CFeeRate::GetFee` rounds up in floating point; the exact ceiling stands for it where sums matter.
-/
namespace Lcryp
structure CFeeRate where
  nRypsPerK : Int
deriving DecidableEq

namespace CFeeRate
/-- The constructor from a fee and a size, a division that truncates. -/
def ofFee (nFeePaid : Int) (numBytes : Nat) : CFeeRate :=
  let nSize : Int := (numBytes % 2^32 : Nat)
  if nSize > 0 then ⟨(nFeePaid*1000).tdiv nSize⟩ else ⟨0⟩

variable (rate : CFeeRate)
/-- `GetFee` with an exact quotient: the ceiling, and not zero for a rate that is not zero. -/
def getFee (numBytes : Nat) : Int :=
  let nFee := -(-(rate.nRypsPerK*numBytes) / 1000)
  if nFee = 0 ∧ numBytes ≠ 0 then
    if rate.nRypsPerK > 0 then 1 else if rate.nRypsPerK < 0 then -1 else 0
  else nFee

/-- `%08d`. -/
def padEight (n : Int) : String :=
  let digits := Nat.toDigits 10 n.natAbs
  let zeros := List.replicate ((if n < 0 then 7 else 8) - digits.length) '0'
  (if n < 0 then "-" else "")++String.ofList (zeros++digits)

/-- `%03d`. -/
def padThree (n : Int) : String :=
  let digits := Nat.toDigits 10 n.natAbs
  let zeros := List.replicate ((if n < 0 then 2 else 3) - digits.length) '0'
  (if n < 0 then "-" else "")++String.ofList (zeros++digits)

/-- `CFeeRate::ToString` for `FeeEstimateMode::ryp_VB`. -/
def textPerVByte : String :=
  toString (rate.nRypsPerK.tdiv 1000) ++ "." ++ padThree (rate.nRypsPerK.tmod 1000) ++ " ryp/vB"

/-- `CFeeRate::ToString`. -/
def text : String :=
  toString (rate.nRypsPerK.tdiv coin) ++ "." ++ padEight (rate.nRypsPerK.tmod coin) ++ " LCR/kvB"
end CFeeRate
end Lcryp
