import Lcryp.Framework.Run
import Lcryp.Script.Interpreter

/-!
# Conditions of the open branches

Of the stack of conditions only its size and the position of its first false are kept, in words of 32 bits.
-/
namespace Lcryp.ConditionStack
open List Run
inductive Operation where
  | pushBack (f : Bool) | popBack | toggleTop

/-- A plain stack, its top first. -/
def plain : List Bool → Operation → Option (List Bool)
  | stack, .pushBack f => some (f::stack)
  | _::stack, .popBack => some stack
  | f::stack, .toggleTop => some ((!f)::stack)
  | [], _ => none

variable (vfExec : ConditionStack)
def after : Operation → ConditionStack
  | .pushBack f => vfExec.pushBack f
  | .popBack => vfExec.popBack
  | .toggleTop => vfExec.toggleTop

def firstFalse : List Bool → Option Nat
  | [] => none
  | f::stack => (firstFalse stack).or (if f then none else some stack.length)

def ofStack (stack : List Bool) : ConditionStack := ⟨stack.length, firstFalse stack⟩

variable {stack stack' : List Bool} {op : Operation}
theorem firstFalse_lt {p : Nat} (h : firstFalse stack = some p) : p < stack.length := by
  induction stack with
  | nil => cases h
  | cons f stack ih =>
    rcases Option.or_eq_some_iff.mp h with hp | ⟨_,hp⟩
    · exact (ih hp).trans (Nat.lt_succ_self _)
    · cases f <;> simp_all

theorem firstFalse_isNone : (firstFalse stack).isNone = stack.all id := by
  induction stack with
  | nil => rfl
  | cons f stack ih => cases f <;> simp [firstFalse,← ih]

theorem after_ofStack (h : plain stack op = some stack') : (ofStack stack).after op = ofStack stack' := by
  cases op with
  | pushBack f =>
    cases h
    cases f <;> cases hf : firstFalse stack <;> simp [after,pushBack,ofStack,firstFalse,hf]
  | popBack | toggleTop =>
    cases stack with
    | nil => cases h
    | cons f stack =>
      obtain rfl := Option.some.inj h
      cases hf : firstFalse stack with
      | none => cases f <;> simp [after,popBack,toggleTop,ofStack,firstFalse,hf]
      | some p => simp [after,popBack,toggleTop,ofStack,firstFalse,hf,(firstFalse_lt hf).ne]

structure Members where
  stackSize : BitVec 32
  firstFalsePos : BitVec 32

def noFalse : BitVec 32 := 0xffffffff

namespace Members
def new : Members := ⟨0, noFalse⟩

variable (vfExec : Members)
def empty : Bool := vfExec.stackSize == 0
def allTrue : Bool := vfExec.firstFalsePos == noFalse
def pushBack (f : Bool) : Members where
  stackSize := vfExec.stackSize + 1
  firstFalsePos := if vfExec.firstFalsePos = noFalse ∧ !f then vfExec.stackSize else vfExec.firstFalsePos
-- `none` where the assertion fires
def popBack : Option Members :=
  if 0 < vfExec.stackSize then
    let stackSize := vfExec.stackSize - 1
    some ⟨stackSize, if vfExec.firstFalsePos = stackSize then noFalse else vfExec.firstFalsePos⟩
  else none

def toggleTop : Option Members :=
  if 0 < vfExec.stackSize then
    some { vfExec with
      firstFalsePos :=
        if vfExec.firstFalsePos = noFalse then vfExec.stackSize - 1
        else if vfExec.firstFalsePos = vfExec.stackSize - 1 then noFalse
        else vfExec.firstFalsePos }
  else none

def step : Operation → Option Members
  | .pushBack f => some (vfExec.pushBack f)
  | .popBack => vfExec.popBack
  | .toggleTop => vfExec.toggleTop
end Members

def word (pos : Option Nat) : BitVec 32 := pos.elim noFalse (.ofNat 32)
def members : Members := ⟨.ofNat 32 vfExec.stackSize, word vfExec.firstFalsePos⟩

variable {n : Nat} {pos : Option Nat} (hsize : n < 2^32) (hpos : ∀ p ∈ pos, p < n)
include hsize hpos
theorem word_eq_noFalse : word pos = noFalse ↔ pos = none := by
  cases pos <;> simp_all [word,noFalse]
  bv_omega

theorem word_eq_ofNat {m : Nat} (hm : m < n) : word pos = .ofNat 32 m ↔ pos = some m := by
  cases pos <;> simp_all [word,noFalse] <;> bv_omega

theorem step_members (hop : n = 0 → ∃ f, op = .pushBack f) :
    (members ⟨n,pos⟩).step op = some (members (after ⟨n,pos⟩ op)) := by
  have hn := word_eq_noFalse hsize hpos
  cases op with
  | pushBack f =>
    simp only [Members.step,Members.pushBack,members,hn,after,pushBack]
    cases f <;> cases pos <;> simp [word,BitVec.ofNat_add]
  | popBack | toggleTop =>
    obtain ⟨n,rfl⟩ := Nat.exists_eq_succ_of_ne_zero fun h => nomatch hop h
    have htop := word_eq_ofNat hsize hpos (Nat.lt_succ_self n)
    have hz : 0 < BitVec.ofNat 32 (n+1) := by bv_omega
    have hp : BitVec.ofNat 32 (n+1) - 1 = .ofNat 32 n := by bv_omega
    simp only [Members.step,Members.popBack,Members.toggleTop,members,after,popBack,toggleTop,if_pos hz,
      Nat.succ_eq_add_one,hp,hn,htop]
    split_ifs <;> simp_all [word]
omit hsize hpos

theorem run_members (ops : List Operation) (hrun : run plain stack ops = some stack')
    (hh : EveryState plain (·.length < 2^32) stack ops) :
    run Members.step (members (ofStack stack)) ops = some (members (ofStack stack')) ∧
      stack'.length < 2^32 := by
  induction ops generalizing stack with
  | nil =>
    cases hrun
    exact ⟨rfl,hh⟩
  | cons op ops ih =>
    obtain ⟨next,hop,hr⟩ := Option.bind_eq_some_iff.mp hrun
    rw [run,ofStack,step_members hh.1 fun _ => firstFalse_lt]
    · rw [← ofStack,after_ofStack hop]
      exact ih hr (hh.2 next hop)
    · intro hnil
      cases op <;> simp_all [plain]

/-- No assertion fires, and the members answer as the plain stack does while its height fits in the word. -/
theorem run_answers (ops : List Operation) (hrun : run plain [] ops = some stack)
    (hh : EveryState plain (·.length < 2^32) [] ops) :
    ∃ vfExec, run Members.step .new ops = some vfExec ∧ vfExec.empty = stack.isEmpty ∧
      vfExec.allTrue = stack.all id := by
  obtain ⟨hm,hsize⟩ := run_members ops hrun hh
  refine ⟨_,hm,?_,?_⟩
  · cases stack with
    | nil => rfl
    | cons f stack =>
      simp only [length_cons] at hsize
      simp only [Members.empty,members,ofStack,isEmpty_cons,beq_eq_false_iff_ne,length_cons]
      bv_omega
  · rw [← firstFalse_isNone,Bool.eq_iff_iff,Members.allTrue,beq_iff_eq,Option.isNone_iff_eq_none]
    exact word_eq_noFalse hsize fun _ => firstFalse_lt

theorem run_answers_toggled :
    ∃ vfExec, run Members.step .new [.pushBack true,.pushBack false,.toggleTop] = some vfExec ∧
      vfExec.empty = false ∧ vfExec.allTrue = true :=
  run_answers [.pushBack true,.pushBack false,.toggleTop] rfl (by simp [EveryState,plain])

theorem run_pushes (n : Nat) (vfExec : Members) :
    run plain stack (replicate n (.pushBack true)) = some (replicate n true++stack) ∧
      run Members.step vfExec (replicate n (.pushBack true)) =
        some { vfExec with stackSize := vfExec.stackSize + .ofNat 32 n } := by
  induction n generalizing stack vfExec with
  | zero => simp [run]
  | succ n ih =>
    obtain ⟨hp,hm⟩ := @ih (true::stack) (vfExec.pushBack true)
    refine ⟨hp.trans (by simp [replicate_succ']),hm.trans ?_⟩
    simp only [Members.pushBack,Bool.not_true,Bool.false_eq_true,and_false,if_false,BitVec.ofNat_add]
    ac_rfl

/-- The size wraps to zero after `2^32` conditions. -/
theorem size_wraps : ∃ ops stack vfExec, run plain [] ops = some stack ∧
    run Members.step .new ops = some vfExec ∧ vfExec.empty ≠ stack.isEmpty := by
  obtain ⟨hp,hm⟩ := @run_pushes [] (2^32) .new
  exact ⟨_,_,_,hp,hm,by rw [append_nil,isEmpty_replicate]; decide⟩
end Lcryp.ConditionStack
