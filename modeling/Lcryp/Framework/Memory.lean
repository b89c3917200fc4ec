import Lcryp.Framework.Outcome

/-!
# Element access

The accesses of a program to its vectors, which end the run with a fault when they are outside.
-/
namespace Lcryp
inductive MemoryFault
  | assertion
  | outOfRange
  | nullPointer
deriving DecidableEq

def readAt {α : Type} (l : List α) (k : Nat) : Except MemoryFault α :=
  match l[k]? with
  | some a => .ok a
  | none => .error .outOfRange

def writeAt {α : Type} (l : List α) (k : Nat) (a : α) : Except MemoryFault (List α) :=
  if k < l.length then .ok (l.set k a) else .error .outOfRange
theorem readAt_eq_ok {α : Type} {l : List α} {k : Nat} {a : α} (h : l[k]? = some a) : readAt l k = .ok a := by
  rw [readAt,h]
theorem writeAt_eq_ok {α : Type} {l : List α} {k : Nat} {a : α} (h : l[k]? = some a) (b : α) :
    writeAt l k b = .ok (l.set k b) :=
  if_pos (List.getElem?_eq_some_iff.mp h).1
end Lcryp
