import Lcryp.Framework.Outcome
import Mathlib.Logic.Relation

/-!
# Loops with a measure

A loop takes turns until one of them ends it.  With an invariant and a measure that every turn lowers,
enough fuel gives an answer.
-/
namespace Lcryp
open Relation
variable {ε σ : Type}
inductive Turn (σ : Type)
  | done (s : σ)
  | next (s : σ)

def iterate (turn : σ → Except ε (Turn σ)) : Nat → σ → Except ε (Option σ)
  | 0, _ => .ok none
  | fuel+1, s => do
      match ← turn s with
      | .done s' => return some s'
      | .next s' => iterate turn fuel s'

def Reached (turn : σ → Except ε (Turn σ)) : σ → σ → Prop := ReflTransGen fun s s' => turn s = .ok (.next s')

def afterTurns (turn : σ → Except ε (Turn σ)) : Nat → σ → Option σ
  | 0, s => some s
  | n+1, s =>
    match turn s with
    | .ok (.next s') => afterTurns turn n s'
    | _ => none

variable {turn : σ → Except ε (Turn σ)}
theorem Reached.of_afterTurns {n : Nat} {s s' : σ} (h : afterTurns turn n s = some s') : Reached turn s s' := by
  induction n generalizing s with
  | zero =>
    cases h
    exact .refl
  | succ n ih =>
    unfold afterTurns at h
    split at h
    · next hturn => exact .head hturn (ih h)
    · cases h

/-- A turn that ends the loop leaves one property, any other turn the invariant and a lower measure. -/
def Turn.Ends (I J : σ → Prop) (μ : σ → Nat) (s : σ) : Turn σ → Prop
  | .done s' => J s'
  | .next s' => I s' ∧ μ s' < μ s

variable {allowed : ε → Prop} {s : σ}
theorem iterate_ends {I J : σ → Prop} {μ : σ → Nat}
    (hturn : ∀ s, I s → Yields allowed (turn s) (Turn.Ends I J μ s)) {fuel : Nat} (hs : I s)
    (hf : μ s < fuel) : Yields allowed (iterate turn fuel s) fun result => ∃ s', result = some s' ∧ J s' := by
  induction fuel generalizing s with
  | zero => exact absurd hf (Nat.not_lt_zero _)
  | succ fuel ih =>
    apply Yields.bind (hturn s hs)
    intro result hres
    cases result with
    | done s' => exact Yields.of_ok ⟨s',rfl,hres⟩
    | next s' => exact ih hres.1 (by have := hres.2; omega)

/-- What a loop that is left by an exception does after a turn. -/
def afterTurn (k : σ → Option ε) : Except ε σ → Option ε
  | .error e => some e
  | .ok s => k s

def turns (turn : σ → Except ε σ) : Nat → σ → Option ε
  | 0, _ => none
  | fuel+1, s => afterTurn (turns turn fuel) (turn s)

theorem afterTurn_require {k : σ → Option ε} {c : Prop} [Decidable c] {e e' : ε} (hne : e ≠ e')
    {f : Unit → Except ε σ} (h : afterTurn k (require c e >>= f) = some e') : c ∧ afterTurn k (f ()) = some e' := by
  unfold require at h
  split at h
  · exact ⟨‹_›,h⟩
  · exact absurd (Option.some.inj h) hne

/-- The turns of a loop that takes a bounded number of them. -/
def iterateUpTo (turn : σ → Except ε (Turn σ)) : Nat → σ → Except ε σ
  | 0, s => .ok s
  | tries+1, s => do
      match ← turn s with
      | .done s' => return s'
      | .next s' => iterateUpTo turn tries s'

variable (I : σ → Prop)
/-- Whether it ends the loop or not, a turn leaves the property. -/
def Turn.Keeps : Turn σ → Prop
  | .done s => I s
  | .next s => I s

theorem iterateUpTo_yields {I : σ → Prop} (hturn : ∀ s, I s → Yields allowed (turn s) (Turn.Keeps I))
    {tries : Nat} (hs : I s) : Yields allowed (iterateUpTo turn tries s) I := by
  induction tries generalizing s with
  | zero => exact hs
  | succ tries ih =>
    apply Yields.bind (hturn s hs)
    intro result hres
    cases result with
    | done s' => exact hres
    | next s' => exact ih hres

/-- The state that a turn leaves has a property, and a lower measure unless the loop ends. -/
def Turn.Lowers (μ : σ → Nat) (s : σ) : Turn σ → Prop
  | .done s' => I s'
  | .next s' => I s' ∧ μ s' < μ s
variable {I : σ → Prop} {μ : σ → Nat} (hturn : ∀ s, I s → Yields allowed (turn s) (Turn.Lowers I μ s))
include hturn

theorem iterate_yields {fuel : Nat} (hs : I s) (hf : μ s < fuel) :
    Yields allowed (iterate turn fuel s) fun result => ∃ s', result = some s' ∧ I s' := by
  refine iterate_ends (fun s hs => (hturn s hs).mono fun result hres => ?_) hs hf
  cases result <;> exact hres

theorem Reached.invariant {s s' : σ} (hs : I s) (h : Reached turn s s') : I s' := by
  induction h with
  | refl => exact hs
  | tail _ hstep ih =>
    have hn := hturn _ ih
    rw [hstep] at hn
    exact hn.1
end Lcryp
