import Lcryp.Framework.Stricter
import Mathlib.Data.List.Nodup

/-!
# Outcomes of computations that may stop

A computation yields a property if every result has it and every stop is an allowed one.
-/
namespace Lcryp
open List
variable {ε α β σ : Type} {allowed : ε → Prop}
/-- Every result has the property and every error is allowed. -/
def Yields (allowed : ε → Prop) (x : Except ε α) (P : α → Prop) : Prop :=
  match x with
  | .ok a => P a
  | .error e => allowed e
variable {s : σ} {e : ε} {c : Prop} {step : σ → α → Except ε σ} {x : Except ε α} {f : α → Except ε β}
    {P Q : α → Prop} {R : β → Prop}

namespace Yields
theorem of_ok {a : α} (h : P a) : Yields allowed (.ok a) P := h
theorem mono (h : Yields allowed x P) (hPQ : ∀ a, P a → Q a) : Yields allowed x Q := by
  cases x with
  | ok a => exact hPQ a h
  | error e => exact h

theorem bind (hx : Yields allowed x P)
    (hf : ∀ a, P a → Yields allowed (f a) R) : Yields allowed (x >>= f) R := by
  cases x with
  | ok a => exact hf a hx
  | error e => exact hx

theorem after (hf : ∀ a, Yields (fun _ => True) (f a) R) : Yields (fun _ => True) (x >>= f) R := by
  cases x with
  | ok a => exact hf a
  | error e => trivial

theorem require {c : Prop} [Decidable c] {e : ε} (h : c) : Yields allowed (require c e) fun _ => c := by
  rw [Lcryp.require,if_pos h]
  exact h

theorem check [Decidable c] (h : ¬ c → allowed e) : Yields allowed (Lcryp.require c e) fun _ => c := by
  unfold Lcryp.require
  split
  · assumption
  next hc => exact h hc

variable {I : List α → σ → Prop}
theorem foldlM {l : List α}
    (hst : ∀ done a rest s, l = done++a::rest → I done s → Yields allowed (step s a) (I (done++[a])))
    (hs : I [] s) : Yields allowed (l.foldlM step s) (I l) := by
  have hlo : ∀ rest done s, l = done++rest → I done s → Yields allowed (rest.foldlM step s) (I l) := by
    intro rest
    induction rest with
    | nil =>
      intro done s hl hdone
      rw [append_nil] at hl
      subst hl
      exact hdone
    | cons a rest ih =>
      intro done s hl hdone
      apply bind (hst done a rest s hl hdone)
      intro t ht
      exact ih (done++[a]) t (by rw [hl,append_assoc,singleton_append]) ht
  exact hlo l [] s rfl hs

theorem foldlM_nodup {l : List α} (hnd : l.Nodup)
    (hst : ∀ done a s, a ∉ done → (∀ b ∈ done++[a], b ∈ l) → I done s →
      Yields allowed (step s a) (I (done++[a])))
    (hs : I [] s) : Yields allowed (l.foldlM step s) (I l) := by
  refine foldlM ?_ hs
  rintro done a rest s rfl hdone
  refine hst done a s ?_ ?_ hdone
  · intro ha
    exact disjoint_of_nodup_append hnd ha mem_cons_self
  · intro b hb
    rw [mem_append,mem_singleton] at hb
    rw [mem_append,mem_cons]
    exact hb.imp_right .inl
end Yields

/-- A computation that does not stop, and whose result has the property. -/
abbrev Succeeds (x : Except ε α) (P : α → Prop) : Prop := Yields (fun _ => False) x P
theorem Succeeds.exists_ok {P : α → Prop} (h : Succeeds x P) : ∃ a, x = .ok a ∧ P a := by
  cases x with
  | ok a => exact ⟨a,rfl,h⟩
  | error e => exact h.elim

def stopOf : Except ε α → Option ε
  | .ok _ => none
  | .error e => some e

theorem stopOf_eq_some : stopOf x = some e ↔ x = .error e := by
  cases x <;> simp [stopOf]

/-- The condition holds if the computation gets to a result and fails if it meets the stop.  Results have a
property; other errors say nothing. -/
def StopsUnless (stop : ε) (x : Except ε α) (G : Prop) (Q : α → Prop) : Prop :=
  match x with
  | .ok a => G ∧ Q a
  | .error e => e = stop → ¬ G

/-- A condition at every step of a loop that is reached. -/
def AlongLoop (step : σ → α → Except ε σ) (G : σ → α → Prop) : σ → List α → Prop
  | _, [] => True
  | s, a::rest => G s a ∧ ∀ t, step s a = .ok t → AlongLoop step G t rest

namespace StopsUnless
variable {stop : ε} {G H : Prop}
theorem of_ok {a : α} (h : Q a) : StopsUnless stop (.ok a) True Q := ⟨trivial,h⟩
theorem congr (h : StopsUnless stop x G Q) (hGH : G ↔ H) : StopsUnless stop x H Q := by
  rwa [← propext hGH]
theorem mono (h : StopsUnless stop x G P) (hPQ : ∀ a, P a → Q a) : StopsUnless stop x G Q := by
  cases x with
  | ok a => exact ⟨h.1,hPQ a h.2⟩
  | error e => exact h

theorem bind_each {H : α → Prop} (hx : StopsUnless stop x G P)
    (hf : ∀ a, P a → StopsUnless stop (f a) (H a) R) :
    StopsUnless stop (x >>= f) (G ∧ ∀ a, x = .ok a → H a) R := by
  cases x with
  | error e => exact fun he hG => hx he hG.1
  | ok a =>
    refine (hf a hx.2).congr ⟨fun hH => ⟨hx.1,?_⟩,fun hH => hH.2 a rfl⟩
    rintro b hb
    cases hb
    exact hH

theorem bind (hx : StopsUnless stop x G P)
    (hf : ∀ a, P a → StopsUnless stop (f a) H R) : StopsUnless stop (x >>= f) (G ∧ H) R := by
  cases x with
  | error e => exact fun he hG => hx he hG.1
  | ok a => exact (hf a hx.2).congr (and_iff_right hx.1).symm

theorem after (hx : StopsUnless stop x True P)
    (hf : ∀ a, P a → StopsUnless stop (f a) H R) : StopsUnless stop (x >>= f) H R :=
  (hx.bind hf).congr (iff_of_eq (true_and H))

theorem before (hx : StopsUnless stop x G P)
    (hf : ∀ a, P a → StopsUnless stop (f a) True R) : StopsUnless stop (x >>= f) G R :=
  (hx.bind hf).congr (iff_of_eq (and_true G))

theorem check (stop : ε) (c : Prop) [Decidable c] :
    StopsUnless stop (Lcryp.require c stop) c fun _ => True := by
  unfold Lcryp.require
  split
  · next hc => exact ⟨hc,trivial⟩
  · next hc => exact fun _ => hc

theorem require (he : e ≠ stop) (c : Prop) [Decidable c] :
    StopsUnless stop (Lcryp.require c e) True fun _ => c := by
  unfold Lcryp.require
  split
  · next hc => exact ⟨trivial,hc⟩
  · exact fun heq => absurd heq he

variable {l : List α} {I : σ → Prop}
theorem foldlM {G : α → Prop} (hst : ∀ s a, I s → StopsUnless stop (step s a) (G a) I) (hs : I s) :
    StopsUnless stop (l.foldlM step s) (∀ a ∈ l, G a) I := by
  induction l generalizing s with
  | nil => exact ⟨nofun,hs⟩
  | cons a rest ih =>
    refine ((hst s a hs).bind fun t ht => ih ht).congr ?_
    rw [forall_mem_cons]

theorem each (hst : ∀ s a, I s → StopsUnless stop (step s a) True I)
    (hs : I s) : StopsUnless stop (l.foldlM step s) True I :=
  (foldlM hst hs).congr (iff_of_true (fun _ _ => trivial) trivial)

theorem alongLoop {G : σ → α → Prop} (hst : ∀ s a, I s → StopsUnless stop (step s a) (G s a) I) (hs : I s) :
    StopsUnless stop (l.foldlM step s) (AlongLoop step G s l) I := by
  induction l generalizing s with
  | nil => exact ⟨trivial,hs⟩
  | cons a rest ih =>
    exact (hst s a hs).bind_each fun t ht => ih ht

theorem ne_stop (h : StopsUnless stop x G Q) (hG : G) : x ≠ .error stop := by
  rintro rfl
  exact h rfl hG

theorem holds_of_ok {a : α} (h : StopsUnless stop x G Q) (hx : x = .ok a) : G := by
  rw [hx] at h
  exact h.1
end StopsUnless
end Lcryp
