
/-!
# Stricter checks

A computation with checks is stricter than another one if the other accepts whatever it accepts, with the
same result.
-/
namespace Lcryp
variable {ε α β γ δ : Type}
/-- Whatever the first computation accepts, the second accepts with the same result. -/
def Stricter (x y : Except ε α) : Prop := ∀ a, x = .ok a → y = .ok a
def require (c : Prop) [Decidable c] (e : ε) : Except ε Unit := if c then .ok () else .error e

def checkWhen (c : Bool) (x : Except ε Unit) : Except ε Unit := if c then x else .ok ()
theorem ok_bind (a : α) (f : α → Except ε β) : (Except.ok a >>= f) = f a := rfl

theorem toOption_eq_some {x : Except ε α} {a : α} : x.toOption = some a ↔ x = .ok a := by
  cases x <;> simp [Except.toOption]

theorem bind_eq_ok {x : Except ε α} {f : α → Except ε β} {b : β} :
    (x >>= f) = .ok b ↔ ∃ a, x = .ok a ∧ f a = .ok b := by
  cases x <;> simp [bind,Except.bind]

theorem require_bind_eq_ok {c : Prop} [Decidable c] {e : ε} {f : Unit → Except ε β} {b : β} :
    (require c e >>= f) = .ok b ↔ c ∧ f () = .ok b := by
  by_cases hc : c <;> simp [require,hc,bind,Except.bind]

namespace Stricter
variable {x y : Except ε α}
@[refl] theorem refl (x : Except ε α) : Stricter x x := fun _ h => h

variable {f g : α → Except ε β}
theorem bind (hxy : Stricter x y) (hfg : ∀ a, Stricter (f a) (g a)) : Stricter (x >>= f) (y >>= g) := by
  intro b hb
  obtain ⟨a,hx,hf⟩ := bind_eq_ok.mp hb
  exact bind_eq_ok.mpr ⟨a,hxy a hx,hfg a b hf⟩

theorem followed (hxy : Stricter x y) (f : α → Except ε β) : Stricter (x >>= f) (y >>= f) :=
  bind hxy fun a => refl (f a)
theorem bind_same (hfg : ∀ a, Stricter (f a) (g a)) : Stricter (x >>= f) (x >>= g) := bind (refl x) hfg

/-- A check that only the first computation makes. -/
theorem check {c : Prop} [Decidable c] {e : ε} {f : Unit → Except ε α} (hf : c → Stricter (f ()) y) :
    Stricter (Lcryp.require c e >>= f) y := by
  intro a ha
  obtain ⟨hc,ha⟩ := require_bind_eq_ok.mp ha
  exact hf hc a ha

theorem foldlM {step step' : δ → α → Except ε δ} (hs : ∀ s a, Stricter (step s a) (step' s a)) (l : List α)
    (s : δ) : Stricter (l.foldlM step s) (l.foldlM step' s) := by
  induction l generalizing s with
  | nil => exact refl _
  | cons a rest ih => exact bind (hs s a) ih

theorem require {c d : Prop} [Decidable c] [Decidable d] {e : ε} (h : c → d) :
    Stricter (require c e) (require d e) := by
  intro u hu
  unfold Lcryp.require at hu ⊢
  split at hu
  · rename_i hc
    rw [if_pos (h hc)]
  · cases hu

theorem checkWhen {c d : Bool} {x y : Except ε Unit} (h : d = true → c = true)
    (hxy : d = true → Stricter x y) : Stricter (checkWhen c x) (checkWhen d y) := by
  intro u hu
  cases d with
  | false => rfl
  | true =>
    rw [h rfl] at hu
    exact hxy rfl u hu

theorem ite {c : Prop} [Decidable c] {x' y' : Except ε α} (hpos : Stricter x y)
    (hneg : Stricter x' y') : Stricter (if c then x else x') (if c then y else y') := by
  split
  · exact hpos
  · exact hneg
end Stricter

/-- The second computation accepts if the first does; the results may differ. -/
def Admits (x : Except ε α) (y : Except ε β) : Prop := ∀ a, x = .ok a → ∃ b, y = .ok b

namespace Admits
variable {x : Except ε α}
theorem error (e : ε) (y : Except ε β) : Admits (.error e : Except ε α) y := fun _ h => nomatch h
theorem ok (x : Except ε α) (b : β) : Admits x (.ok b : Except ε β) := fun _ _ => ⟨b,rfl⟩

variable {f : α → Except ε β}
theorem bind {y : Except ε α} {g : α → Except ε γ} (hxy : Stricter x y)
    (hfg : ∀ a, Admits (f a) (g a)) : Admits (x >>= f) (y >>= g) := by
  intro b hb
  obtain ⟨a,hx,hf⟩ := bind_eq_ok.mp hb
  rw [hxy a hx]
  exact hfg a b hf

theorem skip {y : Except ε γ} (hf : ∀ a, Admits (f a) y) : Admits (x >>= f) y := by
  intro b hb
  obtain ⟨a,-,hb⟩ := bind_eq_ok.mp hb
  exact hf a b hb

theorem bind_ok {y : Except ε β} {f : α → Except ε δ} {g : β → Except ε γ} (hxy : Admits x y)
    (hg : ∀ b, ∃ c, g b = .ok c) : Admits (x >>= f) (y >>= g) := by
  intro d hd
  cases x with
  | error e => cases hd
  | ok a =>
    obtain ⟨b,hb⟩ := hxy a rfl
    rw [hb]
    exact hg b

theorem stricter {x y : Except ε Unit} (hxy : Admits x y) : Stricter x y := by
  intro u hu
  obtain ⟨u,hy⟩ := hxy u hu
  exact hy
end Admits
end Lcryp
