import Mathlib.Data.List.Basic

/-!
# Runs of a partial step function

A run feeds a list of inputs to a step that may abort.
-/
namespace Lcryp.Run
open Option
variable {σ ι : Type}
def run (step : σ → ι → Option σ) : σ → List ι → Option σ
  | s, [] => some s
  | s, i::rest => (step s i).bind fun t => run step t rest

/-- Every state reached, the first included, has the property. -/
def EveryState (step : σ → ι → Option σ) (P : σ → Prop) : σ → List ι → Prop
  | s, [] => P s
  | s, i::rest => P s ∧ ∀ t, step s i = some t → EveryState step P t rest

/-- Every step taken meets the guard in the state it starts from. -/
def EveryStep (step : σ → ι → Option σ) (G : σ → ι → Prop) : σ → List ι → Prop
  | _, [] => True
  | s, i::rest => ∀ t, step s i = some t → G s i ∧ EveryStep step G t rest

variable {step : σ → ι → Option σ} {P I : σ → Prop} {G : σ → ι → Prop}
instance decidableEveryStep [∀ s i, Decidable (G s i)] :
    (s : σ) → (inputs : List ι) → Decidable (EveryStep step G s inputs)
  | _, [] => isTrue trivial
  | s, i::rest =>
    match h : step s i with
    | none => isTrue fun _ ht => nomatch h.symm.trans ht
    | some t =>
      have : Decidable (EveryStep step G t rest) := decidableEveryStep t rest
      decidable_of_iff (G s i ∧ EveryStep step G t rest)
        ⟨fun hg _ ht => some.inj (h.symm.trans ht) ▸ hg, fun hg => hg t h⟩

theorem EveryState.head {s : σ} {inputs : List ι} (h : EveryState step P s inputs) : P s := by
  cases inputs with
  | nil => exact h
  | cons i rest => exact h.1

variable {G' : σ → ι → Prop}
theorem everyStep_congr (h : ∀ s i, G s i ↔ G' s i) (s : σ)
    (inputs : List ι) : EveryStep step G s inputs ↔ EveryStep step G' s inputs := by
  have hGG : G = G' := funext fun s => funext fun i => propext (h s i)
  rw [hGG]

/-- Two guards that agree wherever an invariant holds, which may depend on the inputs to come. -/
theorem everyStep_iff_of_invariant {J : List ι → σ → Prop}
    (hJ : ∀ s i rest t, J (i::rest) s → step s i = some t → J rest t)
    (h : ∀ s i rest, J (i::rest) s → (G s i ↔ G' s i)) (inputs : List ι) (s : σ) (hs : J inputs s) :
    EveryStep step G s inputs ↔ EveryStep step G' s inputs := by
  induction inputs generalizing s with
  | nil => exact Iff.rfl
  | cons i rest ih =>
    refine forall_congr' fun t => imp_congr_right fun ht => ?_
    exact and_congr (h s i rest hs) (ih t (hJ s i rest t hs ht))

theorem everyState_iff_everyStep (hI : ∀ s i t, I s → step s i = some t → I t)
    (hst : ∀ s i t, I s → P s → step s i = some t → (P t ↔ G s i)) (inputs : List ι) (s : σ)
    (hs : I s) (hp : P s) : EveryState step P s inputs ↔ EveryStep step G s inputs := by
  induction inputs generalizing s with
  | nil => exact ⟨fun _ => trivial,fun _ => hp⟩
  | cons i rest ih =>
    constructor
    · rintro ⟨_,hn⟩ t ht
      have hpt : P t := (hn t ht).head
      exact ⟨(hst s i t hs hp ht).mp hpt,(ih t (hI s i t hs ht) hpt).mp (hn t ht)⟩
    · intro hgu
      refine ⟨hp,?_⟩
      intro t ht
      obtain ⟨hg,hr⟩ := hgu t ht
      exact (ih t (hI s i t hs ht) ((hst s i t hs hp ht).mpr hg)).mpr hr

theorem run_toOption {ε : Type} (f : σ → ι → Except ε σ) (inputs : List ι) (s : σ) :
    run (fun s i => (f s i).toOption) s inputs = (inputs.foldlM f s).toOption := by
  induction inputs generalizing s with
  | nil => rfl
  | cons i rest ih =>
    rw [run,List.foldlM_cons]
    cases f s i with
    | error stop => rfl
    | ok t => exact ih t

theorem run_invariant (hst : ∀ s i t, P s → step s i = some t → P t) (inputs : List ι) (s t : σ)
    (hs : P s) (hrun : run step s inputs = some t) : P t := by
  induction inputs generalizing s with
  | nil =>
    cases hrun
    exact hs
  | cons i rest ih =>
    obtain ⟨u,hu,hr⟩ := bind_eq_some_iff.mp hrun
    exact ih u (hst s i u hs hu) hr

theorem run_invariant_of_everyStep (hst : ∀ s i t, P s → G s i → step s i = some t → P t) (inputs : List ι)
    (s t : σ) (hs : P s) (hga : EveryStep step G s inputs) (hrun : run step s inputs = some t) : P t := by
  induction inputs generalizing s with
  | nil =>
    cases hrun
    exact hs
  | cons i rest ih =>
    obtain ⟨u,hu,hr⟩ := bind_eq_some_iff.mp hrun
    obtain ⟨hg,hgu⟩ := hga u hu
    exact ih u (hst s i u hs hg hu) hgu hr

theorem everyState_of_invariant (hst : ∀ s i t, P s → step s i = some t → P t) (inputs : List ι) (s : σ)
    (hs : P s) : EveryState step P s inputs := by
  induction inputs generalizing s with
  | nil => exact hs
  | cons i rest ih => exact ⟨hs,fun t ht => ih t (hst s i t hs ht)⟩

/-- A run of one step function is a run of another that agrees with it on good states.  What makes the
steps agree may be known of the last state only, if it then holds of all states before. -/
theorem run_transfer {step' : σ → ι → Option σ} {Q : σ → Prop} (hb : ∀ s i t, step s i = some t → Q t → Q s)
    (hse : ∀ s i t, P s → Q t → step s i = some t → step' s i = some t ∧ P t) (inputs : List ι) (s t : σ)
    (hs : P s) (ht : Q t) (hrun : run step s inputs = some t) : run step' s inputs = some t ∧ P t := by
  induction inputs generalizing s with
  | nil =>
    cases hrun
    exact ⟨rfl,hs⟩
  | cons i rest ih =>
    obtain ⟨u,hu,hre⟩ := bind_eq_some_iff.mp hrun
    have hQ : Q u := by
      by_contra hnot
      have hk : ∀ s i t, ¬ Q s → step s i = some t → ¬ Q t := fun s i t hs hst hQ => hs (hb s i t hst hQ)
      exact run_invariant hk rest u t hnot hre ht
    obtain ⟨hu',hPu⟩ := hse s i u hs hQ hu
    obtain ⟨hr,hPt⟩ := ih u hPu hre
    refine ⟨?_,hPt⟩
    rw [run,hu']
    exact hr
end Lcryp.Run
