import Lcryp.Framework.Stricter

/-!
# Programs over an interface

A program is a tree of calls to an interface.  A handler gives the operations a meaning on a state.
-/
namespace Lcryp.Interaction
structure Interface where
  Op : Type
  Res : Op → Type

variable {cond : Bool}
section Checks
variable {ε α β : Type}
def rejectIf (cond : Bool) (e : ε) : Except ε Unit := if cond then .error e else .ok ()

@[simp]
theorem rejectIf_eq_ok {e : ε} {u : Unit} : rejectIf cond e = .ok u ↔ cond = false := by
  cases cond <;> simp [rejectIf]
end Checks

inductive Program (S : Interface) (ε α : Type) : Type
  | pure (a : α)
  | throw (e : ε)
  | call (op : S.Op) (next : S.Res op → Program S ε α)

/-- The meaning of an interface on a state. -/
abbrev Handler (S : Interface) (σ ε : Type) := (op : S.Op) → σ → Except ε (S.Res op × σ)

variable {S : Interface}
namespace Program
variable {α β σ τ ε : Type}
def bind : Program S ε α → (α → Program S ε β) → Program S ε β
  | .pure a, f => f a
  | .throw e, _ => .throw e
  | .call op next, f => .call op fun r => bind (next r) f

instance : Monad (Program S ε) where
  pure := Program.pure
  bind := Program.bind

def perform (op : S.Op) : Program S ε (S.Res op) := .call op .pure
def throwIf (cond : Bool) (e : ε) : Program S ε Unit := if cond then .throw e else .pure ()

def run (h : Handler S σ ε) : Program S ε α → σ → Except ε (α × σ)
  | .pure a, s => .ok (a, s)
  | .throw e, _ => .error e
  | .call op next, s =>
    match h op s with
    | .error e => .error e
    | .ok (r, s') => run h (next r) s'

variable {h : Handler S σ ε}
@[simp]
theorem run_pure (a : α) (s : σ) : run h (Pure.pure a : Program S ε α) s = .ok (a, s) := rfl

@[simp]
theorem run_throw (e : ε) (s : σ) : run h (.throw e : Program S ε α) s = .error e := rfl

@[simp]
theorem run_perform (op : S.Op) (s : σ) : run h (perform op) s = h op s := by
  rw [perform,run]
  cases h op s <;> rfl

variable {s : σ}
@[simp]
theorem run_throwIf {e : ε} {out : Unit × σ} :
    run h (throwIf cond e) s = .ok out ↔ cond = false ∧ out = ((), s) := by
  cases cond with
  | true => simp [throwIf]
  | false => exact ⟨fun hout => ⟨rfl,(Except.ok.inj hout).symm⟩,fun hout => by rw [hout.2]; rfl⟩

theorem run_bind (p : Program S ε α) (f : α → Program S ε β) (s : σ) :
    run h (p >>= f) s =
      match run h p s with
      | .error e => .error e
      | .ok (a, s') => run h (f a) s' := by
  induction p generalizing s with
  | pure a => rfl
  | throw e => rfl
  | call op next ih =>
    change run h (.call op fun r => (next r).bind f) s = _
    rw [run,run]
    cases h op s with
    | error e => rfl
    | ok out => exact ih out.1 out.2

variable {p : Program S ε α} {f : α → Program S ε β} {out : β × σ}
theorem run_bind_eq_ok :
    run h (p >>= f) s = .ok out ↔ ∃ a s', run h p s = .ok (a, s') ∧ run h (f a) s' = .ok out := by
  rw [run_bind]
  cases run h p s with
  | error e => simp
  | ok mid =>
    constructor
    · intro hf
      exact ⟨mid.1,mid.2,rfl,hf⟩
    · rintro ⟨a,s',hmid,hf⟩
      cases hmid
      exact hf

theorem run_throwIf_bind {e : ε} {g : Unit → Program S ε β} :
    run h (throwIf cond e >>= g) s = .ok out ↔ cond = false ∧ run h (g ()) s = .ok out := by
  cases cond with
  | true => simp [throwIf,run_bind]
  | false => exact (and_iff_right rfl).symm

theorem run_bind_of_ok {s s' : σ} {a : α}
    (hp : run h p s = .ok (a, s')) : run h (p >>= f) s = run h (f a) s' := by
  rw [run_bind,hp]

theorem run_bind_transfer {g : Handler S σ ε}
    (hrun : run h (p >>= f) s = .ok out) (hp : ∀ mid, run h p s = .ok mid → run g p s = .ok mid)
    (hf : ∀ a s', run h p s = .ok (a, s') → run h (f a) s' = .ok out → run g (f a) s' = .ok out) :
    run g (p >>= f) s = .ok out := by
  obtain ⟨a,s',hfst,hr⟩ := run_bind_eq_ok.mp hrun
  exact run_bind_eq_ok.mpr ⟨a,s',hp _ hfst,hf a s' hfst hr⟩

variable {g : Handler S τ ε}
/-- If the right handler answers every operation as the left one, with related states, so does every
program. -/
theorem run_simulation (R : σ → τ → Prop)
    (hop : ∀ op s t r s', R s t → h op s = .ok (r, s') → ∃ t', g op t = .ok (r, t') ∧ R s' t')
    (p : Program S ε α) (s : σ) (t : τ) (a : α) (s' : σ) (hR : R s t)
    (hrun : run h p s = .ok (a, s')) : ∃ t', run g p t = .ok (a, t') ∧ R s' t' := by
  induction p generalizing s t with
  | pure b =>
    cases hrun
    exact ⟨t,rfl,hR⟩
  | throw e => cases hrun
  | call op next ih =>
    rw [run] at hrun
    cases hc : h op s with
    | error e =>
      rw [hc] at hrun
      cases hrun
    | ok out =>
      rw [hc] at hrun
      obtain ⟨t',hg,hR'⟩ := hop op s t out.1 out.2 hR hc
      obtain ⟨t'',hr,hR''⟩ := ih out.1 out.2 t' hR' hrun
      refine ⟨t'',?_,hR''⟩
      rw [run,hg]
      exact hr

def Calls (P : S.Op → Prop) : Program S ε α → Prop
  | .pure _ => True
  | .throw _ => True
  | .call op next => P op ∧ ∀ r, (next r).Calls P

section Calls
variable {P Q : S.Op → Prop}
@[simp]
theorem calls_pure (a : α) : (Pure.pure a : Program S ε α).Calls P := trivial

@[simp]
theorem calls_throw (e : ε) : (Program.throw e : Program S ε α).Calls P := trivial

@[simp]
theorem calls_throwIf (cond : Bool) (e : ε) : (throwIf cond e : Program S ε Unit).Calls P := by
  cases cond <;> exact trivial

@[simp]
theorem calls_perform (op : S.Op) : (perform op : Program S ε (S.Res op)).Calls P ↔ P op :=
  and_iff_left fun _ => trivial
theorem calls_bind (hp : p.Calls P) (hf : ∀ a, (f a).Calls P) : (p >>= f).Calls P := by
  induction p with
  | pure a => exact hf a
  | throw e => exact trivial
  | call op next ih => exact ⟨hp.1,fun r => ih r (hp.2 r)⟩

theorem Calls.mono (h : p.Calls P) (hPQ : ∀ op, P op → Q op) : p.Calls Q := by
  induction p with
  | pure a => exact trivial
  | throw e => exact trivial
  | call op next ih => exact ⟨hPQ op h.1,fun r => ih r (h.2 r)⟩

theorem Calls.run_state {s s' : σ} {a : α} (hc : p.Calls fun op => ∀ s r s', h op s = .ok (r, s') → s' = s)
    (hrun : run h p s = .ok (a, s')) : s' = s := by
  induction p generalizing s with
  | pure b => exact (Prod.mk.inj (Except.ok.inj hrun)).2.symm
  | throw e => cases hrun
  | call op next ih =>
    rw [run] at hrun
    cases hca : h op s with
    | error e =>
      rw [hca] at hrun
      cases hrun
    | ok out =>
      rw [hca] at hrun
      rw [ih out.1 (hc.2 out.1) hrun,hc.1 s out.1 out.2 hca]

theorem Calls.run_answer {t : τ} (hc : p.Calls fun op => ∃ r, h op s = .ok (r, s) ∧ g op t = .ok (r, t)) :
    (run h p s).map Prod.fst = (run g p t).map Prod.fst := by
  induction p with
  | pure a => rfl
  | throw e => rfl
  | call op next ih =>
    obtain ⟨⟨r,hs,ht⟩,hn⟩ := hc
    rw [run,run,hs,ht]
    exact ih r (hn r)
end Calls
end Program

/-- The handler that stops on operations outside a precondition. -/
def Handler.guard {S : Interface} {σ ε : Type} (h : Handler S σ ε) (pre : S.Op → σ → Bool)
    (refusal : ε) : Handler S σ ε :=
  fun op s => if pre op s then h op s else .error refusal

section Guard
variable {α σ ε : Type} {h : Handler S σ ε} {pre pre' : S.Op → σ → Bool} {refusal refusal' : ε}
theorem guard_eq_ok {op : S.Op} {s : σ} {out : S.Res op × σ} :
    h.guard pre refusal op s = .ok out ↔ pre op s = true ∧ h op s = .ok out := by
  unfold Handler.guard
  by_cases hpre : pre op s = true <;> simp [hpre]

variable {p : Program S ε α}
theorem run_of_guard {s s' : σ} {a : α}
    (hrun : p.run (h.guard pre refusal) s = .ok (a, s')) : p.run h s = .ok (a, s') := by
  have hop : ∀ op s t r s', s = t → h.guard pre refusal op s = .ok (r, s') →
      ∃ t', h op t = .ok (r, t') ∧ s' = t' := by
    rintro op s t r s' rfl hok
    exact ⟨s',(guard_eq_ok.mp hok).2,rfl⟩
  obtain ⟨t',ht,rfl⟩ := Program.run_simulation (fun s t => s = t) hop p s s a s' rfl hrun
  exact ht

theorem run_guard_of_calls (s : σ)
    (hc : p.Calls fun op => ∀ s, pre op s = true) : p.run (h.guard pre refusal) s = p.run h s := by
  induction p generalizing s with
  | pure a => rfl
  | throw e => rfl
  | call op next ih =>
    rw [Program.run,Program.run,Handler.guard,if_pos (hc.1 s)]
    cases h op s with
    | error e => rfl
    | ok out => exact ih out.1 out.2 (hc.2 out.1)
end Guard
end Lcryp.Interaction
