import Lcryp.Framework.Outcome

/-!
# Randomised programs

A program draws numbers from a stream.  A property that it ensures holds for every stream.
-/
namespace Lcryp
/-- A program with the numbers that it has not drawn yet. -/
abbrev Randomized (ε α : Type) := StateT (Nat → Nat) (Except ε) α

variable {ε α β σ : Type}
def draw : Randomized ε Nat := fun stream => .ok (stream 0, fun i => stream (i+1))
def drawBelow (n : Nat) : Randomized ε Nat := do
  let r ← draw
  return r % n

def drawBool : Randomized ε Bool := do
  let r ← draw
  return r % 2 == 1

/-- Whatever is drawn, every result has the property and every stop is an allowed one. -/
def Ensures (allowed : ε → Prop) (x : Randomized ε α) (P : α → Prop) : Prop :=
  ∀ stream, Yields allowed (x stream) fun r => P r.1

/-- The program does not stop, and its result has the property. -/
abbrev Surely (x : Randomized ε α) (P : α → Prop) : Prop := Ensures (fun _ => False) x P

variable {f : α → Randomized ε β} {x : Randomized ε α} {allowed : ε → Prop}
namespace Ensures
variable {P Q : α → Prop}
theorem pure {a : α} (h : P a) : Ensures allowed (pure a : Randomized ε α) P := fun _ => h
theorem mono (h : Ensures allowed x P) (hPQ : ∀ a, P a → Q a) : Ensures allowed x Q :=
  fun stream => (h stream).mono fun r hr => hPQ r.1 hr
theorem bind {R : β → Prop} (hx : Ensures allowed x P)
    (hf : ∀ a, P a → Ensures allowed (f a) R) : Ensures allowed (x >>= f) R :=
  fun stream => (hx stream).bind fun r hr => hf r.1 hr r.2

theorem lift {y : Except ε α} (h : Yields allowed y P) : Ensures allowed (StateT.lift y) P :=
  fun _ => h.bind fun _ ha => ha
theorem draw : Ensures allowed (draw : Randomized ε Nat) fun _ => True := fun _ => trivial
theorem drawBelow (n : Nat) (hn : 0 < n) : Ensures allowed (drawBelow n : Randomized ε Nat) (· < n) :=
  draw.bind fun _ _ => pure (Nat.mod_lt _ hn)
theorem drawBool : Ensures allowed (drawBool : Randomized ε Bool) fun _ => True :=
  draw.bind fun _ _ => pure trivial

theorem foldlM {step : σ → α → Randomized ε σ} {I : List α → σ → Prop} {l : List α} {s : σ}
    (hst : ∀ done a rest s, l = done++a::rest → I done s → Ensures allowed (step s a) (I (done++[a])))
    (hs : I [] s) : Ensures allowed (l.foldlM step s) (I l) := by
  have hlo : ∀ rest done s, l = done++rest → I done s → Ensures allowed (rest.foldlM step s) (I l) := by
    intro rest
    induction rest with
    | nil =>
      intro done s hl hdone
      rw [List.append_nil] at hl
      subst hl
      exact pure hdone
    | cons a rest ih =>
      intro done s hl hdone
      apply bind (hst done a rest s hl hdone)
      intro t ht
      exact ih (done++[a]) t (by rw [hl,List.append_assoc,List.singleton_append]) ht
  exact hlo l [] s rfl hs
end Ensures

theorem bind_ok_run {stream stream' : Nat → Nat}
    {a : α} (h : x stream = .ok (a, stream')) : (x >>= f) stream = f a stream' := by
  show (x stream >>= fun r => f r.1 r.2) = _
  rw [h]
  rfl

theorem bind_stop_run {stream : Nat → Nat} {e : ε} (h : x stream = .error e) : (x >>= f) stream = .error e := by
  show (x stream >>= fun r => f r.1 r.2) = _
  rw [h]
  rfl

theorem yields_run_lift (y : Except ε α) (stream : Nat → Nat) {P : α × (Nat → Nat) → Prop} :
    Yields allowed ((StateT.lift y : Randomized ε α) stream) P ↔ Yields allowed y fun a => P (a, stream) := by
  cases y <;> exact Iff.rfl

def swapHead (a : α) (l : List α) : Nat → α × List α
  | 0 => (a, l)
  | j+1 =>
    match l[j]? with
    | some b => (b, l.set j a)
    | none => (a, l)

theorem set_perm {l : List α} {j : Nat} {a b : α} (h : l[j]? = some b) : (b::l.set j a).Perm (a::l) := by
  induction l generalizing j with
  | nil => cases h
  | cons c l ih =>
    cases j with
    | zero =>
      obtain rfl : c = b := by simpa using h
      exact .swap _ _ _
    | succ j =>
      have hl := ih (by simpa using h)
      exact (List.Perm.swap c b _).trans ((hl.cons c).trans (.swap a c l))

theorem swapHead_perm (a : α) (l : List α) (j : Nat) :
    ((swapHead a l j).1::(swapHead a l j).2).Perm (a::l) := by
  cases j with
  | zero => exact .refl _
  | succ j =>
    rw [swapHead]
    split
    next b hb => exact set_perm hb
    · exact .refl _

/-- Each of the first positions is exchanged with a random one that is not before it. -/
def shuffleFrom : Nat → List α → Randomized ε (List α)
  | 0, l => pure l
  | _+1, [] => pure []
  | n+1, a::l => do
      let j ← drawBelow (l.length+1)
      let swapped := swapHead a l j
      let rest ← shuffleFrom n swapped.2
      return swapped.1::rest

def shuffle (l : List α) : Randomized ε (List α) := shuffleFrom l.length l

theorem shuffleFrom_perm (n : Nat) (l : List α) :
    Ensures allowed (shuffleFrom n l : Randomized ε (List α)) (·.Perm l) := by
  induction n generalizing l with
  | zero => exact .pure (.refl l)
  | succ n ih =>
    cases l with
    | nil => exact .pure (.refl _)
    | cons a l =>
      apply (Ensures.drawBelow _ (Nat.succ_pos _)).bind
      intro j _
      apply (ih (swapHead a l j).2).bind
      intro rest hr
      exact .pure ((hr.cons _).trans (swapHead_perm a l j))

theorem shuffle_perm (l : List α) : Ensures allowed (shuffle l : Randomized ε (List α)) (·.Perm l) :=
  shuffleFrom_perm _ l
end Lcryp
