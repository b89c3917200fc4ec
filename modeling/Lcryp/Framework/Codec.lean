import Mathlib.Tactic.NormNum

/-!
# Byte codecs

A reader takes bytes from the front of its input or fails.
-/
namespace Lcryp.Codec
abbrev Bytes := List UInt8
abbrev Reader (ε : Type) := StateT Bytes (Except ε)

variable {ε α β : Type}
@[simp]
theorem run_throw_ne_ok (e : ε) (s : Bytes) (out : α × Bytes) :
    (throw e : Reader ε α).run s = .ok out ↔ False := by
  simp [throw,throwThe,MonadExceptOf.throw]

@[simp]
theorem run_pure_eq_ok (a b : α) (s rest : Bytes) :
    (pure a : Reader ε α).run s = .ok (b, rest) ↔ a = b ∧ s = rest := by
  change Except.ok (a, s) = Except.ok (b, rest) ↔ a = b ∧ s = rest
  simp

variable {r : Reader ε α} {f : α → Reader ε β}
@[simp]
theorem run_bind_eq_ok {s : Bytes} {out : β × Bytes} :
    (r >>= f).run s = .ok out ↔ ∃ a mid, r.run s = .ok (a, mid) ∧ (f a).run mid = .ok out := by
  rw [StateT.run_bind]
  cases r.run s with
  | error e => simp [bind,Except.bind]
  | ok p =>
    obtain ⟨a,mid⟩ := p
    simp [bind,Except.bind]

/-- The reader returns the value from these bytes, whatever follows them. -/
def Decodes (r : Reader ε α) (bytes : Bytes) (a : α) : Prop := ∀ rest, r.run (bytes++rest) = .ok (a, rest)

/-- Whatever the reader accepts is what the writer makes of the result. -/
def Canonical (r : Reader ε α) (write : α → Bytes) : Prop :=
  ∀ s a rest, r.run s = .ok (a, rest) → s = write a++rest
theorem Decodes.pure (a : α) : Decodes (pure a : Reader ε α) [] a := fun _ => rfl

variable {bytes : Bytes} {a : α}
theorem Decodes.run_bind
    (h : Decodes r bytes a) (rest : Bytes) : (r >>= f).run (bytes++rest) = (f a).run rest := by
  rw [StateT.run_bind,h rest]
  rfl

theorem run_bind_of_error {s : Bytes} {e : ε} (h : r.run s = .error e) : (r >>= f).run s = .error e := by
  rw [StateT.run_bind,h]
  rfl

theorem Decodes.bind {first second : Bytes} {b : β}
    (h : Decodes r first a) (h' : Decodes (f a) second b) : Decodes (r >>= f) (first++second) b := by
  intro rest
  rw [List.append_assoc,h.run_bind]
  exact h' rest

theorem Decodes.bind_pure {b : β}
    (h : Decodes r bytes a) (hf : f a = Pure.pure b) : Decodes (r >>= f) bytes b := by
  intro rest
  rw [h.run_bind,hf]
  rfl

theorem Decodes.map (f : α → β) (h : Decodes r bytes a) : Decodes (f <$> r) bytes (f a) := by
  intro rest
  simp [h rest]

theorem Decodes.unique {first second s t : Bytes} {a b : α} (h : Decodes r first a)
    (h' : Decodes r second b) (heq : first++s = second++t) : a = b ∧ s = t := by
  have hrun := h s
  rw [heq,h' t] at hrun
  simp only [Except.ok.injEq,Prod.mk.injEq] at hrun
  exact ⟨hrun.1.symm,hrun.2.symm⟩

def readBytes (eof : ε) (n : Nat) : Reader ε Bytes := fun s =>
  if n ≤ s.length then .ok (s.take n, s.drop n) else .error eof

variable {s rest : Bytes} {n : Nat}
theorem readBytes_eq_ok {eof : ε} :
    (readBytes eof n).run s = .ok (bytes, rest) ↔ s = bytes++rest ∧ bytes.length = n := by
  simp only [readBytes,StateT.run]
  constructor
  · intro h
    split at h
    · rename_i hle
      simp only [Except.ok.injEq,Prod.mk.injEq] at h
      simp [← h.1,← h.2,hle]
    · cases h
  · rintro ⟨rfl,rfl⟩
    simp

theorem readBytes_decodes (eof : ε) (bytes : Bytes) : Decodes (readBytes eof bytes.length) bytes bytes :=
  fun _ => readBytes_eq_ok.mpr ⟨rfl,rfl⟩

/-- The low bytes of a number, the lowest first. -/
def leBytes : Nat → Nat → Bytes
  | 0, _ => []
  | k+1, n => UInt8.ofNat (n % 256)::leBytes k (n/256)

def leValue : Bytes → Nat
  | [] => 0
  | b::bs => b.toNat + 256 * leValue bs

@[simp]
theorem leBytes_length (k n : Nat) : (leBytes k n).length = k := by
  induction k generalizing n with
  | zero => rfl
  | succ k ih => simp [leBytes,ih]

theorem leValue_leBytes (k n : Nat) : leValue (leBytes k n) = n % 256^k := by
  induction k generalizing n with
  | zero => simp [leBytes,leValue,Nat.mod_one]
  | succ k ih =>
    have hb : (UInt8.ofNat (n % 256)).toNat = n % 256 := by simp
    rw [leBytes,leValue,ih,hb,Nat.pow_succ',Nat.mod_mul]

theorem leValue_lt (bs : Bytes) : leValue bs < 256^bs.length := by
  induction bs with
  | nil => simp [leValue]
  | cons b bs ih =>
    have hb := b.toNat_lt
    rw [leValue,List.length_cons]
    omega

theorem leBytes_leValue (bs : Bytes) : leBytes bs.length (leValue bs) = bs := by
  induction bs with
  | nil => rfl
  | cons b bs ih =>
    have hb := b.toNat_lt
    have hmod : (b.toNat + 256 * leValue bs) % 256 = b.toNat := by omega
    have hdiv : (b.toNat + 256 * leValue bs) / 256 = leValue bs := by omega
    rw [List.length_cons,leBytes,leValue,hmod,hdiv,ih,UInt8.ofNat_toNat]

def readLe (eof : ε) (k : Nat) : Reader ε Nat := leValue <$> readBytes eof k
theorem readLe_decodes (eof : ε) {k n : Nat} (h : n < 256^k) : Decodes (readLe eof k) (leBytes k n) n := by
  have hr := (readBytes_decodes eof (leBytes k n)).map leValue
  rw [leBytes_length,leValue_leBytes,Nat.mod_eq_of_lt h] at hr
  exact hr

theorem readLe_eq_ok {eof : ε} {k n : Nat}
    (h : (readLe eof k).run s = .ok (n, rest)) : s = leBytes k n++rest ∧ n < 256^k := by
  rw [readLe,map_eq_pure_bind] at h
  simp only [run_bind_eq_ok] at h
  obtain ⟨bytes,mid,hb,rfl,rfl⟩ := h
  obtain ⟨rfl,rfl⟩ := readBytes_eq_ok.mp hb
  exact ⟨by rw [leBytes_leValue],leValue_lt bytes⟩

def readMany (r : Reader ε α) : Nat → Reader ε (List α)
  | 0 => pure []
  | n+1 => do
      let a ← r
      let rest ← readMany r n
      return a::rest

variable {items : List α} {write : α → Bytes}
theorem readMany_decodes (h : ∀ a ∈ items, Decodes r (write a) a) :
    Decodes (readMany r items.length) (items.flatMap write) items := by
  induction items with
  | nil => exact Decodes.pure []
  | cons a rest ih =>
    rw [List.forall_mem_cons] at h
    apply Decodes.bind h.1
    exact Decodes.bind_pure (ih h.2) rfl

theorem readMany_eq_ok (hr : Canonical r write)
    (h : (readMany r n).run s = .ok (items, rest)) : s = items.flatMap write++rest ∧ items.length = n := by
  induction n generalizing items s with
  | zero =>
    simp only [readMany,run_pure_eq_ok] at h
    simp [← h.1,h.2]
  | succ n ih =>
    simp only [readMany,run_bind_eq_ok] at h
    obtain ⟨a,mid,ha,others,last,ho,rfl,rfl⟩ := h
    obtain ⟨rfl,rfl⟩ := ih ho
    simp [hr _ _ _ ha]

theorem readMany_forall {P : α → Prop} (hr : ∀ s a rest, r.run s = .ok (a, rest) → P a)
    (h : (readMany r n).run s = .ok (items, rest)) : ∀ a ∈ items, P a := by
  induction n generalizing items s with
  | zero =>
    simp only [readMany,run_pure_eq_ok] at h
    simp [← h.1]
  | succ n ih =>
    simp only [readMany,run_bind_eq_ok] at h
    obtain ⟨a,mid,ha,others,last,ho,rfl,rfl⟩ := h
    exact List.forall_mem_cons.mpr ⟨hr _ _ _ ha,ih ho⟩
end Lcryp.Codec
