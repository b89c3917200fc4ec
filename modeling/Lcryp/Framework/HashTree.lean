import Mathlib.Data.Nat.Bitwise
import Mathlib.Logic.Function.Iterate

/-!
# Hash trees by levels

A level of a hash tree hashes neighbours of the level below; a last node without a neighbour is hashed with
itself.
-/
namespace Lcryp.HashTree
open List
variable {α : Type} (hash : α → α → α)
def pairUp : List α → List α
  | a::b::rest => hash a b::pairUp rest
  | [a] => [hash a a]
  | [] => []

/-- Neighbours that are hashed together are equal somewhere. -/
def hasTwins [DecidableEq α] : List α → Bool
  | a::b::rest => a = b || hasTwins rest
  | _ => false

@[simp]
theorem pairUp_length (l : List α) : (pairUp hash l).length = (l.length+1) / 2 := by
  induction l using pairUp.induct with
  | case1 a b rest ih =>
    simp only [pairUp,length_cons]
    omega
  | case2 a => simp [pairUp]
  | case3 => simp [pairUp]

theorem pairUp_getD (l : List α) (d : α) (pos : Nat) (h : 2 * pos < l.length) :
    (pairUp hash l).getD pos d =
      hash (l.getD (2*pos) d)
        (if 2 * pos + 1 < l.length then l.getD (2 * pos + 1) d else l.getD (2*pos) d) := by
  induction l using pairUp.induct generalizing pos with
  | case1 a b rest ih =>
    cases pos with
    | zero => simp [pairUp]
    | succ pos =>
      simp only [length_cons] at h
      rw [pairUp,getD_cons_succ,ih pos (by omega)]
      have hright : 2 * (pos+1) + 1 < rest.length + 2 ↔ 2 * pos + 1 < rest.length := by omega
      simp only [length_cons,hright]
      rfl
  | case2 a =>
    simp only [length_singleton] at h
    obtain rfl : pos = 0 := by omega
    simp [pairUp]
  | case3 => simp at h

theorem getD_ne_of_hasTwins [DecidableEq α] {l : List α} (htwins : hasTwins l = false) (d : α) (pos : Nat)
    (h : 2 * pos + 1 < l.length) : l.getD (2 * pos + 1) d ≠ l.getD (2*pos) d := by
  induction l using pairUp.induct generalizing pos with
  | case1 a b rest ih =>
    simp only [hasTwins,Bool.or_eq_false_iff,decide_eq_false_iff_not] at htwins
    cases pos with
    | zero => simpa using Ne.symm htwins.1
    | succ pos =>
      simp only [length_cons] at h
      exact ih htwins.2 pos (by omega)
  | case2 a =>
    simp only [length_singleton] at h
    omega
  | case3 => simp at h

def pairs : List α → List (α × α)
  | a::b::rest => (a, b)::pairs rest
  | [a] => [(a, a)]
  | [] => []

/-- A level without twins is read back from the level above it, as far as the hash of its pairs is. -/
theorem pairUp_injective [DecidableEq α] {l l' : List α}
    (hinj : ∀ p ∈ pairs l, ∀ q ∈ pairs l', hash p.1 p.2 = hash q.1 q.2 → p = q) (htwins : hasTwins l = false)
    (htwins' : hasTwins l' = false) (h : pairUp hash l = pairUp hash l') : l = l' := by
  induction l using pairUp.induct generalizing l' with
  | case1 a b rest ih =>
    simp only [hasTwins,Bool.or_eq_false_iff,decide_eq_false_iff_not] at htwins
    cases l' using pairUp.induct with
    | case1 a' b' rest' =>
      simp only [hasTwins,Bool.or_eq_false_iff] at htwins'
      simp only [pairUp,cons.injEq] at h
      have hhead := hinj (a, b) (by simp [pairs]) (a', b') (by simp [pairs]) h.1
      have htail : rest = rest' := by
        apply ih _ htwins.2 htwins'.2 h.2
        intro p hp q hq
        exact hinj p (by simp [pairs,hp]) q (by simp [pairs,hq])
      simp_all
    | case2 a' =>
      -- the last node of the other level is hashed with itself, so this one would have twins
      simp only [pairUp,cons.injEq] at h
      cases hinj (a, b) (by simp [pairs]) (a', a') (by simp [pairs]) h.1
      exact absurd rfl htwins.1
    | case3 => simp [pairUp] at h
  | case2 a =>
    cases l' using pairUp.induct with
    | case1 a' b' rest' =>
      simp only [hasTwins,Bool.or_eq_false_iff,decide_eq_false_iff_not] at htwins'
      simp only [pairUp,cons.injEq] at h
      cases hinj (a, a) (by simp [pairs]) (a', b') (by simp [pairs]) h.1
      exact absurd rfl htwins'.1
    | case2 a' =>
      cases hinj (a, a) (by simp [pairs]) (a', a') (by simp [pairs]) (by simpa [pairUp] using h)
      rfl
    | case3 => simp [pairUp] at h
  | case3 =>
    cases l' using pairUp.induct with
    | case3 => rfl
    | case1 | case2 => simp [pairUp] at h

def level (leaves : List α) (height : Nat) : List α := (pairUp hash)^[height] leaves

variable (leaves : List α)
theorem level_succ (height : Nat) : level hash leaves (height+1) = pairUp hash (level hash leaves height) :=
  Function.iterate_succ_apply' _ _ _

theorem level_length (height : Nat) :
    (level hash leaves height).length = (leaves.length + 2^height - 1) / 2^height := by
  induction height with
  | zero => simp [level]
  | succ height ih =>
    have hpos : 0 < 2^height := Nat.two_pow_pos height
    rw [level_succ,pairUp_length,ih,← Nat.add_div_right _ hpos,Nat.div_div_eq_div_mul]
    congr 1
    omega

def hashedPairs (leaves : List α) (height : Nat) : List (α × α) :=
  (List.range height).flatMap fun k => pairs (level hash leaves k)

theorem level_injective [DecidableEq α] {leaves leaves' : List α} (height : Nat)
    (hinj : ∀ p ∈ hashedPairs hash leaves height, ∀ q ∈ hashedPairs hash leaves' height,
      hash p.1 p.2 = hash q.1 q.2 → p = q) (htwins : ∀ k < height, hasTwins (level hash leaves k) = false)
    (htwins' : ∀ k < height, hasTwins (level hash leaves' k) = false)
    (h : level hash leaves height = level hash leaves' height) : leaves = leaves' := by
  induction height with
  | zero => exact h
  | succ height ih =>
    simp only [hashedPairs,range_succ,flatMap_append,mem_append] at hinj
    rw [level_succ,level_succ] at h
    apply ih (fun p hp q hq => hinj p (.inl hp) q (.inl hq))
      (fun k hk => htwins k (by omega)) (fun k hk => htwins' k (by omega))
    apply pairUp_injective hash _ (htwins height (by omega)) (htwins' height (by omega)) h
    intro p hp q hq
    exact hinj p (.inr (by simpa using hp)) q (.inr (by simpa using hq))
end Lcryp.HashTree
