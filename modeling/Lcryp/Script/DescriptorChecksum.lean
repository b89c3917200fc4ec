import Lcryp.Framework.Radix
import Lcryp.Framework.Stricter
import Mathlib.Data.Nat.Bitwise

/-!
# The checksum of a descriptor

Every character gives one symbol, and every group of three gives one more, for their classes.  A register of
eight symbols takes them in.
-/
namespace Lcryp.DescriptorChecksum
open List Nat Radix
def inputCharset : List Char :=
  ("0123456789()[],'/*abcdefgh@:$%\x7b\x7d" ++ "IJKLMNOPQRSTUVWXYZ&+-.;<=>?!^_|~" ++
    "ijklmnopqrstuvwxyzABCDEFGH`#\"\\ ").toList

def checksumCharset : List Char := "qpzry9x8gf2tvdw0s3jn54khce6mua7l".toList
def polyMod (c val : Nat) : Nat :=
  let c0 := (c >>> 35) % 2^8
  ((c &&& 0x7ffffffff) <<< 5) ^^^ val ^^^ (if c0.testBit 0 then 0xf5dee51989 else 0) ^^^
    (if c0.testBit 1 then 0xa9fdca3312 else 0) ^^^ (if c0.testBit 2 then 0x1bab10e32d else 0) ^^^
    (if c0.testBit 3 then 0x3706b1677a else 0) ^^^ (if c0.testBit 4 then 0x644d626ffd else 0)

def checksumLoop : List Char → Nat → Nat → Nat → Option Nat
  | [], c, cls, clscount => some (if clscount > 0 then polyMod c cls else c)
  | ch::span, c, cls, clscount =>
    match inputCharset.idxOf? ch with
    | none => none
    | some pos =>
      let c := polyMod c (pos &&& 31)
      let cls := cls * 3 + pos >>> 5
      if clscount + 1 = 3 then checksumLoop span (polyMod c cls) 0 0
      else checksumLoop span c cls (clscount+1)

def descriptorChecksum (span : List Char) : List Char :=
  match checksumLoop span 1 0 0 with
  | none => []
  | some c =>
    let c := (replicate 8 0).foldl polyMod c ^^^ 1
    (range 8).map fun j => checksumCharset.getD (c >>> (5 * (7-j)) &&& 31) ' '

def checkChecksum (sp : List Char) (requireChecksum : Bool) : Except String (List Char × List Char) := do
  let split := sp.splitOn '#'
  let payload := split.getD 0 []
  let provided := split.getD 1 []
  require (split.length ≤ 2) "Multiple '#' symbols"
  require (¬(split.length = 1 ∧ requireChecksum)) "Missing checksum"
  require (split.length = 2 → provided.length = 8)
    s!"Expected 8 character checksum, not {provided.length} characters"
  let checksum := descriptorChecksum payload
  require (checksum ≠ []) "Invalid characters in payload"
  require (split.length = 2 → checksum = provided)
    s!"Provided checksum '{String.ofList provided}' does not match computed checksum '{String.ofList checksum}'"
  return (payload, checksum)

theorem ite_xor (a b : Bool) (g : Nat) :
    (if (a ^^ b) then g else 0) = (if a then g else 0) ^^^ (if b then g else 0) := by
  cases a <;> cases b <;> simp

theorem polyMod_xor (c d v w : Nat) : polyMod (c ^^^ d) (v ^^^ w) = polyMod c v ^^^ polyMod d w := by
  simp only [polyMod,shiftRight_xor_distrib,testBit_mod_two_pow,testBit_xor,Bool.and_xor_distrib_left,ite_xor,
    and_xor_distrib_right,shiftLeft_xor_distrib]
  ac_rfl

theorem polyMod_small {d v : Nat} (hd : d < 2^35) (hv : v < 2^5) : polyMod d v = 2^5 * d + v := by
  have hh : d >>> 35 = 0 := by rw [shiftRight_eq_div_pow,div_eq_of_lt hd]
  have hl : d &&& 0x7ffffffff = d := and_two_pow_sub_one_of_lt_two_pow hd
  simp [polyMod,hh,hl,shiftLeft_xor_eq_add d hv]

theorem polyMod_top : ∀ q < 32, polyMod (2^35*q) 0 < 2^40 ∧ (polyMod (2^35*q) 0 % 2^5 = 0 → q = 0) := by
  decide

/-- The low bits of what leaves the register show which symbol has left. -/
theorem polyMod_ne_zero {d : Nat} (hd : d < 2^40) (hne : d ≠ 0) : polyMod d 0 < 2^40 ∧ polyMod d 0 ≠ 0 := by
  have hr : d % 2^35 < 2^35 := mod_lt _ (by decide)
  have hs : polyMod d 0 = polyMod (2^35 * (d / 2^35)) 0 ^^^ 2^5 * (d % 2^35) := by
    have := polyMod_xor (2^35 * (d / 2^35)) (d % 2^35) 0 0
    rw [polyMod_small hr (by decide),mul_comm,← shiftLeft_eq,shiftLeft_xor_eq_add _ hr,div_add_mod] at this
    rw [mul_comm,← shiftLeft_eq]
    exact this
  obtain ⟨hlt,hz⟩ := polyMod_top (d / 2^35) (by omega)
  rw [hs]
  refine ⟨xor_lt_two_pow hlt (by omega),fun h => hne ?_⟩
  have he := Nat.xor_eq_zero_iff.mp h
  have := hz (by omega)
  rw [this,mul_zero] at he
  have h0 : polyMod 0 0 = 0 := by decide
  omega

def Apart (c d : Nat) : Prop := c ^^^ d < 2^40 ∧ c ^^^ d ≠ 0

theorem Apart.push {c d : Nat} (h : Apart c d) (v : Nat) : Apart (polyMod c v) (polyMod d v) := by
  unfold Apart
  rw [← polyMod_xor,Nat.xor_self]
  exact polyMod_ne_zero h.1 h.2

variable {c d v w m n k : Nat} {s t : List Char} {u p q : List Nat}
theorem Apart.fold (h : Apart c d) (u : List Nat) : Apart (u.foldl polyMod c) (u.foldl polyMod d) := by
  induction u generalizing c d with
  | nil => exact h
  | cons v u ih => exact ih (h.push v)

/-- Until a symbol leaves the register, the difference has the digits of the symbols' differences. -/
theorem xor_fold (hlen : p.length = q.length) (hp : ∀ v ∈ p, v < 32) (hq : ∀ v ∈ q, v < 32)
    (hm : m + p.length ≤ 8) (hd : c ^^^ d < 32^m) (hne : c ^^^ d ≠ 0 ∨ p ≠ q) :
    Apart (p.foldl polyMod c) (q.foldl polyMod d) := by
  induction p generalizing q c d m with
  | nil =>
    obtain rfl := eq_nil_of_length_eq_zero hlen.symm
    exact ⟨hd.trans_le ((Nat.pow_le_pow_right (by decide) hm).trans_eq rfl),by simpa using hne⟩
  | cons v p ih =>
    cases q with
    | nil => cases hlen
    | cons w q =>
      rw [forall_mem_cons] at hp hq
      rw [length_cons] at hm
      have hx : v ^^^ w < 2^5 := xor_lt_two_pow hp.1 hq.1
      have hle : 32^m ≤ 2^35 := (Nat.pow_le_pow_right (by decide) (by omega : m ≤ 7)).trans_eq rfl
      have hs : polyMod c v ^^^ polyMod d w = 2^5 * (c ^^^ d) + (v ^^^ w) := by
        rw [← polyMod_xor,polyMod_small (hd.trans_le hle) hx]
      apply ih (succ.inj hlen) hp.2 hq.2 (by omega : m + 1 + p.length ≤ 8) <;> rw [hs]
      · omega
      · by_cases hvw : v = w
        · refine hne.imp (by omega) fun h hpq => h (by rw [hvw,hpq])
        · have := mt Nat.xor_eq_zero_iff.mp hvw
          omega

def symbols : List Nat → List Nat
  | x::y::z::p => x % 32::y % 32::z % 32::((x/32*3 + y/32)*3 + z/32)::symbols p
  | [x, y] => [x % 32, y % 32, x/32*3 + y/32]
  | [x] => [x % 32, x/32]
  | [] => []

theorem idxOf?_eq {ch : Char} (h : ch ∈ inputCharset) : inputCharset.idxOf? ch = some (inputCharset.idxOf ch) := by
  obtain ⟨pos,hpos⟩ := Option.isSome_iff_exists.mp (isSome_idxOf?.mpr h)
  rw [idxOf_eq_getD_idxOf?,hpos]
  rfl

theorem checksumLoop_eq {s : List Char} (hs : s ⊆ inputCharset) (c : Nat) :
    checksumLoop s c 0 0 = some ((symbols (s.map (inputCharset.idxOf ·))).foldl polyMod c) := by
  have hmod v : v &&& 31 = v % 32 := and_two_pow_sub_one_eq_mod v 5
  match s with
  | x::y::z::s =>
    simp only [cons_subset] at hs
    have ih := checksumLoop_eq hs.2.2.2
    simp [checksumLoop,symbols,idxOf?_eq,hs,hmod,shiftRight_eq_div_pow,ih]
  | [x, y] | [x] | [] => simp_all [checksumLoop,symbols,idxOf?_eq,shiftRight_eq_div_pow]

section Symbols
variable (hp : ∀ x ∈ p, x < 96) (hq : ∀ x ∈ q, x < 96) (hlen : p.length = q.length)
include hp in
theorem symbols_lt : ∀ v ∈ symbols p, v < 32 := by
  induction p using symbols.induct with
  | case1 x y z p ih =>
    simp only [symbols,forall_mem_cons] at hp ⊢
    exact ⟨by omega,by omega,by omega,by omega,ih hp.2.2.2⟩
  | _ =>
    simp [symbols] at hp ⊢
    try omega

theorem length_symbols (p : List Nat) : (symbols p).length = p.length + (p.length+2) / 3 := by
  induction p using symbols.induct with
  | case1 x y z p ih =>
    simp only [symbols,length_cons,ih]
    omega
  | _ => simp [symbols]

theorem symbols_take (r : Nat) (p : List Nat) : symbols p = symbols (p.take (3*r))++symbols (p.drop (3*r)) := by
  induction r generalizing p with
  | zero => rfl
  | succ r ih =>
    match p with
    | x::y::z::p => simpa [symbols,mul_add] using ih p
    | [x, y] | [x] | [] => simp [symbols,mul_add]

include hp hq hlen
theorem symbols_inj (h : symbols p = symbols q) : p = q := by
  induction p using symbols.induct generalizing q with
  | case1 x y z p ih =>
    obtain _ | ⟨x',_ | ⟨y',_ | ⟨z',q⟩⟩⟩ := q <;> simp [symbols] at hp hq hlen h ⊢
    exact ⟨by omega,by omega,by omega,ih hp.2.2.2 hq.2.2.2 hlen h.2.2.2.2⟩
  | _ =>
    obtain _ | ⟨x',_ | ⟨y',_ | ⟨z',q⟩⟩⟩ := q <;> simp [symbols] at hp hq hlen h ⊢
    try omega

theorem symbols_apart (hne : p ≠ q) (hwin : ∀ i, p[i]? ≠ q[i]? → k ≤ i ∧ i < k + 4) (c : Nat) :
    Apart ((symbols p).foldl polyMod c) ((symbols q).foldl polyMod c) := by
  have hA : p.take (3*(k/3)) = q.take (3*(k/3)) := by
    apply List.ext_getElem?
    intro i
    by_contra h
    simp only [getElem?_take] at h
    split at h
    · have := hwin i h
      omega
    · exact h rfl
  have hC : (p.drop (3*(k/3))).drop 6 = (q.drop (3*(k/3))).drop 6 := by
    apply List.ext_getElem?
    intro i
    by_contra h
    simp only [getElem?_drop] at h
    have := hwin _ h
    omega
  rw [symbols_take (k/3) p,symbols_take (k/3) q,hA,symbols_take 2 (p.drop _),symbols_take 2 (q.drop _),hC]
  simp only [foldl_append]
  apply Apart.fold
  have hpB x (hx : x ∈ (p.drop (3*(k/3))).take 6) := hp x (mem_of_mem_drop (mem_of_mem_take hx))
  have hqB x (hx : x ∈ (q.drop (3*(k/3))).take 6) := hq x (mem_of_mem_drop (mem_of_mem_take hx))
  have hl : ((p.drop (3*(k/3))).take 6).length = ((q.drop (3*(k/3))).take 6).length := by simp [hlen]
  apply xor_fold (m := 0) _ (symbols_lt hpB) (symbols_lt hqB) _ _ (.inr fun h => hne ?_)
  · rw [length_symbols,length_symbols,hl]
  · rw [length_symbols,length_take]
    omega
  · simp
  · rw [← take_append_drop (3*(k/3)) p,hA,← take_append_drop 6 (p.drop _),symbols_inj hpB hqB hl h,hC,
      take_append_drop,take_append_drop]
end Symbols

theorem checksumCharset_inj (hv : v < 32) (hw : w < 32)
    (h : checksumCharset.getD v ' ' = checksumCharset.getD w ' ') : v = w := by
  have hn : checksumCharset.Nodup := by decide
  rw [getD_eq_getElem _ _ hv,getD_eq_getElem _ _ hw] at h
  exact hn.getElem_inj_iff.mp h

theorem digits_apart (h : Apart c d) :
    (range 8).map (fun j => checksumCharset.getD (c >>> (5 * (7-j)) &&& 31) ' ') ≠
      (range 8).map fun j => checksumCharset.getD (d >>> (5 * (7-j)) &&& 31) ' ' := by
  intro heq
  have hdi j (hj : j < 8) : (c ^^^ d) / 2^(5 * (7-j)) % 2^5 = 0 := by
    have hch := map_inj_left.mp heq j (mem_range.mpr hj)
    have hlt v : v &&& 31 < 2^5 := and_lt_two_pow v (by decide)
    have hs := checksumCharset_inj (hlt _) (hlt _) hch
    rw [← shiftRight_eq_div_pow,← and_two_pow_sub_one_eq_mod,shiftRight_xor_distrib,and_xor_distrib_right]
    exact Nat.xor_eq_zero_iff.mpr hs
  have hlt := h.1
  have hall (j : Fin 8) := hdi j j.2
  simp [Fin.forall_fin_succ] at hall
  exact h.2 (by omega)

theorem Apart.xor (h : Apart c d) (v : Nat) : Apart (c ^^^ v) (d ^^^ v) := by
  unfold Apart
  rwa [Nat.xor_comm d v,Nat.xor_assoc,← Nat.xor_assoc v v,Nat.xor_self,zero_xor]

theorem checkChecksum_rejects (h : descriptorChecksum s ≠ descriptorChecksum t) (requireChecksum : Bool) :
    ∃ error, checkChecksum (t ++ '#'::descriptorChecksum s) requireChecksum = .error error := by
  have hsp : (t ++ '#'::descriptorChecksum s).splitOn '#' = t.splitOn '#'++(descriptorChecksum s).splitOn '#' :=
    splitOnP_append_cons _ _ rfl
  cases hc : checkChecksum (t ++ '#'::descriptorChecksum s) requireChecksum with
  | error e => exact ⟨e,rfl⟩
  | ok result =>
    simp only [checkChecksum,require_bind_eq_ok,hsp] at hc
    obtain ⟨hle,-,-,-,hsum,-⟩ := hc
    have hne (l : List Char) : 0 < (l.splitOn '#').length := length_pos_iff.mpr (splitOnP_ne_nil _ l)
    have hone (l : List Char) (hl : (l.splitOn '#').length = 1) : l.splitOn '#' = [l] := by
      obtain ⟨a,ha⟩ := length_eq_one_iff.mp hl
      have hj : ['#'].intercalate (l.splitOn '#') = l := intercalate_splitOn ..
      rw [ha,intercalate_singleton] at hj
      rw [ha,hj]
    have ht := hne t
    have hs := hne (descriptorChecksum s)
    rw [length_append] at hle hsum
    rw [hone t (by omega),hone (descriptorChecksum s) (by omega)] at hsum
    exact absurd (hsum rfl).symm h

/-- An edit within four characters changes the checksum, and the check refuses it. -/
theorem corruption_detected (s t : List Char) (k : Nat) (hs : s ⊆ inputCharset) (ht : t ⊆ inputCharset)
    (hlen : s.length = t.length) (hne : s ≠ t) (hwin : ∀ i, s[i]? ≠ t[i]? → k ≤ i ∧ i < k + 4) :
    descriptorChecksum s ≠ descriptorChecksum t ∧ ∀ requireChecksum,
      ∃ error, checkChecksum (t ++ '#'::descriptorChecksum s) requireChecksum = .error error := by
  have hpos s (hs : s ⊆ inputCharset) : ∀ x ∈ s.map (inputCharset.idxOf ·), x < 96 := by
    rw [forall_mem_map]
    exact fun ch hch => (idxOf_lt_length_of_mem (hs hch)).trans (by decide)
  have hback s (hs : s ⊆ inputCharset) : (s.map (inputCharset.idxOf ·)).map (inputCharset.getD · ' ') = s := by
    rw [map_map]
    refine (map_congr_left fun ch hch => ?_).trans (map_id s)
    simp [idxOf_lt_length_of_mem (hs hch)]
  have hne' : s.map (inputCharset.idxOf ·) ≠ t.map (inputCharset.idxOf ·) :=
    fun h => hne (by rw [← hback s hs,h,hback t ht])
  have h := symbols_apart (hpos s hs) (hpos t ht) (by simp [hlen]) hne' (fun i h => hwin i fun hi => h (by simp [hi])) 1
  have hsum : descriptorChecksum s ≠ descriptorChecksum t := by
    simp only [descriptorChecksum,checksumLoop_eq hs,checksumLoop_eq ht]
    exact digits_apart ((h.fold _).xor 1)
  exact ⟨hsum,checkChecksum_rejects hsum⟩

/-- Three digits of a key are reversed. -/
theorem reversedDigits_detected :
    let s := ['p', 'k', '(', '0', '2', 'c', '6', '0', '4', '7', ')']
    let t := ['p', 'k', '(', '0', '2', '0', '6', 'c', '4', '7', ')']
    descriptorChecksum s ≠ descriptorChecksum t ∧ ∀ requireChecksum,
      ∃ error, checkChecksum (t ++ '#'::descriptorChecksum s) requireChecksum = .error error := by
  intro s t
  apply corruption_detected s t 4 (by decide) (by decide) rfl (by decide)
  intro i h
  have hi : i < 11 := by
    by_contra hge
    exact h (by rw [getElem?_eq_none (not_lt.mp hge),getElem?_eq_none (not_lt.mp hge)])
  revert h
  revert i
  decide
end Lcryp.DescriptorChecksum
