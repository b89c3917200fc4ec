import Mathlib.Data.Nat.Bitwise

/-!
# The rolling bloom filter

The words `2 i` and `2 i + 1` of `data` are the pair `i` of the list.  A bit of the one with the same
bit of the other is a cell: it has the generation of the last insert that set it, or zero.
-/
namespace Lcryp
open List BitVec
abbrev BloomWords := BitVec 64 × BitVec 64

structure CRollingBloomFilter where
  nEntriesPerGeneration : Nat
  nEntriesThisGeneration : Nat
  nGeneration : Nat
  data : List BloomWords
  nTweak : BitVec 32
  nHashFuncs : Nat

namespace CRollingBloomFilter
def reset (nTweak : BitVec 32) (f : CRollingBloomFilter) : CRollingBloomFilter :=
  { f with
    nTweak := nTweak, nEntriesThisGeneration := 0, nGeneration := 1, data := f.data.map fun _ => (0, 0) }

/-- The constructor, its floating-point results given: `rounded` for `nHashFuncs`, and the bits for a
number of hash functions and of elements.  A conversion or a product out of range gives no filter. -/
def create (rounded : Int) (filterBits : Nat → Nat → Nat) (nElements nTweak : BitVec 32) :
    Option CRollingBloomFilter :=
  let nHashFuncs := (max 1 (min rounded 50)).toNat
  let nEntriesPerGeneration := ((nElements+1) / 2).toNat
  let nMaxElements := nEntriesPerGeneration * 3
  let nFilterBits := filterBits nHashFuncs nMaxElements
  if nMaxElements < 2^31 ∧ nFilterBits < 2^32 then
    some (reset nTweak ⟨nEntriesPerGeneration, 0, 1, replicate ((nFilterBits+63) % 2^32 / 64) (0, 0),
      nTweak, nHashFuncs⟩)
  else none

def fastRange32 (x n : Nat) : Nat := x * (n % 2^32) / 2^32

-- `hash` is `MurmurHash3`.

variable {Key : Type} (hash : BitVec 32 → Key → BitVec 32)
variable (f : CRollingBloomFilter) (vKey : Key)
/-- The pair and the bit for each hash of a key. -/
def slots : List (Nat × Nat) :=
  (range f.nHashFuncs).map fun n =>
    let h := (hash (BitVec.ofNat 32 n * 0xFBA4C795 + f.nTweak) vKey).toNat
    (fastRange32 h (2*f.data.length) / 2, h % 64)

variable (nGeneration : Nat)
def wipe (p : BloomWords) : BloomWords :=
  let mask := (p.1 ^^^ (0#64 - BitVec.ofNat 64 (nGeneration &&& 1))) |||
    (p.2 ^^^ (0#64 - BitVec.ofNat 64 (nGeneration >>> 1)))
  (p.1 &&& mask, p.2 &&& mask)

def nextGeneration : Nat := if nGeneration + 1 = 4 then 1 else nGeneration + 1

/-- The start of `insert`, which begins a generation when the present one is full. -/
def advance : CRollingBloomFilter :=
  if f.nEntriesThisGeneration = f.nEntriesPerGeneration then
    { f with
      nEntriesThisGeneration := 0, nGeneration := nextGeneration f.nGeneration
      data := f.data.map (wipe (nextGeneration f.nGeneration)) }
  else f

def mark (nGeneration bit : Nat) (p : BloomWords) : BloomWords :=
  ((p.1 &&& ~~~(1#64 <<< bit)) ||| BitVec.ofNat 64 (nGeneration &&& 1) <<< bit,
    (p.2 &&& ~~~(1#64 <<< bit)) ||| BitVec.ofNat 64 (nGeneration >>> 1) <<< bit)

variable (data : List BloomWords)
/-- One round of the loop of `insert`; an access outside `data` gives no result. -/
def put (s : Nat × Nat) : Option (List BloomWords) :=
  data[s.1]?.map fun p => data.set s.1 (mark nGeneration s.2 p)
def enter (vKey : Key) : Option CRollingBloomFilter :=
  ((f.slots hash vKey).foldlM (put f.nGeneration) f.data).map fun data =>
    { f with nEntriesThisGeneration := f.nEntriesThisGeneration + 1, data := data }

def insert : Option CRollingBloomFilter := f.advance.enter hash vKey
def contains : Option Bool :=
  (f.slots hash vKey).allM fun s => f.data[s.1]?.map fun p => ((p.1 ||| p.2) >>> s.2).getLsbD 0
inductive Event (Key : Type)
  | insert (vKey : Key)
  | reset (nTweak : BitVec 32)

def step : Event Key → Option CRollingBloomFilter
  | .insert vKey => f.insert hash vKey
  | .reset nTweak => some (f.reset nTweak)

/-- The keys inserted since the last reset, newest first. -/
def recent (keys : List Key) : List (Event Key) → List Key
  | [] => keys
  | .insert vKey::events => recent (vKey::keys) events
  | .reset _::events => recent [] events

def cell (s : Nat × Nat) : Option (Bool × Bool) := data[s.1]?.map fun p => (p.1.getLsbD s.2, p.2.getLsbD s.2)
def code : Bool × Bool :=
  ((BitVec.ofNat 64 (nGeneration &&& 1)).getLsbD 0, (BitVec.ofNat 64 (nGeneration >>> 1)).getLsbD 0)

/-- The cell was set at most `age` generations ago. -/
def Fresh (nGeneration age : Nat) (c : Bool × Bool) : Prop :=
  ∃ a ≤ age, c = code ((nGeneration + 2 - a) % 3 + 1)

/-- The keys of this generation and of the two before it have all their cells set. -/
structure Remembers (per : Nat) (f : CRollingBloomFilter) (keys : List Key) : Prop where
  size : 0 < f.data.length ∧ 2 * f.data.length < 2^32
  generation : f.nGeneration ∈ [1, 2, 3]
  entries : f.nEntriesPerGeneration = per
  kept : ∀ i key, keys[i]? = some key → ∀ age ≤ 2, i < f.nEntriesThisGeneration + age * per →
    ∀ s ∈ f.slots hash key, ∃ c, cell f.data s = some c ∧ Fresh f.nGeneration age c
variable {hash} {f : CRollingBloomFilter} {keys : List Key} {key : Key} {data : List BloomWords}
  {s : Nat × Nat} {g per : Nat}

theorem getLsbD_plane {b : Nat} (hg : g ∈ [1, 2, 3]) (hb : b < 64) :
    ∀ x ∈ [BitVec.ofNat 64 (g &&& 1), BitVec.ofNat 64 (g >>> 1), 1],
      (0#64 - x).getLsbD b = x.getLsbD 0 ∧
      ∀ bit, (x <<< bit).getLsbD b = (decide (bit = b) && x.getLsbD 0) := by
  have hbi : ∀ g ∈ [1, 2, 3], ∀ x ∈ [BitVec.ofNat 64 (g &&& 1), BitVec.ofNat 64 (g >>> 1), 1],
      x = 0 ∨ x = 1 := by simp
  intro x hx
  rcases hbi g hg x hx with rfl | rfl
  · simp
  · have ho : 0#64 - 1 = allOnes 64 := by decide
    rw [ho,getLsbD_allOnes]
    grind

theorem cell_wipe (hg : g ∈ [1, 2, 3]) (hs : s.2 < 64) :
    cell (data.map (wipe g)) s = (cell data s).map fun c => if c = code g then (false, false) else c := by
  have hp := fun x hx => (getLsbD_plane hg hs x hx).1
  simp only [mem_cons,forall_eq_or_imp] at hp
  simp only [cell,getElem?_map,Option.map_map]
  congr 1
  funext p
  simp only [wipe,Function.comp_apply,getLsbD_and,getLsbD_or,getLsbD_xor,hp]
  unfold code
  generalize (BitVec.ofNat 64 _).getLsbD 0 = x,(BitVec.ofNat 64 _).getLsbD 0 = y,
    p.1.getLsbD s.2 = z,p.2.getLsbD s.2 = w
  revert x y z w
  decide

theorem cell_put {p : BloomWords} {t : Nat × Nat} (hg : g ∈ [1, 2, 3]) (hp : data[t.1]? = some p)
    (hs : s.2 < 64) : cell (data.set t.1 (mark g t.2 p)) s = if s = t then some (code g) else cell data s := by
  have hpl := fun x hx => (getLsbD_plane hg hs x hx).2
  simp only [mem_cons] at hpl
  simp only [cell,getElem?_set]
  by_cases hsa : t.1 = s.1
  · rw [if_pos hsa,if_pos (List.getElem?_eq_some_iff.mp hp).1]
    simp only [mark,code,Option.map_some,getLsbD_and,getLsbD_or]
    grind
  · grind

theorem puts_exact (hg : g ∈ [1, 2, 3]) (ss : List (Nat × Nat)) (hss : ∀ t ∈ ss, t.1 < data.length) :
    ∃ data', ss.foldlM (put g) data = some data' ∧ data'.length = data.length ∧
      ∀ s, s.2 < 64 → cell data' s = if s ∈ ss then some (code g) else cell data s := by
  induction ss generalizing data with
  | nil => exact ⟨data,rfl,rfl,by simp⟩
  | cons t ss ih =>
    obtain ⟨p,hp⟩ : ∃ p, data[t.1]? = some p := ⟨_,getElem?_eq_getElem (hss t mem_cons_self)⟩
    obtain ⟨data',hput,hlen,hc⟩ := @ih (data.set t.1 (mark g t.2 p)) fun u hu => by
      simpa using hss u (mem_cons_of_mem _ hu)
    refine ⟨data',by simpa [put,hp] using hput,by simpa using hlen,fun s hs => ?_⟩
    rw [hc s hs,cell_put hg hp hs]
    grind

theorem slots_bounds (hsi : 0 < f.data.length ∧ 2 * f.data.length < 2^32) (hs : s ∈ f.slots hash key) :
    s.1 < f.data.length ∧ s.2 < 64 := by
  obtain ⟨n,-,rfl⟩ := mem_map.mp hs
  simp only [fastRange32,Nat.mod_eq_of_lt hsi.2]
  have hlt := isLt (hash (BitVec.ofNat 32 n * 0xFBA4C795 + f.nTweak) key)
  have hdiv := Nat.div_lt_of_lt_mul (Nat.mul_lt_mul_of_pos_right hlt (by omega : 0 < 2 * f.data.length))
  omega

theorem advance_remembers (h : Remembers hash per f keys) : Remembers hash per f.advance keys := by
  unfold advance
  split
  · have hn : ∀ g ∈ [1, 2, 3], nextGeneration g ∈ [1, 2, 3] ∧ ∀ a ≤ 1,
        code ((g + 2 - a) % 3 + 1) ≠ code (nextGeneration g) ∧
        (g + 2 - a) % 3 = (nextGeneration g + 2 - (a+1)) % 3 := by decide
    obtain ⟨hgen,hco⟩ := hn _ h.generation
    refine ⟨by simpa using h.size,hgen,h.entries,?_⟩
    intro i key hkey age hage hi s hs
    replace hs : s ∈ f.slots hash key := by simpa [slots] using hs
    obtain ⟨age,rfl⟩ : ∃ a, age = a + 1 := Nat.exists_eq_succ_of_ne_zero (by grind)
    obtain ⟨_,hc,a,ha,rfl⟩ := h.kept i key hkey age (by omega) (by grind [h.entries]) s hs
    obtain ⟨hne,hsh⟩ := hco a (by omega)
    refine ⟨_,?_,a+1,by omega,by rw [← hsh]⟩
    rw [cell_wipe hgen (slots_bounds h.size hs).2,hc]
    exact congrArg some (if_neg hne)
  · exact h

theorem enter_remembers (h : Remembers hash per f keys) (key : Key) :
    ∃ f', f.enter hash key = some f' ∧ Remembers hash per f' (key::keys) := by
  obtain ⟨data,hput,hlen,hc⟩ := puts_exact h.generation (f.slots hash key) fun s hs =>
    (slots_bounds h.size hs).1
  refine ⟨{ f with nEntriesThisGeneration := f.nEntriesThisGeneration + 1, data := data },
    by simp [enter,hput],by rw [hlen]; exact h.size,h.generation,h.entries,?_⟩
  intro i key' hkey age hage hi s hs
  dsimp only at hi
  have hs' : s ∈ f.slots hash key' := by simpa [slots,hlen] using hs
  rw [hc s (slots_bounds h.size hs').2]
  split
  · have hnow : ∀ g ∈ [1, 2, 3], (g + 2 - 0) % 3 + 1 = g := by decide
    exact ⟨_,rfl,0,Nat.zero_le _,by rw [hnow _ h.generation]⟩
  · next ho =>
    cases i with
    | zero =>
      cases hkey
      exact absurd hs' ho
    | succ i => exact h.kept i key' hkey age hage (by omega) s hs'

theorem run_remembers (events : List (Event Key)) (h : Remembers hash per f keys) :
    ∃ f', events.foldlM (step hash) f = some f' ∧ Remembers hash per f' (recent keys events) := by
  induction events generalizing f keys with
  | nil => exact ⟨f,rfl,h⟩
  | cons e events ih =>
    cases e with
    | insert key =>
      obtain ⟨f',he,h'⟩ := enter_remembers (advance_remembers h) key
      obtain ⟨f'',hrun,h''⟩ := ih h'
      exact ⟨f'',by simp [step,insert,he,hrun],h''⟩
    | reset nTweak =>
      have hr : Remembers hash per (f.reset nTweak) ([] : List Key) :=
        ⟨by simpa [reset] using h.size,by simp [reset],h.entries,by simp⟩
      obtain ⟨f'',hrun,h''⟩ := ih hr
      exact ⟨f'',by simp [step,hrun],h''⟩

theorem contains_remembered {i : Nat} (h : Remembers hash per f keys) (hkey : keys[i]? = some key)
    (hi : i < 2 * per) : f.contains hash key = some true := by
  have hk := h.kept i key hkey 2 le_rfl (by omega)
  have hset : ∀ g ∈ [1, 2, 3], ∀ a ≤ 2,
      ((code ((g + 2 - a) % 3 + 1)).1 || (code ((g + 2 - a) % 3 + 1)).2) = true := by decide
  unfold contains
  generalize f.slots hash key = ss at hk
  induction ss with
  | nil => rfl
  | cons s ss ih =>
    obtain ⟨c,hc,a,ha,rfl⟩ := hk s mem_cons_self
    obtain ⟨p,hp,hco⟩ := Option.map_eq_some_iff.mp hc
    have hbit := hset _ h.generation a ha
    rw [← hco] at hbit
    have hr : (f.data[s.1]?.map fun p : BloomWords => ((p.1 ||| p.2) >>> s.2).getLsbD 0) = some true := by
      simpa [hp] using hbit
    simp only [allM,hr]
    exact ih fun u hu => hk u (mem_cons_of_mem _ hu)

/-- The constructor stays in range and allots a table. -/
structure Allotted (rounded : Int) (filterBits : Nat → Nat → Nat) (nElements : BitVec 32) : Prop where
  positive : 0 < nElements.toNat
  elements : (nElements.toNat+1) / 2 * 3 < 2^31
  bits : 0 < filterBits (max 1 (min rounded 50)).toNat ((nElements.toNat+1) / 2 * 3)
  fits : filterBits (max 1 (min rounded 50)).toNat ((nElements.toNat+1) / 2 * 3) + 63 < 2^32

theorem last_inserts_contained {rounded : Int} {filterBits : Nat → Nat → Nat} {nElements : BitVec 32}
    (h : Allotted rounded filterBits nElements) (nTweak : BitVec 32) (events : List (Event Key)) :
    ∃ f f', create rounded filterBits nElements nTweak = some f ∧ events.foldlM (step hash) f = some f' ∧
      ∀ key ∈ (recent [] events).take nElements.toNat, f'.contains hash key = some true := by
  obtain ⟨hpos,helements,hbits,hfits⟩ := h
  have hper : ((nElements+1) / 2).toNat = (nElements.toNat+1) / 2 := by
    simp
    omega
  have hnew : ∃ f, create rounded filterBits nElements nTweak = some f ∧
      Remembers hash ((nElements.toNat+1) / 2) f ([] : List Key) := by
    refine ⟨_,by rw [create,hper,if_pos ⟨helements,by omega⟩],?_,by simp [reset],rfl,by simp⟩
    simp [reset]
    omega
  obtain ⟨f,hcreate,hf⟩ := hnew
  obtain ⟨f',hrun,hf'⟩ := run_remembers events hf
  refine ⟨f,f',hcreate,hrun,fun key hkey => ?_⟩
  obtain ⟨i,hi,rfl⟩ := mem_take_iff_getElem.mp hkey
  exact contains_remembered hf' (getElem?_eq_getElem (by omega)) (by omega)

/-- Two keys a generation: the six inserts after the reset reach the third. -/
theorem six_inserts_contained : ∃ f f', create 1 (fun k m => k * m) 4 0 = some f ∧
    [.insert 1, .reset 7, .insert 2, .insert 3, .insert 4, .insert 5, .insert 6, .insert 7].foldlM
      (step fun _ => BitVec.ofNat 32) f = some f' ∧ f'.nGeneration = 3 ∧
    ∀ key ∈ [7, 6, 5, 4], f'.contains (fun _ => BitVec.ofNat 32) key = some true := by
  obtain ⟨f,f',hf,hf',hkept⟩ := @last_inserts_contained Nat (fun _ => BitVec.ofNat 32) 1 (fun k m => k * m) 4
    ⟨by decide,by decide,by decide,by decide⟩ 0
    [.insert 1,.reset 7,.insert 2,.insert 3,.insert 4,.insert 5,.insert 6,.insert 7]
  refine ⟨f,f',hf,hf',?_,hkept⟩
  cases hf
  cases hf'
  rfl

theorem full_range_unallotted : ∃ f, create 1 (fun k m => k * m) 0xFFFFFFFF 0 = some f ∧
    f.insert (fun _ (_ : Unit) => 0) () = none := ⟨_,rfl,by decide⟩
end CRollingBloomFilter
end Lcryp
