import Lcryp.Mempool.Pool
import Mathlib.Data.Prod.Lex

/-!
# The orderings of the pool

The comparators of the pool's indices, with exact products of fees and sizes.
-/
namespace Lcryp
structure StrictWeak {α : Type} (r : α → α → Prop) : Prop where
  irrefl : ∀ a, ¬ r a a
  asymm : ∀ a b, r a b → ¬ r b a
  trans : ∀ a b c, r a b → r b c → r a c
  incomp_trans : ∀ a b c, ¬ r a b ∧ ¬ r b a → ¬ r b c ∧ ¬ r c b → ¬ r a c ∧ ¬ r c a

theorem StrictWeak.of_key {α κ : Type} [LinearOrder κ] {r : α → α → Prop} (key : α → κ)
    (h : ∀ a b, r a b ↔ key a < key b) : StrictWeak r where
  irrefl a := by simp [h]
  asymm a b hab := by
    rw [h] at hab ⊢
    exact hab.asymm
  trans a b c hab hbc := by
    rw [h] at hab hbc ⊢
    exact hab.trans hbc
  incomp_trans a b c hab hbc := by
    simp only [h,not_lt] at hab hbc ⊢
    exact ⟨hbc.1.trans hab.1,hab.2.trans hbc.2⟩

section Comparators
variable (env : MemPoolEnv)
/-- `CompareTxMemPoolEntryByDescendantScore::GetModFeeAndSize`. -/
def descendantModFeeAndSize (a : CTxMemPoolEntry) : Int × Int :=
  let f1 := a.modifiedFee * a.nSizeWithDescendants
  let f2 := a.nModFeesWithDescendants * a.getTxSize env
  if f2 > f1 then (a.nModFeesWithDescendants, a.nSizeWithDescendants)
  else (a.modifiedFee, a.getTxSize env)

variable (a b : CTxMemPoolEntry)
def compareTxMemPoolEntryByDescendantScore : Bool :=
  let x := descendantModFeeAndSize env a
  let y := descendantModFeeAndSize env b
  let f1 := x.1 * y.2
  let f2 := x.2 * y.1
  if f1 = f2 then a.nTime ≥ b.nTime else f1 < f2

def compareTxMemPoolEntryByScore : Bool :=
  let f1 := a.nFee * b.getTxSize env
  let f2 := b.nFee * a.getTxSize env
  if f1 = f2 then hashOrder (env.getHash b.tx) < hashOrder (env.getHash a.tx) else f1 > f2

/-- `CompareTxMemPoolEntryByAncestorFee::GetModFeeAndSize`. -/
def ancestorModFeeAndSize (a : CTxMemPoolEntry) : Int × Int :=
  let f1 := a.modifiedFee * a.nSizeWithAncestors
  let f2 := a.nModFeesWithAncestors * a.getTxSize env
  if f1 > f2 then (a.nModFeesWithAncestors, a.nSizeWithAncestors)
  else (a.modifiedFee, a.getTxSize env)

def compareTxMemPoolEntryByAncestorFee : Bool :=
  let x := ancestorModFeeAndSize env a
  let y := ancestorModFeeAndSize env b
  let f1 := x.1 * y.2
  let f2 := x.2 * y.1
  if f1 = f2 then hashOrder (env.getHash a.tx) < hashOrder (env.getHash b.tx) else f1 > f2

abbrev SizedEntry : Type :=
  { a : CTxMemPoolEntry //
    0 < a.getTxSize env ∧ 0 < a.nSizeWithDescendants ∧ 0 < a.nSizeWithAncestors }

def rate (x : Int × Int) : ℚ := x.1 / x.2

variable {env} {x y : Int × Int}
theorem rate_lt_iff (hx : 0 < x.2) (hy : 0 < y.2) : rate x < rate y ↔ x.1 * y.2 < x.2 * y.1 := by
  rw [rate,rate,div_lt_div_iff₀ (by exact_mod_cast hx) (by exact_mod_cast hy),mul_comm x.2]
  exact_mod_cast Iff.rfl

theorem rate_eq_iff (hx : 0 < x.2) (hy : 0 < y.2) : rate x = rate y ↔ x.1 * y.2 = x.2 * y.1 := by
  rw [rate,rate,div_eq_div_iff (by exact_mod_cast hx.ne') (by exact_mod_cast hy.ne'),mul_comm x.2]
  exact_mod_cast Iff.rfl

theorem snd_ite_pos {c : Prop} [Decidable c] (hx : 0 < x.2) (hy : 0 < y.2) : 0 < (if c then x else y).2 := by
  split
  · exact hx
  · exact hy

variable (a : SizedEntry env)
theorem descendantSize_pos : 0 < (descendantModFeeAndSize env a).2 :=
  snd_ite_pos a.2.2.1 (Int.natCast_pos.mpr a.2.1)
theorem ancestorSize_pos : 0 < (ancestorModFeeAndSize env a).2 :=
  snd_ite_pos a.2.2.2 (Int.natCast_pos.mpr a.2.1)

def descendantKey (a : SizedEntry env) : ℚ ×ₗ ℤ := toLex (rate (descendantModFeeAndSize env a), -a.1.nTime)

variable (a b : SizedEntry env)
theorem byDescendantScore_iff :
    compareTxMemPoolEntryByDescendantScore env a b = true ↔ descendantKey a ≤ descendantKey b := by
  rw [descendantKey,descendantKey,Prod.Lex.toLex_le_toLex,
    rate_lt_iff (descendantSize_pos a) (descendantSize_pos b),
    rate_eq_iff (descendantSize_pos a) (descendantSize_pos b)]
  unfold compareTxMemPoolEntryByDescendantScore
  dsimp only
  split
  · next heq => simp [heq]
  · next hne => simp [hne]

theorem byScore_iff :
    compareTxMemPoolEntryByScore env a b = true ↔
      toLex (rate (b.1.nFee, b.1.getTxSize env), hashOrder (env.getHash b.1.tx)) <
        toLex (rate (a.1.nFee, a.1.getTxSize env), hashOrder (env.getHash a.1.tx)) := by
  have ha := Int.natCast_pos.mpr a.2.1
  have hb := Int.natCast_pos.mpr b.2.1
  rw [Prod.Lex.toLex_lt_toLex,rate_lt_iff hb ha,rate_eq_iff hb ha]
  unfold compareTxMemPoolEntryByScore
  dsimp only
  rw [mul_comm (b.1.getTxSize env : Int)]
  split
  · next heq => simp [heq]
  · next hne => simp [Ne.symm hne]

theorem byAncestorFee_iff :
    compareTxMemPoolEntryByAncestorFee env a b = true ↔
      toLex (-rate (ancestorModFeeAndSize env a), hashOrder (env.getHash a.1.tx)) <
        toLex (-rate (ancestorModFeeAndSize env b), hashOrder (env.getHash b.1.tx)) := by
  rw [Prod.Lex.toLex_lt_toLex,neg_lt_neg_iff,neg_inj,rate_lt_iff (ancestorSize_pos b) (ancestorSize_pos a),
    rate_eq_iff (ancestorSize_pos a) (ancestorSize_pos b)]
  unfold compareTxMemPoolEntryByAncestorFee
  dsimp only
  rw [mul_comm (ancestorModFeeAndSize env b).1,mul_comm (ancestorModFeeAndSize env b).2]
  split
  · next heq => simp [heq]
  · next hne => simp [hne]
end Comparators

/-- By score and by ancestor fee the pool is ordered strictly.  By descendant score an entry goes before
itself; apart from that, the order is strict on a set of entries if and only if no two of them agree in
score and time. -/
theorem comparators_strictWeak_iff (env : MemPoolEnv) :
    StrictWeak (fun a b : SizedEntry env => compareTxMemPoolEntryByScore env a b = true) ∧
    StrictWeak (fun a b : SizedEntry env => compareTxMemPoolEntryByAncestorFee env a b = true) ∧
    (∀ a : SizedEntry env, compareTxMemPoolEntryByDescendantScore env a a = true) ∧
    ∀ s : Set (SizedEntry env),
      StrictWeak (fun a b : s => a ≠ b ∧ compareTxMemPoolEntryByDescendantScore env a b = true) ↔
        s.InjOn fun a : SizedEntry env => (rate (descendantModFeeAndSize env a), a.1.nTime) := by
  refine ⟨?_,.of_key _ byAncestorFee_iff,fun a => (byDescendantScore_iff a a).mpr le_rfl,fun s => ?_⟩
  · exact .of_key (fun a => OrderDual.toDual
      (toLex (rate (a.1.nFee,a.1.getTxSize env),hashOrder (env.getHash a.1.tx)))) byScore_iff
  have hkey : ∀ a b : SizedEntry env, descendantKey a = descendantKey b ↔
      (rate (descendantModFeeAndSize env a),a.1.nTime) = (rate (descendantModFeeAndSize env b),b.1.nTime) := by
    simp [descendantKey]
  simp only [byDescendantScore_iff]
  constructor
  · intro hstrict a ha b hb hab
    have heq := (hkey a b).mpr hab
    by_contra hne
    have hsub : (⟨a,ha⟩ : s) ≠ ⟨b,hb⟩ := by simpa using hne
    exact hstrict.asymm _ _ ⟨hsub,heq.le⟩ ⟨hsub.symm,heq.ge⟩
  · intro hinj
    apply StrictWeak.of_key fun a => descendantKey a.1
    intro a b
    rw [lt_iff_le_and_ne,and_comm,and_congr_right_iff]
    intro hle
    rw [ne_eq,ne_eq,not_iff_not,hkey]
    exact ⟨fun h => h ▸ rfl,fun h => Subtype.ext (hinj a.2 b.2 h)⟩

theorem byDescendantScore_refl :
    let env : MemPoolEnv := ⟨fun _ => 0, 20⟩
    let entry := CTxMemPoolEntry.new env ⟨[], [], 2, 0⟩ 1000 0 4
    0 < entry.getTxSize env ∧ compareTxMemPoolEntryByDescendantScore env entry entry = true := by
  decide
end Lcryp
