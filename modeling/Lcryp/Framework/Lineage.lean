import Mathlib.Algebra.BigOperators.Pi
import Mathlib.Algebra.BigOperators.Ring.Finset
import Mathlib.Tactic.Abel

/-!
# Totals over a relation

The total of a node is the weight of everything it reaches, itself included.
-/
namespace Lcryp.Lineage
open Relation Classical Finset ReflTransGen Function
variable {α M : Type} [AddCommGroup M] {R R' : α → α → Prop} {nodes removed : Finset α} {w : α → M}
/-- The weight of the nodes that a node reaches. -/
noncomputable def total (R : α → α → Prop) (nodes : Finset α) (w : α → M) (x : α) : M :=
  ∑ y ∈ nodes with ReflTransGen R x y, w y

def Beyond (R : α → α → Prop) (x y : α) : Prop := y ≠ x ∧ ReflTransGen R x y

variable {x : α}
theorem total_eq_own_add (hx : x ∈ nodes) : total R nodes w x = w x + ∑ y ∈ nodes with Beyond R x y, w y := by
  have hs : nodes.filter (ReflTransGen R x) = insert x (nodes.filter (Beyond R x)) := by
    ext y
    simp only [mem_filter,mem_insert]
    constructor
    · intro hy
      by_cases hyx : y = x
      · exact .inl hyx
      · exact .inr ⟨hy.1,hyx,hy.2⟩
    · rintro (rfl | hy)
      · exact ⟨hx,.refl⟩
      · exact ⟨hy.1,hy.2.2⟩
  rw [total,hs,sum_insert (by simp [Beyond])]

theorem total_of_no_step (hx : x ∈ nodes) (h : ∀ y, ¬ R x y) : total R nodes w x = w x := by
  have hn : ∑ y ∈ nodes with Beyond R x y, w y = 0 := by
    apply sum_eq_zero
    intro y hy
    obtain ⟨_,hne,hr⟩ := mem_filter.mp hy
    rcases cases_head hr with heq | ⟨c,hs,_⟩
    · exact absurd heq.symm hne
    · exact absurd hs (h c)
  rw [total_eq_own_add hx,hn,add_zero]

variable {y : α}
theorem beyond_iff_transGen (ha : ∀ x, ¬ TransGen R x x) : Beyond R x y ↔ TransGen R x y := by
  constructor
  · rintro ⟨hne,hr⟩
    exact (reflTransGen_iff_eq_or_transGen.mp hr).resolve_left hne
  · intro ht
    refine ⟨?_,ht.to_reflTransGen⟩
    rintro rfl
    exact ha _ ht

theorem total_of_one_step (ha : ∀ x, ¬ TransGen R x x) {p : α} (hx : x ∈ nodes)
    (h : ∀ y, R x y ↔ y = p) : total R nodes w x = w x + total R nodes w p := by
  have hbey : nodes.filter (Beyond R x) = nodes.filter (ReflTransGen R p) := by
    apply filter_congr
    intro y _
    rw [beyond_iff_transGen ha,TransGen.head'_iff]
    simp [h]
  rw [total_eq_own_add hx,hbey,total]

theorem beyond_swap : Beyond (swap R) x y ↔ Beyond R y x := by
  rw [Beyond,Beyond,reflTransGen_swap,ne_comm]

theorem total_fst_eq_card {N : Type} [AddCommGroup N] {w : α → Int × N} (hone : ∀ y ∈ nodes, (w y).1 = 1)
    (x : α) : (total R nodes w x).1 = ((nodes.filter (ReflTransGen R x)).card : Int) := by
  rw [total,Prod.fst_sum,card_eq_sum_ones,Nat.cast_sum]
  apply sum_congr rfl
  intro y hy
  rw [hone y (mem_filter.mp hy).1]
  rfl

theorem card_reached_lt (ha : ∀ x, ¬ TransGen R x x) (hx : x ∈ nodes) (h : Beyond R x y) :
    (nodes.filter (ReflTransGen R y)).card < (nodes.filter (ReflTransGen R x)).card := by
  apply card_lt_card
  refine Finset.ssubset_iff_subset_ne.mpr ⟨?_,fun heq => ?_⟩
  · intro z hz
    rw [mem_filter] at hz ⊢
    exact ⟨hz.1,h.2.trans hz.2⟩
  · have hb : x ∈ nodes.filter (ReflTransGen R y) := by
      rw [heq,mem_filter]
      exact ⟨hx,.refl⟩
    exact ha x (((beyond_iff_transGen ha).mp h).trans_left (mem_filter.mp hb).2)

theorem total_congr {w' : α → M} (h : ∀ y ∈ nodes, w' y = w y) (x : α) :
    total R nodes w' x = total R nodes w x :=
  sum_congr rfl fun y hy => h y (mem_filter.mp hy).1

theorem total_sub_beyond [DecidableEq α] (hsub : removed ⊆ nodes) (hx : x ∈ nodes) :
    total R nodes w x - ∑ y ∈ removed with Beyond R x y, w y =
      w x + ∑ y ∈ nodes \ removed with Beyond R x y, w y := by
  have hs : ∑ y ∈ nodes with Beyond R x y, w y =
      ∑ y ∈ removed with Beyond R x y, w y + ∑ y ∈ nodes \ removed with Beyond R x y, w y := by
    rw [sum_filter,sum_filter,sum_filter,add_comm,sum_sdiff hsub]
  rw [total_eq_own_add hx,hs]
  abel

variable {n : α}
theorem sum_beyond_insert [DecidableEq α] (hn : n ∉ removed) (x : α) :
    ∑ y ∈ insert n removed with Beyond R x y, w y =
      ∑ y ∈ removed with Beyond R x y, w y + if Beyond R x n then w n else 0 := by
  rw [sum_filter,sum_filter,sum_insert hn,add_comm]

/-- Nothing leads out of a set of nodes, or nothing leads into it. -/
def Closed (R : α → α → Prop) (removed : Finset α) : Prop :=
  (∀ a b, R a b → a ∈ removed → b ∈ removed) ∨ (∀ a b, R a b → b ∈ removed → a ∈ removed)
theorem Closed.swap (h : Closed R removed) : Closed (swap R) removed :=
  h.elim (fun hout => .inr fun a b => hout b a) (fun hin => .inl fun a b => hin b a)
def Outside (R R' : α → α → Prop) (removed : Finset α) : Prop :=
  ∀ a b, R' a b ↔ R a b ∧ a ∉ removed ∧ b ∉ removed
theorem Outside.swap (h : Outside R R' removed) : Outside (swap R) (swap R') removed :=
  fun a b => (h b a).trans (and_congr_right fun _ => and_comm)

theorem reach_outside_iff (hc : Closed R removed) (hR : Outside R R' removed)
    (hx : x ∉ removed) (hy : y ∉ removed) : ReflTransGen R' x y ↔ ReflTransGen R x y := by
  constructor
  · exact fun h => mono (fun a b hab => ((hR a b).mp hab).1) _ _ h
  · intro h
    rcases hc with hout | hin
    · -- a path that ends outside never was inside
      induction h with
      | refl => exact .refl
      | tail hpath hs ih =>
        have hb := fun hb => hy (hout _ _ hs hb)
        exact (ih hb).tail ((hR _ _).mpr ⟨hs,hb,hy⟩)
    · induction h using head_induction_on with
      | refl => exact .refl
      | head hs hpath ih =>
        have hb := fun hb => hx (hin _ _ hs hb)
        exact (ih hb).head ((hR _ _).mpr ⟨hs,hx,hb⟩)

theorem total_outside [DecidableEq α] (hsub : removed ⊆ nodes) (hc : Closed R removed)
    (hR : Outside R R' removed) (hx : x ∉ removed) :
    total R' (nodes \ removed) w x = total R nodes w x - ∑ y ∈ removed with Beyond R x y, w y := by
  have hre : (nodes \ removed).filter (ReflTransGen R' x) =
      nodes.filter (ReflTransGen R x) \ removed.filter (ReflTransGen R x) := by
    ext y
    simp only [mem_filter,mem_sdiff]
    constructor
    · rintro ⟨⟨hy,hnot⟩,hr⟩
      exact ⟨⟨hy,(reach_outside_iff hc hR hx hnot).mp hr⟩,fun h => hnot h.1⟩
    · rintro ⟨⟨hy,hr⟩,hnot⟩
      have hout : y ∉ removed := fun h => hnot ⟨h,hr⟩
      exact ⟨⟨hy,hout⟩,(reach_outside_iff hc hR hx hout).mpr hr⟩
  have hbey : removed.filter (Beyond R x) = removed.filter (ReflTransGen R x) := by
    apply filter_congr
    intro y hy
    exact and_iff_right fun hyx => hx (hyx ▸ hy)
  rw [total,total,hre,hbey,sum_sdiff_eq_sub (filter_subset_filter _ hsub)]

theorem mem_of_reach (hout : ∀ a b, R a b → a ∈ removed → b ∈ removed)
    (hr : ReflTransGen R x y) (hx : x ∈ removed) : y ∈ removed := by
  induction hr with
  | refl => exact hx
  | tail _ hstep ih => exact hout _ _ hstep ih

theorem sum_beyond_eq_zero (hin : ∀ a b, R a b → b ∈ removed → a ∈ removed)
    (hx : x ∉ removed) : ∑ y ∈ removed with Beyond R x y, w y = 0 := by
  apply sum_eq_zero
  intro y hy
  obtain ⟨hmem,_,hr⟩ := mem_filter.mp hy
  exact absurd (mem_of_reach (fun a b => hin b a) (reflTransGen_swap.mpr hr) hmem) hx

/-- The relation with a new node that the nodes of a set lead to. -/
structure Extends (R R' : α → α → Prop) (nodes : Finset α) (parents : Set α) (n : α) : Prop where
  new : n ∉ nodes
  parents_sub : ∀ p ∈ parents, p ∈ nodes
  inside : ∀ a b, R a b → a ∈ nodes ∧ b ∈ nodes
  step : ∀ a b, R' a b ↔ R a b ∨ a ∈ parents ∧ b = n
namespace Extends
variable {parents : Set α} (h : Extends R R' nodes parents n)
include h

theorem no_step_from_new (c : α) : ¬ R' n c := by
  intro hc
  rcases (h.step _ _).mp hc with hc | ⟨hc,_⟩
  · exact h.new (h.inside _ _ hc).1
  · exact h.new (h.parents_sub _ hc)

theorem reach_from_new (hr : ReflTransGen R' n y) : y = n := by
  rcases cases_head hr with rfl | ⟨c,hc,_⟩
  · rfl
  · exact absurd hc (h.no_step_from_new c)

theorem reach_iff (hx : x ∈ nodes) (hy : y ∈ nodes) : ReflTransGen R' x y ↔ ReflTransGen R x y := by
  constructor
  · intro hr
    induction hr using head_induction_on with
    | refl => exact .refl
    | head hs hpath ih =>
      rcases (h.step _ _).mp hs with hs | ⟨_,rfl⟩
      · exact (ih (h.inside _ _ hs).2).head hs
      · exact absurd (h.reach_from_new hpath ▸ hy) h.new
  · exact fun hr => mono (fun a b hab => (h.step a b).mpr (.inl hab)) _ _ hr

theorem reach_new_iff (hx : x ∈ nodes) : ReflTransGen R' x n ↔ ∃ p ∈ parents, ReflTransGen R x p := by
  constructor
  · intro hr
    rcases cases_tail hr with rfl | ⟨p,hpa,hs⟩
    · exact absurd hx h.new
    · rcases (h.step _ _).mp hs with hs | ⟨hp,_⟩
      · exact absurd (h.inside _ _ hs).2 h.new
      · exact ⟨p,hp,(h.reach_iff hx (h.parents_sub p hp)).mp hpa⟩
  · rintro ⟨p,hp,hpa⟩
    exact ((h.reach_iff hx (h.parents_sub p hp)).mpr hpa).tail ((h.step _ _).mpr (.inr ⟨hp,rfl⟩))

theorem acyclic (ha : ∀ x, ¬ TransGen R x x) (x : α) : ¬ TransGen R' x x := by
  intro hcy
  obtain ⟨c,hs,hb⟩ := TransGen.head'_iff.mp hcy
  rcases (h.step x c).mp hs with hs | ⟨hpar,rfl⟩
  · obtain ⟨hx,hc⟩ := h.inside x c hs
    exact ha x (TransGen.head' hs ((h.reach_iff hc hx).mp hb))
  · exact h.new (h.reach_from_new hb ▸ h.parents_sub x hpar)

theorem total_old [DecidableEq α] (hx : x ∈ nodes) :
    total R' (insert n nodes) w x =
      total R nodes w x + if ∃ p ∈ parents, ReflTransGen R x p then w n else 0 := by
  have hold : nodes.filter (ReflTransGen R' x) = nodes.filter (ReflTransGen R x) :=
    filter_congr fun y hy => h.reach_iff hx hy
  rw [total,total,filter_insert,hold]
  by_cases hp : ∃ p ∈ parents, ReflTransGen R x p
  · rw [if_pos ((h.reach_new_iff hx).mpr hp),if_pos hp,
      sum_insert (fun hn => h.new (mem_filter.mp hn).1),add_comm]
  · rw [if_neg (fun hr => hp ((h.reach_new_iff hx).mp hr)),if_neg hp,add_zero]

theorem total_swap_old [DecidableEq α] (hx : x ∈ nodes) :
    total (swap R') (insert n nodes) w x = total (swap R) nodes w x := by
  have hf : (insert n nodes).filter (ReflTransGen (swap R') x) = nodes.filter (ReflTransGen (swap R) x) := by
    ext y
    simp only [mem_filter,mem_insert,reflTransGen_swap]
    constructor
    · rintro ⟨rfl | hy,hr⟩
      · exact absurd (h.reach_from_new hr ▸ hx) h.new
      · exact ⟨hy,(h.reach_iff hy hx).mp hr⟩
    · rintro ⟨hy,hr⟩
      exact ⟨.inr hy,(h.reach_iff hy hx).mpr hr⟩
  rw [total,total,hf]

theorem total_swap_new [DecidableEq α] :
    total (swap R') (insert n nodes) w n = w n + ∑ y ∈ nodes with ∃ p ∈ parents, ReflTransGen R y p, w y := by
  have hf : (insert n nodes).filter (ReflTransGen (swap R') n) =
      insert n (nodes.filter fun y => ∃ p ∈ parents, ReflTransGen R y p) := by
    ext y
    simp only [mem_filter,mem_insert,reflTransGen_swap]
    constructor
    · rintro ⟨rfl | hy,hr⟩
      · exact .inl rfl
      · exact .inr ⟨hy,(h.reach_new_iff hy).mp hr⟩
    · rintro (rfl | ⟨hy,hp⟩)
      · exact ⟨.inl rfl,.refl⟩
      · exact ⟨.inr hy,(h.reach_new_iff hy).mpr hp⟩
  rw [total,hf,sum_insert fun hn => h.new (mem_filter.mp hn).1]
end Extends

/-- The edges that do not cross between a set and the rest. -/
def Within (R : α → α → Prop) (side : Finset α) (a b : α) : Prop := R a b ∧ (a ∈ side ↔ b ∈ side)
theorem within_swap (side : Finset α) : Within (Function.swap R) side = Function.swap (Within R side) := by
  funext a b
  exact propext (and_congr_right fun _ => iff_comm)

variable {side : Finset α}
theorem Closed.reach_within (h : Closed R side) :
    ReflTransGen (Within R side) x y ↔ ReflTransGen R x y ∧ (x ∈ side ↔ y ∈ side) := by
  constructor
  · intro hr
    induction hr with
    | refl => exact ⟨.refl,Iff.rfl⟩
    | tail _ hst ih => exact ⟨ih.1.tail hst.1,ih.2.trans hst.2⟩
  · rintro ⟨hr,hs⟩
    rcases h with hout | hin
    · induction hr using head_induction_on with
      | refl => exact .refl
      | head hst hpath ih =>
        -- a path that ends outside never was inside
        have hsi := fun hc => hs.mpr (mem_of_reach hout hpath hc)
        have hcr := Iff.intro (hout _ _ hst) hsi
        exact (ih (hcr.symm.trans hs)).head ⟨hst,hcr⟩
    · induction hr with
      | refl => exact .refl
      | tail hpath hst ih =>
        have hba := mem_of_reach (R := Function.swap R) (fun a b hab => hin b a hab)
          (reflTransGen_swap.mpr hpath)
        have hcr := Iff.intro (fun hb => hs.mp (hba hb)) (hin _ _ hst)
        exact (ih (hs.trans hcr.symm)).tail ⟨hst,hcr⟩

theorem Closed.acyclic (h : Closed R side)
    (ha : ∀ x, ¬ TransGen (Within R side) x x) (x : α) : ¬ TransGen R x x := by
  intro hc
  obtain ⟨c,hst,hb⟩ := TransGen.head'_iff.mp hc
  have hs : x ∈ side ↔ c ∈ side := by
    have hf := single hst
    rcases h with hout | hin
    · exact ⟨mem_of_reach hout hf,mem_of_reach hout hb⟩
    · have hin' : ∀ a b, Function.swap R a b → a ∈ side → b ∈ side := fun a b hab => hin b a hab
      exact ⟨mem_of_reach hin' (reflTransGen_swap.mpr hb),mem_of_reach hin' (reflTransGen_swap.mpr hf)⟩
  exact ha x (TransGen.head' ⟨hst,hs⟩ (h.reach_within.mpr ⟨hb,hs.symm⟩))

/-- A total is the one on the node's own side and what is reached on the other side. -/
theorem Closed.total_eq (h : Closed R side) (x : α) :
    total R nodes w x = total (Within R side) nodes w x +
      ∑ y ∈ nodes with ¬ (x ∈ side ↔ y ∈ side) ∧ ReflTransGen R x y, w y := by
  have hr : nodes.filter (ReflTransGen R x) =
      nodes.filter (ReflTransGen (Within R side) x) ∪
        nodes.filter (fun y => ¬ (x ∈ side ↔ y ∈ side) ∧ ReflTransGen R x y) := by
    ext y
    simp only [mem_filter,mem_union,h.reach_within]
    tauto
  have hd : Disjoint (nodes.filter (ReflTransGen (Within R side) x))
      (nodes.filter (fun y => ¬ (x ∈ side ↔ y ∈ side) ∧ ReflTransGen R x y)) := by
    rw [disjoint_filter]
    intro y _ hown hoth
    exact hoth.1 (h.reach_within.mp hown).2
  rw [total,total,hr,sum_union hd]

theorem total_reweigh {w' : α → M} (hw : ∀ y, y ≠ n → w' y = w y) (hn : n ∈ nodes) (x : α) :
    total R nodes w' x = total R nodes w x + if ReflTransGen R x n then w' n - w n else 0 := by
  by_cases hr : ReflTransGen R x n
  · have hmem : n ∈ nodes.filter (ReflTransGen R x) := mem_filter.mpr ⟨hn,hr⟩
    have hre : ∑ y ∈ (nodes.filter (ReflTransGen R x)).erase n, w' y =
        ∑ y ∈ (nodes.filter (ReflTransGen R x)).erase n, w y :=
      sum_congr rfl fun y hy => hw y (ne_of_mem_erase hy)
    rw [total,total,← add_sum_erase _ _ hmem,← add_sum_erase _ w hmem,hre,if_pos hr]
    abel
  · rw [if_neg hr,add_zero]
    apply sum_congr rfl
    intro y hy
    apply hw
    rintro rfl
    exact hr (mem_filter.mp hy).2

theorem update_beyond [DecidableEq α] {P Q : α → Prop} (hP : ∀ k, P k ↔ k ≠ n ∧ Q k)
    (hn : Q n) (old : α → M) (c : M) :
    (fun k => if P k then update old n (old n + c) k + c
      else update old n (old n + c) k) = fun k => if Q k then old k + c else old k := by
  funext k
  by_cases hk : k = n
  · subst hk
    simp [hP,hn]
  · simp [hP,hk]
end Lcryp.Lineage
