import Mathlib.Data.Finset.Insert

/-!
# Components

The sets into which a family of overlapping groups falls, and what one more group does to them.
-/
namespace Lcryp
open Relation
variable {α : Type} {r : α → α → Prop} {s t : Finset α} {a b : α}
/-- A class of the equivalence that a relation generates. -/
def IsComponent (r : α → α → Prop) (s : Finset α) : Prop := s.Nonempty ∧ ∀ a ∈ s, ∀ b, b ∈ s ↔ EqvGen r a b
theorem mem_iff_of_eqvGen (hc : ∀ a b, r a b → (a ∈ s ↔ b ∈ s)) (h : EqvGen r a b) : a ∈ s ↔ b ∈ s := by
  have hiff : Equivalence fun a b => a ∈ s ↔ b ∈ s := ⟨fun _ => .rfl,.symm,.trans⟩
  exact hiff.eqvGen_iff.mp (h.mono hc)

namespace IsComponent
theorem of_closed (hcl : ∀ a b, r a b → (a ∈ s ↔ b ∈ s)) (ha : a ∈ s)
    (hj : ∀ b ∈ s, EqvGen r a b) : IsComponent r s := by
  refine ⟨⟨a,ha⟩,fun b hb c => ⟨fun hc => ?_,fun h => (mem_iff_of_eqvGen hcl h).mp hb⟩⟩
  exact .trans _ _ _ (.symm _ _ (hj b hb)) (hj c hc)

theorem eq_of_mem (hs : IsComponent r s) (ht : IsComponent r t) (ha : a ∈ s) (hat : a ∈ t) : s = t := by
  ext b
  rw [hs.2 a ha,ht.2 a hat]
end IsComponent

def LinkedBy (G : Set (Finset α)) (a b : α) : Prop := ∃ g ∈ G, a ∈ g ∧ b ∈ g

variable {G : Set (Finset α)} {P : Finset α → Prop} {g m : Finset α}
theorem LinkedBy.closed (h : ∀ a b, LinkedBy G a b → a ∈ s → b ∈ s) (a b : α)
    (hab : LinkedBy G a b) : a ∈ s ↔ b ∈ s := by
  obtain ⟨g,hg,ha,hb⟩ := hab
  exact ⟨h a b ⟨g,hg,ha,hb⟩,h b a ⟨g,hg,hb,ha⟩⟩

theorem eqvGen_insert (h : EqvGen (LinkedBy G) a b) : EqvGen (LinkedBy (insert g G)) a b :=
  h.mono fun _ _ ⟨g,hg,hab⟩ => ⟨g,.inr hg,hab⟩

theorem IsComponent.of_not_meet (hs : IsComponent (LinkedBy G) s) (hm : ∀ a ∈ s, a ∉ g) :
    IsComponent (LinkedBy (insert g G)) s := by
  obtain ⟨a,ha⟩ := hs.1
  refine .of_closed (LinkedBy.closed ?_) ha fun b hb => eqvGen_insert ((hs.2 a ha b).mp hb)
  rintro b c ⟨g',rfl | hg',hb,hc⟩ hbs
  · exact absurd hb (hm b hbs)
  · exact (hs.2 b hbs c).mpr (.rel _ _ ⟨g',hg',hb,hc⟩)

theorem IsComponent.merge (hP : ∀ s, P s → IsComponent (LinkedBy G) s) (hc : ∀ g ∈ G, ∀ a ∈ g, ∃ s, P s ∧ a ∈ s)
    (hg : g.Nonempty) (hm : ∀ a, a ∈ m ↔ a ∈ g ∨ ∃ s, P s ∧ (∃ b ∈ s, b ∈ g) ∧ a ∈ s) :
    IsComponent (LinkedBy (insert g G)) m := by
  obtain ⟨x,hx⟩ := hg
  refine .of_closed (LinkedBy.closed ?_) ((hm x).mpr (.inl hx)) fun b hb => ?_
  · rintro a b ⟨g',rfl | hg',ha,hb⟩ ham
    · exact (hm b).mpr (.inl hb)
    · obtain ⟨s,hs,has⟩ := hc g' hg' a ha
      refine (hm b).mpr (.inr ⟨s,hs,?_,((hP s hs).2 a has b).mpr (.rel _ _ ⟨g',hg',ha,hb⟩)⟩)
      rcases (hm a).mp ham with hag | ⟨t,ht,hme,hat⟩
      · exact ⟨a,has,hag⟩
      · rwa [(hP s hs).eq_of_mem (hP t ht) has hat]
  · rcases (hm b).mp hb with hbg | ⟨s,hs,⟨y,hys,hyg⟩,hbs⟩
    · exact .rel _ _ ⟨g,.inl rfl,hx,hbg⟩
    · exact .trans _ _ _ (.rel _ _ ⟨g,.inl rfl,hx,hyg⟩) (eqvGen_insert (((hP s hs).2 y hys b).mp hbs))

/-- What a fold has collected when each of its steps adds what `Q` says. -/
theorem mem_foldl {ι : Type} {f : Finset α → ι → Finset α} {Q : ι → Prop} (hf : ∀ s i, a ∈ f s i ↔ a ∈ s ∨ Q i)
    (l : List ι) (s : Finset α) : a ∈ l.foldl f s ↔ a ∈ s ∨ ∃ i ∈ l, Q i := by
  induction l generalizing s with
  | nil => simp
  | cons i l ih => simp [ih,hf,or_assoc]
end Lcryp
