import Mathlib.Data.Finset.Card

/-!
# Worklist search

A search moves a node from its stage to the visited ones and stages the successors that are not visited.
-/
namespace Lcryp.Search
open Relation List Finset
theorem foldl_choice_mem {β : Type} {f : β → β → β} (hf : ∀ a b, f a b = a ∨ f a b = b) (l : List β)
    (first : β) : l.foldl f first ∈ first::l := by
  induction l generalizing first with
  | nil => simp
  | cons item rest ih =>
    rw [foldl_cons]
    rcases mem_cons.mp (ih (f first item)) with heq | hmem
    · rw [heq]
      rcases hf first item with hc | hc <;> simp [hc]
    · exact mem_cons_of_mem _ (mem_cons_of_mem _ hmem)

variable {α : Type} [DecidableEq α]
def stageAll (visited : List α) : List α → List α → List α
  | stage, [] => stage
  | stage, b::rest => stageAll visited (if b ∈ visited then stage else stage.insert b) rest

def explore (next : α → List α) : Nat → List α → List α → List α
  | 0, visited, _ => visited
  | _+1, visited, [] => visited
  | fuel+1, visited, a::stage =>
    explore next fuel (visited.insert a) (stageAll (visited.insert a) stage (next a))

abbrev Reach (next : α → List α) : α → α → Prop := ReflTransGen fun a b => b ∈ next a

/-- What the search keeps true of the visited and the staged nodes. -/
structure Searching (next : α → List α) (nodes : Finset α) (visited stage : List α) : Prop where
  visited_nodup : visited.Nodup
  stage_nodup : stage.Nodup
  stage_new : ∀ a ∈ stage, a ∉ visited
  stage_known : ∀ a ∈ stage, a ∈ nodes
  closed : ∀ a ∈ visited, ∀ b ∈ next a, b ∈ visited ∨ b ∈ stage

variable {next : α → List α} {nodes : Finset α} {visited stage : List α}
/-- The successors of a node: a cached answer joins the visited nodes, the other successors that are not
visited are staged. -/
def meetAll (cached : α → Option (List α)) : List α → List α → List α → List α × List α
  | visited, stage, [] => (visited, stage)
  | visited, stage, b::rest =>
    match cached b with
    | some found => meetAll cached (found ∪ visited) stage rest
    | none => meetAll cached visited (if b ∈ visited then stage else stage.insert b) rest

def exploreCached (next : α → List α) (cached : α → Option (List α)) : Nat → List α → List α → List α
  | 0, visited, _ => visited
  | _+1, visited, [] => visited
  | fuel+1, visited, a::stage =>
    let met := meetAll cached (visited.insert a) stage (next a)
    exploreCached next cached fuel met.1 met.2

/-- A cached answer lists the targets that its node reaches. -/
structure Answers (next : α → List α) (target : α → Prop) (cached : α → Option (List α)) : Prop where
  closed : ∀ a b, target a → b ∈ next a → target b
  mem : ∀ a found, cached a = some found → ∀ z, z ∈ found ↔ target z ∧ Reach next a z

variable {cached : α → Option (List α)}
section Met
variable {succs : List α} {b x : α}
theorem mem_meetAll_visited :
    x ∈ (meetAll cached visited stage succs).1 ↔
      x ∈ visited ∨ ∃ b ∈ succs, ∃ found, cached b = some found ∧ x ∈ found := by
  induction succs generalizing visited stage with
  | nil => simp [meetAll]
  | cons b rest ih =>
    rw [meetAll]
    cases hb : cached b with
    | none => simp [ih,hb]
    | some found => simp [ih,hb,or_comm,or_assoc]

theorem meetAll_visited_sub (hx : x ∈ visited) : x ∈ (meetAll cached visited stage succs).1 :=
  mem_meetAll_visited.mpr (.inl hx)
theorem meetAll_found (hb : b ∈ succs) {found : List α} (hf : cached b = some found)
    (hx : x ∈ found) : x ∈ (meetAll cached visited stage succs).1 :=
  mem_meetAll_visited.mpr (.inr ⟨b,hb,found,hf,hx⟩)

theorem meetAll_stage_sub (hx : x ∈ stage) : x ∈ (meetAll cached visited stage succs).2 := by
  induction succs generalizing visited stage with
  | nil => exact hx
  | cons b rest ih =>
    rw [meetAll]
    split
    · exact ih hx
    · apply ih
      split
      · exact hx
      · exact mem_insert_of_mem hx

theorem mem_meetAll_stage (hx : x ∈ (meetAll cached visited stage succs).2) :
    x ∈ stage ∨ x ∈ succs ∧ x ∉ visited := by
  induction succs generalizing visited stage with
  | nil => exact .inl hx
  | cons b rest ih =>
    rw [meetAll] at hx
    split at hx
    · rcases ih hx with hx | ⟨hx,hnew⟩
      · exact .inl hx
      · exact .inr ⟨mem_cons_of_mem _ hx,fun hold => hnew (mem_union_right _ hold)⟩
    · rcases ih hx with hx | ⟨hx,hnew⟩
      · split at hx
        · exact .inl hx
        next hb =>
          rcases mem_insert_iff.mp hx with rfl | hx
          · exact .inr ⟨mem_cons_self,hb⟩
          · exact .inl hx
      · exact .inr ⟨mem_cons_of_mem _ hx,hnew⟩

theorem meetAll_met (visited stage : List α) (hb : b ∈ succs) :
    b ∈ (meetAll cached visited stage succs).1 ∨ b ∈ (meetAll cached visited stage succs).2 ∨
      ∃ found, cached b = some found := by
  induction succs generalizing visited stage with
  | nil => cases hb
  | cons c rest ih =>
    rw [meetAll]
    rcases mem_cons.mp hb with rfl | hb
    · split
      · next found hf => exact .inr (.inr ⟨found,hf⟩)
      · by_cases hvis : b ∈ visited
        · exact .inl (meetAll_visited_sub hvis)
        · refine .inr (.inl (meetAll_stage_sub ?_))
          simp [hvis]
    · split
      · exact ih _ _ hb
      · exact ih _ _ hb

theorem nodup_meetAll (succs : List α) (hvis : visited.Nodup) (hs : stage.Nodup) :
    (meetAll cached visited stage succs).1.Nodup ∧ (meetAll cached visited stage succs).2.Nodup := by
  induction succs generalizing visited stage with
  | nil => exact ⟨hvis,hs⟩
  | cons b rest ih =>
    rw [meetAll]
    split
    · exact ih (hvis.union _) hs
    · apply ih hvis
      split
      · exact hs
      · exact hs.insert
end Met

/-- What a search with a cache keeps true.  The nodes taken from the stage are counted apart, since an
answer may hold nodes that are still staged. -/
structure CachedSearching (next : α → List α) (target : α → Prop) (nodes taken : Finset α)
    (visited stage : List α) : Prop where
  visited_nodup : visited.Nodup
  stage_nodup : stage.Nodup
  taken_visited : ∀ a ∈ taken, a ∈ visited
  stage_new : ∀ a ∈ stage, a ∉ taken
  stage_known : ∀ a ∈ stage, a ∈ nodes
  closed : ∀ a ∈ visited, ∀ b ∈ next a,
    b ∈ visited ∨ b ∈ stage ∨ ∀ z, target z → Reach next b z → z ∈ visited

section Cached
variable {target : α → Prop} {taken : Finset α}
theorem CachedSearching.visit (ha : Answers next target cached) (hn : ∀ a ∈ nodes, ∀ b ∈ next a, b ∈ nodes)
    {a : α} (h : CachedSearching next target nodes taken visited (a::stage)) :
    CachedSearching next target nodes (insert a taken) (meetAll cached (visited.insert a) stage (next a)).1
      (meetAll cached (visited.insert a) stage (next a)).2 := by
  have hs := nodup_cons.mp h.stage_nodup
  constructor
  · exact (nodup_meetAll _ h.visited_nodup.insert hs.2).1
  · exact (nodup_meetAll _ h.visited_nodup.insert hs.2).2
  · intro b hb
    apply meetAll_visited_sub
    rcases mem_insert.mp hb with rfl | hb
    · exact mem_insert_self
    · exact mem_insert_of_mem (h.taken_visited b hb)
  · intro b hb
    rw [mem_insert,not_or]
    rcases mem_meetAll_stage hb with hb | ⟨_,hnew⟩
    · exact ⟨fun heq => hs.1 (heq ▸ hb),h.stage_new b (mem_cons_of_mem _ hb)⟩
    · rw [mem_insert_iff,not_or] at hnew
      exact ⟨hnew.1,fun ht => hnew.2 (h.taken_visited b ht)⟩
  · intro b hb
    rcases mem_meetAll_stage hb with hb | ⟨hb,_⟩
    · exact h.stage_known b (mem_cons_of_mem _ hb)
    · exact hn a (h.stage_known a mem_cons_self) b hb
  · intro c hc b hb
    rcases mem_meetAll_visited.mp hc with hc | ⟨x,hx,found,hf,hc⟩
    · rcases mem_insert_iff.mp hc with rfl | hc
      · rcases meetAll_met (visited.insert c) stage hb with hb' | hb' | ⟨found,hf⟩
        · exact .inl hb'
        · exact .inr (.inl hb')
        · exact .inr (.inr fun z hz hr =>
            meetAll_found hb hf ((ha.mem b found hf z).mpr ⟨hz,hr⟩))
      · rcases h.closed c hc b hb with hb | hb | hall
        · exact .inl (meetAll_visited_sub (mem_insert_of_mem hb))
        · rcases mem_cons.mp hb with rfl | hb
          · exact .inl (meetAll_visited_sub mem_insert_self)
          · exact .inr (.inl (meetAll_stage_sub hb))
        · exact .inr (.inr fun z hz hr =>
            meetAll_visited_sub (mem_insert_of_mem (hall z hz hr)))
    · -- what follows a node of an answer is in the answer
      obtain ⟨htgt,hr⟩ := (ha.mem x found hf c).mp hc
      exact .inl (meetAll_found hx hf ((ha.mem x found hf b).mpr ⟨ha.closed c b htgt hb,hr.tail hb⟩))

omit [DecidableEq α] in
/-- With nothing staged, the targets that a visited node reaches are visited. -/
theorem CachedSearching.reach (h : CachedSearching next target nodes taken visited []) {a z : α}
    (ha : a ∈ visited) (hz : target z) (hr : Reach next a z) : z ∈ visited := by
  induction hr using ReflTransGen.head_induction_on with
  | refl => exact ha
  | head hstep hrest ih =>
    rcases h.closed _ ha _ hstep with hb | hb | hall
    · exact ih hb
    · cases hb
    · exact hall z hz hrest

omit [DecidableEq α] in
theorem CachedSearching.ended (h : CachedSearching next target nodes taken visited []) :
    visited.Nodup ∧ (∀ x ∈ visited, x ∈ visited ∨ ∃ a ∈ [], Reach next a x) ∧
      ∀ z, target z → (∃ a, (a ∈ visited ∨ a ∈ []) ∧ Reach next a z) → z ∈ visited := by
  refine ⟨h.visited_nodup,fun x hx => .inl hx,?_⟩
  rintro z hz ⟨a,ha | ha,hr⟩
  · exact h.reach ha hz hr
  · cases ha

/-- A search with a cache visits, each once, nodes that can be reached from the stage, and all targets
among them. -/
theorem exploreCached_spec (han : Answers next target cached) (hn : ∀ a ∈ nodes, ∀ b ∈ next a, b ∈ nodes)
    (fuel : Nat) (h : CachedSearching next target nodes taken visited stage)
    (hfu : (nodes.filter (· ∉ taken)).card ≤ fuel) :
    (exploreCached next cached fuel visited stage).Nodup ∧
      (∀ x ∈ exploreCached next cached fuel visited stage, x ∈ visited ∨ ∃ a ∈ stage, Reach next a x) ∧
      ∀ z, target z → (∃ a, (a ∈ visited ∨ a ∈ stage) ∧ Reach next a z) →
        z ∈ exploreCached next cached fuel visited stage := by
  induction fuel generalizing taken visited stage with
  | zero =>
    have hs : stage = [] := by
      rw [Nat.le_zero,card_eq_zero,filter_eq_empty_iff] at hfu
      rw [eq_nil_iff_forall_not_mem]
      intro a ha
      exact hfu (h.stage_known a ha) (h.stage_new a ha)
    subst hs
    exact h.ended
  | succ fuel ih =>
    cases stage with
    | nil => exact h.ended
    | cons a stage =>
      have hnew := h.stage_new a mem_cons_self
      have hl : (nodes.filter (· ∉ insert a taken)).card ≤ fuel := by
        have hlt : (nodes.filter (· ∉ insert a taken)).card < (nodes.filter (· ∉ taken)).card := by
          apply card_lt_card
          rw [ssubset_iff_of_subset]
          · exact ⟨a,by simp [h.stage_known a mem_cons_self,hnew]⟩
          · intro b hb
            simp only [Finset.mem_filter,mem_insert,not_or] at hb ⊢
            exact ⟨hb.1,hb.2.2⟩
        omega
      obtain ⟨hnd,hso,hc⟩ := ih (h.visit han hn) hl
      refine ⟨hnd,fun x hx => ?_,fun z hz hr => hc z hz ?_⟩
      · rcases hso x hx with hx | ⟨b,hb,hr⟩
        · rcases mem_meetAll_visited.mp hx with hx | ⟨b,hb,found,hf,hx⟩
          · rcases mem_insert_iff.mp hx with rfl | hx
            · exact .inr ⟨x,mem_cons_self,.refl⟩
            · exact .inl hx
          · exact .inr ⟨a,mem_cons_self,((han.mem b found hf x).mp hx).2.head hb⟩
        · rcases mem_meetAll_stage hb with hb | ⟨hb,_⟩
          · exact .inr ⟨b,mem_cons_of_mem _ hb,hr⟩
          · exact .inr ⟨a,mem_cons_self,hr.head hb⟩
      · obtain ⟨b,hb | hb,hr⟩ := hr
        · exact ⟨b,.inl (meetAll_visited_sub (mem_insert_of_mem hb)),hr⟩
        · rcases mem_cons.mp hb with rfl | hb
          · exact ⟨b,.inl (meetAll_visited_sub mem_insert_self),hr⟩
          · exact ⟨b,.inr (meetAll_stage_sub hb),hr⟩
end Cached

section Plain
theorem meetAll_none (visited stage succs : List α) :
    meetAll (fun _ => none) visited stage succs = (visited, stageAll visited stage succs) := by
  induction succs generalizing stage with
  | nil => rfl
  | cons b rest ih => exact ih _

theorem explore_eq_exploreCached (fuel : Nat) (visited stage : List α) :
    explore next fuel visited stage = exploreCached next (fun _ => none) fuel visited stage := by
  induction fuel generalizing visited stage with
  | zero => rfl
  | succ fuel ih =>
    cases stage with
    | nil => rfl
    | cons a stage =>
      simp only [exploreCached,meetAll_none]
      exact ih _ _

omit [DecidableEq α] in
theorem answers_none : Answers next (fun _ => True) fun _ => none := ⟨fun _ _ _ _ => trivial,nofun⟩

theorem searching_iff :
    Searching next nodes visited stage ↔
      CachedSearching next (fun _ => True) nodes visited.toFinset visited stage := by
  constructor
  · intro h
    exact ⟨h.visited_nodup,h.stage_nodup,by simp,by simpa using h.stage_new,h.stage_known,
      fun a ha b hb => (h.closed a ha b hb).imp_right .inl⟩
  · intro h
    refine ⟨h.visited_nodup,h.stage_nodup,by simpa using h.stage_new,h.stage_known,?_⟩
    intro a ha b hb
    rcases h.closed a ha b hb with hvis | hs | hall
    · exact .inl hvis
    · exact .inr hs
    · exact .inl (hall b trivial .refl)

theorem explore_spec (hn : ∀ a ∈ nodes, ∀ b ∈ next a, b ∈ nodes) (fuel : Nat)
    (h : Searching next nodes visited stage) (hf : (nodes.filter (· ∉ visited)).card ≤ fuel) :
    (explore next fuel visited stage).Nodup ∧
      ∀ x, x ∈ explore next fuel visited stage ↔ x ∈ visited ∨ ∃ a ∈ stage, Reach next a x := by
  obtain ⟨hnd,hs,hc⟩ := exploreCached_spec answers_none hn fuel (searching_iff.mp h) (by simpa using hf)
  rw [explore_eq_exploreCached]
  refine ⟨hnd,fun x => ⟨hs x,?_⟩⟩
  rintro (hx | ⟨a,ha,hr⟩)
  · exact hc x trivial ⟨x,.inl hx,.refl⟩
  · exact hc x trivial ⟨a,.inr ha,hr⟩
end Plain
end Lcryp.Search
