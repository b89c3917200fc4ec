import Mathlib.Algebra.Order.BigOperators.Group.Finset
import Mathlib.Algebra.Ring.Int.Defs
import Mathlib.Data.Finmap

/-!
# Logs of writes

A write sets or clears one key of a finite map.  The last write to a key decides what a log leaves there.
-/
namespace Lcryp.WriteLog
open List Finmap
variable {κ α : Type} [DecidableEq κ]
abbrev KeyMap (κ α : Type) := Finmap fun _ : κ => α
abbrev Write (κ α : Type) := κ × Option α

variable (m : KeyMap κ α) (w : Write κ α)
def write : KeyMap κ α :=
  match w.2 with
  | none => m.erase w.1
  | some a => m.insert w.1 a

variable (log : List (Write κ α))

def replay : KeyMap κ α := log.foldl write m
def lastWrite : List (Write κ α) → κ → Option (Option α)
  | [], _ => none
  | w::rest, k =>
    match lastWrite rest k with
    | some v => some v
    | none => if k = w.1 then some w.2 else none

@[simp]
theorem replay_nil : replay m [] = m := rfl

@[simp]
theorem replay_cons : replay m (w::log) = replay (write m w) log := rfl
theorem replay_append (first second : List (Write κ α)) :
    replay m (first++second) = replay (replay m first) second :=
  foldl_append

theorem lookup_write (k : κ) : (write m w).lookup k = if k = w.1 then w.2 else m.lookup k := by
  obtain ⟨key,value⟩ := w
  by_cases h : k = key
  · subst h
    cases value with
    | none => simp [write]
    | some a => simp [write]
  · cases value with
    | none => simp [write,h]
    | some a => simp [write,h]

variable (m : KeyMap κ α)

theorem lookup_replay (k : κ) :
    (replay m log).lookup k =
      match lastWrite log k with
      | some v => v
      | none => m.lookup k := by
  induction log generalizing m with
  | nil => rfl
  | cons w rest ih =>
    rw [replay_cons,ih,lookup_write,lastWrite]
    cases lastWrite rest k with
    | some v => rfl
    | none => by_cases h : k = w.1 <;> simp [h]

theorem lastWrite_eq_none_iff (k : κ) : lastWrite log k = none ↔ k ∉ log.map Prod.fst := by
  induction log with
  | nil => simp [lastWrite]
  | cons w rest ih =>
    rw [lastWrite,map_cons,mem_cons,not_or,← ih]
    cases lastWrite rest k with
    | some v => simp
    | none => by_cases h : k = w.1 <;> simp

variable {log : List (Write κ α)}
theorem lookup_replay_of_notMem {k : κ} (h : k ∉ log.map Prod.fst) : (replay m log).lookup k = m.lookup k := by
  rw [lookup_replay,(lastWrite_eq_none_iff log k).mpr h]

theorem lookup_replay_of_mem {w : Write κ α}
    (hnd : (log.map Prod.fst).Nodup) (hw : w ∈ log) : (replay m log).lookup w.1 = w.2 := by
  induction log generalizing m with
  | nil => cases hw
  | cons first rest ih =>
    rw [map_cons,nodup_cons] at hnd
    rw [replay_cons]
    rcases mem_cons.mp hw with rfl | hr
    · rw [lookup_replay_of_notMem _ hnd.1,lookup_write,if_pos rfl]
    · exact ih _ hnd.2 hr

theorem replay_congr {m m' : KeyMap κ α}
    (h : ∀ k, k ∉ log.map Prod.fst → m.lookup k = m'.lookup k) : replay m log = replay m' log := by
  apply ext_lookup
  intro k
  rw [lookup_replay,lookup_replay]
  cases hl : lastWrite log k with
  | some v => rfl
  | none => exact h k ((lastWrite_eq_none_iff log k).mp hl)

/-- Replaying a log repairs any mixture of the map before it and the map after it. -/
theorem replay_mixture {m before : KeyMap κ α}
    (h : ∀ k, m.lookup k = before.lookup k ∨ m.lookup k = (replay before log).lookup k) :
    replay m log = replay before log := by
  apply replay_congr
  intro k hk
  rcases h k with hbef | ha
  · exact hbef
  · rw [ha,lookup_replay_of_notMem before hk]

theorem lookup_replay_map (f : κ → Option α) (keys : List κ) (m : KeyMap κ α) (k : κ) :
    (replay m (keys.map fun k => (k, f k))).lookup k = if k ∈ keys then f k else m.lookup k := by
  induction keys generalizing m with
  | nil => simp
  | cons key rest ih =>
    rw [map_cons,replay_cons,ih,lookup_write]
    by_cases hr : k ∈ rest
    · rw [if_pos hr,if_pos (mem_cons_of_mem _ hr)]
    · by_cases hkey : k = key
      · simp [hkey]
      · simp [hkey]

theorem replay_restore {keys : List κ} (m : KeyMap κ α) (h : ∀ w ∈ log, w.1 ∈ keys) :
    replay (replay m log) (keys.map fun k => (k, m.lookup k)) = m := by
  apply ext_lookup
  intro k
  rw [lookup_replay_map]
  split
  · rfl
  · rename_i hk
    refine lookup_replay_of_notMem m fun hmem => ?_
    obtain ⟨w,hw,rfl⟩ := mem_map.mp hmem
    exact hk (h w hw)

theorem replay_items {items : List (κ × α)} {m : KeyMap κ α} (hnd : (items.map Prod.fst).Nodup)
    (h : ∀ item, item ∈ items ↔ m.lookup item.1 = some item.2) :
    replay ∅ (items.map fun item => (item.1, some item.2)) = m := by
  have hke : (items.map fun item => (item.1, some item.2)).map Prod.fst = items.map Prod.fst := by
    rw [map_map]
    rfl
  apply ext_lookup
  intro k
  cases hk : m.lookup k with
  | some a =>
    have hi := (h (k, a)).mpr hk
    exact lookup_replay_of_mem ∅ (hke ▸ hnd) (mem_map.mpr ⟨(k, a),hi,rfl⟩)
  | none =>
    rw [lookup_replay_of_notMem,lookup_empty]
    rw [hke]
    intro hmem
    obtain ⟨item,hi,rfl⟩ := mem_map.mp hmem
    rw [(h item).mp hi] at hk
    cases hk

theorem replay_values {P : α → Prop} {m : KeyMap κ α} (log : List (Write κ α))
    (hm : ∀ k a, m.lookup k = some a → P a) (hlog : ∀ w ∈ log, ∀ a, w.2 = some a → P a) :
    ∀ k a, (replay m log).lookup k = some a → P a := by
  induction log generalizing m with
  | nil => exact hm
  | cons w rest ih =>
    rw [forall_mem_cons] at hlog
    refine ih ?_ hlog.2
    intro k a hk
    rw [lookup_write] at hk
    split at hk
    · exact hlog.1 a hk
    · exact hm k a hk

/-- Items with distinct keys are merged into a state one after the other.  If merging one item sets
the state's view at its key, merging all of them sets it at all their keys. -/
theorem merge_distinct {σ β ε : Type} (view : σ → κ → Option α) (value : β → Option α)
    (Ready : Option α → β → Prop) (Inv : σ → Prop) (merge : σ → κ × β → Except ε σ)
    (hm : ∀ s k b, Inv s → Ready (view s k) b → ∃ s', merge s (k, b) = .ok s' ∧ Inv s' ∧
      ∀ k', view s' k' = if k' = k then value b else view s k')
    (items : List (κ × β)) (s : σ) (hs : Inv s) (hnd : (items.map Prod.fst).Nodup)
    (hr : ∀ item ∈ items, Ready (view s item.1) item.2) :
    ∃ s', items.foldlM merge s = .ok s' ∧ Inv s' ∧ (∀ item ∈ items, view s' item.1 = value item.2) ∧
      ∀ k, k ∉ items.map Prod.fst → view s' k = view s k := by
  induction items generalizing s with
  | nil => exact ⟨s,rfl,hs,by simp,fun _ _ => rfl⟩
  | cons item rest ih =>
    obtain ⟨key,b⟩ := item
    rw [map_cons,nodup_cons] at hnd
    rw [forall_mem_cons] at hr
    obtain ⟨mid,hmid,hinv,hv⟩ := hm s key b hs hr.1
    -- the items still to come have other keys, which the first one leaves alone
    have hsa : ∀ item ∈ rest, view mid item.1 = view s item.1 := by
      intro item hitem
      rw [hv,if_neg]
      intro hkey
      have hmem := mem_map_of_mem (f := Prod.fst) hitem
      rw [hkey] at hmem
      exact hnd.1 hmem
    obtain ⟨s',hs',hi,hset,hke⟩ := ih mid hinv hnd.2 (by
      intro item hitem
      rw [hsa item hitem]
      exact hr.2 item hitem)
    refine ⟨s',?_,hi,?_,?_⟩
    · rw [foldlM_cons,hmid]
      exact hs'
    · rw [forall_mem_cons]
      refine ⟨?_,hset⟩
      rw [hke key hnd.1,hv,if_pos rfl]
    · intro k hk
      rw [map_cons,mem_cons,not_or] at hk
      rw [hke k hk.2,hv,if_neg hk.1]

def weight (f : α → Int) : Option α → Int
  | none => 0
  | some a => f a

def total (f : α → Int) (m : KeyMap κ α) : Int := ∑ k ∈ m.keys, weight f (m.lookup k)

variable (f : α → Int) (m : KeyMap κ α)
private theorem total_eq_sum (keys : Finset κ)
    (h : m.keys ⊆ keys) : total f m = ∑ k ∈ keys, weight f (m.lookup k) := by
  refine Finset.sum_subset h ?_
  intro k _ hk
  rw [Finmap.mem_keys,← lookup_eq_none] at hk
  rw [hk,weight]

theorem total_empty : total f (∅ : KeyMap κ α) = 0 := rfl

theorem total_write (w : Write κ α) :
    total f (write m w) = total f m - weight f (m.lookup w.1) + weight f w.2 := by
  have hke : (write m w).keys ⊆ insert w.1 m.keys := by
    intro k hk
    rw [Finset.mem_insert]
    rw [Finmap.mem_keys,← lookup_isSome,lookup_write] at hk
    by_cases h : k = w.1
    · exact .inl h
    · rw [if_neg h,lookup_isSome] at hk
      exact .inr (Finmap.mem_keys.mpr hk)
  rw [total_eq_sum f (write m w) _ hke,total_eq_sum f m _ (Finset.subset_insert w.1 m.keys),
    ← Finset.add_sum_erase _ _ (Finset.mem_insert_self w.1 m.keys),
    ← Finset.add_sum_erase _ (fun k => weight f (m.lookup k)) (Finset.mem_insert_self w.1 m.keys)]
  have hr : ∀ k ∈ (insert w.1 m.keys).erase w.1,
      weight f ((write m w).lookup k) = weight f (m.lookup k) := by
    intro k hk
    rw [lookup_write,if_neg (Finset.ne_of_mem_erase hk)]
  rw [Finset.sum_congr rfl hr,lookup_write,if_pos rfl]
  omega

theorem total_replay_clear (keys : List κ) (hnd : keys.Nodup) :
    total f (replay m (keys.map fun k => (k, none))) =
      total f m - (keys.map fun k => weight f (m.lookup k)).sum := by
  induction keys generalizing m with
  | nil => simp
  | cons key rest ih =>
    rw [nodup_cons] at hnd
    have hr : rest.map (fun k => weight f ((write m (key, none)).lookup k)) =
        rest.map fun k => weight f (m.lookup k) := by
      refine map_congr_left ?_
      intro k hk
      rw [lookup_write,if_neg]
      rintro rfl
      exact hnd.1 hk
    rw [map_cons,replay_cons,ih _ hnd.2,total_write,hr,map_cons,sum_cons]
    simp only [weight]
    omega

theorem total_replay_items (items : List (κ × α))
    (hnd : (items.map Prod.fst).Nodup) (hnew : ∀ item ∈ items, m.lookup item.1 = none) :
    total f (replay m (items.map fun item => (item.1, some item.2))) =
      total f m + (items.map fun item => f item.2).sum := by
  induction items generalizing m with
  | nil => simp
  | cons item rest ih =>
    rw [map_cons,nodup_cons] at hnd
    rw [forall_mem_cons] at hnew
    have hr : ∀ other ∈ rest, (write m (item.1, some item.2)).lookup other.1 = none := by
      intro other hoth
      rw [lookup_write,if_neg,hnew.2 other hoth]
      intro hkey
      exact hnd.1 (hkey ▸ mem_map_of_mem hoth)
    rw [map_cons,replay_cons,ih _ hnd.2 hr,total_write,hnew.1,map_cons,sum_cons]
    simp only [weight]
    omega
section NonNegative
variable {f : α → Int} {m : KeyMap κ α} (h : ∀ k a, m.lookup k = some a → 0 ≤ f a)
include h

private theorem weight_nonneg (k : κ) : 0 ≤ weight f (m.lookup k) := by
  cases hk : m.lookup k with
  | none => exact le_refl 0
  | some a => exact h k a hk

theorem total_nonneg : 0 ≤ total f m := Finset.sum_nonneg fun k _ => weight_nonneg h k
theorem weight_le_total (k : κ) : weight f (m.lookup k) ≤ total f m := by
  rw [total_eq_sum f m _ (Finset.subset_insert k m.keys)]
  exact Finset.single_le_sum (fun k _ => weight_nonneg h k) (Finset.mem_insert_self k m.keys)

theorem total_replay_le (log : List (Write κ α)) (hlog : ∀ w ∈ log, ∀ a, w.2 = some a → 0 ≤ f a) :
    total f (replay m log) ≤ total f m + (log.map fun w => weight f w.2).sum := by
  induction log generalizing m with
  | nil => simp
  | cons w rest ih =>
    rw [forall_mem_cons] at hlog
    have hmid : ∀ k a, (write m w).lookup k = some a → 0 ≤ f a := by
      refine replay_values [w] h fun v hv => ?_
      rw [mem_singleton.mp hv]
      exact hlog.1
    have hold := weight_nonneg h w.1
    have hr := ih hmid hlog.2
    rw [total_write] at hr
    rw [replay_cons,map_cons,sum_cons]
    omega
end NonNegative
end Lcryp.WriteLog
