import Lcryp.Chain.VersionBits
import Lcryp.Validation.Invalidate
import Mathlib.Data.Nat.Log

/-!
# Block locators

A locator lists ancestors of a block with growing gaps; a peer looks for the first one on its chain.
-/
namespace Lcryp
open List IndexChain ChainIndex Nat Option
/-- `step *= 2` after the first ten entries; nothing if the `int` overflows. -/
def doubleStep (size step : Nat) : Option Nat :=
  if size > 10 then if step * 2 < 2^31 then some (step*2) else none else some step

/-- The loop of `LocatorEntries` with `size` entries in `have`. -/
def locatorLoop : Nat → Nat → Nat → IndexChain → Option (List Uint256)
  | 0, _, _, _ => none
  | _, _, _, [] => some []
  | fuel+1, step, size, entry::pprev =>
    if entry.nHeight = 0 then some [entry.phashBlock]
    else do
      let index := getAncestor (entry::pprev) (entry.nHeight-step)
      let step ← doubleStep (size+1) step
      return entry.phashBlock::(← locatorLoop fuel step (size+1) index)

def locatorEntries (index : IndexChain) : Option (List Uint256) := locatorLoop index.length 1 0 index

def findForkInGlobalIndex (lookupBlockIndex : Uint256 → Option IndexChain) (chain : IndexChain) :
    List Uint256 → IndexChain
  | [] => chain.drop (chain.length-1)
  | hash::rest =>
    match lookupBlockIndex hash with
    | some (entry::pprev) =>
      if ChainIndex.contains chain entry then entry::pprev
      else if getAncestorAt (entry::pprev) ((chain.length : Int) - 1) = chain then chain
      else findForkInGlobalIndex lookupBlockIndex chain rest
    | _ => findForkInGlobalIndex lookupBlockIndex chain rest

/-- The step between two entries is at most one longer than the distance to the block itself. -/
def Near (block a b : IndexChain) : Prop := b.length < a.length ∧ 2 * a.length ≤ b.length + block.length + 1
theorem getAncestorAt_suffix (pindex : IndexChain) (height : Int) : getAncestorAt pindex height <:+ pindex := by
  unfold getAncestorAt getAncestor
  repeat' split
  all_goals first | exact nil_suffix | exact drop_suffix _ _

structure Locates (block index : IndexChain) (entries : List IndexChain) : Prop where
  first : entries.head? = some index
  suffix : ∀ a ∈ entries, a ≠ [] ∧ a <:+ index
  near : entries.IsChain (Near block)
  last : entries.getLast?.map length = some 1

section Entries
variable {block : IndexChain}
theorem doubleStep_eq_some {size step : Nat} (h : step = 2^(size-10)) (hle : step < 2^30) :
    doubleStep (size+1) step = some (2^(size + 1 - 10)) := by
  unfold doubleStep
  split_ifs with hl hfits
  · rw [h,← pow_succ,show size - 10 + 1 = size + 1 - 10 by omega]
  · omega
  · rw [h,show size - 10 = size + 1 - 10 by omega]

theorem locatorLoop_eq_some (hsi : block.length ≤ 2^30) {fuel step size : Nat} {index : IndexChain}
    (hheights : index.Heights) (hne : index ≠ []) (hf : index.length ≤ fuel)
    (hs : step = 2^(size-10)) (hna : 1 < index.length → step + index.length ≤ block.length + 1)
    (hcnt : size ≤ 11 + clog 2 block.length) :
    ∃ entries, locatorLoop fuel step size index = some (entries.map tipHash) ∧
      Locates block index entries ∧ size + entries.length ≤ 12 + clog 2 block.length := by
  induction fuel generalizing step size index with
  | zero => exact absurd (length_eq_zero_iff.mp (le_zero.mp hf)) hne
  | succ fuel ih =>
    obtain ⟨entry,pprev,rfl⟩ := exists_cons_of_ne_nil hne
    have hht := hheights.1
    rw [length_cons] at hf hna
    rw [locatorLoop]
    by_cases hz : entry.nHeight = 0
    · obtain rfl := length_eq_zero_iff.mp (hht.symm.trans hz)
      refine ⟨[[entry]],if_pos hz,⟨rfl,by simp,isChain_singleton _,rfl⟩,?_⟩
      rw [length_singleton]
      omega
    · have hpos : 0 < step := hs ▸ Nat.two_pow_pos _
      have hd := doubleStep_eq_some hs (by omega)
      have hg : 2^(size + 1 - 10) ≤ 2 * step := by
        rw [hs,← pow_succ']
        exact Nat.pow_le_pow_right (by norm_num) (by omega)
      have hlog : size - 10 < clog 2 block.length := (lt_clog_iff_pow_lt (by norm_num)).mpr (by omega)
      obtain ⟨n,hn,hindex⟩ : ∃ n, n = min step pprev.length ∧
          getAncestor (entry::pprev) (entry.nHeight-step) = (entry::pprev).drop n := by
        refine ⟨_,rfl,?_⟩
        rw [getAncestor,if_neg (by omega)]
        congr 1
        omega
      have hlen : ((entry::pprev).drop n).length = pprev.length + 1 - n := by simp
      obtain ⟨entries,he,hloc,hl⟩ := @ih (2^(size + 1 - 10)) (size+1) ((entry::pprev).drop n)
        (hheights.drop n) (ne_nil_of_length_pos (by omega)) (by omega) rfl
        (by omega) (by omega)
      refine ⟨(entry::pprev)::entries,?_,⟨rfl,?_,?_,?_⟩,?_⟩
      · simp only [if_neg hz,hindex,hd,bind_eq_bind,bind_some,he]
        rfl
      · rw [forall_mem_cons]
        exact ⟨⟨hne,suffix_rfl⟩,fun a ha =>
          ⟨(hloc.suffix a ha).1,(hloc.suffix a ha).2.trans (drop_suffix _ _)⟩⟩
      · rw [isChain_cons,hloc.first]
        refine ⟨?_,hloc.near⟩
        intro b hb
        obtain rfl := mem_some_iff.mp hb
        rw [Near,hlen,length_cons]
        omega
      · rw [getLast?_cons_of_ne_nil,hloc.last]
        rintro rfl
        cases hloc.first
      · rw [length_cons]
        omega
end Entries

section Fork
variable {block chain fork : IndexChain} {lookupBlockIndex : Uint256 → Option IndexChain}
/-- The last block that two chains have in common. -/
structure IsFork (block chain fork : IndexChain) : Prop where
  ne_nil : fork ≠ []
  left : fork <:+ block
  right : fork <:+ chain
  greatest : ∀ c, c <:+ block → c <:+ chain → c.length ≤ fork.length
variable (hheights : block.Heights)
  (hindex : ∀ c, c ≠ [] → c <:+ block ∨ c <:+ chain → lookupBlockIndex (tipHash c) = some c)
include hheights hindex

theorem contains_iff {entry : CBlockIndex} {pprev : IndexChain} (h : entry::pprev <:+ block) :
    ChainIndex.contains chain entry = true ↔ entry::pprev <:+ chain := by
  have hht := ((suffix_iff_eq_drop.mp h).symm ▸ hheights.drop _ : Heights (entry::pprev)).1
  rw [ChainIndex.contains,beq_iff_eq]
  constructor
  · intro hget
    obtain ⟨top,rest,hs⟩ := append_of_mem (mem_reverse.mp (mem_of_getElem? hget))
    have hr : entry::rest <:+ chain := ⟨top,hs.symm⟩
    have hfst := hindex _ (cons_ne_nil _ _) (.inl h)
    have hsnd := hindex _ (cons_ne_nil _ _) (.inr hr)
    cases hfst.symm.trans hsnd
    exact hr
  · rintro ⟨top,rfl⟩
    simp [hht]

theorem findFork_near {entries : List IndexChain} (hf : IsFork block chain fork)
    (hsuf : ∀ a ∈ entries, a ≠ [] ∧ a <:+ block)
    (hn : entries.IsChain (Near block)) (hlow : ∃ a ∈ entries, a.length ≤ fork.length)
    (hfst : ∀ a ∈ entries.head?, 2 * fork.length ≤ a.length + block.length) :
    ∃ g, findForkInGlobalIndex lookupBlockIndex chain (entries.map tipHash) = g ∧ g ≠ [] ∧
      g <:+ fork ∧ 2 * fork.length ≤ g.length + block.length := by
  induction entries with
  | nil => simp at hlow
  | cons a entries ih =>
    rw [forall_mem_cons] at hsuf
    obtain ⟨⟨hne,ha⟩,hr⟩ := hsuf
    obtain ⟨entry,pprev,rfl⟩ := exists_cons_of_ne_nil hne
    rw [map_cons,findForkInGlobalIndex,hindex _ hne (.inl ha)]
    dsimp only
    have hco := contains_iff hheights hindex ha
    by_cases hlen : (entry::pprev).length ≤ fork.length
    · have hs := suffix_of_suffix_length_le ha hf.left hlen
      rw [if_pos (hco.mpr (hs.trans hf.right))]
      exact ⟨_,rfl,hne,hs,hfst _ rfl⟩
    rw [if_neg fun h => hlen (hf.greatest _ ha (hco.mp h))]
    split
    next htip =>
      have hc := (htip ▸ getAncestorAt_suffix _ _).trans ha
      obtain rfl := hf.right.eq_of_length_le (hf.greatest _ hc suffix_rfl)
      have hle := hf.left.length_le
      exact ⟨_,rfl,hf.ne_nil,suffix_rfl,by omega⟩
    · rw [isChain_cons] at hn
      refine ih hr hn.2 ?_ fun b hb => ?_
      · obtain ⟨a,hmem,hle⟩ := hlow
        rcases mem_cons.mp hmem with rfl | hmem
        · exact absurd hle hlen
        · exact ⟨a,hmem,hle⟩
      · have hst := (hn.1 b hb).2
        omega

theorem locator_finds_fork (hchain : block ≠ []) (hsize : block.length ≤ 2^30)
    (hfork : IsFork block chain fork) :
    ∃ entries : List IndexChain, locatorEntries block = some (entries.map tipHash) ∧
      (∀ a ∈ entries, a ≠ [] ∧ a <:+ block) ∧ (entries.IsChain fun a b => b.length < a.length) ∧
      entries.getLast?.map length = some 1 ∧ entries.length ≤ 12 + clog 2 block.length ∧
      ∃ g, findForkInGlobalIndex lookupBlockIndex chain (entries.map tipHash) = g ∧ g ≠ [] ∧
        g <:+ chain ∧ g <:+ block ∧ g.length ≤ fork.length ∧
        fork.length - g.length ≤ block.length - fork.length := by
  obtain ⟨entries,hents,hloc,hcnt⟩ := @locatorLoop_eq_some _ hsize _ 1 0 _ hheights hchain le_rfl
    rfl (fun _ => by omega) (zero_le _)
  have hlow : ∃ a ∈ entries, a.length ≤ fork.length := by
    obtain ⟨a,ha,hlast⟩ := map_eq_some_iff.mp hloc.last
    exact ⟨a,mem_of_getLast? ha,hlast ▸ length_pos_iff.mpr hfork.ne_nil⟩
  have hleft := hfork.left.length_le
  have hfst : ∀ a ∈ entries.head?, 2 * fork.length ≤ a.length + block.length := by
    intro a ha
    rw [hloc.first] at ha
    obtain rfl := mem_some_iff.mp ha
    omega
  obtain ⟨g,hg,hne,hshared,hnear⟩ := findFork_near hheights hindex hfork hloc.suffix hloc.near hlow hfst
  exact ⟨entries,hents,hloc.suffix,hloc.near.imp fun _ _ h => h.1,hloc.last,
    by omega,g,hg,hne,hshared.trans hfork.right,hshared.trans hfork.left,hshared.length_le,by omega⟩
end Fork

/-- Two blocks on the seventh of the numbered chain. -/
def forkedChain : IndexChain :=
  { numberedEntry 8 with phashBlock := 108 }::{ numberedEntry 7 with phashBlock := 107 }::numberedChain 7

def forkedIndex (hash : Uint256) : Option IndexChain :=
  if hash.toNat < 21 then some (numberedChain (hash.toNat+1))
  else forkedChain.tails.find? fun c => tipHash c = hash

/-- The locator skips the block at the fork, and the peer finds the one three below it. -/
theorem forkedChain_located :
    (locatorEntries (numberedChain 21)).map (findForkInGlobalIndex forkedIndex forkedChain) =
        some (numberedChain 4) ∧
      ∃ entries, locatorEntries (numberedChain 21) = some entries ∧
        ∃ g, findForkInGlobalIndex forkedIndex forkedChain entries = g ∧ g ≠ [] ∧ g <:+ numberedChain 21 ∧
          g.length ≤ 7 ∧ 7 - g.length ≤ 21 - 7 := by
  have hown : ∀ c ∈ (numberedChain 21).tails++forkedChain.tails, c ≠ [] → forkedIndex (tipHash c) = some c := by
    decide +kernel
  have hgreatest : ∀ c ∈ (numberedChain 21).tails, c <:+ forkedChain → c.length ≤ 7 := by decide +kernel
  have hfork : IsFork (numberedChain 21) forkedChain (numberedChain 7) :=
    ⟨by decide,by decide +kernel,by decide +kernel,fun c hleft => hgreatest c ((mem_tails _ _).mpr hleft)⟩
  obtain ⟨entries,hents,-,-,-,-,g,hg,hne,-,hleft,hle,hnear⟩ := locator_finds_fork (by decide)
    (fun c hne h => hown c (mem_append.mpr (h.imp (mem_tails _ _).mpr (mem_tails _ _).mpr)) hne) (by decide)
    (by decide) hfork
  exact ⟨by decide +kernel,_,hents,g,hg,hne,hleft,hle,hnear⟩
end Lcryp
