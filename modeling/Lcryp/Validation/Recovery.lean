import Lcryp.Validation.Replay

/-!
# Recovery from an interrupted flush

What a chain of blocks does to the coins is a log of writes, and so is undoing a branch of it; neither
depends on the coins it is applied to.
-/
namespace Lcryp
open Interaction WriteLog List UtxoView Chainstate ConnectedBlock CoinsStack Program IndexChain CCoinsViewDB
/-! ## Chains as logs -/

def chainCoins (env : ValidationEnv) : List ConnectedBlock → CoinMap
  | [] => ∅
  | b::below =>
    if b.entry.phashBlock = env.params.hashGenesisBlock then chainCoins env below
    else replay (chainCoins env below) (blockWrites env b.entry.nHeight b.block.vtx)

variable (env : ValidationEnv)
def backWrites (b : ConnectedBlock) : CoinWrites :=
  undoWritesAll env b.entry.nHeight (b.block.vtx.zip ([]::b.undo.getD [])).reverse

/-- The writes that roll blocks forward, given the last one first. -/
def forwardWrites (blocks : List ConnectedBlock) : CoinWrites :=
  blocks.reverse.flatMap fun b => blockWrites env b.entry.nHeight b.block.vtx

/-- A block and the chain it was connected to. -/
structure Link (env : ValidationEnv) (b : ConnectedBlock) (below : List ConnectedBlock) : Prop where
  height : b.entry.nHeight = below.length
  root : below = [] → b.entry.phashBlock = env.params.hashGenesisBlock
  connected : b.entry.phashBlock ≠ env.params.hashGenesisBlock →
    ∃ undo view view', b.undo = some undo ∧
      BlockConnected env b.block b.entry (below.map entry) view ([]::undo) view' ∧
      view.coins = chainCoins env below ∧ ∀ txundo ∈ undo, ∀ coin ∈ txundo, coin.Restorable

def Linked (env : ValidationEnv) : List ConnectedBlock → Prop
  | [] => True
  | b::below => Link env b below ∧ Linked env below

/-- No block of the chain overwrote an unspent coin. -/
def FreshChain (env : ValidationEnv) : List ConnectedBlock → Prop
  | [] => True
  | b::below =>
    (b.entry.phashBlock ≠ env.params.hashGenesisBlock →
      OutputsFresh env b.entry.nHeight b.block.vtx (chainCoins env below)) ∧
      FreshChain env below

variable {blocks : List ConnectedBlock} {above below : List ConnectedBlock}
section Chains
variable {env : ValidationEnv}
theorem Linked.right (h : Linked env (above++below)) : Linked env below := by
  induction above with
  | nil => exact h
  | cons b rest ih => exact ih h.2

theorem Linked.tip_height (h : Linked env blocks) :
    ∀ tip ∈ (blocks.map entry).head?,
      tip.nHeight + 1 = (blocks.map entry).length := by
  cases blocks with
  | nil => simp
  | cons b rest =>
    intro tip htip
    cases htip
    rw [h.1.height,map_cons,length_cons,length_map]

theorem chainCoins_append (hnon : ∀ b ∈ above, b.entry.phashBlock ≠ env.params.hashGenesisBlock) :
    chainCoins env (above++below) = replay (chainCoins env below) (forwardWrites env above) := by
  induction above with
  | nil => rfl
  | cons b rest ih =>
    rw [forall_mem_cons] at hnon
    rw [cons_append,chainCoins,if_neg hnon.1,ih hnon.2,← replay_append,forwardWrites,forwardWrites]
    simp

theorem replay_backWrites (hl : Linked env (above++below)) (hf : FreshChain env (above++below))
    (hnon : ∀ b ∈ above, b.entry.phashBlock ≠ env.params.hashGenesisBlock) :
    replay (chainCoins env (above++below)) (above.flatMap (backWrites env)) = chainCoins env below := by
  induction above with
  | nil => rfl
  | cons b rest ih =>
    rw [forall_mem_cons] at hnon
    rw [cons_append] at hl hf
    obtain ⟨undo,view,view',hu,hco,hc,_⟩ := hl.1.connected hnon.1
    obtain ⟨mid,htxs,_⟩ := hco.txs
    have hmid : mid.coins = chainCoins env (b::(rest++below)) := by rw [htxs.coins,hc,chainCoins,if_neg hnon.1]
    have hb : replay (chainCoins env (b::(rest++below))) (backWrites env b) = chainCoins env (rest++below) := by
      rw [← hmid,backWrites,hu,← hc]
      refine (htxs.undo ?_).2
      rw [hc]
      exact hf.1 hnon.1
    rw [flatMap_cons,replay_append,cons_append,hb]
    exact ih hl.2 hf.2 hnon.2
end Chains

/-! ## Chains on disk -/

variable {disk : BlockStorage}
namespace BlockStorage
/-- The storage has the index entries, blocks and undo data of a chain. -/
def Holds (disk : BlockStorage) : List ConnectedBlock → Prop
  | [] => True
  | b::below =>
    ((∃ node, disk.blockIndex.lookup b.entry.phashBlock = some node ∧ node.chain = b.entry::below.map entry) ∧
      disk.readBlockFromDisk b.entry = some b.block ∧
      disk.undoReadFromDisk b.entry = b.undo) ∧
    disk.Holds below

instance (disk : BlockStorage) : (blocks : List ConnectedBlock) → Decidable (disk.Holds blocks)
  | [] => isTrue trivial
  | b::below =>
    have : Decidable (∃ node, disk.blockIndex.lookup b.entry.phashBlock = some node ∧
        node.chain = b.entry::below.map entry) :=
      decidable_of_iff ((disk.blockIndex.lookup b.entry.phashBlock).any fun node =>
        node.chain = b.entry::below.map entry) (by simp [Option.any_eq_true])
    have : Decidable (disk.Holds below) := instDecidableHolds disk below
    inferInstanceAs (Decidable (_ ∧ _))

theorem Holds.right (h : disk.Holds (above++below)) : disk.Holds below := by
  induction above with
  | nil => exact h
  | cons b rest ih => exact ih h.2

theorem Holds.ext {first second : List ConnectedBlock} (hfst : disk.Holds first)
    (hsnd : disk.Holds second) (h : first.map entry = second.map entry) : first = second := by
  induction first generalizing second with
  | nil => exact (map_eq_nil_iff.mp h.symm).symm
  | cons b rest ih =>
    obtain ⟨b',rest',rfl,hent,hr⟩ := map_eq_cons_iff.mp h.symm
    obtain ⟨⟨_,hbl,hun⟩,hhe⟩ := hfst
    obtain ⟨⟨_,hb,hu⟩,hh⟩ := hsnd
    rw [ih hhe hh hr.symm]
    obtain ⟨block,entry,undo⟩ := b
    obtain ⟨block',entry',undo'⟩ := b'
    obtain rfl : entry' = entry := hent
    cases hbl.symm.trans hb
    obtain rfl := hun.symm.trans hu
    rfl

theorem Holds.lookup_tip (h : disk.Holds blocks) (hne : blocks ≠ []) :
    ∃ node, disk.blockIndex.lookup (prevHash (blocks.map entry)) = some node ∧
      node.chain = blocks.map entry := by
  obtain ⟨b,below,rfl⟩ := exists_cons_of_ne_nil hne
  exact h.1.1

theorem Holds.tip_ne_zero (h : disk.Holds blocks)
    (hne : blocks ≠ []) : prevHash (blocks.map entry) ≠ 0#256 := by
  intro hnu
  obtain ⟨node,hn,_⟩ := h.lookup_tip hne
  rw [hnu,disk.noNull] at hn
  cases hn

theorem Holds.chain_eq {b b' : ConnectedBlock} {below' : List ConnectedBlock} (h : disk.Holds (b::below))
    (h' : disk.Holds (b'::below')) (hh : b.entry.phashBlock = b'.entry.phashBlock) : b::below = b'::below' := by
  obtain ⟨node,hno,hch⟩ := h.1.1
  obtain ⟨node',hn,hc⟩ := h'.1.1
  rw [hh,hn] at hno
  cases hno
  exact h.ext h' (hch.symm.trans hc)

theorem Holds.nonGenesis {env : ValidationEnv} (h : disk.Holds (above++below)) (hl : Linked env (above++below))
    (hbel : below ≠ []) : ∀ b ∈ above, b.entry.phashBlock ≠ env.params.hashGenesisBlock := by
  intro b hb hgen
  obtain ⟨first,rest,rfl⟩ := append_of_mem hb
  obtain ⟨root,init,hro⟩ : ∃ root init, below = init++[root] := ⟨_,_,(dropLast_append_getLast hbel).symm⟩
  rw [append_assoc,cons_append] at h
  have hb := h.right
  have hbl : first++b::rest++below = (first++b::rest++init)++[root] := by
    rw [hro,append_assoc,append_assoc,append_assoc]
  rw [hbl] at hl
  have hr := hl.right.1.root rfl
  have hh : disk.Holds [root] := by
    rw [hro,← append_assoc,← cons_append] at hb
    exact hb.right
  have heq := hb.chain_eq hh (hgen.trans hr.symm)
  have hlen := congrArg length heq
  rw [hro] at hlen
  simp only [length_cons,length_append] at hlen
  omega
end BlockStorage

/-! ## Rolling back and forward -/

variable {rest : IndexChain}
section Rolling
variable {env : ValidationEnv}
theorem rollback_ok (hh : disk.Holds (above++below)) (hl : Linked env (above++below))
    (hbel : below ≠ []) (start : UtxoView) :
    ∃ view', (rollback env disk (below.map entry)
        ((above++below).map entry)).run cached start = .ok (true, view') ∧
      view'.coins = replay start.coins (above.flatMap (backWrites env)) := by
  have hnon := hh.nonGenesis hl hbel
  induction above generalizing start with
  | nil =>
    obtain ⟨b,rest,rfl⟩ := exists_cons_of_ne_nil hbel
    simp [rollback]
  | cons b rest ih =>
    rw [forall_mem_cons] at hnon
    rw [cons_append] at hh hl
    obtain ⟨undo,view,view',hu,hco,_,hc⟩ := hl.1.connected hnon.1
    obtain ⟨res,mid,htxs,hmid,hres,_⟩ := hco.disconnectTxs_ok hc start
    -- the block below has an index entry, so its hash is not null
    have hpar : prevHash ((rest++below).map entry) ≠ 0#256 := by exact hh.2.tip_ne_zero (by simp [hbel])
    have hd : (disconnectBlock env (some undo) b.block b.entry
        ((rest++below).map entry)).run cached start = _ :=
      disconnectBlock_run hco.zip_undo.1 htxs hres (run_setBestBlock_cached mid hpar)
    obtain ⟨last,hrun,hla⟩ := ih hh.2 hl.2
      { mid with bestBlock := prevHash ((rest++below).map entry) } hnon.2
    refine ⟨last,?_,?_⟩
    · have hne : b.entry::(rest++below).map entry ≠ below.map entry := by
        intro heq
        have hlen := congrArg length heq
        simp only [length_cons,length_map,length_append] at hlen
        omega
      have hht : b.entry.nHeight > 0 := by
        rw [hl.1.height,length_append]
        have := length_pos_iff.mpr hbel
        omega
      rw [cons_append,map_cons,rollback,if_neg hne,if_pos hht,hh.1.2.1]
      simp only [hh.1.2.2,hu]
      rw [run_bind_of_ok hd,if_neg hres]
      exact hrun
    · rw [hla,flatMap_cons,replay_append,backWrites,hu]
      exact congrArg (replay · _) hmid.coins

private theorem rollforwardBlock_ok {b : ConnectedBlock} (hh : disk.Holds (b::below))
    (hl : Linked env (b::below)) (hnon : b.entry.phashBlock ≠ env.params.hashGenesisBlock) (start : UtxoView) :
    ∃ view', (rollforwardBlock env disk b.entry).run cached start = .ok (true, view') ∧
      start.Applied (blockWrites env b.entry.nHeight b.block.vtx) view' := by
  obtain ⟨undo,view,view',_,hc,_⟩ := hl.1.connected hnon
  obtain ⟨coinbase,rest,hb⟩ := hc.wellFormed
  obtain ⟨last,hrun,happ⟩ := rollforwardTxs_ok start env b.entry.nHeight
    fun tx htx => (hb.wellFormed tx htx).nonneg
  refine ⟨last,?_,happ⟩
  rw [rollforwardBlock,hh.1.2.1]
  exact run_bind_of_ok hrun

theorem getAncestor_append (top : IndexChain) (hr : rest ≠ [])
    (hht : ∀ tip ∈ (top++rest).head?, tip.nHeight + 1 = (top++rest).length) :
    getAncestor (top++rest) (rest.length-1) = rest := by
  obtain ⟨tip,others,hc⟩ : ∃ tip others, top++rest = tip::others := exists_cons_of_ne_nil (by simp [hr])
  have hpos := length_pos_iff.mpr hr
  rw [hc] at hht
  have htip := hht tip rfl
  rw [← hc,length_append] at htip
  rw [hc,getAncestor,if_neg (by omega),← hc]
  have hd : tip.nHeight - (rest.length-1) = top.length := by omega
  rw [hd,drop_left]

theorem rollforward_ok (hh : disk.Holds (above++below)) (hl : Linked env (above++below))
    (hbel : below ≠ []) (start : UtxoView) :
    ∃ view', (rollforward env disk ((above++below).map entry)
        (range' below.length above.length)).run cached start = .ok (true, view') ∧
      start.Applied (forwardWrites env above) view' := by
  have hnon := hh.nonGenesis hl hbel
  -- the lowest block comes first, so the branch is taken apart from its end
  induction above using reverseRecOn generalizing below start with
  | nil => exact ⟨start,rfl,.nil start⟩
  | append_singleton rest b ih =>
    have hbl : rest++[b]++below = rest++(b::below) := by simp
    rw [hbl] at hh hl ⊢
    obtain ⟨mid,hb,hmid⟩ := rollforwardBlock_ok hh.right hl.right (hnon b (by simp)) start
    obtain ⟨view',hrun,happ⟩ := ih hh hl (by simp) mid fun c hc => hnon c (mem_append_left _ hc)
    refine ⟨view',?_,?_⟩
    · have hanc : getAncestor ((rest++b::below).map entry)
          below.length = b.entry::below.map entry := by
        have hht := hl.tip_height
        rw [map_append] at hht
        have hget := getAncestor_append (rest.map entry) (by simp) hht
        simpa using hget
      rw [length_append,length_singleton,range'_succ,rollforward,hanc]
      rw [run_bind_of_ok hb]
      exact hrun
    · have hw : forwardWrites env (rest++[b]) =
          blockWrites env b.entry.nHeight b.block.vtx++forwardWrites env rest := by
        simp [forwardWrites]
      rw [hw]
      exact hmid.append happ
end Rolling

/-! ## The last common ancestor -/

theorem suffix_drop_iff {d c : IndexChain} {n : Nat} : d <:+ c.drop n ↔ d <:+ c ∧ d.length ≤ c.length - n := by
  have hc := drop_suffix n c
  rw [← length_drop]
  exact ⟨fun h => ⟨h.trans hc,h.length_le⟩,fun h => suffix_of_suffix_length_le h.1 hc h.2⟩

theorem suffix_cons_and {e : CBlockIndex} {c q d : IndexChain} (h : ¬ e::c <:+ q) :
    d <:+ e::c ∧ d <:+ q ↔ d <:+ c ∧ d <:+ q := by
  rw [suffix_cons_iff]
  refine ⟨?_,fun hd => ⟨.inr hd.1,hd.2⟩⟩
  rintro ⟨rfl | hd,hq⟩
  · exact absurd hq h
  · exact ⟨hd,hq⟩

/-- The ancestors of `fork` are the common ancestors of two blocks. -/
def DeepestCommon (pa pb fork : IndexChain) : Prop := ∀ d, d <:+ pa ∧ d <:+ pb ↔ d <:+ fork

theorem commonAncestor_deepest {pa pb : IndexChain} (hlen : pa.length = pb.length) :
    ∃ fork, commonAncestor pa pb = some fork ∧ DeepestCommon pa pb fork := by
  induction pa generalizing pb with
  | nil =>
    obtain rfl := eq_nil_of_length_eq_zero hlen.symm
    exact ⟨[],rfl,fun _ => and_self_iff⟩
  | cons a pa ih =>
    obtain ⟨b,pb,rfl⟩ := exists_cons_of_length_eq_add_one hlen.symm
    have hl := Nat.succ.inj hlen
    by_cases heq : a::pa = b::pb
    · exact ⟨a::pa,if_pos heq,fun _ => by rw [← heq,and_self_iff]⟩
    · obtain ⟨fork,hf,hd⟩ := ih hl
      refine ⟨fork,(if_neg heq).trans hf,fun d => ?_⟩
      have hb : ¬ b::pb <:+ pa := fun h => by
        have := h.length_le
        rw [hl,length_cons] at this
        omega
      rw [suffix_cons_and fun h => heq (h.eq_of_length hlen),and_comm,suffix_cons_and hb,and_comm]
      exact hd d

theorem lastCommonAncestor_deepest {a b : CBlockIndex} {pa pb : IndexChain} (ha : a.nHeight = pa.length)
    (hb : b.nHeight = pb.length) :
    ∃ fork, lastCommonAncestor (a::pa) (b::pb) = some fork ∧ DeepestCommon (a::pa) (b::pb) fork := by
  -- the walk starts at the lower of the two heights
  have hl : ((a::pa).drop (a.nHeight-b.nHeight)).length = ((b::pb).drop (b.nHeight-a.nHeight)).length := by
    simp only [length_drop,length_cons]
    omega
  obtain ⟨fork,hf,hd⟩ := commonAncestor_deepest hl
  refine ⟨fork,?_,fun d => ?_⟩
  · rw [← hf]
    obtain h | h | h := lt_trichotomy a.nHeight b.nHeight
    all_goals simp [lastCommonAncestor,getAncestor,h,h.le,h.not_gt,Nat.sub_eq_zero_of_le]
  rw [← hd,suffix_drop_iff,suffix_drop_iff]
  refine ⟨fun h => ⟨⟨h.1,?_⟩,h.2,?_⟩,fun h => ⟨h.1.1,h.2.1⟩⟩
  all_goals
    have ha := h.1.length_le
    have hb := h.2.length_le
    simp only [length_cons] at *
    omega
section Fork
variable {env : ValidationEnv} {blocksO blocksN : List ConnectedBlock}
section Fork
variable (hheldO : disk.Holds blocksO) (hlinkedO : Linked env blocksO) (hheldN : disk.Holds blocksN)
  (hlinkedN : Linked env blocksN) (hO : blocksO ≠ []) (hN : blocksN ≠ [])
include hheldO hlinkedO hheldN hlinkedN hO hN

theorem BlockStorage.Holds.root_shared : ∃ root, [root] <:+ blocksO ∧ [root] <:+ blocksN := by
  obtain ⟨restO,rootO,rfl⟩ := (eq_nil_or_concat' blocksO).resolve_left hO
  obtain ⟨restN,rootN,rfl⟩ := (eq_nil_or_concat' blocksN).resolve_left hN
  have heq := hheldO.right.chain_eq hheldN.right
    ((hlinkedO.right.1.root rfl).trans (hlinkedN.right.1.root rfl).symm)
  exact ⟨rootO,suffix_append _ _,(cons.inj heq).1 ▸ suffix_append _ _⟩

theorem fork_ok :
    ∃ aboveO aboveN below, below ≠ [] ∧ blocksO = aboveO++below ∧ blocksN = aboveN++below ∧
      lastCommonAncestor (blocksO.map entry) (blocksN.map entry) = some (below.map entry) := by
  obtain ⟨root,hrO,hrN⟩ := hheldO.root_shared hlinkedO hheldN hlinkedN hO hN
  obtain ⟨tipO,restO,rfl⟩ := exists_cons_of_ne_nil hO
  obtain ⟨tipN,restN,rfl⟩ := exists_cons_of_ne_nil hN
  obtain ⟨fork,hf,hd⟩ := lastCommonAncestor_deepest (hlinkedO.1.height.trans (length_map _).symm)
    (hlinkedN.1.height.trans (length_map _).symm)
  have hne : fork ≠ [] := by
    rintro rfl
    simpa using (hd [root.entry]).mp ⟨hrO.map entry,hrN.map entry⟩
  obtain ⟨⟨topO,ht⟩,topN,hto⟩ := (hd fork).mpr suffix_rfl
  rw [← map_cons] at ht hto
  obtain ⟨aboveO,belowO,hb,rfl,rfl⟩ := map_eq_append_iff.mp ht.symm
  obtain ⟨aboveN,belowN,hbl,rfl,hbel⟩ := map_eq_append_iff.mp hto.symm
  rw [hb] at hheldO
  rw [hbl] at hheldN
  obtain rfl := hheldN.right.ext hheldO.right hbel
  exact ⟨aboveO,aboveN,belowN,by simpa using hne,hb,hbl,hf⟩
end Fork

theorem rollforwardTo_ok {node : BlockNode} {hashNew : Uint256} {nForkHeight : Nat}
    (hh : disk.Holds (above++below)) (hl : Linked env (above++below))
    (hc : node.chain = (above++below).map entry) (hn : hashNew ≠ 0#256)
    (hbel : below.length = nForkHeight + 1) (start : UtxoView) :
    ∃ view', (rollforwardTo env disk hashNew node nForkHeight).run cached start = .ok (true, view') ∧
      view'.coins = replay start.coins (forwardWrites env above) ∧ view'.bestBlock = hashNew := by
  obtain ⟨mid,hrun,happ⟩ := rollforward_ok hh hl (ne_nil_of_length_eq_add_one hbel) start
  refine ⟨{ mid with bestBlock := hashNew },?_,happ.coins,rfl⟩
  have htip := hl.tip_height
  rw [← hc] at htip
  have hht := htip node.index rfl
  rw [hc,length_map,length_append] at hht
  have hr : range' (nForkHeight+1) (node.index.nHeight-nForkHeight) = range' below.length above.length := by
    congr 1 <;> omega
  rw [rollforwardTo,hr,hc,run_bind_of_ok hrun,if_pos rfl,run_bind_of_ok (run_setBestBlock_cached mid hn)]
  rfl

theorem replayHeads_ok (hheldO : disk.Holds blocksO) (hlinkedO : Linked env blocksO)
    (hf : FreshChain env blocksO) (hheldN : disk.Holds blocksN)
    (hlinkedN : Linked env blocksN) (hN : blocksN ≠ []) (start : UtxoView)
    (hm : ∀ o, start.coins.lookup o = (chainCoins env blocksO).lookup o ∨
      start.coins.lookup o = (chainCoins env blocksN).lookup o) :
    ∃ view', (replayHeads env disk (prevHash (blocksN.map entry))
        (prevHash (blocksO.map entry))).run cached start =
        .ok (true, view') ∧
      view'.coins = chainCoins env blocksN ∧ view'.bestBlock = prevHash (blocksN.map entry) := by
  obtain ⟨nodeN,hl,hc⟩ := hheldN.lookup_tip hN
  have hn := hheldN.tip_ne_zero hN
  rw [replayHeads]
  simp only [hl]
  by_cases hO : blocksO = []
  · -- nothing to roll back: the new branch starts above its root
    obtain ⟨above,root,rfl⟩ := (eq_nil_or_concat' blocksN).resolve_left hN
    obtain ⟨view',hrun,hco,hb⟩ := rollforwardTo_ok hheldN hlinkedN hc hn rfl start
    refine ⟨view',?_,?_,hb⟩
    · have hnu : prevHash (blocksO.map entry) = 0#256 := by
        rw [hO]
        rfl
      rw [if_pos hnu]
      exact hrun
    · have hr : chainCoins env [root] = chainCoins env blocksO := by
        rw [hO]
        exact if_pos (hlinkedN.right.1.root rfl)
      have hall : chainCoins env (above++[root]) = replay (chainCoins env [root]) (forwardWrites env above) :=
        chainCoins_append (hheldN.nonGenesis hlinkedN (cons_ne_nil root []))
      rw [hr] at hall
      rw [hall] at hm ⊢
      rw [hco]
      exact replay_mixture hm
  · obtain ⟨nodeO,hlo,hch⟩ := hheldO.lookup_tip hO
    obtain ⟨aboveO,aboveN,below,hbel,rfl,rfl,hfo⟩ := fork_ok hheldO hlinkedO hheldN hlinkedN hO hN
    obtain ⟨fork,rest,rfl⟩ := exists_cons_of_ne_nil hbel
    obtain ⟨mid,hba,hmid⟩ := rollback_ok hheldO hlinkedO hbel start
    obtain ⟨view',hrun,hco,hb⟩ := rollforwardTo_ok hheldN hlinkedN hc hn
      (congrArg (· + 1) hlinkedO.right.1.height.symm) mid
    refine ⟨view',?_,?_,hb⟩
    · rw [if_neg (hheldO.tip_ne_zero hO)]
      rw [map_cons] at hba hfo
      simp only [hlo,hch,hc,hfo]
      rw [run_bind_of_ok hba]
      exact hrun
    · have hlog : replay (chainCoins env (aboveO++fork::rest))
          (aboveO.flatMap (backWrites env)++forwardWrites env aboveN) =
          chainCoins env (aboveN++fork::rest) := by
        rw [replay_append,replay_backWrites hlinkedO hf (hheldO.nonGenesis hlinkedO hbel),
          chainCoins_append (hheldN.nonGenesis hlinkedN hbel)]
      rw [← hlog] at hm ⊢
      rw [hco,hmid,← replay_append]
      exact replay_mixture hm
end Fork

/-! ## Chains that were connected -/

structure Chainstate.Recorded (env : ValidationEnv) (st : Chainstate) : Prop where
  coins : st.view.coins = chainCoins env st.blocks
  best : st.view.bestBlock = prevHash st.chain
  linked : Linked env st.blocks
  restorable : st.view.Restorable

def Chainstate.FreshTip (st : Chainstate) (input : TipInput) : Prop :=
  (st.nextEntry env input.block).phashBlock ≠ env.params.hashGenesisBlock →
    OutputsFresh env (st.nextEntry env input.block).nHeight input.block.vtx st.view.coins

instance (env : ValidationEnv) (st : Chainstate) (input : TipInput) :
    Decidable (st.FreshTip env input) := inferInstanceAs (Decidable (_ → _))

section Connected
variable {env : ValidationEnv} {st st' : Chainstate} {input : TipInput}
theorem Chainstate.empty_recorded (env : ValidationEnv) : empty.Recorded env where
  coins := rfl
  best := rfl
  linked := trivial
  restorable := by
    intro outpoint coin h
    simp [empty,UtxoView.empty] at h

theorem Chainstate.Recorded.nextEntry_height (h : st.Recorded env) (block : CBlock) :
    (st.nextEntry env block).nHeight = st.blocks.length := by
  refine nextEntry_nHeight ?_ block
  have htip := h.linked.tip_height
  unfold Chainstate.Numbered chain
  cases hb : st.blocks with
  | nil => trivial
  | cons tip rest =>
    rw [hb] at htip
    simpa using htip tip.entry rfl

theorem connectTip_recorded (h : st.Recorded env)
    (hst : st.connectTip env handle input = some st') : st'.Recorded env := by
  obtain ⟨_,undo,hrun,hbl⟩ := connectTip_eq_some.mp hst
  have hht := h.nextEntry_height input.block
  rcases connectBlock_ok hrun with ⟨hgen,_,hv⟩ | ⟨vtxundo,hu,hc⟩
  · refine ⟨?_,?_,?_,?_⟩
    · rw [hbl,chainCoins,if_pos hgen,hv]
      exact h.coins
    · rw [hv,chain,hbl]
      rfl
    · rw [hbl]
      exact ⟨⟨hht,fun _ => hgen,fun hnon => absurd hgen hnon⟩,h.linked⟩
    · rw [hv]
      exact h.restorable
  · obtain ⟨mid,htxs,hv⟩ := hc.txs
    obtain ⟨coinbase,rest,hb⟩ := hc.wellFormed
    have hpos : 0 < (st.nextEntry env input.block).nHeight := by
      rw [hht,length_pos_iff]
      exact fun hnil => hc.parent (by rw [chain,hnil]; rfl)
    obtain ⟨hmid,hs⟩ := htxs.restorable h.restorable hpos fun tx htx =>
      (hb.wellFormed tx htx).nonneg
    refine ⟨?_,?_,?_,?_⟩
    · rw [hbl,chainCoins,if_neg hc.nonGenesis,hv,← h.coins]
      exact htxs.coins
    · rw [hv,chain,hbl]
      rfl
    · rw [hbl]
      refine ⟨⟨hht,fun hnil => ?_,fun _ => ?_⟩,h.linked⟩
      · exact absurd (by rw [chain,hnil]; rfl) hc.parent
      · refine ⟨vtxundo.tail,st.view,st'.view,hu,?_,h.coins,fun txundo htail =>
          hs txundo (mem_of_mem_tail htail)⟩
        rw [hc.cons_tail]
        exact hc
    · rw [hv]
      exact hmid

theorem connectTip_freshChain (h : st.Recorded env) (hf : FreshChain env st.blocks)
    (htip : st.FreshTip env input)
    (hs : st.connectTip env handle input = some st') : FreshChain env st'.blocks := by
  obtain ⟨_,undo,_,hb⟩ := connectTip_eq_some.mp hs
  rw [hb]
  unfold FreshTip at htip
  rw [h.coins] at htip
  exact ⟨htip,hf⟩

variable {inputs : List TipInput}
theorem run_recorded (hrun : Run.run (connectTip env handle) empty inputs = some st) : st.Recorded env :=
  Run.run_invariant (fun _ _ _ h hstep => connectTip_recorded h hstep) inputs _ st (empty_recorded env) hrun

theorem run_freshChain (hf : Run.EveryStep (connectTip env handle) (Chainstate.FreshTip env) empty inputs)
    (hrun : Run.run (connectTip env handle) empty inputs = some st) : FreshChain env st.blocks := by
  have hs : ∀ (s : Chainstate) i t, s.Recorded env ∧ FreshChain env s.blocks →
      s.FreshTip env i → s.connectTip env handle i = some t →
      t.Recorded env ∧ FreshChain env t.blocks :=
    fun s i t h htip hs => ⟨connectTip_recorded h.1 hs,connectTip_freshChain h.1 h.2 htip hs⟩
  exact (Run.run_invariant_of_everyStep hs inputs _ st ⟨empty_recorded env,trivial⟩ hf hrun).2
end Connected

/-! ## Recovery -/
section Recovery
variable {env : ValidationEnv} {policy : BatchPolicy} {order : CCoinsViewCache → List COutPoint}
    {stO stN : Chainstate}

theorem replayBlocks_mixed (ho : ∀ cache, CCoinsViewCache.Enumerates (order cache) cache)
    (hO : stO.Recorded env) (hf : FreshChain env stO.blocks) (hN : stN.Recorded env)
    (hheldO : disk.Holds stO.blocks) (hheldN : disk.Holds stN.blocks) (hne : stN.blocks ≠ [])
    {db : CCoinsViewDB} (hb : db.bestBlock = 0#256)
    (hh : db.headBlocks = [stN.view.bestBlock, stO.view.bestBlock])
    (hm : ∀ o, db.coins.lookup o = stO.view.coins.lookup o ∨ db.coins.lookup o = stN.view.coins.lookup o) :
    replayBlocks env disk policy order db = .ok (true, ⟨stN.view, []⟩) := by
  rw [hO.coins,hN.coins] at hm
  obtain ⟨view',hrun,hc,hvi⟩ := replayHeads_ok hheldO hO.linked hf hheldN hN.linked hne db.toUtxoView hm
  have hst : CoinsStack.Implements ⟨[CCoinsViewCache.empty],db.toUtxoView⟩ db.toUtxoView :=
    ⟨⟨_,[],rfl⟩,fresh_shows 1 db.toUtxoView,rfl⟩
  obtain ⟨cache,hs,himp⟩ := run_simulates hst hrun
  have hn : stN.view.bestBlock ≠ 0#256 := by
    rw [hN.best]
    exact hheldN.tip_ne_zero hne
  have hv : view' = stN.view := UtxoView.ext (hc.trans hN.coins.symm) (hvi.trans hN.best.symm)
  have hha : cache.hashBlock = stN.view.bestBlock := by
    have hi := himp.best
    rw [hv] at hi
    simp only [viewBestBlock,hb] at hi
    split at hi
    · exact absurd hi.symm hn
    · exact hi
  have hold : db.oldTip cache.hashBlock = .ok stO.view.bestBlock := by
    rw [oldTip,if_neg (by simpa using hb),hh,hha]
    exact if_pos rfl
  have hd : batchWrite db.toUtxoView cache.hashBlock (cache.entriesIn (order cache)) = stN.view := by
    rw [hv] at himp
    exact merged_all himp (ho cache) hha
  have hsa : { db.toUtxoView with bestBlock := 0#256 } = db.toUtxoView := by rw [← hb]
  have hw := batchWrite_eq policy (cache.entriesIn (order cache)) (hha ▸ hn) hold
  rw [hsa,hd] at hw
  rw [← chain,← chain,← hN.best,← hO.best] at hs
  simp only [replayBlocks,hh]
  rw [fresh,replicate_one,hs]
  simp only [hw]
  rfl

/-- However many batches a flush has written, `ReplayBlocks` leaves the database at the new tip; if not even
the first was written, it stays at the old one. -/
theorem replayBlocks_recovers (env : ValidationEnv) (disk : BlockStorage)
    (policy : BatchPolicy) (order : CCoinsViewCache → List COutPoint)
    (horder : ∀ cache, CCoinsViewCache.Enumerates (order cache) cache)
    (inputsO inputsN : List TipInput) (stO stN : Chainstate)
    (hO : Run.run (connectTip env handle) empty inputsO = some stO)
    (hN : Run.run (connectTip env handle) empty inputsN = some stN)
    (hfresh : Run.EveryStep (connectTip env handle) (FreshTip env) empty inputsO)
    (hheldO : disk.Holds stO.blocks) (hheldN : disk.Holds stN.blocks)
    (cache : CCoinsViewCache) (himp : CoinsStack.Implements ⟨[cache], stO.view⟩ stN.view)
    (flushOrder : List COutPoint) (henum : CCoinsViewCache.Enumerates flushOrder cache)
    (batches : List (List DbWrite))
    (hbatches : CCoinsViewDB.batches ⟨stO.view, []⟩ policy cache.hashBlock
      (cache.entriesIn flushOrder) = .ok batches) (k : Nat) :
    replayBlocks env disk policy order ((batches.take k).foldl writeBatch ⟨stO.view, []⟩) =
      .ok (true, ⟨if k = 0 then stO.view else stN.view, []⟩) := by
  have hrecordedO := run_recorded hO
  have hrecordedN := run_recorded hN
  obtain ⟨hnull,_⟩ := batches_eq_ok hbatches
  have hbest : cache.hashBlock = stN.view.bestBlock := by
    have himpBest := himp.best
    rwa [viewBestBlock,if_neg hnull] at himpBest
  -- the first batch clears the best block of the store
  have hclr : CoinsStack.Implements ⟨[cache],{ stO.view with bestBlock := 0#256 }⟩ stN.view := by
    refine ⟨himp.layered,⟨himp.shows.layersOk,himp.shows.view⟩,?_⟩
    rw [viewBestBlock,if_neg hnull]
    exact hbest
  have hold : oldTip ⟨stO.view,[]⟩ cache.hashBlock = .ok stO.view.bestBlock := oldTip_of_headBlocks_nil rfl
  rcases Nat.eq_zero_or_pos k with rfl | hpos
  · rfl
  rw [if_neg hpos.ne']
  rcases Nat.lt_or_ge k batches.length with hlt | hge
  · obtain ⟨written,rest,old,hsplit,hold',hdb⟩ := batches_interrupted hbatches hpos hlt
    cases hold.symm.trans hold'
    have hne : stN.blocks ≠ [] := by
      intro hnil
      rw [hbest,hrecordedN.best,chain,hnil] at hnull
      exact hnull rfl
    rw [hdb]
    refine replayBlocks_mixed horder hrecordedO (run_freshChain hfresh hO) hrecordedN hheldO hheldN
      hne ?_ ?_ ?_
    · exact merged_bestBlock _ written
    · rw [hbest]
    · intro o
      rw [← hclr.shows.view o]
      exact merged_mixture hclr.shows.layersOk henum hsplit o
  · -- the flush went through, and there is nothing to replay
    have hdone := batchWrite_eq policy (cache.entriesIn flushOrder) hnull hold
    rw [CCoinsViewDB.batchWrite,hbatches] at hdone
    rw [merged_all hclr henum hbest] at hdone
    rw [take_of_length_le hge,Except.ok.inj hdone]
    rfl
end Recovery

/-! ## Flushes between short chains -/

def otherBranch : List TipInput :=
  [⟨sampleBlock 0#32 [sampleCoinbase 1 [0, 0] 0], true⟩,
    ⟨sampleBlock 3#32 [sampleCoinbase 4 [0x51, 0] (1000000*coin)], true⟩]


def repeatedCoinbase (nonces : List (BitVec 32)) : List TipInput :=
  ⟨sampleBlock 0#32 [sampleCoinbase 1 [0, 0] 0], true⟩::
    nonces.map fun nNonce => ⟨sampleBlock nNonce [sampleCoinbase 2 [0x51, 0] (50*coin)], true⟩

def overwritingChain : List TipInput := repeatedCoinbase [1#32, 2#32]

def sampleTip (inputs : List TipInput) : Chainstate :=
  (Run.run (connectTip sampleEnv handle) empty inputs).getD empty
private theorem sampleTip_run {inputs : List TipInput}
    (h : (Run.run (connectTip sampleEnv handle) empty inputs).isSome = true) :
    Run.run (connectTip sampleEnv handle) empty inputs = some (sampleTip inputs) := by
  obtain ⟨st,hst⟩ := Option.isSome_iff_exists.mp h
  rw [sampleTip,hst]
  rfl

def sampleNodes : List ConnectedBlock → List (Write Uint256 BlockNode)
  | [] => []
  | b::below =>
    (b.entry.phashBlock, some ⟨b.entry, below.map entry, 0#32⟩)::sampleNodes below

variable (first second : List TipInput)
def sampleIndex : BlockMap :=
  replay ∅ (sampleNodes (sampleTip first).blocks++sampleNodes (sampleTip second).blocks)
def sampleStored (entry : CBlockIndex) : Option ConnectedBlock :=
  ((sampleTip first).blocks++(sampleTip second).blocks).find? fun b => b.entry = entry
def sampleDisk (h : (sampleIndex first second).lookup 0#256 = none) : BlockStorage where
  blockIndex := sampleIndex first second
  readBlockFromDisk entry := (sampleStored first second entry).map block
  undoReadFromDisk entry := (sampleStored first second entry).bind undo
  noNull := h

def cacheAfter (p : CoinsProgram Unit) (store : UtxoView) : CCoinsViewCache :=
  match p.run CoinsStack.handle (fresh 1 store) with
  | .ok (_, ⟨[cache], _⟩) => cache
  | _ => CCoinsViewCache.empty

private theorem cacheAfter_implements {p : CoinsProgram Unit} {store view last : UtxoView}
    (h : p.run cached store = .ok ((), view)) (hc : view.coins = last.coins)
    (hb : view.bestBlock = last.bestBlock) : CoinsStack.Implements ⟨[cacheAfter p store], store⟩ last := by
  obtain rfl := UtxoView.ext hc hb
  have hs : CoinsStack.Implements ⟨[CCoinsViewCache.empty],store⟩ store := ⟨⟨_,[],rfl⟩,fresh_shows 1 store,rfl⟩
  obtain ⟨cache,hrun,himp⟩ := run_simulates hs h
  have hca : cacheAfter p store = cache := by rw [cacheAfter,fresh,replicate_one,hrun]
  rw [hca]
  exact himp

def oneEntryBatches : BatchPolicy := ⟨List.length, 0⟩
def sampleBatches (store : UtxoView) (cache : CCoinsViewCache) (order : List COutPoint) : List (List DbWrite) :=
  match batches ⟨store, []⟩ oneEntryBatches cache.hashBlock (cache.entriesIn order) with
  | .ok batches => batches
  | .error _ => []

private theorem sampleBatches_ok {store : UtxoView} {cache : CCoinsViewCache}
    {order : List COutPoint} (h : sampleBatches store cache order ≠ []) :
    batches ⟨store, []⟩ oneEntryBatches cache.hashBlock (cache.entriesIn order) =
      .ok (sampleBatches store cache order) := by
  unfold sampleBatches at h ⊢
  split
  · rename_i heq
    exact heq
  · rename_i heq
    simp [heq] at h

def switchBranch : CoinsProgram Unit := do
  let _ ← spendCoin ⟨2#256, 0⟩
  addCoin ⟨4#256, 0⟩ ⟨⟨1000000*coin, [0x51]⟩, true, 1⟩ false
  setBestBlock 3#256

def switchedCache : CCoinsViewCache := cacheAfter switchBranch (sampleTip twoBlocks).view
def switchedOrder : List COutPoint := [⟨4#256, 0⟩, ⟨2#256, 0⟩]
def switchedBatches : List (List DbWrite) :=
  sampleBatches (sampleTip twoBlocks).view switchedCache switchedOrder
def switchDisk : BlockStorage := sampleDisk twoBlocks otherBranch (by decide +kernel)
private theorem switchedCache_implements :
    CoinsStack.Implements ⟨[switchedCache], (sampleTip twoBlocks).view⟩
      (sampleTip otherBranch).view :=
  cacheAfter_implements rfl (by decide +kernel) (by decide +kernel)

/-- A flush from one branch to the other, stopped after the first of its two partial batches. -/
theorem switchBranch_recovers :
    switchedBatches.length = 3 ∧
      replayBlocks sampleEnv switchDisk oneEntryBatches (fun cache => cache.cacheCoins.keys.toList)
          ((switchedBatches.take 1).foldl writeBatch ⟨(sampleTip twoBlocks).view, []⟩) =
        .ok (true, ⟨(sampleTip otherBranch).view, []⟩) := by
  have hlen : switchedBatches.length = 3 := by decide +kernel
  refine ⟨hlen,?_⟩
  exact replayBlocks_recovers sampleEnv switchDisk oneEntryBatches
    (fun cache => cache.cacheCoins.keys.toList)
    (fun cache => ⟨Finset.nodup_toList _,Finset.toList_toFinset _⟩) twoBlocks otherBranch
    (sampleTip twoBlocks) (sampleTip otherBranch) (sampleTip_run (by decide +kernel))
    (sampleTip_run (by decide +kernel)) (by decide +kernel) (by decide +kernel) (by decide +kernel)
    switchedCache switchedCache_implements switchedOrder (by decide +kernel) switchedBatches
    (sampleBatches_ok (ne_nil_of_length_eq_add_one hlen)) 1

def restoreCoin : CoinsProgram Unit := do
  addCoin ⟨2#256, 0⟩ ⟨⟨50*coin, [0x51]⟩, true, 1⟩ true
  setBestBlock 1#256

def restoredCache : CCoinsViewCache := cacheAfter restoreCoin (sampleTip overwritingChain).view
def restoredBatches : List (List DbWrite) :=
  sampleBatches (sampleTip overwritingChain).view restoredCache [⟨2#256, 0⟩]
def restoreDisk : BlockStorage := sampleDisk overwritingChain (repeatedCoinbase [1#32]) (by decide +kernel)

/-- One flush has not written its first batch, so that the database keeps the old tip; the other leaves a
block whose coinbase overwrote the same one below it, and rolling it back loses the coin. -/
theorem unrecovered_flushes :
    (CoinsStack.Implements ⟨[switchedCache], (sampleTip twoBlocks).view⟩ (sampleTip otherBranch).view ∧
        switchedBatches.length = 3 ∧
        replayBlocks sampleEnv switchDisk oneEntryBatches (fun cache => cache.cacheCoins.keys.toList)
            ((switchedBatches.take 0).foldl writeBatch
              ⟨(sampleTip twoBlocks).view, []⟩) = .ok (true, ⟨(sampleTip twoBlocks).view, []⟩) ∧
        (sampleTip twoBlocks).view.bestBlock ≠ (sampleTip otherBranch).view.bestBlock) ∧
      CoinsStack.Implements ⟨[restoredCache], (sampleTip overwritingChain).view⟩
          (sampleTip (repeatedCoinbase [1#32])).view ∧
        restoredBatches.length = 2 ∧
        (replayBlocks sampleEnv restoreDisk oneEntryBatches (fun _ => [⟨2#256, 0⟩])
            ((restoredBatches.take 1).foldl writeBatch
              ⟨(sampleTip overwritingChain).view, []⟩)).toOption.any (fun out =>
          out.1 && out.2.coins.lookup ⟨2#256, 0⟩ = none &&
            out.2.bestBlock = (sampleTip (repeatedCoinbase [1#32])).view.bestBlock) = true ∧
        (sampleTip (repeatedCoinbase [1#32])).view.coins.lookup ⟨2#256, 0⟩ ≠ none := by
  refine ⟨⟨switchedCache_implements,by decide +kernel,rfl,by decide +kernel⟩,
    cacheAfter_implements rfl (by decide +kernel) (by decide +kernel),?_,?_,?_⟩ <;> decide +kernel
end Lcryp
