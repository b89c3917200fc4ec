import Lcryp.Validation.Chainstate
import Lcryp.Validation.Overwrites

/-!
# Unique transaction ids

On the main network `ConnectBlock` does not look for outputs that would overwrite an unspent coin until
height 1983702.
-/
namespace Lcryp
open WriteLog List CTransaction UtxoView
def ValidationEnv.CollisionFree (env : ValidationEnv) (txs : List CTransaction) : Prop :=
  ∀ tx ∈ txs, ∀ tx' ∈ txs, env.txid tx = env.txid tx' → tx.stripWitness = tx'.stripWitness
theorem ValidationEnv.CollisionFree.subset {env : ValidationEnv} {txs txs' : List CTransaction}
    (h : env.CollisionFree txs') (hsub : txs ⊆ txs') : env.CollisionFree txs :=
  fun tx htx tx' htx' => h tx (hsub htx) tx' (hsub htx')

instance (env : ValidationEnv) (txs : List CTransaction) : Decidable (env.CollisionFree txs) :=
  inferInstanceAs (Decidable (∀ tx ∈ txs, ∀ tx' ∈ txs, _))
def CTransaction.StartsWithHeight (tx : CTransaction) (nHeight : Nat) : Prop :=
  ∃ txin, tx.vin.head? = some txin ∧ pushInt64 nHeight <+: txin.scriptSig
private theorem stripWitness_startsWithHeight (tx : CTransaction) (nHeight : Nat) :
    tx.stripWitness.StartsWithHeight nHeight ↔ tx.StartsWithHeight nHeight := by
  unfold CTransaction.StartsWithHeight stripWitness
  rw [head?_map]
  cases tx.vin.head? <;> simp

/-- What the transactions connected below a height leave in the view: every unspent coin is an output
of one of them, and what they spent stays spent. -/
structure TxHistory (env : ValidationEnv) (nHeight : Nat) (done : List CTransaction)
    (view : UtxoView) : Prop where
  ids : (done.map env.txid).Nodup
  unspent : ∀ outpoint coin, view.coins.lookup outpoint = some coin → outpoint.hash ∈ done.map env.txid
  spent : ∀ tx ∈ done, ∀ prevout ∈ tx.spentPrevouts,
    prevout.hash ∈ done.map env.txid ∧ view.coins.lookup prevout = none
  coinbases : ∀ tx ∈ done, tx.isCoinBase = true → ∃ m, 0 < m ∧ m < nHeight ∧ tx.StartsWithHeight m

variable {n : Nat} {env : ValidationEnv} {done : List CTransaction} {view view' : UtxoView} {nHeight : Nat}
namespace TxHistory
variable {tx : CTransaction}
theorem empty (env : ValidationEnv) (nHeight : Nat) : TxHistory env nHeight [] empty where
  ids := nodup_nil
  unspent := by
    intro outpoint coin h
    cases h
  spent := by simp
  coinbases := by simp
variable (h : TxHistory env nHeight done view)
include h

theorem perm {done' : List CTransaction} (hp : done.Perm done') : TxHistory env nHeight done' view where
  ids := (hp.map env.txid).nodup_iff.mp h.ids
  unspent outpoint coin hcoin := (hp.map env.txid).mem_iff.mp (h.unspent outpoint coin hcoin)
  spent tx htx prevout hprev := by
    rw [← (hp.map env.txid).mem_iff]
    exact h.spent tx (hp.mem_iff.mpr htx) prevout hprev
  coinbases tx htx := h.coinbases tx (hp.mem_iff.mpr htx)

theorem succ : TxHistory env (nHeight+1) done view where
  ids := h.ids
  unspent := h.unspent
  spent := h.spent
  coinbases tx htx hcb := by
    obtain ⟨m,hpos,hlt,hm⟩ := h.coinbases tx htx hcb
    exact ⟨m,hpos,by omega,hm⟩

theorem spend_new (hfr : env.CollisionFree (tx::done)) (hcb : tx.isCoinBase = false)
    (hvin : tx.vin ≠ []) (hf : ∀ prevout ∈ tx.spentPrevouts, view.coins.lookup prevout ≠ none) :
    env.txid tx ∉ done.map env.txid := by
  intro hmem
  obtain ⟨old,hold,hid⟩ := mem_map.mp hmem
  have hs : tx.stripWitness = old.stripWitness := hfr tx (by simp) old (mem_cons_of_mem _ hold) hid.symm
  have hp : old.spentPrevouts = tx.spentPrevouts := by
    rw [spentPrevouts,spentPrevouts,← old.stripWitness_isCoinBase,
      ← old.stripWitness_prevouts,← hs,tx.stripWitness_isCoinBase,tx.stripWitness_prevouts]
  obtain ⟨txin,rest,hc⟩ := exists_cons_of_ne_nil hvin
  have hfst : txin.prevout ∈ tx.spentPrevouts := by simp [spentPrevouts,hcb,prevouts,hc]
  exact hf txin.prevout hfst (h.spent old hold txin.prevout (hp ▸ hfst)).2

theorem coinbase_new (hf : env.CollisionFree (tx::done)) (hcb : tx.isCoinBase = true) (hpos : 0 < nHeight)
    (hlt : nHeight < 2^31) (hht : tx.StartsWithHeight nHeight) : env.txid tx ∉ done.map env.txid := by
  intro hmem
  obtain ⟨old,hold,hid⟩ := mem_map.mp hmem
  have hs : tx.stripWitness = old.stripWitness := hf tx (by simp) old (mem_cons_of_mem _ hold) hid.symm
  have holdcb : old.isCoinBase = true := by
    rw [← old.stripWitness_isCoinBase,← hs,tx.stripWitness_isCoinBase,hcb]
  obtain ⟨m,hmp,hmlt,hm⟩ := h.coinbases old hold holdcb
  rw [← stripWitness_startsWithHeight,← hs,stripWitness_startsWithHeight] at hm
  obtain ⟨txin,hhe, hpre⟩ := hht
  obtain ⟨txin',hh, hp⟩ := hm
  cases hhe.symm.trans hh
  have heq := pushInt64_prefix_free m nHeight txin.scriptSig hmp hpos (by omega) hlt hp hpre
  omega

theorem outputs_fresh (hnew : env.txid tx ∉ done.map env.txid)
    {w : Write COutPoint Coin} (hw : w ∈ outputWrites env n tx) :
    (replay view.coins (spendWrites tx.spentPrevouts)).lookup w.1 = none := by
  rw [lookup_spendWrites]
  split
  · rfl
  cases hc : view.coins.lookup w.1 with
  | none => rfl
  | some coin =>
    have hid := h.unspent w.1 coin hc
    rw [outputWrites_hash hw] at hid
    exact absurd hid hnew

theorem connect {txundo : CTxUndo} (hnew : env.txid tx ∉ done.map env.txid)
    (hcb : tx.isCoinBase = true → ∃ m, 0 < m ∧ m < nHeight ∧ tx.StartsWithHeight m)
    (hco : TxConnected env n tx view txundo view') : TxHistory env nHeight (tx::done) view' := by
  have hf : ∀ prevout ∈ tx.spentPrevouts, prevout.hash ∈ done.map env.txid := by
    intro prevout hprev
    have hmem := mem_map_of_mem (f := view.coins.lookup) hprev
    rw [hco.found] at hmem
    obtain ⟨coin,_,hc⟩ := mem_map.mp hmem
    exact h.unspent prevout coin hc.symm
  -- outpoints with another id are only touched by the spends
  have hoth : ∀ outpoint, outpoint.hash ≠ env.txid tx →
      view'.coins.lookup outpoint =
        if outpoint ∈ tx.spentPrevouts then none else view.coins.lookup outpoint := by
    intro outpoint hh
    rw [hco.coins,txWrites,replay_append,lookup_replay_of_notMem,lookup_spendWrites]
    intro hmem
    obtain ⟨w,hw,rfl⟩ := mem_map.mp hmem
    exact hh (outputWrites_hash hw)
  refine ⟨?_,?_,?_,?_⟩
  · rw [map_cons,nodup_cons]
    exact ⟨hnew,h.ids⟩
  · intro outpoint coin hc
    rw [map_cons,mem_cons]
    by_cases hh : outpoint.hash = env.txid tx
    · exact .inl hh
    · rw [hoth outpoint hh] at hc
      split at hc
      · cases hc
      · exact .inr (h.unspent outpoint coin hc)
  · have hk : ∀ prevout, prevout.hash ∈ done.map env.txid →
        (prevout ∈ tx.spentPrevouts ∨ view.coins.lookup prevout = none) →
        prevout.hash ∈ (tx::done).map env.txid ∧ view'.coins.lookup prevout = none := by
      intro prevout hid hn
      refine ⟨mem_cons_of_mem _ hid,?_⟩
      rw [hoth prevout fun heq => hnew (heq ▸ hid)]
      split
      · rfl
      · exact hn.resolve_left (by assumption)
    intro old hold prevout hprev
    rcases mem_cons.mp hold with rfl | hold
    · exact hk prevout (hf prevout hprev) (.inl hprev)
    · obtain ⟨hid,hn⟩ := h.spent old hold prevout hprev
      exact hk prevout hid (.inr hn)
  · intro old hold holdcb
    rcases mem_cons.mp hold with rfl | hold
    · exact hcb holdcb
    · exact h.coinbases old hold holdcb
end TxHistory

section Blocks
theorem TxsConnected.history {vtx : List CTransaction} {undo : List CTxUndo}
    (h : TxsConnected env n vtx view undo view') (hist : TxHistory env nHeight done view)
    (hfe : env.CollisionFree (vtx++done)) (hcb : ∀ tx ∈ vtx, tx.isCoinBase = false)
    (hvin : ∀ tx ∈ vtx, tx.vin ≠ []) :
    TxHistory env nHeight (vtx.reverse++done) view' ∧ OutputsFresh env n vtx view.coins := by
  induction h generalizing done with
  | nil view => exact ⟨hist,trivial⟩
  | @cons tx rest view mid view' txundo undo first others ih =>
    rw [forall_mem_cons] at hcb hvin
    have hf : ∀ prevout ∈ tx.spentPrevouts, view.coins.lookup prevout ≠ none := by
      intro prevout hprev hn
      have hmem := mem_map_of_mem (f := view.coins.lookup) hprev
      rw [first.found,hn] at hmem
      simp at hmem
    have hnew : env.txid tx ∉ done.map env.txid := by
      refine hist.spend_new (hfe.subset ?_) hcb.1 hvin.1 hf
      exact cons_subset_cons tx (subset_append_right rest done)
    have hist' : TxHistory env nHeight (tx::done) mid :=
      hist.connect hnew (fun h => absurd h (by simp [hcb.1])) first
    obtain ⟨hl,hfr⟩ := ih hist' (hfe.subset (by
      intro t ht
      simp only [mem_cons,mem_append] at ht ⊢
      tauto)) hcb.2 hvin.2
    refine ⟨?_,fun w hw => hist.outputs_fresh hnew hw,?_⟩
    · rw [reverse_cons,append_assoc]
      exact hl
    · rw [← first.coins]
      exact hfr

theorem BlockConnected.history {block : CBlock} {entry : CBlockIndex} {pprev : IndexChain}
    {vtxundo : List CTxUndo} (h : BlockConnected env block entry pprev view vtxundo view')
    (hist : TxHistory env entry.nHeight done view) (hfr : env.CollisionFree (block.vtx++done))
    (hpos : 0 < entry.nHeight) (hlt : entry.nHeight < 2^31)
    (hht : ∃ txin, firstInput block = some txin ∧ pushInt64 entry.nHeight <+: txin.scriptSig) :
    TxHistory env (entry.nHeight+1) (block.vtx++done) view' ∧
      OutputsFresh env entry.nHeight block.vtx view.coins := by
  obtain ⟨coinbase,rest,hb⟩ := h.wellFormed
  obtain ⟨mid,htxs,rfl⟩ := h.txs
  have hwe := hb.wellFormed
  rw [hb.vtx] at htxs hfr hwe ⊢
  rw [forall_mem_cons] at hwe
  have hs : coinbase.StartsWithHeight entry.nHeight := by
    obtain ⟨txin,hfst, hpre⟩ := hht
    rw [firstInput,hb.vtx] at hfst
    exact ⟨txin,hfst, hpre⟩
  cases htxs with
  | cons first others =>
    have hnew : env.txid coinbase ∉ done.map env.txid := by
      refine hist.coinbase_new (hfr.subset ?_) hb.coinbase hpos hlt hs
      exact cons_subset_cons coinbase (subset_append_right rest done)
    have hist' := hist.succ.connect hnew (fun _ => ⟨entry.nHeight,hpos,Nat.lt_succ_self _,hs⟩) first
    obtain ⟨hl,hf⟩ := others.history hist' (hfr.subset (by
      intro t ht
      simp only [mem_cons,mem_append] at ht ⊢
      tauto)) hb.rest fun tx htx => (hwe.2 tx htx).vin
    refine ⟨?_,fun w hw => hist.outputs_fresh hnew hw,?_⟩
    · -- the history lists the block backwards, and does not read the best block
      have hp : (rest.reverse++coinbase::done).Perm (coinbase::rest++done) :=
        perm_middle.trans ((rest.reverse_perm.append_right done).cons coinbase)
      obtain ⟨hids,hu,hsp,hc⟩ := hl.perm hp
      exact ⟨hids,hu,hsp,hc⟩
    · rw [← first.coins]
      exact hf
end Blocks

namespace Chainstate
def nonGenesisTxs (params : ConsensusParams) (st : Chainstate) : List CTransaction :=
  (st.blocks.filter fun b => b.entry.phashBlock != params.hashGenesisBlock).flatMap fun b =>
    b.block.vtx

/-- The invariant of an accepted chain: it starts with the genesis block, and the view holds what the
transactions since then left. -/
structure UniqueOk (env : ValidationEnv) (st : Chainstate) : Prop where
  numbered : st.Numbered
  rooted : ∀ entry ∈ st.chain.getLast?, entry.phashBlock = env.params.hashGenesisBlock
  history : TxHistory env st.blocks.length (st.nonGenesisTxs env.params) st.view

section Step
variable {st st' : Chainstate} {input : TipInput}
private theorem rooted_cons (h : st.UniqueOk env) {entry : CBlockIndex}
    (hent : st.chain = [] → entry.phashBlock = env.params.hashGenesisBlock) :
    ∀ e ∈ (entry::st.chain).getLast?, e.phashBlock = env.params.hashGenesisBlock := by
  cases hc : st.chain with
  | nil => simpa using hent hc
  | cons tip rest =>
    have hr := h.rooted
    rw [hc] at hr
    rwa [getLast?_cons_cons]

theorem acceptTip_uniqueOk (hact : env.params.bip34Height ≤ 1) (h : st.UniqueOk env)
    (hfr : env.CollisionFree (st'.nonGenesisTxs env.params)) (hst : st.acceptTip env handle input = some st') :
    st.acceptTip env sealed input = some st' ∧ st'.UniqueOk env := by
  obtain ⟨hc,hco⟩ := acceptTip_eq_some.mp hst
  have hnu := connectTip_numbered h.numbered hco
  obtain ⟨hlt,undo,hrun,hb⟩ := connectTip_eq_some.mp hco
  have hht : (st.nextEntry env input.block).nHeight = st.blocks.length :=
    nextEntry_nHeight h.numbered input.block
  have hch : st'.chain = st.nextEntry env input.block::st.chain := by simp [chain,hb]
  have hlen : st'.blocks.length = st.blocks.length + 1 := by simp [hb]
  have htxs : st'.nonGenesisTxs env.params =
      (if (st.nextEntry env input.block).phashBlock = env.params.hashGenesisBlock then []
        else input.block.vtx)++st.nonGenesisTxs env.params := by
    unfold nonGenesisTxs
    split_ifs <;> simp_all
  -- what is left to show about the new block
  suffices hsuff : ((st.nextEntry env input.block).phashBlock ≠ env.params.hashGenesisBlock →
        OutputsFresh env (st.nextEntry env input.block).nHeight input.block.vtx st.view.coins) ∧
      (st.chain = [] → (st.nextEntry env input.block).phashBlock = env.params.hashGenesisBlock) ∧
      TxHistory env (st.blocks.length+1) (st'.nonGenesisTxs env.params) st'.view by
    obtain ⟨hf,hr,hh⟩ := hsuff
    refine ⟨acceptTip_eq_some.mpr ⟨hc,connectTip_eq_some.mpr ⟨hlt,undo,?_,hb⟩⟩,hnu,?_,hlen ▸ hh⟩
    · exact connectBlock_sealed hf hrun
    · rw [hch]
      exact rooted_cons h hr
  rcases connectBlock_ok hrun with ⟨hgen,_,hv⟩ | ⟨vtxundo,_,hcn⟩
  · refine ⟨fun hnot => absurd hgen hnot,fun _ => hgen,?_⟩
    rw [htxs,if_pos hgen,hv]
    obtain ⟨hids,hu,hs,hci⟩ := h.history.succ
    exact ⟨hids,hu,hs,hci⟩
  · rw [if_neg hcn.nonGenesis] at htxs
    rw [htxs] at hfr ⊢
    have hh := h.history
    rw [← hht] at hh ⊢
    obtain ⟨prev,rest,hcons⟩ := exists_cons_of_ne_nil hcn.parent
    have hp : prev.nHeight + 1 = (st.nextEntry env input.block).nHeight := by
      have hn := h.numbered
      unfold Numbered at hn
      rw [hcons] at hn
      rw [hht,hn]
    rw [hcons] at hc
    obtain ⟨hne,hf⟩ := hcn.history hh hfr (by omega) hlt (hp ▸ contextualCheckBlock_height hc (by omega))
    exact ⟨fun _ => hf,fun hnil => absurd hnil hcn.parent,hne⟩

theorem UniqueOk.enforceBip30_eq_false (h : st.UniqueOk env) (hht : env.params.bip34Height = 0)
    (hh : env.params.bip34Hash = env.params.hashGenesisBlock) (hne : st.blocks ≠ [])
    (block : CBlock) (hl : (st.nextEntry env block).nHeight < bip34ImpliesBip30Limit) :
    enforceBip30 env.params (st.nextEntry env block) st.chain = false := by
  have hc : st.chain ≠ [] := fun hnil => hne (map_eq_nil_iff.mp hnil)
  obtain ⟨tip,rest,hco⟩ := exists_cons_of_ne_nil hc
  -- the ancestor at height 0 is the last entry
  have hr : (IndexChain.getAncestor st.chain 0).head? = st.chain.getLast? := by
    have hn := h.numbered
    unfold Numbered at hn
    rw [hco] at hn
    have hle : rest.length + 1 = st.blocks.length := by
      have hlen := congrArg length hco
      simpa [chain] using hlen.symm
    have htip : tip.nHeight - 0 = (tip::rest).length - 1 := by
      rw [length_cons]
      omega
    rw [hco,IndexChain.getAncestor,if_neg (Nat.not_lt_zero _),htip,head?_drop,getLast?_eq_getElem?]
  obtain ⟨root,hla⟩ : ∃ root, st.chain.getLast? = some root := ⟨_,getLast?_eq_getLast_of_ne_nil hc⟩
  have hfst := h.rooted root hla
  unfold enforceBip30
  simp only [hht,hr,hla,hh,Option.any_some,hfst,beq_self_eq_true,Bool.not_true,
    Bool.and_false,Bool.false_or,decide_eq_false_iff_not,Nat.not_le]
  exact hl

theorem acceptTip_nonGenesisTxs_subset {handler : CoinsHandler UtxoView}
    (hs : st.acceptTip env handler input = some st') :
    st.nonGenesisTxs env.params ⊆ st'.nonGenesisTxs env.params := by
  obtain ⟨_,hc⟩ := acceptTip_eq_some.mp hs
  obtain ⟨_,_,_,hb⟩ := connectTip_eq_some.mp hc
  intro tx htx
  unfold nonGenesisTxs at htx ⊢
  rw [hb]
  obtain ⟨entry,hent,htx⟩ := mem_flatMap.mp htx
  obtain ⟨hent,hh⟩ := mem_filter.mp hent
  exact mem_flatMap.mpr ⟨entry,mem_filter.mpr ⟨mem_cons_of_mem _ hent,hh⟩,htx⟩
end Step

/-- No two transactions of an accepted main-network chain share an id if hashes do not collide, so that no
unspent coin is overwritten. -/
theorem txids_nodup (env : ValidationEnv) (hparams : env.params = mainParams) (inputs : List TipInput)
    (st : Chainstate) (hrun : Run.run (acceptTip env handle) empty inputs = some st)
    (hfree : env.CollisionFree (st.nonGenesisTxs mainParams)) :
    ((st.nonGenesisTxs mainParams).map env.txid).Nodup ∧ Run.run (acceptTip env sealed) empty inputs = some st ∧
      (st.blocks ≠ [] → ∀ block, (st.nextEntry env block).nHeight < bip34ImpliesBip30Limit →
        enforceBip30 mainParams (st.nextEntry env block) st.chain = false) := by
  rw [← hparams] at hfree ⊢
  have hback : ∀ s i t, acceptTip env handle s i = some t → env.CollisionFree (t.nonGenesisTxs env.params) →
      env.CollisionFree (s.nonGenesisTxs env.params) :=
    fun s i t hstep ht => ht.subset (acceptTip_nonGenesisTxs_subset hstep)
  have hact : env.params.bip34Height ≤ 1 := by simp [hparams,mainParams]
  obtain ⟨hsealed,hok⟩ := Run.run_transfer hback
    (fun s i t hs ht hstep => acceptTip_uniqueOk hact hs ht hstep) inputs empty st
    ⟨trivial,by simp [empty,chain],TxHistory.empty env 0⟩ hfree hrun
  refine ⟨hok.history.ids,hsealed,?_⟩
  intro hne block hlimit
  exact hok.enforceBip30_eq_false (by rw [hparams]; rfl) (by rw [hparams]; rfl) hne block hlimit

def threeBlocks : List TipInput := twoBlocks++[⟨sampleBlock 2#32 [sampleCoinbase 3 [0x52, 0] (50*coin)], true⟩]

theorem threeBlocks_txids :
    ∃ st, Run.run (acceptTip sampleEnv handle) empty threeBlocks = some st ∧
      st.blocks.length = 3 ∧ ((st.nonGenesisTxs mainParams).map sampleEnv.txid).Nodup := by
  have hsome : (Run.run (acceptTip sampleEnv handle) empty threeBlocks).any (fun st =>
      st.blocks.length = 3 ∧ sampleEnv.CollisionFree (st.nonGenesisTxs mainParams)) = true := by
    decide +kernel
  obtain ⟨st,hst,hfacts⟩ := (Option.any_eq_true _ _).mp hsome
  obtain ⟨hlen,hfree⟩ := of_decide_eq_true hfacts
  exact ⟨st,hst,hlen,(txids_nodup sampleEnv rfl threeBlocks st hst hfree).1⟩
end Chainstate
end Lcryp
