import Lcryp.Validation.Connect

/-!
# What connecting a block does

A successful `ConnectBlock` spends the inputs and adds the outputs of its transactions in order.
-/
namespace Lcryp
open Interaction WriteLog List UtxoView Except Prod CTransaction
open Program hiding pure
namespace CTransaction
variable (tx : CTransaction)
def spentPrevouts : List COutPoint := if tx.isCoinBase then [] else tx.prevouts
def valueOut : Int := (tx.vout.map CTxOut.nValue).sum
end CTransaction

def spendWrites (prevouts : List COutPoint) : CoinWrites :=
  prevouts.map fun prevout => (prevout, none)
def outputWrite (txid : Uint256) (nHeight : Nat) (fCoinbase : Bool) (output : CTxOut × Nat) :
    CoinWrites :=
  UtxoView.coinWrites ⟨txid, output.2⟩ ⟨output.1, fCoinbase, nHeight⟩

variable (env : ValidationEnv)
def outputWrites (nHeight : Nat) (tx : CTransaction) : CoinWrites :=
  tx.vout.zipIdx.flatMap (outputWrite (env.txid tx) nHeight tx.isCoinBase)

def txWrites (nHeight : Nat) (tx : CTransaction) : CoinWrites :=
  spendWrites tx.spentPrevouts++outputWrites env nHeight tx
theorem lookup_spendWrites (coins : CoinMap) (prevouts : List COutPoint) (outpoint : COutPoint) :
    (replay coins (spendWrites prevouts)).lookup outpoint =
      if outpoint ∈ prevouts then none else coins.lookup outpoint :=
  lookup_replay_map (fun _ => none) prevouts coins outpoint

variable {nHeight : Nat} {w : Write COutPoint Coin} {outputs : List (CTxOut × Nat)} {fCoinbase : Bool}
theorem outputWrite_key_ne {txid : Uint256} {n : Nat} (hn : n ∉ outputs.map snd)
    (hw : w ∈ outputs.flatMap (outputWrite txid nHeight fCoinbase)) : w.1 ≠ ⟨txid, n⟩ := by
  rintro hkey
  obtain ⟨output,hout,hw⟩ := mem_flatMap.mp hw
  unfold outputWrite coinWrites at hw
  split at hw
  · cases hw
  · rw [mem_singleton.mp hw] at hkey
    exact hn (mem_map.mpr ⟨output,hout,(COutPoint.mk.inj hkey).2⟩)

theorem nodup_outputWrites (env : ValidationEnv) (nHeight : Nat) (tx : CTransaction) :
    ((outputWrites env nHeight tx).map fst).Nodup := by
  have hi : (tx.vout.zipIdx.map snd).Nodup := by
    rw [zipIdx_map_snd]
    exact nodup_range'
  unfold outputWrites
  generalize tx.vout.zipIdx = outputs at hi
  induction outputs with
  | nil => exact nodup_nil
  | cons output rest ih =>
    rw [map_cons,nodup_cons] at hi
    rw [flatMap_cons,outputWrite,coinWrites]
    split
    · exact ih hi.2
    · rw [singleton_append,map_cons,nodup_cons]
      refine ⟨fun hmem => ?_,ih hi.2⟩
      obtain ⟨w,hw,hkey⟩ := mem_map.mp hmem
      exact outputWrite_key_ne hi.1 hw hkey

variable {env : ValidationEnv} {tx : CTransaction}
theorem mem_outputWrites :
    w ∈ outputWrites env nHeight tx ↔ ∃ output ∈ tx.vout.zipIdx,
      output.1.scriptPubKey.isUnspendable = false ∧
        w = (⟨env.txid tx, output.2⟩, some ⟨output.1, tx.isCoinBase, nHeight⟩) := by
  unfold outputWrites
  rw [mem_flatMap]
  refine exists_congr fun output => and_congr_right fun _ => ?_
  unfold outputWrite coinWrites
  cases output.1.scriptPubKey.isUnspendable <;> simp

theorem outputWrites_hash (h : w ∈ outputWrites env nHeight tx) : w.1.hash = env.txid tx := by
  obtain ⟨output,_,_,rfl⟩ := mem_outputWrites.mp h
  rfl

structure TxConnected (env : ValidationEnv) (nHeight : Nat) (tx : CTransaction) (view : UtxoView)
    (txundo : CTxUndo) (view' : UtxoView) : Prop where
  found : tx.spentPrevouts.map view.coins.lookup = txundo.map some
  nodup : tx.spentPrevouts.Nodup
  coins : view'.coins = replay view.coins (txWrites env nHeight tx)
  best : view'.bestBlock = view.bestBlock

inductive TxsConnected (env : ValidationEnv) (nHeight : Nat) :
    List CTransaction → UtxoView → List CTxUndo → UtxoView → Prop
  | nil (view : UtxoView) : TxsConnected env nHeight [] view [] view
  | cons {tx : CTransaction} {rest : List CTransaction} {view mid view' : UtxoView}
      {txundo : CTxUndo} {undo : List CTxUndo}
      (first : TxConnected env nHeight tx view txundo mid)
      (others : TxsConnected env nHeight rest mid undo view') :
      TxsConnected env nHeight (tx::rest) view (txundo::undo) view'

def valueIn (txundo : CTxUndo) : Int := (txundo.map fun coin => coin.out.nValue).sum
def txFee (tx : CTransaction) (txundo : CTxUndo) : Int :=
  if tx.isCoinBase then 0 else valueIn txundo - tx.valueOut
def totalFees (vtx : List CTransaction) (undo : List CTxUndo) : Int :=
  ((vtx.zip undo).map fun pair => txFee pair.1 pair.2).sum

structure BlockConnected (env : ValidationEnv) (block : CBlock) (entry : CBlockIndex)
    (pprev : IndexChain) (view : UtxoView) (vtxundo : List CTxUndo) (view' : UtxoView) : Prop where
  wellFormed : ∃ coinbase rest, WellFormedBlock block coinbase rest
  hash : entry.phashBlock = env.getHash block.header
  nonGenesis : entry.phashBlock ≠ env.params.hashGenesisBlock
  parent : pprev ≠ []
  best : view.bestBlock = prevHash pprev
  txs : ∃ mid : UtxoView, TxsConnected env entry.nHeight block.vtx view vtxundo mid ∧
    view' = { mid with bestBlock := entry.phashBlock }
  fees : ∀ pair ∈ block.vtx.zip vtxundo, 0 ≤ txFee pair.1 pair.2
  reward : ∀ coinbase ∈ block.vtx.head?, coinbase.valueOut ≤
    totalFees block.vtx vtxundo + getBlockSubsidy entry.nHeight env.params

variable {nSpendHeight : Nat} {flags : BitVec 32} {prevouts : List COutPoint}
section Calls
variable {P : CoinsOp → Prop}
theorem accessInputs_calls
    (h : ∀ prevout ∈ prevouts, P (.getCoin prevout)) : (accessInputs prevouts).Calls P := by
  induction prevouts with
  | nil => exact calls_pure _
  | cons prevout rest ih =>
    rw [forall_mem_cons] at h
    refine calls_bind (accessCoin_calls h.1) fun coin => ?_
    refine calls_bind (calls_throwIf _ _) fun _ => ?_
    exact calls_bind (ih h.2) fun _ => calls_pure _

theorem sumInputs_calls {nValueIn : Int} (h : ∀ prevout ∈ prevouts, P (.getCoin prevout)) :
    (sumInputs nSpendHeight nValueIn prevouts).Calls P := by
  induction prevouts generalizing nValueIn with
  | nil => exact calls_pure _
  | cons prevout rest ih =>
    rw [forall_mem_cons] at h
    refine calls_bind (accessCoin_calls h.1) fun coin => ?_
    refine calls_bind (calls_throwIf _ _) fun _ => ?_
    simp only
    split
    · exact calls_pure _
    · split
      · exact calls_pure _
      · exact ih h.2
section Prevouts
variable (h : ∀ prevout ∈ tx.prevouts, P (.getCoin prevout))
include h

theorem checkTxInputs_calls : (checkTxInputs tx nSpendHeight).Calls P := by
  refine calls_bind (haveInputs_calls h) fun present => ?_
  cases present with
  | false => exact calls_pure _
  | true =>
    refine calls_bind (sumInputs_calls h) fun summed => ?_
    cases summed with
    | error invalid => exact calls_pure _
    | ok nValueIn =>
      cases tx.getValueOut with
      | none => exact calls_throw _
      | some valueOut => exact calls_pure _

theorem getTransactionSigOpCost_calls : (getTransactionSigOpCost env tx flags).Calls P := by
  unfold getTransactionSigOpCost
  split
  · exact calls_pure _
  · refine calls_bind ?_ fun p2sh =>
      calls_bind (accessInputs_calls h) fun _ => calls_pure _
    split
    · exact accessInputs_calls h
    · exact calls_pure _

theorem checkInputScripts_calls : (checkInputScripts env tx flags).Calls P := by
  unfold checkInputScripts
  split
  · exact calls_pure _
  · refine calls_bind (accessInputs_calls h) fun coins => ?_
    split
    · exact calls_pure _
    · exact calls_pure _
end Prevouts
end Calls

theorem haveAny_reads (outpoints : List COutPoint) : Reads (haveAny outpoints) := by
  induction outpoints with
  | nil => exact calls_pure _
  | cons outpoint rest ih =>
    refine calls_bind (haveCoin_calls rfl) fun present => ?_
    cases present with
    | true => exact calls_pure _
    | false => exact ih

theorem connectInputs_reads (env : ValidationEnv) (pindex : IndexChain) (nHeight : Nat)
    (nFees : Int) (tx : CTransaction) : Reads (connectInputs env pindex nHeight nFees tx) := by
  unfold connectInputs
  split
  · exact calls_pure _
  refine calls_bind (checkTxInputs_calls fun _ _ => rfl) fun checked => ?_
  cases checked with
  | error invalid => exact calls_throw _
  | ok txfee =>
    refine calls_bind (calls_throwIf _ _) fun _ => ?_
    refine calls_bind (accessInputs_calls fun _ _ => rfl) fun coins => ?_
    simp only
    split
    · exact calls_throw _
    · exact calls_bind (calls_throwIf _ _) fun _ => calls_pure _

theorem bip30Scan_reads (env : ValidationEnv) (block : CBlock) (entry : CBlockIndex)
    (pprev : IndexChain) : Reads (if enforceBip30 env.params entry pprev then
      haveAny (block.vtx.flatMap (outputOutpoints env)) else pure false) := by
  split
  · exact haveAny_reads _
  · exact calls_pure _

theorem connectCheck_reads (checked : Except BlockInvalid Unit) : Reads (connectCheck checked) := by
  unfold connectCheck
  split
  · exact calls_pure _
  · split
    · exact calls_throw _
    · exact calls_throw _

theorem getTransactionSigOpCost_reads (env : ValidationEnv) (tx : CTransaction)
    (flags : BitVec 32) : Reads (getTransactionSigOpCost env tx flags) :=
  getTransactionSigOpCost_calls fun _ _ => rfl

theorem connectScripts_reads (env : ValidationEnv) (fScriptChecks : Bool) (flags : BitVec 32)
    (tx : CTransaction) : Reads (connectScripts env fScriptChecks flags tx) := by
  unfold connectScripts
  split
  · refine calls_bind (checkInputScripts_calls fun _ _ => rfl) fun checked => ?_
    cases checked with
    | error invalid => exact calls_throw _
    | ok checks => exact calls_pure _
  · exact calls_pure _

variable {pindex : IndexChain} {view view' : UtxoView}
section Inputs
theorem sumInputs_ok {nValueIn total : Int}
    (h : (sumInputs nSpendHeight nValueIn prevouts).run handle view = .ok (.ok total, view')) :
    ∃ coins, prevouts.map view.coins.lookup = coins.map some ∧ total = nValueIn + valueIn coins := by
  induction prevouts generalizing nValueIn with
  | nil =>
    obtain rfl := ok.inj (mk.inj (ok.inj h)).1
    exact ⟨[],rfl,by simp [valueIn]⟩
  | cons prevout rest ih =>
    obtain ⟨hu,hsum⟩ := run_throwIf_bind.mp h
    -- an asserted coin was there: the empty coin counts as spent
    obtain ⟨coin,hget⟩ : ∃ coin, view.coins.lookup prevout = some coin := by
      refine Option.ne_none_iff_exists'.mp fun hf => ?_
      rw [hf] at hu
      cases hu
    simp only [hget,Option.getD_some] at hsum
    split_ifs at hsum
    iterate 2 cases (mk.inj (ok.inj hsum)).1
    · obtain ⟨coins,hc,ht⟩ := ih hsum
      refine ⟨coin::coins,by simp [hget,hc],?_⟩
      rw [ht,valueIn,valueIn,map_cons,sum_cons,Int.add_assoc]

theorem checkTxInputs_ok {fee : Int}
    (h : (checkTxInputs tx nSpendHeight).run handle view = .ok (.ok fee, view')) :
    0 ≤ fee ∧ ∃ coins, tx.prevouts.map view.coins.lookup = coins.map some ∧
      fee = valueIn coins - tx.valueOut := by
  obtain ⟨present,_,h⟩ := reads_bind_ok (haveInputs_calls fun _ _ => rfl) h
  cases present with
  | false => cases (Prod.mk.inj (ok.inj h)).1
  | true =>
    obtain ⟨summed,mid',hsum,h⟩ := run_bind_eq_ok.mp h
    cases summed with
    | error invalid => cases (Prod.mk.inj (ok.inj h)).1
    | ok nValueIn =>
      obtain ⟨coins,hc,ht⟩ := sumInputs_ok hsum
      cases hval : tx.getValueOut with
      | none => simp [hval] at h
      | some valueOut =>
        simp only [hval,run_pure,ok.injEq,Prod.mk.injEq] at h
        have hv : valueOut = tx.valueOut := (getValueOut_eq_some hval).1
        have hfee := h.1
        unfold checkFee at hfee
        split_ifs at hfee with hbel hrange
        obtain rfl := ok.inj hfee
        refine ⟨by omega,coins,hc,?_⟩
        rw [ht,hv,Int.zero_add]

theorem connectInputs_ok {nHeight : Nat} {nFees nFees' : Int}
    (h : (connectInputs env pindex nHeight nFees tx).run handle view = .ok (nFees', view')) :
    ∃ coins, tx.spentPrevouts.map view.coins.lookup = coins.map some ∧
      nFees' = nFees + txFee tx coins ∧ 0 ≤ txFee tx coins := by
  unfold connectInputs at h
  by_cases hcb : tx.isCoinBase = true
  · rw [if_pos hcb] at h
    obtain rfl := (mk.inj (ok.inj h)).1
    exact ⟨[],by simp [spentPrevouts,hcb],by simp [txFee,hcb],by simp [txFee,hcb]⟩
  · rw [if_neg hcb] at h
    obtain ⟨checked,mid,hc,h⟩ := run_bind_eq_ok.mp h
    cases checked with
    | error invalid => cases h
    | ok txfee =>
      obtain ⟨hnn,coins,hco,hfee⟩ := checkTxInputs_ok hc
      obtain ⟨_,_,_,h⟩ := run_bind_eq_ok.mp h
      obtain ⟨heights,_,_,h⟩ := run_bind_eq_ok.mp h
      simp only at h
      split at h
      · cases h
      obtain ⟨_,_,_,h⟩ := run_bind_eq_ok.mp h
      obtain rfl := (mk.inj (ok.inj h)).1
      refine ⟨coins,?_,?_,?_⟩
      · simpa [spentPrevouts,hcb] using hco
      · simp [txFee,hcb,hfee]
      · simpa [txFee,hcb,← hfee] using hnn
end Inputs

section Updates
theorem spendInputs_ok {coins : List Coin} (h : (spendInputs prevouts).run handle view = .ok (coins, view')) :
    prevouts.map view.coins.lookup = coins.map some ∧ prevouts.Nodup ∧
      view'.coins = replay view.coins (spendWrites prevouts) ∧ view'.bestBlock = view.bestBlock := by
  induction prevouts generalizing view coins with
  | nil =>
    cases h
    exact ⟨rfl,nodup_nil,rfl,rfl⟩
  | cons prevout rest ih =>
    rw [spendInputs,run_bind_of_ok rfl] at h
    cases hm : view.coins.lookup prevout with
    | none =>
      rw [hm] at h
      cases h
    | some coin =>
      rw [hm] at h
      obtain ⟨others,last,hot,h⟩ := run_bind_eq_ok.mp h
      cases h
      obtain ⟨hf,hnd,hc,hb⟩ := ih hot
      have hget : ∀ o, (view.erase prevout).coins.lookup o =
          if o = prevout then none else view.coins.lookup o := by
        intro o
        rw [erase,lookup_write]
      -- an outpoint spent twice would find nothing the second time
      have hfst : prevout ∉ rest := by
        intro hmem
        have hn := mem_map_of_mem (f := (view.erase prevout).coins.lookup) hmem
        rw [hf,hget] at hn
        simp at hn
      refine ⟨?_,nodup_cons.mpr ⟨hfst,hnd⟩,hc,hb⟩
      · rw [map_cons,map_cons,← hf]
        congr 1
        refine map_congr_left ?_
        intro o ho
        rw [hget,if_neg]
        rintro rfl
        exact hfst ho

theorem addOutputs_ok {txid : Uint256} {answer : Unit}
    (h : (addOutputs txid nHeight fCoinbase false outputs).run handle view = .ok (answer, view')) :
    view'.coins = replay view.coins (outputs.flatMap (outputWrite txid nHeight fCoinbase)) ∧
      view'.bestBlock = view.bestBlock := by
  induction outputs generalizing view with
  | nil =>
    obtain ⟨_,rfl⟩ := mk.inj (ok.inj h)
    exact ⟨rfl,rfl⟩
  | cons output rest ih =>
    obtain ⟨overwrite,mid,hf,h⟩ := run_bind_eq_ok.mp h
    cases hf
    obtain ⟨_,mid2,hadd,h⟩ := run_bind_eq_ok.mp h
    obtain ⟨_,hco,hbe⟩ := addCoin_ok hadd
    obtain ⟨hc,hb⟩ := ih h
    refine ⟨?_,hb.trans hbe⟩
    rw [hc,hco,flatMap_cons,replay_append]
    rfl

theorem spendInputs_spentPrevouts (tx : CTransaction) :
    (if tx.isCoinBase then pure [] else spendInputs tx.prevouts) = spendInputs tx.spentPrevouts := by
  unfold spentPrevouts
  split
  · rfl
  · rfl

variable {fScriptChecks : Bool} {st : ConnectState} {st' : ConnectState}
theorem connectTx_ok
    (h : (connectTx env fScriptChecks pindex nHeight flags st tx).run handle view = .ok (st', view')) :
    ∃ txundo, TxConnected env nHeight tx view txundo view' ∧
      st'.vtxundo = st.vtxundo++[txundo] ∧ st'.nFees = st.nFees + txFee tx txundo ∧ 0 ≤ txFee tx txundo := by
  obtain ⟨nFees,hi,h⟩ := reads_bind_ok (connectInputs_reads env pindex nHeight st.nFees tx) h
  obtain ⟨coins,hc,hfe,hnn⟩ := connectInputs_ok hi
  obtain ⟨cost,_,h⟩ := reads_bind_ok (getTransactionSigOpCost_reads env tx flags) h
  obtain ⟨_,h⟩ := run_throwIf_bind.mp h
  obtain ⟨checks,_,h⟩ := reads_bind_ok (connectScripts_reads env fScriptChecks flags tx) h
  obtain ⟨txundo,last,hupd,h⟩ := run_bind_eq_ok.mp h
  cases h
  obtain ⟨vprevout,spent,hs,hupd⟩ := run_bind_eq_ok.mp hupd
  obtain ⟨_,last2,hadd,hupd⟩ := run_bind_eq_ok.mp hupd
  obtain ⟨rfl,rfl⟩ := mk.inj (ok.inj hupd)
  rw [spendInputs_spentPrevouts] at hs
  obtain ⟨hf,hnd,hsp,hbe⟩ := spendInputs_ok hs
  -- the coins checked for the fee are the coins spent
  obtain rfl : coins = vprevout := map_injective_iff.mpr (Option.some_injective Coin) (hc.symm.trans hf)
  obtain ⟨ha,hb⟩ := addOutputs_ok hadd
  refine ⟨coins,⟨hf,hnd,?_,hb.trans hbe⟩,rfl,hfe,hnn⟩
  rw [ha,hsp,txWrites,replay_append]
  rfl

theorem connectTxs_ok {vtx : List CTransaction}
    (h : (connectTxs env fScriptChecks pindex nHeight flags st vtx).run handle view = .ok (st', view')) :
    ∃ vtxundo, TxsConnected env nHeight vtx view vtxundo view' ∧
      st'.vtxundo = st.vtxundo++vtxundo ∧ st'.nFees = st.nFees + totalFees vtx vtxundo ∧
      ∀ pair ∈ vtx.zip vtxundo, 0 ≤ txFee pair.1 pair.2 := by
  induction vtx generalizing st view with
  | nil =>
    cases h
    exact ⟨[],.nil _,by simp,by simp [totalFees],by simp⟩
  | cons tx rest ih =>
    obtain ⟨mid,midView,hfst,h⟩ := run_bind_eq_ok.mp h
    obtain ⟨txundo,hc,hun,hfe,hnn⟩ := connectTx_ok hfst
    obtain ⟨vtxundo,hr,hu,hf,hnn'⟩ := ih h
    refine ⟨txundo::vtxundo,.cons hc hr,?_,?_,?_⟩
    · rw [hu,hun,append_assoc]
      rfl
    · rw [hf,hfe,totalFees,totalFees,zip_cons_cons,map_cons,sum_cons,Int.add_assoc]
    · rw [zip_cons_cons,forall_mem_cons]
      exact ⟨hnn,hnn'⟩

variable {result : Option CBlockUndo} {entry : CBlockIndex}
theorem finishBlock_ok {block : CBlock}
    (h : (finishBlock env false block entry st).run handle view = .ok (result, view')) :
    result = some st.vtxundo.tail ∧ view' = { view with bestBlock := entry.phashBlock } ∧
      ∀ coinbase ∈ block.vtx.head?, coinbase.valueOut ≤
        st.nFees + getBlockSubsidy entry.nHeight env.params := by
  unfold finishBlock at h
  split at h
  · cases h
  rename_i valueOut hval
  obtain ⟨hl,h⟩ := run_throwIf_bind.mp h
  obtain ⟨_,h⟩ := run_throwIf_bind.mp h
  obtain ⟨_,last,hset,h⟩ := run_bind_eq_ok.mp h
  cases h
  refine ⟨rfl,(mk.inj (ok.inj hset)).2.symm,?_⟩
  intro coinbase hcoinbase
  rw [hcoinbase] at hval
  have hsum : valueOut = coinbase.valueOut := (getValueOut_eq_some hval).1
  rw [← hsum]
  simpa using hl

theorem connectBlock_ok {block : CBlock} {pprev : IndexChain}
    (h : (connectBlock env fScriptChecks false block entry pprev).run handle view = .ok (result, view')) :
    (entry.phashBlock = env.params.hashGenesisBlock ∧ result = none ∧
        view' = { view with bestBlock := entry.phashBlock }) ∨
      ∃ vtxundo, result = some vtxundo.tail ∧ BlockConnected env block entry pprev view vtxundo view' := by
  obtain ⟨hh,h⟩ := run_throwIf_bind.mp h
  obtain ⟨_,hc,h⟩ := reads_bind_ok (connectCheck_reads _) h
  obtain ⟨best,hget,h⟩ := reads_bind_ok ((calls_perform _).mpr rfl) h
  obtain ⟨hbe,h⟩ := run_throwIf_bind.mp h
  have hb := (mk.inj (ok.inj hget)).1
  have hent : entry.phashBlock = env.getHash block.header := by simpa using hh
  have hchk : checkBlock env block true true = .ok () := by
    unfold connectCheck at hc
    split at hc
    · assumption
    · split at hc <;> cases hc
  split at h
  · rename_i hgen
    obtain ⟨_,last,hset,h⟩ := run_bind_eq_ok.mp h
    cases h
    exact .inl ⟨hent.trans hgen,rfl,(mk.inj (ok.inj hset)).2.symm⟩
  · obtain ⟨hp,h⟩ := run_throwIf_bind.mp h
    obtain ⟨overwrites,_,h⟩ := reads_bind_ok (bip30Scan_reads env block entry pprev) h
    obtain ⟨_,h⟩ := run_throwIf_bind.mp h
    obtain ⟨st,connected,htxs,h⟩ := run_bind_eq_ok.mp h
    obtain ⟨vtxundo,hco,hu,hf,hnn⟩ := connectTxs_ok htxs
    obtain ⟨hres,hv,hr⟩ := finishBlock_ok h
    refine .inr ⟨vtxundo,?_,?_⟩
    · rw [hres,hu]
      rfl
    · refine ⟨checkBlock_ok hchk,hent,by rwa [hent],by simpa using hp,?_,⟨connected,hco,hv⟩,hnn,?_⟩
      · rw [hb]
        exact (bne_eq_false_iff_eq.mp hbe).symm
      · rw [hf,Int.zero_add] at hr
        exact hr
end Updates
end Lcryp
