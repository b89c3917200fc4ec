import Lcryp.Validation.Chainstate
import Lcryp.Validation.Overwrites

/-!
# Disconnecting blocks

`Chainstate::DisconnectBlock` walks a block backwards, removes its outputs and puts back the coins its
undo data holds.
-/
namespace Lcryp
open Interaction WriteLog List UtxoView Program
inductive DisconnectResult
  | ok
  | unclean
  | failed
deriving DecidableEq

namespace DisconnectResult
def ofClean : Bool → DisconnectResult
  | true => .ok
  | false => .unclean

/-- The result of a part that did not fail and the result of the rest. -/
def and : DisconnectResult → DisconnectResult → DisconnectResult
  | _, .failed => .failed
  | .ok, res => res
  | _, _ => .unclean

theorem ofClean_ne_failed (fClean : Bool) : ofClean fClean ≠ .failed := by
  cases fClean <;> exact nofun
theorem and_ne_failed {first second : DisconnectResult} (h : second ≠ .failed) :
    first.and second ≠ .failed := by
  cases second with
  | failed => exact absurd rfl h
  | ok => cases first <;> exact nofun
  | unclean => cases first <;> exact nofun
end DisconnectResult

def minTransactionOutputWeight : Nat := witnessScaleFactor * CTxOut.null.size
def maxOutputsPerBlock : Nat := maxBlockWeight / minTransactionOutputWeight

/-- The loop of `AccessByTxid` with the number of outputs still to look at. -/
def accessByTxidFrom (txid : Uint256) : Nat → Nat → CoinsProgram Coin
  | 0, _ => return Coin.empty
  | left+1, n => do
      let alternate ← accessCoin ⟨txid, n⟩
      if !alternate.isSpent then return alternate else accessByTxidFrom txid left (n+1)

def accessByTxid (txid : Uint256) : CoinsProgram Coin := accessByTxidFrom txid maxOutputsPerBlock 0

/-- The coin to put back; nothing if its height is lost. -/
def completeUndo (undo : Coin) (txid : Uint256) : CoinsProgram (Option Coin) :=
  if undo.nHeight = 0 then do
    let alternate ← accessByTxid txid
    return if alternate.isSpent then none
      else some { undo with nHeight := alternate.nHeight, fCoinBase := alternate.fCoinBase }
  else return some undo

def applyTxInUndo (undo : Coin) (out : COutPoint) : CoinsProgram DisconnectResult := do
  let present ← haveCoin out
  match ← completeUndo undo out.hash with
  | none => return .failed
  | some coin => do
      addCoin out coin present
      return .ofClean (!present)

def isOutput (txout : CTxOut) (nHeight : Nat) (isCoinbase : Bool) (moved : Option Coin) : Bool :=
  moved.any fun coin =>
    coin.out == txout && coin.nHeight == nHeight && coin.fCoinBase == isCoinbase

/-- The output loop of `DisconnectBlock`; the answer is whether all outputs were as added. -/
def disconnectOutputs (txid : Uint256) (nHeight : Nat) (isCoinbase : Bool) :
    List (CTxOut × Nat) → CoinsProgram Bool
  | [] => return true
  | (txout, o)::rest =>
    if txout.scriptPubKey.isUnspendable then disconnectOutputs txid nHeight isCoinbase rest
    else do
      let moved ← spendCoin ⟨txid, o⟩
      let others ← disconnectOutputs txid nHeight isCoinbase rest
      return isOutput txout nHeight isCoinbase moved && others

def undoInputs : List (COutPoint × Coin) → CoinsProgram DisconnectResult
  | [] => return .ok
  | (out, undo)::rest => do
      let res ← applyTxInUndo undo out
      if res = .failed then return .failed else return res.and (← undoInputs rest)

variable (env : ValidationEnv) (nHeight : Nat) (tx : CTransaction)
/-- One iteration over the transactions; the coinbase has no undo record. -/
def disconnectTx (txundo : Option CTxUndo) : CoinsProgram DisconnectResult := do
  let fClean ← disconnectOutputs (env.txid tx) nHeight tx.isCoinBase tx.vout.zipIdx
  match txundo with
  | none => return .ofClean fClean
  | some vprevout =>
    if vprevout.length ≠ tx.vin.length then return .failed
    else do
      let res ← undoInputs (tx.prevouts.zip vprevout).reverse
      return (DisconnectResult.ofClean fClean).and res

def disconnectTxs (env : ValidationEnv) (nHeight : Nat) :
    List (CTransaction × Option CTxUndo) → CoinsProgram DisconnectResult
  | [] => return .ok
  | (tx, txundo)::rest => do
      let res ← disconnectTx env nHeight tx txundo
      if res = .failed then return .failed else return res.and (← disconnectTxs env nHeight rest)

def disconnectBlock (blockUndo : Option CBlockUndo) (block : CBlock)
    (entry : CBlockIndex) (pprev : IndexChain) : CoinsProgram DisconnectResult :=
  match blockUndo with
  | none => return .failed
  | some vtxundo =>
    if vtxundo.length + 1 ≠ block.vtx.length then return .failed
    else do
      let res ← disconnectTxs env entry.nHeight
        (block.vtx.zip (none::vtxundo.map some)).reverse
      if res = .failed then return .failed
      else do
        setBestBlock (prevHash pprev)
        return res

/-! ## What disconnecting writes -/

/-- A coin that `AddCoin` puts back as it is. -/
structure Coin.Restorable (coin : Coin) : Prop where
  unspent : coin.isSpent = false
  height : 0 < coin.nHeight
  spendable : coin.out.scriptPubKey.isUnspendable = false

def UtxoView.Restorable (view : UtxoView) : Prop :=
  ∀ outpoint coin, view.coins.lookup outpoint = some coin → coin.Restorable
def clearWrites (log : CoinWrites) : CoinWrites :=
  log.map fun w => (w.1, none)
def restoreWrites (pairs : List (COutPoint × Coin)) : CoinWrites :=
  pairs.map fun pair => (pair.1, some pair.2)

variable (txundo : CTxUndo)
def undoWrites : CoinWrites :=
  clearWrites (outputWrites env nHeight tx) ++ restoreWrites (tx.spentPrevouts.zip txundo).reverse

def undoWritesAll (txs : List (CTransaction × CTxUndo)) : CoinWrites :=
  txs.flatMap fun pair => undoWrites env nHeight pair.1 pair.2

/-- The coins are as the transactions, given in the order of undoing, left them. -/
def CleanUndo (env : ValidationEnv) (nHeight : Nat) : List (CTransaction × CTxUndo) → CoinMap → Prop
  | [], _ => True
  | (tx, txundo)::rest, coins =>
    ((∀ w ∈ outputWrites env nHeight tx, coins.lookup w.1 = w.2) ∧ tx.spentPrevouts.Nodup ∧
      ∀ prevout ∈ tx.spentPrevouts,
        (replay coins (clearWrites (outputWrites env nHeight tx))).lookup prevout = none) ∧
      CleanUndo env nHeight rest (replay coins (undoWrites env nHeight tx txundo))

section Programs
variable (view : UtxoView)
theorem applyTxInUndo_ok (out : COutPoint) {coin : Coin} (hc : coin.Restorable) :
    ∃ view', (applyTxInUndo coin out).run cached view = .ok (.ofClean (view.coins.lookup out).isNone, view') ∧
      view.Applied [(out, some coin)] view' := by
  obtain ⟨view',hadd,happ⟩ := run_addCoin view out hc.unspent
  refine ⟨view',?_,?_⟩
  · have hco : completeUndo coin out.hash = return some coin := if_neg (Nat.ne_of_gt hc.height)
    rw [applyTxInUndo,hco]
    refine (run_bind_of_ok hadd).trans ?_
    rw [Option.not_isSome]
    rfl
  · rw [coinWrites,if_neg (by simp [hc.spendable])] at happ
    exact happ

theorem disconnectOutputs_ok (txid : Uint256) (nHeight : Nat) (isCoinbase : Bool)
    {outputs : List (CTxOut × Nat)} (hnd : (outputs.map Prod.snd).Nodup) :
    ∃ fClean view', (disconnectOutputs txid nHeight isCoinbase outputs).run cached view = .ok (fClean, view') ∧
      view.Applied (clearWrites (outputs.flatMap (outputWrite txid nHeight isCoinbase))) view' ∧
      ((∀ w ∈ outputs.flatMap (outputWrite txid nHeight isCoinbase),
        view.coins.lookup w.1 = w.2) → fClean = true) := by
  induction outputs generalizing view with
  | nil => exact ⟨true,view,rfl,.nil view,fun _ => rfl⟩
  | cons output rest ih =>
    obtain ⟨txout,o⟩ := output
    rw [map_cons,nodup_cons] at hnd
    rw [flatMap_cons]
    by_cases hscr : txout.scriptPubKey.isUnspendable = true
    · have hn : outputWrite txid nHeight isCoinbase (txout, o) = [] := if_pos hscr
      rw [disconnectOutputs,if_pos hscr,hn]
      exact ih view hnd.2
    · have hone : outputWrite txid nHeight isCoinbase (txout, o) =
          [(⟨txid,o⟩, some ⟨txout,isCoinbase,nHeight⟩)] := if_neg hscr
      have hs : (spendCoin ⟨txid,o⟩).run cached view =
          .ok (view.coins.lookup ⟨txid,o⟩, view.erase ⟨txid,o⟩) := rfl
      obtain ⟨fClean,view',hrun,happ,hc⟩ := ih (view.erase ⟨txid,o⟩) hnd.2
      rw [hone]
      have hfst : view.Applied [(⟨txid,o⟩, none)] (view.erase ⟨txid,o⟩) := ⟨rfl,rfl⟩
      refine ⟨isOutput txout nHeight isCoinbase (view.coins.lookup ⟨txid,o⟩) && fClean,view',
        ?_,hfst.append happ,?_⟩
      · rw [disconnectOutputs,if_neg hscr,run_bind_of_ok hs,run_bind_of_ok hrun]
        rfl
      · intro hsa
        rw [forall_mem_append] at hsa
        have hco := hsa.1 _ (mem_singleton.mpr rfl)
        have ho : fClean = true := by
          refine hc fun w hw => ?_
          rw [erase,lookup_write,if_neg (outputWrite_key_ne hnd.1 hw)]
          exact hsa.2 w hw
        rw [hco,ho]
        simp [isOutput]

theorem undoInputs_ok {pairs : List (COutPoint × Coin)} (hc : ∀ pair ∈ pairs, pair.2.Restorable) :
    ∃ res view', (undoInputs pairs).run cached view = .ok (res, view') ∧
      view.Applied (restoreWrites pairs) view' ∧ res ≠ .failed ∧
      ((pairs.map Prod.fst).Nodup → (∀ pair ∈ pairs, view.coins.lookup pair.1 = none) → res = .ok) := by
  induction pairs generalizing view with
  | nil => exact ⟨.ok,view,rfl,.nil view,nofun,fun _ _ => rfl⟩
  | cons pair rest ih =>
    obtain ⟨out,coin⟩ := pair
    rw [forall_mem_cons] at hc
    obtain ⟨mid,hfst,hmid⟩ := applyTxInUndo_ok view out hc.1
    obtain ⟨res,view',hr,happ,hres,hcl⟩ := ih mid hc.2
    refine ⟨(DisconnectResult.ofClean (view.coins.lookup out).isNone).and res,view',?_,
      hmid.append happ,DisconnectResult.and_ne_failed hres,?_⟩
    · rw [undoInputs,run_bind_of_ok hfst,if_neg (DisconnectResult.ofClean_ne_failed _),run_bind_of_ok hr]
      rfl
    · intro hnd hf
      rw [map_cons,nodup_cons] at hnd
      rw [forall_mem_cons] at hf
      have ho : res = .ok := by
        refine hcl hnd.2 fun pair hpair => ?_
        rw [hmid.coins,replay_cons,replay_nil,lookup_write,if_neg]
        · exact hf.2 pair hpair
        · intro hkey
          exact hnd.1 (hkey ▸ mem_map_of_mem hpair)
      rw [hf.1,ho]
      rfl

/-- The undo record of a transaction in the form `DisconnectBlock` reads it. -/
def undoRecord : Option CTxUndo := if tx.isCoinBase then none else some txundo

theorem disconnectTx_ok (env : ValidationEnv) (nHeight : Nat) {tx : CTransaction} {txundo : CTxUndo}
    (hco : ∀ coin ∈ txundo, coin.Restorable) (hlen : txundo.length = tx.spentPrevouts.length) :
    ∃ res view', (disconnectTx env nHeight tx (undoRecord tx txundo)).run cached view = .ok (res, view') ∧
      view.Applied (undoWrites env nHeight tx txundo) view' ∧ res ≠ .failed ∧
      ((∀ w ∈ outputWrites env nHeight tx, view.coins.lookup w.1 = w.2) → tx.spentPrevouts.Nodup →
        (∀ prevout ∈ tx.spentPrevouts,
          (replay view.coins (clearWrites (outputWrites env nHeight tx))).lookup prevout = none) →
        res = .ok) := by
  have hi : (tx.vout.zipIdx.map Prod.snd).Nodup := by
    rw [zipIdx_map_snd]
    exact nodup_range'
  obtain ⟨fClean,mid,ho,hmid,hc⟩ := disconnectOutputs_ok view (env.txid tx) nHeight tx.isCoinBase hi
  by_cases hcb : tx.isCoinBase = true
  · have hs : tx.spentPrevouts = [] := if_pos hcb
    refine ⟨.ofClean fClean,mid,?_,?_,DisconnectResult.ofClean_ne_failed _,?_⟩
    · rw [disconnectTx,run_bind_of_ok ho,undoRecord,if_pos hcb]
      rfl
    · rw [undoWrites,hs]
      exact hmid.append (.nil mid)
    · intro hsa _ _
      rw [hc hsa]
      rfl
  · have hs : tx.spentPrevouts = tx.prevouts := if_neg hcb
    have hsi : txundo.length = tx.vin.length := by rw [hlen,hs,CTransaction.prevouts,length_map]
    have hp : ∀ pair ∈ (tx.prevouts.zip txundo).reverse, pair.2.Restorable := by
      intro pair hpair
      exact hco pair.2 (of_mem_zip (mem_reverse.mp hpair)).2
    obtain ⟨res,view',hin,happ,hres,hf⟩ := undoInputs_ok mid hp
    refine ⟨(DisconnectResult.ofClean fClean).and res,view',?_,?_,DisconnectResult.and_ne_failed hres,?_⟩
    · rw [disconnectTx,run_bind_of_ok ho,undoRecord,if_neg hcb]
      simp only [hsi,ne_eq,not_true_eq_false,if_false]
      rw [run_bind_of_ok hin]
      rfl
    · rw [undoWrites,hs]
      exact hmid.append happ
    · intro hsa hnd hnone
      rw [hs] at hnd hnone
      have hk : (tx.prevouts.zip txundo).map Prod.fst = tx.prevouts := by
        rw [map_fst_zip]
        rw [hlen,hs]
      have hok : res = .ok := by
        refine hf ?_ fun pair hpair => ?_
        · rw [map_reverse,nodup_reverse,hk]
          exact hnd
        · rw [hmid.coins]
          exact hnone pair.1 (of_mem_zip (mem_reverse.mp hpair)).1
      rw [hc hsa,hok]
      rfl

theorem disconnectTxs_ok (env : ValidationEnv) (nHeight : Nat)
    {txs : List (CTransaction × CTxUndo)} (hc : ∀ pair ∈ txs, ∀ coin ∈ pair.2, coin.Restorable)
    (hlen : ∀ pair ∈ txs, pair.2.length = pair.1.spentPrevouts.length) :
    ∃ res view', (disconnectTxs env nHeight
        (txs.map fun pair => (pair.1, undoRecord pair.1 pair.2))).run cached view =
        .ok (res, view') ∧
      view.Applied (undoWritesAll env nHeight txs) view' ∧ res ≠ .failed ∧
      (CleanUndo env nHeight txs view.coins → res = .ok) := by
  induction txs generalizing view with
  | nil => exact ⟨.ok,view,rfl,.nil view,nofun,fun _ => rfl⟩
  | cons pair rest ih =>
    rw [forall_mem_cons] at hc hlen
    obtain ⟨res,mid,hfst,hmid,hres,hce⟩ := disconnectTx_ok view env nHeight hc.1 hlen.1
    obtain ⟨res',view',hr,happ,hre,hcl⟩ := ih mid hc.2 hlen.2
    refine ⟨res.and res',view',?_,hmid.append happ,DisconnectResult.and_ne_failed hre,?_⟩
    · rw [map_cons,disconnectTxs,run_bind_of_ok hfst,if_neg hres,run_bind_of_ok hr]
      rfl
    · rintro ⟨⟨hs,hnd,hn⟩,ho⟩
      rw [← hmid.coins] at ho
      rw [hce hs hnd hn,hcl ho]
      rfl
end Programs

/-! ## Undoing what was connected -/

section Undo
variable {env : ValidationEnv} {nHeight : Nat} {view view' : UtxoView}
variable {txundo : CTxUndo}
private theorem restoreWrites_zip {coins : CoinMap} {prevouts : List COutPoint}
    (h : prevouts.map coins.lookup = txundo.map some) :
    restoreWrites (prevouts.zip txundo) = prevouts.map fun k => (k, coins.lookup k) := by
  induction prevouts generalizing txundo with
  | nil => rfl
  | cons prevout rest ih =>
    obtain ⟨coin,others,rfl,hc,ho⟩ := map_eq_cons_iff.mp h.symm
    rw [zip_cons_cons,restoreWrites,map_cons,hc]
    exact congrArg _ (ih ho.symm)
variable {tx : CTransaction}
section Undo
variable (h : TxConnected env nHeight tx view txundo view')
  (hfresh : ∀ w ∈ outputWrites env nHeight tx, (replay view.coins (spendWrites tx.spentPrevouts)).lookup w.1 = none)
include h hfresh

theorem TxConnected.clear :
    replay view'.coins (clearWrites (outputWrites env nHeight tx)) =
      replay view.coins (spendWrites tx.spentPrevouts) := by
  have hc : clearWrites (outputWrites env nHeight tx) =
      ((outputWrites env nHeight tx).map Prod.fst).map fun k =>
        (k, (replay view.coins (spendWrites tx.spentPrevouts)).lookup k) := by
    rw [map_map]
    refine map_congr_left fun w hw => ?_
    rw [Function.comp_apply,hfresh w hw]
  rw [h.coins,txWrites,replay_append,hc]
  exact replay_restore _ fun w hw => mem_map_of_mem hw

theorem TxConnected.undo : replay view'.coins (undoWrites env nHeight tx txundo) = view.coins := by
  have hr : restoreWrites (tx.spentPrevouts.zip txundo).reverse =
      tx.spentPrevouts.reverse.map fun k => (k, view.coins.lookup k) := by
    rw [restoreWrites,map_reverse,← restoreWrites,restoreWrites_zip h.found,map_reverse]
  rw [undoWrites,replay_append,h.clear hfresh,hr]
  refine replay_restore _ fun w hw => ?_
  obtain ⟨prevout,hp,rfl⟩ := mem_map.mp hw
  exact mem_reverse.mpr hp
end Undo

private theorem cleanUndo_append {first second : List (CTransaction × CTxUndo)} {coins : CoinMap}
    (hfst : CleanUndo env nHeight first coins)
    (hsnd : CleanUndo env nHeight second (replay coins (undoWritesAll env nHeight first))) :
    CleanUndo env nHeight (first++second) coins := by
  induction first generalizing coins with
  | nil => exact hsnd
  | cons pair rest ih =>
    refine ⟨hfst.1,ih hfst.2 ?_⟩
    rw [← replay_append]
    exact hsnd

variable {vtx : List CTransaction}
theorem TxsConnected.undo {undo : List CTxUndo} (h : TxsConnected env nHeight vtx view undo view')
    (hfresh : OutputsFresh env nHeight vtx view.coins) :
    CleanUndo env nHeight (vtx.zip undo).reverse view'.coins ∧
      replay view'.coins (undoWritesAll env nHeight (vtx.zip undo).reverse) = view.coins := by
  induction h with
  | nil view => exact ⟨trivial,rfl⟩
  | @cons tx rest view mid view' txundo undo first others ih =>
    rw [OutputsFresh,← first.coins] at hfresh
    obtain ⟨hc,hu⟩ := ih hfresh.2
    have hfst : replay mid.coins (undoWrites env nHeight tx txundo) = view.coins := first.undo hfresh.1
    rw [zip_cons_cons,reverse_cons]
    constructor
    · refine cleanUndo_append hc ?_
      rw [hu]
      refine ⟨⟨?_,first.nodup,?_⟩,trivial⟩
      · intro w hw
        rw [first.coins,txWrites,replay_append]
        exact lookup_replay_of_mem _ (nodup_outputWrites env nHeight tx) hw
      · intro prevout hprev
        rw [first.clear hfresh.1,lookup_spendWrites,if_pos hprev]
    · unfold undoWritesAll at hu ⊢
      rw [flatMap_append,replay_append,hu]
      simpa using hfst

theorem TxsConnected.undo_length {undo : List CTxUndo} (h : TxsConnected env nHeight vtx view undo view') :
    undo.length = vtx.length ∧ ∀ pair ∈ vtx.zip undo, pair.2.length = pair.1.spentPrevouts.length := by
  induction h with
  | nil view => simp
  | cons first others ih =>
    have hlen := congrArg length first.found
    rw [length_map,length_map] at hlen
    rw [zip_cons_cons,forall_mem_cons]
    exact ⟨by simp [ih.1],hlen.symm,ih.2⟩

/-- A transaction of positive height leaves coins that can be put back, and so are those it spent. -/
theorem TxConnected.restorable (h : TxConnected env nHeight tx view txundo view') (hv : view.Restorable)
    (hht : 0 < nHeight) (hva : ∀ txout ∈ tx.vout, 0 ≤ txout.nValue) :
    view'.Restorable ∧ ∀ coin ∈ txundo, coin.Restorable := by
  constructor
  · unfold UtxoView.Restorable
    rw [h.coins]
    refine replay_values _ hv fun w hw coin hc => ?_
    rcases mem_append.mp hw with hs | hout
    · obtain ⟨prevout,_,rfl⟩ := mem_map.mp hs
      cases hc
    · obtain ⟨output,hmem,hscr,rfl⟩ := mem_outputWrites.mp hout
      cases hc
      have hval := hva output.1 (fst_mem_of_mem_zipIdx hmem)
      exact ⟨Coin.isSpent_of_nonneg hval,hht,hscr⟩
  · intro coin hc
    have hmem := mem_map_of_mem (f := some) hc
    rw [← h.found] at hmem
    obtain ⟨prevout,_,hget⟩ := mem_map.mp hmem
    exact hv prevout coin hget

theorem TxsConnected.restorable {undo : List CTxUndo} (h : TxsConnected env nHeight vtx view undo view') (hvi : view.Restorable)
    (hht : 0 < nHeight) (hv : ∀ tx ∈ vtx, ∀ txout ∈ tx.vout, 0 ≤ txout.nValue) :
    view'.Restorable ∧ ∀ txundo ∈ undo, ∀ coin ∈ txundo, coin.Restorable := by
  induction h with
  | nil view => exact ⟨hvi,by simp⟩
  | cons first others ih =>
    rw [forall_mem_cons] at hv
    obtain ⟨hmid,hfst⟩ := first.restorable hvi hht hv.1
    obtain ⟨hl,ho⟩ := ih hmid hv.2
    exact ⟨hl,forall_mem_cons.mpr ⟨hfst,ho⟩⟩
variable {block : CBlock} {entry : CBlockIndex} {pprev : IndexChain} {vtxundo : List CTxUndo}
section Block
variable (h : BlockConnected env block entry pprev view vtxundo view')
include h

/-- The coinbase transaction has an empty undo record, which the undo data leaves out. -/
theorem BlockConnected.cons_tail : []::vtxundo.tail = vtxundo := by
  obtain ⟨coinbase,rest,hb⟩ := h.wellFormed
  obtain ⟨mid,htxs,_⟩ := h.txs
  rw [hb.vtx] at htxs
  cases htxs with
  | @cons _ _ _ _ _ txundo undo first others =>
    have hf := first.found
    rw [CTransaction.spentPrevouts,if_pos hb.coinbase] at hf
    rw [map_eq_nil_iff.mp hf.symm,tail_cons]

theorem BlockConnected.zip_undo :
    vtxundo.tail.length + 1 = block.vtx.length ∧
      block.vtx.zip (none::vtxundo.tail.map some) =
        (block.vtx.zip vtxundo).map fun pair => (pair.1, undoRecord pair.1 pair.2) := by
  obtain ⟨coinbase,rest,hb⟩ := h.wellFormed
  obtain ⟨mid,htxs,_⟩ := h.txs
  have hlen := htxs.undo_length.1
  rw [hb.vtx] at htxs hlen ⊢
  cases htxs with
  | @cons _ _ _ _ _ txundo undo first others =>
    refine ⟨hlen,?_⟩
    rw [zip_cons_cons,zip_cons_cons,map_cons,undoRecord,if_pos hb.coinbase,zip_map_right]
    congr 1
    refine map_congr_left fun pair hpair => ?_
    rw [undoRecord,if_neg (by simp [hb.rest pair.1 (of_mem_zip hpair).1])]
    rfl

theorem BlockConnected.disconnectTxs_ok
    (hc : ∀ txundo ∈ vtxundo.tail, ∀ coin ∈ txundo, coin.Restorable) (start : UtxoView) :
    ∃ res mid, (disconnectTxs env entry.nHeight
        (block.vtx.zip (none::vtxundo.tail.map some)).reverse).run cached start =
        .ok (res, mid) ∧
      start.Applied (undoWritesAll env entry.nHeight (block.vtx.zip vtxundo).reverse) mid ∧
      res ≠ .failed ∧
      (CleanUndo env entry.nHeight (block.vtx.zip vtxundo).reverse start.coins → res = .ok) := by
  obtain ⟨mid,htxs,_⟩ := h.txs
  obtain ⟨_,hs⟩ := htxs.undo_length
  have hall : ∀ pair ∈ block.vtx.zip vtxundo, ∀ coin ∈ pair.2, coin.Restorable := by
    intro pair hpair coin hco
    have hmem := (of_mem_zip hpair).2
    rw [← h.cons_tail,mem_cons] at hmem
    rcases hmem with hnil | ht
    · rw [hnil] at hco
      cases hco
    · exact hc pair.2 ht coin hco
  rw [h.zip_undo.2,← map_reverse]
  refine Lcryp.disconnectTxs_ok start env entry.nHeight ?_ ?_
  · exact fun pair hpair => hall pair (mem_reverse.mp hpair)
  · exact fun pair hpair => hs pair (mem_reverse.mp hpair)
end Block

theorem disconnectBlock_run {handler : CoinsHandler UtxoView} {undo : CBlockUndo} {start mid : UtxoView}
    {res : DisconnectResult} (hlen : undo.length + 1 = block.vtx.length)
    (htxs : (disconnectTxs env entry.nHeight (block.vtx.zip (none::undo.map some)).reverse).run
      handler start = .ok (res, mid)) (hres : res ≠ .failed)
    (hset : (setBestBlock (prevHash pprev)).run handler mid =
      .ok ((), { mid with bestBlock := prevHash pprev })) :
    (disconnectBlock env (some undo) block entry pprev).run handler start =
      .ok (res, { mid with bestBlock := prevHash pprev }) := by
  simp only [disconnectBlock,hlen,ne_eq,not_true_eq_false,if_false]
  rw [run_bind_of_ok htxs,if_neg hres,run_bind_of_ok hset]
  rfl
end Undo

/-- If no output of the block overwrote an unspent coin, and the coins it spent have positive heights and
spendable scripts, disconnecting it restores the view. -/
theorem disconnectBlock_undoes_connectBlock (env : ValidationEnv) (fScriptChecks : Bool)
    (block : CBlock) (entry : CBlockIndex) (pprev : IndexChain) (view view' : UtxoView) (undo : CBlockUndo)
    (hconnect : (connectBlock env fScriptChecks false block entry pprev).run handle view =
      .ok (some undo, view')) (hfresh : OutputsFresh env entry.nHeight block.vtx view.coins)
    (hundo : ∀ txundo ∈ undo, ∀ coin ∈ txundo, coin.Restorable) :
    (disconnectBlock env (some undo) block entry pprev).run handle view' = .ok (.ok, view) := by
  rcases connectBlock_ok hconnect with ⟨_,hnone,_⟩ | ⟨vtxundo,hresult,hconn⟩
  · cases hnone
  cases hresult
  obtain ⟨mid,htxs,hview'⟩ := hconn.txs
  have hcoins : view'.coins = mid.coins := by rw [hview']
  obtain ⟨hclean,hback⟩ := htxs.undo hfresh
  obtain ⟨res,last,hrun,happ,hres,hok⟩ := hconn.disconnectTxs_ok hundo view'
  rw [hcoins] at hok
  rw [disconnectBlock_run hconn.zip_undo.1 (run_of_guard hrun) hres rfl,hok hclean]
  have hlast : { last with bestBlock := prevHash pprev } = view := by
    apply UtxoView.ext
    · rw [happ.coins,hcoins,hback]
    · exact hconn.best.symm
  rw [hlast]

theorem accessByTxidFrom_none {view : UtxoView} {txid : Uint256} (h : ∀ n, view.coins.lookup ⟨txid, n⟩ = none)
    (left n : Nat) : (accessByTxidFrom txid left n).run handle view = .ok (Coin.empty, view) := by
  induction left generalizing n with
  | zero => rfl
  | succ left ih =>
    rw [accessByTxidFrom,run_bind_of_ok rfl,h n]
    exact ih (n+1)

theorem applyTxInUndo_failed {view : UtxoView} (undo : Coin) (out : COutPoint)
    (hht : undo.nHeight = 0) (h : ∀ n, view.coins.lookup ⟨out.hash, n⟩ = none) :
    (applyTxInUndo undo out).run handle view = .ok (.failed, view) := by
  have hc : (completeUndo undo out.hash).run handle view = .ok (none, view) := by
    rw [completeUndo,if_pos hht,accessByTxid,run_bind_of_ok (accessByTxidFrom_none h _ _)]
    rfl
  rw [applyTxInUndo,run_bind_of_ok rfl,run_bind_of_ok hc]
  rfl

/-! ## A block that spends one coin -/

def sampleParent : CBlockIndex := { mainGenesis with phashBlock := 1#256, nHeight := 1 }
def sampleCoin : Coin := ⟨⟨10, [0x51]⟩, false, nHeight⟩
def coinView : UtxoView := { empty.insert ⟨7#256, 0⟩ (sampleCoin nHeight) rfl with bestBlock := 1#256 }
def spendTx : CTransaction where
  vin := [⟨⟨7#256, 0⟩, [], sequenceFinal, []⟩]
  vout := [⟨10, [0x51]⟩]
  nVersion := 3
  nLockTime := 0#32

def spendBlock : CBlock := sampleBlock 2#32 [sampleCoinbase 2 [0x52, 0] (50*coin), spendTx]
def spendEntry : CBlockIndex :=
  newBlockIndex (sampleEnv.getHash spendBlock.header) [sampleParent] spendBlock.header
def connectSpend : Except ValidationStop (Option CBlockUndo × UtxoView) :=
  (connectBlock sampleEnv true false spendBlock spendEntry [sampleParent]).run handle (coinView nHeight)

private theorem connectSpend_ok (nHeight : Nat)
    (h : ((connectSpend nHeight).toOption.any fun out =>
      out.1 = some [[sampleCoin nHeight]] ∧ out.2.coins.keys = {⟨2#256, 0⟩, ⟨3#256, 0⟩}) = true) :
    ∃ view', connectSpend nHeight = .ok (some [[sampleCoin nHeight]], view') ∧
      view'.coins.keys = {⟨2#256, 0⟩, ⟨3#256, 0⟩} := by
  cases hrun : connectSpend nHeight with
  | error stop => simp [hrun,Except.toOption] at h
  | ok out =>
    obtain ⟨result,view'⟩ := out
    simp only [hrun,Except.toOption,Option.any_some,decide_eq_true_eq] at h
    exact ⟨view',by rw [h.1],h.2⟩

theorem connectSpend_disconnects :
    ∃ view', connectSpend 1 = .ok (some [[sampleCoin 1]], view') ∧
      (disconnectBlock sampleEnv (some [[sampleCoin 1]]) spendBlock spendEntry [sampleParent]).run
        handle view' = .ok (.ok, coinView 1) := by
  obtain ⟨view',hconn,_⟩ := connectSpend_ok 1 (by decide +kernel)
  refine ⟨view',hconn,?_⟩
  refine disconnectBlock_undoes_connectBlock sampleEnv true spendBlock spendEntry [sampleParent]
    (coinView 1) view' [[sampleCoin 1]] hconn (by decide +kernel) ?_
  intro txundo htxundo coin hcoin
  obtain rfl := mem_singleton.mp htxundo
  obtain rfl := mem_singleton.mp hcoin
  exact ⟨rfl,Nat.one_pos,rfl⟩

/-- A spent coin of height 0 cannot be put back when its transaction has no other output left. -/
theorem connectSpend_zero_fails :
    ∃ view' last, connectSpend 0 = .ok (some [[sampleCoin 0]], view') ∧
      OutputsFresh sampleEnv spendEntry.nHeight spendBlock.vtx (coinView 0).coins ∧
      (disconnectBlock sampleEnv (some [[sampleCoin 0]]) spendBlock spendEntry [sampleParent]).run
        handle view' = .ok (.failed, last) := by
  obtain ⟨view',hconn,hkeys⟩ := connectSpend_ok 0 (by decide +kernel)
  refine ⟨view',view'.erase ⟨3#256,0⟩,hconn,by decide +kernel,?_⟩
  have hnone : ∀ n, (view'.erase ⟨3#256,0⟩).coins.lookup ⟨7#256,n⟩ = none := by
    intro n
    rw [erase,lookup_write]
    split
    · rfl
    · rw [Finmap.lookup_eq_none,← Finmap.mem_keys,hkeys]
      simp
  have happly := applyTxInUndo_failed (sampleCoin 0) ⟨7#256,0⟩ rfl hnone
  have hinps : (undoInputs [(⟨7#256,0⟩, sampleCoin 0)]).run handle
      (view'.erase ⟨3#256,0⟩) = .ok (.failed, view'.erase ⟨3#256,0⟩) := by
    rw [undoInputs,run_bind_of_ok happly]
    rfl
  have houts : (disconnectOutputs (sampleEnv.txid spendTx) spendEntry.nHeight spendTx.isCoinBase
      spendTx.vout.zipIdx).run handle view' =
        .ok (isOutput ⟨10,[0x51]⟩ spendEntry.nHeight false (view'.coins.lookup ⟨3#256,0⟩) && true,
          view'.erase ⟨3#256,0⟩) := rfl
  have htx : (disconnectTx sampleEnv spendEntry.nHeight spendTx (some [sampleCoin 0])).run
      handle view' = .ok (.failed, view'.erase ⟨3#256,0⟩) := by
    rw [disconnectTx,run_bind_of_ok houts]
    exact run_bind_of_ok hinps
  have htxs : (disconnectTxs sampleEnv spendEntry.nHeight
      (spendBlock.vtx.zip (none::[[sampleCoin 0]].map some)).reverse).run handle view' =
        .ok (.failed, view'.erase ⟨3#256,0⟩) :=
    run_bind_of_ok htx
  exact run_bind_of_ok htxs
end Lcryp
