import Lcryp.Validation.Connected

/-!
# Blocks that overwrite no coin

A block is fresh on a map of coins when none of its outputs is unspent at the moment it is added.
-/
namespace Lcryp
open Interaction WriteLog UtxoView List
open Program hiding pure
/-- No output of the transactions is unspent when it is added. -/
def OutputsFresh (env : ValidationEnv) (nHeight : Nat) : List CTransaction → CoinMap → Prop
  | [], _ => True
  | tx::rest, coins =>
    (∀ w ∈ outputWrites env nHeight tx, (replay coins (spendWrites tx.spentPrevouts)).lookup w.1 = none) ∧
      OutputsFresh env nHeight rest (replay coins (txWrites env nHeight tx))

instance (env : ValidationEnv) (nHeight : Nat) : (vtx : List CTransaction) → (coins : CoinMap) →
    Decidable (OutputsFresh env nHeight vtx coins)
  | [], _ => isTrue trivial
  | tx::rest, coins =>
    have : Decidable (OutputsFresh env nHeight rest (replay coins (txWrites env nHeight tx))) :=
      instDecidableOutputsFresh env nHeight rest _
    inferInstanceAs (Decidable (_ ∧ _))

def OverwritesNothing {α : Type} (p : CoinsProgram α) : Prop :=
  p.Calls fun op => ∀ view, UtxoView.overwriteFree op view = true

section Sealed
variable {view : UtxoView}
private theorem OverwritesNothing.run_sealed {α : Type} {p : CoinsProgram α} (h : OverwritesNothing p)
    (out : α × UtxoView) (hrun : p.run handle view = .ok out) : p.run sealed view = .ok out :=
  (run_guard_of_calls view h).trans hrun

private theorem Reads.overwritesNothing {α : Type} {p : CoinsProgram α} (h : Reads p) :
    OverwritesNothing p := by
  refine h.mono ?_
  intro op hr v
  cases op with
  | addCoin outpoint coin possibleOverwrite => cases hr
  | _ => rfl

private theorem Reads.run_bind_sealed {α β : Type} {p : CoinsProgram α} {f : α → CoinsProgram β}
    {out : β × UtxoView} (hr : Reads p) (h : (p.bind f).run handle view = .ok out)
    (hn : ∀ a, p.run handle view = .ok (a, view) → (f a).run handle view = .ok out →
      (f a).run sealed view = .ok out) : (p.bind f).run sealed view = .ok out := by
  obtain ⟨a,hp,hf⟩ := reads_bind_ok hr h
  exact (run_bind_of_ok (hr.overwritesNothing.run_sealed _ hp)).trans (hn a hp hf)

private theorem spendInputs_overwritesNothing (prevouts : List COutPoint) :
    OverwritesNothing (spendInputs prevouts) := by
  induction prevouts with
  | nil => exact calls_pure _
  | cons prevout rest ih =>
    refine calls_bind ((calls_perform _).mpr fun _ => rfl) fun moved => ?_
    cases moved with
    | none => exact calls_throw _
    | some coin => exact calls_bind ih fun _ => calls_pure _

variable {nHeight : Nat}
private theorem addOutputs_sealed {txid : Uint256} {fCoinbase : Bool} {outputs : List (CTxOut × Nat)}
    {out : Unit × UtxoView} (hnd : (outputs.map Prod.snd).Nodup)
    (hf : ∀ w ∈ outputs.flatMap (outputWrite txid nHeight fCoinbase), view.coins.lookup w.1 = none)
    (h : (addOutputs txid nHeight fCoinbase false outputs).run handle view = .ok out) :
    (addOutputs txid nHeight fCoinbase false outputs).run sealed view = .ok out := by
  induction outputs generalizing view with
  | nil => exact h
  | cons output rest ih =>
    rw [map_cons,nodup_cons] at hnd
    rw [flatMap_cons,forall_mem_append] at hf
    refine run_bind_transfer h (fun _ hfl => hfl) (fun flag mid hfl h => ?_)
    cases hfl
    refine run_bind_transfer h (fun _ hadd => ?_) (fun _ mid' hadd h => ?_)
    · refine (run_perform _ _).trans (guard_eq_ok.mpr ⟨?_,?_⟩)
      rotate_left
      · exact (run_perform _ _).symm.trans hadd
      cases hscr : output.1.scriptPubKey.isUnspendable with
      | true => simp [overwriteFree,hscr]
      | false =>
        have hn := hf.1
        simp only [outputWrite,coinWrites,hscr] at hn
        simpa [overwriteFree] using .inr (hn _ (mem_singleton.mpr rfl))
    · obtain ⟨_,hc,_⟩ := addCoin_ok hadd
      refine ih hnd.2 ?_ h
      intro w hw
      rw [hc,lookup_replay_of_notMem]
      · exact hf.2 w hw
      · -- the outputs to come have other indices
        have hoth := outputWrite_key_ne hnd.1 hw
        unfold coinWrites
        split
        · exact not_mem_nil
        · exact fun hmem => hoth (mem_singleton.mp hmem)

variable {env : ValidationEnv} {tx : CTransaction}
private theorem updateCoins_sealed
    {out : CTxUndo × UtxoView}
    (hf : ∀ w ∈ outputWrites env nHeight tx,
      (replay view.coins (spendWrites tx.spentPrevouts)).lookup w.1 = none)
    (h : (updateCoins env tx nHeight).run handle view = .ok out) :
    (updateCoins env tx nHeight).run sealed view = .ok out := by
  unfold updateCoins at h ⊢
  rw [spendInputs_spentPrevouts] at h ⊢
  refine run_bind_transfer h (spendInputs_overwritesNothing _).run_sealed
    (fun vprevout spent hspend h => ?_)
  refine run_bind_transfer h (fun _ hadd => ?_) (fun _ _ _ h => h)
  refine addOutputs_sealed ?_ ?_ hadd
  · rw [zipIdx_map_snd]
    exact nodup_range'
  · rw [(spendInputs_ok hspend).2.2.1]
    exact hf
variable {fScriptChecks : Bool} {out : ConnectState × UtxoView} {pindex : IndexChain}
  {flags : BitVec 32} {st : ConnectState}

private theorem connectTx_sealed
    (hf : ∀ w ∈ outputWrites env nHeight tx,
      (replay view.coins (spendWrites tx.spentPrevouts)).lookup w.1 = none)
    (h : (connectTx env fScriptChecks pindex nHeight flags st tx).run handle view = .ok out) :
    (connectTx env fScriptChecks pindex nHeight flags st tx).run sealed view = .ok out := by
  refine Reads.run_bind_sealed (connectInputs_reads env pindex nHeight st.nFees tx) h fun _ _ h => ?_
  refine Reads.run_bind_sealed (getTransactionSigOpCost_reads env tx flags) h fun _ _ h => ?_
  refine Reads.run_bind_sealed (calls_throwIf _ _) h fun _ _ h => ?_
  refine Reads.run_bind_sealed (connectScripts_reads env fScriptChecks flags tx) h fun _ _ h => ?_
  exact run_bind_transfer h (fun _ hupd => updateCoins_sealed hf hupd) (fun _ _ _ h => h)

private theorem connectTxs_sealed {vtx : List CTransaction} (hf : OutputsFresh env nHeight vtx view.coins)
    (h : (connectTxs env fScriptChecks pindex nHeight flags st vtx).run handle view = .ok out) :
    (connectTxs env fScriptChecks pindex nHeight flags st vtx).run sealed view = .ok out := by
  induction vtx generalizing st view with
  | nil => exact h
  | cons tx rest ih =>
    refine run_bind_transfer h (fun _ hfst => connectTx_sealed hf.1 hfst) (fun st' mid hfst h => ?_)
    obtain ⟨txundo,hc,_⟩ := connectTx_ok hfst
    refine ih ?_ h
    rw [hc.coins]
    exact hf.2

variable {out : Option CBlockUndo × UtxoView} {entry : CBlockIndex} {pprev : IndexChain}
private theorem connectBody_sealed {block : CBlock} (hf : OutputsFresh env entry.nHeight block.vtx view.coins)
    (h : (connectBody env fScriptChecks false block entry pprev).run handle view = .ok out) :
    (connectBody env fScriptChecks false block entry pprev).run sealed view = .ok out := by
  refine Reads.run_bind_sealed (calls_throwIf _ _) h fun _ _ h => ?_
  refine Reads.run_bind_sealed (bip30Scan_reads env block entry pprev) h fun _ _ h => ?_
  refine Reads.run_bind_sealed (calls_throwIf _ _) h fun _ _ h => ?_
  refine run_bind_transfer h (fun _ htxs => connectTxs_sealed hf htxs) (fun st _ _ h => ?_)
  refine OverwritesNothing.run_sealed ?_ _ h
  unfold finishBlock
  split
  · exact calls_throw _
  · refine calls_bind (calls_throwIf _ _) fun _ => ?_
    refine calls_bind (calls_throwIf _ _) fun _ => ?_
    exact calls_bind ((calls_perform _).mpr fun _ => rfl) fun _ =>
      calls_pure _

theorem connectBlock_sealed {block : CBlock}
    (hf : entry.phashBlock ≠ env.params.hashGenesisBlock → OutputsFresh env entry.nHeight block.vtx view.coins)
    (h : (connectBlock env fScriptChecks false block entry pprev).run handle view = .ok out) :
    (connectBlock env fScriptChecks false block entry pprev).run sealed view = .ok out := by
  refine Reads.run_bind_sealed (calls_throwIf _ _) h fun _ hhash h => ?_
  have hset : ∀ hash, OverwritesNothing (setBestBlock hash) := fun hash =>
    (calls_perform _).mpr fun _ => rfl
  refine Reads.run_bind_sealed (connectCheck_reads _) h fun _ _ h => ?_
  refine Reads.run_bind_sealed ((calls_perform _).mpr rfl) h fun _ _ h => ?_
  refine Reads.run_bind_sealed (calls_throwIf _ _) h fun _ _ h => ?_
  by_cases hgen : env.getHash block.header = env.params.hashGenesisBlock
  · rw [if_pos hgen] at h ⊢
    exact run_bind_transfer h (hset _).run_sealed (fun _ _ _ h => h)
  · rw [if_neg hgen] at h ⊢
    exact connectBody_sealed (hf (by rwa [bne_eq_false_iff_eq.mp (run_throwIf.mp hhash).1])) h
end Sealed
end Lcryp
