import Lcryp.Coins.Database
import Lcryp.Validation.Disconnect

/-!
# Replaying blocks

`Chainstate::ReplayBlocks` takes a database that a flush left between two tips.
-/
namespace Lcryp
open Interaction WriteLog
/-- What `ReplayBlocks` reads besides the database. -/
structure BlockStorage where
  /-- `m_block_index`. -/
  blockIndex : BlockMap
  readBlockFromDisk : CBlockIndex → Option CBlock
  undoReadFromDisk : CBlockIndex → Option CBlockUndo
  /-- The null hash stands for no block. -/
  noNull : blockIndex.lookup 0#256 = none

/-- Spends coins and does not care whether they were there. -/
def spendAny : List COutPoint → CoinsProgram Unit
  | [] => return ()
  | prevout::rest => do
      let _ ← spendCoin prevout
      spendAny rest

def rollforwardTxs (env : ValidationEnv) (nHeight : Nat) : List CTransaction → CoinsProgram Unit
  | [] => return ()
  | tx::rest => do
      (if tx.isCoinBase then pure () else spendAny tx.prevouts)
      addCoins env tx nHeight true
      rollforwardTxs env nHeight rest

variable (env : ValidationEnv) (disk : BlockStorage)
def rollforwardBlock (pindex : CBlockIndex) : CoinsProgram Bool :=
  match disk.readBlockFromDisk pindex with
  | none => return false
  | some block => do
      rollforwardTxs env pindex.nHeight block.vtx
      return true

/-- The roll-forward loop of `ReplayBlocks` over the heights still to come. -/
def rollforward (env : ValidationEnv) (disk : BlockStorage) (pindexNew : IndexChain) :
    List Nat → CoinsProgram Bool
  | [] => return true
  | nHeight::rest =>
    match IndexChain.getAncestor pindexNew nHeight with
    | [] => .throw .assertion
    | pindex::_ => do
        let done ← rollforwardBlock env disk pindex
        if done then rollforward env disk pindexNew rest else return false

def rollback (env : ValidationEnv) (disk : BlockStorage) (pindexFork : IndexChain) :
    IndexChain → CoinsProgram Bool
  | [] => if pindexFork = [] then return true else .throw .assertion
  | entry::pprev =>
    if entry::pprev = pindexFork then return true
    else if entry.nHeight > 0 then
      match disk.readBlockFromDisk entry with
      | none => return false
      | some block => do
          let res ← disconnectBlock env (disk.undoReadFromDisk entry) block entry pprev
          if res = .failed then return false else rollback env disk pindexFork pprev
    else rollback env disk pindexFork pprev

/-- The walk of `LastCommonAncestor` from equal heights; nothing is its failed assertion. -/
def commonAncestor : IndexChain → IndexChain → Option IndexChain
  | a::pa, b::pb => if a::pa = b::pb then some (a::pa) else commonAncestor pa pb
  | [], [] => some []
  | _, _ => none

def lastCommonAncestor (pa pb : IndexChain) : Option IndexChain :=
  match pa, pb with
  | a::_, b::_ =>
    if a.nHeight > b.nHeight then commonAncestor (IndexChain.getAncestor pa b.nHeight) pb
    else if b.nHeight > a.nHeight then commonAncestor pa (IndexChain.getAncestor pb a.nHeight)
    else commonAncestor pa pb
  | _, _ => none

/-- The end of `ReplayBlocks` before the flush, from the height of the fork. -/
def rollforwardTo (hashNew : Uint256) (pindexNew : BlockNode) (nForkHeight : Nat) : CoinsProgram Bool := do
  let done ← rollforward env disk pindexNew.chain
    (List.range' (nForkHeight+1) (pindexNew.index.nHeight-nForkHeight))
  if done then do
    setBestBlock hashNew
    return true
  else return false

/-- What `ReplayBlocks` does to its cache for two head blocks; the answer is whether it flushes. -/
def replayHeads (hashNew hashOld : Uint256) : CoinsProgram Bool :=
  match disk.blockIndex.lookup hashNew with
  | none => return false
  | some pindexNew =>
    if hashOld = 0#256 then rollforwardTo env disk hashNew pindexNew 0
    else
      match disk.blockIndex.lookup hashOld with
      | none => return false
      | some pindexOld =>
        match lastCommonAncestor pindexOld.chain pindexNew.chain with
        | some (fork::below) => do
            let done ← rollback env disk (fork::below) pindexOld.chain
            if done then rollforwardTo env disk hashNew pindexNew fork.nHeight else return false
        | _ => .throw .assertion

/-- `ReplayBlocks`; the order is the one in which the flush walks the cache. -/
def replayBlocks (policy : BatchPolicy) (order : CCoinsViewCache → List COutPoint)
    (db : CCoinsViewDB) : Except ValidationStop (Bool × CCoinsViewDB) :=
  match db.headBlocks with
  | [] => .ok (true, db)
  | [hashNew, hashOld] =>
    match (replayHeads env disk hashNew hashOld).run CoinsStack.handle
        (CoinsStack.fresh 1 db.toUtxoView) with
    | .ok (true, ⟨[cache], _⟩) =>
      (db.batchWrite policy cache.hashBlock (cache.entriesIn (order cache))).map (true, ·)
    | .ok _ => .ok (false, db)
    | .error stop => .error stop
  | _ => .ok (false, db)

def blockWrites (nHeight : Nat) (vtx : List CTransaction) : CoinWrites :=
  vtx.flatMap (txWrites env nHeight)

variable {vtx : List CTransaction}
theorem TxsConnected.coins {env : ValidationEnv} {nHeight : Nat}
    {undo : List CTxUndo} {view view' : UtxoView} (h : TxsConnected env nHeight vtx view undo view') :
    view'.coins = replay view.coins (blockWrites env nHeight vtx) := by
  induction h with
  | nil view => rfl
  | cons first others ih =>
    rw [ih,first.coins,← replay_append]
    rfl

variable (view : UtxoView)
theorem spendAny_ok (prevouts : List COutPoint) :
    ∃ view', (spendAny prevouts).run UtxoView.cached view = .ok ((), view') ∧
      view.Applied (spendWrites prevouts) view' := by
  induction prevouts generalizing view with
  | nil => exact ⟨view,rfl,.nil view⟩
  | cons prevout rest ih =>
    have hfst : view.Applied [(prevout, none)] (view.erase prevout) := ⟨rfl,rfl⟩
    obtain ⟨view',hr,happ⟩ := ih (view.erase prevout)
    refine ⟨view',?_,hfst.append happ⟩
    exact hr

theorem addOutputs_check_ok (txid : Uint256) (nHeight : Nat) (fCoinbase : Bool)
    {outputs : List (CTxOut × Nat)} (hv : ∀ output ∈ outputs, 0 ≤ output.1.nValue) :
    ∃ view', (addOutputs txid nHeight fCoinbase true outputs).run UtxoView.cached view = .ok ((), view') ∧
      view.Applied (outputs.flatMap (outputWrite txid nHeight fCoinbase)) view' := by
  induction outputs generalizing view with
  | nil => exact ⟨view,rfl,.nil view⟩
  | cons output rest ih =>
    obtain ⟨txout,i⟩ := output
    rw [List.forall_mem_cons] at hv
    have hu : (⟨txout,fCoinbase,nHeight⟩ : Coin).isSpent = false := Coin.isSpent_of_nonneg hv.1
    have hh : (haveCoin ⟨txid,i⟩).run UtxoView.cached view =
        .ok ((view.coins.lookup ⟨txid,i⟩).isSome, view) := rfl
    obtain ⟨mid,hadd,hmid⟩ := UtxoView.run_addCoin view ⟨txid,i⟩ hu
    obtain ⟨view',hr,happ⟩ := ih mid hv.2
    refine ⟨view',?_,hmid.append happ⟩
    refine (Program.run_bind_of_ok hh).trans ?_
    rw [Program.run_bind_of_ok hadd]
    exact hr

theorem rollforwardTxs_ok (env : ValidationEnv) (nHeight : Nat)
    (hv : ∀ tx ∈ vtx, ∀ txout ∈ tx.vout, 0 ≤ txout.nValue) :
    ∃ view', (rollforwardTxs env nHeight vtx).run UtxoView.cached view = .ok ((), view') ∧
      view.Applied (blockWrites env nHeight vtx) view' := by
  induction vtx generalizing view with
  | nil => exact ⟨view,rfl,.nil view⟩
  | cons tx rest ih =>
    rw [List.forall_mem_cons] at hv
    have hs : (if tx.isCoinBase then pure () else spendAny tx.prevouts) = spendAny tx.spentPrevouts := by
      unfold CTransaction.spentPrevouts
      split
      · rfl
      · rfl
    obtain ⟨spent,hsp,happ⟩ := spendAny_ok view tx.spentPrevouts
    obtain ⟨mid,hadd,hmid⟩ := addOutputs_check_ok spent (env.txid tx) nHeight tx.isCoinBase
      fun output hout => hv.1 output.1 (List.fst_mem_of_mem_zipIdx hout)
    obtain ⟨view',hr,hl⟩ := ih mid hv.2
    refine ⟨view',?_,(happ.append hmid).append hl⟩
    rw [rollforwardTxs,hs,Program.run_bind_of_ok hsp]
    refine (Program.run_bind_of_ok hadd).trans ?_
    exact hr
end Lcryp
