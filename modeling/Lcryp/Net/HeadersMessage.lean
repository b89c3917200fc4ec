import Lcryp.Net.HeadersSync

/-!
# Headers messages

`ProcessHeadersMessage` decides what happens to the headers a peer sends.
-/
namespace Lcryp
open HeadersSyncState Run BitVec Bool
def maxHeadersResults : Nat := 2000
def maxBlocksToAnnounce : Nat := 8

structure ChainView where
  blockman : BlockManager
  /-- `ActiveChain()`, from genesis to tip. -/
  activeChain : List CBlockIndex
  adjustedTime : Int

structure HeadersMessage where
  headers : List CBlockHeader
  view : ChainView
  salt : SyncSalt

structure PeerEnv extends HeaderEnv where
  /-- `NetPermissionFlags::NoBan`. -/
  noBan : Bool

inductive HeadersOutcome
  | syncReset
  | misbehaving (howmuch : Nat) (message : String)
  | syncContinued
  | fewUnconnectingHeaders (headers : List CBlockHeader)
  | lowWorkDropped
  | processNewBlockHeaders (headers : List CBlockHeader)
deriving DecidableEq

variable (env : HeaderEnv) (headers : List CBlockHeader)
def hasValidProofOfWork : Bool :=
  headers.all fun header => checkProofOfWork env.params (env.getHash header) header.nBits
def calculateHeadersWork : ArithUint256 :=
  headers.foldl (fun totalWork header => totalWork + getBlockProof header.nBits) 0#256

/-- The loop of `CheckHeadersAreContinuous`; a null hash stands for no previous header. -/
def headersContinueFrom (env : HeaderEnv) : Uint256 → List CBlockHeader → Bool
  | _, [] => true
  | hashLastBlock, header::rest =>
    if hashLastBlock ≠ 0#256 ∧ header.hashPrevBlock ≠ hashLastBlock then false
    else headersContinueFrom env (env.getHash header) rest

def checkHeadersAreContinuous : Bool := headersContinueFrom env 0#256 headers
def checkHeadersPoW : Option HeadersOutcome :=
  if !hasValidProofOfWork env headers then
    some (.misbehaving 100 "header with invalid proof of work")
  else if !checkHeadersAreContinuous env headers then
    some (.misbehaving 20 "non-continuous headers sequence")
  else none

def getAntiDoSWorkThreshold (params : ConsensusParams) (view : ChainView) : ArithUint256 :=
  let nearChaintipWork := match view.activeChain.getLast? with
    | none => 0#256
    | some tip =>
      let recent := 144#256 * getBlockProof tip.nBits
      tip.nChainWork - (if tip.nChainWork < recent then tip.nChainWork else recent)
  if nearChaintipWork < params.nMinimumChainWork then params.nMinimumChainWork
  else nearChaintipWork

variable (view : ChainView)
def isAncestorOfBestHeaderOrTip : Option BlockNode → Bool
  | none => false
  | some header =>
    let hash := some header.index.phashBlock
    ((view.blockman.bestHeader.bind view.blockman.blockIndex.lookup).any fun best =>
      decide ((IndexChain.getAncestor best.chain header.index.nHeight).head?.map
        CBlockIndex.phashBlock = hash)) ||
    decide ((view.activeChain[header.index.nHeight]?).map CBlockIndex.phashBlock = hash)

def isContinuationOfLowWorkHeadersSync (sync : Option HeadersSyncState)
    (headers : List CBlockHeader) : Bool × List CBlockHeader × Option HeadersSyncState :=
  match sync with
  | none => (false, headers, none)
  | some s =>
    let processed := processNextHeaders env s headers (headers.length == maxHeadersResults)
    let sync' := if processed.2.downloadState = .final then none else some processed.2
    (processed.1.success, if processed.1.success then processed.1.powValidatedHeaders else headers, sync')

def tryLowWorkHeadersSync (salt : SyncSalt) (chainStart : BlockNode) (headers : List CBlockHeader)
    (sync : Option HeadersSyncState) : Bool × List CBlockHeader × Option HeadersSyncState :=
  let totalWork := chainStart.index.nChainWork + calculateHeadersWork headers
  let minimumChainWork := getAntiDoSWorkThreshold env.params view
  if totalWork < minimumChainWork then
    if headers.length = maxHeadersResults then
      isContinuationOfLowWorkHeadersSync env
        (some (new chainStart minimumChainWork view.adjustedTime salt)) headers
    else (true, [], sync)
  else (false, headers, sync)

variable (env : PeerEnv)

variable (msg : HeadersMessage)

variable (sync : Option HeadersSyncState)

def processHeadersMessage : HeadersOutcome × Option HeadersSyncState :=
  if msg.headers.isEmpty then (.syncReset, none)
  else
    match checkHeadersPoW env.toHeaderEnv msg.headers with
    | some penalty => (penalty, sync)
    | none =>
      let continued := isContinuationOfLowWorkHeadersSync env.toHeaderEnv sync msg.headers
      match continued.2.1 with
      | [] => (.syncContinued, continued.2.2)
      | first::rest =>
        let headers := first::rest
        match msg.view.blockman.blockIndex.lookup first.hashPrevBlock with
        | none =>
          if msg.headers.length ≤ maxBlocksToAnnounce then
            (.fewUnconnectingHeaders headers, continued.2.2)
          else (.misbehaving 10 "invalid header received", continued.2.2)
        | some chainStart =>
          let lastReceivedHeader := msg.view.blockman.blockIndex.lookup (env.getHash (headers.getLastD first))
          let alreadyValidatedWork := continued.1 ||
            isAncestorOfBestHeaderOrTip msg.view lastReceivedHeader || env.noBan
          if alreadyValidatedWork then (.processNewBlockHeaders headers, continued.2.2)
          else
            let tried := tryLowWorkHeadersSync env.toHeaderEnv msg.view msg.salt chainStart
              headers continued.2.2
            if tried.1 then (.lowWorkDropped, tried.2.2)
            else (.processNewBlockHeaders tried.2.1, tried.2.2)

/-- A synchronisation in progress takes the message. -/
def SyncContinues (s : HeadersSyncState) : Prop :=
  (processNextHeaders env.toHeaderEnv s msg.headers
    (msg.headers.length == maxHeadersResults)).1.success = true

/-- The vector was released by a synchronisation, or ends in a block already on the best chains,
or claims enough work. -/
def HandoverJustified (handed : List CBlockHeader) : Prop :=
  (∃ s, sync = some s ∧ SyncContinues env msg s ∧
    handed = (processNextHeaders env.toHeaderEnv s msg.headers
      (msg.headers.length == maxHeadersResults)).1.powValidatedHeaders) ∨
  (∃ last, handed.getLast? = some last ∧ isAncestorOfBestHeaderOrTip msg.view
    (msg.view.blockman.blockIndex.lookup (env.getHash last)) = true) ∨
  ∃ first chainStart, handed.head? = some first ∧
    msg.view.blockman.blockIndex.lookup first.hashPrevBlock = some chainStart ∧
    getAntiDoSWorkThreshold env.params msg.view ≤ chainStart.index.nChainWork + calculateHeadersWork handed

/-- A full batch of low work, outside of a synchronisation, that a new one refuses at once. -/
structure RefusedFirstBatch
    (first last : CBlockHeader) (chainStart : BlockNode) :
    Prop where
  first_eq : msg.headers.head? = some first
  last_eq : msg.headers.getLast? = some last
  full : msg.headers.length = maxHeadersResults
  valid : checkHeadersPoW env.toHeaderEnv msg.headers = none
  not_continued : ∀ s, sync = some s → ¬ SyncContinues env msg s
  connects : msg.view.blockman.blockIndex.lookup first.hashPrevBlock = some chainStart
  not_ancestor : isAncestorOfBestHeaderOrTip msg.view
    (msg.view.blockman.blockIndex.lookup (env.getHash last)) = false
  low_work : chainStart.index.nChainWork + calculateHeadersWork msg.headers <
    getAntiDoSWorkThreshold env.params msg.view
  refused : ¬ PresyncAccepts env.toHeaderEnv chainStart msg.view.adjustedTime msg.salt msg.headers

variable {env : PeerEnv} {msg : HeadersMessage} {sync : Option HeadersSyncState}
theorem isContinuation_of_not_continues (h : ∀ s, sync = some s → ¬ SyncContinues env msg s) :
    ∃ sync', isContinuationOfLowWorkHeadersSync env.toHeaderEnv sync msg.headers =
      (false, msg.headers, sync') := by
  cases sync with
  | none => exact ⟨none,rfl⟩
  | some s =>
    have hs : (processNextHeaders env.toHeaderEnv s msg.headers
        (msg.headers.length == maxHeadersResults)).1.success = false := by
      simpa [SyncContinues] using h s rfl
    simp [isContinuationOfLowWorkHeadersSync,hs]

variable {chainStart : BlockNode} {headers : List CBlockHeader} {view : ChainView}
theorem tryLowWorkHeadersSync_full {env : HeaderEnv} (salt : SyncSalt) (sync : Option HeadersSyncState)
    (hf : headers.length = maxHeadersResults)
    (hlow : chainStart.index.nChainWork + calculateHeadersWork headers <
      getAntiDoSWorkThreshold env.params view) :
    let r := tryLowWorkHeadersSync env view salt chainStart headers sync
    (r.1 = true ↔ PresyncAccepts env chainStart view.adjustedTime salt headers) ∧
      (r.1 = false → r.2.1 = headers) := by
  have hne : headers ≠ [] := by
    rintro rfl
    simp [maxHeadersResults] at hf
  rw [← processNextHeaders_new_success_iff env chainStart (getAntiDoSWorkThreshold env.params view)
    view.adjustedTime salt headers (headers.length == maxHeadersResults) hne]
  simp only [tryLowWorkHeadersSync,if_pos hlow,if_pos hf,isContinuationOfLowWorkHeadersSync]
  refine ⟨trivial,?_⟩
  intro hfa
  simp [hfa]

/-- A batch that no new synchronisation keeps has enough work, or is full and refused. -/
theorem tryLowWorkHeadersSync_false {env : HeaderEnv} {salt : SyncSalt}
    (h : (tryLowWorkHeadersSync env view salt chainStart headers sync).1 = false) :
    (tryLowWorkHeadersSync env view salt chainStart headers sync).2.1 = headers ∧
      (getAntiDoSWorkThreshold env.params view ≤ chainStart.index.nChainWork + calculateHeadersWork headers ∨
        chainStart.index.nChainWork + calculateHeadersWork headers < getAntiDoSWorkThreshold env.params view ∧
          headers.length = maxHeadersResults ∧
          ¬ PresyncAccepts env chainStart view.adjustedTime salt headers) := by
  by_cases hlow : chainStart.index.nChainWork + calculateHeadersWork headers <
      getAntiDoSWorkThreshold env.params view
  · by_cases hf : headers.length = maxHeadersResults
    · obtain ⟨hiff,hb⟩ := tryLowWorkHeadersSync_full salt sync hf hlow
      refine ⟨hb h,.inr ⟨hlow,hf,?_⟩⟩
      intro ha
      rw [hiff.mpr ha] at h
      cases h
    · simp [tryLowWorkHeadersSync,hlow,hf] at h
  · exact ⟨by simp [tryLowWorkHeadersSync,hlow],.inl (BitVec.not_lt.mp hlow)⟩

variable {first last : CBlockHeader}
theorem processHeadersMessage_refused (h : RefusedFirstBatch env msg sync first last chainStart) :
    (processHeadersMessage env msg sync).1 = .processNewBlockHeaders msg.headers := by
  obtain ⟨sync',hc⟩ := isContinuation_of_not_continues h.not_continued
  obtain ⟨hiff,hba⟩ := tryLowWorkHeadersSync_full msg.salt sync' h.full h.low_work
  have ht := eq_false_iff.mpr fun htr => h.refused (hiff.mp htr)
  obtain ⟨rest,hh⟩ := List.head?_eq_some_iff.mp h.first_eq
  have hb := hba ht
  rw [hh] at ht hb hc
  have hv := h.valid
  rw [hh] at hv
  simp only [processHeadersMessage,hh,List.isEmpty_cons,false_eq_true,if_false,hv,hc,h.connects,ht,hb]
  split <;> rfl

theorem processHeadersMessage_handed {ha : List CBlockHeader} (hn : env.noBan = false)
    (h : (processHeadersMessage env msg sync).1 = .processNewBlockHeaders ha) :
    HandoverJustified env msg sync ha ∨
      ∃ first last chainStart, RefusedFirstBatch env msg sync first last chainStart := by
  unfold processHeadersMessage at h
  split at h
  · cases h
  split at h
  · rename_i penalty hpenalty
    simp only at h
    exact absurd (h ▸ hpenalty) (by unfold checkHeadersPoW; split_ifs <;> simp)
  rename_i hv
  simp only at h
  split at h
  · cases h
  rename_i first rest hcont
  split at h
  · split at h <;> cases h
  rename_i chainStart hco
  have hcn : (isContinuationOfLowWorkHeadersSync env.toHeaderEnv sync msg.headers).1 = true →
      HandoverJustified env msg sync (first::rest) := by
    intro hc
    cases sync with
    | none => cases hc
    | some s =>
      simp only [isContinuationOfLowWorkHeadersSync] at hc hcont
      rw [if_pos hc] at hcont
      exact .inl ⟨s,rfl,hc,hcont.symm⟩
  cases hc : (isContinuationOfLowWorkHeadersSync env.toHeaderEnv sync msg.headers).1 with
  | true =>
    simp only [hc,Bool.true_or,if_true,HeadersOutcome.processNewBlockHeaders.injEq] at h
    subst h
    exact .inl (hcn hc)
  | false =>
    have hno : ∀ s, sync = some s → ¬ SyncContinues env msg s := by
      rintro s rfl hs
      simp only [isContinuationOfLowWorkHeadersSync] at hc
      rw [SyncContinues,hc] at hs
      cases hs
    obtain ⟨sync',hcon⟩ := isContinuation_of_not_continues hno
    rw [hcon] at h hcont
    simp only [hn,Bool.or_false] at h hcont
    have hl : msg.headers.getLast? = some ((first::rest).getLastD first) := by
      rw [hcont]
      rfl
    split at h
    · rename_i hanc
      obtain rfl := HeadersOutcome.processNewBlockHeaders.inj h
      exact .inl (.inr (.inl ⟨_,hcont ▸ hl,hanc⟩))
    rename_i hanc
    split at h
    · cases h
    rename_i htried
    obtain ⟨hb,hca⟩ := tryLowWorkHeadersSync_false (eq_false_iff.mpr htried)
    rw [hb] at h
    obtain rfl := HeadersOutcome.processNewBlockHeaders.inj h
    rcases hca with hw | ⟨hlow,hf,hr⟩
    · exact .inl (.inr (.inr ⟨first,chainStart,rfl,hco,hw⟩))
    · rw [← hcont] at hlow hf hr
      exact .inr ⟨first,_,chainStart,by rw [hcont]; rfl,hl,hf,hv,hno,hco,Bool.eq_false_iff.mpr hanc,hlow,hr⟩

theorem RefusedFirstBatch.not_justified (h : RefusedFirstBatch env msg sync first last chainStart) :
    ¬ HandoverJustified env msg sync msg.headers := by
  rintro (⟨s,hs,hc,_⟩ | ⟨last',hl,hanc⟩ | ⟨first',start,hf,hst,hw⟩)
  · exact h.not_continued s hs hc
  · cases h.last_eq.symm.trans hl
    rw [h.not_ancestor] at hanc
    cases hanc
  · cases h.first_eq.symm.trans hf
    cases h.connects.symm.trans hst
    exact BitVec.not_lt.mpr hw h.low_work

def headersStep (env : PeerEnv) (sync : Option HeadersSyncState) (msg : HeadersMessage) :
    Option (Option HeadersSyncState) :=
  some (processHeadersMessage env msg sync).2

def HandoversJustified (env : PeerEnv) (sync : Option HeadersSyncState) (msg : HeadersMessage) : Prop :=
  ∀ handed, (processHeadersMessage env msg sync).1 = .processNewBlockHeaders handed →
    HandoverJustified env msg sync handed

def NotRefused (env : PeerEnv) (sync : Option HeadersSyncState) (msg : HeadersMessage) : Prop :=
  ∀ first last chainStart, ¬ RefusedFirstBatch env msg sync first last chainStart

theorem handoversJustified_iff (hn : env.noBan = false) (sync : Option HeadersSyncState)
    (msg : HeadersMessage) : HandoversJustified env sync msg ↔ NotRefused env sync msg := by
  constructor
  · intro hall first last chainStart h
    exact h.not_justified (hall _ (processHeadersMessage_refused h))
  · intro hno handed h
    rcases processHeadersMessage_handed hn h with hj | ⟨first,last,chainStart,hr⟩
    · exact hj
    · exact absurd hr (hno first last chainStart)

/-- Low-work headers stay out of every run exactly when no message is a refused first batch. -/
theorem headers_run_justified_iff (env : PeerEnv) (hnoBan : env.noBan = false)
    (messages : List HeadersMessage) :
    EveryStep (headersStep env) (HandoversJustified env) none messages ↔
      EveryStep (headersStep env) (NotRefused env) none messages :=
  everyStep_congr (fun sync msg => handoversJustified_iff hnoBan sync msg) none messages

/-- A stand-in hash that counts up from the parent; the genesis header keeps its own hash. -/
def countingHash (block : CBlockHeader) : Uint256 :=
  if block.hashPrevBlock = 0#256 then mainGenesisHash
  else block.hashPrevBlock + 1#256 + block.nNonce.setWidth 256 <<< 200

def countingPeer : PeerEnv where
  params := mainParams
  getHash := countingHash
  fCheckpointsEnabled := true
  noBan := false

def easyHeaders : Uint256 → Nat → List CBlockHeader
  | _, 0 => []
  | hashPrevBlock, n+1 =>
    ⟨4, hashPrevBlock, 0#256, 1667197079#32, 0x207ffffe#32, 0#32⟩ :: easyHeaders (hashPrevBlock + 1#256) n

def indexOnTop (pprev : IndexChain) (hash : Uint256) (nBits : BitVec 32) : CBlockIndex where
  phashBlock := hash
  nHeight := pprev.length
  nChainWork := (pprev.headD mainGenesis).nChainWork + getBlockProof nBits
  nVersion := 4
  hashMerkleRoot := 0#256
  nTime := 1667197079#32
  nBits := nBits
  nNonce := 1#32
  nTimeMax := 1667197079#32

/-- Genesis, one block of substantial work and a tip of minimum difficulty. -/
def workedView : ChainView :=
  let hash1 := mainGenesisHash + 1#256 + 1#256 <<< 200
  let hash2 := hash1 + 1#256 + 1#256 <<< 200
  let block1 := indexOnTop [mainGenesis] hash1 0x1f00ffff#32
  let block2 := indexOnTop [block1, mainGenesis] hash2 0x207fffff#32
  { blockman :=
      { blockIndex := (((∅ : BlockMap).insert mainGenesisHash ⟨mainGenesis, [], blockValidTree⟩).insert
          hash1 ⟨block1, [mainGenesis], blockValidTree⟩).insert
          hash2 ⟨block2, [block1, mainGenesis], blockValidTree⟩
        bestHeader := some hash2
        failedBlocks := [] }
    activeChain := [mainGenesis, block1, block2]
    adjustedTime := 1667197079 }

def easyBatch : HeadersMessage where
  headers := easyHeaders mainGenesisHash maxHeadersResults
  view := workedView
  salt := ⟨fun _ => false, 0⟩

def knownBatch : HeadersMessage where
  headers := [⟨4, mainGenesisHash + 1#256 + 1#256 <<< 200, 0#256, 1667197079#32, 0x207fffff#32, 1#32⟩]
  view := workedView
  salt := ⟨fun _ => false, 0⟩

theorem knownBatch_justified :
    (processHeadersMessage countingPeer knownBatch none).1 = .processNewBlockHeaders knownBatch.headers ∧
      EveryStep (headersStep countingPeer) (HandoversJustified countingPeer) none [knownBatch] := by
  refine ⟨by decide +kernel,(headers_run_justified_iff _ rfl _).mpr ?_⟩
  intro next _
  refine ⟨?_,trivial⟩
  intro first last chainStart h
  have hfull := h.full
  simp [knownBatch,maxHeadersResults] at hfull

variable (hash : Uint256) (n : Nat)

theorem easyHeaders_length : (easyHeaders hash n).length = n := by
  induction n generalizing hash with
  | zero => rfl
  | succ n ih => simp [easyHeaders,ih]

theorem easyHeaders_getLast? :
    (easyHeaders hash (n+1)).getLast? =
      some ⟨4, hash + BitVec.ofNat 256 n, 0#256, 1667197079#32, 0x207ffffe#32, 0#32⟩ := by
  induction n generalizing hash with
  | zero => simp [easyHeaders]
  | succ n ih =>
    rw [easyHeaders,List.getLast?_cons,ih,BitVec.ofNat_add,BitVec.add_assoc,BitVec.add_comm 1#256]
    rfl

theorem calculateHeadersWork_easyHeaders :
    calculateHeadersWork (easyHeaders hash n) = BitVec.ofNat 256 (2*n) := by
  have hp : getBlockProof 0x207ffffe#32 = 2#256 := by decide
  have hf : ∀ w, (easyHeaders hash n).foldl
      (fun totalWork header => totalWork + getBlockProof header.nBits) w = w + BitVec.ofNat 256 (2*n) := by
    induction n generalizing hash with
    | zero => simp [easyHeaders]
    | succ n ih =>
      intro w
      rw [easyHeaders,List.foldl_cons,ih,hp,BitVec.add_assoc,← BitVec.ofNat_add]
      congr 2
      omega
  rw [calculateHeadersWork,hf,BitVec.zero_add]

private theorem countingHash_easy (h : 0 < hash.toNat) :
    countingHash ⟨4, hash, 0#256, 1667197079#32, 0x207ffffe#32, 0#32⟩ = hash + 1#256 := by
  have hne : hash ≠ 0#256 := by
    rintro rfl
    simp at h
  simp [countingHash,hne]

private theorem succ_toNat (hle : hash.toNat + (n+1) ≤ (setCompact 0x207ffffe#32).target.toNat) :
    (hash + 1#256).toNat = hash.toNat + 1 := by
  rw [toNat_add,toNat_ofNat]
  omega

theorem hasValidProofOfWork_easyHeaders (hash : Uint256) (hpos : 0 < hash.toNat)
    (hle : hash.toNat + n ≤ (setCompact 0x207ffffe#32).target.toNat) :
    hasValidProofOfWork countingPeer.toHeaderEnv (easyHeaders hash n) = true := by
  induction n generalizing hash with
  | zero => rfl
  | succ n ih =>
    have hs := succ_toNat hash n hle
    have hfst : checkProofOfWork mainParams (hash + 1#256) 0x207ffffe#32 = true := by
      refine (checkProofOfWork_eq_true_iff _ _ _).mpr ⟨⟨by decide,by decide,by decide,by decide⟩,?_⟩
      rw [le_def]
      omega
    have hr := ih (hash + 1#256) (by omega) (by omega)
    simp only [hasValidProofOfWork] at hr ⊢
    rw [easyHeaders,List.all_cons,hr,Bool.and_true]
    simp [countingPeer,countingHash_easy hash hpos,hfst]

theorem headersContinueFrom_easyHeaders (hash last : Uint256) (hpos : 0 < hash.toNat)
    (hle : hash.toNat + n ≤ (setCompact 0x207ffffe#32).target.toNat) (hl : last = 0#256 ∨ last = hash) :
    headersContinueFrom countingPeer.toHeaderEnv last (easyHeaders hash n) = true := by
  induction n generalizing hash last with
  | zero => rfl
  | succ n ih =>
    have hs := succ_toNat hash n hle
    rw [easyHeaders,headersContinueFrom,if_neg]
    · apply ih (hash + 1#256) _ (by omega) (by omega)
      exact .inr (countingHash_easy hash hpos)
    · rintro ⟨hne,hoth⟩
      rcases hl with rfl | rfl
      · exact hne rfl
      · exact hoth rfl

theorem easyBatch_refused :
    RefusedFirstBatch countingPeer easyBatch none
      ⟨4, mainGenesisHash, 0#256, 1667197079#32, 0x207ffffe#32, 0#32⟩
      ⟨4, mainGenesisHash + 1999#256, 0#256, 1667197079#32, 0x207ffffe#32, 0#32⟩
      ⟨mainGenesis, [], blockValidTree⟩ where
  first_eq := rfl
  last_eq := easyHeaders_getLast? mainGenesisHash 1999
  full := easyHeaders_length _ _
  valid := by
    have hpos : 0 < mainGenesisHash.toNat := by decide
    have hle : mainGenesisHash.toNat + maxHeadersResults ≤ (setCompact 0x207ffffe#32).target.toNat := by decide
    have hpow := hasValidProofOfWork_easyHeaders maxHeadersResults mainGenesisHash hpos hle
    have hc := headersContinueFrom_easyHeaders maxHeadersResults mainGenesisHash 0#256 hpos hle (.inl rfl)
    simp [easyBatch,checkHeadersPoW,checkHeadersAreContinuous,hpow,hc]
  not_continued := by
    intro s hs
    cases hs
  connects := by decide
  not_ancestor := by decide
  low_work := by
    have hw := calculateHeadersWork_easyHeaders mainGenesisHash maxHeadersResults
    simp only [easyBatch,hw]
    decide
  refused := by
    intro h
    have hfst := h.permitted.1
    revert hfst
    decide

/-- A peer without permissions gets two thousand low-work headers stored. -/
theorem easyBatch_handed_over :
    countingPeer.noBan = false ∧
      (processHeadersMessage countingPeer easyBatch none).1 = .processNewBlockHeaders easyBatch.headers ∧
      ¬ HandoverJustified countingPeer easyBatch none easyBatch.headers :=
  ⟨rfl,processHeadersMessage_refused easyBatch_refused,easyBatch_refused.not_justified⟩
end Lcryp
