import Lcryp.Chain.Headers
import Lcryp.Pow.Transition

/-!
# Low-work headers synchronisation

`HeadersSyncState` downloads a chain of headers twice.
-/
namespace Lcryp
def headerCommitmentPeriod : Nat := 584
def redownloadBufferSize : Nat := 13959
structure CompressedHeader where
  nVersion : Int
  hashMerkleRoot : Uint256
  nTime : BitVec 32
  nBits : BitVec 32
  nNonce : BitVec 32
deriving DecidableEq

def CBlockHeader.compress (header : CBlockHeader) : CompressedHeader :=
  ⟨header.nVersion, header.hashMerkleRoot, header.nTime, header.nBits, header.nNonce⟩
def CompressedHeader.getFullHeader (header : CompressedHeader) (hashPrevBlock : Uint256) : CBlockHeader :=
  ⟨header.nVersion, hashPrevBlock, header.hashMerkleRoot, header.nTime, header.nBits,header.nNonce⟩
inductive DownloadState
  | presync
  | redownload
  | final
deriving DecidableEq

structure HeadersSyncState where
  chainStart : BlockNode
  minimumRequiredWork : ArithUint256
  currentChainWork : ArithUint256
  /-- `m_hasher(hash) & 1`. -/
  hasher : Uint256 → Bool
  headerCommitments : List Bool
  commitOffset : Nat
  maxCommitments : Nat
  lastHeaderReceived : CBlockHeader
  currentHeight : Nat
  redownloadedHeaders : List CompressedHeader
  redownloadBufferLastHeight : Nat
  redownloadBufferLastHash : Uint256
  redownloadBufferFirstPrevHash : Uint256
  redownloadChainWork : ArithUint256
  processAllRemainingHeaders : Bool
  downloadState : DownloadState

structure SyncSalt where
  hasher : Uint256 → Bool
  commitOffset : Nat

structure ProcessingResult where
  powValidatedHeaders : List CBlockHeader
  success : Bool
  requestMore : Bool

namespace HeadersSyncState
variable (chainStart : BlockNode)
/-- The bound on commitments: six blocks a second since the start's median time, in the unsigned
arithmetic that the division by a `size_t` forces. -/
def maxCommitmentsFrom (adjustedTime : Int) : Nat :=
  (BitVec.ofInt 64 (6 * (adjustedTime - IndexChain.getMedianTimePast chainStart.chain +
    maxFutureBlockTime))).toNat / headerCommitmentPeriod

def new (minimumRequiredWork : ArithUint256) (adjustedTime : Int) (salt : SyncSalt) : HeadersSyncState where
  chainStart := chainStart
  minimumRequiredWork := minimumRequiredWork
  currentChainWork := chainStart.index.nChainWork
  hasher := salt.hasher
  headerCommitments := []
  commitOffset := salt.commitOffset
  maxCommitments := maxCommitmentsFrom chainStart adjustedTime
  lastHeaderReceived := IndexChain.getBlockHeader chainStart.index chainStart.pprev
  currentHeight := chainStart.index.nHeight
  redownloadedHeaders := []
  redownloadBufferLastHeight := 0
  redownloadBufferLastHash := 0#256
  redownloadBufferFirstPrevHash := 0#256
  redownloadChainWork := 0#256
  processAllRemainingHeaders := false
  downloadState := .presync

variable (s : HeadersSyncState)
def finalize : HeadersSyncState :=
  { s with
    headerCommitments := []
    lastHeaderReceived := CBlockHeader.null
    redownloadedHeaders := []
    redownloadBufferLastHash := 0#256
    redownloadBufferFirstPrevHash := 0#256
    processAllRemainingHeaders := false
    currentHeight := 0
    downloadState := .final }

variable (env : HeaderEnv)
def validateAndProcessSingleHeader (s : HeadersSyncState) (current : CBlockHeader) : Bool × HeadersSyncState :=
  let nextHeight := s.currentHeight + 1
  if s.downloadState ≠ .presync then (false, s)
  else if !permittedDifficultyTransition env.params nextHeight s.lastHeaderReceived.nBits
      current.nBits then (false, s)
  else
    let s' := if nextHeight % headerCommitmentPeriod = s.commitOffset then
        { s with headerCommitments := s.headerCommitments++[s.hasher (env.getHash current)] }
      else s
    if nextHeight % headerCommitmentPeriod = s.commitOffset ∧
        s'.headerCommitments.length > s.maxCommitments then (false, s')
    else
      (true, { s' with
        currentChainWork := s.currentChainWork + getBlockProof current.nBits
        lastHeaderReceived := current
        currentHeight := nextHeight })

def processHeaders (validate : HeadersSyncState → CBlockHeader → Bool × HeadersSyncState) :
    HeadersSyncState → List CBlockHeader → Bool × HeadersSyncState
  | s, [] => (true, s)
  | s, header::rest =>
    match validate s header with
    | (false, s') => (false, s')
    | (true, s') => processHeaders validate s' rest

def startRedownload : HeadersSyncState :=
  { s with
    redownloadedHeaders := []
    redownloadBufferLastHeight := s.chainStart.index.nHeight
    redownloadBufferFirstPrevHash := s.chainStart.index.phashBlock
    redownloadBufferLastHash := s.chainStart.index.phashBlock
    redownloadChainWork := s.chainStart.index.nChainWork
    downloadState := .redownload }

variable (s : HeadersSyncState)

def validateAndStoreHeadersCommitments (headers : List CBlockHeader) : Bool × HeadersSyncState :=
  match headers with
  | [] => (true, s)
  | first::_ =>
    if s.downloadState ≠ .presync then (false, s)
    else if first.hashPrevBlock ≠ env.getHash s.lastHeaderReceived then (false, s)
    else
      match processHeaders (validateAndProcessSingleHeader env) s headers with
      | (false, s') => (false, s')
      | (true, s') =>
        (true, if s'.currentChainWork ≥ s'.minimumRequiredWork then s'.startRedownload else s')

def validateAndStoreRedownloadedHeader (header : CBlockHeader) : Bool × HeadersSyncState :=
  let nextHeight := s.redownloadBufferLastHeight + 1
  let previousNbits := match s.redownloadedHeaders.getLast? with
    | some last => last.nBits
    | none => s.chainStart.index.nBits
  if s.downloadState ≠ .redownload then (false, s)
  else if header.hashPrevBlock ≠ s.redownloadBufferLastHash then (false, s)
  else if !permittedDifficultyTransition env.params nextHeight previousNbits header.nBits then
    (false, s)
  else
    let work := s.redownloadChainWork + getBlockProof header.nBits
    let s' := { s with
      redownloadChainWork := work
      processAllRemainingHeaders := s.processAllRemainingHeaders || decide (work ≥ s.minimumRequiredWork) }
    let store (s : HeadersSyncState) : HeadersSyncState :=
      { s with
        redownloadedHeaders := s.redownloadedHeaders++[header.compress]
        redownloadBufferLastHeight := nextHeight
        redownloadBufferLastHash := env.getHash header }
    if !s'.processAllRemainingHeaders ∧ nextHeight % headerCommitmentPeriod = s.commitOffset then
      match s'.headerCommitments with
      | [] => (false, s')
      | expected::rest =>
        let s'' := { s' with headerCommitments := rest }
        if s.hasher (env.getHash header) ≠ expected then (false, s'') else (true, store s'')
    else (true, store s')

/-- The loop of `PopHeadersReadyForAcceptance` on the buffer and the hash below it. -/
def popHeaders (env : HeaderEnv) (all : Bool) :
    Uint256 → List CompressedHeader → List CBlockHeader × List CompressedHeader × Uint256
  | firstPrevHash, [] => ([], [], firstPrevHash)
  | firstPrevHash, header::rest =>
    if (header::rest).length > redownloadBufferSize ∨ all then
      let full := header.getFullHeader firstPrevHash
      let popped := popHeaders env all (env.getHash full) rest
      (full::popped.1, popped.2)
    else ([], header::rest, firstPrevHash)

def popHeadersReadyForAcceptance : List CBlockHeader × HeadersSyncState :=
  if s.downloadState ≠ .redownload then ([], s)
  else
    let popped := popHeaders env s.processAllRemainingHeaders s.redownloadBufferFirstPrevHash
      s.redownloadedHeaders
    (popped.1, { s with
      redownloadedHeaders := popped.2.1
      redownloadBufferFirstPrevHash := popped.2.2 })

variable (receivedHeaders : List CBlockHeader)

/-- The two phases of `ProcessNextHeaders` before a finished synchronisation is closed. -/
def processPhase (fullHeadersMessage : Bool) : ProcessingResult × HeadersSyncState :=
  match s.downloadState with
  | .presync =>
    match validateAndStoreHeadersCommitments env s receivedHeaders with
    | (false, s') => (⟨[], false, false⟩, s')
    | (true, s') =>
      (⟨[], true, fullHeadersMessage || decide (s'.downloadState = .redownload)⟩, s')
  | .redownload =>
    match processHeaders (validateAndStoreRedownloadedHeader env) s receivedHeaders with
    | (false, s') => (⟨[], false, false⟩, s')
    | (true, s') =>
      let popped := popHeadersReadyForAcceptance env s'
      let complete := popped.2.redownloadedHeaders.isEmpty && popped.2.processAllRemainingHeaders
      (⟨popped.1, true, !complete && fullHeadersMessage⟩, popped.2)
  | .final => (⟨[], false, false⟩, s)

def processNextHeaders (fullHeadersMessage : Bool) : ProcessingResult × HeadersSyncState :=
  if receivedHeaders.isEmpty then (⟨[], false, false⟩, s)
  else if s.downloadState = .final then (⟨[], false, false⟩, s)
  else
    let processed := processPhase env s receivedHeaders fullHeadersMessage
    if processed.1.success && processed.1.requestMore then processed
    else (processed.1, processed.2.finalize)

def TransitionsPermitted (params : ConsensusParams) : Nat → BitVec 32 → List CBlockHeader → Prop
  | _, _, [] => True
  | height, nBits, header::rest =>
    permittedDifficultyTransition params (height + 1 : Nat) nBits header.nBits = true ∧
      TransitionsPermitted params (height+1) header.nBits rest

/-- The number of commitment heights among the `n` heights above `height`. -/
def commitmentsIn (commitOffset : Nat) : Nat → Nat → Nat
  | _, 0 => 0
  | height, n+1 =>
    (if (height+1) % headerCommitmentPeriod = commitOffset then 1 else 0) +
      commitmentsIn commitOffset (height+1) n

variable (s : HeadersSyncState)
/-- The commitment that a header of the first pass adds. -/
def commitmentOf (header : CBlockHeader) : List Bool :=
  if (s.currentHeight+1) % headerCommitmentPeriod = s.commitOffset then
    [s.hasher (env.getHash header)] else []

variable {env s} {s' : HeadersSyncState} {header : CBlockHeader}
theorem guard_eq_true_iff {c : Prop} [Decidable c] {refused : HeadersSyncState}
    {next : Bool × HeadersSyncState} :
    (if c then (false, refused) else next) = (true, s') ↔ ¬ c ∧ next = (true, s') := by
  by_cases hc : c <;> simp [hc]

theorem validateAndProcessSingleHeader_iff :
    validateAndProcessSingleHeader env s header = (true, s') ↔ s.downloadState = .presync ∧
      permittedDifficultyTransition env.params (s.currentHeight + 1 : Nat)
        s.lastHeaderReceived.nBits header.nBits = true ∧
      (commitmentOf env s header ≠ [] →
        (s.headerCommitments++commitmentOf env s header).length ≤ s.maxCommitments) ∧
      s' = { s with
        headerCommitments := s.headerCommitments++commitmentOf env s header
        currentChainWork := s.currentChainWork + getBlockProof header.nBits
        lastHeaderReceived := header
        currentHeight := s.currentHeight + 1 } := by
  simp only [validateAndProcessSingleHeader,guard_eq_true_iff,commitmentOf]
  by_cases hc : (s.currentHeight+1) % headerCommitmentPeriod = s.commitOffset <;> simp [hc,@eq_comm _ s']

theorem processHeaders_cons_iff
    {validate : HeadersSyncState → CBlockHeader → Bool × HeadersSyncState} {rest : List CBlockHeader} :
    (processHeaders validate s (header::rest)).1 = true ↔
      ∃ s', validate s header = (true, s') ∧ (processHeaders validate s' rest).1 = true := by
  rw [processHeaders]
  rcases validate s header with ⟨ok,s'⟩
  cases ok <;> simp

variable (headers : List CBlockHeader)
theorem processHeaders_presync_iff (s : HeadersSyncState)
    (hs : s.downloadState = .presync) (hlen : s.headerCommitments.length ≤ s.maxCommitments) :
    (processHeaders (validateAndProcessSingleHeader env) s headers).1 = true ↔
      TransitionsPermitted env.params s.currentHeight s.lastHeaderReceived.nBits headers ∧
        s.headerCommitments.length + commitmentsIn s.commitOffset s.currentHeight headers.length ≤
          s.maxCommitments := by
  induction headers generalizing s with
  | nil => simp [processHeaders,TransitionsPermitted,commitmentsIn,hlen]
  | cons header rest ih =>
    have hcnt : (commitmentOf env s header).length =
        if (s.currentHeight+1) % headerCommitmentPeriod = s.commitOffset then 1 else 0 := by
      unfold commitmentOf
      split <;> rfl
    simp only [processHeaders_cons_iff,validateAndProcessSingleHeader_iff,TransitionsPermitted,
      List.length_cons,commitmentsIn,← hcnt,← Nat.add_assoc,← List.length_append]
    constructor
    · rintro ⟨_,⟨-,hp,hf,rfl⟩,hr⟩
      have hfit : (s.headerCommitments++commitmentOf env s header).length ≤ s.maxCommitments := by
        by_cases hn : commitmentOf env s header = []
        · simpa [hn] using hlen
        · exact hf hn
      have hb := (ih _ (by exact hs) (by exact hfit)).mp hr
      exact ⟨⟨hp,hb.1⟩,hb.2⟩
    · rintro ⟨⟨hp,hr⟩,hc⟩
      have hfit := Nat.le_of_add_right_le hc
      exact ⟨_,⟨hs,hp,fun _ => hfit,rfl⟩,(ih _ (by exact hs) (by exact hfit)).mpr ⟨hr,hc⟩⟩

variable (env s)
theorem validateAndStoreHeadersCommitments_iff
    (first : CBlockHeader) (rest : List CBlockHeader) (hs : s.downloadState = .presync) :
    (validateAndStoreHeadersCommitments env s (first::rest)).1 = true ↔
      first.hashPrevBlock = env.getHash s.lastHeaderReceived ∧
        (processHeaders (validateAndProcessSingleHeader env) s (first::rest)).1 = true := by
  by_cases hp : first.hashPrevBlock = env.getHash s.lastHeaderReceived
  · simp only [validateAndStoreHeadersCommitments,hs,hp]
    rcases processHeaders (validateAndProcessSingleHeader env) s (first::rest) with ⟨ok,s'⟩
    cases ok <;> simp
  · simp [validateAndStoreHeadersCommitments,hp]

theorem processNextHeaders_presync_success (full : Bool)
    (hne : headers ≠ []) (hs : s.downloadState = .presync) :
    (processNextHeaders env s headers full).1.success =
      (validateAndStoreHeadersCommitments env s headers).1 := by
  have hp : (processPhase env s headers full).1.success =
      (validateAndStoreHeadersCommitments env s headers).1 := by
    simp only [processPhase,hs]
    rcases validateAndStoreHeadersCommitments env s headers with ⟨ok,s'⟩
    cases ok <;> rfl
  simp only [processNextHeaders,List.isEmpty_iff,hne,if_false,hs,reduceCtorEq]
  rw [← hp]
  split <;> rfl

/-- What a new synchronisation asks of its first batch. -/
structure PresyncAccepts (env : HeaderEnv) (chainStart : BlockNode) (adjustedTime : Int)
    (salt : SyncSalt) (headers : List CBlockHeader) : Prop where
  connects : headers.head?.map CBlockHeader.hashPrevBlock =
    some (env.getHash (IndexChain.getBlockHeader chainStart.index chainStart.pprev))
  permitted : TransitionsPermitted env.params chainStart.index.nHeight chainStart.index.nBits headers
  commitments : commitmentsIn salt.commitOffset chainStart.index.nHeight headers.length ≤
    maxCommitmentsFrom chainStart adjustedTime

theorem processNextHeaders_new_success_iff (chainStart : BlockNode) (work : ArithUint256) (adjustedTime : Int)
    (salt : SyncSalt) (headers : List CBlockHeader) (full : Bool) (hne : headers ≠ []) :
    (processNextHeaders env (new chainStart work adjustedTime salt) headers full).1.success = true ↔
      PresyncAccepts env chainStart adjustedTime salt headers := by
  rw [processNextHeaders_presync_success env _ headers full hne rfl]
  cases headers with
  | nil => exact absurd rfl hne
  | cons first rest =>
    have hl := @processHeaders_presync_iff env (first::rest)
      (new chainStart work adjustedTime salt) rfl (Nat.zero_le _)
    simp only [new,List.length_nil,Nat.zero_add] at hl
    rw [validateAndStoreHeadersCommitments_iff env _ first rest rfl]
    constructor
    · rintro ⟨hp,hok⟩
      obtain ⟨hpe,hcnt⟩ := hl.mp hok
      exact ⟨congrArg some hp,hpe,hcnt⟩
    · rintro ⟨hp,hpe,hcnt⟩
      exact ⟨Option.some.inj hp,hl.mpr ⟨hpe,hcnt⟩⟩
end HeadersSyncState
end Lcryp
