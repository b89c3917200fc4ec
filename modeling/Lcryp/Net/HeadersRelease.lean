import Lcryp.Framework.HashLink
import Lcryp.Net.HeadersSync

/-!
# What a headers synchronisation releases

A trace keeps, next to the synchronisation state, the headers taken in each of the two passes and the
headers released so far.
-/
namespace Lcryp
open HashLink List CBlockHeader HeadersSyncState Nat
structure SyncCall where
  receivedHeaders : List CBlockHeader
  fullHeadersMessage : Bool

structure SyncTrace where
  state : HeadersSyncState
  /-- The headers of the successful calls of the first pass. -/
  presynced : List CBlockHeader
  /-- The headers of the successful calls of the second pass. -/
  redownloaded : List CBlockHeader
  /-- All `pow_validated_headers` in order. -/
  released : List CBlockHeader

def commitmentBits (env : HeaderEnv) (hasher : Uint256 → Bool) (commitOffset : Nat) :
    Nat → List CBlockHeader → List Bool
  | _, [] => []
  | height, header::rest =>
    (if (height+1) % headerCommitmentPeriod = commitOffset then [hasher (env.getHash header)]
      else [])++commitmentBits env hasher commitOffset (height+1) rest

def workOnTop (chainStart : BlockNode) (headers : List CBlockHeader) : Nat :=
  chainStart.index.nChainWork.toNat + (headers.map fun header => (getBlockProof header.nBits).toNat).sum

namespace SyncTrace
def call (env : HeaderEnv) (t : SyncTrace) (input : SyncCall) : SyncTrace :=
  let processed := t.state.processNextHeaders env input.receivedHeaders input.fullHeadersMessage
  { state := processed.2
    presynced := if t.state.downloadState = .presync ∧ processed.1.success = true then
        t.presynced++input.receivedHeaders
      else t.presynced
    redownloaded := if t.state.downloadState = .redownload ∧ processed.1.success = true then
        t.redownloaded++input.receivedHeaders
      else t.redownloaded
    released := t.released++processed.1.powValidatedHeaders }

def run (env : HeaderEnv) (origin : HeadersSyncState) (calls : List SyncCall) : SyncTrace :=
  calls.foldl (call env) ⟨origin, [], [], []⟩
end SyncTrace

/-! ## Single steps -/

variable (env : HeaderEnv)
section Bits
variable (hasher : Uint256 → Bool) (commitOffset : Nat)
theorem commitmentBits_concat (height : Nat) (headers : List CBlockHeader) (header : CBlockHeader) :
    commitmentBits env hasher commitOffset height (headers++[header]) =
      commitmentBits env hasher commitOffset height headers ++
        if (height + headers.length + 1) % headerCommitmentPeriod = commitOffset then
          [hasher (env.getHash header)]
        else [] := by
  induction headers generalizing height with
  | nil => simp [commitmentBits]
  | cons first rest ih =>
    have hht : height + 1 + rest.length = height + (rest.length+1) := by omega
    rw [cons_append,commitmentBits,commitmentBits,ih,append_assoc,length_cons,hht]
end Bits

theorem workOnTop_concat (chainStart : BlockNode) (headers : List CBlockHeader) (header : CBlockHeader) :
    workOnTop chainStart (headers++[header]) =
      workOnTop chainStart headers + (getBlockProof header.nBits).toNat := by
  simp [workOnTop,add_assoc]

namespace HeadersSyncState
structure SameSync (origin s : HeadersSyncState) : Prop where
  chainStart : s.chainStart = origin.chainStart
  minimumRequiredWork : s.minimumRequiredWork = origin.minimumRequiredWork
  hasher : s.hasher = origin.hasher
  commitOffset : s.commitOffset = origin.commitOffset
  maxCommitments : s.maxCommitments = origin.maxCommitments

section Passes
variable (origin : HeadersSyncState)
def startHeight : Nat := origin.chainStart.index.nHeight
def startHash : Uint256 := origin.chainStart.index.phashBlock
def bitsOf (headers : List CBlockHeader) : List Bool :=
  commitmentBits env origin.hasher origin.commitOffset origin.startHeight headers

def WorkReached (headers : List CBlockHeader) : Prop :=
  origin.minimumRequiredWork.toNat ≤ workOnTop origin.chainStart headers

/-- A state in the first pass, after the given headers. -/
structure Presyncing (presynced : List CBlockHeader) (s : HeadersSyncState) : Prop where
  same : SameSync origin s
  pass : s.downloadState = .presync
  commitments : s.headerCommitments = bitsOf env origin presynced
  fits : s.headerCommitments.length ≤ origin.maxCommitments
  height : s.currentHeight = origin.startHeight + presynced.length
  buffer : s.redownloadedHeaders = []
  unfinished : s.processAllRemainingHeaders = false

/-- A state in the second pass, after the given headers, the first of which are released. -/
structure Redownloading (presynced released kept : List CBlockHeader) (s : HeadersSyncState) : Prop where
  same : SameSync origin s
  pass : s.downloadState = .redownload
  linked : Linked env.getHash hashPrevBlock origin.startHash (released++kept)
  buffer : s.redownloadedHeaders = kept.map compress
  lastHash : s.redownloadBufferLastHash = tip env.getHash origin.startHash (released++kept)
  lastHeight : s.redownloadBufferLastHeight = origin.startHeight + (released++kept).length
  firstPrevHash : s.redownloadBufferFirstPrevHash = tip env.getHash origin.startHash released
  work : s.redownloadChainWork.toNat ≤ workOnTop origin.chainStart (released++kept)
  fits : s.headerCommitments.length ≤ origin.maxCommitments
  finished : s.processAllRemainingHeaders = true → WorkReached origin (released++kept)
  matched : s.processAllRemainingHeaders = false →
    bitsOf env origin (released++kept)++s.headerCommitments = bitsOf env origin presynced

variable {env origin} {presynced released kept : List CBlockHeader} {s s' : HeadersSyncState}
variable {header : CBlockHeader}
theorem validateAndStoreRedownloadedHeader_ok (hs : validateAndStoreRedownloadedHeader env s header = (true, s')) :
    ∃ all rest, all = (s.processAllRemainingHeaders ||
        decide (s.redownloadChainWork + getBlockProof header.nBits ≥ s.minimumRequiredWork)) ∧
      header.hashPrevBlock = s.redownloadBufferLastHash ∧
      (all = false → s.headerCommitments =
        (if (s.redownloadBufferLastHeight+1) % headerCommitmentPeriod = s.commitOffset then
          [s.hasher (env.getHash header)] else [])++rest) ∧
      rest.length ≤ s.headerCommitments.length ∧
      s' = { s with
        redownloadChainWork := s.redownloadChainWork + getBlockProof header.nBits
        processAllRemainingHeaders := all
        headerCommitments := rest
        redownloadedHeaders := s.redownloadedHeaders++[header.compress]
        redownloadBufferLastHeight := s.redownloadBufferLastHeight + 1
        redownloadBufferLastHash := env.getHash header } := by
  simp only [validateAndStoreRedownloadedHeader] at hs
  obtain ⟨-,hs⟩ := guard_eq_true_iff.mp hs
  obtain ⟨hp,hs⟩ := guard_eq_true_iff.mp hs
  obtain ⟨-,hs⟩ := guard_eq_true_iff.mp hs
  refine ⟨_,s'.headerCommitments,rfl,not_not.mp hp,?_⟩
  split at hs
  · -- a commitment height: the next bit is compared and taken off
    rename_i hcheck
    split at hs
    · cases hs
    · rename_i expected rest hcommitments
      obtain ⟨hm,hs⟩ := guard_eq_true_iff.mp hs
      cases hs
      simp only [hcommitments,not_not.mp hm,if_pos hcheck.2]
      exact ⟨fun _ => rfl,le_succ _,trivial⟩
  · rename_i hcheck
    cases hs
    refine ⟨fun hall => ?_,le_rfl,rfl⟩
    simpa [hall] using hcheck

theorem Presyncing.step (h : Presyncing env origin presynced s)
    (hs : validateAndProcessSingleHeader env s header = (true, s')) :
    Presyncing env origin (presynced++[header]) s' := by
  obtain ⟨-,-,hf,rfl⟩ := validateAndProcessSingleHeader_iff.mp hs
  refine ⟨⟨h.same.1,h.same.2,h.same.3,h.same.4,h.same.5⟩,h.pass,?_,?_,?_,h.buffer,h.unfinished⟩
  · rw [bitsOf,commitmentBits_concat,← bitsOf,← h.commitments,← h.height,← h.same.commitOffset,← h.same.hasher]
    rfl
  · by_cases hn : commitmentOf env s header = []
    · simpa [hn] using h.fits
    · exact h.same.maxCommitments ▸ hf hn
  · simp [h.height,add_assoc]

theorem Redownloading.step (h : Redownloading env origin presynced released kept s)
    (hs : validateAndStoreRedownloadedHeader env s header = (true, s')) :
    Redownloading env origin presynced released (kept++[header]) s' := by
  obtain ⟨all,rest,hall,hp,hm,hr,rfl⟩ := validateAndStoreRedownloadedHeader_ok hs
  rw [h.lastHeight,h.same.commitOffset,h.same.hasher] at hm
  have hw : (s.redownloadChainWork + getBlockProof header.nBits).toNat ≤
      workOnTop origin.chainStart (released++kept++[header]) := by
    rw [workOnTop_concat]
    exact (Nat.mod_le _ _).trans (Nat.add_le_add_right h.work _)
  constructor
  case same => exact ⟨h.same.1,h.same.2,h.same.3,h.same.4,h.same.5⟩
  case pass => exact h.pass
  case linked =>
    rw [← append_assoc,linked_concat]
    exact ⟨h.linked,hp.trans h.lastHash⟩
  case buffer => simp [h.buffer]
  case lastHash => rw [← append_assoc,tip_concat]
  case lastHeight => simp [h.lastHeight,add_assoc]
  case firstPrevHash => exact h.firstPrevHash
  case work => rwa [← append_assoc]
  case fits => exact hr.trans h.fits
  case finished =>
    intro hd
    rw [← append_assoc]
    simp only [hall,Bool.or_eq_true,decide_eq_true_eq] at hd
    rcases hd with hbef | hnow
    · exact (h.finished hbef).trans (by rw [workOnTop_concat]; exact le_add_right _ _)
    · rw [h.same.minimumRequiredWork] at hnow
      exact hnow.trans hw
  case matched =>
    intro ho
    have hbef : s.processAllRemainingHeaders = false := by
      simp only [hall,Bool.or_eq_false_iff] at ho
      exact ho.1
    rw [← h.matched hbef,hm ho,← append_assoc,bitsOf,commitmentBits_concat,bitsOf,append_assoc]

theorem processHeaders_ok {validate : HeadersSyncState → CBlockHeader → Bool × HeadersSyncState}
    {I : List CBlockHeader → HeadersSyncState → Prop}
    (hs : ∀ {taken s s' header}, I taken s → validate s header = (true, s') → I (taken++[header]) s')
    {taken headers : List CBlockHeader} (h : I taken s)
    (hrun : processHeaders validate s headers = (true, s')) : I (taken++headers) s' := by
  induction headers generalizing taken s with
  | nil =>
    cases hrun
    rwa [append_nil]
  | cons header rest ih =>
    rw [processHeaders] at hrun
    split at hrun
    · cases hrun
    · rename_i next hn
      have hr := ih (hs h hn) hrun
      rwa [append_assoc] at hr

def poppedCount (all : Bool) (n : Nat) : Nat := if all then n else n - redownloadBufferSize

theorem popHeaders_linked (all : Bool) (root : Uint256) (kept : List CBlockHeader)
    (hl : Linked env.getHash hashPrevBlock root kept) :
    popHeaders env all root (kept.map compress) =
      (kept.take (poppedCount all kept.length), (kept.drop (poppedCount all kept.length)).map compress,
        tip env.getHash root (kept.take (poppedCount all kept.length))) := by
  induction kept generalizing root with
  | nil => simp [popHeaders,tip]
  | cons header rest ih =>
    rw [map_cons,popHeaders]
    have hlen : (header.compress::rest.map compress).length = rest.length + 1 := by simp
    rw [hlen]
    split
    · rename_i hpop
      have hcnt : poppedCount all (header::rest).length = poppedCount all rest.length + 1 := by
        unfold poppedCount
        cases all with
        | true => simp
        | false =>
          simp only [Bool.false_eq_true,or_false,if_false,length_cons] at hpop ⊢
          omega
      have hf : header.compress.getFullHeader root = header := hl.1 ▸ rfl
      simp only [hf,ih _ hl.2,hcnt]
      rfl
    · rename_i hpop
      have hcnt : poppedCount all (header::rest).length = 0 := by
        unfold poppedCount
        simp only [not_or] at hpop
        simp only [hpop.2,Bool.false_eq_true,if_false,length_cons]
        omega
      rw [hcnt]
      rfl

theorem Redownloading.pop (h : Redownloading env origin presynced released kept s) :
    let n := poppedCount s.processAllRemainingHeaders kept.length
    let popped := popHeadersReadyForAcceptance env s
    popped.1 = kept.take n ∧ popped.2.processAllRemainingHeaders = s.processAllRemainingHeaders ∧
      Redownloading env origin presynced (released++kept.take n) (kept.drop n) popped.2 := by
  intro n popped
  have hk := ((linked_append _ _ _).mp h.linked).2
  have hs : released++kept.take n++kept.drop n = released++kept := by rw [append_assoc,take_append_drop]
  simp only [n,popped,popHeadersReadyForAcceptance,if_neg (not_not.mpr h.pass),h.buffer,
    h.firstPrevHash,popHeaders_linked _ _ _ hk,true_and]
  constructor
  case same => exact ⟨h.same.1,h.same.2,h.same.3,h.same.4,h.same.5⟩
  case pass => exact h.pass
  case linked => rw [hs]; exact h.linked
  case buffer => rfl
  case lastHash => rw [hs]; exact h.lastHash
  case lastHeight => rw [hs]; exact h.lastHeight
  case firstPrevHash => rw [tip_append]
  case work => rw [hs]; exact h.work
  case fits => exact h.fits
  case finished => rw [hs]; exact h.finished
  case matched => rw [hs]; exact h.matched
end Passes

/-! ## The invariant of a trace -/

section Trace
variable (origin : HeadersSyncState)
/-- The released headers are the first redownloaded ones, which hang on the start, and they were
released for one of the two reasons. -/
structure ReleaseSafe (t : SyncTrace) : Prop where
  linked : Linked env.getHash hashPrevBlock origin.startHash t.redownloaded
  oldest : t.released <+: t.redownloaded
  justified : t.released = [] ∨ WorkReached origin t.redownloaded ∨
    (t.released.length + redownloadBufferSize ≤ t.redownloaded.length ∧
      bitsOf env origin t.redownloaded <+: bitsOf env origin t.presynced)

def InPass (t : SyncTrace) : Prop :=
  match t.state.downloadState with
  | .presync => t.redownloaded = [] ∧ t.released = [] ∧ Presyncing env origin t.presynced t.state
  | .redownload => ∃ kept, t.redownloaded = t.released++kept ∧
      Redownloading env origin t.presynced t.released kept t.state ∧
      t.state.processAllRemainingHeaders = false ∧ kept.length ≤ redownloadBufferSize
  | .final => t.state.headerCommitments = [] ∧ t.state.redownloadedHeaders = []

variable {env origin} {t : SyncTrace}
theorem ReleaseSafe.nothing_new (h : ReleaseSafe env origin t) {st : HeadersSyncState} :
    ReleaseSafe env origin { t with state := st } :=
  ⟨h.linked,h.oldest,h.justified⟩

theorem inPass_finalize (s : HeadersSyncState) (presynced redownloaded released) :
    InPass env origin ⟨s.finalize, presynced, redownloaded, released⟩ :=
  ⟨rfl,rfl⟩

variable {presynced : List CBlockHeader} {s : HeadersSyncState}
theorem Presyncing.startRedownload (h : Presyncing env origin presynced s) :
    Redownloading env origin presynced [] [] s.startRedownload where
  same := ⟨h.same.1,h.same.2,h.same.3,h.same.4,h.same.5⟩
  pass := rfl
  linked := trivial
  buffer := rfl
  lastHash := congrArg (fun start => start.index.phashBlock) h.same.chainStart
  lastHeight := congrArg (fun start => start.index.nHeight) h.same.chainStart
  firstPrevHash := congrArg (fun start => start.index.phashBlock) h.same.chainStart
  work := by simp [HeadersSyncState.startRedownload,h.same.chainStart,workOnTop]
  fits := h.fits
  finished hdone := absurd (h.unfinished.symm.trans hdone) (by decide)
  matched _ := h.commitments

variable {headers : List CBlockHeader} {s' : HeadersSyncState}
theorem Presyncing.batch (h : Presyncing env origin presynced s)
    (hrun : validateAndStoreHeadersCommitments env s headers = (true, s')) :
    InPass env origin ⟨s', presynced++headers, [], []⟩ := by
  cases headers with
  | nil =>
    cases hrun
    rw [append_nil,InPass]
    simp only [h.pass]
    exact ⟨trivial,trivial,h⟩
  | cons first rest =>
    iterate 2 obtain ⟨-,hrun⟩ := guard_eq_true_iff.mp hrun
    split at hrun
    · cases hrun
    rename_i s₁ hloop
    have hb := processHeaders_ok (I := Presyncing env origin) (fun hI hok => hI.step hok) h hloop
    cases hrun
    split
    · exact ⟨[],rfl,hb.startRedownload,hb.unfinished,zero_le _⟩
    · rw [InPass]
      simp only [hb.pass]
      exact ⟨trivial,trivial,hb⟩

variable {released kept : List CBlockHeader}
theorem Redownloading.batch (h : Redownloading env origin presynced released kept s)
    (hrun : processHeaders (validateAndStoreRedownloadedHeader env) s headers = (true, s')) :
    Redownloading env origin presynced released (kept++headers) s' :=
  processHeaders_ok (I := Redownloading env origin presynced released) (fun hI hok => hI.step hok) h hrun

theorem Redownloading.releaseSafe (h : Redownloading env origin presynced released kept s)
    (hbef : s.processAllRemainingHeaders = false →
      released = [] ∨ WorkReached origin (released++kept) ∨
        released.length + redownloadBufferSize ≤ (released++kept).length) (st : HeadersSyncState) :
    ReleaseSafe env origin ⟨st, presynced, released++kept,
      released++kept.take (poppedCount s.processAllRemainingHeaders kept.length)⟩ where
  linked := h.linked
  oldest := (prefix_append_right_inj _).mpr ( take_prefix _ _)
  justified := by
    cases hall : s.processAllRemainingHeaders with
    | true => exact .inr (.inl (h.finished hall))
    | false =>
      have hm : bitsOf env origin (released++kept) <+: bitsOf env origin presynced := ⟨_,h.matched hall⟩
      simp only [poppedCount,Bool.false_eq_true,if_false]
      rcases lt_or_ge redownloadBufferSize kept.length with hl | hs
      · refine .inr (.inr ⟨?_,hm⟩)
        simp only [length_append,length_take]
        omega
      · rw [Nat.sub_eq_zero_of_le hs,take_zero,append_nil]
        rcases hbef hall with hn | hw | hlen
        · exact .inl hn
        · exact .inr (.inl hw)
        · exact .inr (.inr ⟨hlen,hm⟩)

theorem WorkReached.append (h : WorkReached origin headers)
    (more : List CBlockHeader) : WorkReached origin (headers++more) := by
  unfold WorkReached workOnTop at h ⊢
  rw [map_append,sum_append]
  omega

theorem processNextHeaders_eq (hemp : headers.isEmpty = false) (hs : s.downloadState ≠ .final) (full : Bool) :
    processNextHeaders env s headers full =
      let r := processPhase env s headers full
      (r.1, if (r.1.success && r.1.requestMore) = true then r.2 else r.2.finalize) := by
  rw [processNextHeaders,hemp,if_neg Bool.false_ne_true,if_neg hs]
  simp only
  split <;> rfl

variable {input : SyncCall}
theorem call_ignored (h : input.receivedHeaders.isEmpty = true ∨ t.state.downloadState = .final) :
    t.call env input = t := by
  have hn : t.state.processNextHeaders env input.receivedHeaders input.fullHeadersMessage =
      (⟨[],false,false⟩, t.state) := by
    rw [processNextHeaders]
    rcases h with hemp | hf
    · rw [if_pos hemp]
    · simp [hf]
  simp [SyncTrace.call,hn]
section Call
variable (hsafe : ReleaseSafe env origin t) (hpass : InPass env origin t)
include hsafe hpass

theorem call_presync (hs : t.state.downloadState = .presync) (hemp : input.receivedHeaders.isEmpty = false) :
    ReleaseSafe env origin (t.call env input) ∧ InPass env origin (t.call env input) := by
  simp only [InPass,hs] at hpass
  obtain ⟨hr,hre,hp⟩ := hpass
  have hf : t.state.downloadState ≠ .final := by simp [hs]
  rcases hrun : validateAndStoreHeadersCommitments env t.state input.receivedHeaders with ⟨ok,s'⟩
  cases ok with
  | false =>
    simp only [SyncTrace.call,processNextHeaders_eq hemp hf,hs,processPhase,hrun,append_nil]
    exact ⟨hsafe.nothing_new,inPass_finalize _ _ _ _⟩
  | true =>
    have hb := hp.batch hrun
    simp only [SyncTrace.call,processNextHeaders_eq hemp hf,hs,processPhase,hrun,hr,hre]
    refine ⟨⟨trivial,prefix_rfl,.inl rfl⟩,?_⟩
    split
    · exact hb
    · exact inPass_finalize _ _ _ _

theorem call_redownload
    (hs : t.state.downloadState = .redownload) (hemp : input.receivedHeaders.isEmpty = false) :
    ReleaseSafe env origin (t.call env input) ∧ InPass env origin (t.call env input) := by
  simp only [InPass,hs] at hpass
  obtain ⟨kept,hsp,hr,-,-⟩ := hpass
  have hf : t.state.downloadState ≠ .final := by simp [hs]
  rcases hrun : processHeaders (validateAndStoreRedownloadedHeader env) t.state
    input.receivedHeaders with ⟨ok,s'⟩
  cases ok with
  | false =>
    simp only [SyncTrace.call,processNextHeaders_eq hemp hf,hs,processPhase,hrun,append_nil]
    exact ⟨hsafe.nothing_new,inPass_finalize _ _ _ _⟩
  | true =>
    have hb := hr.batch hrun
    obtain ⟨hp,hall,hn⟩ := hb.pop
    simp only [SyncTrace.call,processNextHeaders_eq hemp hf,hs,processPhase,hrun,and_self,if_true,hsp,hp,
      append_assoc]
    constructor
    · apply hb.releaseSafe
      intro _
      rcases hsafe.justified with hno | hw | hlen
      · exact .inl hno
      · rw [hsp] at hw
        rw [← append_assoc]
        exact .inr (.inl (hw.append _))
      · rw [hsp] at hlen
        refine .inr (.inr (hlen.1.trans ?_))
        simp only [length_append]
        omega
    · split
      · rename_i hm
        have ho : s'.processAllRemainingHeaders = false := by
          by_contra hd
          rw [Bool.not_eq_false] at hd
          rw [hall,hn.buffer,hd] at hm
          simp [poppedCount] at hm
        rw [InPass]
        simp only [hn.pass]
        refine ⟨_,?_,hn,hall.trans ho,?_⟩
        · rw [append_assoc,take_append_drop]
        · rw [length_drop,poppedCount,ho,if_neg Bool.false_ne_true]
          omega
      · exact inPass_finalize _ _ _ _

theorem call_invariant (input : SyncCall) :
    ReleaseSafe env origin (t.call env input) ∧ InPass env origin (t.call env input) := by
  cases hemp : input.receivedHeaders.isEmpty with
  | true =>
    rw [call_ignored (.inl hemp)]
    exact ⟨hsafe,hpass⟩
  | false =>
    cases hs : t.state.downloadState with
    | presync => exact call_presync hsafe hpass hs hemp
    | redownload => exact call_redownload hsafe hpass hs hemp
    | final =>
      rw [call_ignored (.inr hs)]
      exact ⟨hsafe,hpass⟩
end Call

theorem run_invariant (calls : List SyncCall) (hsafe : ReleaseSafe env origin t) (hpass : InPass env origin t) :
    ReleaseSafe env origin (calls.foldl (SyncTrace.call env) t) ∧
      InPass env origin (calls.foldl (SyncTrace.call env) t) := by
  induction calls generalizing t with
  | nil => exact ⟨hsafe,hpass⟩
  | cons input rest ih =>
    obtain ⟨hs,hp⟩ := call_invariant hsafe hpass input
    exact ih hs hp

theorem InPass.bounds (h : InPass env origin t) :
    t.state.headerCommitments.length ≤ origin.maxCommitments ∧
      t.state.redownloadedHeaders.length ≤ redownloadBufferSize := by
  unfold InPass at h
  split at h
  · obtain ⟨-,-,hp⟩ := h
    exact ⟨hp.fits,by simp [hp.buffer]⟩
  · obtain ⟨kept,-,hr,-,hk⟩ := h
    exact ⟨hr.fits,by simpa [hr.buffer] using hk⟩
  · simp [h.1,h.2]
end Trace
end HeadersSyncState

/-! ## Released headers -/

def IndexChain.headers : IndexChain → List CBlockHeader
  | [] => []
  | entry::pprev => getBlockHeader entry pprev::headers pprev

/-- Every entry is stored under the hash of its header. -/
def IndexChain.Hashed (env : HeaderEnv) : IndexChain → Prop
  | [] => True
  | entry::pprev =>
    entry.phashBlock = env.getHash (getBlockHeader entry pprev) ∧ IndexChain.Hashed env pprev

instance (env : HeaderEnv) : (chain : IndexChain) → Decidable (chain.Hashed env)
  | [] => isTrue trivial
  | _::pprev =>
    have : Decidable (IndexChain.Hashed env pprev) := instDecidableHashed env pprev
    inferInstanceAs (Decidable (_ ∧ _))

/-- A chain of the block index hangs on the null hash, and ends with the hash of its last entry. -/
theorem IndexChain.Hashed.linked {env : HeaderEnv} {entry : CBlockIndex} {pprev : IndexChain}
    (h : IndexChain.Hashed env (entry::pprev)) :
    Linked env.getHash hashPrevBlock 0#256 (headers (entry::pprev)).reverse ∧
      tip env.getHash 0#256 (headers (entry::pprev)).reverse = entry.phashBlock := by
  induction pprev generalizing entry with
  | nil => exact ⟨⟨rfl,trivial⟩,h.1.symm⟩
  | cons parent rest ih =>
    obtain ⟨hl,htip⟩ := ih h.2
    rw [headers,reverse_cons,linked_concat,tip_concat]
    exact ⟨⟨hl,htip.symm⟩,h.1.symm⟩

/-- What a synchronisation releases, over all sequences of calls. No header is released twice as long as the
hashes of the chain and its start differ from one another and from the null hash. -/
theorem releasedHeaders_safe (env : HeaderEnv) (chainStart : BlockNode) (work : ArithUint256)
    (adjustedTime : Int) (salt : SyncSalt) (calls : List SyncCall) :
    let origin := new chainStart work adjustedTime salt
    let t := SyncTrace.run env origin calls
    Linked env.getHash hashPrevBlock chainStart.index.phashBlock t.released ∧
    t.released <+: t.redownloaded ∧
    (∀ n < t.released.length, work.toNat ≤ workOnTop chainStart t.redownloaded ∨
      (n + 1 + redownloadBufferSize ≤ t.redownloaded.length ∧
        commitmentBits env salt.hasher salt.commitOffset chainStart.index.nHeight t.redownloaded <+:
          commitmentBits env salt.hasher salt.commitOffset chainStart.index.nHeight t.presynced)) ∧
    t.state.headerCommitments.length ≤ maxCommitmentsFrom chainStart adjustedTime ∧
    t.state.redownloadedHeaders.length ≤ redownloadBufferSize ∧
    (chainStart.chain.Hashed env → Apart env.getHash 0#256 (chainStart.chain.headers.reverse++t.released) →
      t.released.Nodup) := by
  intro origin t
  have hinvariant : HeadersSyncState.ReleaseSafe env origin t ∧ HeadersSyncState.InPass env origin t := by
    apply run_invariant calls
    · exact ⟨trivial,prefix_rfl,.inl rfl⟩
    · exact ⟨rfl,rfl,⟨rfl,rfl,rfl,rfl,rfl⟩,rfl,rfl,zero_le _,rfl,rfl,rfl⟩
  obtain ⟨hsafe,hpass⟩ := hinvariant
  obtain ⟨kept,hkept⟩ := hsafe.oldest
  have hlink : Linked env.getHash hashPrevBlock origin.startHash t.released := by
    have hall := hsafe.linked
    rw [← hkept] at hall
    exact ((linked_append _ _ _).mp hall).1
  refine ⟨hlink,hsafe.oldest,?_,hpass.bounds.1,hpass.bounds.2,?_⟩
  · intro n hn
    rcases hsafe.justified with hnone | hwork | ⟨hlen,hmatched⟩
    · exact absurd hn (by simp [hnone])
    · exact .inl hwork
    · refine .inr ⟨le_trans ?_ hlen,hmatched⟩
      exact Nat.add_le_add_right hn _
  · intro hhashed hapart
    obtain ⟨hstart,htip⟩ := hhashed.linked
    have hwhole : Linked env.getHash hashPrevBlock 0#256
        (chainStart.chain.headers.reverse++t.released) := by
      rw [linked_append]
      exact ⟨hstart,htip ▸ hlink⟩
    exact (nodup_append.mp (hwhole.nodup hapart)).2.1

def syncStart : BlockNode where
  index :=
    { phashBlock := 1#256
      nHeight := 0
      nChainWork := 2#256
      nVersion := 4
      hashMerkleRoot := 0#256
      nTime := 1667196479#32
      nBits := 0x207fffff#32
      nNonce := 0#32
      nTimeMax := 1667196479#32 }
  pprev := []
  nStatus := blockValidTree

def syncHeader (hashPrevBlock : Uint256) (nNonce : BitVec 32) : CBlockHeader :=
  ⟨4, hashPrevBlock, 0#256, 1667196539#32, 0x207fffff#32, nNonce⟩

def twoHeaders : List CBlockHeader := [syncHeader 1#256 1#32, syncHeader 2#256 2#32]

def syncEnv : HeaderEnv where
  params := mainParams
  getHash header := header.nNonce.setWidth 256 + 1#256
  fCheckpointsEnabled := true

/-- Two passes over the same two headers, which reach the required work with the second. -/
def twoPasses : SyncTrace :=
  SyncTrace.run syncEnv (new syncStart 6#256 1667196539 ⟨fun hash => hash.getLsbD 0, 1⟩)
    [⟨twoHeaders, true⟩, ⟨twoHeaders, true⟩]

theorem twoPasses_released : twoPasses.released = twoHeaders ∧ twoPasses.released.Nodup := by
  refine ⟨by decide +kernel,?_⟩
  apply (releasedHeaders_safe syncEnv syncStart 6#256 1667196539 ⟨fun hash => hash.getLsbD 0,1⟩
    [⟨twoHeaders,true⟩,⟨twoHeaders,true⟩]).2.2.2.2.2
  · decide +kernel
  · decide +kernel
end Lcryp
