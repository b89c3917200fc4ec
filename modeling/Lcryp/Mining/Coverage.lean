import Lcryp.Mining.NonceSearch

/-!
# Which nonces the workers cover

A worker's search is one pass from its random start and, perhaps, a second one from the lower bound.  Where
a pass may end is a matter of the multiples of 4096 and of the hashes that pass the filter.
-/
namespace Lcryp.BlockMining
open BitVec Nat Arc Option
variable (env : MinerEnv)

def searchStep (worker : MinerWorker) (thread : MinerThread)
    (input : NodeView env × Nat) : Option MinerThread :=
  match thread.point with
  | .scanning _ | .checking _ => generateBlock env worker thread input
  | _ => none

variable (thread : MinerThread)

def nonces : List (BitVec 32) := thread.hashed.map fun block => block.header.nNonce

def searching (round : MinerRound) (start : BitVec 32) : MinerThread :=
  { thread with hashed := [], point := .scanning { round with nNonce := start, countNonce := 0#32 } }

/-- A nonce at which `ScanHash` may return: a multiple of 4096, or one whose hash passes the filter at some
time of the block. -/
def CanStop (header : CBlockHeader) (nonce : BitVec 32) : Prop :=
  nonce.toNat % 4096 = 0 ∨
    ∃ nTime, topWordZero (env.getHash { header with nTime := nTime, nNonce := nonce }) = true

/-- A search from a random start until the inner loop is left because enough nonces were counted. -/
structure ExhaustedSearch (range : BitVec 32 × BitVec 32) where
  nStart : Int
  rand : Nat
  thread : MinerThread
  round : MinerRound
  inputs : List (NodeView env × Nat)
  last : MinerThread
  run_eq : Run.run (searchStep env ⟨range.1, range.2, nStart⟩)
    (searching thread round (random ⟨range.1, range.2, nStart⟩ rand)) inputs = some last
  exhausted : last.point = .exhausted

variable {env : MinerEnv} {range : BitVec 32 × BitVec 32}

namespace ExhaustedSearch
variable (search : ExhaustedSearch env range)
def worker : MinerWorker := ⟨range.1, range.2, search.nStart⟩
def start : BitVec 32 := random search.worker search.rand
def nonces (search : ExhaustedSearch env range) : List (BitVec 32) := BlockMining.nonces search.last
def canStop (x : Nat) : Prop := CanStop env search.round.block.header (BitVec.ofNat 32 x)
end ExhaustedSearch

abbrev width (worker : MinerWorker) : Nat := (worker.max-worker.min).toNat

/-- A range with nonces in it that leaves the counter room for one more scan, or with none above it. -/
structure Roomy (worker : MinerWorker) : Prop where
  lt : worker.min < worker.max
  room : worker.max = 4294967295#32 ∨ width worker + 4096 ≤ 2^32

/-- How far `ScanHash` may go past the upper bound. -/
def overshoot (max : BitVec 32) : Nat := 4096 - max.toNat % 4096

variable {thread : MinerThread} {round : MinerRound}

section Search
variable {worker : MinerWorker} {start : BitVec 32}

theorem Roomy.width (h : Roomy worker) : width worker + worker.min.toNat = worker.max.toNat := by
  have hlt : worker.min.toNat < worker.max.toNat := h.lt
  rw [BlockMining.width,toNat_sub_of_le (BitVec.le_of_lt h.lt)]
  omega

/-- The passes made so far and the nonce they have reached. -/
structure Passes (worker : MinerWorker) (stop : BitVec 32 → Prop) (start : BitVec 32)
    (tried : List (BitVec 32)) (nNonce : BitVec 32) (first second : Nat) : Prop where
  tried : tried = words start first++words worker.min second
  reached : second = 0 ∧ nNonce = start + BitVec.ofNat 32 first ∨
    nNonce = worker.min + BitVec.ofNat 32 second ∧ worker.max < start + BitVec.ofNat 32 first ∧
      stop (start + BitVec.ofNat 32 first) ∧ first < width worker
  within : start.toNat + first ≤ worker.max.toNat + overshoot worker.max ∨ worker.max = 4294967295#32 ∨
    2^32 ≤ worker.max.toNat + overshoot worker.max ∧ 2^32 < start.toNat + width worker

section Steps
variable {stop : BitVec 32 → Prop} {tried : List (BitVec 32)} {nNonce : BitVec 32} {first second : Nat}

theorem Passes.scan (h : Passes worker stop start tried nNonce first second) (hlow : nNonce ≤ worker.max)
    (hcount : worker.max = 4294967295#32 ∨ first + second < width worker) {length : Nat}
    (hle : length ≤ 4096 - nNonce.toNat % 4096) :
    ∃ first' second', first' + second' = first + second + length ∧
      Passes worker stop start (tried++words nNonce length) (nNonce + BitVec.ofNat 32 length) first'
        second' := by
  rcases h.reached with ⟨rfl,hn⟩ | ⟨hn,hturn⟩
  · refine ⟨first+length,0,by omega,?_,.inl ⟨rfl,?_⟩,?_⟩
    · rw [h.tried,hn,← words_append start first length]
      simp [words]
    · rw [hn,ofNat_add,add_assoc]
    · -- The last multiple of 4096 before the upper bound is no later than the one before the scan ends.
      rcases h.within with hbefore | hpast
      · have hmax : nNonce.toNat ≤ worker.max.toNat := hlow
        have hnat : nNonce.toNat = (start.toNat + first) % 2^32 := by rw [hn,toNat_add,toNat_ofNat,add_mod_mod]
        rcases lt_or_ge (start.toNat+first) (2^32) with hsmall | hbig
        · rw [mod_eq_of_lt hsmall] at hnat
          unfold overshoot at hbefore ⊢
          omega
        · exact .inr (hcount.imp_right fun hless => by omega)
      · exact .inr hpast
  · refine ⟨first,second+length,by omega,?_,.inr ⟨?_,hturn⟩,h.within⟩
    · rw [h.tried,hn,List.append_assoc,words_append]
    · rw [hn,ofNat_add,add_assoc]

/-- A thread is sent back to the lower bound at most once: the second pass is over before the upper bound. -/
theorem Passes.wrap (h : Passes worker stop start tried nNonce first second) (hstop : stop nNonce)
    (hro : Roomy worker)
    (hcount : worker.max = 4294967295#32 ∨ first + second < width worker) :
    Passes worker stop start tried (if nNonce > worker.max then worker.min else nNonce) first second := by
  split
  next hpa =>
    have hp : worker.max.toNat < nNonce.toNat := hpa
    have hlt : first + second < width worker := hcount.resolve_left fun hall => by bv_omega
    rcases h.reached with ⟨rfl,hn⟩ | ⟨hn,-⟩
    · exact ⟨h.tried,.inr ⟨by simp,hn ▸ hpa,hn ▸ hstop,hlt⟩,h.within⟩
    have hw := hro.width
    rw [hn,toNat_add,toNat_ofNat] at hp
    omega
  · exact h
end Steps

def Searching (env : MinerEnv) (worker : MinerWorker) (header : CBlockHeader) (start : BitVec 32)
    (thread : MinerThread) : Prop :=
  match thread.point with
  | .scanning round => ∃ first second nTime,
      Passes worker (CanStop env header) start (nonces thread) round.nNonce first second ∧
        round.block.header = { header with nTime := nTime } ∧ round.nNonce ≤ worker.max ∧
        round.countNonce = BitVec.ofNat 32 (first+second) ∧
        (worker.max = 4294967295#32 ∨ first + second < width worker)
  | .checking round => ∃ first second nTime,
      Passes worker (CanStop env header) start (nonces thread) round.nNonce first second ∧
        round.block.header = { header with nTime := nTime } ∧ CanStop env header round.nNonce ∧
        round.countNonce = BitVec.ofNat 32 (first+second) ∧
        (worker.max = 4294967295#32 ∨ first + second < 2^32)
  | .exhausted => ∃ first second nNonce,
      Passes worker (CanStop env header) start (nonces thread) nNonce first second ∧
        CanStop env header nNonce ∧ width worker ≤ first + second
  | _ => True

theorem nonces_scan (thread : MinerThread) (block : CBlock) (tried : List (BitVec 32)) (point : MinerPoint) :
    nonces { thread with hashed := thread.hashed++tried.map (withNonce block), point := point } =
      nonces thread++tried := by
  simp [nonces,withNonce,Function.comp_def]

variable {header : CBlockHeader}

theorem searching_scan (hr : Roomy worker) (hpo : thread.point = .scanning round)
    (h : Searching env worker header start thread) (node : NodeView env) :
    Searching env worker header start (scan node thread round) := by
  rw [Searching,hpo] at h
  obtain ⟨first,second,nTime,hpa,hblock,hlow,hcnt,hro⟩ := h
  cases hb : node.miningBusy with
  | false =>
    rw [scan_idle hb]
    trivial
  | true =>
    obtain ⟨length,ht⟩ := scanHash_tried env.getHash round.block.header round.nNonce round.countNonce
    obtain ⟨first',second',hsum,hp⟩ := hpa.scan hlow hro ht.le
    rw [scan_busy hb,Searching,nonces_scan,afterScan]
    split_ifs
    · trivial
    refine ⟨first',second',nTime,?_,hblock,?_,?_,?_⟩
    · rw [scanOf,ht.hashed,ht.nNonce]
      exact hp
    · rcases ht.stop with hf | hlow
      · have hsame : ∀ nonce, ({ header with nTime := nTime, nNonce := nonce } : CBlockHeader) =
            { round.block.header with nNonce := nonce } := fun nonce => by rw [hblock]
        refine .inr ⟨nTime,?_⟩
        rw [hsame]
        exact (congrArg topWordZero ht.hash).symm.trans (ht.found.symm.trans hf)
      · exact .inl hlow
    · rw [hsum,ofNat_add,← hcnt]
      exact ht.countNonce
    · have hle := ht.le
      rcases hr.room with hall | hroom
      · exact .inl hall
      · exact hro.imp_right fun _ => by omega

theorem searching_check (hro : Roomy worker) (hpo : thread.point = .checking round)
    (h : Searching env worker header start thread) (node : NodeView env) :
    Searching env worker header start { thread with point := check worker node round } := by
  rw [Searching,hpo] at h
  obtain ⟨first,second,nTime,hp,hblock,hstop,hcnt,hroom⟩ := h
  rcases check_cases worker node round with ⟨exit,hc⟩ | ⟨hc,hge⟩ | ⟨hlt,nTime',hc⟩
  · rw [hc]
    trivial
  · rw [hc]
    have hle : width worker ≤ round.countNonce.toNat := hge
    rw [hcnt,toNat_ofNat] at hle
    exact ⟨first,second,round.nNonce,hp,hstop,by omega⟩
  · rw [hc]
    have hr : worker.max = 4294967295#32 ∨ first + second < width worker := by
      refine hroom.imp_right fun hsmall => ?_
      have hl : round.countNonce.toNat < width worker := hlt
      rwa [hcnt,toNat_ofNat,mod_eq_of_lt hsmall] at hl
    refine ⟨first,second,nTime',hp.wrap hstop hro hr,?_,?_,hcnt,hr⟩
    · show { round.block.header with nTime := nTime' } = _
      rw [hblock]
    · show (if round.nNonce > worker.max then worker.min else round.nNonce) ≤ worker.max
      split
      · exact BitVec.le_of_lt hro.lt
      · exact BitVec.not_lt.mp ‹_›

theorem searching_step (hr : Roomy worker) {thread thread' : MinerThread} {input : NodeView env × Nat}
    (h : Searching env worker header start thread) (hs : searchStep env worker thread input = some thread') :
    Searching env worker header start thread' := by
  cases hp : thread.point with
  | scanning round =>
    simp only [searchStep,generateBlock,hp,some.injEq] at hs
    exact hs ▸ searching_scan hr hp h input.1
  | checking round =>
    simp only [searchStep,generateBlock,hp,some.injEq] at hs
    exact hs ▸ searching_check hr hp h input.1
  | outer | assembling _ _ | exhausted | returned _ => simp [searchStep,hp] at hs
end Search

namespace ExhaustedSearch
variable (search : ExhaustedSearch env range)

/-- A finished search: its two passes in natural numbers, each ended at a nonce where `ScanHash` may return. -/
structure Ended (first second : Nat) : Prop where
  nonces : search.nonces = words search.start first++words range.1 second
  enough : range.2.toNat ≤ range.1.toNat + (first + second)
  reaches : range.2.toNat ≤ search.start.toNat + first
  stopped : search.canStop (search.start.toNat + first)
  within : search.start.toNat + first ≤ range.2.toNat + overshoot range.2 ∨ range.2 = 4294967295#32 ∨
    2^32 ≤ range.2.toNat + overshoot range.2 ∧ 2^32 < search.start.toNat + (range.2-range.1).toNat
  turned : second = 0 ∨ range.1.toNat + 2 ≤ search.start.toNat ∧ search.canStop (range.1.toNat + second)

variable {search}

theorem start_toNat (hr : Roomy search.worker) :
    search.start.toNat = range.1.toNat + search.rand % (range.2-range.1).toNat ∧
      search.start.toNat < range.2.toNat := by
  have hw : (range.2-range.1).toNat + range.1.toNat = range.2.toNat := hr.width
  have hlt : range.1.toNat < range.2.toNat := hr.lt
  have hmod := mod_lt search.rand (show 0 < (range.2-range.1).toNat by omega)
  have hs : search.start.toNat = range.1.toNat + search.rand % (range.2-range.1).toNat := by
    show (range.1 + BitVec.ofNat 32 (search.rand % (range.2-range.1).toNat)).toNat = _
    rw [toNat_add,toNat_ofNat]
    omega
  omega

theorem exists_ended (hr : Roomy search.worker) : ∃ first second, search.Ended first second := by
  obtain ⟨hlow,hhigh⟩ := start_toNat hr
  have hw : (range.2-range.1).toNat + range.1.toNat = range.2.toNat := hr.width
  have hb : Searching env search.worker search.round.block.header search.start
      (searching search.thread search.round search.start) := by
    refine ⟨0,0,search.round.block.header.nTime,⟨rfl,.inl ⟨rfl,by simp⟩,.inl ?_⟩,rfl,?_,rfl,?_⟩
    · show search.start.toNat + 0 ≤ range.2.toNat + _
      omega
    · exact le_of_lt hhigh
    · right
      show 0 + 0 < (range.2-range.1).toNat
      omega
  have hend := Run.run_invariant (fun _ _ _ h hstep => searching_step hr h hstep) search.inputs
    _ _ hb search.run_eq
  rw [Searching,search.exhausted] at hend
  obtain ⟨first,second,nNonce,hp,hstop,hge⟩ := hend
  have hcast : ∀ (x : BitVec 32) (n : Nat),
      CanStop env search.round.block.header (x + BitVec.ofNat 32 n) → search.canStop (x.toNat + n) := by
    intro x n hx
    rwa [canStop,ofNat_add,ofNat_toNat,setWidth_eq]
  have hge' : (range.2-range.1).toNat ≤ first + second := hge
  have henough : range.2.toNat ≤ range.1.toNat + (first + second) := by omega
  rcases hp.reached with ⟨rfl,rfl⟩ | ⟨rfl,hturn,hfirst,hless⟩
  · exact ⟨first,0,hp.tried,henough,by omega,hcast search.start first hstop,hp.within,.inl rfl⟩
  · have hpast : range.2.toNat < (search.start + BitVec.ofNat 32 first).toNat := hturn
    have hless' : first < (range.2-range.1).toNat := hless
    rw [toNat_add,toNat_ofNat] at hpast
    exact ⟨first,second,hp.tried,henough,by omega,hcast search.start first hfirst,hp.within,
      .inr ⟨by omega,hcast range.1 second hstop⟩⟩

/-- A first pass goes on beyond the upper bound until `ScanHash` may return. -/
theorem tried_upto (hr : Roomy search.worker) {x y : Nat}
    (hno : ∀ z, range.2.toNat ≤ z → z < y → ¬ search.canStop z) (hlt : search.start.toNat < x)
    (hle : x ≤ max range.2.toNat y) : BitVec.ofNat 32 x ∈ search.nonces := by
  obtain ⟨first,second,h⟩ := exists_ended hr
  have hreach := h.reaches
  have hy : y ≤ search.start.toNat + first := not_lt.mp fun hlt => hno _ hreach hlt h.stopped
  rw [h.nonces]
  exact List.mem_append_left _ (ofNat_mem_words hlt (hle.trans (max_le hreach hy)))

/-- A start so far above the lower bound that the worker is sent back, with no end of a pass in the last nonces
before it that the overshoot takes away from the second pass. -/
structure Returns (search : ExhaustedSearch env range) : Prop where
  turns : range.2.toNat + overshoot range.2 < 2^32
  above : range.1.toNat + overshoot range.2 < search.start.toNat
  free : ∀ x, search.start.toNat - overshoot range.2 ≤ x → x < search.start.toNat → ¬ search.canStop x

theorem Returns.tried (h : search.Returns) (hr : Roomy search.worker) {x : Nat}
    (hlt : range.1.toNat < x) (hle : x ≤ search.start.toNat) : BitVec.ofNat 32 x ∈ search.nonces := by
  obtain ⟨first,second,hend⟩ := exists_ended hr
  obtain ⟨hlow,hhigh⟩ := start_toNat hr
  have hturns := h.turns
  have hwithin : search.start.toNat + first ≤ range.2.toNat + overshoot range.2 := by
    rcases hend.within with hle | hall | ⟨hover,-⟩
    · exact hle
    · rw [hall] at hturns
      exact absurd hturns (by decide)
    · omega
  have henough := hend.enough
  have habove := h.above
  rcases hend.turned with hsnd | ⟨-,hstop⟩
  · omega
  · have hback : search.start.toNat ≤ range.1.toNat + second :=
      not_lt.mp fun hlt => h.free _ (by omega) hlt hstop
    rw [hend.nonces]
    exact List.mem_append_right _ (ofNat_mem_words hlt (hle.trans hback))
end ExhaustedSearch

def workerRange (nGenProcLimit n : Nat) : BitVec 32 × BitVec 32 :=
  (workerRanges nGenProcLimit).getD n (0#32, 0#32)
def rangeStep (nGenProcLimit : Nat) : Nat := 4294967295 / nGenProcLimit

private theorem startWorkers_getElem? (step min : BitVec 32) {left i : Nat} (hi : i < left) :
    (startWorkers step left min (min+step))[i]? =
      some (min + BitVec.ofNat 32 i * step, min + BitVec.ofNat 32 (i+1) * step) := by
  induction left generalizing min i with
  | zero => omega
  | succ left ih =>
    rw [startWorkers]
    cases i with
    | zero => simp
    | succ i =>
      have hs : ∀ n, min + step + BitVec.ofNat 32 n * step = min + BitVec.ofNat 32 (n+1) * step := by
        intro n
        rw [ofNat_add,add_mul,BitVec.one_mul]
        abel
      rw [if_neg (by omega),List.getElem?_cons_succ,ih (min+step) (by omega),hs,hs]

variable {nGenProcLimit n : Nat}
theorem workerRange_toNat (hl : nGenProcLimit < 2^31) (hn : n < nGenProcLimit) :
    (workerRange nGenProcLimit n).1.toNat = n * rangeStep nGenProcLimit ∧
      (workerRange nGenProcLimit n).2.toNat = (n+1) * rangeStep nGenProcLimit := by
  have hs : (4294967295#32 / BitVec.ofNat 32 nGenProcLimit).toNat = rangeStep nGenProcLimit := by
    rw [toNat_udiv,toNat_ofNat,toNat_ofNat,mod_eq_of_lt (by omega),mod_eq_of_lt (by omega),rangeStep]
  -- No bound of a worker leaves 32 bits.
  have hf : ∀ m ≤ nGenProcLimit,
      (BitVec.ofNat 32 m * (4294967295#32 / BitVec.ofNat 32 nGenProcLimit)).toNat =
        m * rangeStep nGenProcLimit := by
    intro m hm
    have hle : m * rangeStep nGenProcLimit ≤ 4294967295 := (mul_le_mul_right _ hm).trans (mul_div_le _ _)
    rw [toNat_mul,hs,toNat_ofNat,mod_eq_of_lt (by omega : m < 2^32),mod_eq_of_lt (by omega)]
  have hr := startWorkers_getElem? (4294967295#32 / BitVec.ofNat 32 nGenProcLimit) 0#32 hn
  rw [BitVec.zero_add] at hr
  rw [workerRange,workerRanges,List.getD_eq_getElem?_getD,hr]
  simp only [BitVec.zero_add]
  exact ⟨hf n hn.le,hf (n+1) hn⟩

theorem worker_roomy (hli : nGenProcLimit < 2^31) (hn : n < nGenProcLimit) (nStart : Int) :
    Roomy ⟨(workerRange nGenProcLimit n).1, (workerRange nGenProcLimit n).2, nStart⟩ := by
  obtain ⟨hmin,hmax⟩ := workerRange_toNat hli hn
  have hs : 0 < rangeStep nGenProcLimit := div_pos (by omega) (by omega)
  have hlt : (workerRange nGenProcLimit n).1 < (workerRange nGenProcLimit n).2 := by
    rw [lt_def,hmin,hmax]
    exact mul_lt_mul_of_pos_right (lt_succ_self n) hs
  refine ⟨hlt,?_⟩
  rcases lt_or_ge 1 nGenProcLimit with hm | hone
  · right
    have hh : rangeStep nGenProcLimit ≤ 4294967295 / 2 := div_le_div_left hm (by omega)
    rw [width,toNat_sub_of_le (BitVec.le_of_lt hlt),hmax,hmin,Nat.add_mul]
    omega
  · left
    have hl : nGenProcLimit = 1 := by omega
    obtain rfl : n = 0 := by omega
    rw [hl]
    rfl

section Workers
variable {others : Nat}
    (searches : (n : Fin (others+1)) → ExhaustedSearch env (workerRange (others+1) n))

/-- Every worker's start is met: by its own second pass, or by the pass of the worker before it.  The last pass
gets past 2^32. -/
structure StartsMet : Prop where
  first : (searches 0).start.toNat = 0 ∨ (searches 0).Returns
  next : ∀ n : Fin others, (searches n.succ).Returns ∨
    ∀ x, (workerRange (others+1) n).2.toNat ≤ x → x < (searches n.succ).start.toNat →
      ¬ (searches n.castSucc).canStop x
  through : ∀ x, (workerRange (others+1) others).2.toNat ≤ x → x < 2^32 →
    ¬ (searches (Fin.last others)).canStop x

variable {searches}

/-- The nonces of a worker's range up to its start. -/
theorem StartsMet.tried_below (h : StartsMet searches) (hlimit : others + 1 < 2^31) (n : Fin (others+1)) {x : Nat}
    (hlt : (workerRange (others+1) n).1.toNat < x) (hle : x ≤ (searches n).start.toNat) :
    ∃ n, BitVec.ofNat 32 x ∈ (searches n).nonces := by
  have hroomy := fun m : Fin (others+1) => worker_roomy hlimit m.isLt (searches m).nStart
  cases n using Fin.cases with
  | zero =>
    rcases h.first with hzero | hret
    · omega
    · exact ⟨0,hret.tried (hroomy 0) hlt hle⟩
  | succ n =>
    rcases h.next n with hret | hno
    · exact ⟨n.succ,hret.tried (hroomy n.succ) hlt hle⟩
    obtain ⟨-,hmax⟩ := workerRange_toNat hlimit n.castSucc.isLt
    obtain ⟨hmin,-⟩ := workerRange_toNat hlimit n.succ.isLt
    obtain ⟨-,hstart⟩ := ExhaustedSearch.start_toNat (hroomy n.castSucc)
    have hadj : (workerRange (others+1) n.castSucc).2.toNat = (workerRange (others+1) n.succ).1.toNat := by
      rw [hmax,hmin]
      rfl
    exact ⟨n.castSucc,ExhaustedSearch.tried_upto (hroomy n.castSucc) hno (by omega) (by omega)⟩

end Workers

structure QuietRound (round : MinerRound) : Prop where
  updated : round.nTransactionsUpdatedLast = 0
  prev : round.pindexPrev = ⟨mainGenesis, []⟩
  time : round.block.header.nTime.toNat ≤ 1667196480

private theorem updateTime_quiet {block : CBlockHeader} (h : block.nTime.toNat ≤ 1667196480) :
    ∃ nTime moved, updateTime mainParams 0 ⟨mainGenesis, []⟩ block = some ({ block with nTime := nTime }, moved) ∧
      nTime.toNat ≤ 1667196480 ∧ 0 ≤ moved := by
  have hm : IndexChain.getMedianTimePast (IndexPtr.chain ⟨mainGenesis,[]⟩) = 1667196479 := by decide
  have hpow : mainParams.fPowAllowMinDifficultyBlocks = false := rfl
  simp only [updateTime,hpow,Bool.false_eq_true,if_false]
  split
  · exact ⟨_,_,rfl,by decide,by omega⟩
  · exact ⟨block.nTime,_,rfl,h,by omega⟩

variable (worker : MinerWorker)
theorem check_quiet (h : QuietRound round) (hl : round.countNonce < worker.max - worker.min) :
    ∃ nTime, check worker (genesisView 0) round = .scanning (wrapNonce worker (atTime round nTime)) ∧
      QuietRound (atTime round nTime) := by
  obtain ⟨nTime,moved,hupd,ht,hm⟩ := updateTime_quiet h.time
  have hcnt : ¬ round.countNonce ≥ worker.max - worker.min := BitVec.not_le.mpr hl
  have hc : check worker (genesisView 0) round =
      if round.nNonce &&& 0xfffff#32 = 0#32 then refresh worker (genesisView 0) round
      else .scanning (wrapNonce worker round) := by
    simp [check,hashView,freshView,hcnt]
  rw [hc]
  split
  · refine ⟨nTime,?_,h.updated,h.prev,ht⟩
    have hprm : constantEnv.params = mainParams := rfl
    have hpow : mainParams.fPowAllowMinDifficultyBlocks = false := rfl
    simp [refresh,hashView,freshView,h.updated,h.prev,hprm,hupd,hpow,Int.not_lt.mpr hm,atTime]
  · exact ⟨round.block.header.nTime,rfl,h⟩

private theorem quiet_scan (hp : thread.point = .scanning round) (h : QuietRound round) :
    ∃ thread' round' length, 0 < length ∧ length ≤ 4096 ∧
      searchStep constantEnv worker thread (genesisView 0, 0) = some thread' ∧
      thread'.point = .checking round' ∧ QuietRound round' ∧
      round'.countNonce = round.countNonce + BitVec.ofNat 32 length := by
  obtain ⟨length,hs⟩ := scanHash_tried constantEnv.getHash round.block.header round.nNonce round.countNonce
  have hm : (scanOf constantEnv round).found = false :=
    hs.found.trans ((congrArg topWordZero hs.hash).trans (constantEnv_missed _))
  have ha : afterScan (genesisView 0) round (scanOf constantEnv round) =
      .checking { round with
        nNonce := (scanOf constantEnv round).nNonce
        countNonce := (scanOf constantEnv round).countNonce } := by
    simp [afterScan,hm]
  have hst : searchStep constantEnv worker thread (genesisView 0, 0) =
      some (scan (genesisView 0) thread round) := by
    simp [searchStep,generateBlock,hp]
  have hle := hs.le
  rw [scan_busy (rfl : (genesisView 0).miningBusy = true),ha] at hst
  exact ⟨_,_,length,hs.pos,by omega,hst,rfl,⟨h.updated,h.prev,h.time⟩,hs.countNonce⟩

theorem quiet_run (hroom : width worker + 4096 ≤ 2^32) (thread : MinerThread)
    (round : MinerRound) (hp : thread.point = .scanning round) (h : QuietRound round)
    (hlt : round.countNonce < worker.max - worker.min) :
    ∃ inputs last, Run.run (searchStep constantEnv worker) thread inputs = some last ∧
      last.point = .exhausted := by
  -- Every turn of the loop counts at least one nonce of those that are still missing.
  induction hleft : width worker - round.countNonce.toNat using Nat.strong_induction_on
    generalizing thread round with
  | _ left ih =>
  obtain ⟨scanned,checked,length,hpos,hshort,hsa,hch,hq,hcount⟩ := quiet_scan worker hp h
  have hl : round.countNonce.toNat < width worker := hlt
  have hcnt : checked.countNonce.toNat = round.countNonce.toNat + length := by
    rw [hcount,toNat_add,toNat_ofNat]
    omega
  have hc : searchStep constantEnv worker scanned (genesisView 0, 0) =
      some { scanned with point := check worker (genesisView 0) checked } := by
    simp [searchStep,generateBlock,hch]
  by_cases hless : checked.countNonce < worker.max - worker.min
  · obtain ⟨nTime,hsc,ht⟩ := check_quiet worker hq hless
    rw [hsc] at hc
    have hl' : checked.countNonce.toNat < width worker := hless
    obtain ⟨inputs,last,hrun,hlast⟩ := ih (width worker - checked.countNonce.toNat) (by omega)
      { scanned with point := .scanning (wrapNonce worker (atTime checked nTime)) }
      (wrapNonce worker (atTime checked nTime)) rfl ⟨ht.updated,ht.prev,ht.time⟩ hless rfl
    refine ⟨(genesisView 0, 0)::(genesisView 0, 0)::inputs,last,?_,hlast⟩
    rw [Run.run,hsa,bind_some,Run.run,hc]
    exact hrun
  · have hend : check worker (genesisView 0) checked = .exhausted := by
      simp [check,hashView,freshView,BitVec.not_lt.mp hless]
    rw [hend] at hc
    refine ⟨[(genesisView 0, 0),(genesisView 0, 0)],{ scanned with point := .exhausted },?_,rfl⟩
    rw [Run.run,hsa,bind_some,Run.run,hc,bind_some,Run.run]

theorem fourWorkers_toNat (n : Fin 4) : (workerRange 4 n).1.toNat = n * 1073741823 ∧
    (workerRange 4 n).2.toNat = (n+1) * 1073741823 ∧
    ((workerRange 4 n).2-(workerRange 4 n).1).toNat = 1073741823 := by
  revert n
  decide

/-- No hash passes the filter and nothing else stops the worker. -/
theorem exists_quietSearch (n : Fin 4) {above : Nat} (ha : above ≤ 1) :
    ∃ search : ExhaustedSearch constantEnv (workerRange 4 n),
      search.start.toNat = (workerRange 4 n).1.toNat + above := by
  obtain ⟨-,-,hwidth⟩ := fourWorkers_toNat n
  have hti : (easyRound 0#32).block.header.nTime.toNat ≤ 1667196480 := by decide
  obtain ⟨inputs,last,hrun,hexhausted⟩ := quiet_run ⟨(workerRange 4 n).1,(workerRange 4 n).2,0⟩
    (by dsimp only [width]; omega) (searching started (easyRound 0#32) (random ⟨(workerRange 4 n).1,(workerRange 4 n).2,0⟩ above))
    _ rfl ⟨rfl,rfl,hti⟩ (by rw [lt_def]; dsimp only; rw [hwidth]; decide)
  let search : ExhaustedSearch constantEnv (workerRange 4 n) :=
    ⟨0,above,started,easyRound 0#32,inputs,last,hrun,hexhausted⟩
  have hroomy : Roomy search.worker := worker_roomy (by norm_num) n.isLt 0
  have hstart := (ExhaustedSearch.start_toNat hroomy).1
  rw [hwidth] at hstart
  exact ⟨search,hstart.trans (congrArg _ (mod_eq_of_lt (by show above < _; omega)))⟩

theorem constantEnv_canStop {range : BitVec 32 × BitVec 32} (search : ExhaustedSearch constantEnv range) {x : Nat}
    (hx : x < 2^32) (hlow : x % 4096 ≠ 0) : ¬ search.canStop x := by
  rintro (hstop | ⟨nTime,htop⟩)
  · rw [toNat_ofNat,mod_eq_of_lt hx] at hstop
    exact hlow hstop
  · rw [constantEnv_missed] at htop
    cases htop

/-- A worker that starts at its lower bound or just above makes one pass, which is over at 2^32. -/
theorem nonce_one_missed {n : Fin 4} {search : ExhaustedSearch constantEnv (workerRange 4 n)}
    (hstart : search.start.toNat = (workerRange 4 n).1.toNat + if n = 0 then 1 else 0) : 1#32 ∉ search.nonces := by
  obtain ⟨hmin,hmax,hwidth⟩ := fourWorkers_toNat n
  obtain ⟨first,second,hend⟩ := ExhaustedSearch.exists_ended (worker_roomy (by norm_num) n.isLt search.nStart)
  have hlt := n.isLt
  have hrange : 1 ≤ search.start.toNat ∧ search.start.toNat ≤ (workerRange 4 n).1.toNat + 1 := by
    split at hstart <;> omega
  have hover : search.start.toNat + first ≤ 2^32 := by
    rcases hend.within with hle | hall | ⟨-,hlt⟩
    · unfold overshoot at hle
      omega
    · rw [hall] at hmax
      simp at hmax
      omega
    · omega
  obtain rfl : second = 0 := hend.turned.resolve_right fun hturn => by omega
  rw [hend.nonces]
  intro hmem
  obtain ⟨i,hi,hil,heq⟩ := mem_words.mp (by simpa [words] using hmem)
  have hnat := congrArg BitVec.toNat heq
  rw [toNat_add,toNat_ofNat,toNat_ofNat] at hnat
  omega

end Lcryp.BlockMining
