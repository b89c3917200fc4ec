import Lcryp.Pow.Midas

/-!
# Divisors and targets of the regulator

The median-time rule bounds one block against eleven; the regulator compares the tip with its ancestors.
-/
namespace Lcryp
open Int
/-- The time `k` blocks back, or of the first block when there are fewer. -/
def timeBack : Int → IndexChain → Nat → Int
  | time, [], _ => time
  | time, _::_, 0 => time
  | _, pprev::rest, k+1 => timeBack pprev.getBlockTime rest k

@[simp]
theorem timeBack_zero (time : Int) (pprev : IndexChain) : timeBack time pprev 0 = time := by
  cases pprev <;> rfl

private theorem window_step (time : Int) (parent : CBlockIndex) (rest : IndexChain)
    (window b : Nat) (sum : Int) :
    (if b < window then sum + (time-parent.getBlockTime) else sum) +
        (parent.getBlockTime - timeBack parent.getBlockTime rest (window - (b+1))) =
      sum + (time - timeBack time (parent::rest) (window-b)) := by
  by_cases h : b < window
  · rw [show window - b = window - (b+1) + 1 by omega,timeBack]
    omega
  · rw [if_neg h,show window - (b+1) = 0 by omega,show window - b = 0 by omega]
    simp

/-- Each sum of the loop telescopes to the distance between two timestamps. -/
theorem intervalLoop_spec (pprev : IndexChain) (b : Nat) (s : IntervalSums) :
    intervalLoop pprev b s =
      { avgOf5 := s.avgOf5 + (s.blocktime - timeBack s.blocktime pprev (5-b))
        avgOf7 := s.avgOf7 + (s.blocktime - timeBack s.blocktime pprev (7-b))
        avgOf9 := s.avgOf9 + (s.blocktime - timeBack s.blocktime pprev (9-b))
        avgOf17 := s.avgOf17 + (s.blocktime - timeBack s.blocktime pprev (17-b))
        blocktime := timeBack s.blocktime pprev (17-b)
        countLimit := s.countLimit + min pprev.length (17-b) } := by
  induction pprev generalizing b s with
  | nil => simp [intervalLoop,timeBack]
  | cons parent rest ih =>
    by_cases hb : b < 17
    · have hl : timeBack s.blocktime (parent::rest) (17-b) =
          timeBack parent.getBlockTime rest (17 - (b+1)) := by
        rw [show 17 - b = 17 - (b+1) + 1 by omega,timeBack]
      have hcnt : s.countLimit + 1 + min rest.length (17 - (b+1)) =
          s.countLimit + min (rest.length+1) (17-b) := by omega
      rw [intervalLoop,if_pos hb,ih]
      simp only [IntervalSums.step,window_step,hl,hcnt,List.length_cons]
    · rw [intervalLoop,if_neg hb]
      simp [show 5 - b = 0 by omega,show 7 - b = 0 by omega,show 9 - b = 0 by omega,show 17 - b = 0 by omega]

/-- The time the schedule gives to the tip, counted from its seventeenth ancestor. -/
def scheduledTime (params : ConsensusParams) (pindexLast : CBlockIndex) (pprev : IndexChain) : Int :=
  let start := timeBack pindexLast.getBlockTime pprev 17
  if start = 0 then params.genesisTime
  else start + (min pprev.length 17 : Nat) * params.nPowTargetSpacing

variable (params : ConsensusParams)
theorem avgRecentTimestamps_eq (pindexLast : CBlockIndex) (pprev : IndexChain) (h : pprev ≠ []) :
    avgRecentTimestamps params (pindexLast::pprev) =
      let time := pindexLast.getBlockTime
      { avgOf5 := (time - timeBack time pprev 5).tdiv (min pprev.length 5 : Nat)
        avgOf7 := (time - timeBack time pprev 7).tdiv (min pprev.length 7 : Nat)
        avgOf9 := (time - timeBack time pprev 9).tdiv (min pprev.length 9 : Nat)
        avgOf17 := (time - timeBack time pprev 17).tdiv (min pprev.length 17 : Nat)
        blockHeightTime := scheduledTime params pindexLast pprev } := by
  have hlen : 0 < pprev.length := List.length_pos_iff.mpr h
  have hmin : ∀ k, k ≤ 17 → min (min pprev.length 17) k = min pprev.length k := by omega
  simp only [avgRecentTimestamps,intervalSums,intervalLoop_spec,scheduledTime,zero_add,Nat.zero_add]
  rw [if_pos (by omega : min pprev.length 17 ≠ 0),hmin 5 (by omega),hmin 7 (by omega),
    hmin 9 (by omega),hmin 17 (by omega)]

theorem avgRecentTimestamps_genesis (pindexLast : CBlockIndex) :
    avgRecentTimestamps params [pindexLast] =
      { avgOf5 := params.nPowTargetSpacing
        avgOf7 := params.nPowTargetSpacing
        avgOf9 := params.nPowTargetSpacing
        avgOf17 := params.nPowTargetSpacing
        blockHeightTime := scheduledTime params pindexLast [] } := by
  simp [avgRecentTimestamps,intervalSums,intervalLoop,scheduledTime,timeBack]

variable (params : ConsensusParams)

variable (pindexLast : CBlockIndex) (pprev : IndexChain)

def regulatedInterval : Int :=
  intervalDesired params pindexLast.getBlockTime (scheduledTime params pindexLast pprev)

/-- The fifth, seventh and ninth ancestors all lie in the tip's future, each by at least three
emergency intervals for every block between, and the seventeenth is too close behind. -/
def Rewound : Prop :=
  let time := pindexLast.getBlockTime
  let desired := regulatedInterval params pindexLast pprev
  pprev ≠ [] ∧
    (∀ k ∈ [5, 7, 9], time + 3 * tooFast desired * (min pprev.length k : Nat) ≤ timeBack time pprev k) ∧
    time - timeBack time pprev 17 < desired * (min pprev.length 17 : Nat)

instance : Decidable (Rewound params pindexLast pprev) := by
  unfold Rewound
  infer_instance

theorem selectOf3_gt (a5 a7 a9 : Int) : selectOf3 (· > ·) a5 a7 a9 = max a5 (max a7 a9) := by
  unfold selectOf3
  split_ifs <;> omega

theorem selectOf3_lt (a5 a7 a9 : Int) : selectOf3 (· < ·) a5 a7 a9 = min a5 (min a7 a9) := by
  unfold selectOf3
  split_ifs <;> omega

theorem selectOf4_gt (a5 a7 a9 a17 : Int) : selectOf4 (· > ·) a5 a7 a9 a17 = max (max a5 a7) (max a9 a17) := by
  unfold selectOf4
  split_ifs <;> omega

theorem selectOf4_lt (a5 a7 a9 a17 : Int) : selectOf4 (· < ·) a5 a7 a9 a17 = min (min a5 a7) (min a9 a17) := by
  unfold selectOf4
  split_ifs <;> omega

theorem regulation_cases (r : RecentTimestamps) (n : Int) (g : Regulation) (h : regulation r n = some g) :
    (r.avgOf5 < tooFast n ∧ r.avgOf7 < tooFast n ∧ r.avgOf9 < tooFast n ∧ r.avgOf17 < n ∧
      g = ⟨tooFast n, max r.avgOf5 (max r.avgOf7 r.avgOf9)⟩) ∨
    (r.avgOf5 > tooSlow n ∧ r.avgOf7 > tooSlow n ∧ r.avgOf9 > tooSlow n ∧ r.avgOf17 > n ∧
      g = ⟨tooSlow n, min r.avgOf5 (min r.avgOf7 r.avgOf9)⟩) ∨
    ((tooFast n ≤ r.avgOf5 ∨ tooFast n ≤ r.avgOf7 ∨ tooFast n ≤ r.avgOf9) ∧ r.avgOf5 < n ∧
      r.avgOf7 < n ∧ r.avgOf9 < n ∧ r.avgOf17 < n ∧
      g = ⟨n, max (max r.avgOf5 r.avgOf7) (max r.avgOf9 r.avgOf17)⟩) ∨
    (r.avgOf5 > n ∧ r.avgOf7 > n ∧ r.avgOf9 > n ∧ r.avgOf17 > n ∧
      g = ⟨n, min (min r.avgOf5 r.avgOf7) (min r.avgOf9 r.avgOf17)⟩) := by
  simp only [regulation,selectOf3_gt,selectOf3_lt,selectOf4_gt,selectOf4_lt] at h
  split_ifs at h with h1 h2 h3 h4
  · cases h
    exact .inl ⟨h1.1,h1.2.1,h1.2.2.1,h1.2.2.2,rfl⟩
  · cases h
    exact .inr (.inl ⟨h2.1,h2.2.1,h2.2.2.1,h2.2.2.2,rfl⟩)
  · cases h
    refine .inr (.inr (.inl ⟨?_,h3.1,h3.2.1,h3.2.2.1,h3.2.2.2,rfl⟩))
    omega
  · cases h
    exact .inr (.inr (.inr ⟨h4.1,h4.2.1,h4.2.2.1,h4.2.2.2,rfl⟩))

theorem tooFast_tooSlow {n : Int} (hn : 0 ≤ n) : tooFast n = n*2/3 ∧ tooSlow n = n*3/2 :=
  ⟨tdiv_eq_ediv_of_nonneg (by omega),tdiv_eq_ediv_of_nonneg (by omega)⟩

/-- The divisor is positive unless the emergency branch sees all three short averages at minus three
intervals or below. -/
theorem regulation_divisor_pos_iff (r : RecentTimestamps) (n : Int) (hn : 2 ≤ n) :
    (∀ g, regulation r n = some g → 0 < g.divisor) ↔
      ¬ (r.avgOf5 ≤ -(3 * tooFast n) ∧ r.avgOf7 ≤ -(3 * tooFast n) ∧
        r.avgOf9 ≤ -(3 * tooFast n) ∧ r.avgOf17 < n) := by
  have hs := tooFast_tooSlow (by omega : 0 ≤ n)
  constructor
  · rintro hpos ⟨h5,h7,h9,h17⟩
    have hgu : r.avgOf5 < tooFast n ∧ r.avgOf7 < tooFast n ∧ r.avgOf9 < tooFast n ∧
        r.avgOf17 < n := ⟨by omega,by omega,by omega,h17⟩
    have h := hpos ⟨tooFast n,max r.avgOf5 (max r.avgOf7 r.avgOf9)⟩
      (by simp [regulation,if_pos hgu,selectOf3_gt])
    simp only [Regulation.divisor] at h
    omega
  · intro hso g hg
    rcases regulation_cases r n g hg with
      ⟨_,_,_,h17,rfl⟩ | ⟨_,_,_,_,rfl⟩ | ⟨_,_,_,_,_,rfl⟩ | ⟨_,_,_,_,rfl⟩
    all_goals
      simp only [Regulation.divisor]
      omega

theorem intervalDesired_eq (h : params.HourlyTimespan) (now blockHeightTime : Int) :
    intervalDesired params now blockHeightTime = 600 - 10 * max (-6) (min 6 (now-blockHeightTime)) := by
  have hf : tdiv (600*9) 10 = 540 := by decide
  have hs : tdiv (600*11) 10 = 660 := by decide
  simp only [intervalDesired,h.interval,h.spacing,hf,hs]
  split_ifs with h1 h2
  iterate 2
    rw [tdiv_eq_ediv_of_nonneg (by omega)]
    omega
  all_goals omega

theorem intervalDesired_range (h : params.HourlyTimespan) (now blockHeightTime : Int) :
    540 ≤ intervalDesired params now blockHeightTime ∧ intervalDesired params now blockHeightTime ≤ 660 := by
  rw [intervalDesired_eq params h]
  omega

private theorem tdiv_nonpos (a : Int) (k : Nat) (ha : a ≤ 0) : a.tdiv k ≤ 0 := by
  have h : 0 ≤ (-a).tdiv k := Int.tdiv_nonneg (by omega) (Int.natCast_nonneg k)
  rw [Int.neg_tdiv] at h
  omega

theorem tdiv_le_neg_iff (a b : Int) (k : Nat) (hk : 0 < k) (hb : 0 < b) : a.tdiv k ≤ -b ↔ a + b * k ≤ 0 := by
  have hk' : (0 : Int) < k := by omega
  have hmul := mul_pos hb hk'
  rcases Int.lt_or_le a 0 with ha | ha
  · have hneg : a.tdiv k = -((-a) / k) := by
      rw [← Int.tdiv_eq_ediv_of_nonneg (by omega),Int.neg_tdiv,Int.neg_neg]
    have hle := Int.le_ediv_iff_mul_le hk' (a := b) (b := -a)
    omega
  · have := Int.tdiv_nonneg ha (Int.le_of_lt hk')
    omega

theorem tdiv_lt_iff (a b : Int) (k : Nat) (hk : 0 < k) (hb : 0 < b) : a.tdiv k < b ↔ a < b * k := by
  have hk' : (0 : Int) < k := by omega
  rcases Int.lt_or_le a 0 with ha | ha
  · have hneg := tdiv_nonpos a k (by omega)
    have hmul := mul_pos hb hk'
    omega
  · rw [Int.tdiv_eq_ediv_of_nonneg ha,Int.ediv_lt_iff_lt_mul hk']

theorem chainRegulation_divisor_pos_iff (h : params.HourlyTimespan)
    (pindexLast : CBlockIndex) (pprev : IndexChain) :
    (∀ g, chainRegulation params pindexLast pprev = some g → 0 < g.divisor) ↔
      ¬ Rewound params pindexLast pprev := by
  have hn := intervalDesired_range params h pindexLast.getBlockTime (scheduledTime params pindexLast pprev)
  have hs := tooFast_tooSlow (by omega : 0 ≤ intervalDesired params pindexLast.getBlockTime
    (scheduledTime params pindexLast pprev))
  by_cases hp : pprev = []
  · subst hp
    simp only [chainRegulation,avgRecentTimestamps_genesis,h.spacing]
    rw [regulation_divisor_pos_iff _ _ (by omega)]
    simp only [Rewound,ne_eq,not_true_eq_false,false_and,not_false_eq_true,iff_true]
    omega
  · have hlen : 0 < pprev.length := List.length_pos_iff.mpr hp
    simp only [chainRegulation,avgRecentTimestamps_eq params pindexLast pprev hp]
    rw [regulation_divisor_pos_iff _ _ (by omega)]
    simp only [Rewound,regulatedInterval,List.forall_mem_cons,List.not_mem_nil,false_implies,
      implies_true,and_true,ne_eq,hp,not_false_eq_true,true_and]
    rw [tdiv_le_neg_iff _ _ _ (by omega) (by omega),tdiv_le_neg_iff _ _ _ (by omega) (by omega),
      tdiv_le_neg_iff _ _ _ (by omega) (by omega),tdiv_lt_iff _ _ _ (by omega) (by omega)]
    omega

theorem difficultyFactor_eq_none_iff (g : Option Regulation) :
    difficultyFactor g = none ↔ ∃ g', g = some g' ∧ g'.divisor = 0 := by
  cases g with
  | none => simp [difficultyFactor]
  | some g' =>
    simp only [difficultyFactor,int64Div]
    split <;> simp_all

/-- Every divisor is positive, and none traps, exactly when the recent timestamps are not rewound. -/
theorem getNextWorkRequired_divisors_pos_iff (params : ConsensusParams)
    (h : params.HourlyTimespan) (pindexLast : CBlockIndex) (pprev : IndexChain) :
    (getNextWorkRequired params (pindexLast::pprev) ≠ none ∧
      ∀ g, chainRegulation params pindexLast pprev = some g → 0 < g.divisor) ↔
    ¬ Rewound params pindexLast pprev := by
  rw [← chainRegulation_divisor_pos_iff params h]
  constructor
  · exact fun hboth => hboth.2
  · intro hpos
    refine ⟨?_,hpos⟩
    intro hnone
    simp only [getNextWorkRequired,Option.map_eq_none_iff,difficultyFactor_eq_none_iff] at hnone
    obtain ⟨g,hg,hz⟩ := hnone
    have := hpos g hg
    omega

def timedEntry (nHeight : Nat) (nTime nBits : BitVec 32) : CBlockIndex where
  phashBlock := 0#256
  nHeight := nHeight
  nChainWork := 0#256
  nVersion := 4
  hashMerkleRoot := 0#256
  nTime := nTime
  nBits := nBits
  nNonce := 0#32
  nTimeMax := nTime

/-- A chain on the main network's genesis, given newest first by seconds since genesis and compact
target. -/
def timedChain : List (Nat × BitVec 32) → IndexChain
  | [] => [mainGenesis]
  | (seconds, nBits)::rest =>
    timedEntry (rest.length+1) (BitVec.ofNat 32 (1667196479+seconds)) nBits :: timedChain rest

def earlyBlocks : List (Nat × BitVec 32) :=
  [(10, 0x2009ad98#32), (9, 0x200ce4e7#32), (8, 0x20112dcb#32), (7, 0x2016e32f#32), (6, 0x201e7e32#32),
    (5, 0x2028a032#32), (4, 0x2036202f#32), (3, 0x20481c99#32), (2, 0x2060130e#32), (1, 0x207fffff#32)]

/-- Twenty blocks a second apart, except that the eleventh, thirteenth and fifteenth carry times
hours ahead. -/
def rewoundChain : IndexChain := timedChain
  ([(20, 0x20019b02#32), (19, 0x20022397#32), (18, 0x2002d98f#32), (17, 0x2003cbfe#32),
    (16, 0x20050efd#32), (6620, 0x20050efd#32), (14, 0x2006bd51#32), (9260, 0x20065073#32),
    (12, 0x20086999#32), (11900, 0x200743a2#32)] ++ earlyBlocks)

/-- A chain that keeps the median-time rule and whose regulator divides by zero. -/
theorem rewoundChain_divides_by_zero :
    rewoundChain.MedianTimeRule ∧
      (rewoundChain.head?.bind fun tip => chainRegulation mainParams tip rewoundChain.tail) =
        some ⟨440, -1320⟩ ∧
      (⟨440, -1320⟩ : Regulation).divisor = 0 ∧
      getNextWorkRequired mainParams rewoundChain = none := by decide

/-- The first block, a minute after genesis. -/
def fastTip : CBlockIndex := timedEntry 1 1667196539#32 0x1f346f24#32

theorem fastTip_divisors_pos :
    chainRegulation mainParams fastTip [mainGenesis] = some ⟨440, 60⟩ ∧
      getNextWorkRequired mainParams [fastTip, mainGenesis] ≠ none ∧
      ∀ g, chainRegulation mainParams fastTip [mainGenesis] = some g → 0 < g.divisor :=
  ⟨by decide,(getNextWorkRequired_divisors_pos_iff mainParams mainParams_hourly _ _).mpr (by decide)⟩
end Lcryp
