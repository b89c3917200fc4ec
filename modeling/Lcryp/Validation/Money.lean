import Lcryp.Validation.Chainstate

/-!
# Money supply

Connecting a block adds at most its subsidy to the value of all unspent coins: fees only move value to the
coinbase, and unspendable outputs lose it.
-/
namespace Lcryp
open WriteLog List UtxoView Nat Chainstate Int
def coinValue (coin : Coin) : Int := coin.out.nValue

variable (view : UtxoView)
def UtxoView.totalValue : Int := total coinValue view.coins
def subsidySum (params : ConsensusParams) (n : Nat) : Int := ∑ h ∈ Finset.Icc 1 n, getBlockSubsidy h params

/-- The subsidy after a number of halvings, block 1 apart. -/
def halvedSubsidy (halvings : Nat) : Int := if halvings ≥ 64 then 0 else (50*coin) >>> halvings

variable (params : ConsensusParams)
theorem getBlockSubsidy_eq (nHeight : Nat) (h : nHeight ≠ 1) :
    getBlockSubsidy nHeight params = halvedSubsidy (nHeight/params.nSubsidyHalvingInterval) := by
  have hne : ¬ (nHeight > 0 ∧ nHeight ≤ 1) := by omega
  simp [getBlockSubsidy,halvedSubsidy,hne]

theorem halvedSubsidy_nonneg (k : Nat) : 0 ≤ halvedSubsidy k := by
  unfold halvedSubsidy
  split
  · exact le_refl 0
  · rw [Int.shiftRight_eq_div_pow]
    exact ediv_nonneg (by decide) (by positivity)

theorem halvedSubsidy_succ (k : Nat) : 2 * halvedSubsidy (k+1) ≤ halvedSubsidy k := by
  by_cases hl : k + 1 ≥ 64
  · have hnn := halvedSubsidy_nonneg k
    rw [show halvedSubsidy (k+1) = 0 by simp [halvedSubsidy,hl]]
    omega
  · rw [halvedSubsidy,halvedSubsidy,Int.shiftRight_eq_div_pow,Int.shiftRight_eq_div_pow,pow_succ]
    push_cast
    rw [← ediv_ediv_of_nonneg (by positivity)]
    omega

/-- A bound on the subsidies of height `n` and all later ones: the rest of the interval and one whole
interval more. -/
def subsidyToCome (interval n : Nat) : Int := (2 * interval - n % interval : Nat) * halvedSubsidy (n/interval)

theorem subsidyToCome_succ (interval n : Nat) (h : 0 < interval) :
    halvedSubsidy (n/interval) + subsidyToCome interval (n+1) ≤ subsidyToCome interval n := by
  obtain ⟨q,r,hr,hn⟩ : ∃ q r, r < interval ∧ n = interval * q + r :=
    ⟨n/interval,n % interval,mod_lt n h,(div_add_mod n interval).symm⟩
  have hdiv : n / interval = q := by rw [hn,mul_add_div h,div_eq_of_lt hr,add_zero]
  have hmod : n % interval = r := by rw [hn,mul_add_mod,mod_eq_of_lt hr]
  unfold subsidyToCome
  rw [hdiv,hmod]
  by_cases hend : r + 1 = interval
  · -- the interval ends, and the next one pays at most half
    have hne : n + 1 = interval * (q+1) := by rw [hn,mul_succ,← hend,add_assoc]
    have hh := halvedSubsidy_succ q
    rw [hne,Nat.mul_div_cancel_left _ h,Nat.mul_mod_right,Nat.sub_zero]
    have hl : (2 * interval - r : Nat) = interval + 1 := by omega
    rw [hl]
    push_cast
    nlinarith
  · have hr' : r + 1 < interval := by omega
    have hne : n + 1 = interval * q + (r+1) := by rw [hn,add_assoc]
    have hd : (n+1) / interval = q := by rw [hne,mul_add_div h,div_eq_of_lt hr',add_zero]
    have hm : (n+1) % interval = r + 1 := by rw [hne,mul_add_mod,mod_eq_of_lt hr']
    rw [hd,hm]
    have hl : (2 * interval - r : Nat) = (2 * interval - (r+1) : Nat) + 1 := by omega
    rw [hl]
    push_cast
    linarith

/-- The limit of all subsidies together: block 1, and two intervals of first blocks without it and
the genesis block. -/
def subsidyLimit (params : ConsensusParams) : Int :=
  1000000 * coin + (2 * params.nSubsidyHalvingInterval - 2 : Nat) * (50*coin)

/-- Paid and outstanding subsidies stay below the limit, if block 1 comes before the first halving. -/
theorem subsidySum_add_toCome_le (h : 1 < params.nSubsidyHalvingInterval) (n : Nat) :
    subsidySum params (n+1) + subsidyToCome params.nSubsidyHalvingInterval (n+2) ≤ subsidyLimit params := by
  induction n with
  | zero =>
    have hdiv : 1 / params.nSubsidyHalvingInterval = 0 := div_eq_of_lt h
    have hsum : subsidySum params 1 = 1000000 * coin := by simp [subsidySum,getBlockSubsidy,hdiv]
    have hs := subsidyToCome_succ params.nSubsidyHalvingInterval 1 (by omega)
    have hone : subsidyToCome params.nSubsidyHalvingInterval 1 =
        (2 * params.nSubsidyHalvingInterval - 1 : Nat) * (50*coin) := by
      rw [subsidyToCome,hdiv,mod_eq_of_lt h]
      rfl
    have hfst : halvedSubsidy (1/params.nSubsidyHalvingInterval) = 50 * coin := by
      rw [hdiv]
      rfl
    have hcnt : (2 * params.nSubsidyHalvingInterval - 1 : Nat) =
        (2 * params.nSubsidyHalvingInterval - 2 : Nat) + 1 := by omega
    rw [hone,hcnt] at hs
    push_cast at hs
    rw [subsidyLimit]
    linarith
  | succ n ih =>
    have hs := subsidyToCome_succ params.nSubsidyHalvingInterval (n+2) (by omega)
    have hsum : subsidySum params (n+2) = subsidySum params (n+1) +
        getBlockSubsidy (n+2) params := Finset.sum_Icc_succ_top (by omega) _
    rw [getBlockSubsidy_eq params (n+2) (by omega)] at hsum
    linarith

theorem subsidySum_le (h : 1 < params.nSubsidyHalvingInterval)
    (n : Nat) : subsidySum params n ≤ subsidyLimit params := by
  cases n with
  | zero =>
    have hc : 0 ≤ coin := by decide
    rw [subsidyLimit]
    positivity
  | succ n =>
    have hnn : 0 ≤ subsidyToCome params.nSubsidyHalvingInterval (n+2) :=
      mul_nonneg (natCast_nonneg _) (halvedSubsidy_nonneg _)
    linarith [subsidySum_add_toCome_le params h n]

theorem subsidySum_main_le (n : Nat) : subsidySum mainParams n ≤ maxMoney :=
  (subsidySum_le mainParams (by decide) n).trans (by decide)
def UtxoView.NonNegative : Prop := ∀ outpoint coin, view.coins.lookup outpoint = some coin → 0 ≤ coinValue coin

section Value
variable {env : ValidationEnv} {nHeight : Nat} {view view' : UtxoView}
theorem outputWrites_weight (env : ValidationEnv) (nHeight : Nat) (tx : CTransaction)
    (h : ∀ txout ∈ tx.vout, 0 ≤ txout.nValue) :
    (∀ w ∈ outputWrites env nHeight tx, ∀ coin, w.2 = some coin → 0 ≤ coinValue coin) ∧
      ((outputWrites env nHeight tx).map fun w => weight coinValue w.2).sum ≤ tx.valueOut := by
  suffices hall : ∀ k (vout : List CTxOut), (∀ txout ∈ vout, 0 ≤ txout.nValue) →
      let writes := (vout.zipIdx k).flatMap (outputWrite (env.txid tx) nHeight tx.isCoinBase)
      (∀ w ∈ writes, ∀ coin, w.2 = some coin → 0 ≤ coinValue coin) ∧
        (writes.map fun w => weight coinValue w.2).sum ≤ (vout.map CTxOut.nValue).sum from
    hall 0 tx.vout h
  intro k vout hv
  induction vout generalizing k with
  | nil => simp
  | cons txout rest ih =>
    rw [forall_mem_cons] at hv
    obtain ⟨hnn,hsum⟩ := ih (k+1) hv.2
    by_cases hscr : txout.scriptPubKey.isUnspendable = true
    · simp only [zipIdx_cons,flatMap_cons,outputWrite,coinWrites,hscr,if_true,nil_append,map_cons,sum_cons]
      exact ⟨hnn,by linarith [hv.1,hsum]⟩
    · simp only [zipIdx_cons,flatMap_cons,outputWrite,coinWrites,hscr,
        Bool.false_eq_true,if_false,singleton_append,forall_mem_cons]
      refine ⟨⟨?_,hnn⟩,?_⟩
      · rintro coin ⟨⟩
        exact hv.1
      · exact Int.add_le_add_left hsum _

theorem TxConnected.totalValue_le {tx : CTransaction} {txundo : CTxUndo}
    (h : TxConnected env nHeight tx view txundo view') (hv : view.NonNegative)
    (hout : ∀ txout ∈ tx.vout, 0 ≤ txout.nValue) :
    view'.totalValue ≤ view.totalValue - valueIn txundo + tx.valueOut ∧ view'.NonNegative := by
  obtain ⟨hwr,hsum⟩ := outputWrites_weight env nHeight tx hout
  have hclr : ∀ o coin, (replay view.coins (spendWrites tx.spentPrevouts)).lookup o = some coin →
      0 ≤ coinValue coin := by
    refine replay_values _ hv ?_
    intro w hw coin hc
    obtain ⟨o,_,rfl⟩ := mem_map.mp hw
    cases hc
  have hs : (tx.spentPrevouts.map fun o => weight coinValue (view.coins.lookup o)).sum = valueIn txundo := by
    have hmap := congrArg (map (weight coinValue)) h.found
    rw [map_map,map_map] at hmap
    exact congrArg sum hmap
  unfold totalValue UtxoView.NonNegative
  rw [h.coins,txWrites,replay_append]
  constructor
  · have hle := total_replay_le hclr (outputWrites env nHeight tx) hwr
    have hcl := total_replay_clear coinValue view.coins tx.spentPrevouts h.nodup
    unfold spendWrites at hle ⊢
    linarith
  · exact replay_values _ hclr hwr

theorem TxsConnected.totalValue_le {vtx : List CTransaction} {undo : List CTxUndo}
    (h : TxsConnected env nHeight vtx view undo view') (hv : view.NonNegative)
    (hcb : ∀ tx ∈ vtx, tx.isCoinBase = false) (hout : ∀ tx ∈ vtx, ∀ txout ∈ tx.vout, 0 ≤ txout.nValue) :
    view'.totalValue ≤ view.totalValue - totalFees vtx undo ∧ view'.NonNegative := by
  induction h with
  | nil view => exact ⟨by simp [totalFees],hv⟩
  | cons first others ih =>
    rw [forall_mem_cons] at hcb hout
    obtain ⟨hfst,hmid⟩ := first.totalValue_le hv hout.1
    obtain ⟨ho,hl⟩ := ih hmid hcb.2 hout.2
    refine ⟨?_,hl⟩
    unfold totalFees at ho ⊢
    rw [zip_cons_cons,map_cons,sum_cons,txFee,hcb.1]
    simp only [Bool.false_eq_true,if_false]
    linarith

theorem BlockConnected.totalValue_le {block : CBlock} {entry : CBlockIndex} {pprev : IndexChain}
    {vtxundo : List CTxUndo} (h : BlockConnected env block entry pprev view vtxundo view')
    (hv : view.NonNegative) :
    view'.totalValue ≤ view.totalValue + getBlockSubsidy entry.nHeight env.params ∧ view'.NonNegative := by
  obtain ⟨coinbase,rest,hb⟩ := h.wellFormed
  obtain ⟨mid,htxs,rfl⟩ := h.txs
  have hr := h.reward coinbase (by simp [hb.vtx])
  have hw := hb.wellFormed
  rw [hb.vtx] at htxs hr hw
  rw [forall_mem_cons] at hw
  cases htxs with
  | cons first others =>
    obtain ⟨hfst,hmid⟩ := first.totalValue_le hv hw.1.nonneg
    obtain ⟨ho,hl⟩ := others.totalValue_le hmid hb.rest fun tx htx => (hw.2 tx htx).nonneg
    refine ⟨?_,hl⟩
    have hs := first.found
    rw [CTransaction.spentPrevouts,if_pos hb.coinbase] at hs
    obtain rfl := map_eq_nil_iff.mp hs.symm
    unfold totalFees at hr ho
    rw [zip_cons_cons,map_cons,sum_cons,txFee,if_pos hb.coinbase] at hr
    have hin : valueIn [] = 0 := rfl
    unfold totalValue at *
    linarith
end Value

namespace Chainstate
structure SupplyOk (params : ConsensusParams) (st : Chainstate) : Prop where
  numbered : st.Numbered
  nonneg : st.view.NonNegative
  supply : st.view.totalValue ≤ subsidySum params st.height

private theorem getBlockSubsidy_nonneg (nHeight : Nat) (params : ConsensusParams) :
    0 ≤ getBlockSubsidy nHeight params := by
  unfold getBlockSubsidy
  simp only
  split
  · exact le_refl 0
  · rw [Int.shiftRight_eq_div_pow]
    refine ediv_nonneg ?_ (by positivity)
    split <;> decide

theorem connectTip_supplyOk {env : ValidationEnv} {st st' : Chainstate} {input : TipInput}
    (h : st.SupplyOk env.params)
    (hs : st.connectTip env handle input = some st') : st'.SupplyOk env.params := by
  obtain ⟨_,undo,hrun,hb⟩ := connectTip_eq_some.mp hs
  have hnu := connectTip_numbered h.numbered hs
  have hht : (st.nextEntry env input.block).nHeight = st.blocks.length :=
    nextEntry_nHeight h.numbered input.block
  have hht' : st'.height = st.blocks.length := by simp [height,hb]
  -- the sum up to the new tip, unless the chain was empty
  have hsum : ∀ n, st.blocks.length = n + 1 → subsidySum env.params st'.height =
      subsidySum env.params st.height + getBlockSubsidy st.blocks.length env.params := by
    intro n hn
    rw [hht',height,hn]
    exact Finset.sum_Icc_succ_top (by omega) _
  rcases connectBlock_ok hrun with ⟨_,_,hv⟩ | ⟨vtxundo,_,hco⟩
  · have hval : st'.view.totalValue = st.view.totalValue := by rw [hv]; rfl
    refine ⟨hnu,by rw [hv]; exact h.nonneg,?_⟩
    rw [hval]
    cases hlen : st.blocks.length with
    | zero =>
      have hsa : st'.height = st.height := by rw [hht',height,hlen]
      rw [hsa]
      exact h.supply
    | succ n =>
      rw [hsum n hlen]
      linarith [h.supply,getBlockSubsidy_nonneg st.blocks.length env.params]
  · obtain ⟨hval,hnn⟩ := hco.totalValue_le h.nonneg
    refine ⟨hnu,hnn,?_⟩
    cases hlen : st.blocks.length with
    | zero =>
      have hc : st.chain = [] := by rw [chain,length_eq_zero_iff.mp hlen]; rfl
      exact absurd hc hco.parent
    | succ n =>
      rw [hsum n hlen,← hht]
      linarith [h.supply]

/-- All unspent coins together are worth at most the subsidies up to the tip, which never exceed
`MAX_MONEY`. -/
theorem moneySupply_bounded (env : ValidationEnv) (hparams : env.params = mainParams) (inputs : List TipInput)
    (st : Chainstate) (hrun : Run.run (connectTip env handle) empty inputs = some st) :
    st.view.totalValue ≤ subsidySum mainParams st.height ∧ (∀ n, subsidySum mainParams n ≤ maxMoney) ∧
      moneyRange st.view.totalValue = true ∧
      ∀ outpoint coin, st.view.coins.lookup outpoint = some coin → moneyRange coin.out.nValue = true := by
  have hok : st.SupplyOk env.params :=
    Run.run_invariant (fun s i t hs hstep => connectTip_supplyOk hs hstep) inputs empty st
      ⟨trivial,nofun,le_refl 0⟩ hrun
  rw [hparams] at hok
  have htotal : st.view.totalValue ≤ maxMoney := hok.supply.trans (subsidySum_main_le st.height)
  have hval : ∀ outpoint, weight coinValue (st.view.coins.lookup outpoint) ≤ st.view.totalValue :=
    weight_le_total hok.nonneg
  refine ⟨hok.supply,subsidySum_main_le,?_,?_⟩
  · exact (moneyRange_iff _).mpr ⟨total_nonneg hok.nonneg,htotal⟩
  · intro outpoint coin hcoin
    have hle := hval outpoint
    rw [hcoin] at hle
    exact (moneyRange_iff _).mpr ⟨hok.nonneg outpoint coin hcoin,hle.trans htotal⟩
end Chainstate

theorem twoBlocks_supply :
    ∃ st, Run.run (connectTip sampleEnv handle) empty twoBlocks =
        some st ∧ st.view.totalValue ≤ subsidySum mainParams st.height := by
  have hsome : (Run.run (connectTip sampleEnv handle) empty twoBlocks).isSome = true := by decide +kernel
  obtain ⟨st,hst⟩ := Option.isSome_iff_exists.mp hsome
  exact ⟨st,hst,(moneySupply_bounded sampleEnv rfl twoBlocks st hst).1⟩
end Lcryp
