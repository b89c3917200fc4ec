import Lcryp.Merkle.PartialTree
import Mathlib.Tactic.Ring

/-!
# What a partial merkle tree proves

A partial tree is written by a descent that stops above unmatched parts, and read by the same descent.
-/
namespace Lcryp
open HashTree List Nat CPartialMerkleTree
/-! ## Flags as bytes -/

def byteFlag (b : UInt8) (j : Nat) : Bool := b &&& (1 <<< UInt8.ofNat j) != 0

theorem byteFlag_eq_testBit (b : UInt8) (j : Fin 8) : byteFlag b j = b.toNat.testBit j := by
  have hm : (1 <<< UInt8.ofNat j : UInt8).toNat = 2^j.val := by
    revert j
    decide
  have hand : (b &&& (1 <<< UInt8.ofNat j)).toNat = (b.toNat.testBit j).toNat * 2^j.val := by
    rw [UInt8.toNat_and,hm,and_two_pow]
  rw [byteFlag,Bool.eq_iff_iff,bne_iff_ne,ne_eq,← UInt8.toNat_inj,hand]
  cases b.toNat.testBit j <;> simp

theorem byteFlag_or (b : UInt8) (x : Bool) (i j : Fin 8) :
    byteFlag (b ||| x.toUInt8 <<< UInt8.ofNat i) j = (byteFlag b j || (x && decide (i = j))) := by
  have hset : byteFlag (x.toUInt8 <<< UInt8.ofNat i) j = (x && decide (i = j)) := by
    revert x i j
    decide
  rw [← hset,byteFlag_eq_testBit,byteFlag_eq_testBit,byteFlag_eq_testBit,UInt8.toNat_or,testBit_or]

variable (bits : List Bool)
theorem byteFlag_bitsToBytes (k size : Nat) (hk : k ≤ size * 8) :
    let bytes := (range k).foldl (fun ret p =>
      ret.modify (p/8) (· ||| ((bits.getD p false).toUInt8 <<< UInt8.ofNat (p % 8))))
      (replicate size 0)
    bytes.length = size ∧ ∀ p, p < size * 8 →
      byteFlag (bytes.getD (p/8) 0) (p % 8) = (decide (p < k) && bits.getD p false) := by
  induction k with
  | zero =>
    refine ⟨by simp,fun p hp => ?_⟩
    have hz : ∀ j : Fin 8, byteFlag 0 j = false := by decide
    have := hz ⟨p % 8,mod_lt _ (by omega)⟩
    simpa using this
  | succ k ih =>
    obtain ⟨hlen,hf⟩ := ih (by omega)
    rw [range_succ,foldl_append]
    generalize (range k).foldl _ _ = bytes at hlen hf ⊢
    refine ⟨by simpa using hlen,fun p hp => ?_⟩
    have hold := hf p hp
    simp only [foldl_cons,foldl_nil]
    rw [getD_eq_getElem _ _ (by omega)] at hold
    rw [getD_eq_getElem _ _ (by rw [length_modify]; omega),getElem_modify]
    by_cases hb : k / 8 = p / 8
    · have hor := byteFlag_or (bytes[p/8]) (bits.getD k false) ⟨k % 8,mod_lt _ (by omega)⟩
        ⟨p % 8,mod_lt _ (by omega)⟩
      rw [if_pos hb]
      rw [hor,hold]
      by_cases hbit : k % 8 = p % 8
      · obtain rfl : k = p := by omega
        simp
      · have hlt : p < k + 1 ↔ p < k := by omega
        simp [hbit,hlt]
    · have hlt : p < k + 1 ↔ p < k := by omega
      rw [if_neg hb,hold]
      simp [hlt]

theorem bytesToBits_bitsToBytes :
    bytesToBits (bitsToBytes bits) = bits++replicate ((bits.length+7) / 8 * 8 - bits.length) false := by
  obtain ⟨hlen,hf⟩ := byteFlag_bitsToBytes bits bits.length ((bits.length+7) / 8) (by omega)
  rw [bytesToBits]
  change (bitsToBytes bits).length = _ at hlen
  apply ext_getElem
  · simp
    omega
  · intro p hp hp'
    simp only [length_map,length_range,hlen] at hp
    have hfl := hf p hp
    rw [getElem_map,getElem_range]
    refine hfl.trans ?_
    rw [getElem_append]
    split
    · next hlt => simp [hlt]
    · next hge => simp [hge]

/-! ## Shape of the tree -/

theorem calcTreeWidth_eq (n height : Nat) : calcTreeWidth n height = (n + 2^height - 1) / 2^height := by
  rw [calcTreeWidth,shiftRight_eq_div_pow,one_shiftLeft]

@[simp]
theorem calcTreeWidth_zero (n : Nat) : calcTreeWidth n 0 = n := by
  simp [calcTreeWidth_eq]

variable (n height pos : Nat)
theorem lt_calcTreeWidth_iff : pos < calcTreeWidth n height ↔ pos * 2^height < n := by
  have hpos : 0 < 2^height := Nat.two_pow_pos height
  rw [calcTreeWidth_eq,lt_div_iff_mul_lt hpos]
  omega

theorem calcTreeWidth_root (n : Nat) (h : 0 < n) : 0 < calcTreeWidth n (treeHeight n) := by
  rw [lt_calcTreeWidth_iff]
  omega

theorem calcTreeWidth_left (h : pos < calcTreeWidth n (height+1)) : pos * 2 < calcTreeWidth n height := by
  rw [lt_calcTreeWidth_iff] at h ⊢
  rw [mul_assoc,mul_comm 2]
  exact h

theorem level_length_eq_calcTreeWidth (hash : Uint256 → Uint256 → Uint256) (vTxid : List Uint256)
    (height : Nat) : (level hash vTxid height).length = calcTreeWidth vTxid.length height := by
  rw [level_length,calcTreeWidth_eq]

theorem leavesBelow_eq :
    leavesBelow n height pos = range' (pos * 2^height) (min ((pos+1) * 2^height) n - pos * 2^height) := by
  simp [leavesBelow,shiftLeft_eq]

@[simp]
theorem mem_leavesBelow (n height pos p : Nat) :
    p ∈ leavesBelow n height pos ↔ pos * 2^height ≤ p ∧ p < (pos+1) * 2^height ∧ p < n := by
  rw [leavesBelow_eq,mem_range'_1]
  omega

theorem leavesBelow_zero (n pos : Nat) (h : pos < n) : leavesBelow n 0 pos = [pos] := by
  rw [leavesBelow_eq]
  simp only [pow_zero,mul_one]
  rw [show min (pos+1) n - pos = 1 by omega]
  rfl

theorem leavesBelow_eq_nil (h : ¬ pos < calcTreeWidth n height) : leavesBelow n height pos = [] := by
  rw [lt_calcTreeWidth_iff] at h
  rw [leavesBelow_eq,show min ((pos+1) * 2^height) n - pos * 2^height = 0 by omega]
  rfl

theorem leavesBelow_succ :
    leavesBelow n (height+1) pos = leavesBelow n height (pos*2)++leavesBelow n height (pos * 2 + 1) := by
  have hs : pos * 2^(height+1) = pos * 2 * 2^height := by ring
  have hmid : (pos * 2 + 1) * 2^height = pos * 2 * 2^height + 2^height := by ring
  have hend : (pos * 2 + 1 + 1) * 2^height = pos * 2 * 2^height + 2^height + 2^height := by ring
  have hst : (pos+1) * 2^(height+1) = pos * 2 * 2^height + 2^height + 2^height := by ring
  simp only [leavesBelow_eq,hs,hmid,hend,hst]
  generalize pos * 2 * 2^height = start
  generalize 2^height = size
  by_cases h : start + size ≤ n
  · rw [show min (start+size) n - start = size by omega,range'_append_1]
    congr 1
    omega
  · rw [show min (start + size + size) n - (start+size) = 0 by omega,range'_zero,append_nil]
    congr 1
    omega

theorem treeHeightLoop_spec (n fuel nHeight : Nat) (h : n ≤ fuel + nHeight) :
    calcTreeWidth n (treeHeightLoop n fuel nHeight) ≤ 1 := by
  induction fuel generalizing nHeight with
  | zero =>
    have := (Nat.lt_two_pow_self (n := nHeight))
    rw [treeHeightLoop,← not_lt,lt_calcTreeWidth_iff]
    omega
  | succ fuel ih =>
    rw [treeHeightLoop]
    split
    · exact ih (nHeight+1) (by omega)
    · omega

theorem le_treeHeightLoop (n fuel nHeight : Nat) : nHeight ≤ treeHeightLoop n fuel nHeight := by
  induction fuel generalizing nHeight with
  | zero => exact le_refl _
  | succ fuel ih =>
    rw [treeHeightLoop]
    split
    · exact (le_succ nHeight).trans (ih _)
    · exact le_refl _

theorem leavesBelow_root (n : Nat) : leavesBelow n (treeHeight n) 0 = range n := by
  have hw : ¬ 1 < calcTreeWidth n (treeHeight n) := by
    have := treeHeightLoop_spec n n 0 (by omega)
    rw [treeHeight]
    omega
  rw [lt_calcTreeWidth_iff] at hw
  rw [leavesBelow_eq,range_eq_range']
  congr 1 <;> omega

/-! ## The root of a block is the top of its tree -/

variable (hash : Uint256 → Uint256 → Uint256)
section Root
variable (vTxid : List Uint256)
theorem calcHash_eq_level (height pos : Nat) (h : pos < calcTreeWidth vTxid.length height) :
    calcHash hash vTxid.length vTxid height pos = (level hash vTxid height).getD pos 0#256 := by
  induction height generalizing pos with
  | zero => rfl
  | succ height ih =>
    have hl := calcTreeWidth_left vTxid.length height pos h
    have hlen := level_length_eq_calcTreeWidth hash vTxid height
    rw [level_succ,pairUp_getD _ _ _ _ (by omega),hlen]
    simp only [calcHash,ih _ hl,mul_comm 2 pos]
    split
    · next hr => rw [ih _ hr]
    · rfl

theorem merkleRootLoop_fst (fuel height : Nat) (mutation : Bool) :
    (merkleRootLoop hash fuel (level hash vTxid height) mutation).1 =
      (level hash vTxid (treeHeightLoop vTxid.length fuel height)).getD 0 0#256 := by
  induction fuel generalizing height mutation with
  | zero => rfl
  | succ fuel ih =>
    rw [merkleRootLoop,treeHeightLoop,level_length_eq_calcTreeWidth]
    split
    · rw [← level_succ,ih]
    · rfl

theorem merkleRootLoop_snd_iff (fuel height : Nat) (mutation : Bool) :
    (merkleRootLoop hash fuel (level hash vTxid height) mutation).2 = false ↔
      mutation = false ∧ ∀ k, height ≤ k → k < treeHeightLoop vTxid.length fuel height →
        hasTwins (level hash vTxid k) = false := by
  induction fuel generalizing height mutation with
  | zero =>
    simp only [treeHeightLoop]
    refine ⟨fun h => ⟨h,fun k hlow hhigh => by omega⟩,fun h => h.1⟩
  | succ fuel ih =>
    rw [merkleRootLoop,treeHeightLoop,level_length_eq_calcTreeWidth]
    split
    · rw [← level_succ,ih,Bool.or_eq_false_iff]
      have hg := le_treeHeightLoop vTxid.length fuel (height+1)
      constructor
      · rintro ⟨⟨hm,ht⟩,hr⟩
        refine ⟨hm,fun k hlow hhigh => ?_⟩
        rcases eq_or_lt_of_le hlow with rfl | hlt
        · exact ht
        · exact hr k hlt hhigh
      · rintro ⟨hm,hall⟩
        exact ⟨⟨hm,hall height (le_refl _) (by omega)⟩,fun k hlow => hall k (by omega)⟩
    · refine ⟨fun h => ⟨h,fun k hlow hhigh => by omega⟩,fun h => h.1⟩

theorem computeMerkleRoot_fst (h : vTxid ≠ []) :
    (computeMerkleRoot hash vTxid).1 = calcHash hash vTxid.length vTxid (treeHeight vTxid.length) 0 := by
  rw [calcHash_eq_level _ _ _ _ (calcTreeWidth_root _ (length_pos_iff.mpr h))]
  exact merkleRootLoop_fst hash vTxid vTxid.length 0 false

theorem level_treeHeight (hne : vTxid ≠ []) :
    level hash vTxid (treeHeight vTxid.length) = [(computeMerkleRoot hash vTxid).1] := by
  have hw : calcTreeWidth vTxid.length (treeHeight vTxid.length) ≤ 1 :=
    treeHeightLoop_spec vTxid.length vTxid.length 0 (le_refl _)
  have hpos := calcTreeWidth_root vTxid.length (length_pos_iff.mpr hne)
  have hr : (computeMerkleRoot hash vTxid).1 = (level hash vTxid (treeHeight vTxid.length)).getD 0 0#256 :=
    merkleRootLoop_fst hash vTxid vTxid.length 0 false
  obtain ⟨root,hl⟩ := length_eq_one_iff.mp
    ((level_length_eq_calcTreeWidth hash vTxid (treeHeight vTxid.length)).trans (by omega))
  rw [hr,hl,getD_cons_zero]

/-- Trees of one height with one root and no mutation have the same leaves, unless two hashed pairs collide.
-/
theorem computeMerkleRoot_injective (vTxid' : List Uint256) (hne : vTxid ≠ []) (hne' : vTxid' ≠ [])
    (hlevels : treeHeight vTxid.length = treeHeight vTxid'.length)
    (hinj : ∀ p ∈ hashedPairs hash vTxid (treeHeight vTxid.length),
      ∀ q ∈ hashedPairs hash vTxid' (treeHeight vTxid'.length),
        hash p.1 p.2 = hash q.1 q.2 → p = q) (hmutated : (computeMerkleRoot hash vTxid).2 = false)
    (hmutated' : (computeMerkleRoot hash vTxid').2 = false)
    (hroot : (computeMerkleRoot hash vTxid).1 = (computeMerkleRoot hash vTxid').1) : vTxid = vTxid' := by
  have htwins := ((merkleRootLoop_snd_iff hash vTxid vTxid.length 0 false).mp hmutated).2
  have htwins' := ((merkleRootLoop_snd_iff hash vTxid' vTxid'.length 0 false).mp hmutated').2
  have htop := level_treeHeight hash vTxid hne
  rw [hroot,← level_treeHeight hash vTxid' hne'] at htop
  rw [← hlevels] at hinj htop
  apply level_injective hash (treeHeight vTxid.length) hinj _ _ htop
  · exact fun k => htwins k (zero_le k)
  · intro k hk
    rw [hlevels] at hk
    exact htwins' k (zero_le k) hk
end Root

/-! ## What the descent writes -/

def matchedBelow (n : Nat) (vMatch : List Bool) (height pos : Nat) : List Nat :=
  (leavesBelow n height pos).filter (vMatch.getD · false)

variable (n : Nat)
section Written
variable (vTxid : List Uint256) (vMatch : List Bool)
variable (height pos : Nat)
theorem matchedBelow_succ :
    matchedBelow n vMatch (height+1) pos =
      matchedBelow n vMatch height (pos*2)++matchedBelow n vMatch height (pos * 2 + 1) := by
  rw [matchedBelow,leavesBelow_succ,filter_append]
  rfl

theorem matchedBelow_eq_nil (h : ¬ pos < calcTreeWidth n height) : matchedBelow n vMatch height pos = [] := by
  rw [matchedBelow,leavesBelow_eq_nil n height pos h]
  rfl

/-- The flags of a node and of the nodes opened below it. -/
def proofBits : Nat → Nat → List Bool
  | 0, pos => [parentOfMatch n vMatch 0 pos]
  | height+1, pos =>
    if parentOfMatch n vMatch (height+1) pos then
      true::(proofBits height (pos*2) ++
        if pos * 2 + 1 < calcTreeWidth n height then proofBits height (pos * 2 + 1) else [])
    else [false]

/-- The hashes below a node at which the descent stops. -/
def proofHashes : Nat → Nat → List Uint256
  | 0, pos => [calcHash hash n vTxid 0 pos]
  | height+1, pos =>
    if parentOfMatch n vMatch (height+1) pos then
      proofHashes height (pos*2) ++
        if pos * 2 + 1 < calcTreeWidth n height then proofHashes height (pos * 2 + 1) else []
    else [calcHash hash n vTxid (height+1) pos]

/-- Some node opened below, or this one, has two equal children. -/
def opensTwins : Nat → Nat → Bool
  | 0, _ => false
  | height+1, pos =>
    parentOfMatch n vMatch (height+1) pos &&
      (opensTwins height (pos*2) ||
        (decide (pos * 2 + 1 < calcTreeWidth n height) &&
          (opensTwins height (pos * 2 + 1) ||
            decide (calcHash hash n vTxid height (pos * 2 + 1) = calcHash hash n vTxid height (pos*2)))))

theorem opensTwins_eq_false (h : pos < calcTreeWidth vTxid.length height)
    (htwins : ∀ k < height, hasTwins (level hash vTxid k) = false) :
    opensTwins hash vTxid.length vTxid vMatch height pos = false := by
  induction height generalizing pos with
  | zero => rfl
  | succ height ih =>
    have hbelow : ∀ pos, pos < calcTreeWidth vTxid.length height →
        opensTwins hash vTxid.length vTxid vMatch height pos = false :=
      fun pos hpos => ih pos hpos fun k hk => htwins k (by omega)
    have hl := calcTreeWidth_left _ _ _ h
    rw [opensTwins,hbelow _ hl]
    by_cases hr : pos * 2 + 1 < calcTreeWidth vTxid.length height
    · have hne := getD_ne_of_hasTwins (htwins height (lt_succ_self _)) 0#256 pos
        (by rw [level_length_eq_calcTreeWidth]; omega)
      rw [hbelow _ hr,calcHash_eq_level _ _ _ _ hr,calcHash_eq_level _ _ _ _ hl,mul_comm pos 2,
        decide_eq_false hne]
      simp
    · simp [hr]

/-- A list that is not flagged as mutated opens no twins, whatever is matched. -/
theorem opensTwins_of_not_mutated (hne : vTxid ≠ []) (hmutated : (computeMerkleRoot hash vTxid).2 = false) :
    opensTwins hash vTxid.length vTxid vMatch (treeHeight vTxid.length) 0 = false := by
  have htwins := ((merkleRootLoop_snd_iff hash vTxid vTxid.length 0 false).mp hmutated).2
  exact opensTwins_eq_false _ _ _ _ _ (calcTreeWidth_root _ (length_pos_iff.mpr hne)) fun k => htwins k (zero_le k)

theorem traverseAndBuild_eq (tree : CPartialMerkleTree) (hn : tree.nTransactions = n) :
    traverseAndBuild hash vTxid vMatch height pos tree =
      { tree with
        vBits := tree.vBits++proofBits n vMatch height pos
        vHash := tree.vHash++proofHashes hash n vTxid vMatch height pos } := by
  subst hn
  induction height generalizing pos tree with
  | zero => rfl
  | succ height ih =>
    simp only [traverseAndBuild,proofBits,proofHashes]
    cases parentOfMatch tree.nTransactions vMatch (height+1) pos with
    | false => simp
    | true =>
      simp only [Bool.not_true,Bool.false_eq_true,if_false]
      rw [ih]
      split
      · rw [ih]
        simp
      · simp

theorem proofHashes_length_le_bits :
    (proofHashes hash n vTxid vMatch height pos).length ≤ (proofBits n vMatch height pos).length := by
  induction height generalizing pos with
  | zero => simp [proofHashes,proofBits]
  | succ height ih =>
    have hl := ih (pos*2)
    have hr := ih (pos * 2 + 1)
    rw [proofHashes,proofBits]
    split_ifs <;> simp only [length_append,length_cons] <;> omega

theorem proofHashes_length_le (h : pos < calcTreeWidth n height) :
    (proofHashes hash n vTxid vMatch height pos).length ≤ (leavesBelow n height pos).length := by
  induction height generalizing pos with
  | zero =>
    simp [proofHashes,leavesBelow_zero n pos h]
  | succ height ih =>
    have hl := ih (pos*2) (calcTreeWidth_left n height pos h)
    rw [leavesBelow_succ,proofHashes,length_append]
    split_ifs with ho hright
    · have := ih (pos * 2 + 1) hright
      rw [length_append]
      omega
    · rw [append_nil]
      omega
    · have hpos : 0 < (leavesBelow n height (pos*2)).length := by
        rw [length_pos_iff_exists_mem]
        have hlt := (lt_calcTreeWidth_iff n height (pos*2)).mp (calcTreeWidth_left n height pos h)
        refine ⟨pos * 2 * 2^height,?_⟩
        rw [mem_leavesBelow,add_mul (pos*2) 1]
        have := Nat.two_pow_pos height
        omega
      rw [length_singleton]
      omega
end Written

/-! ## Reading what was written -/

theorem getD_of_drop {α : Type} {l rest : List α} {k : Nat} {a d : α} (h : l.drop k = a::rest) :
    k < l.length ∧ l.getD k d = a ∧ l.drop (k+1) = rest := by
  have hlt : k < l.length := by
    by_contra hge
    rw [drop_eq_nil_of_le (by omega)] at h
    cases h
  rw [drop_eq_getElem_cons hlt,cons.injEq] at h
  rw [getD_eq_getElem _ _ hlt]
  exact ⟨hlt,h⟩

theorem extractHash_of_drop {tree : CPartialMerkleTree} {s : Extraction} {a : Uint256}
    {rest : List Uint256} (h : tree.vHash.drop s.nHashUsed = a::rest) (reported : Bool) (pos : Nat) :
    extractHash tree reported pos s =
      (a, { s with
        nHashUsed := s.nHashUsed + 1
        vMatch := s.vMatch++if reported then [a] else []
        vnIndex := s.vnIndex++if reported then [pos] else [] }) := by
  obtain ⟨hlt,hget,-⟩ := getD_of_drop h
  rw [extractHash,if_neg (by omega),hget]
  cases reported <;> simp

section Read
variable (vTxid : List Uint256) (vMatch : List Bool)
theorem traverseAndExtract_written (tree : CPartialMerkleTree) (hn : tree.nTransactions = n) (height pos : Nat)
    (s : Extraction) (restBits : List Bool) (restHashes : List Uint256) (hpos : pos < calcTreeWidth n height)
    (hb : tree.vBits.drop s.nBitsUsed = proofBits n vMatch height pos++restBits)
    (hh : tree.vHash.drop s.nHashUsed = proofHashes hash n vTxid vMatch height pos++restHashes) :
    traverseAndExtract hash tree height pos s =
      (calcHash hash n vTxid height pos,
        { nBitsUsed := s.nBitsUsed + (proofBits n vMatch height pos).length
          nHashUsed := s.nHashUsed + (proofHashes hash n vTxid vMatch height pos).length
          vMatch := s.vMatch++(matchedBelow n vMatch height pos).map (vTxid.getD · 0#256)
          vnIndex := s.vnIndex++matchedBelow n vMatch height pos
          fBad := s.fBad || opensTwins hash n vTxid vMatch height pos }) := by
  induction height generalizing pos s restBits restHashes with
  | zero =>
    rw [calcTreeWidth_zero] at hpos
    obtain ⟨hlt,hget,-⟩ := getD_of_drop hb
    rw [traverseAndExtract,if_neg (by omega),hget]
    rw [extractHash_of_drop (by exact hh)]
    simp only [parentOfMatch,matchedBelow,leavesBelow_zero _ _ hpos,opensTwins,proofBits,
      proofHashes,calcHash,any_cons,filter_cons]
    cases vMatch.getD pos false <;> simp
  | succ height ih =>
    simp only [proofBits,proofHashes] at hb hh
    rw [traverseAndExtract,hn]
    cases ho : parentOfMatch n vMatch (height+1) pos with
    | false =>
      rw [ho] at hb hh
      obtain ⟨hlt,hget,-⟩ := getD_of_drop hb
      rw [if_neg (by omega),hget]
      rw [if_pos (by rfl),extractHash_of_drop (by exact hh)]
      have hno : matchedBelow n vMatch (height+1) pos = [] := by
        simpa [parentOfMatch,matchedBelow] using ho
      simp [proofBits,proofHashes,opensTwins,ho,hno]
    | true =>
      rw [ho,if_pos rfl,cons_append,append_assoc] at hb
      rw [ho,if_pos rfl,append_assoc] at hh
      obtain ⟨hlt,hget,hd⟩ := getD_of_drop hb
      rw [if_neg (by omega),hget]
      rw [if_neg (by decide),ih (pos*2) { s with nBitsUsed := s.nBitsUsed + 1 } _ _
        (calcTreeWidth_left _ _ _ hpos) hd hh]
      dsimp only
      by_cases hr : pos * 2 + 1 < calcTreeWidth n height
      · rw [if_pos hr] at hd hh ⊢
        rw [ih (pos * 2 + 1) _ restBits restHashes hr
          (by rw [← drop_drop,hd,drop_left])
          (by rw [← drop_drop,hh,drop_left])]
        simp only [proofBits,proofHashes,opensTwins,ho,hr,calcHash,matchedBelow_succ]
        split
        next ht =>
          simp [ht]
          omega
        next ht =>
          simp [ht,Bool.or_assoc]
          omega
      · simp only [proofBits,proofHashes,opensTwins,ho,hr,calcHash,
          matchedBelow_succ,matchedBelow_eq_nil _ _ _ _ hr]
        simp
        omega
end Read

/-! ## What a reader can be told -/

section Sound
variable (vTxid : List Uint256)
/-- No other pair has the hash of an inner node of the block's tree. -/
def UniquePreimages : Prop :=
  ∀ height pos, height < treeHeight vTxid.length → pos < calcTreeWidth vTxid.length (height+1) →
    ∀ left right, hash left right = calcHash hash vTxid.length vTxid (height+1) pos →
      left = calcHash hash vTxid.length vTxid height (pos*2) ∧
      right = if pos * 2 + 1 < calcTreeWidth vTxid.length height then
          calcHash hash vTxid.length vTxid height (pos * 2 + 1)
        else calcHash hash vTxid.length vTxid height (pos*2)

theorem extractHash_fBad (tree : CPartialMerkleTree) (reported : Bool) (pos : Nat) (s : Extraction)
    (h : s.fBad = true) : (extractHash tree reported pos s).2.fBad = true := by
  unfold extractHash
  split
  · rfl
  · cases reported <;> exact h

theorem traverseAndExtract_fBad (tree : CPartialMerkleTree) (height pos : Nat) (s : Extraction)
    (h : s.fBad = true) : (traverseAndExtract hash tree height pos s).2.fBad = true := by
  induction height generalizing pos s with
  | zero =>
    rw [traverseAndExtract]
    split
    · rfl
    · exact extractHash_fBad tree _ pos _ h
  | succ height ih =>
    rw [traverseAndExtract]
    split
    · rfl
    dsimp only
    split
    · exact extractHash_fBad tree _ pos _ h
    have hl := ih (pos*2) { s with nBitsUsed := s.nBitsUsed + 1 } h
    split
    · have hr := ih (pos * 2 + 1) _ hl
      split
      · rfl
      · exact hr
    · exact hl

/-- The reported pairs added by a part of the descent are leaves of the block. -/
def ReportsLeaves (before after : Extraction) : Prop :=
  ∃ found : List Nat, (∀ i ∈ found, i < vTxid.length) ∧ after.vnIndex = before.vnIndex++found ∧
    after.vMatch = before.vMatch++found.map (vTxid.getD · 0#256)

variable {vTxid}
theorem ReportsLeaves.of_eq {before after : Extraction} (hidx : after.vnIndex = before.vnIndex)
    (hm : after.vMatch = before.vMatch) : ReportsLeaves vTxid before after :=
  ⟨[],by simp,by simpa using hidx,by simpa using hm⟩

theorem ReportsLeaves.trans {a b c : Extraction} (hab : ReportsLeaves vTxid a b)
    (hbc : ReportsLeaves vTxid b c) : ReportsLeaves vTxid a c := by
  obtain ⟨first,hfst,hidx,hma⟩ := hab
  obtain ⟨second,hsnd,hid,hm⟩ := hbc
  refine ⟨first++second,?_,?_,?_⟩
  · intro i hi
    exact (mem_append.mp hi).elim (hfst i) (hsnd i)
  · rw [hid,hidx,append_assoc]
  · rw [hm,hma,map_append,append_assoc]

variable {hash}
theorem traverseAndExtract_sound (hu : UniquePreimages hash vTxid) (tree : CPartialMerkleTree)
    (hn : tree.nTransactions = vTxid.length) (height pos : Nat) (s : Extraction)
    (hht : height ≤ treeHeight vTxid.length) (hpos : pos < calcTreeWidth vTxid.length height)
    (hg : (traverseAndExtract hash tree height pos s).2.fBad = false)
    (hha : (traverseAndExtract hash tree height pos s).1 = calcHash hash vTxid.length vTxid height pos) :
    ReportsLeaves vTxid s (traverseAndExtract hash tree height pos s).2 := by
  induction height generalizing pos s with
  | zero =>
    rw [traverseAndExtract] at hg hha ⊢
    split at hg
    · cases hg
    next hb =>
      rw [if_neg hb] at hha ⊢
      unfold extractHash at hg hha ⊢
      split at hg
      · cases hg
      next hh =>
        rw [if_neg hh] at hha ⊢
        dsimp only at hha
        split
        · refine ⟨[pos],by simpa using hpos,rfl,?_⟩
          rw [hha]
          rfl
        · exact .of_eq rfl rfl
  | succ height ih =>
    rw [traverseAndExtract] at hg hha ⊢
    split at hg
    · cases hg
    next hb =>
      rw [if_neg hb] at hha ⊢
      dsimp only at hg hha ⊢
      split at hg
      next hc =>
        rw [if_pos hc]
        unfold extractHash at hg ⊢
        split at hg
        · cases hg
        next hh =>
          rw [if_neg hh]
          exact .of_eq rfl rfl
      next ho =>
        rw [if_neg ho] at hha ⊢
        rw [hn] at hg hha ⊢
        have hk := hu height pos (by omega) hpos
        have hle := ih (pos*2) { s with nBitsUsed := s.nBitsUsed + 1 } (by omega)
          (calcTreeWidth_left _ _ _ hpos)
        generalize traverseAndExtract hash tree height (pos*2)
          { s with nBitsUsed := s.nBitsUsed + 1 } = first at hg hha hle ⊢
        have hs : ReportsLeaves vTxid s { s with nBitsUsed := s.nBitsUsed + 1 } := .of_eq rfl rfl
        split at hg
        next hw =>
          rw [if_pos hw] at hha ⊢
          split at hg
          · cases hg
          next ht =>
            rw [if_neg ht]
            obtain ⟨hl,hr⟩ := hk _ _ hha
            rw [if_pos hw] at hr
            have hfst : first.2.fBad = false := by
              by_contra hbad
              rw [Bool.not_eq_false] at hbad
              rw [traverseAndExtract_fBad hash tree height _ _ hbad] at hg
              cases hg
            exact (hs.trans (hle hfst hl)).trans
              (ih (pos * 2 + 1) first.2 (by omega) hw hg hr)
        next hw =>
          rw [if_neg hw] at hha ⊢
          exact hs.trans (hle hg (hk _ _ hha).1)

theorem extractMatches_sound (hu : UniquePreimages hash vTxid) (tree : CPartialMerkleTree)
    (hne : vTxid ≠ []) (hn : tree.nTransactions = vTxid.length) (vnIndex : List Nat)
    (hr : (computeMerkleRoot hash vTxid).1 ≠ 0#256)
    (h : (extractMatches hash tree vnIndex).1 = (computeMerkleRoot hash vTxid).1) :
    ReportsLeaves vTxid ⟨0, 0, [], vnIndex, tree.fBad⟩ (extractMatches hash tree vnIndex).2 := by
  unfold extractMatches at h ⊢
  dsimp only at h ⊢
  -- every exit but the last returns the null hash
  iterate 7
    split at h
    · exact absurd h.symm hr
  next h1 h2 h3 h4 hgood h5 h6 =>
    rw [if_neg h1,if_neg h2,if_neg h3,if_neg h4,if_neg hgood,if_neg h5,if_neg h6]
    rw [hn] at h hgood ⊢
    exact traverseAndExtract_sound hu tree hn _ 0 _ (le_refl _)
      (calcTreeWidth_root _ (length_pos_iff.mpr hne)) (by simpa using hgood)
      (by rw [← computeMerkleRoot_fst hash vTxid hne]; exact h)
end Sound

/-! ## Proofs of inclusion -/

section Inclusion
variable (vTxid : List Uint256)
def Extracts (tree : CPartialMerkleTree) (root : Uint256) (positions : List Nat) : Prop :=
  (extractMatches hash tree []).1 = root ∧ (extractMatches hash tree []).2.vnIndex = positions ∧
    (extractMatches hash tree []).2.vMatch = positions.map (vTxid.getD · 0#256)

/-- Extraction from a written tree, with fewer than a byte of flags behind it. -/
theorem extracts_written (hs : vTxid.length ≤ maxMerkleTransactions) (hne : vTxid ≠ [])
    (vMatch : List Bool) (pad : List Bool) (tree : CPartialMerkleTree)
    (hb : tree.vBits = proofBits vTxid.length vMatch (treeHeight vTxid.length) 0++pad)
    (hpad : (tree.vBits.length+7) / 8 = (tree.vBits.length - pad.length + 7) / 8)
    (hn : tree.nTransactions = vTxid.length) (hbad : tree.fBad = false)
    (hh : tree.vHash = proofHashes hash vTxid.length vTxid vMatch (treeHeight vTxid.length) 0)
    (ht : opensTwins hash vTxid.length vTxid vMatch (treeHeight vTxid.length) 0 = false) :
    Extracts hash vTxid tree (computeMerkleRoot hash vTxid).1
      ((range vTxid.length).filter (vMatch.getD · false)) := by
  have hpos := length_pos_iff.mpr hne
  have hr := calcTreeWidth_root vTxid.length hpos
  have hre := traverseAndExtract_written hash vTxid.length vTxid vMatch tree hn
    (treeHeight vTxid.length) 0 ⟨0,0,[],[],false⟩ pad [] hr (by rw [drop_zero,hb])
    (by rw [drop_zero,hh,append_nil])
  have hfew := proofHashes_length_le hash vTxid.length vTxid vMatch _ 0 hr
  have hl := proofHashes_length_le_bits hash vTxid.length vTxid vMatch (treeHeight vTxid.length) 0
  have hlen := congrArg length hb
  rw [length_append] at hlen
  rw [leavesBelow_root,length_range,← hh] at hfew
  rw [← hh] at hl
  simp only [← hh,ht,matchedBelow,leavesBelow_root] at hre
  simp only [Extracts,extractMatches,hn,hbad,hre,computeMerkleRoot_fst hash vTxid hne]
  rw [if_neg (by omega),if_neg (by omega),if_neg (by omega),if_neg (by omega),
    if_neg (by decide),if_neg (by omega),if_neg (by omega)]
  exact ⟨rfl,rfl,rfl⟩

/-- Partial merkle trees are complete if no opened node has equal children, and sound if the root is not
null. -/
theorem partialMerkleTree_proves_inclusion (hne : vTxid ≠ []) :
    (vTxid.length ≤ maxMerkleTransactions → ∀ vMatch : List Bool,
      opensTwins hash vTxid.length vTxid vMatch (treeHeight vTxid.length) 0 = false →
      ∃ tree, ofTxids hash vTxid vMatch = some tree ∧
        ∀ sent ∈ [tree, tree.transmitted],
          Extracts hash vTxid sent (computeMerkleRoot hash vTxid).1
            ((List.range vTxid.length).filter (vMatch.getD · false))) ∧
    (UniquePreimages hash vTxid → (computeMerkleRoot hash vTxid).1 ≠ 0#256 →
      ∀ tree : CPartialMerkleTree, tree.nTransactions = vTxid.length →
        (extractMatches hash tree []).1 = (computeMerkleRoot hash vTxid).1 →
        let out := (extractMatches hash tree []).2
        out.vnIndex.length = out.vMatch.length ∧ ∀ p ∈ out.vnIndex.zip out.vMatch, vTxid[p.1]? = some p.2) := by
  constructor
  · intro hsize vMatch htwins
    refine ⟨_,if_neg hne,?_⟩
    rw [traverseAndBuild_eq hash vTxid.length vTxid vMatch _ _ _ rfl]
    simp only [forall_mem_cons,not_mem_nil,false_implies,implies_true,and_true]
    constructor
    · exact extracts_written hash vTxid hsize hne vMatch [] _ (by simp) (by simp) rfl rfl rfl htwins
    · refine extracts_written hash vTxid hsize hne vMatch _ _
        (by exact bytesToBits_bitsToBytes _) ?_ rfl rfl rfl htwins
      simp only [transmitted,bytesToBits_bitsToBytes,length_append,length_replicate]
      omega
  · intro huniq hroot tree hn h
    obtain ⟨found,hfound,hidx,hmatch⟩ := extractMatches_sound huniq tree hne hn [] hroot h
    simp only [nil_append] at hidx hmatch
    have hzip : found.zip (found.map (vTxid.getD · 0#256)) = found.map fun i => (i, vTxid.getD i 0#256) := by
      simpa using zip_map' (f := id)
    simp only [hidx,hmatch,length_map,hzip,forall_mem_map,true_and]
    intro i hi
    rw [getD_eq_getElem _ _ (hfound i hi),getElem?_eq_getElem (hfound i hi)]
end Inclusion

/-- A hash that tells the pairs of one small tree from all others. -/
def sampleHash (left right : Uint256) : Uint256 :=
  if left = 1#256 ∧ right = 2#256 then 12#256
  else if left = 3#256 ∧ right = 3#256 then 33#256
  else if left = 12#256 ∧ right = 33#256 then 99#256
  else 0#256

theorem sampleHash_uniquePreimages : UniquePreimages sampleHash [1#256, 2#256, 3#256] := by
  have hpre : ∀ left right, (sampleHash left right = 12#256 → left = 1#256 ∧ right = 2#256) ∧
      (sampleHash left right = 33#256 → left = 3#256 ∧ right = 3#256) ∧
      (sampleHash left right = 99#256 → left = 12#256 ∧ right = 33#256) := by
    intro left right
    unfold sampleHash
    split_ifs with h1 h2 h3
    · exact ⟨fun _ => h1,fun h => absurd h (by decide),fun h => absurd h (by decide)⟩
    · exact ⟨fun h => absurd h (by decide),fun _ => h2,fun h => absurd h (by decide)⟩
    · exact ⟨fun h => absurd h (by decide),fun h => absurd h (by decide),fun _ => h3⟩
    · exact ⟨fun h => absurd h (by decide),fun h => absurd h (by decide),fun h => absurd h (by decide)⟩
  intro height pos hht hpos left right h
  have hlow : height < 2 := hht
  obtain rfl | rfl : height = 0 ∨ height = 1 := by omega
  · have hl : pos < 2 := hpos
    obtain rfl | rfl : pos = 0 ∨ pos = 1 := by omega
    · exact (hpre left right).1 h
    · exact (hpre left right).2.1 h
  · have htop : pos < 1 := hpos
    obtain rfl : pos = 0 := by omega
    exact (hpre left right).2.2 h

theorem sampleHash_injective :
    computeMerkleRoot sampleHash [1#256, 2#256, 3#256] = (99#256, false) ∧
      [1#256, 2#256, 3#256] = [1#256, 2#256, 3#256] :=
  ⟨by decide,computeMerkleRoot_injective sampleHash [1#256,2#256,3#256] [1#256,2#256,3#256]
    (by simp) (by simp) rfl
    (show ∀ p ∈ [(1#256, 2#256),(3#256, 3#256),(12#256, 33#256)],
      ∀ q ∈ [(1#256, 2#256),(3#256, 3#256),(12#256, 33#256)],
        sampleHash p.1 p.2 = sampleHash q.1 q.2 → p = q by simp [sampleHash])
    (by decide) (by decide) rfl⟩

def sampleProof : CPartialMerkleTree := ⟨3, [true, false, true, true], [12#256, 3#256], false⟩

theorem sampleHash_proves_inclusion :
    (∃ tree, ofTxids sampleHash [1#256, 2#256, 3#256] [false, true, false] = some tree ∧
      ∀ sent ∈ [tree, tree.transmitted],
        Extracts sampleHash [1#256, 2#256, 3#256] sent 99#256 [1]) ∧
    (extractMatches sampleHash sampleProof []).2.vnIndex = [2] ∧
    ∀ p ∈ (extractMatches sampleHash sampleProof []).2.vnIndex.zip
        (extractMatches sampleHash sampleProof []).2.vMatch,
      [1#256, 2#256, 3#256][p.1]? = some p.2 :=
  ⟨(partialMerkleTree_proves_inclusion sampleHash [1#256,2#256,3#256] (by decide)).1 (by decide)
      [false,true,false] (opensTwins_of_not_mutated _ _ _ (by decide) (by decide)),
    by decide,
    ((partialMerkleTree_proves_inclusion sampleHash [1#256,2#256,3#256] (by decide)).2
      sampleHash_uniquePreimages (by decide) sampleProof rfl (by decide)).2⟩

/-- Two equal ids and too many ids are refused by the reader; with a null root a refused tree passes for a
proof. -/
theorem extractMatches_refuses :
    ((ofTxids sampleHash [3#256, 3#256] [true, false]).map
        fun tree => (extractMatches sampleHash tree []).1) = some 0#256 ∧
      (computeMerkleRoot sampleHash [3#256, 3#256]).1 = 33#256 ∧
    (∀ (hash : Uint256 → Uint256 → Uint256) (tree : CPartialMerkleTree),
      maxMerkleTransactions < tree.nTransactions → (extractMatches hash tree []).1 = 0#256) ∧
    UniquePreimages sampleHash [0#256] ∧
      extractMatches sampleHash ⟨1, [true, false, false, false, false, false, false, false, false],
        [7#256], false⟩ [] = ((computeMerkleRoot sampleHash [0#256]).1, ⟨1, 1, [7#256], [0], false⟩) := by
  refine ⟨by decide,by decide,?_,?_,by decide⟩
  · intro hash tree h
    unfold extractMatches
    split <;> rfl
  · intro height pos hht
    exact absurd hht (not_lt_zero _)
end Lcryp
