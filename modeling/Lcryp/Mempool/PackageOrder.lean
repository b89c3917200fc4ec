import Lcryp.Mempool.Package
import Lcryp.Mempool.ReplacementSafety

/-!
# The order of a package

`CheckPackage` decides the order with a set of later ids and the conflicts with a set of outpoints seen.
-/
namespace Lcryp
open Interaction List
namespace Accept
variable {env : AcceptEnv} {txns : List CTransaction}
def virtualSize (tx : CTransaction) : Nat := getVirtualTransactionSize tx.weight 0 0
def SpendsFrom (env : AcceptEnv) (tx parent : CTransaction) : Prop :=
  ∃ prevout ∈ tx.prevouts, prevout.hash = env.txid parent
def SpendsCommon (tx other : CTransaction) : Prop := ∃ prevout ∈ tx.prevouts, prevout ∈ other.prevouts

theorem packageSize_eq (h : (txns.map virtualSize).sum < 2^31) :
    packageSize txns = (txns.map virtualSize).sum := by
  suffices ∀ (txns : List CTransaction) sum, sum + (txns.map virtualSize).sum < 2^31 →
      txns.foldl (fun sum tx => (sum + (virtualSize tx : Int)).bmod (2^32)) sum =
        sum + (txns.map virtualSize).sum by
    have hsum := this txns 0 (by rwa [Nat.zero_add])
    rwa [Nat.cast_zero,Int.zero_add] at hsum
  intro txns
  induction txns with
  | nil => simp
  | cons tx rest ih =>
    intro sum h
    rw [map_cons,sum_cons] at h ⊢
    rw [foldl_cons,Int.bmod_eq_of_le (by omega) (by omega)]
    rw [← Nat.add_assoc] at h
    have hr := ih _ h
    push_cast at hr ⊢
    rw [hr,Int.add_assoc]

/-- With distinct ids the set of later ids holds exactly those of the transactions still to come. -/
theorem packageSorted_iff (hnd : (txns.map env.txid).Nodup) :
    packageSorted env (txns.map env.txid) txns = true ↔
      (∀ tx ∈ txns, ¬ SpendsFrom env tx tx) ∧ txns.Pairwise fun tx later => ¬ SpendsFrom env tx later := by
  induction txns with
  | nil => simp [packageSorted]
  | cons tx rest ih =>
    rw [map_cons,nodup_cons] at hnd
    have hl : (env.txid tx::rest.map env.txid).filter (· ≠ env.txid tx) = rest.map env.txid := by
      rw [filter_cons_of_neg (by simp),filter_eq_self]
      intro id hid
      simpa using ne_of_mem_of_not_mem hid hnd.1
    rw [map_cons,packageSorted,hl,Bool.and_eq_true,ih hnd.2,forall_mem_cons,pairwise_cons]
    simp only [SpendsFrom,Bool.not_eq_true',any_eq_false,decide_eq_true_eq,mem_cons,mem_map]
    grind

theorem packageDisjoint_iff (inputsSeen : List COutPoint) :
    packageDisjoint inputsSeen txns = true ↔
      (∀ tx ∈ txns, ∀ prevout ∈ tx.prevouts, prevout ∉ inputsSeen) ∧
        txns.Pairwise fun tx later => ¬ SpendsCommon tx later := by
  induction txns generalizing inputsSeen with
  | nil => simp [packageDisjoint]
  | cons tx rest ih =>
    rw [packageDisjoint,Bool.and_eq_true,ih,forall_mem_cons,pairwise_cons]
    simp only [SpendsCommon,Bool.not_eq_true',any_eq_false,decide_eq_true_eq,mem_append]
    grind
section Members
variable (hinputs : ∀ tx ∈ txns, tx.prevouts ≠ [])
  (htxid : ∀ tx ∈ txns, ∀ other ∈ txns, env.txid tx = env.txid other → tx.prevouts = other.prevouts)
include hinputs htxid

theorem nodup_txid (h : txns.Pairwise fun tx later => ¬ SpendsCommon tx later) : (txns.map env.txid).Nodup := by
  rw [Nodup,pairwise_map]
  refine h.imp_of_mem ?_
  intro tx later htx hlater hcommon heq
  obtain ⟨prevout,hp⟩ := exists_mem_of_ne_nil _ (hinputs tx htx)
  exact hcommon ⟨prevout,hp,htxid tx htx later hlater heq ▸ hp⟩

theorem checkPackage_iff (hsize : (txns.map virtualSize).sum < 2^31) :
    (checkPackage env txns = .ok () ↔ txns.length ≤ maxPackageCount ∧
      (1 < txns.length → (txns.map virtualSize).sum ≤ maxPackageSize * 1000) ∧
      ((∀ tx ∈ txns, ¬ SpendsFrom env tx tx) ∧ txns.Pairwise fun tx later => ¬ SpendsFrom env tx later) ∧
      txns.Pairwise fun tx later => ¬ SpendsCommon tx later) ∧
    (checkPackage env txns = .ok () → (txns.map env.txid).Nodup ∧
      ∀ i j (hi : i < txns.length) (hj : j < txns.length), SpendsFrom env txns[i] txns[j] → j < i) := by
  have hiff : checkPackage env txns = .ok () ↔ txns.length ≤ maxPackageCount ∧
      (1 < txns.length → (txns.map virtualSize).sum ≤ maxPackageSize * 1000) ∧
      packageSorted env (txns.map env.txid) txns = true ∧
      txns.Pairwise fun tx later => ¬ SpendsCommon tx later := by
    have hdisj : packageDisjoint [] txns = true ↔ _ := packageDisjoint_iff []
    simp only [not_mem_nil,not_false_iff,implies_true,true_and] at hdisj
    simp only [checkPackage,packageSize_eq hsize,bind_eq_ok,rejectIf_eq_ok,← hdisj,
      Bool.not_eq_false',Bool.and_eq_false_imp,decide_eq_true_eq,decide_eq_false_iff_not,
      exists_and_left,not_lt,exists_const]
    norm_cast
  rw [hiff]
  constructor
  · refine and_congr_right fun _ => and_congr_right fun _ => and_congr_left fun hcommon => ?_
    exact packageSorted_iff (nodup_txid hinputs htxid hcommon)
  · rintro ⟨_,_,hsort,hcommon⟩
    have hnd := nodup_txid hinputs htxid hcommon
    obtain ⟨hself,hlater⟩ := (packageSorted_iff hnd).mp hsort
    refine ⟨hnd,?_⟩
    intro i j hi hj hsp
    by_contra hle
    rcases (Nat.le_of_not_lt hle).eq_or_lt with rfl | hlt
    · exact hself _ (getElem_mem hi) hsp
    · exact pairwise_iff_getElem.mp hlater i j hi hj hlt hsp
end Members

theorem family_sorted :
    checkPackage replaceEnv [versionTx 1 9 490000, versionTx 3 1 485000] = .ok () ∧
      ([versionTx 1 9 490000, versionTx 3 1 485000].map replaceEnv.txid).Nodup := by
  have hok : checkPackage replaceEnv [versionTx 1 9 490000, versionTx 3 1 485000] = .ok () := by decide +kernel
  exact ⟨hok,((checkPackage_iff (by decide +kernel) (by decide +kernel) (by decide +kernel)).2 hok).1⟩
end Accept
end Lcryp
