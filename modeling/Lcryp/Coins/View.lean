import Lcryp.Framework.Interaction
import Lcryp.Framework.WriteLog
import Lcryp.Primitives.Transaction
import Lcryp.Primitives.ValidationState

/-!
# Coins and the UTXO view

Validation code reads and writes coins through the interface of `CCoinsViewCache`.
-/
namespace Lcryp
open Interaction WriteLog Program
structure Coin where
  out : CTxOut
  fCoinBase : Bool
  /-- Heights are non-negative `int`s, so the 31 bits of the source lose nothing. -/
  nHeight : Nat
deriving DecidableEq

variable {coin : Coin}
namespace Coin
/-- `Coin()`, which is also what `Clear` leaves and what `coinEmpty` holds. -/
def empty : Coin := ⟨CTxOut.null, false, 0⟩
def isSpent (coin : Coin) : Bool := coin.out.isNull

@[simp]
theorem empty_isSpent : empty.isSpent = true := rfl
theorem isSpent_of_nonneg (h : 0 ≤ coin.out.nValue) : coin.isSpent = false := by
  simp only [isSpent,CTxOut.isNull,beq_eq_false_iff_ne]
  omega
end Coin

inductive CoinsOp
  | getCoin (outpoint : COutPoint)
  | addCoin (outpoint : COutPoint) (coin : Coin) (possibleOverwrite : Bool)
  | spendCoin (outpoint : COutPoint)
  | getBestBlock
  | setBestBlock (hashBlock : Uint256)

def coinsInterface : Interface where
  Op := CoinsOp
  Res
    | .getCoin _ => Option Coin
    | .addCoin _ _ _ => Unit
    | .spendCoin _ => Option Coin
    | .getBestBlock => Uint256
    | .setBestBlock _ => Unit

abbrev CoinsProgram := Program coinsInterface ValidationStop
abbrev CoinsHandler (σ : Type) := Handler coinsInterface σ ValidationStop

variable (outpoint : COutPoint)
def getCoin : CoinsProgram (Option Coin) := perform (S := coinsInterface) (.getCoin outpoint)
def addCoin (coin : Coin) (possibleOverwrite : Bool) : CoinsProgram Unit :=
  perform (S := coinsInterface) (.addCoin outpoint coin possibleOverwrite)
def spendCoin : CoinsProgram (Option Coin) := perform (S := coinsInterface) (.spendCoin outpoint)
def getBestBlock : CoinsProgram Uint256 := perform (S := coinsInterface) .getBestBlock
def setBestBlock (hashBlock : Uint256) : CoinsProgram Unit :=
  perform (S := coinsInterface) (.setBestBlock hashBlock)
def haveCoin : CoinsProgram Bool := do
  return (← getCoin outpoint).isSome
def accessCoin : CoinsProgram Coin := do
  return (← getCoin outpoint).getD Coin.empty

/-- `CCoinsViewCache::HaveInputs` after its coinbase test. -/
def haveAll : List COutPoint → CoinsProgram Bool
  | [] => return true
  | prevout::rest => do
      if ← haveCoin prevout then haveAll rest else return false

def haveInputs (tx : CTransaction) : CoinsProgram Bool :=
  if tx.isCoinBase then return true else haveAll tx.prevouts

variable {outpoint : COutPoint}
section Calls
variable {P : CoinsOp → Prop}
theorem haveCoin_calls (h : P (.getCoin outpoint)) : (haveCoin outpoint).Calls P :=
  calls_bind ((calls_perform _).mpr h) fun _ => calls_pure _
theorem accessCoin_calls (h : P (.getCoin outpoint)) : (accessCoin outpoint).Calls P :=
  calls_bind ((calls_perform _).mpr h) fun _ => calls_pure _

theorem haveAll_calls {prevouts : List COutPoint} (h : ∀ prevout ∈ prevouts, P (.getCoin prevout)) :
    (haveAll prevouts).Calls P := by
  induction prevouts with
  | nil => exact calls_pure _
  | cons prevout rest ih =>
    rw [List.forall_mem_cons] at h
    refine calls_bind (haveCoin_calls h.1) fun present => ?_
    cases present with
    | true => exact ih h.2
    | false => exact calls_pure _

theorem haveInputs_calls {tx : CTransaction} (h : ∀ prevout ∈ tx.prevouts, P (.getCoin prevout)) :
    (haveInputs tx).Calls P := by
  unfold haveInputs
  split
  · exact calls_pure _
  · exact haveAll_calls h
end Calls

def CoinsOp.isRead : CoinsOp → Bool
  | .getCoin _ => true
  | .getBestBlock => true
  | _ => false

def Reads {α : Type} (p : CoinsProgram α) : Prop := p.Calls fun op => CoinsOp.isRead op = true
abbrev CoinMap := KeyMap COutPoint Coin
abbrev CoinWrites := List (Write COutPoint Coin)

@[ext]
structure UtxoView where
  coins : CoinMap
  bestBlock : Uint256
  unspent : ∀ outpoint coin, coins.lookup outpoint = some coin → coin.isSpent = false

namespace UtxoView
def empty : UtxoView where
  coins := ∅
  bestBlock := 0#256
  unspent := by
    intro outpoint coin h
    simp at h

variable (view : UtxoView)
def insert (outpoint : COutPoint) (coin : Coin) (h : coin.isSpent = false) : UtxoView where
  coins := write view.coins (outpoint, some coin)
  bestBlock := view.bestBlock
  unspent := by
    intro o c hc
    rw [lookup_write] at hc
    split at hc
    · cases hc
      exact h
    · exact view.unspent o c hc

def erase (outpoint : COutPoint) : UtxoView where
  coins := write view.coins (outpoint, none)
  bestBlock := view.bestBlock
  unspent := by
    intro o c hc
    rw [lookup_write] at hc
    split at hc
    · cases hc
    · exact view.unspent o c hc

def handle : CoinsHandler UtxoView
  | .getCoin outpoint, view => .ok (view.coins.lookup outpoint, view)
  | .addCoin outpoint coin _, view =>
    if h : coin.isSpent = false then
      if coin.out.scriptPubKey.isUnspendable then .ok ((), view)
      else .ok ((), view.insert outpoint coin h)
    else .error .assertion
  | .spendCoin outpoint, view => .ok (view.coins.lookup outpoint, view.erase outpoint)
  | .getBestBlock, view => .ok (view.bestBlock, view)
  | .setBestBlock hashBlock, view => .ok ((), { view with bestBlock := hashBlock })

/-- `AddCoin` replaces an unspent coin only if it was told that it may. -/
def overwriteFlagged : CoinsOp → UtxoView → Bool
  | .addCoin outpoint coin possibleOverwrite, view =>
    coin.isSpent || coin.out.scriptPubKey.isUnspendable || possibleOverwrite ||
      (view.coins.lookup outpoint).isNone
  | _, _ => true

/-- What makes a cache behave as one map: overwrites are flagged, and the best block is not set to
the null hash, for which a cache asks its base again. -/
def cacheSafe : CoinsOp → UtxoView → Bool
  | .setBestBlock hashBlock, _ => hashBlock != 0#256
  | op, view => overwriteFlagged op view

def overwriteFree : CoinsOp → UtxoView → Bool
  | .addCoin outpoint coin _, view =>
    coin.isSpent || coin.out.scriptPubKey.isUnspendable || (view.coins.lookup outpoint).isNone
  | _, _ => true

def overwriteError : ValidationStop :=
  .exception "Attempted to overwrite an unspent coin (when possible_overwrite is false)"

def cached : CoinsHandler UtxoView := handle.guard cacheSafe overwriteError

def sealed : CoinsHandler UtxoView := handle.guard overwriteFree overwriteError

/-- What adding a coin writes: nothing for an unspendable script. -/
def coinWrites (outpoint : COutPoint) (coin : Coin) : CoinWrites :=
  if coin.out.scriptPubKey.isUnspendable then [] else [(outpoint, some coin)]

variable {possibleOverwrite : Bool}
theorem handle_addCoin_eq_ok {view view' : UtxoView} {answer : Unit} :
    handle (.addCoin outpoint coin possibleOverwrite) view = .ok (answer, view') ↔
      coin.isSpent = false ∧ view'.coins = replay view.coins (coinWrites outpoint coin) ∧
        view'.bestBlock = view.bestBlock := by
  by_cases hs : coin.isSpent = false
  · by_cases hscr : coin.out.scriptPubKey.isUnspendable = true
    · simp only [handle,hs,hscr,coinWrites,dif_pos,if_true,true_and]
      exact ⟨fun h => by cases h; exact ⟨rfl,rfl⟩,fun h => by rw [UtxoView.ext h.1 h.2]⟩
    · simp only [handle,hs,hscr,coinWrites,true_and]
      exact ⟨fun h => by cases h; exact ⟨rfl,rfl⟩,
        fun h => by rw [UtxoView.ext (y := view.insert outpoint coin hs) h.1 h.2]; rfl⟩
  · simp [handle,hs]

section Inversion
variable {view view' : UtxoView}
theorem reads_ok {α : Type} {p : CoinsProgram α} {a : α} (hr : Reads p)
    (h : p.run handle view = .ok (a, view')) : view' = view := by
  refine Program.Calls.run_state (hr.mono ?_) h
  intro op hre s answer s' hop
  cases op with
  | getCoin o => exact (Prod.mk.inj (Except.ok.inj hop)).2.symm
  | getBestBlock => exact (Prod.mk.inj (Except.ok.inj hop)).2.symm
  | _ => cases hre

theorem reads_bind_ok {α β : Type} {p : CoinsProgram α} {f : α → CoinsProgram β}
    {out : β × UtxoView} (hr : Reads p) (h : (p >>= f).run handle view = .ok out) :
    ∃ a, p.run handle view = .ok (a, view) ∧ (f a).run handle view = .ok out := by
  obtain ⟨a,mid,hp,hf⟩ := run_bind_eq_ok.mp h
  obtain rfl := reads_ok hr hp
  exact ⟨a,hp,hf⟩

theorem addCoin_ok {answer : Unit}
    (h : (addCoin outpoint coin possibleOverwrite).run handle view = .ok (answer, view')) :
    coin.isSpent = false ∧ view'.coins = replay view.coins (coinWrites outpoint coin) ∧
      view'.bestBlock = view.bestBlock :=
  handle_addCoin_eq_ok.mp ((run_perform _ _).symm.trans h)
end Inversion

structure Applied (view : UtxoView) (log : CoinWrites) (view' : UtxoView) : Prop where
  coins : view'.coins = replay view.coins log
  best : view'.bestBlock = view.bestBlock

namespace Applied
variable {view mid view' : UtxoView} {first second : CoinWrites}
theorem nil (view : UtxoView) : view.Applied [] view := ⟨rfl,rfl⟩
theorem append (h : view.Applied first mid) (h' : mid.Applied second view') :
    view.Applied (first++second) view' :=
  ⟨by rw [h'.coins,h.coins,replay_append],h'.best.trans h.best⟩
end Applied

theorem run_setBestBlock_cached {hashBlock : Uint256} (h : hashBlock ≠ 0#256) :
    (setBestBlock hashBlock).run cached view = .ok ((), { view with bestBlock := hashBlock }) :=
  (run_perform _ _).trans (guard_eq_ok.mpr ⟨by simpa [cacheSafe] using h,rfl⟩)

theorem run_addCoin (outpoint : COutPoint) (hu : coin.isSpent = false) :
    ∃ view', (addCoin outpoint coin (view.coins.lookup outpoint).isSome).run cached view =
      .ok ((), view') ∧ view.Applied (coinWrites outpoint coin) view' := by
  have hs : cacheSafe (.addCoin outpoint coin (view.coins.lookup outpoint).isSome) view = true := by
    cases h : view.coins.lookup outpoint with
    | none => simp [cacheSafe,overwriteFlagged,h]
    | some old => simp [cacheSafe,overwriteFlagged]
  by_cases hscr : coin.out.scriptPubKey.isUnspendable = true
  · refine ⟨view,?_,by rw [coinWrites,if_pos hscr]; exact Applied.nil view⟩
    refine (run_perform _ _).trans (guard_eq_ok.mpr ⟨hs,?_⟩)
    exact handle_addCoin_eq_ok.mpr ⟨hu,by rw [coinWrites,if_pos hscr]; rfl,rfl⟩
  · have hw : coinWrites outpoint coin = [(outpoint, some coin)] := if_neg hscr
    refine ⟨view.insert outpoint coin hu,?_,by rw [hw]; exact ⟨rfl,rfl⟩⟩
    refine (run_perform _ _).trans (guard_eq_ok.mpr ⟨hs,?_⟩)
    exact handle_addCoin_eq_ok.mpr ⟨hu,by rw [hw]; rfl,rfl⟩
end UtxoView
end Lcryp
