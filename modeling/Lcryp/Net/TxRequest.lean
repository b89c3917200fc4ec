import Lcryp.Chain.BlockIndex
import Lcryp.Framework.Codec
import Lcryp.Framework.Loop
import Lcryp.Framework.MultiIndex
import Mathlib.Data.Prod.Lex

/-!
# The transaction request tracker

`TxRequestTracker` keeps the announcements of transactions in a container with three orders.
-/
namespace Lcryp
open Codec
abbrev NodeId := Int
structure GenTxid where
  m_is_wtxid : Bool
  m_hash : Uint256
deriving DecidableEq

inductive AnnouncementState
  | candidateDelayed
  | candidateReady
  | candidateBest
  | requested
  | completed
deriving DecidableEq

def AnnouncementState.value : AnnouncementState → Nat
  | candidateDelayed => 0
  | candidateReady => 1
  | candidateBest => 2
  | requested => 3
  | completed => 4

structure Announcement where
  m_txhash : Uint256
  m_time : Int
  m_peer : NodeId
  m_sequence : BitVec 59
  m_preferred : Bool
  m_is_wtxid : Bool
  m_state : AnnouncementState
deriving DecidableEq

variable (ann : Announcement)
namespace Announcement
def setState (state : AnnouncementState) : Announcement := { ann with m_state := state }
def isSelected : Bool := ann.m_state == .candidateBest || ann.m_state == .requested
def isWaiting : Bool := ann.m_state == .requested || ann.m_state == .candidateDelayed
def isSelectable : Bool := ann.m_state == .candidateReady || ann.m_state == .candidateBest
def toGenTxid : GenTxid := ⟨ann.m_is_wtxid, ann.m_txhash⟩
end Announcement

/-- SipHash of a transaction hash and a peer, with the keys of the tracker. -/
abbrev SipHash := Uint256 → NodeId → BitVec 64
variable (sip : SipHash)

def computePriority (ann : Announcement) : Nat :=
  ((sip ann.m_txhash ann.m_peer >>> 1) ||| (if ann.m_preferred then 1#64 <<< 63 else 0#64)).toNat

/-- The order of `uint256`, which compares the bytes as they are in memory. -/
def memoryOrder (hash : Uint256) : Nat := leValue (leBytes 32 hash.toNat).reverse
def byPeerKey (peer : NodeId) (best : Bool) (txhash : Uint256) : NodeId ×ₗ Bool ×ₗ Nat :=
  toLex (peer, toLex (best, memoryOrder txhash))
def byPeerView : NodeId ×ₗ Bool ×ₗ Nat := byPeerKey ann.m_peer (ann.m_state == .candidateBest) ann.m_txhash
def byTxHashKey (txhash : Uint256) (state : AnnouncementState) (priority : Nat) : Nat ×ₗ Nat ×ₗ Nat :=
  toLex (memoryOrder txhash, toLex (state.value, priority))
def byTxHashView (ann : Announcement) : Nat ×ₗ Nat ×ₗ Nat :=
  byTxHashKey ann.m_txhash ann.m_state
    (if ann.m_state = .candidateReady then computePriority sip ann else 0)

/-- `GetWaitState`: a future event, none or a past one. -/
def getWaitState : Nat := if ann.isWaiting then 0 else if ann.isSelectable then 2 else 1
def byTimeView : Nat ×ₗ Int := toLex (getWaitState ann, ann.m_time)
abbrev AnnouncementIndex := MultiIndex byPeerView (byTxHashView sip) byTimeView
structure PeerInfo where
  m_total : Nat
  m_completed : Nat
  m_requested : Nat
deriving DecidableEq

structure TxRequestTracker where
  m_current_sequence : BitVec 64
  m_index : AnnouncementIndex sip
  m_peerinfo : NodeId → Option PeerInfo

inductive TrackerFault
  | assertion
  | danglingIterator
  | duplicateKey
  | noPeerInfo
  | endless
deriving DecidableEq

abbrev TrackerResult (sip : SipHash) := Except TrackerFault (TxRequestTracker sip)

namespace TxRequestTracker
open MultiIndex
variable {sip : SipHash}
def new : TxRequestTracker sip := ⟨0#64, .empty, fun _ => none⟩
def setPeerInfo (m_peerinfo : NodeId → Option PeerInfo) (peer : NodeId) (info : Option PeerInfo) :
    NodeId → Option PeerInfo :=
  fun other => if other = peer then info else m_peerinfo other

variable (t : TxRequestTracker sip)
def erase (it : Announcement) : TrackerResult sip :=
  if it ∈ t.m_index then
    match t.m_peerinfo it.m_peer with
    | none => .error .noPeerInfo
    | some info =>
      let info : PeerInfo :=
        ⟨info.m_total-1, info.m_completed - (it.m_state == .completed).toNat,
          info.m_requested - (it.m_state == .requested).toNat⟩
      .ok { t with
        m_index := t.m_index.erase it
        m_peerinfo := setPeerInfo t.m_peerinfo it.m_peer (if info.m_total = 0 then none else some info) }
  else .error .danglingIterator

def modify (it ann : Announcement) : TrackerResult sip :=
  if hit : it ∈ t.m_index then
    match t.m_peerinfo it.m_peer with
    | none => .error .noPeerInfo
    | some info =>
      match t.m_index.modify it ann hit with
      | none => .error .duplicateKey
      | some index =>
        .ok { t with
          m_index := index
          m_peerinfo := setPeerInfo t.m_peerinfo it.m_peer (some
            ⟨info.m_total,info.m_completed - (it.m_state == .completed).toNat +
                (ann.m_state == .completed).toNat,
              info.m_requested - (it.m_state == .requested).toNat + (ann.m_state == .requested).toNat⟩) }
  else .error .danglingIterator

variable (it : Announcement)
def promoteCandidateReady : TrackerResult sip := do
  require (it.m_state = .candidateDelayed) .assertion
  let ready := it.setState .candidateReady
  let t ← t.modify it ready
  match following t.m_index.second ready with
  | none => t.modify ready (ready.setState .candidateBest)
  | some next =>
    if next.m_txhash ≠ ready.m_txhash ∨ next.m_state = .completed then
      t.modify ready (ready.setState .candidateBest)
    else if next.m_state = .candidateBest then
      if computePriority sip ready > computePriority sip next then
        let t ← t.modify next (next.setState .candidateReady)
        t.modify ready (ready.setState .candidateBest)
      else return t
    else return t

/-- The candidate that `ChangeAndReselect` selects in the place of a selected announcement. -/
def successor : Option Announcement :=
  if it.isSelected then
    (preceding t.m_index.second it).filter fun prev =>
      prev.m_txhash == it.m_txhash && prev.m_state == .candidateReady
  else none

def changeAndReselect (newState : AnnouncementState) : TrackerResult sip := do
  require (newState = .completed ∨ newState = .candidateDelayed) .assertion
  let t ← match t.successor it with
    | none => pure t
    | some prev => t.modify prev (prev.setState .candidateBest)
  t.modify it (it.setState newState)

def isOnlyNonCompleted : Bool :=
  (preceding t.m_index.second it).all (·.m_txhash != it.m_txhash) &&
    (following t.m_index.second it).all fun next =>
      next.m_txhash != it.m_txhash || next.m_state == .completed

/-- Announcements are erased one after the other while they have the transaction hash.  Erasing one
keeps the order of the rest. -/
def eraseWhile (txhash : Uint256) : List Announcement → TxRequestTracker sip → TrackerResult sip
  | [], t => .ok t
  | it::rest, t =>
    if it.m_txhash = txhash then do
      let t ← t.erase it
      eraseWhile txhash rest t
    else .ok t

/-- `MakeCompleted`, with the announcement that the iterator points at afterwards if it is still
there. -/
def makeCompleted : Except TrackerFault (TxRequestTracker sip × Option Announcement) := do
  if it.m_state = .completed then return (t, some it)
  else if t.isOnlyNonCompleted it then
    let rest := behind t.m_index.second it
    let t ← t.erase it
    let t ← eraseWhile it.m_txhash rest t
    return (t, none)
  else
    let t ← t.changeAndReselect it .completed
    return (t, some (it.setState .completed))

variable (now : Int)
/-- The first loop of `SetTimePoint`, with the requests that have expired. -/
def expireTurn (s : TxRequestTracker sip × List (NodeId × GenTxid)) :
    Except TrackerFault (Turn (TxRequestTracker sip × List (NodeId × GenTxid))) :=
  match s.1.m_index.third.head? with
  | none => .ok (.done s)
  | some it =>
    if it.m_state = .candidateDelayed ∧ it.m_time ≤ now then do
      let t ← s.1.promoteCandidateReady it
      return .next (t, s.2)
    else if it.m_state = .requested ∧ it.m_time ≤ now then do
      let (t, _) ← s.1.makeCompleted it
      return .next (t, s.2++[(it.m_peer, it.toGenTxid)])
    else .ok (.done s)

/-- The second loop of `SetTimePoint`. -/
def delayTurn (t : TxRequestTracker sip) : Except TrackerFault (Turn (TxRequestTracker sip)) :=
  match t.m_index.third.getLast? with
  | none => .ok (.done t)
  | some it =>
    if it.isSelectable ∧ it.m_time > now then do
      let t ← t.changeAndReselect it .candidateDelayed
      return .next t
    else .ok (.done t)

/-- A loop that takes at most one turn for each announcement. -/
def runLoop {σ : Type} (turn : σ → Except TrackerFault (Turn σ)) (size : Nat) (s : σ) :
    Except TrackerFault σ := do
  match ← iterate turn (size+1) s with
  | none => throw .endless
  | some s => return s

def setTimePoint : Except TrackerFault (TxRequestTracker sip × List (NodeId × GenTxid)) := do
  let (t, expired) ← runLoop (expireTurn now) t.m_index.first.length (t, [])
  let t ← runLoop (delayTurn now) t.m_index.first.length t
  return (t, expired)

variable (peer : NodeId)
/-- One announcement of a peer that has gone, and the next one of that peer. -/
def disconnectTurn (s : TxRequestTracker sip × Option Announcement) :
    Except TrackerFault (Turn (TxRequestTracker sip × Option Announcement)) :=
  match s.2 with
  | none => .ok (.done s)
  | some it =>
    if it.m_peer ≠ peer then .ok (.done s)
    else do
      let next := (following s.1.m_index.first it).filter (·.m_peer == peer)
      let (t, left) ← s.1.makeCompleted it
      let t ← match left with
        | none => pure t
        | some it => t.erase it
      return .next (t, next)

def lowerBound {κ : Type} [LinearOrder κ] (view : Announcement → κ) (key : κ) (l : List Announcement) :
    List Announcement :=
  l.dropWhile (view · < key)

def disconnectedPeer : TrackerResult sip := do
  let it := (lowerBound byPeerView (byPeerKey peer false 0#256) t.m_index.first).head?
  let (t, _) ← runLoop (disconnectTurn peer) t.m_index.first.length (t, it)
  return t

variable (txhash : Uint256)
def forgetTxHash : TrackerResult sip :=
  t.eraseWhile txhash
    (lowerBound (byTxHashView sip) (byTxHashKey txhash .candidateDelayed 0) t.m_index.second)

def find (t : TxRequestTracker sip) (peer : NodeId) (best : Bool) (txhash : Uint256) : Option Announcement :=
  t.m_index.first.find? (byPeerView · = byPeerKey peer best txhash)

def receivedInv (gtxid : GenTxid) (preferred : Bool) (reqtime : Int) : TxRequestTracker sip :=
  if (t.find peer true gtxid.m_hash).isSome then t
  else
    let ann : Announcement :=
      { m_txhash := gtxid.m_hash
        m_time := reqtime
        m_peer := peer
        m_sequence := t.m_current_sequence.setWidth 59
        m_preferred := preferred
        m_is_wtxid := gtxid.m_is_wtxid
        m_state := .candidateDelayed }
    match t.m_index.emplace ann with
    | none => t
    | some index =>
      let info := (t.m_peerinfo peer).getD ⟨0, 0, 0⟩
      { m_current_sequence := t.m_current_sequence + 1
        m_index := index
        m_peerinfo := setPeerInfo t.m_peerinfo peer (some { info with m_total := info.m_total + 1 }) }

def getRequestable (now : Int) :
    Except TrackerFault (TxRequestTracker sip × List GenTxid × List (NodeId × GenTxid)) := do
  let (t, expired) ← t.setTimePoint now
  let selected := (lowerBound byPeerView (byPeerKey peer true 0#256) t.m_index.first).takeWhile
    fun ann => ann.m_peer == peer && ann.m_state == .candidateBest
  let sorted := selected.mergeSort fun a b => decide (a.m_sequence.toNat ≤ b.m_sequence.toNat)
  return (t, sorted.map Announcement.toGenTxid, expired)

/-- The selected announcement gives way to the one that is requested from another peer. -/
def unselect : TrackerResult sip :=
  match (lowerBound (byTxHashView sip) (byTxHashKey txhash .candidateBest 0) t.m_index.second).head? with
  | none => .ok t
  | some old =>
    if old.m_txhash ≠ txhash then .ok t
    else if old.m_state = .candidateBest then t.modify old (old.setState .candidateReady)
    else if old.m_state = .requested then t.modify old (old.setState .completed)
    else .ok t

def requestedTx (expiry : Int) : TrackerResult sip :=
  match t.find peer true txhash with
  | some it => t.modify it { it with m_state := .requested, m_time := expiry }
  | none =>
    match t.find peer false txhash with
    | none => .ok t
    | some it =>
      if it.m_state ≠ .candidateDelayed ∧ it.m_state ≠ .candidateReady then .ok t
      else do
        let t ← t.unselect txhash
        t.modify it { it with m_state := .requested, m_time := expiry }

def receivedResponse : TrackerResult sip :=
  match (t.find peer false txhash).or (t.find peer true txhash) with
  | none => .ok t
  | some it => do
      let (t, _) ← t.makeCompleted it
      return t

inductive Call
  | receivedInv (peer : NodeId) (gtxid : GenTxid) (preferred : Bool) (reqtime : Int)
  | disconnectedPeer (peer : NodeId)
  | forgetTxHash (txhash : Uint256)
  | getRequestable (peer : NodeId) (now : Int)
  | requestedTx (peer : NodeId) (txhash : Uint256) (expiry : Int)
  | receivedResponse (peer : NodeId) (txhash : Uint256)

def call : Call → TrackerResult sip
  | .receivedInv peer gtxid preferred reqtime => .ok (t.receivedInv peer gtxid preferred reqtime)
  | .disconnectedPeer peer => t.disconnectedPeer peer
  | .forgetTxHash txhash => t.forgetTxHash txhash
  | .getRequestable peer now => do
      let (t, _) ← t.getRequestable peer now
      return t
  | .requestedTx peer txhash expiry => t.requestedTx peer txhash expiry
  | .receivedResponse peer txhash => t.receivedResponse peer txhash
end TxRequestTracker
end Lcryp
