import Lcryp.Framework.Run
import Lcryp.Framework.WriteLog
import Lcryp.Primitives.Transaction

/-!
# Blocks in flight

The block requests of `PeerManagerImpl`, kept in one map and in a list for each peer.  An iterator of a
list is the hash of the block it points to.
-/
namespace Lcryp
open WriteLog List Finmap Option
structure CNodeState where
  vBlocksInFlight : List Uint256
  nBlocksInFlight : Int
deriving DecidableEq

/-- The counters, `int` in the source, are unbounded: a run keeps them at the length of a list and at a
number of peers, which stay far below `2 ^ 31`. -/
structure BlockRequests where
  nodeStates : KeyMap Int CNodeState
  mapBlocksInFlight : KeyMap Uint256 Int
  peersDownloadingFrom : Int

namespace BlockRequests
variable (r : BlockRequests)
/-- There is no result if an assertion fails or the iterator is not of the list. -/
def removeBlockRequest (hash : Uint256) : Option BlockRequests :=
  match r.mapBlocksInFlight.lookup hash with
  | none => some r
  | some nodeId => do
    let state ← r.nodeStates.lookup nodeId
    if hash ∉ state.vBlocksInFlight then none
    else
      let nBlocksInFlight := state.nBlocksInFlight - 1
      some ⟨write r.nodeStates (nodeId, some ⟨state.vBlocksInFlight.erase hash, nBlocksInFlight⟩),
        write r.mapBlocksInFlight (hash, none),
        r.peersDownloadingFrom - if nBlocksInFlight = 0 then 1 else 0⟩

variable (nodeid : Int)
def blockRequested (hash : Uint256) : Option (Bool × BlockRequests) := do
  let _ ← r.nodeStates.lookup nodeid
  if r.mapBlocksInFlight.lookup hash = some nodeid then some (false, r)
  else
    let r ← r.removeBlockRequest hash
    let state ← r.nodeStates.lookup nodeid
    let nBlocksInFlight := state.nBlocksInFlight + 1
    some (true, ⟨write r.nodeStates (nodeid, some ⟨state.vBlocksInFlight++[hash], nBlocksInFlight⟩),
      write r.mapBlocksInFlight (hash, some nodeid),
      r.peersDownloadingFrom + if nBlocksInFlight = 1 then 1 else 0⟩)

def initializeNode : BlockRequests :=
  if nodeid ∈ r.nodeStates then r
  else { r with nodeStates := write r.nodeStates (nodeid, some ⟨[], 0⟩) }

variable (state : CNodeState)
/-- What `FinalizeNode` does before its assertions. -/
def forgetNode : BlockRequests :=
  ⟨write r.nodeStates (nodeid, none),
    replay r.mapBlocksInFlight (state.vBlocksInFlight.map fun hash => (hash, none)),
    r.peersDownloadingFrom - if state.nBlocksInFlight ≠ 0 then 1 else 0⟩

def finalizeNode : Option BlockRequests := do
  let state ← r.nodeStates.lookup nodeid
  let r := r.forgetNode nodeid state
  if r.peersDownloadingFrom < 0 then none
  else if r.nodeStates = ∅ ∧ ¬ (r.mapBlocksInFlight = ∅ ∧ r.peersDownloadingFrom = 0) then none
  else some r

inductive Call
  | initializeNode (nodeid : Int)
  | blockRequested (nodeid : Int) (hash : Uint256)
  | removeBlockRequest (hash : Uint256)
  | finalizeNode (nodeid : Int)

def step : Call → Option BlockRequests
  | .initializeNode nodeid => some (r.initializeNode nodeid)
  | .blockRequested nodeid hash => (r.blockRequested nodeid hash).map Prod.snd
  | .removeBlockRequest hash => r.removeBlockRequest hash
  | .finalizeNode nodeid => r.finalizeNode nodeid

def Known : Call → Prop
  | .blockRequested nodeid _ | .finalizeNode nodeid => nodeid ∈ r.nodeStates
  | .initializeNode _ | .removeBlockRequest _ => True

/-- A peer's list is counted and has no block twice. -/
structure Listed (state : CNodeState) : Prop where
  counted : state.nBlocksInFlight = state.vBlocksInFlight.length
  nodup : state.vBlocksInFlight.Nodup

def downloading : Int := if state.vBlocksInFlight = [] then 0 else 1

/-- The list of a peer, empty for one that does not exist. -/
def requested : Option CNodeState → List Uint256
  | none => []
  | some state => state.vBlocksInFlight

structure Booked (r : BlockRequests) : Prop where
  mapped : ∀ hash nodeid, r.mapBlocksInFlight.lookup hash = some nodeid ↔
    hash ∈ requested (r.nodeStates.lookup nodeid)
  listed : ∀ nodeid state, r.nodeStates.lookup nodeid = some state → Listed state
  total : r.peersDownloadingFrom = total downloading r.nodeStates

theorem Booked.asserts {r : BlockRequests} (h : Booked r) : ¬ r.peersDownloadingFrom < 0 ∧
    ¬ (r.nodeStates = ∅ ∧ ¬ (r.mapBlocksInFlight = ∅ ∧ r.peersDownloadingFrom = 0)) := by
  rw [h.total]
  refine ⟨not_lt.mpr (total_nonneg fun _ state _ => ?_),?_⟩
  · unfold downloading
    split <;> decide
  · rintro ⟨hemp,hf⟩
    refine hf ⟨?_,by rw [hemp]; rfl⟩
    apply ext_lookup
    intro k
    rw [lookup_empty,eq_none_iff_forall_ne_some]
    intro id hid
    simp [h.mapped,hemp,requested] at hid

variable {state : CNodeState}
theorem Listed.downloading_eq (h : Listed state) :
    downloading state = if state.nBlocksInFlight = 0 then 0 else 1 := by
  simp [downloading,h.counted]

variable {r : BlockRequests} {nodeid : Int} {hash : Uint256}
/-- One peer's state is replaced, and the map where the lists differ. -/
theorem Booked.put {after : Option CNodeState} {m : KeyMap Uint256 Int} {n : Int} (h : Booked r)
    (hl : ∀ state ∈ after, Listed state)
    (hmap : ∀ k id, m.lookup k = some id ↔
      if id = nodeid then k ∈ requested after else r.mapBlocksInFlight.lookup k = some id)
    (hn : n = r.peersDownloadingFrom - weight downloading (r.nodeStates.lookup nodeid) +
      weight downloading after) : Booked ⟨write r.nodeStates (nodeid, after), m, n⟩ := by
  refine ⟨fun k id => ?_,fun id state hst => ?_,?_⟩
  · simp only [hmap,lookup_write]
    split
    · rfl
    · exact h.mapped k id
  · rw [lookup_write] at hst
    split at hst
    · exact hl state hst
    · exact h.listed id state hst
  · rw [total_write,← h.total]
    exact hn

theorem removeBlockRequest_booked (h : Booked r) (hash : Uint256) :
    ∃ r', r.removeBlockRequest hash = some r' ∧ Booked r' ∧
      r'.mapBlocksInFlight.lookup hash = none ∧ ∀ id ∈ r.nodeStates, id ∈ r'.nodeStates := by
  unfold removeBlockRequest
  cases hf : r.mapBlocksInFlight.lookup hash with
  | none => exact ⟨r,rfl,h,hf,fun _ => id⟩
  | some nodeid =>
    have hm := h.mapped
    have hmem := (hm hash nodeid).mp hf
    cases hst : r.nodeStates.lookup nodeid with
    | none => simp [hst,requested] at hmem
    | some state =>
      rw [hst,requested] at hmem
      obtain ⟨hcnt,hnd⟩ := h.listed nodeid state hst
      have hlen := length_erase_of_mem hmem
      have hpos := length_pos_of_mem hmem
      have hl : Listed ⟨state.vBlocksInFlight.erase hash,state.nBlocksInFlight-1⟩ :=
        ⟨by simp only; omega,hnd.erase hash⟩
      simp only [hst,bind_eq_bind,bind_some,if_neg (not_not_intro hmem)]
      refine ⟨_,rfl,h.put (by simpa using hl) (fun k id => ?_) ?_,?_,?_⟩
      · grind [lookup_write,requested]
      · simp only [hst,weight,Listed.downloading_eq ⟨hcnt,hnd⟩,hl.downloading_eq]
        omega
      · rw [lookup_write,if_pos rfl]
      · intro id hid
        rw [← lookup_isSome,lookup_write]
        split
        · rfl
        · rwa [lookup_isSome]

theorem blockRequested_booked (h : Booked r) (hn : nodeid ∈ r.nodeStates) (hash : Uint256) :
    ∃ answer, r.blockRequested nodeid hash = some answer ∧ Booked answer.2 := by
  obtain ⟨state,hst⟩ := mem_iff.mp hn
  simp only [blockRequested,hst,bind_eq_bind,bind_some]
  split
  · exact ⟨_,rfl,h⟩
  · obtain ⟨r',hrem,h',hno,hk⟩ := removeBlockRequest_booked h hash
    obtain ⟨state,hst⟩ := mem_iff.mp (hk nodeid hn)
    have hm := h'.mapped
    obtain ⟨hcnt,hnd⟩ := h'.listed nodeid state hst
    have hl : Listed ⟨state.vBlocksInFlight++[hash],state.nBlocksInFlight+1⟩ :=
      ⟨by simp [hcnt],by grind [requested]⟩
    simp only [hrem,hst,bind_some]
    refine ⟨_,rfl,h'.put (by simpa using hl) (fun k id => ?_) ?_⟩
    · grind [lookup_write,requested]
    · simp only [hst,weight,Listed.downloading_eq ⟨hcnt,hnd⟩,hl.downloading_eq]
      omega

theorem forgetNode_booked (h : Booked r)
    (hst : r.nodeStates.lookup nodeid = some state) : Booked (r.forgetNode nodeid state) := by
  refine h.put (by simp) (fun k id => ?_) ?_
  · have hm := h.mapped k nodeid
    rw [lookup_replay_map fun _ => none]
    grind [requested]
  · simp only [hst,weight,(h.listed nodeid state hst).downloading_eq]
    split_ifs <;> omega

theorem initializeNode_booked (h : Booked r) (nodeid : Int) : Booked (r.initializeNode nodeid) := by
  unfold initializeNode
  split
  · exact h
  next hnew =>
    have hn := lookup_eq_none.mpr hnew
    refine h.put (by simp; exact ⟨rfl,nodup_nil⟩) (fun k id => ?_) ?_
    · grind [requested,h.mapped]
    · simp [hn,weight,downloading]

/-- After every sequence of calls the records agree, and every next call for a peer that exists returns:
no assertion fails. -/
theorem requests_booked (calls : List Call) {r : BlockRequests} (hrun : Run.run step ⟨∅, ∅, 0⟩ calls = some r) :
    Booked r ∧ ∀ call, Known r call → (step r call).isSome := by
  have hstep : ∀ r call, Booked r → (∀ r' ∈ step r call, Booked r') ∧
      (Known r call → (step r call).isSome) := by
    intro r call h
    cases call with
    | initializeNode nodeid => simp [step,initializeNode_booked h]
    | blockRequested nodeid hash =>
      by_cases hnode : nodeid ∈ r.nodeStates
      · obtain ⟨answer,hans,hbook⟩ := blockRequested_booked h hnode hash
        simp [step,hans,hbook]
      · simp [step,blockRequested,Known,hnode,lookup_eq_none.mpr hnode]
    | removeBlockRequest hash =>
      obtain ⟨r',hrem,hbook,-⟩ := removeBlockRequest_booked h hash
      simp [step,hrem,hbook]
    | finalizeNode nodeid =>
      cases hst : r.nodeStates.lookup nodeid with
      | none => simp [step,finalizeNode,Known,hst,lookup_eq_none.mp hst]
      | some state =>
        have hbook := forgetNode_booked h hst
        simp only [step,finalizeNode,hst,bind_eq_bind,bind_some,if_neg hbook.asserts.1,if_neg hbook.asserts.2]
        simp [hbook]
  have hbook := Run.run_invariant (fun r call r' h => (hstep r call h).1 r') calls _ r
    ⟨by simp [requested],by simp,rfl⟩ hrun
  exact ⟨hbook,fun call => (hstep r call hbook).2⟩

def movedBlock : List Call := [.initializeNode 1, .initializeNode 2, .blockRequested 1 7, .blockRequested 2 7]
theorem movedBlock_booked : ∃ r, Run.run step ⟨∅, ∅, 0⟩ movedBlock = some r ∧
    r.mapBlocksInFlight.lookup 7 = some 2 ∧ Booked r :=
  ⟨_,rfl,by decide,(requests_booked movedBlock rfl).1⟩
end BlockRequests
end Lcryp
