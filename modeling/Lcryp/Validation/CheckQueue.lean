import Lcryp.Framework.Run
import Mathlib.Data.BitVec
import Mathlib.Data.Fintype.BigOperators
import Mathlib.Tactic.Abel

/-!
# The check queue

`CCheckQueue` between a master and its workers.  What a thread does while it has the lock is one
step, and a thread that waits may get the lock at any time.
-/
namespace Lcryp.CheckQueue
open Function List Multiset Finset
variable {T W : Type}
inductive Phase
  | outside
  | waiting
  | running
deriving DecidableEq

/-- The variables of `Loop` in one thread; `vChecks` has the checks that are still to run. -/
structure Thread (T : Type) where
  phase : Phase
  vChecks : List T
  nNow : Nat
  fOk : Bool

def idle (phase : Phase) : Thread T := ⟨phase, [], 0, true⟩

/-- What became of the checks added since `Wait` last returned. -/
structure Log (T : Type) where
  added : Multiset T
  executed : Multiset T
  skipped : Multiset T

/-- The queue, its back first, with the threads and the last answer of `Wait`. -/
structure State (T W : Type) where
  queue : List T
  nIdle : Nat
  nTotal : Nat
  fAllOk : Bool
  nTodo : BitVec 32
  threads : W → Thread T
  fRet : Bool
  log : Log T

def start : State T W := ⟨[], 0, 0, true, 0, fun _ => idle .outside, true, ⟨0, 0, 0⟩⟩
inductive Event (T W : Type)
  | add (vChecks : List T)
  | check (t : W)
  | lock (t : W)

variable [DecidableEq W] (nBatchSize : Nat) (master : W) (ok : T → Bool)
/-- What `Loop` does with the lock before it looks at the queue. -/
def resume (t : W) (s : State T W) : State T W :=
  if (s.threads t).phase = .waiting then { s with nIdle := s.nIdle - 1 }
  else if (s.threads t).nNow = 0 then { s with nTotal := s.nTotal + 1 }
  else { s with
    fAllOk := s.fAllOk && (s.threads t).fOk, nTodo := s.nTodo - BitVec.ofNat 32 (s.threads t).nNow
    threads := update s.threads t (idle .running) }

/-- What it does then, until it gives the lock back. -/
def settle (t : W) (s : State T W) : State T W :=
  if s.queue = [] then
    if t = master ∧ s.nTodo = 0 then
      { s with
        nTotal := s.nTotal - 1, fRet := s.fAllOk, fAllOk := true
        threads := update s.threads t (idle .outside), log := ⟨0, 0, 0⟩ }
    else { s with nIdle := s.nIdle + 1, threads := update s.threads t (idle .waiting) }
  else
    let nNow := max 1 (min nBatchSize (s.queue.length % 2^32 / (s.nTotal + s.nIdle + 1)))
    { s with
      queue := s.queue.drop nNow
      threads := update s.threads t ⟨.running, s.queue.take nNow, nNow, s.fAllOk⟩ }

def runCheck (t : W) (c : T) (vChecks : List T) (s : State T W) : State T W :=
  if (s.threads t).fOk then
    { s with
      threads := update s.threads t { s.threads t with vChecks := vChecks, fOk := ok c }
      log := { s.log with executed := c ::ₘ s.log.executed } }
  else
    { s with
      threads := update s.threads t { s.threads t with vChecks := vChecks }
      log := { s.log with skipped := c ::ₘ s.log.skipped } }

def step (s : State T W) : Event T W → Option (State T W)
  | .add vChecks =>
    if (s.threads master).phase = .outside then
      some { s with
        queue := vChecks.reverse++s.queue, nTodo := s.nTodo + BitVec.ofNat 32 vChecks.length
        log := { s.log with added := vChecks + s.log.added } }
    else none
  | .check t =>
    match (s.threads t).vChecks with
    | [] => none
    | c::vChecks => some (runCheck ok t c vChecks s)
  | .lock t =>
    if (s.threads t).vChecks = [] then some (settle nBatchSize master t (resume t s)) else none

variable [Fintype W] {nBatchSize master ok} {s s' : State T W} {t : W}
/-- The checks that are queued, and those taken and not yet accounted. -/
def State.outstanding (s : State T W) : Nat := s.queue.length + ∑ t, (s.threads t).nNow
def Log.Passed (ok : T → Bool) (log : Log T) : Prop := ∀ c ∈ log.executed, ok c = true

def Thread.Busy (x : Thread T) : Prop := x.phase = .running ∧ 0 < x.nNow
structure Inv (ok : T → Bool) (s : State T W) : Prop where
  todo : s.nTodo = BitVec.ofNat 32 s.outstanding
  parts : s.log.added = s.queue + ∑ t, ((s.threads t).vChecks : Multiset T) + s.log.executed + s.log.skipped
  passed : s.fAllOk = true ∧ (∀ t, (s.threads t).fOk = true) ↔ s.log.Passed ok
  skipped : s.log.Passed ok → s.log.skipped = 0
  busy : ∀ t, (s.threads t).Busy ∨ s.threads t = idle (s.threads t).phase

/-- When `Wait` returns, every check was executed, or skipped after a failure, and the answer is right. -/
structure Returned (ok : T → Bool) (log : Log T) (s : State T W) : Prop where
  all : log.added = log.executed + log.skipped
  skipped : log.Passed ok → log.skipped = 0
  answer : s.fRet = true ↔ ∀ c ∈ log.added, ok c = true
  cleared : s.nTodo = 0 ∧ s.queue = [] ∧ s.fAllOk = true

theorem sum_update {M : Type} [AddCommMonoid M] (f : Thread T → M) (threads : W → Thread T) (t : W)
    (x : Thread T) : ∑ u, f (update threads t x u) + f (threads t) = ∑ u, f (threads u) + f x := by
  have hc : (fun u => f (update threads t x u)) = update (fun u => f (threads u)) t (f x) := by
    funext u
    by_cases h : u = t <;> simp [h]
  rw [hc,sum_update_of_mem (mem_univ t),← add_sum_erase _ _ (mem_univ t),
    sdiff_singleton_eq_erase]
  abel

/-- A thread is replaced; what it loses goes to the queue or the log, and what it gains comes from there. -/
theorem Inv.put (h : Inv ok s) (x : Thread T) {queue : List T} {fAllOk : Bool} {nTodo : BitVec 32}
    {log : Log T} (n m : Nat) (b : Bool)
    (ht : nTodo + BitVec.ofNat 32 (s.queue.length + (s.threads t).nNow) =
      s.nTodo + BitVec.ofNat 32 (queue.length+x.nNow)) (ha : log.added = s.log.added)
    (hpa : (s.queue + (s.threads t).vChecks + (s.log.executed+s.log.skipped) : Multiset T) =
      queue + x.vChecks + (log.executed+log.skipped))
    (hp : ∀ rest, (s.fAllOk = true ∧ (s.threads t).fOk = true ∧ rest ↔ s.log.Passed ok) →
      (fAllOk = true ∧ x.fOk = true ∧ rest ↔ log.Passed ok))
    (hs : log.Passed ok → log.skipped = 0) (hb : x.Busy ∨ x = idle x.phase) :
    Inv ok ⟨queue, n, m, fAllOk, nTodo, update s.threads t x, b, log⟩ := by
  have hn := sum_update Thread.nNow s.threads t x
  have hl := sum_update (fun u => (u.vChecks : Multiset T)) s.threads t x
  refine ⟨?_,?_,?_,hs,?_⟩
  · rw [h.todo,State.outstanding] at ht
    apply add_right_cancel (ht.trans _)
    rw [State.outstanding,← BitVec.ofNat_add,← BitVec.ofNat_add]
    congr 1
    dsimp only
    omega
  · apply add_right_cancel (b := ((s.threads t).vChecks : Multiset T))
    rw [ha,h.parts]
    calc _ = (s.queue + (s.threads t).vChecks + (s.log.executed+s.log.skipped) : Multiset T) +
          ∑ u, ((s.threads u).vChecks : Multiset T) := by abel
      _ = queue + (log.executed+log.skipped) + (∑ u, ((s.threads u).vChecks : Multiset T) + x.vChecks) := by
        rw [hpa]
        abel
      _ = _ := by
        rw [← hl]
        abel
  · rw [forall_update_iff s.threads fun _ x => x.fOk = true]
    apply hp
    rw [← h.passed]
    grind
  · rw [forall_update_iff s.threads fun _ x => x.Busy ∨ x = idle x.phase]
    exact ⟨hb,fun u _ => h.busy u⟩

omit [DecidableEq W] in
theorem inv_idle {threads : W → Thread T} (h : ∀ t, threads t = idle (threads t).phase) (nIdle nTotal : Nat)
    (fRet : Bool) : Inv ok ⟨[], nIdle, nTotal, true, 0, threads, fRet, ⟨0, 0, 0⟩⟩ := by
  have ht : ∀ t, (threads t).nNow = 0 ∧ (threads t).vChecks = [] ∧ (threads t).fOk = true := by
    intro t
    rw [h t]
    simp [idle]
  refine ⟨?_,?_,?_,?_,fun t => .inr (h t)⟩ <;> simp [State.outstanding,Log.Passed,ht]

theorem resume_inv (h : Inv ok s) (ht : (s.threads t).vChecks = []) :
    ∃ r, resume t s = r ∧ Inv ok r ∧ r.threads t = idle (r.threads t).phase ∧
      r.outstanding ≤ s.outstanding ∧ r.log = s.log := by
  have hbu := h.busy t
  refine ⟨_,rfl,?_⟩
  unfold resume
  split
  · next hw =>
    refine ⟨⟨h.todo,h.parts,h.passed,h.skipped,h.busy⟩,hbu.resolve_left fun hb => ?_,le_rfl,rfl⟩
    cases hw.symm.trans hb.1
  split
  · next hz =>
    exact ⟨⟨h.todo,h.parts,h.passed,h.skipped,h.busy⟩,hbu.resolve_left fun hb => hb.2.ne' hz,le_rfl,rfl⟩
  · refine ⟨h.put (idle .running) _ _ _ ?_ rfl ?_ ?_ h.skipped (.inr rfl),by simp [idle],?_,rfl⟩
    · simp [idle,BitVec.ofNat_add]
    · simp [ht,idle]
    · simp [idle,and_assoc]
    · have := sum_update Thread.nNow s.threads t (idle .running)
      simp only [State.outstanding,idle] at this ⊢
      omega

theorem settle_inv (h : Inv ok s) (ht : s.threads t = idle (s.threads t).phase) (hf : s.outstanding < 2^32) :
    Inv ok (settle nBatchSize master t s) ∧
      (((settle nBatchSize master t s).threads t).phase = .outside →
        Returned ok s.log (settle nBatchSize master t s)) := by
  unfold settle
  split
  · next hq =>
    split
    · next hr =>
      have hto := h.todo
      rw [hr.2,BitVec.toNat_inj.symm,BitVec.toNat_ofNat,Nat.mod_eq_of_lt hf,State.outstanding] at hto
      have hz : ∀ u, (s.threads u).nNow = 0 := by simpa [hq] using hto.symm
      have hi := fun u => (h.busy u).resolve_left fun hb => hb.2.ne' (hz u)
      have hn : ∀ u, (s.threads u).vChecks = [] ∧ (s.threads u).fOk = true := by
        intro u
        rw [hi u]
        simp [idle]
      have hp : s.log.added = s.log.executed + s.log.skipped := by simpa [hq,hn] using h.parts
      have hpa : s.fAllOk = true ↔ s.log.Passed ok := by simpa [hn] using h.passed
      refine ⟨?_,fun _ => ⟨hp,h.skipped,?_,hr.2,hq,rfl⟩⟩
      · simp only [hq,hr.2]
        refine inv_idle (fun u => ?_) _ _ _
        by_cases hu : u = t
        · simp [hu,idle]
        · simpa [hu] using hi u
      · rw [hpa,hp]
        constructor
        · intro hall
          rwa [h.skipped hall,add_zero]
        · intro hall c hc
          exact hall c (mem_add.mpr (.inl hc))
    · refine ⟨h.put (idle .waiting) _ _ _ ?_ rfl ?_ ?_ h.skipped (.inr rfl),by simp [idle]⟩ <;>
      rw [ht] <;> simp [idle]
  · next hq =>
    have hpos := length_pos_iff.mpr hq
    have hdiv := Nat.div_le_self (s.queue.length % 2^32) (s.nTotal + s.nIdle + 1)
    refine ⟨h.put _ _ _ _ ?_ rfl ?_ ?_ h.skipped (.inl ⟨rfl,?_⟩),by simp⟩
    · rw [ht,length_drop]
      congr 2
      dsimp only [idle]
      omega
    · rw [ht]
      dsimp only [idle]
      rw [coe_add (drop _ _),coe_eq_coe.mpr perm_append_comm,take_append_drop]
      simp
    · rw [ht]
      simp [idle]
    · dsimp only
      omega

theorem step_inv {e : Event T W} (h : Inv ok s) (hf : s.outstanding < 2^32)
    (hs : step nBatchSize master ok s e = some s') :
    Inv ok s' ∧ ∀ t, e = .lock t → (s'.threads t).phase = .outside → Returned ok s.log s' := by
  cases e with
  | add vChecks =>
    simp only [step] at hs
    split at hs
    · cases hs
      refine ⟨⟨?_,?_,h.passed,h.skipped,h.busy⟩,by simp⟩
      · rw [h.todo,State.outstanding,State.outstanding,← BitVec.ofNat_add]
        simp only [length_append,length_reverse]
        congr 1
        omega
      · simp [h.parts,← Multiset.coe_add]
        abel
    · cases hs
  | check t =>
    simp only [step] at hs
    split at hs
    · cases hs
    next c vChecks hc =>
    cases hs
    have hb : (s.threads t).Busy := (h.busy t).resolve_right fun hi => by
      rw [hi] at hc
      cases hc
    refine ⟨?_,by simp⟩
    unfold runCheck
    split
    · next hok =>
      refine h.put _ _ _ _ rfl rfl ?_ ?_ ?_ (.inl hb)
      · simp [hc,← cons_coe]
      · simp only [Log.Passed,Multiset.forall_mem_cons,hok]
        grind
      · exact fun hp => h.skipped fun d hd => hp d (mem_cons_of_mem hd)
    · next hok =>
      refine h.put _ _ _ _ rfl rfl ?_ (fun _ => id) ?_ (.inl hb)
      · simp [hc,← cons_coe]
      · exact fun hp => absurd ((h.passed.mpr hp).2 t) hok
  | lock t =>
    simp only [step] at hs
    split at hs
    · next hfr =>
      cases hs
      obtain ⟨r,rfl,hr,hi,hle,hlog⟩ := resume_inv h hfr
      obtain ⟨hinv,hret⟩ := @settle_inv _ _ _ nBatchSize master _ _ _ _ hr hi (hle.trans_lt hf)
      rw [hlog] at hret
      refine ⟨hinv,?_⟩
      rintro _ ⟨⟩
      exact hret
    · cases hs

/-- As long as no more checks are outstanding than `nTodo` can count. -/
theorem checkQueue_waits {events : List (Event T W)}
    (hrun : Run.run (step nBatchSize master ok) start events = some s)
    (hbounded : Run.EveryStep (step nBatchSize master ok) (fun s _ => s.outstanding < 2^32) start events)
    (hfits : s.outstanding < 2^32) :
    s.nTodo.toNat = s.outstanding ∧
      ∀ s', step nBatchSize master ok s (.lock master) = some s' → (s'.threads master).phase = .outside →
        Returned ok s.log s' := by
  have hinv : Inv ok s := Run.run_invariant_of_everyStep
    (fun _ _ _ h hlt hstep => (step_inv h hlt hstep).1) events _ s (inv_idle (fun _ => rfl) 0 0 true)
    hbounded hrun
  refine ⟨?_,fun s' hstep => (step_inv hinv hfits hstep).2 master rfl⟩
  rw [hinv.todo,BitVec.toNat_ofNat,Nat.mod_eq_of_lt hfits]

/-- The master, `true`, fails a check, skips the next one and waits for the check of its worker. -/
theorem failedCheck_waits : ∃ s s' : State Bool Bool,
    Run.run (step 2 true id) start [.add [true, false, true], .lock false, .lock true, .check true, .lock true,
      .check true, .check false, .lock false] = some s ∧
    step 2 true id s (.lock true) = some s' ∧ s.log.executed = {true, false} ∧ s.log.skipped = {true} ∧
    s'.fRet = false ∧ Returned id s.log s' :=
  ⟨_,_,rfl,rfl,rfl,rfl,rfl,(@checkQueue_waits _ _ _ 2 true id _ _ [.add [true,false,true],.lock false,.lock true,
    .check true,.lock true,.check true,.check false,.lock false] rfl (by decide) (by decide)).2 _ rfl rfl⟩

theorem overfull_uncounted : ∃ s : State Unit Bool,
    Run.run (step 1 true fun _ => true) start [.add (replicate (2^32) ())] = some s ∧
    s.nTodo.toNat ≠ s.outstanding := by
  have huncounted : ∀ vChecks : List Unit, vChecks.length = 2^32 → ∃ s,
      Run.run (step 1 true fun _ => true) start [.add vChecks] = some s ∧
      s.nTodo.toNat ≠ s.outstanding :=
    fun vChecks hlen => ⟨_,rfl,by simp [State.outstanding,start,idle,hlen]⟩
  exact huncounted _ length_replicate
end Lcryp.CheckQueue
