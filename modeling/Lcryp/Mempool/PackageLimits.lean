import Lcryp.Mempool.Package
import Lcryp.Mempool.ReplacementSafety

/-!
# The limits of a package's transactions

`PreChecks` raises the descendant limits of its object for a single conflict and leaves them raised.
-/
namespace Lcryp
open Interaction CTxMemPool Run List AcceptCall Except Function
variable {limits : MemPoolLimits}
namespace Accept
/-! ## The stages of an acceptance -/
variable {stop : AcceptStop} {pool : CTxMemPool} {args : ATMPArgs} {env : AcceptEnv}
section Stages
variable (ctx : AcceptContext)
def onSuccess {α : Type} (pool : CTxMemPool) (check : Except AcceptStop α)
    (next : α → AcceptOutcome) :
    AcceptOutcome :=
  match check with
  | .error stop => failure pool stop
  | .ok a => next a

theorem onSuccess_ok {α : Type} (a : α) (next : α → AcceptOutcome) :
    onSuccess pool (.ok a) next = next a := rfl
theorem onSuccess_bind {α β : Type} (check : Except AcceptStop α) (f : α → Except AcceptStop β)
    (next : β → AcceptOutcome) :
    onSuccess pool (check >>= f) next = onSuccess pool check fun a => onSuccess pool (f a) next := by
  cases check <;> rfl

def afterLimits (env : AcceptEnv) (pool : CTxMemPool) (args : ATMPArgs) (ctx : AcceptContext) (now : Int)
    (tx : CTransaction) (candidate : Candidate) (ancestors : List Uint256) :
    AcceptOutcome :=
  onSuccess pool (checkDisjoint env pool tx candidate ancestors) fun _ =>
    submit env pool args ctx now (workspace pool tx candidate ancestors)

theorem acceptSingleTransaction_eq (call : AcceptCall) (accept : MemPoolAccept) :
    acceptSingleTransaction env ctx pool args call accept =
      onSuccess pool (beforeLimits env (context ctx accept call) pool call.tx args) fun candidate =>
        onSuccess pool (raisedLimits pool accept.limits candidate) fun raised =>
          onSuccess pool (findAncestors env pool raised candidate.entry candidate.vsize) fun ancestors =>
            afterLimits env pool args (context ctx accept call) call.now call.tx candidate ancestors := by
  have hpre : acceptSingleTransaction env ctx pool args call accept =
      onSuccess pool (preChecks env (context ctx accept call) pool args accept.limits call.tx)
        fun checked => submit env pool args (context ctx accept call) call.now checked.1 := by
    unfold acceptSingleTransaction onSuccess
    cases preChecks env (context ctx accept call) pool args accept.limits call.tx <;> rfl
  rw [hpre,preChecks]
  simp only [onSuccess_bind]
  rfl

def allAncestors (pool : CTxMemPool) (tx : CTransaction) : List Uint256 :=
  Search.explore pool.parentsOf pool.mapTx.keys.length [] (pool.getIterSet (tx.prevouts.map COutPoint.hash))

variable {entry : CTxMemPoolEntry}
theorem findAncestors_eq_all {vsize : Nat}
    {ancestors : List Uint256} (h : findAncestors env pool limits entry vsize = .ok ancestors) :
    ancestors = allAncestors pool entry.tx := by
  obtain ⟨limits,hc⟩ := findAncestors_eq_ok h
  obtain ⟨staged,hs,hc⟩ := bind_eq_ok.mp hc
  rw [calculateAncestors_eq_ok env.memPool hc,stageInputs_eq_foldl hs]
  rfl

theorem findAncestors_eq_error {vsize : Nat}
    (h : findAncestors env pool limits entry vsize = .error stop) : ∃ reason, stop = .invalid reason := by
  unfold findAncestors at h
  split at h
  · cases h
  simp only at h
  split at h
  · exact ⟨_,(error.inj h).symm⟩
  · split at h
    · cases h
    · exact ⟨_,(error.inj h).symm⟩

variable {candidate : Candidate} (limits' : MemPoolLimits)
theorem raisedLimits_error (h : raisedLimits pool limits candidate = .error stop) :
    raisedLimits pool limits' candidate = .error stop := by
  unfold raisedLimits conflictLimits at h ⊢
  split at h
  next hone =>
    rw [if_pos hone]
    split at h
    · cases h
    · exact h
  · cases h

theorem raisedLimits_ok {raised : MemPoolLimits} (h : raisedLimits pool limits candidate = .ok raised) :
    ∃ raised', raisedLimits pool limits' candidate = .ok raised' := by
  cases h' : raisedLimits pool limits' candidate with
  | error stop => cases h.symm.trans (raisedLimits_error limits h')
  | ok raised' => exact ⟨raised',rfl⟩
end Stages

/-! ## Decisions -/

/-- `true` if the transaction is accepted, `false` if it is rejected, `none` if the node ends. -/
def decision (answer : AcceptOutcome) : Option Bool :=
  match answer with
  | .error _ => none
  | .ok (.valid _ _, _) => some true
  | .ok _ => some false

/-- Whether a candidate is within the limits, its own allowance added. -/
def withinLimits (env : AcceptEnv) (pool : CTxMemPool) (limits : MemPoolLimits)
    (candidate : Candidate) : Bool :=
  match raisedLimits pool limits candidate with
  | .error _ => false
  | .ok raised =>
    match findAncestors env pool raised candidate.entry candidate.vsize with
    | .error _ => false
    | .ok _ => true

/-- The limits of a transaction decide alike, or it is rejected whatever they are. -/
def LimitsAgree (env : AcceptEnv) (ctx : AcceptContext) (pool : CTxMemPool) (args : ATMPArgs)
    (call : AcceptCall) (limits limits' : MemPoolLimits) : Prop :=
  ∀ candidate, beforeLimits env ctx pool call.tx args = .ok candidate →
    decision (afterLimits env pool args ctx call.now call.tx candidate (allAncestors pool call.tx)) ≠
      some false →
    withinLimits env pool limits candidate = withinLimits env pool limits' candidate

variable {ctx : AcceptContext} {call : AcceptCall}
section Decision
theorem decision_candidate {candidate : Candidate} (hent : candidate.entry.tx = call.tx)
    (hr : ∃ raised, raisedLimits pool limits candidate = .ok raised) :
    decision (onSuccess pool (raisedLimits pool limits candidate) fun raised =>
        onSuccess pool (findAncestors env pool raised candidate.entry candidate.vsize) fun ancestors =>
          afterLimits env pool args ctx call.now call.tx candidate ancestors) =
      if withinLimits env pool limits candidate then
        decision (afterLimits env pool args ctx call.now call.tx candidate (allAncestors pool call.tx))
      else some false := by
  obtain ⟨raised,hr⟩ := hr
  simp only [withinLimits,hr,onSuccess]
  cases hf : findAncestors env pool raised candidate.entry candidate.vsize with
  | error stop =>
    obtain ⟨reason,rfl⟩ := findAncestors_eq_error hf
    rfl
  | ok ancestors =>
    rw [findAncestors_eq_all hf,hent]
    rfl

/-- If all but the limits is the same, the decisions are exactly when the limits agree. -/
theorem decision_eq_iff {accept accept' : MemPoolAccept}
    (hbef : beforeLimits env (context ctx accept call) pool call.tx args =
      beforeLimits env (context ctx accept' call) pool call.tx args)
    (ha : ∀ candidate ancestors,
      afterLimits env pool args (context ctx accept call) call.now call.tx candidate ancestors =
        afterLimits env pool args (context ctx accept' call) call.now call.tx candidate ancestors) :
    decision (acceptSingleTransaction env ctx pool args call accept) =
        decision (acceptSingleTransaction env ctx pool args call accept') ↔
      LimitsAgree env (context ctx accept' call) pool args call accept.limits accept'.limits := by
  rw [acceptSingleTransaction_eq,acceptSingleTransaction_eq,hbef]
  simp only [ha]
  unfold LimitsAgree
  cases hok : beforeLimits env (context ctx accept' call) pool call.tx args with
  | error stop => simp [onSuccess]
  | ok candidate =>
    simp only [onSuccess_ok,ok.injEq,forall_eq']
    have hent : candidate.entry.tx = call.tx := by
      iterate 6 obtain ⟨_,_,hok⟩ := bind_eq_ok.mp hok
      cases hok
      rfl
    cases hra : raisedLimits pool accept.limits candidate with
    | error stop =>
      have hr := raisedLimits_error accept'.limits hra
      simp [withinLimits,hra,hr]
    | ok raised =>
      have hr := raisedLimits_ok accept'.limits hra
      rw [← hra,decision_candidate hent ⟨raised,hra⟩,decision_candidate hent hr]
      cases withinLimits env pool accept.limits candidate <;>
        cases withinLimits env pool accept'.limits candidate <;> simp [eq_comm]
end Decision

/-! ## What the cached coins change -/

theorem mapM_eq_of_mem {ε α β : Type} {f g : α → Except ε β} {l : List α} (h : ∀ a ∈ l, f a = g a) :
    l.mapM f = l.mapM g := by
  induction l with
  | nil => rfl
  | cons a rest ih =>
    rw [forall_mem_cons] at h
    rw [mapM_cons,mapM_cons,h.1,ih h.2]

def ReadsInputs (tx : CTransaction) : CoinsOp → Prop
  | .getCoin outpoint => outpoint ∈ tx.prevouts
  | _ => False

variable {prevouts : List COutPoint} {ws : Workspace}
section View
variable {env : PackageEnv} {tx : CTransaction} {view : COutPoint → Option Coin}
def SameCoins (ctx : AcceptContext) (pool : CTxMemPool) (tx : CTransaction)
    (view : COutPoint → Option Coin) : Prop :=
  ∀ prevout ∈ tx.prevouts, getCoin { ctx with tempAdded := view } pool prevout = getCoin ctx pool prevout
variable (hview : SameCoins ctx pool tx view)
include hview

theorem SameCoins.runCoins_eq {α : Type} {p : CoinsProgram α} (hc : p.Calls (ReadsInputs tx)) :
    runCoins { ctx with tempAdded := view } pool p = runCoins ctx pool p := by
  have hans := Program.Calls.run_answer (h := readCoins { ctx with tempAdded := view })
    (g := readCoins ctx) (s := getCoin { ctx with tempAdded := view } pool)
    (hc.mono fun op hop => by
      cases op with
      | getCoin outpoint => exact ⟨_,rfl,by rw [hview outpoint hop]; rfl⟩
      | addCoin outpoint coin overwrite => exact hop.elim
      | spendCoin outpoint => exact hop.elim
      | getBestBlock => exact hop.elim
      | setBestBlock hash => exact hop.elim)
  unfold runCoins
  cases hl : p.run (readCoins { ctx with tempAdded := view })
      (getCoin { ctx with tempAdded := view } pool) with
  | error e =>
    cases hr : p.run (readCoins ctx) (getCoin ctx pool) with
    | error e' =>
      rw [hl,hr] at hans
      cases hans
      rfl
    | ok out =>
      rw [hl,hr] at hans
      cases hans
  | ok out =>
    cases hr : p.run (readCoins ctx) (getCoin ctx pool) with
    | error e' =>
      rw [hl,hr] at hans
      cases hans
    | ok out' =>
      rw [hl,hr] at hans
      exact congrArg ok (ok.inj hans)

theorem SameCoins.getCoin_eq {prevout : COutPoint} (h : prevout ∈ tx.prevouts) :
    runCoins { ctx with tempAdded := view } pool (Lcryp.getCoin prevout) =
      runCoins ctx pool (Lcryp.getCoin prevout) :=
  hview.runCoins_eq ((Program.calls_perform _).mpr h)

theorem SameCoins.checkInputsAvailable_eq (h : ∀ prevout ∈ prevouts, prevout ∈ tx.prevouts) :
    checkInputsAvailable env.toAcceptEnv { ctx with tempAdded := view } pool tx prevouts =
      checkInputsAvailable env.toAcceptEnv ctx pool tx prevouts := by
  induction prevouts with
  | nil => rfl
  | cons prevout rest ih =>
    rw [forall_mem_cons] at h
    rw [checkInputsAvailable,checkInputsAvailable,hview.runCoins_eq (haveCoin_calls h.1),ih h.2]

theorem SameCoins.checkSequenceLocks_eq :
    checkSequenceLocksAtTip { ctx with tempAdded := view } pool tx = checkSequenceLocksAtTip ctx pool tx := by
  have hc : (tx.prevouts.mapM fun prevout =>
        runCoins { ctx with tempAdded := view } pool (Lcryp.getCoin prevout)) =
      tx.prevouts.mapM fun prevout => runCoins ctx pool (Lcryp.getCoin prevout) := by
    exact mapM_eq_of_mem fun prevout => hview.getCoin_eq
  unfold checkSequenceLocksAtTip
  simp [hc]

theorem SameCoins.checkInputs_eq :
    checkInputs env.toAcceptEnv { ctx with tempAdded := view } pool tx =
      checkInputs env.toAcceptEnv ctx pool tx := by
  unfold checkInputs
  rw [hview.checkInputsAvailable_eq fun _ => id,hview.checkSequenceLocks_eq,
    hview.runCoins_eq (checkTxInputs_calls fun _ => id),
    hview.runCoins_eq (getTransactionSigOpCost_calls fun _ => id),
    env.areInputsStandard_congr tx _ _ hview,env.isWitnessStandard_congr tx _ _ hview]
  rfl

variable (args : ATMPArgs)
theorem SameCoins.beforeLimits_eq :
    beforeLimits env.toAcceptEnv { ctx with tempAdded := view } pool tx args =
      beforeLimits env.toAcceptEnv ctx pool tx args := by
  unfold beforeLimits
  rw [hview.checkInputs_eq]
  rfl

theorem SameCoins.checkSameCoins_eq (h : ∀ prevout ∈ prevouts, prevout ∈ tx.prevouts) :
    checkSameCoins { ctx with tempAdded := view } pool prevouts = checkSameCoins ctx pool prevouts := by
  induction prevouts with
  | nil => rfl
  | cons prevout rest ih =>
    rw [forall_mem_cons] at h
    rw [checkSameCoins,hview.getCoin_eq h.1,ih h.2]
    rfl

theorem SameCoins.laterChecks_eq (htx : ws.tx = tx) :
    laterChecks env.toAcceptEnv pool { ctx with tempAdded := view } ws =
      laterChecks env.toAcceptEnv pool ctx ws := by
  subst htx
  unfold laterChecks policyScriptChecks witnessStripped consensusScriptChecks
  simp [checkScripts,hview.runCoins_eq (checkInputScripts_calls fun _ => id),hview.checkSameCoins_eq fun _ => id]

theorem SameCoins.afterLimits_eq (now : Int) (candidate : Candidate) (ancestors : List Uint256) :
    afterLimits env.toAcceptEnv pool args { ctx with tempAdded := view } now tx candidate ancestors =
      afterLimits env.toAcceptEnv pool args ctx now tx candidate ancestors := by
  unfold afterLimits submit
  rw [hview.laterChecks_eq rfl]
end View

/-! ## The loop over the package -/

section Loop
variable {pool next : CTxMemPool} {accept : MemPoolAccept} {outpoint : COutPoint}
theorem fetchCoins_outside {view : COutPoint → Option Coin} (h : outpoint ∉ prevouts) :
    fetchCoins ctx pool view prevouts outpoint = view outpoint := by
  induction prevouts generalizing view with
  | nil => rfl
  | cons prevout rest ih =>
    rw [mem_cons,not_or] at h
    rw [fetchCoins]
    cases getCoin { ctx with tempAdded := view } pool prevout with
    | none => rfl
    | some coin =>
      simp only
      split
      · exact update_of_ne h.1 _ _
      · rw [ih h.2]
        exact update_of_ne h.1 _ _

theorem viewAfter_outside (h : outpoint ∉ call.tx.prevouts) :
    viewAfter env ctx pool args call accept outpoint = accept.view outpoint := by
  simp only [viewAfter]
  cases checkForm env (context ctx accept call) call.tx >>= fun _ => checkNew env pool call.tx >>= fun _ =>
      collectConflicts env pool args [] call.tx.prevouts with
  | error stop => rfl
  | ok conflicts => exact fetchCoins_outside h

variable {k : Uint256}
theorem mem_iff_txAt : k ∈ pool.mapTx ↔ ∃ tx, pool.txAt k = some tx := by
  rw [← AList.lookup_isSome,Option.isSome_iff_exists]
  simp [txAt]

theorem finalize_mem {now : Int} {evicted : List Uint256} {verdict : Option TxInvalid}
    (h : finalize env pool args now ws evicted = .ok (next, verdict))
    (hk : k ∈ next.mapTx) : k ∈ pool.mapTx ∨ k = env.txid ws.entry.tx := by
  obtain ⟨removed,added,hrem,ha,hw⟩ := finalize_eq_ok h
  have hke : Keeps pool (removeStaged env.memPool pool evicted false) id := removeStaged_keeps evicted
  rw [hrem] at hke
  obtain ⟨tx,htx⟩ := mem_iff_txAt.mp hk
  rcases addUnchecked_txAt ha (hw k tx htx) with hk | ⟨rfl,_⟩
  · exact .inl (mem_iff_txAt.mpr ⟨tx,hke k tx hk⟩)
  · exact .inr rfl

variable {result : AcceptResult}
theorem failure_mem (h : failure pool stop = .ok (result, next)) : next = pool := by
  cases stop with
  | invalid reason =>
    cases h
    rfl
  | assertion => cases h
  | exception message => cases h

theorem submit_mem {now : Int} (h : submit env pool args ctx now ws = .ok (result, next))
    (hk : k ∈ next.mapTx) : k ∈ pool.mapTx ∨ k = env.txid ws.entry.tx := by
  unfold submit at h
  split at h
  · rw [failure_mem h] at hk
    exact .inl hk
  split at h
  · cases h
  all_goals
    next hf =>
      cases h
      exact finalize_mem hf hk

theorem acceptSingleTransaction_mem (h : acceptSingleTransaction env ctx pool args call accept = .ok (result, next))
    (hk : k ∈ next.mapTx) : k ∈ pool.mapTx ∨ k = env.txid call.tx := by
  unfold acceptSingleTransaction at h
  split at h
  · rw [failure_mem h] at hk
    exact .inl hk
  next hpre =>
    have hchk := preChecks_eq_ok hpre
    obtain ⟨nTime,sigOpCost,hent⟩ := hchk.entry
    have htx := submit_mem h hk
    rw [hent] at htx
    exact htx

variable {s t : PackageState}
theorem recordResult_eq_ok {tx : CTransaction}
    (h : recordResult env s tx result = .ok t) : t.pool = s.pool ∧ t.accept = s.accept := by
  have he : ∀ result, (if existsWtxid env s.pool (env.getWitnessHash tx) then
      (return s.emplace (env.getWitnessHash tx) result : Except AcceptAbort PackageState)
      else .error .assertion) = .ok t → t.pool = s.pool ∧ t.accept = s.accept := by
    intro result h
    split at h
    · cases h
      exact ⟨rfl,rfl⟩
    · cases h
  cases result with
  | invalid reason =>
    rw [recordResult] at h
    split at h <;> cases h <;> exact ⟨rfl,rfl⟩
  | valid vsize fees => exact he _ h
  | mempoolEntry vsize fees => exact he _ h
  | differentWitness wtxid => exact he _ h

theorem tryTransaction_cases (h : tryTransaction env ctx args s call = .ok t) :
    t.pool = s.pool ∧ t.accept = s.accept ∨
      (∃ result, acceptSingleTransaction env ctx s.pool args call s.accept = .ok (result, t.pool)) ∧
        t.accept = membersAfter env ctx s.pool args call s.accept := by
  unfold tryTransaction at h
  split at h
  · obtain ⟨⟨result,next⟩,hs,h⟩ := bind_eq_ok.mp h
    obtain ⟨hp,hacc⟩ := recordResult_eq_ok h
    exact .inr ⟨⟨result,by rw [hs,hp]⟩,hacc⟩
  · obtain ⟨result,_,h⟩ := bind_eq_ok.mp h
    cases h
    exact .inl ⟨rfl,rfl⟩

theorem confirmInputs_eq_some {parentTxids : List Uint256} {view view' : COutPoint → Option Coin}
    (h : confirmInputs ctx parentTxids view prevouts = some view')
    (hview : ∀ outpoint coin, view outpoint = some coin →
      ctx.coinsTip.coins.lookup outpoint = some coin ∧ outpoint.hash ∉ parentTxids)
    (outpoint : COutPoint) (coin : Coin) (hco : view' outpoint = some coin) :
    ctx.coinsTip.coins.lookup outpoint = some coin ∧ outpoint.hash ∉ parentTxids := by
  induction prevouts generalizing view with
  | nil =>
    cases h
    exact hview outpoint coin hco
  | cons prevout rest ih =>
    rw [confirmInputs] at h
    split at h
    · exact ih h hview
    next hfo =>
      split at h
      · cases h
      next found hf =>
        split at h
        · cases h
        refine ih h fun o c hc => ?_
        by_cases ho : o = prevout
        · subst ho
          rw [update_self] at hc
          cases hc
          refine ⟨?_,hfo⟩
          cases hca : view o with
          | some cached =>
            rw [hca] at hf
            cases hf
            exact (hview o _ hca).1
          | none =>
            rw [hca] at hf
            exact hf
        · rw [update_of_ne ho] at hc
          exact hview o c hc

theorem packageDisjoint_pairwise {inputsSeen : List COutPoint} {txns : List CTransaction}
    (h : packageDisjoint inputsSeen txns = true) :
    (∀ tx ∈ txns, ∀ prevout ∈ tx.prevouts, prevout ∉ inputsSeen) ∧
      txns.Pairwise fun a b => ∀ prevout ∈ a.prevouts, prevout ∉ b.prevouts := by
  induction txns generalizing inputsSeen with
  | nil => simp
  | cons tx rest ih =>
    simp only [packageDisjoint,Bool.and_eq_true,Bool.not_eq_true',any_eq_false,decide_eq_true_eq] at h
    obtain ⟨hs,hr⟩ := ih h.2
    simp only [mem_append,not_or] at hs
    refine ⟨forall_mem_cons.mpr ⟨h.1,fun b hb o ho => (hs b hb o ho).1⟩,?_⟩
    refine pairwise_cons.mpr ⟨fun b hb o ho hob => ?_,hr⟩
    exact (hs b hb o hob).2 ho

/-- Along the loop, the coins cached for a transaction that is still to come are those of the tip. -/
structure Cached (env : AcceptEnv) (ctx : AcceptContext) (pool : CTxMemPool) (parentTxids : List Uint256)
    (remaining : List AcceptCall) (s : PackageState) : Prop where
  keys : remaining ≠ [] → ∀ k ∈ s.pool.mapTx, k ∈ pool.mapTx ∨ k ∈ parentTxids
  cached : ∀ call ∈ remaining, ∀ prevout ∈ call.tx.prevouts, ∀ coin,
    s.accept.view prevout = some coin →
      ctx.coinsTip.coins.lookup prevout = some coin ∧ prevout.hash ∉ pool.mapTx ∧ prevout.hash ∉ parentTxids
  disjoint : remaining.Pairwise fun a b => ∀ prevout ∈ a.tx.prevouts, prevout ∉ b.tx.prevouts
  parents : ∀ call ∈ remaining.dropLast, env.txid call.tx ∈ parentTxids

variable {parentTxids : List Uint256} {rest : List AcceptCall}
theorem Cached.sameCoins (h : Cached env ctx pool parentTxids (call::rest) s) (limits : MemPoolLimits) :
    SameCoins (context ctx (.new limits) call) s.pool call.tx s.accept.view := by
  intro prevout hprev
  simp only [getCoin,context,MemPoolAccept.new]
  cases hview : s.accept.view prevout with
  | none => rfl
  | some coin =>
    obtain ⟨htip,hp,hpar⟩ := h.cached call mem_cons_self prevout hprev coin hview
    have hnot : prevout.hash ∉ s.pool.mapTx := fun hin =>
      (h.keys (cons_ne_nil _ _) _ hin).elim hp hpar
    simp [AList.lookup_eq_none.mpr hnot,htip]

theorem Cached.step (h : Cached env ctx pool parentTxids (call::rest) s)
    (hst : tryTransaction env ctx args s call = .ok t) : Cached env ctx pool parentTxids rest t := by
  have hd := pairwise_cons.mp h.disjoint
  have hke := h.keys (cons_ne_nil _ _)
  have hp : rest ≠ [] → env.txid call.tx ∈ parentTxids ∧
      ∀ other ∈ rest.dropLast, env.txid other.tx ∈ parentTxids := by
    intro hr
    have hall := h.parents
    rw [dropLast_cons_of_ne_nil hr,forall_mem_cons] at hall
    exact hall
  refine ⟨fun hr k hk => ?_,fun other hoth prevout hprev coin hview => ?_,hd.2,?_⟩
  · rcases tryTransaction_cases hst with ⟨hpo,_⟩ | ⟨⟨result,hs⟩,_⟩
    · rw [hpo] at hk
      exact hke k hk
    · rcases acceptSingleTransaction_mem hs hk with hk | rfl
      · exact hke k hk
      · exact .inr (hp hr).1
  · refine h.cached other (mem_cons_of_mem _ hoth) prevout hprev coin ?_
    rcases tryTransaction_cases hst with ⟨_,hacc⟩ | ⟨_,hacc⟩
    · rw [hacc] at hview
      exact hview
    · rw [hacc] at hview
      have hout : prevout ∉ call.tx.prevouts := fun hin => hd.1 other hoth prevout hin hprev
      exact (viewAfter_outside hout).symm.trans hview
  · by_cases hr : rest = []
    · simp [hr]
    · exact (hp hr).2

theorem enterPackage_cached {parents : List AcceptCall} {child : AcceptCall}
    (hunc : ∀ outpoint coin, ctx.coinsTip.coins.lookup outpoint = some coin → outpoint.hash ∉ pool.mapTx)
    (h : enterPackage env ctx limits pool (parents.map tx) child.tx = .ok s) :
    Cached env ctx pool ((parents.map tx).map env.txid) (parents++[child]) s := by
  obtain ⟨_,hpkg,h⟩ := bind_eq_ok.mp h
  iterate 3 obtain ⟨_,_,hpkg⟩ := bind_eq_ok.mp hpkg
  rw [rejectIf_eq_ok,Bool.not_eq_false'] at hpkg
  obtain ⟨_,_,h⟩ := bind_eq_ok.mp h
  split at h
  · cases h
  next view hconfirm =>
    cases h
    refine ⟨fun _ k hk => .inl hk,fun call _ prevout _ coin hview => ?_,?_,?_⟩
    · obtain ⟨htip,hpar⟩ := confirmInputs_eq_some hconfirm (by simp) prevout coin hview
      exact ⟨htip,hunc prevout coin htip,hpar⟩
    · have hp := (packageDisjoint_pairwise hpkg).2
      rw [← map_singleton,← map_append,pairwise_map] at hp
      exact hp
    · rw [dropLast_concat]
      intro call hcall
      exact mem_map_of_mem (mem_map_of_mem hcall)
end Loop
end Accept

open Accept
def packageStep (env : AcceptEnv) (ctx : AcceptContext) (args : ATMPArgs) (s : PackageState)
    (call : AcceptCall) : Option PackageState :=
  (tryTransaction env ctx args.singleInPackageAccept s call).toOption

/-- `AcceptPackage` is entered, makes the run of its rounds and looks at where they end. -/
theorem acceptPackage_toOption (env : AcceptEnv) (ctx : AcceptContext) (limits : MemPoolLimits)
    (pool : CTxMemPool) (args : ATMPArgs) (parents : List AcceptCall) (child : AcceptCall) :
    (acceptPackage env ctx limits pool args parents child).toOption =
      match enterPackage env ctx limits pool (parents.map tx) child.tx with
      | .error state => some (.refused state)
      | .ok s => (run (packageStep env ctx args) s (parents++[child])).map fun t =>
          if t.quitEarly || t.txnsNew.isEmpty then .settled t else .together t := by
  unfold acceptPackage
  cases enterPackage env ctx limits pool (parents.map tx) child.tx with
  | error state => rfl
  | ok s =>
    have hrun : run (packageStep env ctx args) s (parents++[child]) = _ :=
      run_toOption (tryTransaction env ctx args.singleInPackageAccept) _ s
    dsimp only
    rw [hrun]
    cases (parents++[child]).foldlM (tryTransaction env ctx args.singleInPackageAccept) s with
    | error stop => rfl
    | ok t =>
      change Except.toOption (if _ then _ else _) = some (if _ then _ else _)
      split_ifs <;> rfl

/-- Transactions tried one by one get the decisions of `AcceptToMemoryPool` exactly when the limits left
raised give the answer of the configured ones for each that nothing else rejects. -/
theorem package_decisions_iff (env : PackageEnv) {ctx : AcceptContext} {limits : MemPoolLimits}
    {pool : CTxMemPool} {args : ATMPArgs} {parents : List AcceptCall} {child : AcceptCall} {s : PackageState}
    (hunconfirmed : ∀ outpoint coin, ctx.coinsTip.coins.lookup outpoint = some coin →
      outpoint.hash ∉ pool.mapTx)
    (henter : enterPackage env.toAcceptEnv ctx limits pool (parents.map tx) child.tx = .ok s) :
    EveryStep (packageStep env.toAcceptEnv ctx args) (fun s call =>
        isTried env.toAcceptEnv s.pool call.tx = true →
          decision (acceptSingleTransaction env.toAcceptEnv ctx s.pool args.singleInPackageAccept call
              s.accept) =
            decision (acceptToMemoryPool env.toAcceptEnv ctx s.pool call limits args.acceptTime false))
        s (parents++[child]) ↔
      EveryStep (packageStep env.toAcceptEnv ctx args) (fun s call =>
        isTried env.toAcceptEnv s.pool call.tx = true →
          LimitsAgree env.toAcceptEnv (context ctx (.new limits) call) s.pool args.singleInPackageAccept
            call s.accept.limits limits)
        s (parents++[child]) := by
  refine everyStep_iff_of_invariant (fun s call rest t hcach hstep => ?_) (fun s call rest hcach => ?_)
    _ s (enterPackage_cached hunconfirmed henter)
  · exact hcach.step (toOption_eq_some.mp hstep)
  · refine imp_congr_right fun _ => ?_
    have hview := hcach.sameCoins limits
    exact decision_eq_iff (hview.beforeLimits_eq _) (hview.afterLimits_eq _ _)

/-! ### A parent at the descendant limit -/

def packageEnv : PackageEnv where
  toAcceptEnv := replaceEnv
  areInputsStandard_congr _ _ _ _ := rfl
  isWitnessStandard_congr _ _ _ _ := rfl

def oldCoin : Coin := ⟨⟨500000, []⟩, false, 1⟩
theorem oldCoin_unspent : oldCoin.isSpent = false := rfl

def twoCoins : AcceptContext where
  chain := [⟨7, 100, 0, 1, 0, 0, 0, 0, 0⟩]
  coinsTip := { (UtxoView.empty.insert ⟨8, 0⟩ oldCoin oldCoin_unspent).insert ⟨9, 0⟩ oldCoin
    oldCoin_unspent with bestBlock := 7 }
  haveCoinInCache _ := false
  tempAdded _ := none
  minFee := ⟨0⟩

def pairLimits : MemPoolLimits := { defaultLimits with descendantCount := 2 }
def addPairs : List PoolOp :=
  [.addUnchecked (versionTx 1 9 490000) 10000 0 4 pairLimits,
    .addUnchecked (versionTx 4 8 490000) 10000 0 4 pairLimits,
    .addUnchecked (versionTx 5 4 480000) 10000 0 4 pairLimits]

def pairsPool : CTxMemPool := (CTxMemPool.run replaceEnv.memPool .empty addPairs).toOption.getD .empty
def quietCall (tx : CTransaction) : AcceptCall := ⟨tx, 0, ⟨0⟩, fun _ => false⟩
def replacingParent : AcceptCall := quietCall (versionTx 2 9 400000)
def crowdingParent : AcceptCall := quietCall (versionTx 6 5 300000)
def pairsChild : AcceptCall :=
  quietCall ⟨[⟨⟨2, 0⟩, [], 0xfffffffd#32, []⟩, ⟨⟨6, 0⟩, [], 0xfffffffd#32, []⟩],
    [⟨600000, List.replicate 25 0⟩], 7, 0⟩

def packageArgs : ATMPArgs := ⟨0, false, false, true, true⟩

/-- The second parent of a package: whether it is tried and its round completed, the decision in the
package, and that of a fresh object. -/
def secondParent (env : AcceptEnv) (ctx : AcceptContext) (limits : MemPoolLimits) (pool : CTxMemPool)
    (args : ATMPArgs) (first second child : AcceptCall) : Option (Bool × Bool × Option Bool × Option Bool) :=
  (enterPackage env ctx limits pool ([first, second].map tx) child.tx).toOption.bind fun s =>
    (packageStep env ctx args s first).map fun t =>
      (isTried env t.pool second.tx, (packageStep env ctx args t second).isSome,
        decision (acceptSingleTransaction env ctx t.pool args.singleInPackageAccept second t.accept),
        decision (acceptToMemoryPool env ctx t.pool second limits args.acceptTime false))

theorem secondParent_eq_some {env : AcceptEnv} {ctx : AcceptContext} {pool : CTxMemPool} {args : ATMPArgs}
    {first second child : AcceptCall} {tried completed : Bool} {inPackage fresh : Option Bool}
    (h : secondParent env ctx limits pool args first second child = some (tried, completed, inPackage, fresh)) :
    ∃ s t, enterPackage env ctx limits pool ([first, second].map tx) child.tx = .ok s ∧
      packageStep env ctx args s first = some t ∧ isTried env t.pool second.tx = tried ∧
      (packageStep env ctx args t second).isSome = completed ∧
      decision (acceptSingleTransaction env ctx t.pool args.singleInPackageAccept second t.accept) = inPackage ∧
      decision (acceptToMemoryPool env ctx t.pool second limits args.acceptTime false) = fresh := by
  obtain ⟨s,hs,h⟩ := Option.bind_eq_some_iff.mp h
  obtain ⟨t,ht,h⟩ := Option.map_eq_some_iff.mp h
  simp only [Prod.mk.injEq] at h
  exact ⟨s,t,toOption_eq_some.mp hs,ht,h⟩

theorem crowdingParent_decisions :
    secondParent replaceEnv twoCoins pairLimits pairsPool packageArgs replacingParent crowdingParent
      pairsChild = some (true, true, some true, some false) := by
  decide +kernel

/-- After a parent has replaced a transaction, the package accepts a second parent that the configured
limits reject. -/
theorem crowdingParent_accepted :
    ∃ s t, enterPackage replaceEnv twoCoins pairLimits pairsPool
          ([replacingParent, crowdingParent].map tx) pairsChild.tx = .ok s ∧
        packageStep replaceEnv twoCoins packageArgs s replacingParent = some t ∧
        isTried replaceEnv t.pool crowdingParent.tx = true ∧
        decision (acceptSingleTransaction replaceEnv twoCoins t.pool packageArgs.singleInPackageAccept
          crowdingParent t.accept) = some true ∧
        decision (acceptToMemoryPool replaceEnv twoCoins t.pool crowdingParent pairLimits 0 false) =
          some false := by
  obtain ⟨s,t,hs,ht,htried,_,hpkg,hfresh⟩ := secondParent_eq_some crowdingParent_decisions
  exact ⟨s,t,hs,ht,htried,hpkg,hfresh⟩

theorem twoCoins_unconfirmed (outpoint : COutPoint) (coin : Coin)
    (h : twoCoins.coinsTip.coins.lookup outpoint = some coin) : outpoint.hash ∉ pairsPool.mapTx := by
  have hkey : outpoint = ⟨9#256,0⟩ ∨ outpoint = ⟨8#256,0⟩ := by
    by_contra hoth
    rw [not_or] at hoth
    simp [twoCoins,UtxoView.insert,WriteLog.lookup_write,hoth.1,hoth.2,UtxoView.empty] at h
  rcases hkey with rfl | rfl <;> decide +kernel

/-- The limits disagree about that parent. -/
theorem pairLimits_disagree :
    ∃ s, enterPackage replaceEnv twoCoins pairLimits pairsPool
          ([replacingParent, crowdingParent].map tx) pairsChild.tx = .ok s ∧
      ¬ EveryStep (packageStep replaceEnv twoCoins packageArgs) (fun s call =>
          isTried replaceEnv s.pool call.tx = true →
            LimitsAgree replaceEnv (context twoCoins (.new pairLimits) call) s.pool
              packageArgs.singleInPackageAccept call s.accept.limits pairLimits)
        s ([replacingParent, crowdingParent]++[pairsChild]) := by
  obtain ⟨s,t,hs,ht,htried,hdone,hpkg,hfresh⟩ := secondParent_eq_some crowdingParent_decisions
  obtain ⟨u,hu⟩ := Option.isSome_iff_exists.mp hdone
  refine ⟨s,hs,fun hagree => ?_⟩
  have hequal := (package_decisions_iff packageEnv twoCoins_unconfirmed hs).mpr hagree
  have hsnd := ((hequal t ht).2 u hu).1 htried
  cases hpkg.symm.trans (hsnd.trans hfresh)
end Lcryp
