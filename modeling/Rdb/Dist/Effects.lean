import Rdb.Dist.TwoPc

/-!
# What the steps of the cluster do

`effect_of_step` says once what a step can do; the lemmas after it say what that
means for one store, one run, one sweep and the history.

* `Pending`: the sources of a decision that a node applies.
* `StoreStep`, `RunStep`: what a step does to one store and to one run.
* `ClusterOk`: every store and everything on its way into one is well formed.
-/

namespace Rdb.Dist

open Lib Sql Tx Participant List Function

variable {J : Serde} {cfg : Config} {s s' : Cluster} {a : Action}

/-! ## The kinds of step -/

inductive SweepMove (J : Serde) (s : Cluster) (n : Addr) : Sweep → Prop
  | begin : SweepMove J s n (.scanning (markers J (s.store n)))
  | recorded {t : TxnId} {m : Marker} {todo : List (TxnId × Marker)} {rec : OutcomeRecord}
      (hw : s.sweep n = some (.scanning ((t, m) :: todo)))
      (hr : readOutcome J (s.store n) t = some rec) :
      SweepMove J s n (.deciding t .recorded rec.commit (replayOps n rec) todo)
  | ask {t : TxnId} {m : Marker} {todo : List (TxnId × Marker)} {peers : List Addr}
      (hw : s.sweep n = some (.scanning ((t, m) :: todo)))
      (hr : readOutcome J (s.store n) t = none) :
      SweepMove J s n (.asking t m peers false todo)
  | hear {t : TxnId} {m : Marker} {peer : Addr} {peers : List Addr} {d : Bool}
      {todo : List (TxnId × Marker)} {answer : Option (Bool × List WireOp)}
      (hw : s.sweep n = some (.asking t m (peer :: peers) d todo))
      (ha : ∀ told, answer = some told → ∃ x, (status J (s.store x) t n).told = some told) :
      SweepMove J s n (hear t m peers d todo answer)
  | definite {t : TxnId} {m : Marker} {todo : List (TxnId × Marker)}
      (hw : s.sweep n = some (.asking t m [] true todo)) :
      SweepMove J s n (.deciding t .told false [] todo)
  | expire {t : TxnId} {m : Marker} {todo : List (TxnId × Marker)}
      (hw : s.sweep n = some (.asking t m [] false todo)) :
      SweepMove J s n (.deciding t .expired false [] todo)
  | keep {t : TxnId} {m : Marker} {d : Bool} {todo : List (TxnId × Marker)}
      (hw : s.sweep n = some (.asking t m [] d todo)) :
      SweepMove J s n (.scanning todo)

inductive Effect (J : Serde) (s : Cluster) (a : Action) : Cluster → Prop
  | start {node : Addr} {plan : CommitPlan} (ha : a = .start node plan)
      (h : s.started plan.txnId = none) : Effect J s a (s.start node plan)
  | ownVote {t : TxnId} {env : VoteEnv} {node : Addr} {plan : CommitPlan} {pp : ParticipantPlan}
      {todo : List (Addr × ParticipantPlan)} {voted : List Addr} {veto : Option SqlError}
      {result : Except SqlError Unit}
      (hr : s.run t = some ⟨node, plan, .preparing ((node, pp) :: todo) false voted veto⟩) :
      Effect J s a ((s.voteAt J env (plan.request node pp) pp.segments).1.setPhase t node plan
        (noted todo voted veto node result))
  | send {t : TxnId} {node addr : Addr} {plan : CommitPlan} {pp : ParticipantPlan}
      {todo : List (Addr × ParticipantPlan)} {voted : List Addr} {veto : Option SqlError}
      (hr : s.run t = some ⟨node, plan, .preparing ((addr, pp) :: todo) false voted veto⟩) :
      Effect J s a { s.setPhase t node plan (.preparing ((addr, pp) :: todo) true voted veto) with
        prepares := plan.request addr pp :: s.prepares }
  | note {t : TxnId} {node addr : Addr} {plan : CommitPlan} {pp : ParticipantPlan}
      {todo : List (Addr × ParticipantPlan)} {waiting : Bool} {voted : List Addr}
      {veto : Option SqlError} {result : Except SqlError Unit}
      (hr : s.run t = some ⟨node, plan, .preparing ((addr, pp) :: todo) waiting voted veto⟩) :
      Effect J s a (s.setPhase t node plan (noted todo voted veto addr result))
  | deliver {i : Nat} {q : PrepareReq} {env : VoteEnv} {votes : List (TxnId × Addr × Vote)}
      (hq : s.prepares[i]? = some q) :
      Effect J s a
        { ({ s with prepares := s.prepares.eraseIdx i }.voteAt J env q []).1 with votes }
  | decideAll {t : TxnId} {node : Addr} {plan : CommitPlan} {waiting : Bool} {voted : List Addr}
      {veto : Option SqlError} {now : Nat} {persist : Except String Unit}
      (ha : a = .decideAll t now persist)
      (hr : s.run t = some ⟨node, plan, .preparing [] waiting voted veto⟩) :
      Effect J s a (s.decideAll J t node plan voted veto now persist)
  | decideOwn {t : TxnId} {node : Addr} {plan : CommitPlan} {commit : Bool} {todo : List Addr}
      {result : Except SqlError Unit} {now : Nat}
      (hr : s.run t = some ⟨node, plan, .broadcasting commit (node :: todo) result⟩) :
      Effect J s a ((s.setPhase t node plan (.broadcasting commit todo result)).decideAt J node t
        commit (plan.opsFor node) now)
  | pass {t : TxnId} {node addr : Addr} {plan : CommitPlan} {commit : Bool} {todo : List Addr}
      {result : Except SqlError Unit} {decides : List DecideReq}
      (hr : s.run t = some ⟨node, plan, .broadcasting commit (addr :: todo) result⟩)
      (hne : addr ≠ node)
      (hd : ∀ d ∈ decides, d ∈ s.decides ∨ d = ⟨t, addr, commit, plan.opsFor addr⟩) :
      Effect J s a { s.setPhase t node plan (.broadcasting commit todo result) with decides }
  | deliverDecide {d : DecideReq} {now : Nat} (hd : d ∈ s.decides) :
      Effect J s a (s.decideAt J d.target d.txnId d.commit d.indexOps now)
  | crash {n : Addr} : Effect J s a (s.crash n)
  | sweepMove {n : Addr} {w : Sweep} (hm : SweepMove J s n w) : Effect J s a (s.setSweep n (some w))
  | sweepDecide {n : Addr} {t : TxnId} {cause : Cause} {commit : Bool} {ops : List WireOp}
      {todo : List (TxnId × Marker)} {now : Nat} (ha : a = .sweepDecide n now)
      (hw : s.sweep n = some (.deciding t cause commit ops todo)) :
      Effect J s a ((s.setSweep n (some (.scanning todo))).decideAt J n t commit ops now)
  | gc {n : Addr} {now : Nat} :
      Effect J s a { (s.setSweep n none).setStore n (gcOutcomes J now (s.store n)) with
        collected := (staleOutcomes J now (s.store n)).map (·, n) ++ s.collected }
  | localWrite {n : Addr} {ops : List WriteOp} (h : Foreign ops) :
      Effect J s a (s.setStore n ((s.store n).write ops))

variable {n : Addr}

theorem sweepMove_inv {w : Option Sweep} (h : sweepMove J cfg s n a = some w) :
    ∃ w', w = some w' ∧ SweepMove J s n w' := by
  cases a with simp only [sweepMove] at h
  | sweep =>
    split at h
    · cases h
      exact ⟨_, rfl, .begin⟩
    · cases h
  | sweepNext =>
    split at h
    · next hw =>
      split at h
      · next hr =>
        cases h
        exact ⟨_, rfl, .recorded hw hr⟩
      · next hr =>
        cases h
        exact ⟨_, rfl, .ask hw hr⟩
    · cases h
  | sweepAsk _ answering =>
    split at h
    · next hw =>
      split at h
      · cases h
        exact ⟨_, rfl, .hear hw fun told ht => nomatch ht⟩
      · next x =>
        split at h
        · cases h
          refine ⟨_, rfl, .hear hw fun told ht => ⟨x, ?_⟩⟩
          rwa [parseStatusBody_statusBody] at ht
        · cases h
    · cases h
  | sweepResolve _ now =>
    split at h
    · next hw =>
      split at h
      · next hd =>
        cases h
        subst hd
        exact ⟨_, rfl, .definite hw⟩
      · next hd =>
        split at h
        · cases h
          rw [Bool.not_eq_true] at hd
          subst hd
          exact ⟨_, rfl, .expire hw⟩
        · cases h
          exact ⟨_, rfl, .keep hw⟩
    · cases h
  | _ => cases h

theorem effect_of_sweepMove {b : Action}
    (h : (sweepMove J cfg s n b).map (s.setSweep n) = some s') : Effect J s a s' := by
  obtain ⟨w, hw, rfl⟩ := Option.map_eq_some_iff.mp h
  obtain ⟨w', rfl, hm⟩ := sweepMove_inv hw
  exact .sweepMove hm

theorem effect_of_step (h : step J cfg s a = some s') : Effect J s a s' := by
  cases a with simp only [step] at h
  | start node plan =>
    split at h
    · cases h
    · next hs =>
      cases h
      exact .start rfl (by simpa using hs)
  | prepare t env registered =>
    split at h
    · next hr =>
      split at h
      · next heq =>
        cases h
        subst heq
        exact .ownVote hr
      · split at h
        · cases h
          exact .send hr
        · cases h
          exact .note hr
    · cases h
  | deliverPrepare i env =>
    split at h
    · next hq =>
      cases h
      exact .deliver hq
    · cases h
  | collect t vote =>
    split at h
    · next hr =>
      split at h
      · cases h
        exact .note hr
      · cases h
    · cases h
  | timeout t why =>
    split at h
    · next hr =>
      cases h
      exact .note hr
    · cases h
  | decideAll t now persist =>
    split at h
    · next hr =>
      cases h
      exact .decideAll rfl hr
    · cases h
  | broadcast t now registered =>
    split at h
    · next hr =>
      split at h
      · next heq =>
        cases h
        subst heq
        exact .decideOwn hr
      · next hne =>
        split at h
        · cases h
          exact .pass hr hne fun d hd => (mem_cons.mp hd).symm
        · cases h
          exact .pass hr hne fun d hd => .inl hd
    · cases h
  | deliverDecide i now =>
    split at h
    · next hd =>
      cases h
      exact .deliverDecide (mem_of_getElem? hd)
    · cases h
  | crash n =>
    cases h
    exact .crash
  | sweepDecide n now =>
    split at h
    · next hw =>
      cases h
      exact .sweepDecide rfl hw
    · cases h
  | sweepGc n now =>
    split at h
    · cases h
      exact .gc
    · cases h
  | localWrite n ops =>
    split at h
    · next hf =>
      cases h
      exact .localWrite hf
    · cases h
  | sweep n | sweepNext n | sweepAsk n answering | sweepResolve n now => exact effect_of_sweepMove h

/-! ## Where votes and decisions come from -/

def Sweep.txns : Sweep → List TxnId
  | .scanning todo => todo.map (·.1)
  | .asking t _ _ _ todo => t :: todo.map (·.1)
  | .deciding t _ _ _ todo => t :: todo.map (·.1)

def Sweep.ops : Sweep → List WireOp
  | .deciding _ _ _ ops _ => ops
  | _ => []

def Phase.unsent : Phase → List Addr
  | .preparing todo waiting _ _ => (if waiting then todo.tail else todo).map (·.1)
  | .broadcasting .. => []

namespace Cluster

def Member (s : Cluster) (t : TxnId) (n : Addr) : Prop :=
  ∃ node plan slice, s.started t = some (node, plan) ∧ plan.participants.get n = some slice

/-- The participants the coordinator has not asked yet. -/
def unsent (s : Cluster) (t : TxnId) : List Addr := ((s.run t).map (·.phase.unsent)).getD []

/-- The participants that may still answer a prepare. -/
def outstanding (s : Cluster) (t : TxnId) : List Addr :=
  (s.prepares.filter (·.txnId = t)).map (·.target) ++ s.unsent t

end Cluster

inductive Pending (s : Cluster) (a : Action) (n : Addr) (t : TxnId) (commit : Bool)
    (ops : List WireOp) : Prop
  | own {plan : CommitPlan} {todo : List Addr} {result : Except SqlError Unit}
      (hr : s.run t = some ⟨n, plan, .broadcasting commit (n :: todo) result⟩)
      (ho : ops = plan.opsFor n)
  | message {d : DecideReq} (hd : d ∈ s.decides) (hn : d.target = n) (ht : d.txnId = t)
      (hc : d.commit = commit) (ho : d.indexOps = ops)
  | sweep {cause : Cause} {todo : List (TxnId × Marker)} {now : Nat} (ha : a = .sweepDecide n now)
      (hw : s.sweep n = some (.deciding t cause commit ops todo))

/-! ## Well-formed clusters -/

structure SweepOk (w : Sweep) : Prop where
  dataKeys : ∀ op ∈ w.ops, DataKey op.1
  /-- An expired lease never commits. -/
  expired : ∀ t commit ops todo, w = .deciding t .expired commit ops todo → commit = false

structure ClusterOk (J : Serde) (s : Cluster) : Prop where
  stores : ∀ n, StoreOk J (s.store n)
  sweeps : ∀ n w, s.sweep n = some w → SweepOk w
  prepares : ∀ q ∈ s.prepares, UniqueEntriesOk q.entries
  decides : ∀ d ∈ s.decides, ∀ op ∈ d.indexOps, DataKey op.1

theorem CommitPlan.dataKey_opsFor (plan : CommitPlan) (addr : Addr) :
    ∀ op ∈ plan.opsFor addr, DataKey op.1 := by
  unfold CommitPlan.opsFor
  cases plan.participants.get addr with
  | none => exact fun _ h => (nomatch h)
  | some slice => exact slice.dataKeys

variable {t : TxnId}

theorem Pending.dataKey {commit : Bool} {ops : List WireOp} (hok : ClusterOk J s)
    (h : Pending s a n t commit ops) : ∀ op ∈ ops, DataKey op.1 := by
  cases h with
  | @own plan _ _ _ ho => exact ho ▸ plan.dataKey_opsFor n
  | message hd _ _ _ ho => exact ho ▸ hok.decides _ hd
  | sweep _ hw => exact (hok.sweeps n _ hw).dataKeys

inductive StoreStep (J : Serde) (s : Cluster) (a : Action) (s' : Cluster) (n : Addr) : Store → Prop
  | same : StoreStep J s a s' n (s.store n)
  | vote {env : VoteEnv} {q : PrepareReq} {segments : List PendingSegment}
      (hout : n ∈ s.outstanding q.txnId) (hp : (q.txnId, n) ∈ s'.prepared)
      (hent : UniqueEntriesOk q.entries) :
      StoreStep J s a s' n (afterVote (s.store n) (vote J env (s.store n) q.txnId q.coordinator
        q.commitTs q.readTs q.entries segments))
  | decide {t : TxnId} {commit : Bool} {ops : List WireOp} {now : Nat}
      (hp : Pending s a n t commit ops) :
      StoreStep J s a s' n (Participant.decide J now (s.store n) t n commit ops).1
  | record {t : TxnId} {plan : CommitPlan} {waiting : Bool} {voted : List Addr}
      {veto : Option SqlError} {now : Nat}
      (hr : s.run t = some ⟨n, plan, .preparing [] waiting voted veto⟩)
      (hv : s'.verdict t = some veto.isNone) :
      StoreStep J s a s' n (recordOutcome J (s.store n) t (coordinatorOutcome now veto.isNone
        plan.commitTs (plan.participants.mapVal (·.indexOps))))
  | gc {now : Nat} (hc : ∀ t ∈ staleOutcomes J now (s.store n), (t, n) ∈ s'.collected) :
      StoreStep J s a s' n (gcOutcomes J now (s.store n))
  | foreign {ops : List WriteOp} (h : Foreign ops) : StoreStep J s a s' n ((s.store n).write ops)

theorem storeStep_update {x : Addr} {store : Store} (h : StoreStep J s a s' x store) :
    StoreStep J s a s' n (Function.update s.store x store n) := by
  by_cases hx : n = x
  · subst hx
    rw [update_self]
    exact h
  · rw [update_of_ne hx]
    exact .same

theorem mem_outstanding_of_run {node : Addr} {plan : CommitPlan} {addr : Addr}
    {pp : ParticipantPlan} {todo : List (Addr × ParticipantPlan)} {voted : List Addr}
    {veto : Option SqlError}
    (hr : s.run t = some ⟨node, plan, .preparing ((addr, pp) :: todo) false voted veto⟩) :
    addr ∈ s.outstanding t := by
  refine mem_append_right _ ?_
  rw [Cluster.unsent, hr]
  exact mem_cons_self

variable {q : PrepareReq}

theorem mem_outstanding_of_prepare (hq : q ∈ s.prepares) : q.target ∈ s.outstanding q.txnId :=
  mem_append_left _ (mem_map_of_mem (mem_filter.mpr ⟨hq, by simp⟩))

def PlansNamed (s : Cluster) : Prop := ∀ t r, s.run t = some r → r.plan.txnId = t

theorem store_of_effect (hok : ClusterOk J s) (hplan : PlansNamed s) (h : Effect J s a s')
    (n : Addr) : StoreStep J s a s' n (s'.store n) := by
  cases h with
  | @ownVote t _ node plan pp _ _ _ _ hr =>
    have ht : plan.txnId = t := hplan t _ hr
    refine storeStep_update (@StoreStep.vote J s a _ node _ (plan.request node pp) _ ?_
      mem_cons_self pp.uniqueKeys)
    show node ∈ s.outstanding plan.txnId
    rw [ht]
    exact mem_outstanding_of_run hr
  | @deliver _ q _ _ hq =>
    have hmem := mem_of_getElem? hq
    exact storeStep_update
      (.vote (mem_outstanding_of_prepare hmem) mem_cons_self (hok.prepares q hmem))
  | @decideAll t _ _ _ _ _ _ persist _ hr =>
    refine storeStep_update ?_
    cases persist with
    | ok => exact .record hr (update_self ..)
    | error => exact .same
  | decideOwn hr => exact storeStep_update (.decide (.own hr rfl))
  | deliverDecide hd => exact storeStep_update (.decide (.message hd rfl rfl rfl rfl))
  | sweepDecide ha hw => exact storeStep_update (.decide (.sweep ha hw))
  | gc =>
    exact storeStep_update (.gc fun t ht => mem_append_left _ (mem_map_of_mem ht))
  | localWrite hf => exact storeStep_update (.foreign hf)
  | _ => exact .same

section StoreStep

variable {n : Addr} {t : TxnId} {store : Store}

theorem recordOk_coordinatorOutcome (plan : CommitPlan) (now : Nat) (commit : Bool) :
    RecordOk (coordinatorOutcome now commit plan.commitTs
      (plan.participants.mapVal (·.indexOps))) where
  mapped node ops hg := by
    rw [coordinatorOutcome, SortedMap.get_mapVal] at hg
    obtain ⟨slice, -, rfl⟩ := Option.map_eq_some_iff.mp hg
    exact slice.dataKeys
  own _ h := nomatch h

theorem StoreOk.afterVote {before after : Store} {env : VoteEnv} {segments : List PendingSegment}
    (h : StoreOk J before) (hent : UniqueEntriesOk q.entries)
    (ha : after = Dist.afterVote before (Participant.vote J env before q.txnId q.coordinator
      q.commitTs q.readTs q.entries segments)) :
    StoreOk J after ∧ (∀ t, readOutcome J after t = readOutcome J before t) ∧
      ∀ t, q.txnId ≠ t → readMarker J after t = readMarker J before t := by
  subst ha
  cases hv : Participant.vote J env before q.txnId q.coordinator q.commitTs q.readTs q.entries
      segments with
  | error e => exact ⟨h, fun _ => rfl, fun _ _ => rfl⟩
  | ok r => exact h.vote hent hv

theorem StoreStep.ok (hok : ClusterOk J s) (h : StoreStep J s a s' n store) : StoreOk J store := by
  cases h with
  | same => exact hok.stores n
  | vote _ _ hent => exact ((hok.stores n).afterVote hent rfl).1
  | decide hp => exact (hok.stores n).decide (hp.dataKey hok)
  | record => exact (hok.stores n).recordOutcome (recordOk_coordinatorOutcome _ _ _)
  | gc => exact (hok.stores n).gcOutcomes _
  | foreign hf => exact (hok.stores n).congr (fun t => (hf.get t).1) fun t => (hf.get t).2

theorem StoreStep.marker (hok : ClusterOk J s) (h : StoreStep J s a s' n store)
    (hm : (readMarker J store t).isSome) :
    (readMarker J (s.store n) t).isSome ∨ n ∈ s.outstanding t ∧ (t, n) ∈ s'.prepared := by
  cases h with
  | same => exact .inl hm
  | @vote env q segments hout hp hent =>
    by_cases ht : q.txnId = t
    · exact .inr (ht ▸ ⟨hout, hp⟩)
    · rw [((hok.stores n).afterVote hent rfl).2.2 t ht] at hm
      exact .inl hm
  | decide hp =>
    rw [readMarker_decide (hok.stores n) (hp.dataKey hok)] at hm
    split at hm
    · cases hm
    · exact .inl hm
  | record =>
    rw [readMarker_recordOutcome] at hm
    exact .inl hm
  | gc =>
    rw [readMarker_gcOutcomes] at hm
    exact .inl hm
  | foreign hf =>
    rw [readMarker_congr (hf.get t).1] at hm
    exact .inl hm

theorem StoreStep.outcome (hok : ClusterOk J s) (h : StoreStep J s a s' n store)
    {rec : OutcomeRecord} (hr : readOutcome J store t = some rec) :
    readOutcome J (s.store n) t = some rec ∨
    (∃ commit ops now commitTs, Pending s a n t commit ops ∧
      rec = participantOutcome now commitTs n commit ops) ∨
    ∃ plan waiting voted veto now, s.run t = some ⟨n, plan, .preparing [] waiting voted veto⟩ ∧
      s'.verdict t = some veto.isNone ∧ rec = coordinatorOutcome now veto.isNone plan.commitTs
        (plan.participants.mapVal (·.indexOps)) := by
  cases h with
  | same => exact .inl hr
  | vote _ _ hent =>
    rw [((hok.stores n).afterVote hent rfl).2.1] at hr
    exact .inl hr
  | decide hp =>
    rw [readOutcome_decide (hok.stores n) (hp.dataKey hok)] at hr
    split at hr
    · next ht =>
      cases hr
      exact .inr (.inl ⟨_, _, _, _, ht ▸ hp, rfl⟩)
    · exact .inl hr
  | record hrun hv =>
    rw [readOutcome_recordOutcome] at hr
    split at hr
    · next ht =>
      cases hr
      exact .inr (.inr ⟨_, _, _, _, _, ht ▸ hrun, ht ▸ hv, rfl⟩)
    · exact .inl hr
  | gc =>
    rw [readOutcome_gcOutcomes] at hr
    split at hr
    · cases hr
    · exact .inl hr
  | foreign hf =>
    rw [readOutcome_congr (hf.get t).2] at hr
    exact .inl hr

end StoreStep

/-! ## Sweeps and messages -/

variable {w : Sweep}

theorem sweep_of_effect (h : Effect J s a s') (hw : s'.sweep n = some w) :
    s.sweep n = some w ∨ SweepMove J s n w ∨
      ∃ t cause commit ops todo, s.sweep n = some (.deciding t cause commit ops todo) ∧
        w = .scanning todo := by
  -- the sweep of `n` after that of some node has changed
  have hset : ∀ {x : Addr} {w' : Option Sweep}, Function.update s.sweep x w' n = some w →
      s.sweep n = some w ∨ n = x ∧ w' = some w := by
    intro x w' hu
    by_cases hx : n = x
    · subst hx
      rw [update_self] at hu
      exact .inr ⟨rfl, hu⟩
    · rw [update_of_ne hx] at hu
      exact .inl hu
  cases h with
  | crash | gc =>
    rcases hset hw with hw | ⟨-, heq⟩
    · exact .inl hw
    · cases heq
  | sweepMove hm =>
    rcases hset hw with hw | ⟨rfl, heq⟩
    · exact .inl hw
    · cases heq
      exact .inr (.inl hm)
  | sweepDecide _ hold =>
    rcases hset hw with hw | ⟨rfl, heq⟩
    · exact .inl hw
    · cases heq
      exact .inr (.inr ⟨_, _, _, _, _, hold, rfl⟩)
  | _ => exact .inl hw

theorem decides_of_effect {d : DecideReq} (h : Effect J s a s') (hd : d ∈ s'.decides) :
    d ∈ s.decides ∨ ∃ node plan todo result,
      s.run d.txnId = some ⟨node, plan, .broadcasting d.commit (d.target :: todo) result⟩ ∧
        d.target ≠ node ∧ d.indexOps = plan.opsFor d.target := by
  cases h with
  | pass hr hne hds =>
    rcases hds d hd with hd | rfl
    · exact .inl hd
    · exact .inr ⟨_, _, _, _, hr, hne, rfl⟩
  | _ => exact .inl hd

theorem prepares_of_effect (h : Effect J s a s') (hq : q ∈ s'.prepares) :
    q ∈ s.prepares ∨ ∃ (plan : CommitPlan) (addr : Addr) (pp : ParticipantPlan),
      q = plan.request addr pp := by
  cases h with
  | send hr =>
    rcases mem_cons.mp hq with rfl | hq
    · exact .inr ⟨_, _, _, rfl⟩
    · exact .inl hq
  | deliver => exact .inl (mem_of_mem_eraseIdx hq)
  | _ => exact .inl hq

theorem sweepOk_of_ops_nil (ho : w.ops = [])
    (he : ∀ t commit ops todo, w = .deciding t .expired commit ops todo → commit = false) :
    SweepOk w where
  dataKeys op hop := by
    rw [ho] at hop
    cases hop
  expired := he

theorem SweepMove.ok (hok : ClusterOk J s) (h : SweepMove J s n w) : SweepOk w := by
  cases h with
  | begin | ask | definite | keep => exact sweepOk_of_ops_nil rfl fun _ _ _ _ h => (nomatch h)
  | recorded _ hr =>
    exact ⟨((hok.stores n).outcomes _ _ hr).replayOps n, fun _ _ _ _ h => (nomatch h)⟩
  | @hear t _ _ _ _ _ answer _ ha =>
    match answer with
    | none => exact sweepOk_of_ops_nil rfl fun _ _ _ _ h => (nomatch h)
    | some (false, _) => exact sweepOk_of_ops_nil rfl fun _ _ _ _ h => (nomatch h)
    | some (true, ops) =>
      obtain ⟨x, hx⟩ := ha _ rfl
      exact ⟨((hok.stores x).told hx).2, fun _ _ _ _ h => (nomatch h)⟩
  | expire => exact sweepOk_of_ops_nil rfl fun _ _ _ _ h => by cases h; rfl

theorem ClusterOk.step (hok : ClusterOk J s) (hplan : PlansNamed s) (h : Effect J s a s') :
    ClusterOk J s' where
  stores n := (store_of_effect hok hplan h n).ok hok
  sweeps n w hw := by
    rcases sweep_of_effect h hw with hw | hm | ⟨_, _, _, _, _, -, rfl⟩
    · exact hok.sweeps n w hw
    · exact hm.ok hok
    · exact sweepOk_of_ops_nil rfl fun _ _ _ _ h => (nomatch h)
  prepares q hq := by
    rcases prepares_of_effect h hq with hq | ⟨_, _, pp, rfl⟩
    · exact hok.prepares q hq
    · exact pp.uniqueKeys
  decides d hd := by
    rcases decides_of_effect h hd with hd | ⟨_, plan, _, _, -, -, ho⟩
    · exact hok.decides d hd
    · exact ho ▸ plan.dataKey_opsFor d.target

theorem clusterOk_init : ClusterOk J .init where
  stores _ := ⟨markersOk_empty J, fun _ _ h => (nomatch h)⟩
  sweeps _ _ h := nomatch h
  prepares _ h := nomatch h
  decides _ h := nomatch h

/-! ## Runs and the history -/

inductive RunStep (s s' : Cluster) (t : TxnId) (r : Run) : Prop
  | same (hr : s.run t = some r) (hv : s'.verdict t = s.verdict t)
  | start {node : Addr} {plan : CommitPlan} (hs : s.started t = none) (ht : plan.txnId = t)
      (hs' : s'.started t = some (node, plan)) (hv : s'.verdict t = s.verdict t)
      (hr' : r = ⟨node, plan, .preparing plan.participants.entries false [] none⟩)
  | send {node : Addr} {plan : CommitPlan} {todo : List (Addr × ParticipantPlan)}
      {voted : List Addr} {veto : Option SqlError}
      (hr : s.run t = some ⟨node, plan, .preparing todo false voted veto⟩)
      (hv : s'.verdict t = s.verdict t) (hr' : r = ⟨node, plan, .preparing todo true voted veto⟩)
  | note {node addr : Addr} {plan : CommitPlan} {pp : ParticipantPlan}
      {todo : List (Addr × ParticipantPlan)} {waiting : Bool} {voted : List Addr}
      {veto : Option SqlError} {result : Except SqlError Unit}
      (hr : s.run t = some ⟨node, plan, .preparing ((addr, pp) :: todo) waiting voted veto⟩)
      (hv : s'.verdict t = s.verdict t) (hr' : r = ⟨node, plan, noted todo voted veto addr result⟩)
  | decide {node : Addr} {plan : CommitPlan} {waiting commit : Bool} {voted : List Addr}
      {veto : Option SqlError} {result : Except SqlError Unit}
      (hr : s.run t = some ⟨node, plan, .preparing [] waiting voted veto⟩)
      (hv : s'.verdict t = some commit) (hr' : r = ⟨node, plan, .broadcasting commit voted result⟩)
  | pass {node addr : Addr} {plan : CommitPlan} {commit : Bool} {todo : List Addr}
      {result : Except SqlError Unit}
      (hr : s.run t = some ⟨node, plan, .broadcasting commit (addr :: todo) result⟩)
      (hv : s'.verdict t = s.verdict t) (hr' : r = ⟨node, plan, .broadcasting commit todo result⟩)

theorem runStep_update {t₀ : TxnId} {r r₀ : Run} (hstep : RunStep s s' t₀ r₀)
    (hv : t ≠ t₀ → s'.verdict t = s.verdict t)
    (h : Function.update s.run t₀ (some r₀) t = some r) : RunStep s s' t r := by
  by_cases ht : t = t₀
  · subst ht
    rw [update_self] at h
    cases h
    exact hstep
  · rw [update_of_ne ht] at h
    exact .same h (hv ht)

variable (h : Effect J s a s')
include h

theorem run_of_effect {r : Run} (hr : s'.run t = some r) : RunStep s s' t r := by
  cases h with
  | start _ hs =>
    exact runStep_update (.start hs rfl (update_self ..) rfl rfl) (fun _ => rfl) hr
  | ownVote hold | note hold => exact runStep_update (.note hold rfl rfl) (fun _ => rfl) hr
  | send hold => exact runStep_update (.send hold rfl rfl) (fun _ => rfl) hr
  | decideAll _ hold =>
    exact runStep_update (.decide hold (update_self ..) rfl)
      (fun ht => update_of_ne ht ..) hr
  | decideOwn hold | pass hold => exact runStep_update (.pass hold rfl rfl) (fun _ => rfl) hr
  | crash => exact .same (Option.filter_eq_some_iff.mp hr).1 rfl
  | _ => exact .same hr rfl

theorem started_of_effect :
    s'.started t = s.started t ∨ s.started t = none ∧ ∃ node plan, a = .start node plan ∧
      plan.txnId = t ∧ s'.started t = some (node, plan) := by
  cases h with
  | @start node plan ha hs =>
    by_cases ht : t = plan.txnId
    · subst ht
      exact .inr ⟨hs, node, plan, ha, rfl, update_self ..⟩
    · exact .inl (update_of_ne ht ..)
  | _ => exact .inl rfl

theorem verdict_of_effect :
    s'.verdict t = s.verdict t ∨ ∃ node plan waiting voted veto now persist,
      a = .decideAll t now persist ∧
        s.run t = some ⟨node, plan, .preparing [] waiting voted veto⟩ ∧
        (s'.verdict t = some true → veto = none) := by
  cases h with
  | @decideAll t₀ node plan waiting voted veto now persist ha hr =>
    by_cases ht : t = t₀
    · subst ht
      refine .inr ⟨node, plan, waiting, voted, veto, now, persist, ha, hr, fun hv => ?_⟩
      rw [show (s.decideAll J t node plan voted veto now persist).verdict t = _ from
        update_self ..] at hv
      cases persist with
      | ok => simpa [decideOutcome] using hv
      | error e => cases hv
    · exact .inl (update_of_ne ht ..)
  | _ => exact .inl rfl

theorem applied_of_effect {commit : Bool} (ha : (t, n, commit) ∈ s'.applied) :
    (t, n, commit) ∈ s.applied ∨ ∃ ops, Pending s a n t commit ops := by
  -- a decision is logged where it found a marker
  have hdec : ∀ {x : Addr} {t₀ : TxnId} {c : Bool} {ops : List WireOp},
      Pending s a x t₀ c ops →
      (t, n, commit) ∈ (if (readMarker J (s.store x) t₀).isSome then (t₀, x, c) :: s.applied
        else s.applied) →
      (t, n, commit) ∈ s.applied ∨ ∃ ops, Pending s a n t commit ops := by
    intro x t₀ c ops hp hmem
    split at hmem
    · rcases mem_cons.mp hmem with heq | hmem
      · cases heq
        exact .inr ⟨ops, hp⟩
      · exact .inl hmem
    · exact .inl hmem
  cases h with
  | decideOwn hr => exact hdec (.own hr rfl) ha
  | deliverDecide hd => exact hdec (.message hd rfl rfl rfl rfl) ha
  | sweepDecide hact hw => exact hdec (.sweep hact hw) ha
  | _ => exact .inl ha

end Rdb.Dist
