import Rdb.Dist.Origins
import Rdb.Lib.Commitment

/-!
# Atomic commitment

The cluster, seen from one transaction, takes the steps of `Commitment.Step` as
long as no participant gives up its slice for an expired lease after the
coordinator has recorded the commit, and the coordinator records a commit only
while every voter still holds its slice. Nothing in the protocol enforces the two.

* `view_step`: the steps of the cluster are steps of an atomic commitment.
* `atomic_of_guarded`: no transaction is committed on one participant and aborted on
  another.
-/

namespace Rdb.Dist

open Lib Sql Tx Participant

variable {J : Serde} {cfg : Config} {s s' : Cluster} {a : Action}

/-! ## What is known of a transaction -/

def Sweep.Tells (t : TxnId) (b : Bool) : Sweep → Prop
  | .scanning _ => False
  | .asking t' _ _ definiteAbort _ => t' = t ∧ definiteAbort ∧ b = false
  | .deciding t' cause commit _ _ => t' = t ∧ cause ≠ .expired ∧ commit = b

/-- Something in the cluster acts on the decision `b`, or may. -/
inductive Trace (J : Serde) (s : Cluster) (t : TxnId) (b : Bool) : Prop
  | record {n : Addr} {rec : OutcomeRecord} (hr : readOutcome J (s.store n) t = some rec)
      (hc : rec.commit = b)
  | message {d : DecideReq} (hd : d ∈ s.decides) (ht : d.txnId = t) (hc : d.commit = b)
  | run {node : Addr} {plan : CommitPlan} {todo : List Addr} {result : Except SqlError Unit}
      (hr : s.run t = some ⟨node, plan, .broadcasting b todo result⟩)
  | sweep {n : Addr} {w : Sweep} (hw : s.sweep n = some w) (ht : w.Tells t b)
  | applied {n : Addr} (ha : (t, n, b) ∈ s.applied)

def view (J : Serde) (s : Cluster) (t : TxnId) : Commitment.View Addr where
  member := s.Member t
  verdict := s.verdict t
  asked n := (t, n) ∈ s.prepared
  staged n := (readMarker J (s.store n) t).isSome
  known := Trace J s t

/-! ## The condition -/

/-- A participant aborts for an expired lease only while the coordinator has not recorded the
commit. -/
def LeaseGuard (s : Cluster) : Action → Prop
  | .sweepDecide n _ => match s.sweep n with
    | some (.deciding t .expired _ _ _) => s.verdict t ≠ some true
    | _ => True
  | _ => True

/-- The coordinator decides to commit only while every voter holds its marker. -/
def VoterGuard (J : Serde) (s : Cluster) : Action → Prop
  | .decideAll t _ _ => match s.run t with
    | some ⟨_, _, .preparing [] _ voted none⟩ =>
      ∀ n ∈ voted, (readMarker J (s.store n) t).isSome
    | _ => True
  | _ => True

instance (s : Cluster) (a : Action) : Decidable (LeaseGuard s a) := by
  unfold LeaseGuard
  split
  · split <;> infer_instance
  · infer_instance

instance (J : Serde) (s : Cluster) (a : Action) : Decidable (VoterGuard J s a) := by
  unfold VoterGuard
  split
  · split <;> infer_instance
  · infer_instance

def AtomicGuard (J : Serde) (s : Cluster) (a : Action) : Prop := LeaseGuard s a ∧ VoterGuard J s a
  deriving Decidable

/-! ## Simulation -/

variable {n : Addr} {t : TxnId} {b : Bool}

theorem Pending.trace {ops : List WireOp} (h : Pending s a n t b ops) :
    Trace J s t b ∨ ∃ now todo, a = .sweepDecide n now ∧
      s.sweep n = some (.deciding t .expired b ops todo) := by
  cases h with
  | own hr => exact .inl (.run hr)
  | message hd _ ht hc => exact .inl (.message hd ht hc)
  | @sweep cause todo now ha hw =>
    by_cases hx : cause = .expired
    · subst hx
      exact .inr ⟨now, todo, ha, hw⟩
    · exact .inl (.sweep hw ⟨rfl, hx, rfl⟩)

theorem trace_of_told (hok : ClusterOk J s) {x : Addr} {ops : List WireOp}
    (h : (status J (s.store x) t n).told = some (b, ops)) : Trace J s t b := by
  obtain ⟨⟨rec, hr, hc⟩, -⟩ := (hok.stores x).told h
  exact .record hr hc

theorem SweepMove.trace (hok : ClusterOk J s) {w : Sweep} (hm : SweepMove J s n w)
    (ht : w.Tells t b) : Trace J s t b := by
  cases hm with
  | begin | keep => cases ht
  | recorded _ hr =>
    obtain ⟨rfl, -, hc⟩ := ht
    exact .record hr hc
  | ask =>
    obtain ⟨-, hd, -⟩ := ht
    cases hd
  | @hear t' m peer peers d todo answer hw ha =>
    match answer with
    | none => exact .sweep hw ht
    | some (false, ops) =>
      obtain ⟨rfl, -, rfl⟩ := ht
      obtain ⟨x, hx⟩ := ha _ rfl
      exact trace_of_told hok hx
    | some (true, ops) =>
      obtain ⟨rfl, -, rfl⟩ := ht
      obtain ⟨x, hx⟩ := ha _ rfl
      exact trace_of_told hok hx
  | definite hw =>
    obtain ⟨rfl, -, rfl⟩ := ht
    exact .sweep hw ⟨rfl, rfl, rfl⟩
  | expire =>
    obtain ⟨-, hx, -⟩ := ht
    exact absurd rfl hx

theorem RunStep.trace {r : Run} (h : RunStep s s' t r) {todo : List Addr}
    {result : Except SqlError Unit} (hp : r.phase = .broadcasting b todo result) :
    Trace J s t b ∨ s'.verdict t = some b := by
  cases h with
  | same hr =>
    obtain ⟨node, plan, phase⟩ := r
    cases hp
    exact .inl (.run hr)
  | start _ _ _ _ hr' | send _ _ hr' =>
    subst hr'
    cases hp
  | @note _ _ _ _ _ _ _ _ res _ _ hr' =>
    subst hr'
    cases res <;> cases hp
  | decide _ hv hr' =>
    subst hr'
    cases hp
    exact .inr hv
  | pass hr _ hr' =>
    subst hr'
    cases hp
    exact .inl (.run hr)

theorem trace_of_effect (hok : ClusterOk J s) (ho : Origins J s) (h : Effect J s a s')
    (hk : Trace J s' t b) :
    Trace J s t b ∨ s'.verdict t = some b ∨ ∃ n ops, Pending s a n t b ops := by
  cases hk with
  | @record n rec hr hc =>
    rcases (store_of_effect hok ho.plansNamed h n).outcome hok hr with
      hr | ⟨commit, ops, now, commitTs, hp, rfl⟩ | ⟨plan, waiting, voted, veto, now, -, hv, rfl⟩
    · exact .inl (.record hr hc)
    · cases hc
      exact .inr (.inr ⟨n, ops, hp⟩)
    · exact .inr (.inl (hv.trans (congrArg some hc)))
  | @message d hd ht hc =>
    rcases decides_of_effect h hd with hd | ⟨node, plan, todo, result, hr, -, -⟩
    · exact .inl (.message hd ht hc)
    · subst ht hc
      exact .inl (.run hr)
  | run hr =>
    rcases (run_of_effect h hr).trace rfl with hk | hv
    · exact .inl hk
    · exact .inr (.inl hv)
  | sweep hw ht =>
    rcases sweep_of_effect h hw with hw | hm | ⟨_, _, _, _, _, -, rfl⟩
    · exact .inl (.sweep hw ht)
    · exact .inl (hm.trace hok ht)
    · cases ht
  | @applied n ha =>
    rcases applied_of_effect h ha with ha | ⟨ops, hp⟩
    · exact .inl (.applied ha)
    · exact .inr (.inr ⟨n, ops, hp⟩)

theorem view_step (hok : ClusterOk J s) (ho : Origins J s) (hg : AtomicGuard J s a)
    (h : step J cfg s a = some s') (t : TxnId) : Commitment.Step (view J s t) (view J s' t) where
  member n hm := hm.step (effect_of_step h)
  asked n hp := prepared_mono (effect_of_step h) hp
  staged n hm := by
    rcases (store_of_effect hok ho.plansNamed (effect_of_step h) n).marker hok hm with hm | ⟨hn, -⟩
    · exact .inl hm
    · exact .inr (ho.fresh t n hn).2
  verdict := by
    rcases verdict_of_effect (t := t) (effect_of_step h) with
      hv | ⟨node, plan, waiting, voted, veto, now, persist, rfl, hr, hveto⟩
    · exact .inl hv
    · obtain ⟨hs, hnone, hall⟩ := ho.runs t _ hr
      refine .inr ⟨hnone, fun hv n hn => ?_⟩
      cases hveto hv
      obtain ⟨node', plan', slice, hs', hslice⟩ := hn
      rw [started_mono (effect_of_step h) hs] at hs'
      cases hs'
      rcases hall n slice hslice with hveto | hn | hn
      · cases hveto
      · have hvoters := hg.2
        simp only [VoterGuard, hr] at hvoters
        exact hvoters n hn
      · cases hn
  known b hk := by
    rcases trace_of_effect hok ho (effect_of_step h) hk with hk | hv | ⟨n, ops, hp⟩
    · exact .inl hk
    · exact .inr (.inl hv)
    · rcases hp.trace (J := J) with hk | ⟨now, todo, rfl, hw⟩
      · exact .inl hk
      · -- the lease of `n` ran out: it gives up its slice
        obtain rfl : b = false := (hok.sweeps n _ hw).expired t b ops todo rfl
        have hasked : (t, n) ∈ s.prepared := ho.swept n _ hw t List.mem_cons_self
        simp only [step, hw, Option.some.injEq] at h
        subst h
        have hlease := hg.1
        simp only [LeaseGuard, hw] at hlease
        refine .inr (.inr ⟨rfl, rfl, hlease, n, ho.asked t n hasked, hasked, ?_⟩)
        have hops : ∀ op ∈ ops, DataKey op.1 := (hok.sweeps n _ hw).dataKeys
        have hafter : ((s.setSweep n (some (.scanning todo))).decideAt J n t false ops now).store n
            = (Participant.decide J now (s.store n) t n false ops).1 := Function.update_self ..
        show ¬ (readMarker J (Cluster.store _ n) t).isSome = true
        rw [hafter, readMarker_decide (hok.stores n) hops, if_pos rfl]
        exact Bool.false_ne_true

/-! ## Atomicity -/

/-- No transaction is committed on one participant and aborted on another. -/
def Atomic (s : Cluster) : Prop :=
  ∀ t m n, (t, m, true) ∈ s.applied → (t, n, false) ∉ s.applied

structure AtomicInv (J : Serde) (s : Cluster) : Prop where
  ok : ClusterOk J s
  origins : Origins J s
  views : ∀ t, Commitment.Inv (view J s t)

theorem AtomicInv.step (hi : AtomicInv J s) (hg : AtomicGuard J s a)
    (h : step J cfg s a = some s') : AtomicInv J s' where
  ok := hi.ok.step hi.origins.plansNamed (effect_of_step h)
  origins := hi.origins.step (effect_of_step h) hi.ok
  views t := (hi.views t).step (view_step hi.ok hi.origins hg h t)

theorem not_trace_init (t : TxnId) (b : Bool) : ¬ Trace J .init t b := by
  intro h
  cases h with
  | record hr | run hr => cases hr
  | message hd => cases hd
  | sweep hw => cases hw
  | applied ha => cases ha

theorem atomicInv_init : AtomicInv J .init where
  ok := clusterOk_init
  origins := origins_init
  views t := Commitment.inv_of_unknown fun b => not_trace_init t b

theorem atomic_of_guarded (J : Serde) (cfg : Config) (acts : List Action) (s : Cluster)
    (hg : Guarded (step J cfg) (AtomicGuard J) .init acts)
    (h : exec (step J cfg) .init acts = some s) : Atomic s := by
  have hi : AtomicInv J s := exec_inv (fun _ _ _ hi hg h => hi.step hg h) atomicInv_init hg h
  intro t m n hm hn
  exact (hi.views t).agree ⟨.applied hm, .applied hn⟩

/-! ## A cluster of two nodes -/

def nodeA : Addr := utf8 "127.0.0.1:6379"
def nodeB : Addr := utf8 "127.0.0.1:6380"

def sampleConfig : Config where
  stableAddrs := [nodeA, nodeB]
  http n := if n = nodeA then utf8 "127.0.0.1:8080" else utf8 "127.0.0.1:8081"

/-- The slice of a DELETE of one row, with a secondary-index entry of its owner to remove. -/
def deleteSlice (pk : Bytes) (ts : Nat) (indexOps : List WireOp)
    (h : ∀ op ∈ indexOps, DataKey op.1) : ParticipantPlan where
  entries := [⟨versionKey (slotOf 7 pk) 7 pk ts, preparedValue encodeTombstone, .rowPrepared⟩]
  indexOps := indexOps
  segments := []
  uniqueKeys e he hk := by
    cases List.mem_singleton.mp he
    exact absurd rfl hk
  dataKeys := h

/-- A DELETE of one row on each node, planned by the first. -/
def deletePlan : CommitPlan where
  txnId := sampleTxn
  readTs := 1
  commitTs := 2
  watermark := 3
  coordinatorHttp := sampleConfig.http nodeA
  participants := SortedMap.ofList
    [(nodeA, deleteSlice (encodeKey (.int 1)) 2 [] ParticipantPlan.dataKeys_nil),
     (nodeB, deleteSlice (encodeKey (.int 2)) 3
       [(secondaryKey 7 1 (encodeKey (.str "a")) (encodeKey (.int 2)), none)]
       (by decide +kernel))]

/-- Both nodes vote and the first records the commit and applies its slice. -/
def commitPrefix : List Action :=
  [.start nodeA deletePlan, .prepare sampleTxn sampleEnv true, .prepare sampleTxn sampleEnv true,
   .deliverPrepare 0 sampleEnv, .collect sampleTxn .yes, .decideAll sampleTxn 1 (.ok ()),
   .broadcast sampleTxn 1 true]

/-- The Decide to the second node is lost and its coordinator cannot be reached. -/
def leaseRun : List Action :=
  commitPrefix ++ [.broadcast sampleTxn 1 true, .sweep nodeB, .sweepNext nodeB,
    .sweepAsk nodeB none, .sweepAsk nodeB (some nodeB), .sweepResolve nodeB 61,
    .sweepDecide nodeB 61]

theorem applied_leaseRun : (exec (step Serde.json sampleConfig) .init leaseRun).map (·.applied) =
    some [(sampleTxn, nodeB, false), (sampleTxn, nodeA, true)] := by
  decide +kernel

/-- The coordinator has committed its slice; the other participant finds no outcome and aborts. -/
theorem lease_abort_after_commit :
    ∃ s, exec (step Serde.json sampleConfig) .init leaseRun = some s ∧ ¬ Atomic s := by
  obtain ⟨s, hs, ha⟩ := Option.map_eq_some_iff.mp applied_leaseRun
  refine ⟨s, hs, fun h => h sampleTxn nodeA nodeB ?_ ?_⟩
  · rw [ha]
    decide +kernel
  · rw [ha]
    decide +kernel

def commitRun : List Action :=
  commitPrefix ++ [.broadcast sampleTxn 1 true, .deliverDecide 0 2]

theorem atomic_of_guarded_commitRun :
    ∃ s, exec (step Serde.json sampleConfig) .init commitRun = some s ∧ Atomic s :=
  exists_run (P := fun _ => True) (by decide +kernel) fun s hs _ =>
    atomic_of_guarded Serde.json sampleConfig commitRun s (by decide +kernel) hs

end Rdb.Dist
