import Rdb.Dist.Atomicity

/-!
# Recovery answers

The coordinator records a commit with the index writes of every participant, so
that a participant that missed its Decide can replay it. When the coordinator then
applies its own slice, the record of that decision takes the place of the first and
maps the coordinator's own index writes only.

* `answers_complete_of_guarded`: the answers stay those of the plan when the
  coordinator has no slice or nobody else has index writes.
* `own_decide_forgets_index_ops`: the answer to another participant is lost when the
  coordinator applies its own slice.
-/

namespace Rdb.Dist

open Lib Sql Tx Participant List SortedMap Option
open Serde (json)

variable {J : Serde} {cfg : Config} {s s' : Cluster} {a : Action}

/-! ## Answers of the coordinator -/

/-- As long as the outcome of a committed transaction has not been collected, its coordinator
answers every participant with the index writes of its slice, and the participant that replays
them ends with the store of one that got the Decide. -/
def AnswersComplete (J : Serde) (s : Cluster) : Prop :=
  ∀ t node plan, s.started t = some (node, plan) → s.verdict t = some true →
    (t, node) ∉ s.collected → ∀ n slice, plan.participants.get n = some slice →
      status J (s.store node) t n = .committed slice.indexOps ∧
      ∃ ops, parseStatusBody J (statusBody J (s.store node) t n) = some (true, ops) ∧
        ∀ now, Participant.decide J now (s.store n) t n true ops =
          Participant.decide J now (s.store n) t n true slice.indexOps

/-- The record answers every participant of the plan with its index writes. -/
structure Complete (node : Addr) (plan : CommitPlan) (rec : OutcomeRecord) : Prop where
  commit : rec.commit
  own : ∀ slice, plan.participants.get node = some slice →
    rec.indexOps.get node = some slice.indexOps
  others : ∀ n slice, plan.participants.get n = some slice → n ≠ node →
    (rec.indexOps.get n).getD [] = slice.indexOps

variable {node : Addr} {plan : CommitPlan} {rec : OutcomeRecord} {n : Addr}
  {slice : ParticipantPlan}

theorem Complete.answer (h : Complete node plan rec) (hs : plan.participants.get n = some slice) :
    (rec.indexOps.get n).getD [] = slice.indexOps := by
  by_cases hn : n = node
  · subst hn
    rw [h.own slice hs, getD_some]
  · exact h.others n slice hs hn

theorem complete_coordinatorOutcome (node : Addr) (plan : CommitPlan) (now : Nat) :
    Complete node plan (coordinatorOutcome now true plan.commitTs
      (plan.participants.mapVal (·.indexOps))) where
  commit := rfl
  own slice hs := by rw [coordinatorOutcome, get_mapVal, hs, map_some]
  others n slice hs _ := by
    rw [coordinatorOutcome, get_mapVal, hs, map_some, getD_some]

/-- The coordinator has no slice, or nobody else has index writes. -/
def OwnAlone (node : Addr) (plan : CommitPlan) : Prop :=
  plan.participants.get node = none ∨
    ∀ e ∈ plan.participants.entries, e.1 ≠ node → e.2.indexOps = []
  deriving Decidable

theorem opsFor_eq (h : plan.participants.get n = some slice) : plan.opsFor n = slice.indexOps := by
  rw [CommitPlan.opsFor, h, map_some, getD_some]

theorem complete_participantOutcome (h : OwnAlone node plan)
    (hm : (plan.participants.get node).isSome) (now commitTs : Nat) :
    Complete node plan (participantOutcome now commitTs node true (plan.opsFor node)) where
  commit := rfl
  own slice hs := by
    rw [participantOutcome, if_pos rfl, get_put, if_pos rfl, opsFor_eq hs]
  others n slice hs hn := by
    rcases h with hnone | hothers
    · rw [hnone] at hm
      cases hm
    · rw [participantOutcome, if_pos rfl, get_put, if_neg hn.symm, get_empty]
      exact (hothers (n, slice) (get_eq_some.mp hs) hn).symm

theorem Complete.replayOps (h : Complete node plan rec)
    (hm : (plan.participants.get node).isSome) :
    replayOps node rec = plan.opsFor node := by
  obtain ⟨slice, hs⟩ := isSome_iff_exists.mp hm
  have hne : rec.indexOps.entries.isEmpty = false := by
    have := get_eq_some.mp (h.own slice hs)
    rw [isEmpty_eq_false_iff]
    exact ne_nil_of_mem this
  rw [Dist.replayOps, if_pos h.commit, if_neg (by simp [hne]), h.own slice hs, getD_some,
    opsFor_eq hs]

/-! ## The condition -/

/-- The sweep is not between looking at its own record of `t` and applying a decision of `t`. -/
def SweepClear (t : TxnId) : Option Sweep → Prop
  | some (.asking t' _ _ _ _) => t' ≠ t
  | some (.deciding t' _ _ _ _) => t' ≠ t
  | _ => True

def AnswerGuard (s : Cluster) : Action → Prop
  | .start node plan => OwnAlone node plan
  | .decideAll t _ _ => ∀ r ∈ s.run t, SweepClear t (s.sweep r.node)
  | _ => True

instance (t : TxnId) (w : Option Sweep) : Decidable (SweepClear t w) := by
  unfold SweepClear
  split <;> infer_instance

instance (s : Cluster) : (a : Action) → Decidable (AnswerGuard s a)
  | .start node plan => inferInstanceAs (Decidable (OwnAlone node plan))
  | .decideAll t _ _ => inferInstanceAs (Decidable (∀ r ∈ s.run t, SweepClear t (s.sweep r.node)))
  | .prepare .. | .deliverPrepare .. | .collect .. | .timeout .. | .broadcast ..
  | .deliverDecide .. | .crash .. | .sweep .. | .sweepNext .. | .sweepAsk .. | .sweepResolve ..
  | .sweepDecide .. | .sweepGc .. | .localWrite .. => .isTrue trivial

/-! ## The invariant -/

/-- What the sweep of the coordinator does with a transaction it has committed. -/
def SweepAgrees (t : TxnId) (ops : List WireOp) : Option Sweep → Prop
  | some (.asking t' _ _ _ _) => t' ≠ t
  | some (.deciding t' _ commit ops' _) => t' = t → commit ∧ ops' = ops
  | _ => True

variable {t : TxnId}

theorem SweepClear.agrees {w : Option Sweep} (h : SweepClear t w) (ops : List WireOp) :
    SweepAgrees t ops w := by
  unfold SweepClear at h
  unfold SweepAgrees
  split at h
  · exact h
  · exact fun ht => absurd ht h
  · trivial

structure AnswerInv (J : Serde) (s : Cluster) : Prop where
  ok : ClusterOk J s
  origins : Origins J s
  alone : ∀ t node plan, s.started t = some (node, plan) → OwnAlone node plan
  /-- Nobody sends a Decide to the coordinator. -/
  decides : ∀ d ∈ s.decides, ∃ node plan, s.started d.txnId = some (node, plan) ∧ d.target ≠ node
  recorded : ∀ t node plan, s.started t = some (node, plan) → s.verdict t = some true →
    (t, node) ∉ s.collected →
      (∃ rec, readOutcome J (s.store node) t = some rec ∧ Complete node plan rec) ∧
        SweepAgrees t (plan.opsFor node) (s.sweep node)

theorem AnswerInv.pending (hi : AnswerInv J s) (hs : s.started t = some (node, plan))
    (hv : s.verdict t = some true) (hc : (t, node) ∉ s.collected) {commit : Bool}
    {ops : List WireOp} (hp : Pending s a node t commit ops) :
    commit ∧ ops = plan.opsFor node ∧ (plan.participants.get node).isSome := by
  cases hp with
  | own hr ho =>
    obtain ⟨hs', hphase⟩ := hi.origins.runs t _ hr
    rw [hs] at hs'
    cases hs'
    obtain rfl : true = commit := some.inj (hv.symm.trans hphase)
    exact ⟨rfl, ho, hi.origins.planned t _ hr node mem_cons_self⟩
  | message hd hn ht =>
    obtain ⟨node', plan', hs', hne⟩ := hi.decides _ hd
    rw [ht, hs] at hs'
    cases hs'
    exact absurd hn hne
  | sweep _ hw =>
    have hagree := (hi.recorded t node plan hs hv hc).2
    rw [hw] at hagree
    obtain ⟨rfl, rfl⟩ := hagree rfl
    obtain ⟨node', plan', slice, hs', hslice⟩ :=
      hi.origins.asked t node (hi.origins.swept node _ hw t mem_cons_self)
    rw [hs] at hs'
    cases hs'
    exact ⟨rfl, rfl, by rw [hslice]; rfl⟩

theorem AnswerInv.store (hi : AnswerInv J s) (hs : s.started t = some (node, plan))
    (hv : s.verdict t = some true) (hc : (t, node) ∉ s.collected) (hc' : (t, node) ∉ s'.collected)
    {store : Store} (hstep : StoreStep J s a s' node store) :
    ∃ rec, readOutcome J store t = some rec ∧ Complete node plan rec := by
  obtain ⟨⟨rec, hr, hcomplete⟩, -⟩ := hi.recorded t node plan hs hv hc
  have hok := hi.ok.stores node
  cases hstep with
  | same => exact ⟨rec, hr, hcomplete⟩
  | vote _ _ hent => exact ⟨rec, by rw [(hok.afterVote hent rfl).2.1, hr], hcomplete⟩
  | @decide t' commit ops now hp =>
    rw [readOutcome_decide hok (hp.dataKey hi.ok)]
    by_cases ht : t' = t
    · subst ht
      obtain ⟨rfl, rfl, hm⟩ := hi.pending hs hv hc hp
      exact ⟨_, if_pos rfl, complete_participantOutcome (hi.alone _ _ _ hs) hm now _⟩
    · exact ⟨rec, by rw [if_neg ht, hr], hcomplete⟩
  | @record t' _ _ _ _ _ hrun =>
    rw [readOutcome_recordOutcome]
    by_cases ht : t' = t
    · subst ht
      obtain ⟨-, hnone, -⟩ := hi.origins.runs t' _ hrun
      rw [hv] at hnone
      cases hnone
    · exact ⟨rec, by rw [if_neg ht, hr], hcomplete⟩
  | @gc now hstale =>
    rw [readOutcome_gcOutcomes]
    by_cases ht : t ∈ staleOutcomes J now (s.store node)
    · exact absurd (hstale t ht) hc'
    · exact ⟨rec, by rw [if_neg ht, hr], hcomplete⟩
  | foreign hf => exact ⟨rec, by rw [readOutcome_congr (hf.get t).2, hr], hcomplete⟩

theorem AnswerInv.sweepMove (hi : AnswerInv J s) (hs : s.started t = some (node, plan))
    (hv : s.verdict t = some true) (hc : (t, node) ∉ s.collected) {w : Sweep}
    (hm : SweepMove J s node w) :
    SweepAgrees t (plan.opsFor node) (some w) := by
  obtain ⟨⟨rec, hr, hcomplete⟩, hagree⟩ := hi.recorded t node plan hs hv hc
  cases hm with
  | begin => trivial
  | recorded hw hrec =>
    rintro rfl
    rw [hr] at hrec
    cases hrec
    obtain ⟨node', plan', slice, hs', hslice⟩ :=
      hi.origins.asked _ node (hi.origins.swept node _ hw _ mem_cons_self)
    rw [hs] at hs'
    cases hs'
    exact ⟨hcomplete.commit, hcomplete.replayOps (by rw [hslice]; rfl)⟩
  | ask hw hrec =>
    rintro rfl
    rw [hr] at hrec
    cases hrec
  | @hear t' _ _ _ _ _ answer hw =>
    rw [hw] at hagree
    match answer with
    | none => exact hagree
    | some (false, _) => exact hagree
    | some (true, _) => exact fun ht => absurd ht hagree
  | definite hw | expire hw =>
    rw [hw] at hagree
    exact fun ht => absurd ht hagree
  | keep => trivial

theorem AnswerInv.sweep (hi : AnswerInv J s) (he : Effect J s a s')
    (hs : s.started t = some (node, plan)) (hv : s.verdict t = some true)
    (hc : (t, node) ∉ s.collected) : SweepAgrees t (plan.opsFor node) (s'.sweep node) := by
  cases hw : s'.sweep node with
  | none => trivial
  | some w =>
    rcases sweep_of_effect he hw with hw | hm | ⟨_, _, _, _, _, -, rfl⟩
    · rw [← hw]
      exact (hi.recorded t node plan hs hv hc).2
    · exact hi.sweepMove hs hv hc hm
    · trivial

theorem collected_mono (he : Effect J s a s') {x : TxnId × Addr} (h : x ∈ s.collected) :
    x ∈ s'.collected := by
  cases he with
  | gc => exact mem_append_right _ h
  | _ => exact h

theorem recorded_of_decideAll {waiting : Bool} {voted : List Addr} {now : Nat}
    {persist : Except String Unit}
    (hr : s.run t = some ⟨node, plan, .preparing [] waiting voted none⟩)
    (h : step J cfg s (.decideAll t now persist) = some s') (hv : s'.verdict t = some true) :
    (∃ rec, readOutcome J (s'.store node) t = some rec ∧ Complete node plan rec) ∧
      s'.sweep = s.sweep := by
  simp only [step, hr, some.injEq] at h
  subst h
  cases persist with
  | ok =>
    refine ⟨⟨_, ?_, complete_coordinatorOutcome node plan now⟩, rfl⟩
    have hstore : (s.decideAll J t node plan voted none now (.ok ())).store node =
        recordOutcome J (s.store node) t (coordinatorOutcome now true plan.commitTs
          (plan.participants.mapVal (·.indexOps))) := Function.update_self ..
    rw [hstore, readOutcome_recordOutcome, if_pos rfl]
  | error e =>
    rw [show (s.decideAll J t node plan voted none now (.error e)).verdict t = some false from
      Function.update_self ..] at hv
    cases hv

theorem AnswerInv.step (hi : AnswerInv J s) (hg : AnswerGuard s a)
    (h : step J cfg s a = some s') : AnswerInv J s' where
  ok := hi.ok.step hi.origins.plansNamed (effect_of_step h)
  origins := hi.origins.step (effect_of_step h) hi.ok
  alone t node plan hs := by
    rcases started_of_effect (t := t) (effect_of_step h) with
      heq | ⟨-, node₀, plan₀, rfl, -, hs'⟩
    · exact hi.alone t node plan (heq.symm.trans hs)
    · cases hs'.symm.trans hs
      exact hg
  decides d hd := by
    rcases decides_of_effect (effect_of_step h) hd with hd | ⟨node, plan, _, _, hr, hne, -⟩
    · obtain ⟨node, plan, hs, hne⟩ := hi.decides d hd
      exact ⟨node, plan, started_mono (effect_of_step h) hs, hne⟩
    · exact ⟨node, plan, started_mono (effect_of_step h) (hi.origins.runs _ _ hr).1, hne⟩
  recorded t node plan hs hv hc := by
    have hc₀ : (t, node) ∉ s.collected := fun hm => hc (collected_mono (effect_of_step h) hm)
    rcases verdict_of_effect (t := t) (effect_of_step h) with
      heq | ⟨node', plan', waiting, voted, veto, now, persist, rfl, hr, hveto⟩
    · have hv₀ : s.verdict t = some true := heq.symm.trans hv
      have hs₀ : s.started t = some (node, plan) := by
        rcases started_of_effect (t := t) (effect_of_step h) with heq | ⟨hnone, -⟩
        · exact heq.symm.trans hs
        · rw [hi.origins.undecided t hnone] at hv₀
          cases hv₀
      exact ⟨hi.store hs₀ hv₀ hc₀ hc
        (store_of_effect hi.ok hi.origins.plansNamed (effect_of_step h) node),
        hi.sweep (effect_of_step h) hs₀ hv₀ hc₀⟩
    · cases hveto hv
      rw [started_mono (effect_of_step h) (hi.origins.runs t _ hr).1] at hs
      cases hs
      obtain ⟨hrec, hsweep⟩ := recorded_of_decideAll hr h hv
      refine ⟨hrec, ?_⟩
      rw [hsweep]
      exact SweepClear.agrees (hg _ hr) _

theorem answerInv_init : AnswerInv J .init where
  ok := clusterOk_init
  origins := origins_init
  alone _ _ _ h := nomatch h
  decides _ h := nomatch h
  recorded _ _ _ h := nomatch h

theorem AnswerInv.answersComplete (hi : AnswerInv J s) : AnswersComplete J s := by
  intro t node plan hs hv hc n slice hslice
  obtain ⟨⟨rec, hr, hcomplete⟩, -⟩ := hi.recorded t node plan hs hv hc
  have hstatus : status J (s.store node) t n = .committed slice.indexOps := by
    simp only [status, hr, hcomplete.commit, if_true, hcomplete.answer hslice]
  refine ⟨hstatus, slice.indexOps, ?_, fun _ => rfl⟩
  rw [parseStatusBody_statusBody, hstatus]
  rfl

theorem answers_complete_of_guarded (J : Serde) (cfg : Config) (acts : List Action) (s : Cluster)
    (hg : Guarded (step J cfg) AnswerGuard .init acts)
    (h : exec (step J cfg) .init acts = some s) : AnswersComplete J s :=
  AnswerInv.answersComplete
    (exec_inv (fun _ _ _ hi hg h => AnswerInv.step hi hg h) answerInv_init hg h)

theorem own_decide_forgets_index_ops :
    ∃ s, exec (step json sampleConfig) .init commitPrefix = some s ∧
      ¬ AnswersComplete json s := by
  refine exists_run (P := fun s => s.started sampleTxn = some (nodeA, deletePlan) ∧
    s.verdict sampleTxn = some true ∧ s.collected = [] ∧
    status json (s.store nodeA) sampleTxn nodeB = .committed []) (by decide +kernel) ?_
  rintro s - ⟨hstarted, hverdict, hcollected, hstatus⟩ h
  have hslice : (deletePlan.participants.get nodeB).any (·.indexOps ≠ []) := by
    decide +kernel
  obtain ⟨slice, hget, hne⟩ := (Option.any_eq_true _ _).mp hslice
  have hanswer := (h sampleTxn nodeA deletePlan hstarted hverdict (by simp [hcollected]) nodeB slice
    hget).1
  rw [hstatus, Outcome.committed.injEq] at hanswer
  simp [← hanswer] at hne

/-- A DELETE of a row of the second node, planned by the first. -/
def remotePlan : CommitPlan :=
  { deletePlan with participants := deletePlan.participants.delete nodeA }

/-- The Decide is still on its way when the answer is asked for. -/
def remoteRun : List Action :=
  [.start nodeA remotePlan, .prepare sampleTxn sampleEnv true, .deliverPrepare 0 sampleEnv,
   .collect sampleTxn .yes, .decideAll sampleTxn 1 (.ok ()), .broadcast sampleTxn 1 true]

theorem answers_complete_of_guarded_remoteRun :
    ∃ s, exec (step json sampleConfig) .init remoteRun = some s ∧
      s.verdict sampleTxn = some true ∧ AnswersComplete json s :=
  exists_run (by decide +kernel) fun s hs hv =>
    ⟨hv, answers_complete_of_guarded json sampleConfig remoteRun s (by decide +kernel) hs⟩

end Rdb.Dist
