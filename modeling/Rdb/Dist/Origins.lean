import Mathlib.Data.List.Perm.Subperm
import Rdb.Dist.Effects

/-!
# Where everything comes from

The coordinator asks every participant of its plan once, so a participant answers
at most one prepare of a transaction. Markers and the work of a sweep go back to
that answer, and so to the plan.

* `Tickets`: what a step does to the prepares of a transaction.
* `Origins.step`: the origins of markers, sweeps and runs are kept by every step.
-/

namespace Rdb.Dist

open Lib Sql Tx Participant List Function Cluster

variable {J : Serde} {cfg : Config} {s s' : Cluster} {a : Action}

/-! ## Prepares are answered once -/

variable {r : Run}

namespace Cluster

variable {s₁ : Cluster} {t : TxnId}

theorem outstanding_congr (hp : s₁.prepares = s.prepares) (hr : s₁.run t = s.run t) :
    s₁.outstanding t = s.outstanding t := by
  rw [outstanding, outstanding, unsent, unsent, hp, hr]

theorem outstanding_of_run (hr : s.run t = some r) :
    s.outstanding t = (s.prepares.filter (·.txnId = t)).map (·.target) ++ r.phase.unsent := by
  rw [outstanding, unsent, hr]
  rfl

end Cluster

variable {todo : List (Addr × ParticipantPlan)} {voted : List Addr} {veto : Option SqlError}
  {addr : Addr} {result : Except SqlError Unit}

theorem unsent_noted : (noted todo voted veto addr result).unsent = todo.map (·.1) := by
  cases result <;> rfl

inductive Tickets (s s' : Cluster) (t : TxnId) : Prop
  | less (ho : (s'.outstanding t).Subperm (s.outstanding t))
      (hp : ∀ n, (t, n) ∈ s'.prepared → (t, n) ∈ s.prepared)
  | answered {n : Addr} (ho : (n :: s'.outstanding t).Subperm (s.outstanding t))
      (hp : ∀ m, (t, m) ∈ s'.prepared → m = n ∨ (t, m) ∈ s.prepared)
  | start {node : Addr} {plan : CommitPlan} (hs : s.started t = none)
      (hs' : s'.started t = some (node, plan)) (hp : s'.prepared = s.prepared)
      (ho : s'.outstanding t = (s.prepares.filter (·.txnId = t)).map (·.target) ++
        plan.participants.entries.map (·.1))

variable {t : TxnId}

theorem tickets_of_same (hp : s'.prepares = s.prepares) (hr : s'.run t = s.run t)
    (hprep : ∀ n, (t, n) ∈ s'.prepared → (t, n) ∈ s.prepared) : Tickets s s' t :=
  .less (by rw [outstanding_congr hp hr]) hprep

theorem tickets_of_run {t₀ : TxnId} {r₀ : Run} (hr₀ : s.run t₀ = some r₀)
    (hr : s'.run = Function.update s.run t₀ (some r)) (hp : s'.prepares = s.prepares)
    (hprep : s'.prepared = s.prepared) (hun : r.phase.unsent.Sublist r₀.phase.unsent) :
    Tickets s s' t := by
  by_cases ht : t = t₀
  · subst ht
    refine .less ?_ fun n hn => hprep ▸ hn
    rw [outstanding_of_run hr₀, outstanding_of_run (by rw [hr, update_self]), hp]
    exact ((append_sublist_append_left _).mpr hun).subperm
  · exact tickets_of_same hp (by rw [hr, update_of_ne ht]) fun n hn => hprep ▸ hn

variable {n : Addr}

theorem mem_prepared_cons {t₀ : TxnId} {m : Addr} {l : List (TxnId × Addr)}
    (h : (t, m) ∈ (t₀, n) :: l) : t = t₀ ∧ m = n ∨ (t, m) ∈ l := by
  rcases mem_cons.mp h with heq | h
  · cases heq
    exact .inl ⟨rfl, rfl⟩
  · exact .inr h

theorem tickets_of_effect (hplan : PlansNamed s) (h : Effect J s a s') (t : TxnId) :
    Tickets s s' t := by
  cases h with
  | @start node plan _ hs =>
    by_cases ht : t = plan.txnId
    · subst ht
      have hrun : (s.start node plan).run plan.txnId =
          some ⟨node, plan, .preparing plan.participants.entries false [] none⟩ :=
        update_self ..
      exact .start hs (update_self ..) rfl (outstanding_of_run hrun)
    · exact tickets_of_same rfl (update_of_ne ht ..) fun _ => id
  | @ownVote t₀ _ node plan pp todo _ _ _ hr =>
    have hname : plan.txnId = t₀ := hplan t₀ _ hr
    by_cases ht : t = t₀
    · subst ht
      refine @Tickets.answered s _ t node ?_ fun m hm => ?_
      · rw [outstanding_of_run hr, outstanding_of_run (update_self ..), unsent_noted]
        exact perm_middle.symm.subperm
      · exact (mem_prepared_cons hm).imp And.right id
    · refine tickets_of_same rfl (update_of_ne ht ..) fun m hm => ?_
      exact (mem_prepared_cons hm).resolve_left fun h => ht (h.1.trans hname)
  | @send t₀ node addr plan pp todo _ _ hr =>
    have hname : plan.txnId = t₀ := hplan t₀ _ hr
    by_cases ht : t = t₀
    · subst ht
      refine .less ?_ fun _ => id
      rw [outstanding_of_run hr, outstanding_of_run (update_self ..)]
      have hp : ((plan.request addr pp :: s.prepares).filter (·.txnId = t)) =
          plan.request addr pp :: s.prepares.filter (·.txnId = t) :=
        filter_cons_of_pos (decide_eq_true hname)
      rw [hp]
      exact perm_middle.symm.subperm
    · refine .less ?_ fun _ => id
      have hp : ((plan.request addr pp :: s.prepares).filter (·.txnId = t)) =
          s.prepares.filter (·.txnId = t) :=
        filter_cons_of_neg (by simpa [CommitPlan.request, hname] using fun h => ht h.symm)
      rw [outstanding, outstanding, unsent, unsent]
      show ((filter _ (plan.request addr pp :: s.prepares)).map _ ++
        ((Function.update s.run t₀ _ t).map _).getD []).Subperm _
      rw [hp, update_of_ne ht]
  | @note t₀ node addr plan pp todo waiting _ _ _ hr =>
    refine tickets_of_run hr rfl rfl rfl ?_
    rw [unsent_noted]
    cases waiting with
    | false => exact sublist_cons_self ..
    | true => exact .refl _
  | @deliver i q _ _ hq =>
    obtain ⟨hi, hget⟩ := List.getElem?_eq_some_iff.mp hq
    have hperm : (q :: s.prepares.eraseIdx i).Perm s.prepares := by
      rw [← hget]
      exact getElem_cons_eraseIdx_perm hi
    have hfilter := (hperm.filter (·.txnId = t)).map (·.target)
    by_cases ht : t = q.txnId
    · refine @Tickets.answered s _ t q.target ?_ fun m hm => (mem_prepared_cons hm).imp And.right id
      rw [filter_cons_of_pos (by simpa using ht.symm)] at hfilter
      exact (hfilter.append_right (s.unsent t)).subperm
    · refine .less ?_ fun m hm => (mem_prepared_cons hm).resolve_left fun h => ht h.1
      rw [filter_cons_of_neg (by simpa using fun h => ht h.symm)] at hfilter
      exact (hfilter.append_right (s.unsent t)).subperm
  | decideAll _ hr => exact tickets_of_run hr rfl rfl rfl (nil_sublist _)
  | decideOwn hr | pass hr => exact tickets_of_run hr rfl rfl rfl (.refl _)
  | @crash n =>
    refine .less ?_ fun _ => id
    have hun : (s.crash n).unsent t = s.unsent t ∨ (s.crash n).unsent t = [] := by
      rw [unsent, unsent]
      show (((s.run t).filter _).map _).getD [] = _ ∨ (((s.run t).filter _).map _).getD [] = _
      cases s.run t with
      | none => exact .inl rfl
      | some r =>
        rw [Option.filter]
        split
        · exact .inl rfl
        · exact .inr rfl
    refine ((append_sublist_append_left _).mpr ?_).subperm
    rcases hun with hun | hun
    · rw [hun]
    · rw [hun]
      exact nil_sublist _
  | _ => exact tickets_of_same rfl rfl fun _ => id

/-! ## Origins -/

/-- A run in its prepare round has not decided and has an answer, or a veto, of every participant
it is done with; a run that broadcasts has. -/
def PhaseOk (s : Cluster) (t : TxnId) (r : Run) : Prop :=
  match r.phase with
  | .preparing todo _ voted veto => s.verdict t = none ∧
      ∀ n slice, r.plan.participants.get n = some slice →
        veto.isSome ∨ n ∈ voted ∨ n ∈ todo.map (·.1)
  | .broadcasting commit _ _ => s.verdict t = some commit

/-- The participants a run has before it or has heard of. -/
def Phase.addrs : Phase → List Addr
  | .preparing todo _ voted _ => voted ++ todo.map (·.1)
  | .broadcasting _ todo _ => todo

structure Origins (J : Serde) (s : Cluster) : Prop where
  runs : ∀ t r, s.run t = some r → s.started t = some (r.node, r.plan) ∧ PhaseOk s t r
  planned : ∀ t r, s.run t = some r → ∀ n ∈ r.phase.addrs, (r.plan.participants.get n).isSome
  named : ∀ t node plan, s.started t = some (node, plan) → plan.txnId = t
  fresh : ∀ t n, n ∈ s.outstanding t → s.Member t n ∧ (t, n) ∉ s.prepared
  nodup : ∀ t, (s.outstanding t).Nodup
  asked : ∀ t n, (t, n) ∈ s.prepared → s.Member t n
  held : ∀ t n, (readMarker J (s.store n) t).isSome → (t, n) ∈ s.prepared
  swept : ∀ n w, s.sweep n = some w → ∀ t ∈ w.txns, (t, n) ∈ s.prepared
  undecided : ∀ t, s.started t = none → s.verdict t = none

theorem Origins.plansNamed (h : Origins J s) : PlansNamed s := fun t r hr =>
  h.named t r.node r.plan (h.runs t r hr).1

section Step

variable (h : Origins J s) (he : Effect J s a s')

include he in
theorem started_mono {x : Addr × CommitPlan} (hs : s.started t = some x) :
    s'.started t = some x := by
  rcases started_of_effect he with heq | ⟨hnone, -⟩
  · exact heq.trans hs
  · rw [hs] at hnone
    cases hnone

include he in
theorem Cluster.Member.step (hm : s.Member t n) : s'.Member t n := by
  obtain ⟨node, plan, slice, hs, hg⟩ := hm
  exact ⟨node, plan, slice, started_mono he hs, hg⟩

include he in
theorem prepared_mono (hp : (t, n) ∈ s.prepared) : (t, n) ∈ s'.prepared := by
  cases he with
  | ownVote | deliver => exact mem_cons_of_mem _ hp
  | _ => exact hp

theorem SweepMove.txns {w : Sweep} (hm : SweepMove J s n w) (ht : t ∈ w.txns) :
    (readMarker J (s.store n) t).isSome ∨ ∃ w₀, s.sweep n = some w₀ ∧ t ∈ w₀.txns := by
  cases hm with
  | begin =>
    obtain ⟨⟨t', m⟩, hmem, rfl⟩ := mem_map.mp ht
    rw [readMarker_of_mem_markers hmem]
    exact .inl rfl
  | recorded hw | ask hw | definite hw | expire hw => exact .inr ⟨_, hw, ht⟩
  | @hear _ _ _ _ _ _ answer hw =>
    match answer with
    | none => exact .inr ⟨_, hw, ht⟩
    | some (false, _) => exact .inr ⟨_, hw, ht⟩
    | some (true, _) => exact .inr ⟨_, hw, ht⟩
  | keep hw => exact .inr ⟨_, hw, mem_cons_of_mem _ ht⟩

include h in
theorem Origins.no_ticket (hs : s.started t = none) :
    (s.prepares.filter (·.txnId = t)).map (·.target) = [] := by
  refine eq_nil_iff_forall_not_mem.mpr fun n hn => ?_
  obtain ⟨⟨node, plan, slice, hst, -⟩, -⟩ := h.fresh t n (mem_append_left _ hn)
  rw [hs] at hst
  cases hst

include h he in
theorem Origins.step_tickets (t : TxnId) :
    (s'.outstanding t).Nodup ∧ (∀ n ∈ s'.outstanding t, s'.Member t n ∧ (t, n) ∉ s'.prepared) ∧
      ∀ n, (t, n) ∈ s'.prepared → s'.Member t n := by
  cases tickets_of_effect h.plansNamed he t with
  | less ho hp =>
    refine ⟨?_, fun n hn => ?_, fun n hn => (h.asked t n (hp n hn)).step he⟩
    · obtain ⟨l, hl, hsub⟩ := ho
      exact hl.nodup_iff.mp ((h.nodup t).sublist hsub)
    · obtain ⟨hm, hnot⟩ := h.fresh t n (ho.subset hn)
      exact ⟨hm.step he, fun hp' => hnot (hp n hp')⟩
  | @answered m ho hp =>
    obtain ⟨l, hl, hsub⟩ := ho
    have hnodup : (m :: s'.outstanding t).Nodup := hl.nodup_iff.mp ((h.nodup t).sublist hsub)
    have hsubset : ∀ n ∈ m :: s'.outstanding t, n ∈ s.outstanding t := fun n hn =>
      hsub.subset (hl.symm.subset hn)
    refine ⟨(nodup_cons.mp hnodup).2, fun n hn => ?_, fun n hn => ?_⟩
    · obtain ⟨hm, hnot⟩ := h.fresh t n (hsubset n (mem_cons_of_mem _ hn))
      refine ⟨hm.step he, fun hp' => ?_⟩
      rcases hp n hp' with rfl | hp'
      · exact (nodup_cons.mp hnodup).1 hn
      · exact hnot hp'
    · rcases hp n hn with rfl | hn
      · exact (h.fresh t n (hsubset n mem_cons_self)).1.step he
      · exact (h.asked t n hn).step he
  | @start node plan hs hs' hp ho =>
    have hnone : ∀ n, (t, n) ∉ s.prepared := fun n hn => by
      obtain ⟨_, _, _, hst, -⟩ := h.asked t n hn
      rw [hs] at hst
      cases hst
    rw [h.no_ticket hs, nil_append] at ho
    rw [ho, hp]
    refine ⟨plan.participants.nodup_keys, fun n hn => ⟨?_, hnone n⟩,
      fun n hn => absurd hn (hnone n)⟩
    obtain ⟨e, hmem, rfl⟩ := mem_map.mp hn
    exact ⟨node, plan, e.2, hs', SortedMap.mem_entries.mp hmem⟩

theorem phaseOk_noted {node : Addr} {plan : CommitPlan} {pp : ParticipantPlan} {waiting : Bool}
    (hv : s'.verdict t = s.verdict t)
    (hok : PhaseOk s t ⟨node, plan, .preparing ((addr, pp) :: todo) waiting voted veto⟩) :
    PhaseOk s' t ⟨node, plan, noted todo voted veto addr result⟩ := by
  obtain ⟨hnone, hall⟩ := hok
  cases result with
  | ok =>
    refine ⟨hv.trans hnone, fun n slice hg => ?_⟩
    rcases hall n slice hg with hveto | hn | hn
    · exact .inl hveto
    · exact .inr (.inl (mem_append_left _ hn))
    · rcases mem_cons.mp hn with rfl | hn
      · exact .inr (.inl (mem_append_right _ mem_cons_self))
      · exact .inr (.inr hn)
  | error e =>
    refine ⟨hv.trans hnone, fun n slice hg => .inl ?_⟩
    cases veto <;> rfl

include h he in
theorem Origins.step_runs (hr : s'.run t = some r) :
    s'.started t = some (r.node, r.plan) ∧ PhaseOk s' t r := by
  cases run_of_effect he hr with
  | same hr hv =>
    obtain ⟨hs, hok⟩ := h.runs t r hr
    refine ⟨started_mono he hs, ?_⟩
    unfold PhaseOk at hok ⊢
    rwa [hv]
  | start hs _ hs' hv hr' =>
    subst hr'
    refine ⟨hs', hv.trans (h.undecided t hs), fun n slice hg => .inr (.inr ?_)⟩
    exact mem_map.mpr ⟨(n, slice), SortedMap.get_eq_some.mp hg, rfl⟩
  | send hold hv hr' =>
    subst hr'
    obtain ⟨hs, hnone, hall⟩ := h.runs t _ hold
    exact ⟨started_mono he hs, hv.trans hnone, hall⟩
  | note hold hv hr' =>
    subst hr'
    obtain ⟨hs, hok⟩ := h.runs t _ hold
    exact ⟨started_mono he hs, phaseOk_noted hv hok⟩
  | decide hold hv hr' =>
    subst hr'
    exact ⟨started_mono he (h.runs t _ hold).1, hv⟩
  | pass hold hv hr' =>
    subst hr'
    obtain ⟨hs, hok⟩ := h.runs t _ hold
    exact ⟨started_mono he hs, hv.trans hok⟩

theorem mem_addrs_noted (h : n ∈ (noted todo voted veto addr result).addrs) :
    n ∈ voted ∨ n = addr ∨ n ∈ todo.map (·.1) := by
  cases result with
  | ok =>
    rcases mem_append.mp h with h | h
    · exact (mem_append.mp h).imp id fun h => .inl (mem_singleton.mp h)
    · exact .inr (.inr h)
  | error => exact (mem_append.mp h).imp id .inr

include h he in
theorem Origins.step_planned (hr : s'.run t = some r) :
    ∀ n ∈ r.phase.addrs, (r.plan.participants.get n).isSome := by
  intro n hn
  cases run_of_effect he hr with
  | same hr => exact h.planned t r hr n hn
  | start _ _ _ _ hr' =>
    subst hr'
    obtain ⟨e, he, rfl⟩ := mem_map.mp hn
    exact Option.isSome_iff_exists.mpr ⟨e.2, SortedMap.mem_entries.mp he⟩
  | send hold _ hr' =>
    subst hr'
    exact h.planned t _ hold n hn
  | note hold _ hr' =>
    subst hr'
    refine h.planned t _ hold n ?_
    rcases mem_addrs_noted hn with hn | rfl | hn
    · exact mem_append_left _ hn
    · exact mem_append_right _ mem_cons_self
    · exact mem_append_right _ (mem_cons_of_mem _ hn)
  | decide hold _ hr' =>
    subst hr'
    exact h.planned t _ hold n (mem_append_left _ hn)
  | pass hold _ hr' =>
    subst hr'
    exact h.planned t _ hold n (mem_cons_of_mem _ hn)

include h he in
theorem Origins.step (hok : ClusterOk J s) : Origins J s' where
  runs _ _ hr := h.step_runs he hr
  planned _ _ hr := h.step_planned he hr
  named t node plan hs := by
    rcases started_of_effect he with heq | ⟨-, node₀, plan₀, -, ht, hs'⟩
    · exact h.named t node plan (heq.symm.trans hs)
    · cases hs'.symm.trans hs
      exact ht
  fresh t := (h.step_tickets he t).2.1
  nodup t := (h.step_tickets he t).1
  asked t := (h.step_tickets he t).2.2
  held t n hm := by
    rcases (store_of_effect hok h.plansNamed he n).marker hok hm with hm | ⟨-, hp⟩
    · exact prepared_mono he (h.held t n hm)
    · exact hp
  swept n w hw t ht := by
    refine prepared_mono he ?_
    rcases sweep_of_effect he hw with hw | hm | ⟨_, _, _, _, _, hold, rfl⟩
    · exact h.swept n w hw t ht
    · rcases hm.txns ht with hm | ⟨w₀, hw₀, ht₀⟩
      · exact h.held t n hm
      · exact h.swept n w₀ hw₀ t ht₀
    · exact h.swept n _ hold t (mem_cons_of_mem _ ht)
  undecided t hs := by
    have hs₀ : s.started t = none := by
      rcases started_of_effect he with heq | ⟨hnone, -⟩
      · exact heq.symm.trans hs
      · exact hnone
    rcases verdict_of_effect he with hv | ⟨_, _, _, _, _, _, _, -, hr, -⟩
    · exact hv.trans (h.undecided t hs₀)
    · rw [(h.runs t _ hr).1] at hs₀
      cases hs₀

end Step

theorem origins_init : Origins J .init where
  runs _ _ h := nomatch h
  planned _ _ h := nomatch h
  named _ _ _ h := nomatch h
  fresh _ _ h := nomatch h
  nodup _ := nodup_nil
  asked _ _ h := nomatch h
  held _ _ h := nomatch h
  swept _ _ h := nomatch h
  undecided _ _ := rfl

end Rdb.Dist
