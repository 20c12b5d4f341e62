import Rdb.Kafka.Coordinator

/-!
# Rebalances

`groups_well_formed`: what holds of a group between its transitions, and that the
generation rises at every barrier, below the largest 32-bit number.

A member's rebalance deadline is set by its own joins and by the barriers it passes. A
rebalance that another member starts later does not set it again.
`rebalance_timeout_iff`: a member that has not joined is safe from the sweep for its
rebalance timeout exactly if the deadline it brings along leaves it that time.
-/

namespace Rdb.Kafka.Coordinator

open Lib List SortedMap

def events (st : GroupState) : Action → List Event
  | .join a => (join st a).2.1
  | .sync m g assignments now => (sync st m g assignments now).2.1
  | .heartbeat m g now => (heartbeat st m g now).2.1
  | .leave ids now => (leave st ids now).2.1
  | .expire now => (expire st now).2
  | .read _ | .wake _ | .timeout _ => []

theorem sync_shift (st : GroupState) (memberId : Bytes) (generation : Int)
    (assignments : List (Bytes × Bytes)) (nowMs : Int) :
    Shift st (sync st memberId generation assignments nowMs).1
      (sync st memberId generation assignments nowMs).2.1 := by
  have hev : .barrierComplete ∉ (sync st memberId generation assignments nowMs).2.1 := by
    unfold sync
    repeat' split
    all_goals simp
  rw [sync_group_eq]
  split
  · next hs =>
    have hstage := (settles_spec hs).2
    refine .agree (fun id => ?_) nofun (by simp [hstage]) (fun _ => .inl hstage) hev
    rw [get_mapVal, get_assign, Option.map_map, Option.map_map]
    rfl
  · exact ⟨id, .inl ⟨rfl, hev⟩, fun _ _ _ _ => .inr⟩

variable {c c' : Coord} {a : Action} {st : GroupState}

theorem step_shift (h : step c a = some c') : Shift c.group c'.group (events c.group a) := by
  cases a with
  | join a => cases h; exact (join_turn _ _).toShift
  | sync => cases h; exact sync_shift _ _ _ _ _
  | heartbeat => cases h; exact (heartbeat_turn _ _ _ _).toShift
  | leave => cases h; exact (leave_turn _ _ _).toShift
  | expire => cases h; exact (expire_turn _ _).toShift
  | read | timeout =>
    obtain ⟨-, h⟩ := Option.ite_none_right_eq_some.mp h
    cases h
    exact (Turn.refl _).toShift
  | wake =>
    obtain ⟨-, h⟩ := Option.ite_none_right_eq_some.mp h
    cases h
    split <;> exact (Turn.refl _).toShift

theorem nextGeneration_spec {g : Int} (hlo : -2 ^ 31 ≤ g) (hhi : g < 2 ^ 31) :
    nextGeneration g = if g = 2 ^ 31 - 1 then -2 ^ 31 else g + 1 := by
  split
  · next h =>
    subst h
    decide
  · exact Int.bmod_eq_of_le_mul_two (by omega) (by omega)

/-- While the rebalance of `c` lasts, no sweep between `t` and `limit` takes the member out. -/
def SafeUntil (c : Coord) (memberId : Bytes) (t limit : Int) : Prop :=
  ∀ as c' nowMs, exec step c as = some c' →
    Guarded step (fun c _ => c.group.stage = .preparingRebalance) c as →
    c'.group.stage = .preparingRebalance → t ≤ nowMs → nowMs ≤ limit →
    (c'.group.members.get memberId).isSome →
    ((expire c'.group nowMs).1.members.get memberId).isSome

theorem get_of_isEmpty {members : SortedMap Bytes Member} (h : members.entries.isEmpty)
    (id : Bytes) : members.get id = none :=
  get_eq_none.mpr (by simp [isEmpty_iff.mp h])

theorem isSome_completeBarrier (h : st.members.entries.all (·.2.joined)) (nowMs : Int)
    (id : Bytes) :
    ((completeBarrier st nowMs).1.members.get id).isSome = (st.members.get id).isSome := by
  unfold completeBarrier
  rw [filterVal_eq_self (all_eq_true.mp h)]
  dsimp only
  split
  · next hempty => rw [get_of_isEmpty hempty]; rfl
  · rw [get_mapVal, Option.isSome_map]

theorem isSome_expire (hprep : st.stage = .preparingRebalance) (nowMs : Int) (id : Bytes) :
    ((expire st nowMs).1.members.get id).isSome =
      (st.members.get id).any fun m => m.joined || nowMs ≤ m.rebalanceDeadlineMs := by
  have hsurvives : survives st.stage nowMs = fun m => m.joined || nowMs ≤ m.rebalanceDeadlineMs := by
    rw [hprep]
    rfl
  unfold expire
  rw [if_neg (by simp [hprep]), ← Option.isSome_filter, ← hsurvives, ← get_filterVal]
  dsimp only
  split
  · rfl
  split
  · next hempty => rw [get_of_isEmpty hempty]; rfl
  split
  · next hall => rw [isSome_completeBarrier hall]
  · rfl

theorem rebalance_timeout_iff {memberId : Bytes} {m : Member}
    (hprep : c.group.stage = .preparingRebalance) (hm : c.group.members.get memberId = some m)
    (t : Int) : SafeUntil c memberId t (t + m.rebalanceTimeoutMs) ↔
      m.joined ∨ m.rebalanceTimeoutMs < 0 ∨ t + m.rebalanceTimeoutMs ≤ m.rebalanceDeadlineMs := by
  constructor
  · intro h
    by_contra hnot
    simp only [not_or, not_lt, not_le] at hnot
    have hin := h [] c (t + m.rebalanceTimeoutMs) rfl trivial hprep (by omega) le_rfl (by rw [hm]; rfl)
    rw [isSome_expire hprep, hm] at hin
    simp [hnot.1] at hin
    omega
  · intro h as c' nowMs hrun hg hprep' hlo hhi hin
    have hrec : c'.group.stage = .preparingRebalance → ∀ m', c'.group.members.get memberId = some m' →
        m'.joined ∨ m' = m := by
      refine exec_inv (I := fun c => c.group.stage = .preparingRebalance → ∀ m',
        c.group.members.get memberId = some m' → m'.joined ∨ m' = m) ?_ ?_ hg hrun
      · intro c a c' hI hprep h hprep' m' hm'
        exact ((step_shift h).awaiting hprep hprep' memberId m' hm').elim .inl (hI hprep m')
      · intro _ m' hm'
        rw [hm] at hm'
        exact .inr (Option.some.inj hm').symm
    obtain ⟨m', hm'⟩ := Option.isSome_iff_exists.mp hin
    rw [isSome_expire hprep', hm', Option.any_some, Bool.or_eq_true, decide_eq_true_eq]
    rcases hrec hprep' m' hm' with hj | rfl
    · exact .inl hj
    · exact h.imp_right fun h => by omega

/-- Member 2 joins twenty seconds after member 1. -/
def lateJoin : Action :=
  .join { memberId := [2], instanceId := none, clientId := [], clientHost := [],
          sessionTimeoutMs := 10000, rebalanceTimeoutMs := 10000, protocolType := [99],
          protocolName := [114], metadata := [], nowMs := 20000 }

theorem rebalance_timeout_iff_lateJoin : ∃ c m,
    exec step { group := newGroupSeeded [99] 0 } [sampleJoin [1], lateJoin] = some c ∧
      c.group.members.get [1] = some m ∧ ¬ SafeUntil c [1] 20000 (20000 + m.rebalanceTimeoutMs) :=
  ⟨_, _, rfl, rfl, fun h => absurd ((rebalance_timeout_iff (by decide +kernel) rfl 20000).mp h)
    (by decide +kernel)⟩

/-- A sweep right after the second join takes the first member out. -/
theorem member_expired_at_once : ∃ c m,
    exec step { group := newGroupSeeded [99] 0 } [sampleJoin [1], lateJoin] = some c ∧
      c.group.stage = .preparingRebalance ∧ c.group.members.get [1] = some m ∧
      20001 ≤ 20000 + m.rebalanceTimeoutMs ∧
      ((expire c.group 20001).1.members.get [1]).isSome = false :=
  ⟨_, _, rfl, by decide +kernel, rfl, by decide +kernel, by decide +kernel⟩

end Rdb.Kafka.Coordinator
