import Rdb.Lib.SortedMap
import Rdb.Lib.Bytes
import Rdb.Lib.Run

/-!
# The group coordinator

A group runs the classic rebalance: joins gather at a barrier, the barrier elects the
oldest joiner and opens a generation, the leader's SyncGroup settles it. Assignments
live in the member records. A barrier keeps them, and the leader's call overwrites
only those of the members it names, so a member it leaves out keeps what an earlier
generation gave it. A SyncGroup whose transition succeeded reads its record in a
second step, under another lock.

`syncReply_current`: when the leader names every member that still holds an assignment
and the second step finds the generation still settled, an answer without error is what
the leader of that generation supplied.
-/

namespace Rdb.Kafka.Coordinator

open Lib List SortedMap Option

/-! ## Group state -/

inductive GroupStage where
  | empty
  | preparingRebalance
  | completingSync
  | stable
  | dead
  deriving DecidableEq

/-- Deadlines are in milliseconds; `joinGen` is the generation of the member's last JoinGroup
reply. -/
structure Member where
  sessionTimeoutMs : Int
  rebalanceTimeoutMs : Int
  clientId : Bytes
  clientHost : Bytes
  instanceId : Option Bytes
  protocolName : Bytes
  metadata : Bytes
  assignment : Bytes
  sessionDeadlineMs : Int
  rebalanceDeadlineMs : Int
  joined : Bool
  joinGen : Int

structure GroupState where
  stage : GroupStage
  generation : Int
  protocolType : Bytes
  protocolName : Option Bytes
  leader : Bytes
  members : SortedMap Bytes Member
  /-- Member ids, oldest joiner first. -/
  order : List Bytes

inductive Event where
  | barrierComplete
  | syncReady
  | rebalanceKicked
  | groupEmpty
  deriving DecidableEq

/-- Generations are 32-bit numbers. -/
def nextGeneration (g : Int) : Int := (g + 1).bmod (2 ^ 32)

def newGroupSeeded (protocolType : Bytes) (generation : Int) : GroupState :=
  { stage := .empty, generation, protocolType, protocolName := none, leader := [],
    members := .empty, order := [] }

def toEmpty (st : GroupState) : GroupState :=
  { st with stage := .empty, generation := nextGeneration st.generation, leader := [],
            protocolName := none, members := .empty, order := [] }

/-! ## Transitions -/

structure JoinArgs where
  memberId : Bytes
  instanceId : Option Bytes
  clientId : Bytes
  clientHost : Bytes
  sessionTimeoutMs : Int
  rebalanceTimeoutMs : Int
  protocolType : Bytes
  protocolName : Bytes
  metadata : Bytes
  nowMs : Int

inductive JoinOutcome where
  | needMemberId
  | fencedInstanceId
  | inconsistentProtocol
  | waiting
  | joined (isLeader : Bool)

def unjoined (m : Member) : Member := { m with joined := false }

def kick (st : GroupState) : GroupState :=
  { st with stage := .preparingRebalance, protocolName := none,
            members := st.members.mapVal unjoined }

def retainOrder (members : SortedMap Bytes Member) (order : List Bytes) : List Bytes :=
  order.filter fun id => (members.get id).isSome

/-- Close the barrier over the members that rejoined. -/
def completeBarrier (st : GroupState) (nowMs : Int) : GroupState × List Event :=
  let members := st.members.filterVal (·.joined)
  let order := retainOrder members st.order
  if members.entries.isEmpty then (toEmpty st, [.groupEmpty])
  else
    let generation := nextGeneration st.generation
    let leader := order.headD []
    ({ st with
        stage := .completingSync, generation, leader,
        protocolName := (members.get leader).map (·.protocolName),
        members := members.mapVal fun m =>
          { m with joined := false, joinGen := generation,
                   sessionDeadlineMs := nowMs + m.sessionTimeoutMs,
                   rebalanceDeadlineMs := nowMs + m.rebalanceTimeoutMs },
        order },
      [.barrierComplete])

/-- What a JoinGroup writes into the record of a known member, and of a new one. -/
def joinMember (a : JoinArgs) (generation : Int) : Option Member → Member
  | some m =>
    { m with
      sessionTimeoutMs := a.sessionTimeoutMs, rebalanceTimeoutMs := a.rebalanceTimeoutMs,
      clientId := a.clientId, clientHost := a.clientHost, instanceId := a.instanceId,
      protocolName := a.protocolName, metadata := a.metadata,
      sessionDeadlineMs := a.nowMs + a.sessionTimeoutMs,
      rebalanceDeadlineMs := a.nowMs + a.rebalanceTimeoutMs, joined := true }
  | none =>
    { sessionTimeoutMs := a.sessionTimeoutMs, rebalanceTimeoutMs := a.rebalanceTimeoutMs,
      clientId := a.clientId, clientHost := a.clientHost, instanceId := a.instanceId,
      protocolName := a.protocolName, metadata := a.metadata, assignment := [],
      sessionDeadlineMs := a.nowMs + a.sessionTimeoutMs,
      rebalanceDeadlineMs := a.nowMs + a.rebalanceTimeoutMs, joined := true,
      joinGen := generation }

/-- Another member holds the instance id of the call. -/
def fenced (st : GroupState) (a : JoinArgs) : Bool :=
  match a.instanceId with
  | none => false
  | some x =>
    ((st.members.get a.memberId).bind (·.instanceId) ≠ some x) &&
      st.members.entries.any fun e => e.2.instanceId == some x

/-- A settled or settling group goes back to the barrier, an empty one opens it. -/
def openBarrier (st : GroupState) (a : JoinArgs) : GroupState × List Event :=
  match st.stage with
  | .stable | .completingSync => (kick st, [.rebalanceKicked])
  | .empty => ({ st with stage := .preparingRebalance, protocolType := a.protocolType }, [])
  | .preparingRebalance | .dead => (st, [])

def join (st : GroupState) (a : JoinArgs) : GroupState × List Event × JoinOutcome :=
  if a.memberId.isEmpty then (st, [], .needMemberId)
  else if fenced st a then (st, [], .fencedInstanceId)
  else if !st.protocolType.isEmpty && st.protocolType ≠ a.protocolType then
    (st, [], .inconsistentProtocol)
  else
    let (st, events) := openBarrier st a
    let known := st.members.get a.memberId
    let st := { st with
      members := st.members.put a.memberId (joinMember a st.generation known),
      order := if known.isSome then st.order else st.order ++ [a.memberId] }
    if st.members.entries.all (·.2.joined) then
      let isLeader := st.order.head? = some a.memberId
      let (st, ev) := completeBarrier st a.nowMs
      (st, events ++ ev, .joined isLeader)
    else (st, events, .waiting)

inductive SyncOutcome where
  | ok
  | waiting
  | unknownMember
  | illegalGeneration
  | rebalance
  deriving DecidableEq

/-- The leader's list, applied pair by pair to the records it names. -/
def assign (members : SortedMap Bytes Member) (assignments : List (Bytes × Bytes)) :
    SortedMap Bytes Member :=
  assignments.foldl (fun ms a => match ms.get a.1 with
    | some m => ms.put a.1 { m with assignment := a.2 }
    | none => ms) members

def sync (st : GroupState) (memberId : Bytes) (generation : Int)
    (assignments : List (Bytes × Bytes)) (nowMs : Int) : GroupState × List Event × SyncOutcome :=
  match st.members.get memberId with
  | none => (st, [], .unknownMember)
  | some m =>
    if generation ≠ st.generation ∨ m.joinGen ≠ st.generation then (st, [], .illegalGeneration)
    else match st.stage with
      | .preparingRebalance => (st, [], .rebalance)
      | .stable => (st, [], .ok)
      | .completingSync =>
        if st.leader ≠ memberId then (st, [], .waiting)
        else
          ({ st with
              stage := .stable,
              members := (assign st.members assignments).mapVal fun m =>
                { m with sessionDeadlineMs := nowMs + m.sessionTimeoutMs } },
            [.syncReady], .ok)
      | .empty | .dead => (st, [], .unknownMember)

inductive ErrorCode where
  | none
  | illegalGeneration
  | unknownMemberId
  | rebalanceInProgress
  deriving DecidableEq

def heartbeat (st : GroupState) (memberId : Bytes) (generation nowMs : Int) :
    GroupState × List Event × ErrorCode :=
  match st.members.get memberId with
  | .none => (st, [], .unknownMemberId)
  | some m =>
    if generation ≠ st.generation then (st, [], .illegalGeneration)
    else if st.stage = .preparingRebalance then (st, [], .rebalanceInProgress)
    else
      let m := { m with sessionDeadlineMs := nowMs + m.sessionTimeoutMs }
      ({ st with members := st.members.put memberId m }, [], .none)

/-- Take the named members out; one code for each, and whether one was there. -/
def removeMembers (st : GroupState) : List Bytes → GroupState × List ErrorCode × Bool
  | [] => (st, [], false)
  | id :: ids =>
    if (st.members.get id).isSome then
      let (st, codes, _) := removeMembers
        { st with members := st.members.delete id, order := st.order.filter (· ≠ id) } ids
      (st, .none :: codes, true)
    else
      let (st, codes, removed) := removeMembers st ids
      (st, .unknownMemberId :: codes, removed)

def leave (st : GroupState) (memberIds : List Bytes) (nowMs : Int) :
    GroupState × List Event × List ErrorCode :=
  let (st, codes, removed) := removeMembers st memberIds
  if !removed then (st, [], codes)
  else if st.members.entries.isEmpty then (toEmpty st, [.groupEmpty], codes)
  else if st.stage = .preparingRebalance then
    if st.members.entries.all (·.2.joined) then
      let (st, events) := completeBarrier st nowMs
      (st, events, codes)
    else (st, [.rebalanceKicked], codes)
  else (kick st, [.rebalanceKicked], codes)

/-- The members a sweep keeps: until a deadline has strictly passed. -/
def survives (stage : GroupStage) (nowMs : Int) (m : Member) : Bool :=
  if stage = .preparingRebalance then m.joined || nowMs ≤ m.rebalanceDeadlineMs
  else nowMs ≤ m.sessionDeadlineMs

def expire (st : GroupState) (nowMs : Int) : GroupState × List Event :=
  if st.stage = .empty ∨ st.stage = .dead then (st, [])
  else
    let members := st.members.filterVal (survives st.stage nowMs)
    let kept := { st with members, order := retainOrder members st.order }
    if members.entries.length = st.members.entries.length then (kept, [])
    else if members.entries.isEmpty then (toEmpty kept, [.groupEmpty])
    else if st.stage = .preparingRebalance then
      if members.entries.all (·.2.joined) then completeBarrier kept nowMs
      else (kept, [.rebalanceKicked])
    else (kick kept, [.rebalanceKicked])

/-! ## SyncGroup calls -/

structure SyncReply where
  error : ErrorCode
  assignment : Bytes
  deriving DecidableEq

def refuse (code : ErrorCode) : SyncReply := ⟨code, []⟩

abbrev Call := Bytes × Int

/-- The group with its calls in flight. `reading` have passed the transition and have still to
read their record, `parked` wait for the leader. `settled` is the history: the list that settled
a generation, the latest first. -/
structure Coord where
  group : GroupState
  reading : List Call := []
  parked : List Call := []
  settled : List (Int × List (Bytes × Bytes)) := []

inductive Action where
  | join (a : JoinArgs)
  | sync (memberId : Bytes) (generation : Int) (assignments : List (Bytes × Bytes)) (nowMs : Int)
  | heartbeat (memberId : Bytes) (generation nowMs : Int)
  | leave (memberIds : List Bytes) (nowMs : Int)
  | expire (nowMs : Int)
  /-- A call that passed its transition reads its record. -/
  | read (call : Call)
  /-- A parked call looks at the group again. -/
  | wake (call : Call)
  /-- A parked call reaches its deadline. -/
  | timeout (call : Call)

def settles (st : GroupState) (memberId : Bytes) (generation : Int) : Bool :=
  match st.members.get memberId with
  | none => false
  | some m => generation = st.generation && m.joinGen = st.generation &&
      st.stage = .completingSync && st.leader = memberId

/-- What a parked call finds; `none` is to wait on. -/
def resolve (st : GroupState) (call : Call) : Option SyncReply :=
  match st.members.get call.1 with
  | none => some (refuse .unknownMemberId)
  | some m =>
    if call.2 ≠ st.generation ∨ m.joinGen ≠ st.generation then some (refuse .illegalGeneration)
    else match st.stage with
      | .stable => some ⟨.none, m.assignment⟩
      | .preparingRebalance => some (refuse .rebalanceInProgress)
      | .completingSync | .empty | .dead => none

/-- What the second step of a successful call answers. -/
def readReply (st : GroupState) (call : Call) : SyncReply :=
  match st.members.get call.1 with
  | some m => ⟨.none, m.assignment⟩
  | none => refuse .unknownMemberId

/-- The SyncGroup answer a step sends, if it sends one. -/
def reply (c : Coord) : Action → Option (Call × SyncReply)
  | .sync m g assignments now => match (sync c.group m g assignments now).2.2 with
    | .ok | .waiting => none
    | .unknownMember => some ((m, g), refuse .unknownMemberId)
    | .illegalGeneration => some ((m, g), refuse .illegalGeneration)
    | .rebalance => some ((m, g), refuse .rebalanceInProgress)
  | .read call => if call ∈ c.reading then some (call, readReply c.group call) else none
  | .wake call => if call ∈ c.parked then (resolve c.group call).map fun r => (call, r) else none
  | .timeout call => if call ∈ c.parked then some (call, refuse .rebalanceInProgress) else none
  | .join _ | .heartbeat .. | .leave .. | .expire _ => none

def step (c : Coord) : Action → Option Coord
  | .join a => some { c with group := (join c.group a).1 }
  | .heartbeat m g now => some { c with group := (heartbeat c.group m g now).1 }
  | .leave ids now => some { c with group := (leave c.group ids now).1 }
  | .expire now => some { c with group := (expire c.group now).1 }
  | .sync m g assignments now =>
    let (st, _, outcome) := sync c.group m g assignments now
    some { c with
      group := st
      reading := if outcome = .ok then c.reading ++ [(m, g)] else c.reading
      parked := if outcome = .waiting then c.parked ++ [(m, g)] else c.parked
      settled := if settles c.group m g then (g, assignments) :: c.settled else c.settled }
  | .read call =>
    if call ∈ c.reading then some { c with reading := c.reading.erase call } else none
  | .wake call =>
    if call ∈ c.parked then
      some (if (resolve c.group call).isSome then { c with parked := c.parked.erase call } else c)
    else none
  | .timeout call =>
    if call ∈ c.parked then some { c with parked := c.parked.erase call } else none

/-! ## What a transition does -/

/-- The join order lists the members, each once. -/
structure Listed (members : SortedMap Bytes Member) (order : List Bytes) : Prop where
  nodup : order.Nodup
  mem : ∀ id, id ∈ order ↔ (members.get id).isSome

/-- From the barrier on, the leader is a member and all members are of the generation; before it,
a member has still to join. -/
structure WellFormed (st : GroupState) : Prop where
  listed : Listed st.members st.order
  led : st.stage = .completingSync ∨ st.stage = .stable →
    (st.members.get st.leader).isSome ∧
      ∀ id m, st.members.get id = some m → m.joinGen = st.generation
  awaited : st.stage = .preparingRebalance → ∃ id m, st.members.get id = some m ∧ m.joined = false

/-- A transition: before the barrier, a record changes by a join only. -/
structure Shift (st st' : GroupState) (events : List Event) : Prop where
  wellFormed : WellFormed st → WellFormed st'
  generation : st'.generation = st.generation ∧ .barrierComplete ∉ events ∨
    st'.generation = nextGeneration st.generation
  awaiting : st.stage = .preparingRebalance → st'.stage = .preparingRebalance →
    ∀ id m', st'.members.get id = some m' → m'.joined ∨ st.members.get id = some m'

/-- A transition that does not settle the group: when it is settled it was so before, in the same
generation, and no record took an assignment. -/
structure Turn (st st' : GroupState) (events : List Event) : Prop extends Shift st st' events where
  settled : st'.stage = .stable → st.stage = .stable ∧ st'.generation = st.generation ∧
    ∀ id m', st'.members.get id = some m' →
      ∃ m, st.members.get id = some m ∧ m'.assignment = m.assignment

variable {st st' : GroupState} {events : List Event} {members : SortedMap Bytes Member}
  {order : List Bytes}

theorem Turn.refl (st : GroupState) : Turn st st [] :=
  ⟨⟨id, .inl ⟨rfl, nofun⟩, fun _ _ _ _ => .inr⟩, fun h => ⟨h, rfl, fun _ m hm => ⟨m, hm, rfl⟩⟩⟩

/-- Records that change without their generations, from the barrier on. -/
theorem Shift.agree {stage : GroupStage}
    (hget : ∀ id, (members.get id).map (·.joinGen) = (st.members.get id).map (·.joinGen))
    (hstage : stage ≠ .preparingRebalance) (hold : st.stage ≠ .preparingRebalance)
    (hled : stage = .completingSync ∨ stage = .stable →
      st.stage = .completingSync ∨ st.stage = .stable) (hev : .barrierComplete ∉ events) :
    Shift st { st with stage, members } events := by
  have hmem : ∀ id, (members.get id).isSome = (st.members.get id).isSome := fun id => by
    simpa using congrArg Option.isSome (hget id)
  refine ⟨fun hw => ⟨⟨hw.listed.nodup, fun id => hmem id ▸ hw.listed.mem id⟩, fun h =>
    ⟨(hmem _).trans (hw.led (hled h)).1, fun id m hm => ?_⟩, fun h => absurd h hstage⟩,
    .inl ⟨rfl, hev⟩, fun h => absurd h hold⟩
  obtain ⟨m₀, hm₀, heq⟩ := map_eq_some_iff.mp ((hget id).symm.trans (congrArg _ hm))
  exact heq.symm.trans ((hw.led (hled h)).2 id m₀ hm₀)

theorem Listed.mapVal (h : Listed members order) (f : Member → Member) :
    Listed (members.mapVal f) order :=
  ⟨h.nodup, fun id => by rw [get_mapVal, Option.isSome_map]; exact h.mem id⟩

theorem get_of_filterVal {p : Member → Bool} {id : Bytes} {m : Member}
    (h : (members.filterVal p).get id = some m) : members.get id = some m := by
  rw [get_filterVal] at h
  exact (filter_eq_some_iff.mp h).1

theorem Listed.put (h : Listed members order) (id : Bytes) (m : Member) :
    Listed (members.put id m) (if (members.get id).isSome then order else order ++ [id]) := by
  have hmem := h.mem
  have hnodup := h.nodup
  exact ⟨by grind [nodup_append], by grind [get_put]⟩

theorem Listed.delete (h : Listed members order) (id : Bytes) :
    Listed (members.delete id) (order.filter (· ≠ id)) := by
  have hmem := h.mem
  exact ⟨h.nodup.filter _, by grind [get_delete]⟩

theorem Listed.retain (h : Listed members order) (p : Member → Bool) :
    Listed (members.filterVal p) (retainOrder (members.filterVal p) order) := by
  refine ⟨h.nodup.filter _, fun id => ?_⟩
  rw [retainOrder, mem_filter, h.mem, and_iff_right_iff_imp]
  intro hid
  obtain ⟨m, hm⟩ := isSome_iff_exists.mp hid
  rw [get_of_filterVal hm]
  rfl

theorem filterVal_eq_self {p : Member → Bool} (h : ∀ e ∈ members.entries, p e.2) :
    members.filterVal p = members :=
  ext fun id => congrArg (lookupL id) (filter_eq_self.mpr h)

theorem exists_get_of_not_isEmpty (h : ¬ members.entries.isEmpty) :
    ∃ id m, members.get id = some m := by
  obtain ⟨e, he⟩ := exists_mem_of_ne_nil _ (mt isEmpty_iff.mpr h)
  exact ⟨e.1, e.2, mem_entries.mp he⟩

/-- Members go, with their places in the order; nothing changes when none of them was there. -/
theorem removeMembers_spec (st : GroupState) (ids : List Bytes) :
    (removeMembers st ids).1.stage = st.stage ∧
    (removeMembers st ids).1.generation = st.generation ∧
    (Listed st.members st.order →
      Listed (removeMembers st ids).1.members (removeMembers st ids).1.order) ∧
    (∀ id m, (removeMembers st ids).1.members.get id = some m → st.members.get id = some m) ∧
    ((removeMembers st ids).2.2 = false → (removeMembers st ids).1 = st) := by
  induction ids generalizing st with
  | nil => exact ⟨rfl, rfl, id, fun _ _ => id, fun _ => rfl⟩
  | cons id ids ih =>
    unfold removeMembers
    split
    · obtain ⟨hstage, hgen, hl, hm, -⟩ := ih { st with
        members := st.members.delete id, order := st.order.filter (· ≠ id) }
      exact ⟨hstage, hgen, fun h => hl (h.delete id), by grind [get_delete], nofun⟩
    · exact ih st

section

variable (hgen : st'.generation = st.generation)

include hgen

theorem Turn.toEmpty : Turn st (toEmpty st') events :=
  ⟨⟨fun _ => ⟨⟨.nil, by simp [Coordinator.toEmpty]⟩, nofun, nofun⟩, .inr (by rw [← hgen]; rfl),
    nofun⟩, nofun⟩

variable (hl : WellFormed st → Listed st'.members st'.order)

include hl

theorem Turn.completeBarrier (nowMs : Int) : Turn st (completeBarrier st' nowMs).1 events := by
  unfold Coordinator.completeBarrier
  dsimp only
  split
  · exact .toEmpty hgen
  next hne =>
  refine ⟨⟨fun hw => ?_, .inr (by rw [← hgen]), nofun⟩, nofun⟩
  have hf := (hl hw).retain (·.joined)
  refine ⟨?_, fun _ => ⟨?_, fun id m hm => ?_⟩, nofun⟩
  · dsimp only
    exact hf.mapVal _
  · obtain ⟨id, m, hm⟩ := exists_get_of_not_isEmpty hne
    have hmem := (hf.mem id).mpr (by rw [hm]; rfl)
    rw [get_mapVal, Option.isSome_map, ← hf.mem]
    cases horder : retainOrder (st'.members.filterVal (·.joined)) st'.order with
    | nil => rw [horder] at hmem; cases hmem
    | cons => exact mem_cons_self
  · rw [get_mapVal] at hm
    obtain ⟨m', -, rfl⟩ := map_eq_some_iff.mp hm
    rfl

theorem Turn.kick (hne : ¬ st'.members.entries.isEmpty)
    (hstage : st.stage ≠ .preparingRebalance) : Turn st (kick st') [.rebalanceKicked] := by
  refine ⟨⟨fun hw => ⟨(hl hw).mapVal _, nofun, fun _ => ?_⟩, .inl ⟨hgen, nofun⟩,
    fun h => absurd h hstage⟩, nofun⟩
  obtain ⟨id, m, hm⟩ := exists_get_of_not_isEmpty hne
  exact ⟨id, unjoined m, by rw [Coordinator.kick, get_mapVal, hm]; rfl, rfl⟩

/-- A member has still to join. -/
theorem Turn.wait (hstage : st'.stage ≠ .stable ∧ st'.stage ≠ .completingSync)
    (hall : ¬ st'.members.entries.all (·.2.joined)) (hev : .barrierComplete ∉ events)
    (haw : st.stage = .preparingRebalance → ∀ id m', st'.members.get id = some m' →
      m'.joined ∨ st.members.get id = some m') : Turn st st' events := by
  refine ⟨⟨fun hw => ⟨hl hw, fun h => ?_, fun _ => ?_⟩, .inl ⟨hgen, hev⟩, fun h _ => haw h⟩,
    fun h => absurd h hstage.1⟩
  · exact (h.elim hstage.2 hstage.1).elim
  · simp only [List.all_eq_true, not_forall] at hall
    obtain ⟨e, he, hj⟩ := hall
    exact ⟨e.1, e.2, mem_entries.mp he, Bool.not_eq_true _ ▸ hj⟩

end

theorem openBarrier_spec (st : GroupState) (a : JoinArgs) :
    ((openBarrier st a).1.stage ≠ .stable ∧ (openBarrier st a).1.stage ≠ .completingSync) ∧
    (openBarrier st a).1.generation = st.generation ∧ .barrierComplete ∉ (openBarrier st a).2 ∧
    (Listed st.members st.order →
      Listed (openBarrier st a).1.members (openBarrier st a).1.order) ∧
    (st.stage = .preparingRebalance → (openBarrier st a).1 = st) := by
  unfold openBarrier
  cases hs : st.stage with
  | stable | completingSync =>
    exact ⟨⟨nofun, nofun⟩, rfl, by simp, fun h => h.mapVal unjoined, nofun⟩
  | empty => exact ⟨⟨nofun, nofun⟩, rfl, nofun, id, nofun⟩
  | preparingRebalance | dead => exact ⟨by simp [hs], rfl, nofun, id, fun _ => rfl⟩

theorem join_turn (st : GroupState) (a : JoinArgs) : Turn st (join st a).1 (join st a).2.1 := by
  unfold join
  split
  · exact .refl st
  split
  · exact .refl st
  split
  · exact .refl st
  obtain ⟨hstage, hgen, hev, hl, hsame⟩ := openBarrier_spec st a
  generalize openBarrier st a = opened at hstage hgen hev hl hsame ⊢
  obtain ⟨st₁, events⟩ := opened
  dsimp only at hstage hgen hev hl hsame ⊢
  have hlisted := fun hw : WellFormed st => (hl hw.listed).put a.memberId
    (joinMember a st₁.generation (st₁.members.get a.memberId))
  split
  · refine .completeBarrier ?_ hlisted _
    exact hgen
  · next hall =>
    refine .wait ?_ hlisted hstage hall hev fun hprep id m' hm' => ?_
    · exact hgen
    rw [get_put, hsame hprep] at hm'
    split at hm'
    · cases hm'
      cases st.members.get a.memberId <;> exact .inl rfl
    · exact .inr hm'

theorem heartbeat_turn (st : GroupState) (memberId : Bytes) (generation nowMs : Int) :
    Turn st (heartbeat st memberId generation nowMs).1
      (heartbeat st memberId generation nowMs).2.1 := by
  unfold heartbeat
  cases hget : st.members.get memberId with
  | none => exact .refl st
  | some m =>
    dsimp only
    split
    · exact .refl st
    split
    · exact .refl st
    next hstage =>
    refine ⟨.agree (fun id => ?_) hstage hstage id nofun, fun h => ⟨h, rfl, fun id m' hm' => ?_⟩⟩
    · grind [get_put]
    · grind [get_put]

theorem leave_turn (st : GroupState) (memberIds : List Bytes) (nowMs : Int) :
    Turn st (leave st memberIds nowMs).1 (leave st memberIds nowMs).2.1 := by
  unfold leave
  obtain ⟨hstage, hgen, hl, hm, hnone⟩ := removeMembers_spec st memberIds
  generalize removeMembers st memberIds = out at hstage hgen hl hm hnone ⊢
  obtain ⟨st₁, codes, removed⟩ := out
  dsimp only at hstage hgen hl hm hnone ⊢
  split
  · next h =>
    rw [hnone (by simpa using h)]
    exact .refl st
  split
  · exact .toEmpty hgen
  next hne =>
  split
  · next hprep =>
    split
    · exact .completeBarrier hgen (fun hw => hl hw.listed) _
    · next hall =>
      exact .wait hgen (fun hw => hl hw.listed) (by simp [hprep]) hall (by simp)
        fun _ id m' h => .inr (hm id m' h)
  · next hprep =>
    exact .kick hgen (fun hw => hl hw.listed) hne (hstage ▸ hprep)

theorem expire_turn (st : GroupState) (nowMs : Int) :
    Turn st (expire st nowMs).1 (expire st nowMs).2 := by
  unfold expire
  split
  · exact .refl st
  dsimp only
  have hl := fun hw : WellFormed st => hw.listed.retain (survives st.stage nowMs)
  split
  · next hlen =>
    rw [filterVal_eq_self (length_filter_eq_length_iff.mp hlen)] at hl ⊢
    exact ⟨⟨fun hw => ⟨hl hw, hw.led, hw.awaited⟩, .inl ⟨rfl, nofun⟩, fun _ _ _ _ => .inr⟩,
      fun h => ⟨h, rfl, fun _ m hm => ⟨m, hm, rfl⟩⟩⟩
  split
  · exact .toEmpty rfl
  next hne =>
  split
  · next hprep =>
    split
    · refine .completeBarrier ?_ hl _
      rfl
    · next hall =>
      exact .wait rfl hl (by simp [hprep]) hall (by simp) fun _ id m' h => .inr (get_of_filterVal h)
  · next hprep => exact .kick rfl hl hne hprep

/-! ## The leader's list -/

def lastFor (assignments : List (Bytes × Bytes)) (memberId : Bytes) : Option Bytes :=
  (assignments.reverse.find? fun a => a.1 = memberId).map (·.2)

/-- What the list gives a member: nothing when it does not name it. -/
def assignmentOf (assignments : List (Bytes × Bytes)) (memberId : Bytes) : Bytes :=
  (lastFor assignments memberId).getD []

theorem lastFor_cons (a : Bytes × Bytes) (assignments : List (Bytes × Bytes)) (id : Bytes) :
    lastFor (a :: assignments) id =
      (lastFor assignments id).or (if a.1 = id then some a.2 else none) := by
  unfold lastFor
  rw [reverse_cons, find?_append]
  cases assignments.reverse.find? fun a => a.1 = id with
  | some b => rfl
  | none =>
    by_cases h : a.1 = id <;> simp [h]

variable {assignments : List (Bytes × Bytes)}

theorem lastFor_eq_none {id : Bytes} :
    lastFor assignments id = none ↔ id ∉ assignments.map (·.1) := by
  simp only [lastFor, map_eq_none_iff, find?_eq_none, mem_reverse,
    decide_eq_true_eq, List.mem_map, not_exists, not_and]

theorem get_assign (members : SortedMap Bytes Member) (assignments : List (Bytes × Bytes))
    (id : Bytes) :
    (assign members assignments).get id = (members.get id).map fun m =>
      { m with assignment := (lastFor assignments id).getD m.assignment } := by
  induction assignments generalizing members with
  | nil => simp [assign, lastFor]
  | cons a assignments ih =>
    rw [lastFor_cons]
    have hcons : assign members (a :: assignments) = assign (match members.get a.1 with
        | some m => members.put a.1 { m with assignment := a.2 }
        | none => members) assignments := rfl
    rw [hcons, ih]
    cases hget : members.get a.1 with
    | none =>
      by_cases h : a.1 = id
      · subst h
        simp [hget]
      · simp [h]
    | some m =>
      rw [get_put]
      by_cases h : a.1 = id
      · subst h
        rw [if_pos rfl, if_pos rfl, hget]
        cases lastFor assignments a.1 <;> rfl
      · simp [h]

theorem sync_group_eq (st : GroupState) (memberId : Bytes) (generation : Int)
    (assignments : List (Bytes × Bytes)) (nowMs : Int) :
    (sync st memberId generation assignments nowMs).1 =
      if settles st memberId generation then
        { st with
          stage := .stable,
          members := (assign st.members assignments).mapVal fun m =>
            { m with sessionDeadlineMs := nowMs + m.sessionTimeoutMs } }
      else st := by
  unfold sync settles
  cases st.members.get memberId with
  | none => rfl
  | some m =>
    dsimp only
    by_cases hgen : generation ≠ st.generation ∨ m.joinGen ≠ st.generation
    · rw [if_pos hgen, if_neg (by simp; tauto)]
    · rw [if_neg hgen]
      have hok : generation = st.generation ∧ m.joinGen = st.generation := by tauto
      cases hs : st.stage with
      | completingSync =>
        by_cases hl : st.leader = memberId <;> simp [hl, hok]
      | _ => simp

/-! ## Answers of a run -/

/-- A settled group holds what the leader of its generation supplied. -/
def Settled (c : Coord) : Prop :=
  c.group.stage = .stable → ∃ assignments rest,
    c.settled = (c.group.generation, assignments) :: rest ∧
      ∀ id m, c.group.members.get id = some m → m.assignment = assignmentOf assignments id

/-- The leader's list names every member that holds an assignment, and a call reads its record
while its generation is still the settled one. -/
def Clean (c : Coord) : Action → Prop
  | .sync memberId generation assignments _ => settles c.group memberId generation →
      ∀ e ∈ c.group.members.entries, e.2.assignment = [] ∨ e.1 ∈ assignments.map (·.1)
  | .read call => c.group.stage = .stable ∧ c.group.generation = call.2
  | _ => True

instance decidableClean (c : Coord) (a : Action) : Decidable (Clean c a) := by
  cases a <;> dsimp only [Clean] <;> infer_instance

variable {c : Coord}

theorem Settled.of_turn (h : Settled c) (hk : Turn c.group st events)
    (reading parked : List Call) : Settled { c with group := st, reading, parked } := by
  intro hstable
  obtain ⟨hold, hgen, hmem⟩ := hk.settled hstable
  obtain ⟨assignments, rest, hs, hall⟩ := h hold
  refine ⟨assignments, rest, ?_, fun id m' hm' => ?_⟩
  · rw [hs, hgen]
  · obtain ⟨m, hm, heq⟩ := hmem id m' hm'
    rw [heq, hall id m hm]

variable {memberId : Bytes} {generation : Int}

theorem settles_spec (h : settles st memberId generation) :
    generation = st.generation ∧ st.stage = .completingSync := by
  unfold settles at h
  split at h
  · cases h
  · simp only [Bool.and_eq_true, decide_eq_true_eq] at h
    exact ⟨h.1.1.1, h.1.2⟩

theorem sync_settled {nowMs : Int} {c' : Coord} (h : Settled c)
    (hok : Clean c (.sync memberId generation assignments nowMs))
    (hstep : step c (.sync memberId generation assignments nowMs) = some c') : Settled c' := by
  simp only [step, some.injEq] at hstep
  subst hstep
  rw [sync_group_eq]
  by_cases hs : settles c.group memberId generation
  · rw [if_pos hs, if_pos hs]
    refine fun _ => ⟨assignments, c.settled, ?_, fun id m' hm' => ?_⟩
    · rw [(settles_spec hs).1]
    · rw [get_mapVal, get_assign, Option.map_map, map_eq_some_iff] at hm'
      obtain ⟨m, hm, rfl⟩ := hm'
      -- an unnamed record holds nothing, so the list says all of it
      have hall := hok hs (id, m) (get_eq_some.mp hm)
      dsimp only [assignmentOf]
      cases hlast : lastFor assignments id with
      | some bytes => rfl
      | none => exact hall.resolve_right (lastFor_eq_none.mp hlast)
  · rw [if_neg hs, if_neg hs]
    exact h.of_turn (.refl _) _ _

theorem step_settled (c : Coord) (a : Action) (c' : Coord) (h : Settled c) (hok : Clean c a)
    (hstep : step c a = some c') : Settled c' := by
  cases a with
  | join a => cases hstep; exact h.of_turn (join_turn _ _) _ _
  | heartbeat m g now => cases hstep; exact h.of_turn (heartbeat_turn _ _ _ _) _ _
  | leave ids now => cases hstep; exact h.of_turn (leave_turn _ _ _) _ _
  | expire now => cases hstep; exact h.of_turn (expire_turn _ _) _ _
  | sync m g assignments now => exact sync_settled h hok hstep
  | read call | timeout call =>
    obtain ⟨-, hstep⟩ := ite_none_right_eq_some.mp hstep
    cases hstep
    exact h
  | wake call =>
    obtain ⟨-, hstep⟩ := ite_none_right_eq_some.mp hstep
    cases hstep
    split
    · exact h
    · exact h

theorem settled_of_reply {a : Action} {call : Call} {bytes : Bytes} (hok : Clean c a)
    (h : reply c a = some (call, ⟨.none, bytes⟩)) :
    c.group.stage = .stable ∧ c.group.generation = call.2 ∧
      ∃ m, c.group.members.get call.1 = some m ∧ m.assignment = bytes := by
  cases a with
  | sync m g assignments now =>
    simp only [reply] at h
    split at h <;> simp [refuse] at h
  | read call' =>
    simp only [reply, ite_none_right_eq_some, some.injEq, Prod.mk.injEq] at h
    obtain ⟨-, rfl, h⟩ := h
    refine ⟨hok.1, hok.2, ?_⟩
    unfold readReply at h
    split at h
    · next m hm => exact ⟨m, hm, congrArg SyncReply.assignment h⟩
    · cases h
  | wake call' =>
    simp only [reply, ite_none_right_eq_some, map_eq_some_iff] at h
    obtain ⟨-, r, hr, rfl, rfl⟩ := h
    unfold resolve at hr
    split at hr
    · cases hr
    · next m hm =>
      split at hr
      · cases hr
      · next hgen =>
        split at hr
        · next hstable =>
          cases hr
          exact ⟨hstable, (not_not.mp (not_or.mp hgen).1).symm, m, hm, rfl⟩
        · cases hr
        all_goals cases hr
  | timeout call' =>
    simp [reply, refuse] at h
  | join _ | heartbeat _ _ _ | leave _ _ | expire _ => cases h

theorem syncReply_current (protocolType : Bytes) (seed : Int) (actions : List Action) (c : Coord)
    (a : Action) (call : Call) (bytes : Bytes)
    (hrun : exec step { group := newGroupSeeded protocolType seed } actions = some c)
    (hclean : Guarded step Clean { group := newGroupSeeded protocolType seed } actions)
    (ha : Clean c a) (hreply : reply c a = some (call, ⟨.none, bytes⟩)) :
    ∃ assignments, c.settled.find? (fun e => e.1 = call.2) = some (call.2, assignments) ∧
      bytes = assignmentOf assignments call.1 := by
  have hinit : Settled { group := newGroupSeeded protocolType seed } := nofun
  have hsettled := exec_inv step_settled hinit hclean hrun
  obtain ⟨hstable, hgen, m, hm, hbytes⟩ := settled_of_reply ha hreply
  obtain ⟨assignments, rest, hs, hall⟩ := hsettled hstable
  refine ⟨assignments, ?_, ?_⟩
  · rw [hs, hgen]
    simp
  · rw [← hbytes, hall _ m hm]

def sampleJoin (memberId : Bytes) : Action :=
  .join { memberId, instanceId := none, clientId := [], clientHost := [],
          sessionTimeoutMs := 10000, rebalanceTimeoutMs := 10000, protocolType := [99],
          protocolName := [114], metadata := [], nowMs := 0 }

/-- Member 1 holds bytes 7 from the first generation; member 2 joins and 1, the oldest,
rejoins and leads the second, which its SyncGroup settles with the given list. -/
def sampleRebalance (assignments : List (Bytes × Bytes)) : List Action :=
  [sampleJoin [1], .sync [1] 1 [([1], [7])] 0, .read ([1], 1), sampleJoin [2], sampleJoin [1],
    .sync [1] 2 assignments 0]

theorem syncReply_current_renamed :
    ∃ c, exec step { group := newGroupSeeded [99] 0 } (sampleRebalance [([1], [8]), ([2], [9])]) =
        some c ∧ reply c (.read ([1], 2)) = some (([1], 2), ⟨.none, [8]⟩) ∧
      ∃ assignments, c.settled.find? (fun e => e.1 = 2) = some (2, assignments) ∧
        [8] = assignmentOf assignments [1] := by
  refine exists_run (P := fun c => Clean c (.read ([1], 2)) ∧
    reply c (.read ([1], 2)) = some (([1], 2), ⟨.none, [8]⟩)) (by decide +kernel) fun c hc hh => ?_
  exact ⟨hh.2, syncReply_current [99] 0 _ c (.read ([1], 2)) ([1], 2) [8] hc (by decide +kernel)
    hh.1 hh.2⟩

/-- A leader that leaves itself out of the second generation's list is answered with its
assignment of the first. -/
theorem syncReply_of_earlier_generation :
    ¬ ∀ (actions : List Action) (c : Coord) (a : Action) (call : Call) (bytes : Bytes),
      exec step { group := newGroupSeeded [99] 0 } actions = some c →
      reply c a = some (call, ⟨.none, bytes⟩) →
      ∃ assignments, c.settled.find? (fun e => e.1 = call.2) = some (call.2, assignments) ∧
        bytes = assignmentOf assignments call.1 := by
  intro hall
  obtain ⟨c, hc, hreply, hsettled⟩ : ∃ c, exec step { group := newGroupSeeded [99] 0 }
      (sampleRebalance []) = some c ∧ reply c (.read ([1], 2)) = some (([1], 2), ⟨.none, [7]⟩) ∧
      c.settled = [(2, []), (1, [([1], [7])])] := exists_run (by decide +kernel) fun _ _ h => h
  obtain ⟨assignments, hfind, hbytes⟩ := hall _ c _ _ _ hc hreply
  rw [hsettled] at hfind
  cases hfind
  cases hbytes

end Rdb.Kafka.Coordinator
