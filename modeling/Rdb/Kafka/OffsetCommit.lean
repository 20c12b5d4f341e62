import Rdb.Lite.Layout
import Rdb.Kafka.Coordinator

/-!
# Committing offsets

An OffsetCommit request is checked twice against its generation: once against the
group in the coordinator, once for each partition against the stored ledger row. Only
then does it take the latches of its rows, one after the other, and writes them in one
batch. The checks are not repeated under the latches.

`generation_monotone`: as long as no request of a higher generation has written a row
between another request's check and its batch, the generation of a ledger row does not
go back.
-/

namespace Rdb.Kafka.OffsetCommit

open Lib Ds Lite Sql List Option
open Function (update)

inductive CommitCode where
  | none
  | offsetOutOfRange
  | unknownTopicOrPartition
  | invalidTopicException
  | illegalGeneration
  | unknownMemberId

def CommitCode.code : CommitCode → Int
  | none => 0
  | offsetOutOfRange => 1
  | unknownTopicOrPartition => 3
  | invalidTopicException => 17
  | illegalGeneration => 22
  | unknownMemberId => 25

structure LedgerRow where
  committedOrdinal : Nat
  generation : Int
  leader : Bytes
  deriving DecidableEq

abbrev RowKey := Bytes × Bytes

structure CommitTarget where
  topic : Bytes
  partition : Int
  offset : Int

/-- A row of the batch; `overtaken` once a request of a higher generation has written the same row
after it was read. -/
structure Planned where
  key : RowKey
  row : LedgerRow
  overtaken : Bool := false

/-- A request in flight: the targets it has still to look at, what it answers, the latches it
wants and holds, and the rows of its batch. -/
structure Request where
  group : Bytes
  version : Int
  generation : Int
  memberId : Bytes
  fence : Option CommitCode
  todo : List CommitTarget
  answers : List (CommitTarget × CommitCode) := []
  latchKeys : List Bytes := []
  held : List Bytes := []
  rows : List Planned := []

/-- The groups of the coordinator, the child queues of each topic, the ledger and the requests. -/
structure World where
  groups : Bytes → Option Coordinator.Coord := fun _ => none
  children : Bytes → List Bytes := fun _ => []
  ledger : RowKey → Option LedgerRow := fun _ => none
  requests : List Request := []

/-! ## The checks -/

/-- An active group wants an enrolled member and its current generation; a group that is absent or
empty leaves it to the ledger. -/
def commitFence (groups : Bytes → Option Coordinator.Coord) (group : Bytes) (generation : Int)
    (memberId : Bytes) : Option CommitCode :=
  match groups group with
  | none => none
  | some c =>
    if c.group.members.entries.isEmpty then none
    else if (c.group.members.get memberId).isNone then some .unknownMemberId
    else if c.group.generation ≠ generation then some .illegalGeneration
    else none

/-- The child that backs a partition: `p<N>`, or else `q<N>`. -/
def partitionQueue (children : List Bytes) (partition : Int) : Option Bytes :=
  [utf8 ("p" ++ toString partition), utf8 ("q" ++ toString partition)].find? (· ∈ children)

def streamName (topic child : Bytes) : Bytes := topic ++ 0x2f :: child

/-- The row of one target, or the code that refuses it. -/
def commitOne (children : Bytes → List Bytes) (ledger : RowKey → Option LedgerRow) (r : Request)
    (t : CommitTarget) : Except CommitCode Planned :=
  if !validPart t.topic then .error .invalidTopicException
  else if t.offset < 0 then .error .offsetOutOfRange
  else match partitionQueue (children t.topic) t.partition with
    | none => .error .unknownTopicOrPartition
    | some child =>
      let key := (streamName t.topic child, r.group)
      let existing := ledger key
      if 1 ≤ r.version ∧ existing.any (r.generation < ·.generation) then .error .illegalGeneration
      else
        let (generation, leader) := match existing, decide (1 ≤ r.version) with
          | some row, false => (row.generation, row.leader)
          | _, _ => (r.generation, r.memberId)
        .ok { key, row := ⟨t.offset.toNat, generation, leader⟩ }

/-- The latches of a row: its own and that of the stream's meta record. -/
def rowLatches (key : RowKey) : List Bytes :=
  match splitSlash key.1 with
  | none => []
  | some (parent, _) =>
    let pre := (slotWithPrefix parent).2
    [ledgerKey pre key.1 key.2, metaKey pre key.1]

def plan (w : World) (r : Request) (t : CommitTarget) (todo : List CommitTarget) : Request :=
  match r.fence with
  | some code => { r with todo, answers := r.answers ++ [(t, code)] }
  | none => match commitOne w.children w.ledger r t with
    | .error code => { r with todo, answers := r.answers ++ [(t, code)] }
    | .ok row => { r with
        todo
        answers := r.answers ++ [(t, .none)]
        latchKeys := r.latchKeys ++ rowLatches row.key
        rows := r.rows ++ [row] }

def Request.order (r : Request) : List Bytes := r.latchKeys.dedup.insertionSort (· ≤ ·)

def Request.ready (r : Request) : Bool := r.todo.isEmpty && r.held.length = r.order.length

/-! ## Steps -/

inductive Action where
  /-- The first join of a group of this process, with the generation it is seeded with. -/
  | openGroup (group protocolType : Bytes) (seed : Int)
  | coordinate (group : Bytes) (a : Coordinator.Action)
  | evict (group : Bytes)
  /-- Queues of a topic come or go. -/
  | topic (parent : Bytes) (children : List Bytes)
  /-- A request arrives and passes the coordinator's check. -/
  | receive (group : Bytes) (version generation : Int) (memberId : Bytes)
      (targets : List CommitTarget)
  | plan (i : Nat)
  | lock (i : Nat)
  | write (i : Nat)
  | fail (i : Nat)

def putRow (ledger : RowKey → Option LedgerRow) (p : Planned) : RowKey → Option LedgerRow :=
  update ledger p.key (some p.row)

def putRows (ledger : RowKey → Option LedgerRow) (rows : List Planned) :
    RowKey → Option LedgerRow :=
  rows.foldl putRow ledger

def Planned.mark (batch : List Planned) (p : Planned) : Planned :=
  if batch.any fun q => q.key = p.key ∧ p.row.generation < q.row.generation then
    { p with overtaken := true }
  else p

def Request.mark (batch : List Planned) (r : Request) : Request :=
  { r with rows := r.rows.map (Planned.mark batch) }

def step (w : World) : Action → Option World
  | .openGroup group protocolType seed =>
    if (w.groups group).isSome then none
    else some { w with
      groups := update w.groups group
        (some { group := Coordinator.newGroupSeeded protocolType seed }) }
  | .coordinate group a =>
    (w.groups group).bind fun c => (Coordinator.step c a).map fun c' =>
      { w with groups := update w.groups group (some c') }
  | .evict group => some { w with groups := update w.groups group none }
  | .topic parent children => some { w with children := update w.children parent children }
  | .receive group version generation memberId targets =>
    let (generation, memberId) := if 1 ≤ version then (generation, memberId) else (-1, [])
    let fence := if 1 ≤ version then commitFence w.groups group generation memberId else none
    some { w with
      requests := w.requests ++ [{ group, version, generation, memberId, fence, todo := targets }] }
  | .plan i => match w.requests[i]? with
    | none => none
    | some r => match r.todo with
      | [] => none
      | t :: todo => some { w with requests := w.requests.set i (plan w r t todo) }
  | .lock i => match w.requests[i]? with
    | none => none
    | some r => match r.todo, r.order[r.held.length]? with
      | [], some key =>
        if w.requests.any fun q => key ∈ q.held then none
        else some { w with requests := w.requests.set i { r with held := r.held ++ [key] } }
      | _, _ => none
  | .write i => match w.requests[i]? with
    | none => none
    | some r =>
      if r.ready then some { w with
        ledger := putRows w.ledger r.rows
        requests := (w.requests.eraseIdx i).map (Request.mark r.rows) }
      else none
  | .fail i => match w.requests[i]? with
    | none => none
    | some r => if r.ready then some { w with requests := w.requests.eraseIdx i } else none

/-- A batch is written while nothing newer has come into its rows since they were read. -/
def Clean (w : World) : Action → Prop
  | .write i => ∀ r ∈ w.requests[i]?, ∀ p ∈ r.rows, p.overtaken = false
  | _ => True

instance decidableClean (w : World) (a : Action) : Decidable (Clean w a) := by
  cases a <;> dsimp only [Clean] <;> infer_instance

/-! ## The invariant -/

def Planned.Current (ledger : RowKey → Option LedgerRow) (p : Planned) : Prop :=
  p.overtaken = false → ∀ row, ledger p.key = some row → row.generation ≤ p.row.generation

def Sound (w : World) : Prop := ∀ r ∈ w.requests, ∀ p ∈ r.rows, p.Current w.ledger

variable {ledger : RowKey → Option LedgerRow} {p : Planned}

theorem commitOne_current {children : Bytes → List Bytes} {r : Request} {t : CommitTarget}
    (h : commitOne children ledger r t = .ok p) :
    p.Current ledger := by
  unfold commitOne at h
  split at h
  · cases h
  split at h
  · cases h
  split at h
  · cases h
  dsimp only at h
  split at h
  · cases h
  next hcheck =>
  cases h
  intro _ row hrow
  rw [hrow] at hcheck ⊢
  by_cases hv : 1 ≤ r.version
  · simpa [hv] using hcheck
  · rw [decide_eq_false hv]

theorem plan_rows {w : World} {r : Request} {t : CommitTarget} {todo : List CommitTarget}
    (hp : p ∈ (plan w r t todo).rows) : p ∈ r.rows ∨ p.Current w.ledger := by
  unfold plan at hp
  split at hp
  · exact .inl hp
  split at hp
  · exact .inl hp
  · next row hok =>
    rcases mem_append.mp hp with hp | hp
    · exact .inl hp
    · rw [mem_singleton.mp hp]
      exact .inr (commitOne_current hok)

theorem putRows_apply (ledger : RowKey → Option LedgerRow) (rows : List Planned) (key : RowKey) :
    (putRows ledger rows key = ledger key ∧ ∀ p ∈ rows, p.key ≠ key) ∨
      ∃ p ∈ rows, p.key = key ∧ putRows ledger rows key = some p.row := by
  induction rows generalizing ledger with
  | nil => exact .inl ⟨rfl, nofun⟩
  | cons q rows ih =>
    rcases ih (putRow ledger q) with ⟨heq, hne⟩ | ⟨p, hp, hkey, heq⟩
    · by_cases hq : q.key = key
      · refine .inr ⟨q, mem_cons_self, hq, heq.trans ?_⟩
        subst hq
        exact Function.update_self ..
      · refine .inl ⟨heq.trans (Function.update_of_ne (Ne.symm hq) ..), fun p hp => ?_⟩
        rcases mem_cons.mp hp with rfl | hp
        · exact hq
        · exact hne p hp
    · exact .inr ⟨p, mem_cons_of_mem _ hp, hkey, heq⟩

/-- The generation of every stored row is kept or raised. -/
def Monotone (ledger ledger' : RowKey → Option LedgerRow) : Prop :=
  ∀ key row, ledger key = some row →
    ∃ row', ledger' key = some row' ∧ row.generation ≤ row'.generation

theorem Monotone.refl (ledger : RowKey → Option LedgerRow) : Monotone ledger ledger :=
  fun _ row h => ⟨row, h, le_rfl⟩

theorem Monotone.trans {ledger₁ ledger₂ ledger₃ : RowKey → Option LedgerRow}
    (h : Monotone ledger₁ ledger₂) (h' : Monotone ledger₂ ledger₃) : Monotone ledger₁ ledger₃ := by
  intro key row hrow
  obtain ⟨row', hrow', hle⟩ := h key row hrow
  obtain ⟨row'', hrow'', hle'⟩ := h' key row' hrow'
  exact ⟨row'', hrow'', hle.trans hle'⟩

theorem putRows_monotone {rows : List Planned} (hcur : ∀ p ∈ rows, p.Current ledger)
    (hclean : ∀ p ∈ rows, p.overtaken = false) :
    Monotone ledger (putRows ledger rows) := by
  intro key row hrow
  rcases putRows_apply ledger rows key with ⟨heq, -⟩ | ⟨p, hp, rfl, heq⟩
  · exact ⟨row, heq.trans hrow, le_rfl⟩
  · exact ⟨p.row, heq, hcur p hp (hclean p hp) row hrow⟩

theorem mark_current {batch : List Planned}
    (h : p.Current ledger) : (Planned.mark batch p).Current (putRows ledger batch) := by
  unfold Planned.mark
  split
  · nofun
  · next hnone =>
    intro hover row hrow
    rcases putRows_apply ledger batch p.key with ⟨heq, -⟩ | ⟨q, hq, hkey, heq⟩
    · exact h hover row (heq ▸ hrow)
    · rw [heq] at hrow
      cases hrow
      rw [List.any_eq_true] at hnone
      exact not_lt.mp fun hlt => hnone ⟨q, hq, decide_eq_true ⟨hkey, hlt⟩⟩

theorem step_sound {w w' : World} {a : Action} (hs : Sound w) (hclean : Clean w a)
    (h : step w a = some w') : Sound w' ∧ Monotone w.ledger w'.ledger := by
  have hset : ∀ (i : Nat) (r r' : Request), w.requests[i]? = some r →
      (∀ p ∈ r'.rows, p ∈ r.rows ∨ p.Current w.ledger) →
      Sound { w with requests := w.requests.set i r' } := by
    intro i r r' hr hrows q hq p hp
    rcases mem_or_eq_of_mem_set hq with hq | rfl
    · exact hs q hq p hp
    · rcases hrows p hp with hold | hnew
      · exact hs r (mem_of_getElem? hr) p hold
      · exact hnew
  cases a with dsimp only [step] at h
  | openGroup group protocolType seed =>
    obtain ⟨-, h⟩ := ite_none_left_eq_some.mp h
    cases h
    exact ⟨hs, .refl _⟩
  | coordinate group a =>
    obtain ⟨c, -, h⟩ := bind_eq_some_iff.mp h
    obtain ⟨c', -, rfl⟩ := map_eq_some_iff.mp h
    exact ⟨hs, .refl _⟩
  | evict group | topic parent children =>
    cases h
    exact ⟨hs, .refl _⟩
  | receive group version generation memberId targets =>
    cases h
    refine ⟨fun r hr p hp => ?_, .refl _⟩
    rcases mem_append.mp hr with hr | hr
    · exact hs r hr p hp
    · rw [mem_singleton.mp hr] at hp
      cases hp
  | plan i =>
    split at h
    · cases h
    next r hr =>
    split at h
    · cases h
    · cases h
      exact ⟨hset i r _ hr fun p => plan_rows, .refl _⟩
  | lock i =>
    split at h
    · cases h
    next r hr =>
    split at h
    · obtain ⟨-, h⟩ := ite_none_left_eq_some.mp h
      cases h
      exact ⟨hset i r _ hr fun p => .inl, .refl _⟩
    · cases h
  | write i =>
    split at h
    · cases h
    next r hr =>
    obtain ⟨-, h⟩ := ite_none_right_eq_some.mp h
    cases h
    have hcur := hs r (mem_of_getElem? hr)
    refine ⟨fun q hq p hp => ?_, putRows_monotone hcur (hclean r hr)⟩
    obtain ⟨q₀, hq₀, rfl⟩ := List.mem_map.mp hq
    obtain ⟨p₀, hp₀, rfl⟩ := List.mem_map.mp hp
    exact mark_current (hs q₀ (mem_of_mem_eraseIdx hq₀) p₀ hp₀)
  | fail i =>
    split at h
    · cases h
    · obtain ⟨-, h⟩ := ite_none_right_eq_some.mp h
      cases h
      exact ⟨fun q hq => hs q (mem_of_mem_eraseIdx hq), .refl _⟩

theorem generation_monotone {w w₁ w₂ : World} {as bs : List Action} (hw : Sound w)
    (hg : Guarded step Clean w as) (h : exec step w as = some w₁)
    (hg' : Guarded step Clean w₁ bs) (h' : exec step w₁ bs = some w₂) {key : RowKey}
    {row : LedgerRow} (hrow : w₁.ledger key = some row) :
    ∃ row', w₂.ledger key = some row' ∧ row.generation ≤ row'.generation := by
  have hs : Sound w₁ := exec_inv (fun _ _ _ hs hc h => (step_sound hs hc h).1) hw hg h
  have hinv := exec_inv (I := fun w => Sound w ∧ Monotone w₁.ledger w.ledger)
      (fun _ _ _ hI hc h => by
        obtain ⟨hs', hm⟩ := step_sound hI.1 hc h
        exact ⟨hs', hI.2.trans hm⟩) ⟨hs, .refl _⟩ hg' h'
  exact hinv.2 key row hrow

/-! ## A member of the generation before -/

def sampleTarget (offset : Int) : CommitTarget := ⟨[116], 0, offset⟩

/-- Topic `t` has the queue `p0`, and member 1 is alone in group `g`, generation 1. -/
def sampleGroup : List Action :=
  [.topic [116] [[112, 48]], .openGroup [103] [99] 0, .coordinate [103] (Coordinator.sampleJoin [1])]

/-- Member 2 joins and 1 rejoins: generation 2. -/
def sampleRejoin : List Action :=
  [.coordinate [103] (Coordinator.sampleJoin [2]), .coordinate [103] (Coordinator.sampleJoin [1])]

/-- A request with one target that is checked, and takes the latches and writes. -/
def sampleCheck (i : Nat) (generation : Int) (memberId : Bytes) (offset : Int) : List Action :=
  [.receive [103] 1 generation memberId [sampleTarget offset], .plan i]

def sampleFinish (i : Nat) : List Action := [.lock i, .lock i, .write i]

def sampleRow : RowKey := (streamName [116] [112, 48], [103])

theorem generation_monotone_serial : ∃ w₁ w₂ row row',
    exec step {} (sampleGroup ++ sampleCheck 0 1 [1] 5 ++ sampleFinish 0) = some w₁ ∧
    exec step w₁ (sampleRejoin ++ sampleCheck 0 2 [2] 3 ++ sampleFinish 0) = some w₂ ∧
    w₁.ledger sampleRow = some row ∧ w₂.ledger sampleRow = some row' ∧
    row.generation ≤ row'.generation := by
  have hg : Guarded step Clean {} (sampleGroup ++ sampleCheck 0 1 [1] 5 ++ sampleFinish 0) := by
    decide +kernel
  obtain ⟨w₁, hw₁, hrow, hg', hsome⟩ : ∃ w, exec step {} (sampleGroup ++ sampleCheck 0 1 [1] 5 ++
      sampleFinish 0) = some w ∧ w.ledger sampleRow = some ⟨5, 1, [1]⟩ ∧
      Guarded step Clean w (sampleRejoin ++ sampleCheck 0 2 [2] 3 ++ sampleFinish 0) ∧
      (exec step w (sampleRejoin ++ sampleCheck 0 2 [2] 3 ++ sampleFinish 0)).isSome :=
    exists_run (by decide +kernel) fun _ _ h => h
  obtain ⟨w₂, hw₂⟩ := isSome_iff_exists.mp hsome
  have hempty : Sound {} := fun _ hr => nomatch hr
  obtain ⟨row', hrow', hle⟩ := generation_monotone hempty hg hw₁ hg' hw₂ hrow
  exact ⟨w₁, w₂, _, row', hw₁, hw₂, hrow, hrow', hle⟩

/-- A request of generation 1 passes its checks, the group rebalances and a request of generation
2 commits offset 7: the first one's batch then puts offset 5 and generation 1 over it. -/
theorem generation_goes_back : ∃ w₁ w₂,
    exec step {} (sampleGroup ++ sampleCheck 0 1 [1] 5 ++ sampleRejoin ++ sampleCheck 1 2 [2] 7 ++
      sampleFinish 1) = some w₁ ∧
    exec step w₁ (sampleFinish 0) = some w₂ ∧
    w₁.ledger sampleRow = some ⟨7, 2, [2]⟩ ∧ w₂.ledger sampleRow = some ⟨5, 1, [1]⟩ := by
  have h : (exec step {} (sampleGroup ++ sampleCheck 0 1 [1] 5 ++ sampleRejoin ++
      sampleCheck 1 2 [2] 7 ++ sampleFinish 1)).map (fun w => (w.ledger sampleRow,
        (exec step w (sampleFinish 0)).map (·.ledger sampleRow))) =
      some (some ⟨7, 2, [2]⟩, some (some ⟨5, 1, [1]⟩)) := by decide +kernel
  obtain ⟨w₁, hw₁, hp⟩ := map_eq_some_iff.mp h
  obtain ⟨hrow, hp⟩ := Prod.mk.inj hp
  obtain ⟨w₂, hw₂, hrow'⟩ := map_eq_some_iff.mp hp
  exact ⟨w₁, w₂, hw₁, hw₂, hrow, hrow'⟩

end Rdb.Kafka.OffsetCommit
