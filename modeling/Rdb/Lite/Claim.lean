import Rdb.Lite.Deliver

/-!
# The other commands of a group

XACK, XCLAIM, XAUTOCLAIM, the idle sweep, DELCONSUMER and SETID.

A claim and an autoclaim
first decide what becomes of a row from what is stored (`Verdict`), and then write
it; each over-delivered row is a transfer of its own in the open batch. The sweep
hands idle rows to their consumers again and transfers the over-delivered ones in
one call.
-/

namespace Rdb.Lite

open Lib

/-! ## XACK -/

/-- The rows an ack finds pending, with their consumers; an id named twice is found twice. -/
def pendHits (r : Records) (s g : Bytes) (ids : List EntryId) : List (EntryId × Bytes) :=
  ids.filterMap fun id => ((r.pend s g).get id).map fun row => (id, row.consumer)

/-- The first row behind the committed position that the ack leaves. -/
def ackHead (r : Records) (s g : Bytes) (st : GroupState) (ids : List EntryId) : Option EntryId :=
  let maxAcked := Offsets.maxOf st.committed ids
  if st.committed < maxAcked then headAfterAck (r.window s) g st.committed ids maxAcked else none

def xack (l : Runtime) (now : Nat) (s g : Bytes) (ids : List EntryId) : Runtime × Nat :=
  match l.offsets.load l.records now s g with
  | (offsets, none) => ({ l with offsets }, 0)
  | (offsets, some st) =>
    let hits := pendHits l.records s g ids
    let (offsets, n) := offsets.ack s g ids (ackHead l.records s g st ids)
    let stNow := (offsets.map s g).getD st
    let advanced : Bool := st.committed < stNow.committed
    if !advanced && hits.isEmpty then ({ l with offsets }, n.getD 0)
    else
      let batch := (if advanced then [.group s g (payloadOf stNow)] else []) ++
        hits.map (fun hit => .pend s g (.del hit.1)) ++
        (hits.map (·.2)).dedup.flatMap fun owner => touchSeen l.records l.known s g owner now
      ({ l with
          records := l.records.write batch
          offsets := offsets.bumpPending s g (-(hits.length : Int)) },
        n.getD 0)

/-! ## Claims -/

inductive DeliveryAt where
  | idle (ms : Nat)
  | time (ms : Nat)

structure ClaimHints where
  delivery : Option DeliveryAt := none
  retrycount : Option Nat := none

structure ClaimCall where
  group : Bytes
  consumer : Bytes
  minIdle : Nat
  justid : Bool := false
  force : Bool := false
  hints : ClaimHints := {}
  now : Nat

def claimedState (c : ClaimCall) (oldTimes : Nat) (fresh : Bool) (epoch : Nat) : PendState where
  consumer := c.consumer
  deliveredMs := match c.hints.delivery with
    | some (.idle ms) => c.now - ms
    | some (.time ms) => ms
    | none => c.now
  timesDelivered := match c.hints.retrycount with
    | some n => n
    | none => if fresh then 1 else if c.justid then oldTimes else nextTimes oldTimes
  epoch

/-- What becomes of a pending row, or of an id that is not pending. -/
inductive Verdict where
  | skip
  /-- The entry is gone: the row is dropped. -/
  | orphan
  /-- The next hand-out would pass the cap. -/
  | dead (row : DeadRow)
  /-- The row is written for the claiming consumer; `fresh` ones were not pending. -/
  | hand (row : PendState) (fresh : Bool) (fields : Option Fields)

def claimVerdict (r : Records) (c : ClaimCall) (s : Bytes) (st : GroupState) (epoch : Nat)
    (id : EntryId) : Verdict :=
  let old := (r.pend s c.group).get id
  if old.any fun row => c.now - row.deliveredMs < c.minIdle then .skip
  else
    let fresh := old.isNone
    let oldTimes := old.elim 0 (·.timesDelivered)
    if fresh && !c.force then .skip
    else
      let fields := if c.justid && !fresh then none else (r.entries s).get id
      if fresh && fields.isNone then .skip
      else if !c.justid && fields.isNone then .orphan
      else if !c.justid && shouldDeadLetter oldTimes st.maxdelivery then
        .dead ⟨id, oldTimes, c.consumer⟩
      else .hand (claimedState c oldTimes fresh epoch) fresh fields

structure Claimed where
  offsets : Offsets
  writes : List Write := []
  minted : Nat := 0
  dlqCount : Nat := 0
  moves : List Move := []

def applyVerdict (r : Records) (now : Nat) (s g : Bytes) (st : GroupState) (a : Claimed)
    (v : EntryId × Verdict) : Except String Claimed :=
  match v.2 with
  | .skip => .ok a
  | .orphan => .ok { a with writes := a.writes ++ [.pend s g (.del v.1)] }
  | .hand row fresh _ =>
    .ok { a with
      writes := a.writes ++ [.pend s g (.put v.1 row)]
      minted := if fresh then a.minted + 1 else a.minted }
  | .dead row => match transferEntries r a.offsets now s g st [row] false with
    | .error e => .error e
    | .ok (offsets, writes, tally) =>
      .ok { a with
        offsets
        writes := a.writes ++ writes
        dlqCount := a.dlqCount + tally.resolved
        moves := a.moves ++ tally.moved }

inductive ClaimErr where
  | noGroup
  | failed (e : String)

structure ClaimOut (α : Type) where
  runtime : Runtime
  reply : Except ClaimErr α
  moves : List Move := []

/-- Commit the verdicts, or put the group back to where it was. -/
def commitVerdicts {α : Type} (l : Runtime) (c : ClaimCall) (s : Bytes) (st : GroupState)
    (row : Write) (visited : List (EntryId × Verdict)) (reply : α) : ClaimOut α :=
  match visited.foldlM (applyVerdict l.records c.now s c.group st) { offsets := l.offsets } with
  | .error e =>
    ⟨{ l with offsets := l.offsets.restore s c.group (l.offsets.mark s c.group) },
      .error (.failed e), []⟩
  | .ok a =>
    ⟨{ l with
        records := l.records.write (row :: a.writes)
        offsets := (a.offsets.bumpPending s c.group a.minted).bumpPending s c.group
          (-(a.dlqCount : Int)) },
      .ok reply, a.moves⟩

def handed (visited : List (EntryId × Verdict)) : List (EntryId × Option Fields) :=
  visited.filterMap fun v => match v.2 with
    | .hand _ _ fields => some (v.1, fields)
    | _ => none

/-- In an ordered group only the head is claimable, and claiming it takes the queue. -/
def claimTargets (l : Runtime) (c : ClaimCall) (s : Bytes) (st : GroupState) (ids : List EntryId) :
    List EntryId × Owners × Nat :=
  if !st.ordered then (ids, l.owners, 0)
  else match firstPending (l.records.pend s c.group) with
    | none => ([], l.owners, 0)
    | some head =>
      if head.1 ∈ ids ∧ c.minIdle ≤ c.now - head.2.deliveredMs then
        let (owners, epoch) := forceTakeover l.owners s c.group c.consumer c.now
        (ids.filter (· = head.1), owners, epoch)
      else ([], l.owners, 0)

def xclaim (l : Runtime) (c : ClaimCall) (s : Bytes) (ids : List EntryId) :
    ClaimOut (List (EntryId × Option Fields)) :=
  match l.offsets.load l.records c.now s c.group with
  | (offsets, none) => ⟨{ l with offsets }, .error .noGroup, []⟩
  | (offsets, some st) =>
    let (ids, owners, epoch) := claimTargets l c s st ids
    let (known, row) := registerConsumer l.known s c.group c.consumer c.now
    let visited := ids.map fun id => (id, claimVerdict l.records c s st epoch id)
    commitVerdicts { l with offsets, owners, known } c s st row visited (handed visited)

/-! ## XAUTOCLAIM -/

def scanBudgetFactor : Nat := 10

def autoclaimVerdict (r : Records) (c : ClaimCall) (s : Bytes) (st : GroupState) (epoch : Nat)
    (row : EntryId × PendState) : Verdict :=
  if c.now - row.2.deliveredMs < c.minIdle then .skip
  else match (r.entries s).get row.1 with
    | none => .orphan
    | some fields =>
      if !c.justid && shouldDeadLetter row.2.timesDelivered st.maxdelivery then
        .dead ⟨row.1, row.2.timesDelivered, c.consumer⟩
      else .hand (claimedState { c with hints := {} } row.2.timesDelivered false epoch) false
        (if c.justid then none else some fields)

structure Visit where
  visited : List (EntryId × Verdict) := []
  scanned : Nat := 0
  claimed : Nat := 0
  stoppedEarly : Bool := false

/-- Walk the rows until enough are claimed or the budget is spent. -/
def autoclaimWalk (verdict : EntryId × PendState → Verdict) (skips : EntryId → Bool)
    (ordered : Bool) (count : Nat) (a : Visit) : List (EntryId × PendState) → Visit
  | [] => a
  | row :: rest =>
    if count ≤ a.claimed || count * scanBudgetFactor ≤ a.scanned then
      { a with stoppedEarly := true }
    else if ordered && skips row.1 then
      let a := { a with visited := a.visited ++ [(row.1, .skip)], scanned := a.scanned + 1 }
      if 0 < a.claimed then a else autoclaimWalk verdict skips ordered count a rest
    else
      let v := verdict row
      let claimed := match v with
        | .hand .. => a.claimed + 1
        | _ => a.claimed
      autoclaimWalk verdict skips ordered count
        { a with visited := a.visited ++ [(row.1, v)], scanned := a.scanned + 1, claimed } rest

structure AutoclaimReply where
  cursor : EntryId
  claimed : List (EntryId × Option Fields)
  deleted : List EntryId

def autoclaimReply (a : Visit) : AutoclaimReply where
  cursor := match a.stoppedEarly, a.visited.getLast? with
    | true, some v => (succId v.1).getD maxId
    | _, _ => minId
  claimed := handed a.visited
  deleted := a.visited.filterMap fun v => match v.2 with
    | .orphan | .dead _ => some v.1
    | _ => none

def xautoclaim (l : Runtime) (c : ClaimCall) (s : Bytes) (start : EntryId) (count : Nat) :
    ClaimOut AutoclaimReply :=
  match l.offsets.load l.records c.now s c.group with
  | (offsets, none) => ⟨{ l with offsets }, .error .noGroup, []⟩
  | (offsets, some st) =>
    let pend := l.records.pend s c.group
    let head := (firstPending pend).map (·.1)
    let takeover := if st.ordered then forceTakeover l.owners s c.group c.consumer c.now
      else (l.owners, 0)
    let (known, row) := registerConsumer l.known s c.group c.consumer c.now
    let visit := autoclaimWalk (autoclaimVerdict l.records c s st takeover.2)
      (fun id => some id ≠ head) st.ordered count {} (scanPend pend start none)
    let owners := if (handed visit.visited).isEmpty then l.owners else takeover.1
    commitVerdicts { l with offsets, owners, known } c s st row visit.visited (autoclaimReply visit)

/-! ## The idle sweep -/

inductive RowAction where
  | skip
  | redeliver
  | deadLetter
  deriving DecidableEq

def rowAction (now idle delivered times cap : Nat) : RowAction :=
  if now - delivered < idle then .skip
  else if shouldDeadLetter times cap then .deadLetter
  else .redeliver

def rowBudget : Nat := 16

def redelivered (now epoch : Nat) (row : EntryId × PendState) : BatchOp EntryId PendState :=
  .put row.1 { row.2 with
    deliveredMs := now, timesDelivered := saturatingAdd row.2.timesDelivered 1, epoch }

structure SweepPlan where
  owners : Owners
  puts : List (BatchOp EntryId PendState) := []
  dead : List DeadRow := []

/-- What the sweep does with the scanned rows; of an ordered group, with the head alone. -/
def sweepRows (owners : Owners) (now idle leaseMs : Nat) (s g : Bytes) (st : GroupState)
    (rows : List (EntryId × PendState)) : SweepPlan :=
  let action := fun row : EntryId × PendState =>
    rowAction now idle row.2.deliveredMs row.2.timesDelivered st.maxdelivery
  let deadRow := fun row : EntryId × PendState =>
    (⟨row.1, row.2.timesDelivered, row.2.consumer⟩ : DeadRow)
  if st.ordered then match rows with
    | [] => { owners }
    | row :: _ => match action row with
      | .skip => { owners }
      | .deadLetter => { owners, dead := [deadRow row] }
      | .redeliver => match takeoverIfStale owners s g row.2.consumer now leaseMs with
        | (owners, none) => { owners }
        | (owners, some epoch) => { owners, puts := [redelivered now epoch row] }
  else {
    owners
    puts := (rows.filter fun row => action row = .redeliver).map fun row =>
      redelivered now row.2.epoch row
    dead := (rows.filter fun row => action row = .deadLetter).map deadRow }

def sweepGroup (l : Runtime) (now idle leaseMs : Nat) (s g : Bytes) : Runtime × List Move :=
  match l.offsets.load l.records now s g with
  | (offsets, none) => ({ l with offsets }, [])
  | (offsets, some st) =>
    let scanFrom := ((l.resumes s g).map fun last => (succId last).getD minId).getD minId
    let rows := scanPend (l.records.pend s g) scanFrom (some rowBudget)
    let resume := if st.ordered || rows.length < rowBudget then none
      else rows.getLast?.map (·.1)
    let l := { l with offsets, resumes := update₂ l.resumes s g resume }
    let plan := sweepRows l.owners now idle leaseMs s g st rows
    let l := { l with owners := plan.owners }
    if plan.puts.isEmpty && plan.dead.isEmpty then (l, [])
    else match transferEntries l.records l.offsets now s g st plan.dead false with
      | .error _ => ({ l with offsets := l.offsets.restore s g (l.offsets.mark s g) }, [])
      | .ok (offsets, writes, tally) =>
        ({ l with
            records := l.records.write (plan.puts.map (.pend s g) ++ writes)
            offsets := offsets.bumpPending s g (-(tally.resolved : Int)) },
          tally.moved)

/-! ## DELCONSUMER, SETID, the flusher and a restart -/

def delconsumer (l : Runtime) (s g consumer : Bytes) : Runtime × Nat :=
  let purged := ((l.records.pend s g).entries.filter fun row => row.2.consumer = consumer).map (·.1)
  ({ l with
      records := l.records.write (purged.map (fun id => .pend s g (.del id)) ++
        [.consumer s g (.del consumer)])
      offsets := l.offsets.bumpPending s g (-(purged.length : Int))
      owners := releaseConsumer l.owners s g consumer
      known := forgetConsumer l.known s g consumer },
    purged.length)

/-- XGROUP SETID moves both positions, in the record and in the cache. -/
def setid (l : Runtime) (s g : Bytes) (id : EntryId) : Runtime :=
  match l.records.groups s g with
  | none => l
  | some p =>
    { l with
      records := l.records.write [.group s g { p with delivered := id, committed := id }]
      offsets := l.offsets.setPosition s g id }

/-- A flush round writes the record of a dirty group. -/
def flushGroup (l : Runtime) (s g : Bytes) : Runtime :=
  if l.offsets.dirty s g then
    { l with
      records := match l.offsets.map s g with
        | none => l.records
        | some st => l.records.write [.group s g (payloadOf st)]
      offsets := { l.offsets with dirty := update₂ l.offsets.dirty s g false } }
  else l

/-- The process starts again: the store is what is left. -/
def restart (l : Runtime) : Runtime := { records := l.records }

end Rdb.Lite
