import Rdb.Lite.Append
import Rdb.Lite.Group

/-!
# Dead-letter transfers

A pending row whose next hand-out would pass the group's MAXDELIVERY is moved: its
entry is written to the dead-letter stream under its own id, with trace fields, the
row is deleted and the committed position goes over it. The writes join the open
batch of the command; what the transfer reads of the target is the store without it.
-/

namespace Rdb.Lite

open Lib Sql

/-! ## Trace fields -/

def fGroup : Bytes := utf8 "__dlq_group"
def fConsumer : Bytes := utf8 "__dlq_consumer"
def fTimes : Bytes := utf8 "__dlq_times"
def fSrc : Bytes := utf8 "__dlq_src"

def pushField (fields : Fields) (name value : Bytes) : Fields :=
  if fields.any (fun f => f.1 = name) then fields else fields ++ [(name, value)]

def appendTrace (fields : Fields) (group consumer : Bytes) (times : Nat) (src : Bytes) : Fields :=
  pushField (pushField (pushField (pushField fields fGroup group) fConsumer consumer)
    fTimes (decimal times)) fSrc src

/-! ## Transfers -/

/-- Delivery counts are 64-bit and wrap. -/
def nextTimes (times : Nat) : Nat := (times + 1) % 2 ^ 64

def shouldDeadLetter (oldTimes maxdelivery : Nat) : Bool :=
  0 < maxdelivery && maxdelivery < nextTimes oldTimes

structure DeadRow where
  id : EntryId
  times : Nat
  consumer : Bytes

/-- An entry that went to a dead-letter stream, with the fields it had in its source. -/
structure Move where
  dlq : Bytes
  source : Bytes
  id : EntryId
  fields : Fields
  deriving DecidableEq

structure TransferTally where
  resolved : Nat := 0
  moved : List Move := []
  dlqCreated : Nat := 0

def storedRows (r : Records) (s : Bytes) (dead : List DeadRow) : List DeadRow :=
  dead.filter fun row => ((r.entries s).get row.id).isSome

/-- A stored entry goes to the target, and the row goes in either case. -/
def transferRow (r : Records) (s g dlq : Bytes) (row : DeadRow) : List Write :=
  (((r.entries s).get row.id).toList.map fun fields =>
    .entry dlq (.put row.id (appendTrace fields g row.consumer row.times s))) ++
  [.pend s g (.del row.id)]

def saturatingAdd (a b : Nat) : Nat := min (a + b) u64Max

def transferMeta (r : Records) (now : Nat) (s dlq : Bytes) (dead : List DeadRow) : MetaRecord :=
  let stored := storedRows r s dead
  let m : MetaPayload := ((r.metas dlq).map (·.payload)).getD {}
  let last := Offsets.maxOf m.lastId (stored.map (·.id))
  let next := { m.withLast last with
    createdMs := if (r.metas dlq).isNone then now else m.createdMs
    len := m.len + (stored.filter fun row => ((r.entries dlq).get row.id).isNone).length }
  ⟨next, if 0 < m.idleMs then saturatingAdd (max now last.ms) m.idleMs else 0⟩

/-- The cache after the resolve: the moved ids count as acked. -/
def resolveRows (r : Records) (o : Offsets) (s g : Bytes) (st : GroupState) (dead : List DeadRow) :
    Offsets :=
  let ids := dead.map (·.id)
  let bound := Offsets.maxOf st.delivered ids
  let head :=
    if st.committed < bound then headAfterAck (r.window s) g st.committed ids bound else none
  o.resolve s g ids head bound

/-- Move the dead rows of a group. `fault` is a read of the store that fails. -/
def transferEntries (r : Records) (o : Offsets) (now : Nat) (s g : Bytes) (st : GroupState)
    (dead : List DeadRow) (fault : Bool) : Except String (Offsets × List Write × TransferTally) :=
  if dead.isEmpty then .ok (o, [], {})
  else if (streamPrefix st.dlq).isNone then .error "DLQ target has no slot"
  else if fault then .error "store read failed"
  else
    let stored := storedRows r s dead
    let o := resolveRows r o s g st dead
    let stNow := (o.map s g).getD st
    .ok (o,
      dead.flatMap (transferRow r s g st.dlq) ++
        (if stored.isEmpty then [] else [.head st.dlq (transferMeta r now s st.dlq dead)]) ++
        (if st.committed < stNow.committed then [.group s g (payloadOf stNow)] else []),
      { resolved := dead.length
        moved := stored.filterMap fun row =>
          ((r.entries s).get row.id).map fun fields => ⟨st.dlq, s, row.id, fields⟩
        dlqCreated := if (r.metas st.dlq).isNone && !stored.isEmpty then 1 else 0 })

/-! ## The gate of a delivery -/

def timesOf (rows : List (EntryId × PendState)) (id : EntryId) : Option Nat :=
  (rows.find? fun row => row.1 = id).map (·.2.timesDelivered)

def splitDead (rows : List (EntryId × PendState)) (maxdelivery : Nat) (consumer : Bytes)
    (entries : List (EntryId × Fields)) : List DeadRow :=
  (entries.filter fun e => shouldDeadLetter ((timesOf rows e.1).getD 0) maxdelivery).map fun e =>
    ⟨e.1, (timesOf rows e.1).getD 0, consumer⟩

structure Gated where
  kept : List (EntryId × Fields)
  offsets : Offsets
  writes : List Write
  tally : TransferTally
  mark : Option RollbackMark

/-- Entries over the cap are moved and not served; the count of pending rows goes with it. The
mark is that of the cache as the gate finds it. -/
def gateDelivery (r : Records) (o : Offsets) (now : Nat) (s g : Bytes) (st : GroupState)
    (entries : List (EntryId × Fields)) (rows : List (EntryId × PendState)) (consumer : Bytes)
    (fault : Bool) : Except String Gated :=
  let mark := o.mark s g
  let dead := if st.maxdelivery = 0 || rows.isEmpty then []
    else splitDead rows st.maxdelivery consumer entries
  let kept := entries.filter fun e => !dead.any fun d => d.id = e.1
  let fresh := (kept.filter fun e => (timesOf rows e.1).isNone).length
  match transferEntries r o now s g st dead fault with
  | .error e => .error e
  | .ok (o, writes, tally) =>
    .ok ⟨kept, o.bumpPending s g (fresh - tally.resolved), writes, tally, mark⟩

end Rdb.Lite
