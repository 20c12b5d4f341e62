import Rdb.Lite.Claim

/-!
# Streams under a sequence of commands

The commands of the previous modules as one transition system. A state is the
records with what the process keeps about the groups, and a history: the ids
acknowledged so far and the entries that went to dead-letter streams. No command
here arms a deadline, so a stream without one keeps none (`Timeless`).
-/

namespace Rdb.Lite

open Lib

structure World where
  runtime : Runtime := {}
  acked : List (Bytes × Bytes × EntryId) := []
  moves : List Move := []

namespace World

abbrev records (w : World) : Records := w.runtime.records
abbrev offsets (w : World) : Offsets := w.runtime.offsets

end World

inductive Action where
  | xadd (now : Nat) (s : Bytes) (o : XaddOpts) (id : IdArg) (fields : Fields)
  | xtrim (now : Nat) (s : Bytes) (plan : TrimPlan)
  | xdel (now : Nat) (s : Bytes) (ids : List EntryId)
  /-- One stream of a delay sweep, with the rows its scan found. -/
  | exchange (now : Nat) (s : Bytes) (rows : List DueRow)
  | xreadgroup (c : ReadCall) (streams : List Bytes)
  | xack (now : Nat) (s g : Bytes) (ids : List EntryId)
  | xclaim (c : ClaimCall) (s : Bytes) (ids : List EntryId)
  | xautoclaim (c : ClaimCall) (s : Bytes) (start : EntryId) (count : Nat)
  /-- One group of an idle sweep. -/
  | sweep (now idle leaseMs : Nat) (s g : Bytes)
  | delconsumer (s g consumer : Bytes)
  | setid (s g : Bytes) (id : EntryId)
  | flush (s g : Bytes)
  | restart

/-- XADD on a stream that is not there forgets the groups of an earlier one of the name. -/
def xadd (l : Runtime) (now : Nat) (s : Bytes) (o : XaddOpts) (idArg : IdArg) (fields : Fields) :
    Runtime :=
  let l := { l with records := reap l.records now s }
  match xaddBatch l.records now s o idArg fields with
  | .error _ | .ok none => l
  | .ok (some (_, ws)) =>
    { l with
      records := l.records.write ws
      offsets := if (metaOrFresh l.records now s).2 then l.offsets.removeStream s else l.offsets }

/-- The batch of a removal, or nothing when it is refused. -/
def remove (l : Runtime) (now : Nat) (s : Bytes)
    (batch : Records → Except AppendError (List EntryId × List Write)) : Runtime :=
  let l := { l with records := reap l.records now s }
  match batch l.records with
  | .error _ => l
  | .ok (_, ws) => { l with records := l.records.write ws }

def exchange (l : Runtime) (now : Nat) (s : Bytes) (rows : List DueRow) : Runtime :=
  let r := if (streamPrefix s).isSome then reap l.records now s else l.records
  { l with records := r.write (exchangeBatch l.records now s rows) }

def step (w : World) : Action → Option World
  | .xadd now s o id fields =>
    some { w with runtime := xadd w.runtime now s o id fields }
  | .xtrim now s plan =>
    some { w with runtime := remove w.runtime now s (xtrimBatch · now s plan) }
  | .xdel now s ids =>
    some { w with runtime := remove w.runtime now s (xdelBatch · now s ids) }
  | .exchange now s rows => some { w with runtime := exchange w.runtime now s rows }
  | .xreadgroup c streams =>
    let d := xreadgroup w.runtime c {} streams
    some { w with runtime := d.runtime, moves := w.moves ++ d.moves }
  | .xack now s g ids =>
    some { w with
      runtime := (xack w.runtime now s g ids).1
      acked := w.acked ++ ids.map fun id => (s, g, id) }
  | .xclaim c s ids =>
    let out := xclaim w.runtime c s ids
    some { w with runtime := out.runtime, moves := w.moves ++ out.moves }
  | .xautoclaim c s start count =>
    let out := xautoclaim w.runtime c s start count
    some { w with runtime := out.runtime, moves := w.moves ++ out.moves }
  | .sweep now idle leaseMs s g =>
    let out := sweepGroup w.runtime now idle leaseMs s g
    some { w with runtime := out.1, moves := w.moves ++ out.2 }
  | .delconsumer s g consumer =>
    some { w with runtime := (delconsumer w.runtime s g consumer).1 }
  | .setid s g id => some { w with runtime := setid w.runtime s g id }
  | .flush s g => some { w with runtime := flushGroup w.runtime s g }
  | .restart => some { w with runtime := restart w.runtime }

end Rdb.Lite
