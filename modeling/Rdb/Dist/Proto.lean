import Rdb.Sql.Floor

/-!
# Records and messages of the distributed commit

A participant stages `Entry`s, remembers them in a `Marker` and leaves an
`OutcomeRecord` behind; both records are JSON in the store. `Serde` is what the
development assumes of the serialiser: what was written reads back.
`Serde.json` is the compact JSON text the serialiser writes.
-/

namespace Rdb.Dist

open Lib Sql

abbrev TxnId := Bytes
abbrev Addr := Bytes

inductive EntryKind where
  | rowPrepared | uniquePut | uniqueDel
  deriving DecidableEq

structure Entry where
  key : Bytes
  value : Bytes
  kind : EntryKind
  deriving DecidableEq

/-- A secondary-index write applied at commit: `none` deletes. -/
abbrev WireOp := IndexOp

inductive Outcome where
  | committed (indexOps : List WireOp)
  | aborted
  | unknown
  deriving DecidableEq

/-- The in-doubt marker: everything recovery needs to finish or abort. -/
structure Marker where
  coordinator : Addr
  readTs : Nat
  commitTs : Nat
  startedAt : Nat
  keys : List Bytes

/-- A decided transaction. The coordinator's copy maps every participant's index writes, a
participant's copy its own. -/
structure OutcomeRecord where
  commit : Bool
  commitTs : Nat
  writtenAt : Nat
  indexOps : SortedMap Bytes (List WireOp)
  ownOps : List WireOp

structure Serde where
  marker : JsonFormat Marker
  outcome : JsonFormat OutcomeRecord
  segment : JsonFormat SegmentMeta
  /-- The index writes of a status answer; the text of an array stands in brackets. -/
  indexOps : JsonFormat (List WireOp)
  indexOps_brackets : ∀ ops, ∃ body, indexOps.toVec ops = 0x5b :: (body ++ [0x5d])

/-! ## The JSON text of the records -/

namespace Serde

open JsonCodec

def bytesCodec : JsonCodec Bytes := array byte

def wireOpCodec : JsonCodec WireOp :=
  pair bytesCodec (nullable bytesCodec fun _ => by simp [bytesCodec, array, items])

def markerCodec : JsonCodec Marker :=
  (object (fields (field (utf8 "coordinator") string) (fields (field (utf8 "read_ts") nat)
    (fields (field (utf8 "commit_ts") nat) (fields (field (utf8 "started_at") nat)
      (field (utf8 "keys") (array bytesCodec))))))).iso
    (fun m => (m.coordinator, m.readTs, m.commitTs, m.startedAt, m.keys))
    (fun p => some ⟨p.1, p.2.1, p.2.2.1, p.2.2.2.1, p.2.2.2.2⟩) fun _ => rfl

def outcomeCodec : JsonCodec OutcomeRecord :=
  (object (fields (field (utf8 "commit") bool) (fields (field (utf8 "commit_ts") nat)
    (fields (field (utf8 "written_at") nat)
      (fields (field (utf8 "index_ops") (JsonCodec.map (array wireOpCodec)))
        (field (utf8 "own_ops") (array wireOpCodec))))))).iso
    (fun r => (r.commit, r.commitTs, r.writtenAt, r.indexOps, r.ownOps))
    (fun p => some ⟨p.1, p.2.1, p.2.2.1, p.2.2.2.1, p.2.2.2.2⟩) fun _ => rfl

def json : Serde where
  marker := markerCodec.toFormat
  outcome := outcomeCodec.toFormat
  segment := segmentCodec.toFormat
  indexOps := (array wireOpCodec).toFormat
  indexOps_brackets _ := ⟨_, rfl⟩

example : json.marker.toVec ⟨utf8 "a:1", 7, 8, 60, [[1, 2]]⟩ =
    utf8 ("\x7b\"coordinator\":\"a:1\",\"read_ts\":7,\"commit_ts\":8," ++
      "\"started_at\":60,\"keys\":[[1,2]]\x7d") := by
  decide +kernel

end Serde

end Rdb.Dist
