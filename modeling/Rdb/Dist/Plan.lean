import Rdb.Dist.Commit
import Rdb.Tx.Session

/-!
# Commit plans

The coordinator groups the encoded writes of a transaction by the node that owns the slot of
their key. Row versions and unique-index writes are entries, the other index writes ride the
decision, and columnar appends stay with the coordinator.
-/

namespace Rdb.Dist

open Lib Sql Tx Participant

structure ParticipantPlan where
  entries : List Entry
  /-- Index writes applied with the commit decision. -/
  indexOps : List WireOp
  /-- Columnar segments; the coordinator's own slice only. -/
  segments : List PendingSegment
  uniqueKeys : UniqueEntriesOk entries
  dataKeys : ∀ op ∈ indexOps, DataKey op.1
  deriving DecidableEq

theorem ParticipantPlan.dataKeys_nil : ∀ op ∈ ([] : List WireOp), DataKey op.1 :=
  fun _ h => (nomatch h)

abbrev Slices := SortedMap Addr ParticipantPlan

structure CommitPlan where
  txnId : TxnId
  readTs : Nat
  commitTs : Nat
  /-- The last timestamp of the range. -/
  watermark : Nat
  /-- Where participants ask for the outcome. -/
  coordinatorHttp : Addr
  participants : Slices
  deriving DecidableEq

end Rdb.Dist
