import Rdb.Dist.Frame
import Rdb.Sql.Gc

/-!
# Transactions in doubt

Between a vote and its decision a participant holds prepared versions, which
readers skip. The garbage collector does not skip them: a prepared version at or
below the watermark anchors its group like any other.
-/

namespace Rdb.Dist

open Lib Sql Participant List SortedMap
open Serde (json)

/-! ## Sweeps while a transaction is in doubt -/

variable {J : Serde}

def StagedPrepared (J : Serde) (store : Store) (txnId : TxnId) : Prop :=
  ∀ k ∈ stagedKeys J store txnId, (parseVersionKey k).isSome →
    (store.get k).all isPrepared
  deriving Decidable

def withoutStaged (J : Serde) (store : Store) (txnId : TxnId) : Store :=
  store.write ((stagedKeys J store txnId).map .del)

variable {store : Store} {txnId : TxnId}

theorem versions_abort (now : Nat) (bind : Addr) (indexOps : List WireOp) :
    versions (Participant.decide J now store txnId bind false indexOps).1 =
      versions (withoutStaged J store txnId) := by
  refine versions_congr fun k hk => ?_
  obtain ⟨v, hv⟩ := Option.isSome_iff_exists.mp hk
  rw [get_decide_abort (dataKey_of_parseVersionKey hv), withoutStaged, get_write, lastWrite_map_del]
  split <;> rfl

theorem liveRow_withoutStaged (hok : RowsOk store) (hst : StagedPrepared J store txnId)
    (g : PkGroup) (r : Nat) :
    liveRow (withoutStaged J store txnId) g r = liveRow store g r := by
  refine liveRow_delete_prepared hok (fun x hx hk => ?_) g r
  obtain ⟨k, hget, hp⟩ := mem_versions.mp hx
  obtain rfl : k = x.1.key := (hok.canonical (k, x.2) (get_eq_some.mp hget) x.1 hp).2
  have hall := hst x.1.key hk (by rw [hp]; rfl)
  rwa [hget] at hall

theorem get_sweepCapped (hok : RowsOk store) (wm cap : Nat) (k : Bytes) :
    (sweepCapped store wm [] cap).1.get k = store.get k ∨
      (parseVersionKey k).isSome ∧ (sweepCapped store wm [] cap).1.get k = none := by
  rw [sweepCapped_eq hok, get_write, lastWrite_map_del]
  split
  · next hmem =>
    obtain ⟨x, hx, rfl⟩ := mem_map.mp hmem
    have hx := VersionView.mem_of_mem_doomedFrom (mem_of_mem_take hx)
    obtain ⟨k, hget, hp⟩ := mem_versions.mp hx
    obtain rfl : k = x.1.key := (hok.canonical (k, x.2) (get_eq_some.mp hget) x.1 hp).2
    exact .inr ⟨by rw [hp]; rfl, rfl⟩
  · exact .inl rfl

theorem stagedKeys_sweepCapped (hok : RowsOk store) (wm cap : Nat) (txnId : TxnId) :
    stagedKeys J (sweepCapped store wm [] cap).1 txnId = stagedKeys J store txnId := by
  have hget : (sweepCapped store wm [] cap).1.get (markerKey txnId) =
      store.get (markerKey txnId) := by
    refine (get_sweepCapped hok wm cap (markerKey txnId)).resolve_right fun h => ?_
    obtain ⟨v, hv⟩ := Option.isSome_iff_exists.mp h.1
    exact (dataKey_of_parseVersionKey hv).ne (slotOfKey_markerKey txnId) rfl
  rw [stagedKeys, stagedKeys, readMarker, readMarker, hget]

theorem StagedPrepared.sweepCapped (hok : RowsOk store) (h : StagedPrepared J store txnId)
    (wm cap : Nat) :
    StagedPrepared J (sweepCapped store wm [] cap).1 txnId := by
  intro k hk hp
  rw [stagedKeys_sweepCapped hok] at hk
  rcases get_sweepCapped hok wm cap k with he | ⟨-, hn⟩
  · rw [he]; exact h k hk hp
  · rw [hn]; rfl

/-- Every read at or above the watermark resolves to the same live row after the sweep, and after
the transaction is aborted it resolves to the row before its prepare. -/
def SweepInvisible (J : Serde) (store : Store) (wm cap : Nat) (txnId : TxnId) : Prop :=
  ∀ g readTs, wm ≤ readTs →
    liveRow (sweepCapped store wm [] cap).1 g readTs = liveRow store g readTs ∧
    ∀ now bind indexOps,
      liveRow (Participant.decide J now (sweepCapped store wm [] cap).1 txnId bind false indexOps).1
        g readTs = liveRow (withoutStaged J store txnId) g readTs

/-- A sweep that meets no cap is invisible to readers while `txnId` is in doubt, and after its
abort, exactly when the row versions of the store are settled at the watermark. -/
theorem sweep_invisible_iff (J : Serde) (store : Store) (hok : RowsOk store) (txnId : TxnId)
    (hst : StagedPrepared J store txnId) (wm cap : Nat) (hcap : (versions store).length ≤ cap) :
    SweepInvisible J store wm cap txnId ↔ rowView.Settled wm (versions store) := by
  rw [← VersionView.liveRead_sweep_all_iff (n := max cap 1) (versions_newestFirst hok.canonical)
    (by omega)]
  have hswept := hok.sweepCapped wm cap
  constructor
  · intro h g r hr
    rw [← versions_sweepCapped hok, ← liveRow_eq_iff hswept hok]
    exact (h g r hr).1
  · intro h g r hr
    have hread : liveRow (sweepCapped store wm [] cap).1 g r = liveRow store g r := by
      rw [liveRow_eq_iff hswept hok, versions_sweepCapped hok]
      exact h g r hr
    refine ⟨hread, fun now bind indexOps => ?_⟩
    rw [liveRow_congr (versions_abort now bind indexOps),
      liveRow_withoutStaged hswept (hst.sweepCapped hok wm cap), hread,
      liveRow_withoutStaged hok hst]

def sampleTxn : TxnId := utf8 "ts2"

/-- A row written at 1 and a prepared write of `sampleTxn` to it at 2. -/
def inDoubtStore : Store := SortedMap.empty.write
  [.put (versionKey sampleGroup.1 7 samplePk 1) sampleRow,
   .put (versionKey sampleGroup.1 7 samplePk 2) (preparedValue sampleRow),
   .put (markerKey sampleTxn) (json.marker.toVec
     ⟨utf8 "127.0.0.1:8080", 1, 2, 0, [versionKey sampleGroup.1 7 samplePk 2]⟩)]

theorem inDoubtStore_ok : RowsOk inDoubtStore ∧ StagedPrepared json inDoubtStore sampleTxn ∧
    (versions inDoubtStore).length ≤ 10 := by
  decide +kernel

/-- The sweep takes the prepared version for the anchor and deletes the committed row behind it. -/
theorem sweep_deletes_row_behind_prepared : RowsOk inDoubtStore ∧
    StagedPrepared json inDoubtStore sampleTxn ∧ (versions inDoubtStore).length ≤ 10 ∧
    ¬ SweepInvisible json inDoubtStore 2 10 sampleTxn := by
  obtain ⟨hrows, hstaged, hlen⟩ := inDoubtStore_ok
  refine ⟨hrows, hstaged, hlen, fun h => ?_⟩
  have hread := (h sampleGroup 2 (le_refl 2)).1
  rw [liveRow_eq (hrows.sweepCapped 2 10), versions_sweepCapped hrows] at hread
  revert hread
  decide +kernel

theorem sweep_invisible_iff_inDoubtStore : (versions inDoubtStore).length ≤ 10 ∧
    (SweepInvisible json inDoubtStore 1 10 sampleTxn ↔
      rowView.Settled 1 (versions inDoubtStore)) := by
  obtain ⟨hrows, hstaged, hlen⟩ := inDoubtStore_ok
  exact ⟨hlen, sweep_invisible_iff json inDoubtStore hrows sampleTxn hstaged 1 10 hlen⟩

/-! ## Prepare, then abort -/

def AbortRestores (J : Serde) (before prepared : Store) (txnId : TxnId) : Prop :=
  ∀ now bind indexOps k, RowOrUniqueKey k →
    (Participant.decide J now prepared txnId bind false indexOps).1.get k = before.get k

/-- The abort of an accepted prepare restores the data exactly when the prepare named no key that
was in the store. -/
theorem abort_restores_iff (J : Serde) (env : VoteEnv) (store prepared : Store) (txnId : TxnId)
    (coordinator : Addr) (commitTs readTs : Nat) (entries : List Entry)
    (segments : List PendingSegment) (hent : UniqueEntriesOk entries)
    (hvote : vote J env store txnId coordinator commitTs readTs entries segments =
      .ok (.yes, prepared)) :
    AbortRestores J store prepared txnId ↔ ∀ e ∈ entries, store.get e.key = none := by
  obtain ⟨hcheck, metas, hmetas, rfl⟩ := vote_eq_yes hvote
  constructor
  · intro h e he
    have hk := rowOrUniqueKey_of_entry hent hcheck he
    rw [← h 0 [] [] e.key hk, get_decide_abort hk.dataKey, stagedKeys_prepare,
      if_pos (mem_append_left _ (mem_map_of_mem he))]
  · intro h now bind indexOps k hk
    rw [get_decide_abort hk.dataKey, stagedKeys_prepare]
    split
    · next hmem =>
      rcases mem_append.mp hmem with hmem | hmem
      · obtain ⟨e, he, rfl⟩ := mem_map.mp hmem
        exact (h e he).symm
      · obtain ⟨p, hp, rfl⟩ := mem_map.mp hmem
        exact absurd rfl (hk.dataKey.ne (slotOfKey_of_isMeta (hmetas p hp)))
    · next hmem =>
      rw [get_prepare hmetas hk.dataKey, lastWrite_eq_none.mpr]
      · rfl
      · intro op hop
        obtain ⟨e, he, rfl⟩ := mem_map.mp hop
        rw [key_stageEntry]
        rintro rfl
        exact hmem (mem_append_left _ (mem_map_of_mem he))

def sampleEnv : VoteEnv := ⟨fun _ => .ok none, fun _ => .error "no columnar table", 0⟩

def sampleUnique : Bytes := uniqueKey 7 1 (encodeKey (.str "a"))

/-- The row at 1 owns the value of a unique column. -/
def ownedStore : Store := SortedMap.empty.write
  [.put (versionKey sampleGroup.1 7 samplePk 1) sampleRow, .put sampleUnique samplePk]

def deleteEntries : List Entry :=
  [⟨versionKey sampleGroup.1 7 samplePk 2, preparedValue encodeTombstone, .rowPrepared⟩,
   ⟨sampleUnique, samplePk, .uniqueDel⟩]

def preparedDelete : Store := ownedStore.write (prepareOps json sampleTxn
  ⟨utf8 "127.0.0.1:8080", 1, 2, 0, deleteEntries.map (·.key)⟩ deleteEntries [] 2)

theorem deleteEntries_ok : UniqueEntriesOk deleteEntries ∧
    vote json sampleEnv ownedStore sampleTxn (utf8 "127.0.0.1:8080") 2 1 deleteEntries [] =
      .ok (.yes, preparedDelete) := by
  decide +kernel

/-- The prepare of a DELETE removes the unique entry, and the abort does not bring it back. -/
theorem abort_loses_unique_owner : UniqueEntriesOk deleteEntries ∧
    vote json sampleEnv ownedStore sampleTxn (utf8 "127.0.0.1:8080") 2 1 deleteEntries [] =
      .ok (.yes, preparedDelete) ∧
    ¬ AbortRestores json ownedStore preparedDelete sampleTxn := by
  refine ⟨deleteEntries_ok.1, deleteEntries_ok.2, fun h => ?_⟩
  have hget := h 0 [] [] sampleUnique (.inr (by decide +kernel))
  revert hget
  decide +kernel

theorem abort_restores_iff_deleteEntries :
    AbortRestores json ownedStore preparedDelete sampleTxn ↔
      ∀ e ∈ deleteEntries, ownedStore.get e.key = none :=
  abort_restores_iff json sampleEnv ownedStore preparedDelete sampleTxn
    (utf8 "127.0.0.1:8080") 2 1 deleteEntries [] deleteEntries_ok.1 deleteEntries_ok.2

end Rdb.Dist
