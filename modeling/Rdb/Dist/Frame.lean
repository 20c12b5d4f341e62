import Rdb.Dist.Participant

/-!
# The protocol's own records

The batches of a prepare and of a decision touch the marker and the outcome of
their own transaction and nobody else's, as long as the keys they stage are those
of rows, unique entries and segments. `MarkersOk` says so of a store, and both
batches keep it.

* `get_markerKey_prepare`, `get_outcomeKey_prepare`, `get_markerKey_decide`,
  `get_outcomeKey_decide`: the records after a batch.
* `MarkersOk.vote`, `MarkersOk.decide`: what markers list stays staged keys.
-/

namespace Rdb.Dist.Participant

open Lib Sql List SortedMap Option

/-! ## Staged keys -/

def RowOrUniqueKey (k : Bytes) : Prop := (parseVersionKey k).isSome ∨ UniqueKey k

variable {k : Bytes}

theorem RowOrUniqueKey.dataKey (h : RowOrUniqueKey k) : DataKey k := by
  rcases h with h | h
  · obtain ⟨v, hv⟩ := isSome_iff_exists.mp h
    exact dataKey_of_parseVersionKey hv
  · exact h.dataKey

theorem SecondaryKey.not_rowOrUniqueKey (h : SecondaryKey k) : ¬ RowOrUniqueKey k := by
  rintro (hk | hk)
  · rw [h.parseVersionKey] at hk
    cases hk
  · exact h.not_uniqueKey hk

def UniqueEntriesOk (entries : List Entry) : Prop :=
  ∀ e ∈ entries, e.kind ≠ .rowPrepared → UniqueKey e.key
  deriving Decidable

variable {commitTs readTs : Nat} {entries : List Entry}

theorem rowOrUniqueKey_of_entry {store : Store} {vacated : List Bytes}
    (hent : UniqueEntriesOk entries)
    (hcheck : checkEntries store commitTs readTs vacated [] entries = .ok none) {e : Entry}
    (he : e ∈ entries) : RowOrUniqueKey e.key := by
  by_cases hr : e.kind = .rowPrepared
  · exact .inl (parse_of_checkEntries hcheck he hr)
  · exact .inr (hent e he hr)

/-- The keys a marker may list. -/
def StagedKey (k : Bytes) : Prop := RowOrUniqueKey k ∨ (parseMetaKey k).isSome

def NoRecord (k : Bytes) : Prop := ∀ txnId, markerKey txnId ≠ k ∧ outcomeKey txnId ≠ k

theorem DataKey.noRecord (h : DataKey k) : NoRecord k := fun txnId =>
  ⟨h.ne (slotOfKey_markerKey txnId), h.ne (slotOfKey_outcomeKey txnId)⟩

theorem noRecord_floorKey : NoRecord floorKey := fun txnId =>
  ⟨(floorKey_ne_markerKey txnId).symm, (floorKey_ne_outcomeKey txnId).symm⟩

theorem noRecord_of_isMeta (h : (parseMetaKey k).isSome) : NoRecord k := by
  have hk := head?_of_parseMetaKey h
  refine fun txnId => ⟨?_, ?_⟩ <;> rintro rfl
  · exact absurd (some.inj hk) (by decide)
  · exact absurd (some.inj hk) (by decide)

theorem StagedKey.noRecord (h : StagedKey k) : NoRecord k := by
  rcases h with h | h
  · exact h.dataKey.noRecord
  · exact noRecord_of_isMeta h

theorem SecondaryKey.not_stagedKey (h : SecondaryKey k) : ¬ StagedKey k := by
  rintro (hk | hk)
  · exact h.not_rowOrUniqueKey hk
  · exact h.dataKey.ne (slotOfKey_of_isMeta hk) rfl

def MarkersOk (J : Serde) (store : Store) : Prop :=
  ∀ txnId, ∀ k ∈ stagedKeys J store txnId, StagedKey k

/-! ## The records after a batch -/

variable {J : Serde} {store : Store} {txnId : TxnId}

theorem lastWrite_noRecord {ops : List WriteOp} (h : ∀ op ∈ ops, NoRecord op.key) (t : TxnId) :
    lastWrite (markerKey t) ops = none ∧ lastWrite (outcomeKey t) ops = none :=
  ⟨lastWrite_eq_none.mpr fun op hop => ((h op hop t).1).symm,
    lastWrite_eq_none.mpr fun op hop => ((h op hop t).2).symm⟩

variable {c : Prop} {hi : Nat}

theorem noRecord_of_mem_stamp [Decidable c] {op : WriteOp}
    (h : op ∈ if c then [stamp hi] else []) : NoRecord op.key := by
  split at h
  · cases mem_singleton.mp h
    exact noRecord_floorKey
  · cases h

theorem get_write_records [Decidable c] {body : List WriteOp} {x : Bytes} {t : TxnId}
    (recs : List WriteOp) (hbody : ∀ op ∈ body, NoRecord op.key)
    (hx : x = markerKey t ∨ x = outcomeKey t) :
    (store.write (body ++ (recs ++ if c then [stamp hi] else []))).get x =
      (store.write recs).get x := by
  obtain ⟨hm, ho⟩ := lastWrite_noRecord hbody t
  have hstamp : ∀ op ∈ (if c then [stamp hi] else []), NoRecord op.key :=
    fun _ => noRecord_of_mem_stamp
  obtain ⟨hm', ho'⟩ := lastWrite_noRecord hstamp t
  rw [get_write, get_write, lastWrite_append, lastWrite_append]
  rcases hx with rfl | rfl
  · rw [hm, hm', none_or, or_none]
  · rw [ho, ho', none_or, or_none]

section Prepare

variable {m : Marker} {entries : List Entry} {metas : List (Bytes × Bytes)} {hi : Nat}

theorem noRecord_staged (hent : ∀ e ∈ entries, RowOrUniqueKey e.key)
    (hmetas : ∀ p ∈ metas, (parseMetaKey p.1).isSome) :
    ∀ op ∈ entries.map stageEntry ++ metas.map (fun p => (.put p.1 p.2 : WriteOp)),
      NoRecord op.key := by
  intro op hop
  rcases mem_append.mp hop with hop | hop
  · obtain ⟨e, he, rfl⟩ := mem_map.mp hop
    rw [key_stageEntry]
    exact (hent e he).dataKey.noRecord
  · obtain ⟨p, hp, rfl⟩ := mem_map.mp hop
    exact noRecord_of_isMeta (hmetas p hp)

theorem get_markerKey_prepare (hent : ∀ e ∈ entries, RowOrUniqueKey e.key)
    (hmetas : ∀ p ∈ metas, (parseMetaKey p.1).isSome) (t : TxnId) :
    (store.write (prepareOps J txnId m entries metas hi)).get (markerKey t) =
      if txnId = t then some (J.marker.toVec m) else store.get (markerKey t) := by
  refine (get_write_records [.put _ _] (noRecord_staged hent hmetas) (.inl rfl)).trans ?_
  refine (get_put _ _ _ _).trans ?_
  simp only [markerKey_inj]

theorem get_outcomeKey_prepare (hent : ∀ e ∈ entries, RowOrUniqueKey e.key)
    (hmetas : ∀ p ∈ metas, (parseMetaKey p.1).isSome) (t : TxnId) :
    (store.write (prepareOps J txnId m entries metas hi)).get (outcomeKey t) =
      store.get (outcomeKey t) := by
  refine (get_write_records [.put _ _] (noRecord_staged hent hmetas) (.inr rfl)).trans ?_
  exact (get_put _ _ _ _).trans (if_neg (markerKey_ne_outcomeKey txnId t))

end Prepare

section Decide

variable {now : Nat} {bind : Addr} {commit : Bool} {indexOps : List WireOp}

theorem noRecord_decideBody {keys : List Bytes} (hkeys : ∀ k ∈ keys, StagedKey k)
    (hops : ∀ op ∈ indexOps, DataKey op.1) :
    ∀ op ∈ decideBody J store keys commit indexOps, NoRecord op.key := by
  intro op hop
  unfold decideBody at hop
  split at hop
  · rcases mem_append.mp hop with hop | hop
    · obtain ⟨k, hk, hop⟩ := mem_filterMap.mp hop
      obtain ⟨v, -, rfl⟩ := map_eq_some_iff.mp hop
      exact (hkeys k hk).noRecord
    · obtain ⟨w, hw, rfl⟩ := mem_map.mp hop
      rw [key_applyOp]
      exact (hops w hw).noRecord
  · obtain ⟨k, hk, rfl⟩ := mem_map.mp hop
    exact (hkeys k hk).noRecord

theorem get_markerKey_decide (hkeys : ∀ k ∈ stagedKeys J store txnId, StagedKey k)
    (hops : ∀ op ∈ indexOps, DataKey op.1) (t : TxnId) :
    (Participant.decide J now store txnId bind commit indexOps).1.get (markerKey t) =
      if txnId = t then none else store.get (markerKey t) := by
  refine (get_write_records [.del _, .put _ _] (noRecord_decideBody hkeys hops) (.inl rfl)).trans ?_
  refine (get_put _ _ _ _).trans ?_
  refine (get_delete _ _ _).trans ?_
  simp only [markerKey_inj]

theorem get_outcomeKey_decide (hkeys : ∀ k ∈ stagedKeys J store txnId, StagedKey k)
    (hops : ∀ op ∈ indexOps, DataKey op.1) (t : TxnId) :
    (Participant.decide J now store txnId bind commit indexOps).1.get (outcomeKey t) =
      if txnId = t then
        some (J.outcome.toVec (participantOutcome now
          (((readMarker J store txnId).map (·.commitTs)).getD 0) bind commit indexOps))
      else store.get (outcomeKey t) := by
  refine (get_write_records [.del _, .put _ _] (noRecord_decideBody hkeys hops) (.inr rfl)).trans ?_
  refine (get_put _ _ _ _).trans ?_
  simp only [outcomeKey_inj]
  split
  · rfl
  · exact (get_delete _ _ _).trans (if_neg (markerKey_ne_outcomeKey txnId t))

end Decide

/-! ## Markers stay well formed -/

variable {s t : Store}

theorem readMarker_congr (h : s.get (markerKey txnId) = t.get (markerKey txnId)) :
    readMarker J s txnId = readMarker J t txnId := by
  rw [readMarker, readMarker, h]

theorem stagedKeys_congr (h : s.get (markerKey txnId) = t.get (markerKey txnId)) :
    stagedKeys J s txnId = stagedKeys J t txnId := by
  rw [stagedKeys, stagedKeys, readMarker_congr h]

theorem stagedKeys_of_get_none (h : store.get (markerKey txnId) = none) :
    stagedKeys J store txnId = [] := by
  rw [stagedKeys, readMarker, h]
  rfl

theorem markersOk_empty (J : Serde) : MarkersOk J SortedMap.empty := fun _ _ h => by cases h

theorem MarkersOk.vote {env : VoteEnv} {coordinator : Addr} {segments : List PendingSegment}
    {after : Store} (hm : MarkersOk J store) (hent : UniqueEntriesOk entries)
    (h : vote J env store txnId coordinator commitTs readTs entries segments = .ok (.yes, after)) :
    MarkersOk J after := by
  obtain ⟨hcheck, metas, hmetas, rfl⟩ := vote_eq_yes h
  have hrow := fun e he => rowOrUniqueKey_of_entry hent hcheck (e := e) he
  intro t k hk
  by_cases ht : txnId = t
  · subst ht
    rw [stagedKeys_prepare] at hk
    rcases mem_append.mp hk with hk | hk
    · obtain ⟨e, he, rfl⟩ := mem_map.mp hk
      exact .inl (hrow e he)
    · obtain ⟨p, hp, rfl⟩ := mem_map.mp hk
      exact .inr (hmetas p hp)
  · rw [stagedKeys_congr (t := store) (by rw [get_markerKey_prepare hrow hmetas, if_neg ht])] at hk
    exact hm t k hk

theorem MarkersOk.decide {now : Nat} {bind : Addr} {commit : Bool} {indexOps : List WireOp}
    (hm : MarkersOk J store) (hops : ∀ op ∈ indexOps, DataKey op.1) :
    MarkersOk J (Participant.decide J now store txnId bind commit indexOps).1 := by
  intro t k hk
  by_cases ht : txnId = t
  · rw [stagedKeys_of_get_none (by rw [get_markerKey_decide (hm txnId) hops, if_pos ht])] at hk
    cases hk
  · rw [stagedKeys_congr (t := store)
      (by rw [get_markerKey_decide (hm txnId) hops, if_neg ht])] at hk
    exact hm t k hk

end Rdb.Dist.Participant
