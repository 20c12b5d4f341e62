import Rdb.Dist.Proto

/-!
# The participant of the distributed commit

All state of a participant is in its store. `vote` validates the entries of a
prepare and stages them in one batch with an in-doubt marker; `Participant.decide`
applies a decision, removes the marker and records the outcome in one batch.

* `vote_eq_yes`: the batch of an accepted prepare.
* `get_prepare`, `get_decide`: what the two batches leave at a data key. Data
  keys have a slot in front; the keys of the protocol's own records have none.
-/

namespace Rdb.Dist

open Lib Sql List

/-- One table's appended rows, planned into a segment. -/
structure PendingSegment where
  schema : TableSchema
  segmentId : Nat
  commitTs : Nat
  rows : List (List Value)
  deriving DecidableEq

/-- What a vote reads besides the store: the catalog, the segment writer and the clock. -/
structure VoteEnv where
  lookup : String → Except String (Option TableSchema)
  /-- Writes a segment file; its name and row count. -/
  writeSegmentFile : PendingSegment → Except String (Bytes × Nat)
  now : Nat

inductive Vote where
  | yes
  | no (reason : String)
  deriving DecidableEq

namespace Participant

def markerPrefix : Bytes := utf8 "sql2pc/"
def outcomePrefix : Bytes := utf8 "sql2pc_out/"

def markerKey (txnId : TxnId) : Bytes := markerPrefix ++ txnId
def outcomeKey (txnId : TxnId) : Bytes := outcomePrefix ++ txnId

def leaseSecs : Nat := 60
def outcomeGcSecs : Nat := 300

variable (J : Serde)

def readMarker (store : Store) (txnId : TxnId) : Option Marker :=
  (store.get (markerKey txnId)).bind J.marker.fromSlice

def readOutcome (store : Store) (txnId : TxnId) : Option OutcomeRecord :=
  (store.get (outcomeKey txnId)).bind J.outcome.fromSlice

/-- Whether a marker may be aborted without asking anyone. -/
def leaseExpired (now : Nat) (m : Marker) : Bool := leaseSecs < now - m.startedAt

/-! ## Prepare -/

def dupReason : String := "dup: unique value already owned by another row"

def conflictReason (n readTs : Nat) : String :=
  s!"conflict: write-write conflict on row committed at ts {n} after read ts {readTs}"

/-- A unique entry against the store: keys the batch vacates are exempt. -/
def checkOwner (store : Store) (vacated : List Bytes) (e : Entry) : Option String :=
  if e.key ∈ vacated then none
  else match (store.get e.key).filter (fun v => !v.isEmpty) with
    | some owner => if owner ≠ e.value then some dupReason else none
    | none => none

/-- The veto an entry earns, if any; `claimed` are the unique keys put before it. -/
def checkEntry (store : Store) (commitTs readTs : Nat) (vacated : List Bytes)
    (claimed : List (Bytes × Bytes)) (e : Entry) : Except String (Option String) :=
  match e.kind with
  | .rowPrepared => match parseVersionKey e.key with
    | none => .error "conflict: unparsable row key"
    | some v => match newestVersionTs store v.tableId v.pk with
      | none => .ok none
      | some n =>
        -- a version of our own retried prepare is no conflict
        let ownRetry := n = commitTs ∨ n = v.ts
        if readTs < n ∧ ¬ ownRetry then .ok (some (conflictReason n readTs)) else .ok none
  | .uniquePut => match claimed.lookup e.key with
    | some first =>
      if first ≠ e.value then .ok (some dupReason) else .ok (checkOwner store vacated e)
    | none => .ok (checkOwner store vacated e)
  | .uniqueDel => .ok none

def claim (claimed : List (Bytes × Bytes)) (e : Entry) : List (Bytes × Bytes) :=
  match e.kind, claimed.lookup e.key with
  | .uniquePut, none => (e.key, e.value) :: claimed
  | _, _ => claimed

def checkEntries (store : Store) (commitTs readTs : Nat) (vacated : List Bytes) :
    List (Bytes × Bytes) → List Entry → Except String (Option String)
  | _, [] => .ok none
  | claimed, e :: es => match checkEntry store commitTs readTs vacated claimed e with
    | .error err => .error err
    | .ok (some veto) => .ok (some veto)
    | .ok none => checkEntries store commitTs readTs vacated (claim claimed e) es

/-- The first veto of the segments: the local catalog must agree. -/
def checkSegments (env : VoteEnv) : List PendingSegment → Except String (Option String)
  | [] => .ok none
  | seg :: segs => match env.lookup seg.schema.name with
    | .error e => .error s!"error: catalog lookup failed: {e}"
    | .ok found =>
      let matching := found.any fun s => decide (s.engine = .columnar ∧ s.id = seg.schema.id ∧
        s.columns = seg.schema.columns)
      if matching then checkSegments env segs
      else .ok (some s!"schema mismatch for columnar table '{seg.schema.name}'")

def stageEntry (e : Entry) : WriteOp :=
  match e.kind with
  | .uniqueDel => .del e.key
  | _ => .put e.key e.value

/-- A segment's file is written and its meta staged as prepared. -/
def stageSegment (env : VoteEnv) (seg : PendingSegment) : Except String (Bytes × Bytes) :=
  match env.writeSegmentFile seg with
  | .error e => .error s!"error: columnar flush failed: {e}"
  | .ok (file, numRows) =>
    let m : SegmentMeta :=
      { tableId := seg.schema.id, tableName := utf8 seg.schema.name, segmentId := seg.segmentId,
        commitTs := seg.commitTs, state := .prepared, numRows, file }
    match encodeMeta J.segment m with
    | none => .error
        ("error: columnar flush failed: " ++
          s!"segment meta too large ({(J.segment.toVec m).length} bytes)")
    | some encoded => .ok (metaKey m.tableId m.segmentId, encoded)

def stagedMaxTs (entries : List Entry) (segments : List PendingSegment) : Nat :=
  entries.foldl (fun hi e => match e.kind, parseVersionKey e.key with
    | .rowPrepared, some v => max hi v.ts
    | _, _ => hi) ((segments.map (·.commitTs)).foldl max 0)

def prepareOps (txnId : TxnId) (m : Marker) (entries : List Entry) (metas : List (Bytes × Bytes))
    (hi : Nat) : List WriteOp :=
  entries.map stageEntry ++ metas.map (fun p => .put p.1 p.2) ++
    (.put (markerKey txnId) (J.marker.toVec m) :: if 0 < hi then [stamp hi] else [])

/-- PREPARE: validate every entry, then stage one batch. -/
def vote (env : VoteEnv) (store : Store) (txnId : TxnId) (coordinator : Addr)
    (commitTs readTs : Nat) (entries : List Entry) (segments : List PendingSegment) :
    Except String (Vote × Store) := do
  let vacated := (entries.filter (·.kind = .uniqueDel)).map (·.key)
  match ← checkEntries store commitTs readTs vacated [] entries with
  | some veto => return (.no veto, store)
  | none =>
    match ← checkSegments env segments with
    | some veto => return (.no veto, store)
    | none =>
      let metas ← segments.mapM (stageSegment J env)
      let m : Marker := { coordinator, readTs, commitTs, startedAt := env.now,
                          keys := entries.map (·.key) ++ metas.map (·.1) }
      return (.yes, store.write (prepareOps J txnId m entries metas (stagedMaxTs entries segments)))

/-! ## Decide -/

/-- What a commit puts at a staged key: prepared rows get their final header, prepared segments
become live, anything else stays. -/
def flipValue (store : Store) (key : Bytes) : Option Bytes :=
  (store.get key).bind fun v =>
    if (parseMetaKey key).isSome then
      (decodeMeta J.segment v).bind fun m =>
        if m.state = .prepared then encodeMeta J.segment { m with state := .live } else none
    else if isPrepared v then some (finalHeader v :: v.tail)
    else none

/-- The timestamp a commit makes visible at a staged key. -/
def flipTs (store : Store) (key : Bytes) : Nat :=
  match store.get key with
  | none => 0
  | some v =>
    if (parseMetaKey key).isSome then ((decodeMeta J.segment v).map (·.commitTs)).getD 0
    else if isPrepared v then ((parseVersionKey key).map (·.ts)).getD 0
    else 0

/-- The data writes of a decision over the staged keys. -/
def decideBody (store : Store) (keys : List Bytes) (commit : Bool) (indexOps : List WireOp) :
    List WriteOp :=
  if commit then
    keys.filterMap (fun k => (flipValue J store k).map (.put k)) ++ indexOps.map applyOp
  else keys.map .del

def participantOutcome (now : Nat) (commitTs : Nat) (bind : Addr) (commit : Bool)
    (indexOps : List WireOp) : OutcomeRecord where
  commit := commit
  commitTs := commitTs
  writtenAt := now
  indexOps := if commit then SortedMap.empty.put bind indexOps else SortedMap.empty
  ownOps := indexOps

def decisionRecords (txnId : TxnId) (record : OutcomeRecord) (hi : Nat) : List WriteOp :=
  .del (markerKey txnId) :: .put (outcomeKey txnId) (J.outcome.toVec record) ::
    if record.commit ∧ 0 < hi then [stamp hi] else []

/-- The highest timestamp a decision over the staged keys makes visible. -/
def decisionTs (store : Store) (commitTs : Nat) (keys : List Bytes) (commit : Bool) : Nat :=
  if commit then keys.foldl (fun hi k => max hi (flipTs J store k)) commitTs else commitTs

/-- DECIDE: flips, index writes, marker removal and the outcome record in one batch. Returns the
highest timestamp the decision made visible. -/
protected def decide (now : Nat) (store : Store) (txnId : TxnId) (bind : Addr) (commit : Bool)
    (indexOps : List WireOp) : Store × Nat :=
  let marker := readMarker J store txnId
  let keys := (marker.map (·.keys)).getD []
  let commitTs := (marker.map (·.commitTs)).getD 0
  let hi := decisionTs J store commitTs keys commit
  let record := participantOutcome now commitTs bind commit indexOps
  (store.write (decideBody J store keys commit indexOps ++ decisionRecords J txnId record hi), hi)

/-- TxnStatus answer from this node's records. -/
def status (store : Store) (txnId : TxnId) (node : Addr) : Outcome :=
  match readOutcome J store txnId with
  | some rec =>
    if rec.commit then .committed ((rec.indexOps.get node).getD []) else .aborted
  | none => .unknown

/-- The record a coordinator writes before it tells anyone its decision. -/
def coordinatorOutcome (now : Nat) (commit : Bool) (commitTs : Nat)
    (indexOps : SortedMap Bytes (List WireOp)) : OutcomeRecord :=
  { commit, commitTs, writtenAt := now, indexOps, ownOps := [] }

def markers (store : Store) : List (TxnId × Marker) :=
  (store.prefixIterCollect markerPrefix 10000).filterMap fun e =>
    (J.marker.fromSlice e.2).map (e.1.drop markerPrefix.length, ·)

def outcomes (store : Store) : List (TxnId × OutcomeRecord) :=
  (store.prefixIterCollect outcomePrefix 100000).filterMap fun e =>
    (J.outcome.fromSlice e.2).map (e.1.drop outcomePrefix.length, ·)

/-! ## Keys -/

/-- Row versions and index entries: the keys with a slot in front. -/
def DataKey (k : Bytes) : Prop := (slotOfKey k).isSome
  deriving Decidable

variable {k : Bytes}

theorem DataKey.ne {k' : Bytes} (h : DataKey k) (h' : slotOfKey k' = none) : k' ≠ k := by
  rintro rfl
  rw [DataKey, h'] at h
  cases h

theorem slotOfKey_markerKey (txnId : TxnId) : slotOfKey (markerKey txnId) = none :=
  slotOfKey_eq_none (x := 0x73) rfl (by decide) (by decide)

theorem slotOfKey_outcomeKey (txnId : TxnId) : slotOfKey (outcomeKey txnId) = none :=
  slotOfKey_eq_none (x := 0x73) rfl (by decide) (by decide)

theorem dataKey_of_parseVersionKey {v : VersionKey} (h : parseVersionKey k = some v) :
    DataKey k := by
  rw [DataKey, slotOfKey_of_parseVersionKey h]
  rfl

def UniqueKey (k : Bytes) : Prop :=
  ((parseIndexKey k).any fun ik => ik.kind == kindSqlUniqueIndex)
  deriving Decidable

def SecondaryKey (k : Bytes) : Prop :=
  ((parseIndexKey k).any fun ik => ik.kind == kindSqlIndex)
  deriving Decidable

theorem UniqueKey.dataKey (h : UniqueKey k) : DataKey k := by
  obtain ⟨ik, hik, -⟩ := (Option.any_eq_true _ _).mp h
  exact isSome_slotOfKey_of_parseIndexKey hik

theorem SecondaryKey.dataKey (h : SecondaryKey k) : DataKey k := by
  obtain ⟨ik, hik, -⟩ := (Option.any_eq_true _ _).mp h
  exact isSome_slotOfKey_of_parseIndexKey hik

theorem UniqueKey.parseVersionKey (h : UniqueKey k) : parseVersionKey k = none := by
  obtain ⟨ik, hik, -⟩ := (Option.any_eq_true _ _).mp h
  exact parseVersionKey_of_parseIndexKey hik

theorem SecondaryKey.parseVersionKey (h : SecondaryKey k) : parseVersionKey k = none := by
  obtain ⟨ik, hik, -⟩ := (Option.any_eq_true _ _).mp h
  exact parseVersionKey_of_parseIndexKey hik

theorem SecondaryKey.not_uniqueKey (h : SecondaryKey k) : ¬ UniqueKey k := by
  intro h'
  obtain ⟨ik, hik, hk⟩ := (Option.any_eq_true _ _).mp h
  obtain ⟨ik', hik', hk'⟩ := (Option.any_eq_true _ _).mp h'
  cases hik.symm.trans hik'
  rw [beq_iff_eq] at hk hk'
  rw [hk] at hk'
  revert hk'
  decide

variable {a b : TxnId}

theorem markerKey_inj : markerKey a = markerKey b ↔ a = b :=
  append_cancel_left_eq markerPrefix a b |>.to_iff

theorem outcomeKey_inj : outcomeKey a = outcomeKey b ↔ a = b :=
  append_cancel_left_eq outcomePrefix a b |>.to_iff

theorem markerKey_ne_outcomeKey (a b : TxnId) : markerKey a ≠ outcomeKey b := by
  intro h
  have h7 := congrArg (fun l : Bytes => l.take 7) h
  have hm : (markerKey a).take 7 = markerPrefix := take_left' rfl
  have ho : (outcomeKey b).take 7 = outcomePrefix.take 7 := take_append_of_le_length (by decide)
  rw [hm, ho] at h7
  revert h7
  decide

theorem floorKey_ne_markerKey (a : TxnId) : floorKey ≠ markerKey a := by
  intro h
  cases (cons.inj h).1

theorem floorKey_ne_outcomeKey (a : TxnId) : floorKey ≠ outcomeKey a := by
  intro h
  cases (cons.inj h).1

/-! ## What the two batches leave -/

variable {J} {env : VoteEnv} {store : Store} {txnId : TxnId}

theorem isMeta_of_stageSegment {seg : PendingSegment} {p : Bytes × Bytes}
    (h : stageSegment J env seg = .ok p) : (parseMetaKey p.1).isSome := by
  unfold stageSegment at h
  split at h
  · cases h
  · dsimp only at h
    split at h
    · cases h
    · cases h
      simp [metaKey, parseMetaKey]

variable {commitTs readTs : Nat} {entries : List Entry} {coordinator : Addr}
  {segments : List PendingSegment} {after : Store}

/-- What an accepted prepare has checked, and its batch. -/
def Accepts (J : Serde) (env : VoteEnv) (store : Store) (txnId : TxnId) (coordinator : Addr)
    (commitTs readTs : Nat) (entries : List Entry) (segments : List PendingSegment)
    (after : Store) : Prop :=
  checkEntries store commitTs readTs ((entries.filter (·.kind = .uniqueDel)).map (·.key)) []
      entries = .ok none ∧
    ∃ metas : List (Bytes × Bytes), (∀ p ∈ metas, (parseMetaKey p.1).isSome) ∧
      after = store.write (prepareOps J txnId
        ⟨coordinator, readTs, commitTs, env.now, entries.map (·.key) ++ metas.map (·.1)⟩
        entries metas (stagedMaxTs entries segments))

theorem vote_inv {v : Vote}
    (h : vote J env store txnId coordinator commitTs readTs entries segments = .ok (v, after)) :
    (∃ reason, v = .no reason ∧ after = store) ∨
      v = .yes ∧ Accepts J env store txnId coordinator commitTs readTs entries segments after := by
  obtain ⟨veto, hc, h⟩ := bind_eq_ok.mp h
  cases veto with
  | some veto => cases h; exact .inl ⟨veto, rfl, rfl⟩
  | none =>
    obtain ⟨veto, -, h⟩ := bind_eq_ok.mp h
    cases veto with
    | some veto => cases h; exact .inl ⟨veto, rfl, rfl⟩
    | none =>
      obtain ⟨metas, hm, h⟩ := bind_eq_ok.mp h
      cases h
      refine .inr ⟨rfl, hc, metas, fun p hp => ?_, rfl⟩
      obtain ⟨seg, -, hseg⟩ := (mapM_ok_spec hm).1 p hp
      exact isMeta_of_stageSegment hseg

theorem vote_eq_yes
    (h : vote J env store txnId coordinator commitTs readTs entries segments = .ok (.yes, after)) :
    Accepts J env store txnId coordinator commitTs readTs entries segments after := by
  rcases vote_inv h with ⟨reason, hv, -⟩ | ⟨-, h⟩
  · cases hv
  · exact h

theorem key_stageEntry (e : Entry) : (stageEntry e).key = e.key := by
  unfold stageEntry
  split <;> rfl

theorem parse_of_checkEntries {vacated : List Bytes} {claimed : List (Bytes × Bytes)}
    (h : checkEntries store commitTs readTs vacated claimed entries = .ok none) {e : Entry}
    (he : e ∈ entries) (hk : e.kind = .rowPrepared) : (parseVersionKey e.key).isSome := by
  induction entries generalizing claimed with
  | nil => cases he
  | cons e' es ih =>
    rw [checkEntries] at h
    split at h
    · cases h
    · cases h
    · next hc =>
      rcases mem_cons.mp he with rfl | he
      · rw [checkEntry, hk] at hc
        cases hp : parseVersionKey e.key with
        | none => rw [hp] at hc; cases hc
        | some v => rfl
      · exact ih h he

def stagedKeys (J : Serde) (store : Store) (txnId : TxnId) : List Bytes :=
  ((readMarker J store txnId).map (·.keys)).getD []

section Prepare

variable {m : Marker} {entries : List Entry} {metas : List (Bytes × Bytes)} {hi : Nat}

theorem get_prepare (hmetas : ∀ p ∈ metas, (parseMetaKey p.1).isSome) (hk : DataKey k) :
    (store.write (prepareOps J txnId m entries metas hi)).get k =
      (lastWrite k (entries.map stageEntry)).getD (store.get k) := by
  rw [SortedMap.get_write, prepareOps, append_assoc, lastWrite_append_of_not_mem]
  intro op hop
  rcases mem_append.mp hop with hop | hop
  · obtain ⟨p, hp, rfl⟩ := mem_map.mp hop
    exact hk.ne (slotOfKey_of_isMeta (hmetas p hp))
  · rcases mem_cons.mp hop with rfl | hop
    · exact hk.ne (slotOfKey_markerKey txnId)
    · split at hop
      · cases mem_singleton.mp hop
        exact hk.ne slotOfKey_floorKey
      · cases hop

theorem readMarker_prepare :
    readMarker J (store.write (prepareOps J txnId m entries metas hi)) txnId = some m := by
  have hlast : lastWrite (markerKey txnId) (prepareOps J txnId m entries metas hi) =
      some (some (J.marker.toVec m)) := by
    rw [prepareOps, lastWrite_append, lastWrite_cons, lastWrite_eq_none.mpr]
    · simp
    · intro op hop
      split at hop
      · cases mem_singleton.mp hop
        exact floorKey_ne_markerKey txnId
      · cases hop
  rw [readMarker, SortedMap.get_write, hlast, Option.getD_some, Option.bind_some,
    J.marker.fromSlice_toVec]

theorem stagedKeys_prepare :
    stagedKeys J (store.write (prepareOps J txnId m entries metas hi)) txnId = m.keys := by
  rw [stagedKeys, readMarker_prepare]
  rfl

end Prepare

section Decide

variable {now : Nat} {bind : Addr} {commit : Bool} {indexOps : List WireOp}

theorem slotOfKey_of_mem_decisionRecords {record : OutcomeRecord} {hi : Nat} {op : WriteOp}
    (h : op ∈ decisionRecords J txnId record hi) : slotOfKey op.key = none := by
  rcases mem_cons.mp h with rfl | h
  · exact slotOfKey_markerKey txnId
  · rcases mem_cons.mp h with rfl | h
    · exact slotOfKey_outcomeKey txnId
    · split at h
      · cases mem_singleton.mp h
        exact slotOfKey_floorKey
      · cases h

theorem get_decide (hk : DataKey k) :
    (Participant.decide J now store txnId bind commit indexOps).1.get k =
      (lastWrite k (decideBody J store (stagedKeys J store txnId) commit indexOps)).getD
        (store.get k) := by
  rw [Participant.decide, SortedMap.get_write, lastWrite_append_of_not_mem]
  · rfl
  · exact fun op hop => hk.ne (slotOfKey_of_mem_decisionRecords hop)

theorem lastWrite_decideBody {keys : List Bytes} (hk : ∀ k' ∈ keys, k' ≠ k) :
    lastWrite k (decideBody J store keys commit indexOps) =
      lastWrite k (if commit then indexOps.map applyOp else []) := by
  unfold decideBody
  split
  · have hflips :
        lastWrite k (keys.filterMap fun k => (flipValue J store k).map (.put k)) = none := by
      refine lastWrite_eq_none.mpr fun op hop => ?_
      obtain ⟨k', hk', hop⟩ := mem_filterMap.mp hop
      obtain ⟨v, -, rfl⟩ := Option.map_eq_some_iff.mp hop
      exact hk k' hk'
    rw [lastWrite_append, hflips, Option.or_none]
  · rw [lastWrite_map_del, if_neg fun h => hk k h rfl]
    rfl

theorem get_decide_abort (hk : DataKey k) :
    (Participant.decide J now store txnId bind false indexOps).1.get k =
      if k ∈ stagedKeys J store txnId then none else store.get k := by
  rw [get_decide hk, decideBody, if_neg (by simp), lastWrite_map_del]
  split <;> rfl

end Decide

end Participant

end Rdb.Dist
