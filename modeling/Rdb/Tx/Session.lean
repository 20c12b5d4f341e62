import Mathlib.Data.Prod.Lex
import Mathlib.Data.String.Basic
import Rdb.Tx.Oracle

/-!
# Writers: explicit transactions and autocommit statements

A transaction is plain data: the pinned read timestamp and the staged writes.
COMMIT validates the staged keys against the store, takes one range of
timestamps and flushes one batch; an autocommit statement does the same without
the validation. `BatchFits` is what all these batches have in common: their
records carry timestamps of the range, each under its own key, and the floor is
stamped with the last one.

* `conflictCheck_eq_ok`: what a passed validation has seen.
* `commitBatch_fits`, `statementBatch_fits`, `segmentBatch_fits`: the batches of
  the three kinds of writer fit their range.
-/

namespace Rdb.Tx

open Lib Sql List

inductive ErrorCode where
  | parse | noSuchTable | tableExists | badField | dupEntry | badNull | wrongValueCount
  | notSupported | writeConflict | wrongValue | unknown | lockWaitTimeout | unknownSavepoint
  deriving DecidableEq

inductive SqlError where
  | err (code : ErrorCode) (msg : String)
  /-- A storage error, raised with code `Unknown`. -/
  | storage (e : RowError)
  deriving DecidableEq

/-- Buffered write identity: `(table_id, encoded primary key)`, in this order. -/
abbrev TxnKey := Nat ×ₗ Bytes

def TxnKey.tableId (k : TxnKey) : Nat := (ofLex k).1
def TxnKey.pk (k : TxnKey) : Bytes := (ofLex k).2

def TxnKey.version (k : TxnKey) (ts : Nat) : Bytes :=
  versionKey (slotOf k.tableId k.pk) k.tableId k.pk ts

inductive TxnWrite where
  | row (values : List Value)
  | tombstone

structure Txn where
  readTs : Nat
  writes : SortedMap TxnKey TxnWrite
  /-- Columnar appends by table name. -/
  appends : SortedMap String (List (List Value))
  /-- The engine of the first staged write. -/
  mode : Option Engine

/-- What a writer reads besides the store: the catalog and the segment writer. -/
structure Env where
  tables : List TableSchema
  lookup : String → Except String (Option TableSchema)
  /-- Writes a segment file; its name and row count. -/
  writeSegmentFile : TableSchema → Nat → List (List Value) → Except String (Bytes × Nat)

namespace Txn

/-- BEGIN: pin the latest timestamp and register the snapshot. -/
def begin (o : Oracle) : Oracle × Txn :=
  (o.registerSnapshot o.now, ⟨o.now, SortedMap.empty, SortedMap.empty, none⟩)

/-- One transaction touches one engine. -/
def checkEngine (txn : Txn) (engine : Engine) : Except SqlError Unit :=
  match txn.mode with
  | none => .ok ()
  | some m =>
    if m = engine then .ok ()
    else
      let kind := if m = .columnar then "columnar" else "row-store"
      .error (.err .notSupported
        ("a transaction cannot mix row-store and columnar writes                  " ++
          s!"(already staged a {kind} write)"))

def stageAppend (txn : Txn) (table : String) (values : List Value) : Except SqlError Txn := do
  txn.checkEngine .columnar
  return { txn with
    mode := some .columnar
    appends := txn.appends.put table ((txn.appends.get table).getD [] ++ [values]) }

/-- Stage a full-width row; `none` is the panic of a schema without its key column. -/
def stageUpsert (txn : Txn) (schema : TableSchema) (values : List Value) :
    Option (Except SqlError Txn) :=
  match txn.checkEngine .row with
  | .error e => some (.error e)
  | .ok () => (pkEncodeRow schema values).map fun pk => .ok { txn with
      mode := some .row, writes := txn.writes.put (toLex (schema.id, pk)) (.row values) }

def stageDelete (txn : Txn) (schema : TableSchema) (pkKey : Bytes) : Except SqlError Txn := do
  txn.checkEngine .row
  return { txn with
    mode := some .row, writes := txn.writes.put (toLex (schema.id, pkKey)) .tombstone }

end Txn

/-! ## Validation -/

def hex (bytes : Bytes) : String :=
  String.join (bytes.map fun b =>
    String.ofList [Nat.digitChar (b.toNat / 16), Nat.digitChar (b.toNat % 16)])

def conflictText (k : TxnKey) (ts readTs : Nat) : String :=
  s!"write-write conflict on PK (table {k.tableId}, key {hex k.pk}): " ++
    s!"committed at ts {ts} after snapshot ts {readTs}"

/-- First-committer-wins: the newest version of every staged key is at or below the snapshot. -/
def conflictCheck (store : Store) (txn : Txn) : Except SqlError Unit :=
  go txn.writes.entries
where
  go : List (TxnKey × TxnWrite) → Except SqlError Unit
    | [] => .ok ()
    | (k, _) :: rest => match newestVersionTs store k.tableId k.pk with
      | some ts =>
        if txn.readTs < ts then .error (.err .writeConflict (conflictText k ts txn.readTs))
        else go rest
      | none => go rest

variable {store : Store} {txn : Txn} {ts : Nat} {w : TxnWrite}

theorem conflictCheck_eq_ok (h : conflictCheck store txn = .ok ()) {k : TxnKey}
    (hk : txn.writes.get k = some w)
    (hts : newestVersionTs store k.tableId k.pk = some ts) : ts ≤ txn.readTs := by
  have key : ∀ l, conflictCheck.go store txn l = .ok () → (k, w) ∈ l → ts ≤ txn.readTs := by
    intro l
    induction l with
    | nil => intro _ hm; cases hm
    | cons e l ih =>
      intro hgo hm
      rw [conflictCheck.go] at hgo
      rcases mem_cons.mp hm with rfl | hm
      · rw [hts] at hgo
        dsimp only at hgo
        split at hgo
        · cases hgo
        · omega
      · split at hgo
        · split at hgo
          · cases hgo
          · exact ih hgo hm
        · exact ih hgo hm
  exact key _ h (SortedMap.get_eq_some.mp hk)

/-! ## Batches -/

/-- The index writes of a batch; they touch index entries only. -/
structure IndexOps where
  ops : List IndexOp
  keys : ∀ op ∈ ops, (parseIndexKey op.1).isSome

def versionOp (slot : Nat) (schema : TableSchema) (pk : Bytes) (ts : Nat) (w : TxnWrite) :
    Except SqlError WriteOp :=
  let key := versionKey slot schema.id pk ts
  match w with
  | .tombstone => .ok (.put key encodeTombstone)
  | .row values => match encodeRow schema values with
    | .ok val => .ok (.put key val)
    | .error e => .error (.storage e)

def writtenSchemas (tables : List TableSchema) (txn : Txn) : SortedMap Nat TableSchema :=
  SortedMap.ofList ((tables.filter fun s => txn.writes.entries.any (·.1.tableId = s.id)).map
    fun s => (s.id, s))

/-- One version per staged write, in key order, one timestamp each. -/
def buildCommitBatch (writes : SortedMap TxnKey TxnWrite) (schemas : SortedMap Nat TableSchema)
    (range : TsRange) : Except SqlError (List WriteOp) := do
  let rows ← writes.entries.zipIdx.mapM fun ((k, w), i) =>
    match schemas.get k.tableId with
    | none => .error (.err .noSuchTable s!"table {k.tableId} was dropped during the transaction")
    | some schema => versionOp (slotOf k.tableId k.pk) schema k.pk (range.start + i) w
  return rows ++ [stamp (range.stop - 1)]

def maxSegmentIdCandidates : Nat := 2 ^ 20

def segmentSlot (tableId segmentId : Nat) : Nat :=
  (crc16 (beBytes 4 tableId ++ beBytes 8 segmentId)).toNat % slotNumber

/-- The first of `fuel` candidates from `id` on whose meta key is free and whose slot is allowed. -/
def chooseSegmentId (store : Store) (allow : Nat → Bool) (tableId : Nat) :
    Nat → Nat → Except String Nat
  | 0, _ => .error "no eligible slot band for columnar segment placement"
  | fuel + 1, id =>
    if 2 ^ 64 ≤ id then .error "no eligible slot band for columnar segment placement"
    else if (store.get (metaKey tableId id)).isNone ∧ allow (segmentSlot tableId id) then .ok id
    else chooseSegmentId store allow tableId fuel (id + 1)

variable (json : JsonFormat SegmentMeta)

def unknown {α : Type} : Except String α → Except SqlError α :=
  Except.mapError (.err .unknown)

def segmentOp (env : Env) (store : Store) (schema : TableSchema) (rows : List (List Value))
    (commitTs : Nat) : Except SqlError WriteOp := do
  let segmentId ← unknown
    (chooseSegmentId store (fun _ => true) schema.id maxSegmentIdCandidates commitTs)
  let (file, numRows) ← unknown (env.writeSegmentFile schema segmentId rows)
  let m : SegmentMeta :=
    { tableId := schema.id, tableName := utf8 schema.name, segmentId, commitTs, state := .live,
      numRows, file }
  match encodeMeta json m with
  | none => .error (.err .unknown s!"segment meta too large ({(json.toVec m).length} bytes)")
  | some encoded => return .put (metaKey schema.id segmentId) encoded

def flushAppends (env : Env) (store : Store) (table : String) (rows : List (List Value))
    (commitTs : Nat) : Except SqlError WriteOp := do
  match ← unknown (env.lookup table) with
  | none => .error (.err .noSuchTable s!"table '{table}' dropped mid-txn")
  | some schema =>
    if schema.engine ≠ .columnar then
      .error (.err .notSupported s!"table '{table}' is not columnar")
    else segmentOp json env store schema rows commitTs

/-- The batch of a COMMIT: rows take the head of the range, one segment for each appended table
its tail. -/
def commitBatch (env : Env) (store : Store) (txn : Txn) (idx : IndexOps) (range : TsRange) :
    Except SqlError (List WriteOp) := do
  let n := txn.writes.entries.length
  let rows ← buildCommitBatch txn.writes (writtenSchemas env.tables txn)
    ⟨range.start, range.start + n⟩
  let metas ← txn.appends.entries.zipIdx.mapM fun ((table, rows), i) =>
    flushAppends json env store table rows (range.start + n + i)
  return rows ++ idx.ops.map applyOp ++ metas ++ [stamp (range.stop - 1)]

/-- One decided row write of a statement: the rows that leave the table and the one that lands. -/
structure RowWrite where
  deletes : List (Bytes × List Value)
  put : Option (List Value)

/-- The versions of a statement's writes: a delete of the key that is put stamps no tombstone.
`none` is the panic of a schema without its key column. -/
def statementWrites (schema : TableSchema) : List RowWrite → Option (List (Bytes × TxnWrite))
  | [] => some []
  | w :: ws => do
    let rest ← statementWrites schema ws
    match w.put with
    | none => return w.deletes.map (fun d => (d.1, .tombstone)) ++ rest
    | some values =>
      let pk ← pkEncodeRow schema values
      return (w.deletes.filter (·.1 ≠ pk)).map (fun d => (d.1, .tombstone)) ++
        (pk, .row values) :: rest

def statementBatch (schema : TableSchema) (writes : List (Bytes × TxnWrite)) (idx : IndexOps)
    (range : TsRange) : Except SqlError (List WriteOp) := do
  let rows ← writes.zipIdx.mapM fun ((pk, w), i) =>
    versionOp (slotOf schema.id pk) schema pk (range.start + i) w
  return rows ++ idx.ops.map applyOp ++ [stamp (range.stop - 1)]

def segmentBatch (env : Env) (store : Store) (schema : TableSchema) (rows : List (List Value))
    (commitTs : Nat) : Except SqlError (List WriteOp) := do
  return [← segmentOp json env store schema rows commitTs, stamp commitTs]

/-! ## What a batch carries -/

/-- The operation is no record with a timestamp outside the range; row versions and metas are put
and not deleted. -/
structure OpFits (range : TsRange) (op : WriteOp) : Prop where
  row : ∀ v, parseVersionKey op.key = some v →
    op.val.isSome ∧ range.start ≤ v.ts ∧ v.ts < range.stop
  segment : (parseMetaKey op.key).isSome →
    ∃ b m, op.val = some b ∧ decodeMeta json b = some m ∧ range.start ≤ m.commitTs ∧
      m.commitTs < range.stop

/-- The records of the batch carry timestamps of the range and the floor gets the last one. -/
structure BatchFits (range : TsRange) (ops : List WriteOp) : Prop where
  each : ∀ op ∈ ops, OpFits json range op
  floor : lastWrite floorKey ops = some (some (beBytes 8 (range.stop - 1)))

variable {json}

section Fits

variable {range : TsRange}

theorem parseVersionKey_eq_none {k : Bytes} (h : slotOfKey k = none) :
    parseVersionKey k = none := by
  cases hp : parseVersionKey k with
  | none => rfl
  | some v =>
    rw [slotOfKey_of_parseVersionKey hp] at h
    cases h

variable {slot tableId : Nat} {pk : Bytes}

theorem opFits_version {val : Bytes} (hslot : slot < 2 ^ 16) (hlo : range.start ≤ ts)
    (hhi : ts < range.stop) (hstop : range.stop ≤ 2 ^ 64) :
    OpFits json range (.put (versionKey slot tableId pk ts) val) where
  row v hv := by
    rw [BatchOp.key_put, parseVersionKey_versionKey tableId pk hslot (by omega)] at hv
    cases hv
    exact ⟨rfl, hlo, hhi⟩
  segment hm := by
    have hv := parseVersionKey_versionKey tableId pk hslot (by omega : ts < 2 ^ 64)
    rw [BatchOp.key_put] at hm
    rw [parseVersionKey_eq_none (slotOfKey_of_isMeta hm)] at hv
    cases hv

theorem opFits_index {op : IndexOp} (h : (parseIndexKey op.1).isSome) :
    OpFits json range (applyOp op) where
  row v hv := by
    obtain ⟨ik, hik⟩ := Option.isSome_iff_exists.mp h
    rw [key_applyOp, parseVersionKey_of_parseIndexKey hik] at hv
    cases hv
  segment hm := by
    obtain ⟨ik, hik⟩ := Option.isSome_iff_exists.mp h
    have hs := isSome_slotOfKey_of_parseIndexKey hik
    rw [key_applyOp] at hm
    rw [slotOfKey_of_isMeta hm] at hs
    cases hs

theorem opFits_stamp (ts : Nat) : OpFits json range (stamp ts) where
  row v hv := by
    cases hv
  segment hm := by
    have hk := head?_of_parseMetaKey hm
    exact absurd (Option.some.inj hk) (by decide)

variable {ops : List WriteOp}

theorem batchFits_concat (h : ∀ op ∈ ops, OpFits json range op) :
    BatchFits json range (ops ++ [stamp (range.stop - 1)]) where
  each op hop := by
    rcases mem_append.mp hop with hop | hop
    · exact h op hop
    · cases mem_singleton.mp hop
      exact opFits_stamp _
  floor := by
    rw [lastWrite_append, lastWrite_cons]
    simp [stamp]

variable {schema : TableSchema} {op : WriteOp}

theorem versionOp_eq_ok (h : versionOp slot schema pk ts w = .ok op) :
    ∃ val, op = .put (versionKey slot schema.id pk ts) val := by
  unfold versionOp at h
  split at h
  · cases h
    exact ⟨_, rfl⟩
  · split at h
    · cases h
      exact ⟨_, rfl⟩
    · cases h

variable {env : Env} {rows : List (List Value)} {commitTs : Nat}

theorem opFits_segmentOp (h : segmentOp json env store schema rows commitTs = .ok op)
    (hlo : range.start ≤ commitTs) (hhi : commitTs < range.stop) : OpFits json range op := by
  obtain ⟨segmentId, -, h⟩ := bind_eq_ok.mp h
  obtain ⟨r, -, h⟩ := bind_eq_ok.mp h
  dsimp only at h
  split at h
  · cases h
  · next encoded he =>
    cases h
    refine ⟨fun v hv => ?_, fun _ => ⟨encoded, _, rfl, decodeMeta_encodeMeta he, hlo, hhi⟩⟩
    rw [parseVersionKey_eq_none] at hv
    · cases hv
    · exact slotOfKey_eq_none (x := kindSqlSegment) rfl (by decide) (by decide)

theorem opFits_flushAppends {table : String}
    (h : flushAppends json env store table rows commitTs = .ok op) (hlo : range.start ≤ commitTs)
    (hhi : commitTs < range.stop) : OpFits json range op := by
  obtain ⟨found, -, h⟩ := bind_eq_ok.mp h
  cases found with
  | none => cases h
  | some schema =>
    dsimp only at h
    split at h
    · cases h
    · exact opFits_segmentOp h hlo hhi

variable {tables : List TableSchema}

theorem id_of_get_writtenSchemas (h : (writtenSchemas tables txn).get tableId = some schema) :
    schema.id = tableId := by
  obtain ⟨s, -, hs⟩ := mem_map.mp (SortedMap.mem_of_get_ofList h)
  cases hs
  rfl

theorem buildCommitBatch_spec {writes : SortedMap TxnKey TxnWrite}
    (h : buildCommitBatch writes (writtenSchemas tables txn) range = .ok ops) :
    ∃ rows, ops = rows ++ [stamp (range.stop - 1)] ∧
      (∀ op ∈ rows, ∃ (k : TxnKey) (i : Nat) (val : Bytes), i < writes.entries.length ∧
        op = .put (k.version (range.start + i)) val) ∧
      ∀ k w, writes.get k = some w → ∃ i val, i < writes.entries.length ∧
        .put (k.version (range.start + i)) val ∈ rows := by
  unfold buildCommitBatch at h
  generalize hf : (fun e : (TxnKey × TxnWrite) × Nat => _) = f at h
  have hop : ∀ e ∈ writes.entries.zipIdx, ∀ op, f e = .ok op →
      ∃ val, e.2 < writes.entries.length ∧ op = .put (e.1.1.version (range.start + e.2)) val := by
    rintro ⟨⟨k, w⟩, i⟩ he op hok
    have hi := (mem_zipIdx he).2.1
    subst hf
    dsimp only at hok
    split at hok
    · cases hok
    · next schema hs =>
      obtain ⟨val, rfl⟩ := versionOp_eq_ok hok
      rw [id_of_get_writtenSchemas hs]
      exact ⟨val, by omega, rfl⟩
  obtain ⟨rows, hm, h⟩ := bind_eq_ok.mp h
  cases h
  obtain ⟨hrows, helems⟩ := mapM_ok_spec hm
  refine ⟨rows, rfl, fun op hr => ?_, fun k w hk => ?_⟩
  · obtain ⟨e, he, hok⟩ := hrows op hr
    obtain ⟨val, hi, rfl⟩ := hop e he op hok
    exact ⟨e.1.1, e.2, val, hi, rfl⟩
  · obtain ⟨i, hi, hget⟩ := getElem_of_mem (SortedMap.get_eq_some.mp hk)
    have he : ((k, w), i) ∈ writes.entries.zipIdx := by
      rw [mem_zipIdx_iff_getElem?, getElem?_eq_getElem hi, hget]
    obtain ⟨op, hr, hok⟩ := helems _ he
    obtain ⟨val, hi', rfl⟩ := hop _ he op hok
    exact ⟨i, val, hi, hr⟩

theorem slotOf_lt_u16 (tableId : Nat) (pk : Bytes) : slotOf tableId pk < 2 ^ 16 :=
  lt_trans (slotOf_lt tableId pk) (by decide)

variable {idx : IndexOps}

theorem commitBatch_fits (h : commitBatch json env store txn idx range = .ok ops)
    (hstop : range.stop = range.start + (txn.writes.entries.length + txn.appends.entries.length))
    (h64 : range.stop ≤ 2 ^ 64) :
    BatchFits json range ops ∧
      ∀ k w, txn.writes.get k = some w → ∃ ts val, range.start ≤ ts ∧ ts < range.stop ∧
        .put (k.version ts) val ∈ ops := by
  obtain ⟨built, hb, h⟩ := bind_eq_ok.mp h
  obtain ⟨metas, hm, h⟩ := bind_eq_ok.mp h
  cases h
  obtain ⟨rows, rfl, hrows, hcover⟩ := buildCommitBatch_spec hb
  refine ⟨batchFits_concat fun op hop => ?_, fun k w hk => ?_⟩
  · simp only [mem_append, mem_singleton, mem_map] at hop
    rcases hop with ((hop | rfl) | ⟨w, hw, rfl⟩) | hop
    · obtain ⟨k, i, val, hi, rfl⟩ := hrows op hop
      exact opFits_version (slotOf_lt_u16 _ _) (by simp) (by simp only; omega) h64
    · exact opFits_stamp _
    · exact opFits_index (idx.keys w hw)
    · obtain ⟨e, he, hok⟩ := (mapM_ok_spec hm).1 op hop
      have hi := (mem_zipIdx he).2.1
      exact opFits_flushAppends hok (by omega) (by omega)
  · obtain ⟨i, val, hi, hmem⟩ := hcover k w hk
    exact ⟨range.start + i, val, by omega, by omega, by simp [hmem]⟩

theorem statementBatch_fits {writes : List (Bytes × TxnWrite)}
    (h : statementBatch schema writes idx range = .ok ops)
    (hstop : range.stop = range.start + writes.length) (h64 : range.stop ≤ 2 ^ 64) :
    BatchFits json range ops := by
  unfold statementBatch at h
  simp only [bind, Except.bind] at h
  split at h
  · cases h
  · next rows hm =>
    cases h
    refine batchFits_concat fun op hop => ?_
    rcases mem_append.mp hop with hop | hop
    · obtain ⟨e, he, hok⟩ := (mapM_ok_spec hm).1 op hop
      have hi := (mem_zipIdx he).2.1
      obtain ⟨val, rfl⟩ := versionOp_eq_ok hok
      exact opFits_version (slotOf_lt_u16 _ _) (by omega) (by omega) h64
    · obtain ⟨w, hw, rfl⟩ := mem_map.mp hop
      exact opFits_index (idx.keys w hw)

theorem segmentBatch_fits (h : segmentBatch json env store schema rows range.start = .ok ops)
    (hstop : range.stop = range.start + 1) : BatchFits json range ops := by
  unfold segmentBatch at h
  simp only [bind, Except.bind] at h
  split at h
  · cases h
  · next op ho =>
    cases h
    have hfit : OpFits json range op := opFits_segmentOp ho (le_refl _) (by omega)
    have := @batchFits_concat json range [op] (by simpa using hfit)
    rwa [hstop] at this

end Fits

end Rdb.Tx
