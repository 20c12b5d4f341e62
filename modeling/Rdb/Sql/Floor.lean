import Rdb.Lib.Json
import Rdb.Sql.IndexKeys
import Rdb.Sql.Versions

/-!
# Segment metas and the persisted timestamp floor

A columnar segment leaves one meta record in the store, under
`23 table_id segment_id`, with its commit timestamp in the value. Every batch
that carries timestamped records also stamps the floor key with the highest of
them; boot reads it back, or scans the store when the key is missing.

* `slotOfKey_eq_none`: the keys of metas, of the floor and of the transaction
  records have no slot and are no data keys.
-/

namespace Rdb.Sql

open Lib List Option

inductive SegmentState where
  | prepared | live
  deriving DecidableEq

/-- The meta record of a segment, but for its zone maps. -/
structure SegmentMeta where
  tableId : Nat
  tableName : Bytes
  segmentId : Nat
  commitTs : Nat
  state : SegmentState
  numRows : Nat
  file : Bytes

def metaKey (tableId segmentId : Nat) : Bytes :=
  kindSqlSegment :: (beBytes 4 tableId ++ beBytes 8 segmentId)

def parseMetaKey : Bytes → Option (Nat × Nat)
  | kind :: body =>
    if body.length = 12 ∧ kind = kindSqlSegment then
      some (ofBe (body.take 4), ofBe (body.drop 4))
    else none
  | [] => none

def maxMetaBytes : Nat := 1024 * 1024

def encodeMeta (json : JsonFormat SegmentMeta) (m : SegmentMeta) : Option Bytes :=
  if (json.toVec m).length > maxMetaBytes then none else some (json.toVec m)

def decodeMeta (json : JsonFormat SegmentMeta) (bytes : Bytes) : Option SegmentMeta :=
  if bytes.length > maxMetaBytes then none else json.fromSlice bytes

theorem parseMetaKey_metaKey {tableId segmentId : Nat} (ht : tableId < 2 ^ 32)
    (hs : segmentId < 2 ^ 64) :
    parseMetaKey (metaKey tableId segmentId) = some (tableId, segmentId) := by
  have h4 : (beBytes 4 tableId ++ beBytes 8 segmentId).take 4 = beBytes 4 tableId :=
    take_left' (length_beBytes 4 tableId)
  have h8 : (beBytes 4 tableId ++ beBytes 8 segmentId).drop 4 = beBytes 8 segmentId :=
    drop_left' (length_beBytes 4 tableId)
  rw [metaKey, parseMetaKey, if_pos ⟨by simp, rfl⟩, h4, h8, ofBe_beBytes_of_lt (by omega),
    ofBe_beBytes_of_lt (by omega)]

variable {key : Bytes}

theorem head?_of_parseMetaKey (h : (parseMetaKey key).isSome) :
    key.head? = some kindSqlSegment := by
  cases key with
  | nil => cases h
  | cons x key =>
    rw [parseMetaKey] at h
    split at h
    · next hk => rw [head?_cons, hk.2]
    · cases h

theorem decodeMeta_encodeMeta {json : JsonFormat SegmentMeta} {m : SegmentMeta} {b : Bytes}
    (h : encodeMeta json m = some b) : decodeMeta json b = some m := by
  unfold encodeMeta at h
  split at h
  · cases h
  · next hl =>
    cases h
    rw [decodeMeta, if_neg hl, json.fromSlice_toVec]

section Json

open JsonCodec

def stateCodec : JsonCodec SegmentState :=
  string.iso (fun | .prepared => utf8 "prepared" | .live => utf8 "live")
    (fun b => if b = utf8 "prepared" then some .prepared
      else if b = utf8 "live" then some .live else none)
    fun | .prepared => by decide | .live => by decide

def segmentCodec : JsonCodec SegmentMeta :=
  (object (fields (field (utf8 "table_id") nat) (fields (field (utf8 "table_name") string)
    (fields (field (utf8 "segment_id") nat) (fields (field (utf8 "commit_ts") nat)
      (fields (field (utf8 "state") stateCodec) (fields (field (utf8 "num_rows") nat)
        (field (utf8 "file") string)))))))).iso
    (fun m => (m.tableId, m.tableName, m.segmentId, m.commitTs, m.state, m.numRows, m.file))
    (fun p => some ⟨p.1, p.2.1, p.2.2.1, p.2.2.2.1, p.2.2.2.2.1, p.2.2.2.2.2.1, p.2.2.2.2.2.2⟩)
    fun _ => rfl

end Json

/-! ## Keys outside the slot space -/

theorem head?_of_slotOfKey {slot : Nat} (h : slotOfKey key = some slot) :
    ∃ x, key.head? = some x ∧ (x = 0x2b ∨ isDigit x) := by
  obtain ⟨⟨head, rest⟩, hs, hp⟩ := bind_eq_some_iff.mp h
  obtain ⟨x, hx, hd⟩ := head_of_parseDec hp
  refine ⟨x, ?_, hd⟩
  rw [eq_of_splitSlash hs, head?_append, hx]
  rfl

theorem slotOfKey_eq_none {x : UInt8} (hx : key.head? = some x) (hp : x ≠ 0x2b)
    (hd : isDigit x = false) : slotOfKey key = none := by
  cases h : slotOfKey key with
  | none => rfl
  | some slot =>
    obtain ⟨y, hy, hy'⟩ := head?_of_slotOfKey h
    rw [hx] at hy
    cases hy
    rcases hy' with rfl | hy'
    · exact absurd rfl hp
    · rw [hd] at hy'
      cases hy'

theorem slotOfKey_of_isMeta {k : Bytes} (h : (parseMetaKey k).isSome) : slotOfKey k = none :=
  slotOfKey_eq_none (head?_of_parseMetaKey h) (by decide) (by decide)

theorem slotOfKey_of_parseVersionKey {v : VersionKey}
    (h : parseVersionKey key = some v) : slotOfKey key = some v.slot := by
  unfold parseVersionKey at h
  split at h
  · next head kind body hs =>
    obtain ⟨slot, hp, h⟩ := bind_eq_some_iff.mp h
    split_ifs at h with hk hlt
    cases h
    rw [slotOfKey, hs]
    exact parseDec_of_lt hp hlt
  · cases h

theorem isSome_slotOfKey_of_parseIndexKey {ik : IndexKey}
    (h : parseIndexKey key = some ik) : (slotOfKey key).isSome := by
  unfold parseIndexKey at h
  split at h
  · next head kind body hs =>
    obtain ⟨slot, hp, h⟩ := bind_eq_some_iff.mp h
    split_ifs at h with hlt
    rw [slotOfKey, hs, bind_some, parseDec_of_lt hp (not_le.mp hlt)]
    rfl
  · cases h

/-! ## The floor -/

def floorKey : Bytes := 0x00 :: utf8 "sql_ts_floor"

theorem slotOfKey_floorKey : slotOfKey floorKey = none :=
  slotOfKey_eq_none (x := 0x00) rfl (by decide) (by decide)

def stamp (ts : Nat) : WriteOp := .put floorKey (beBytes 8 ts)

/-- The persisted floor, 0 when the key is missing or unreadable. -/
def recover (store : Store) : Nat :=
  match store.get floorKey with
  | some raw => if raw.length = 8 then ofBe raw else 0
  | none => 0

/-- The boot scan: the highest timestamp of a row version or a segment. -/
def scanMaxTs (json : JsonFormat SegmentMeta) (store : Store) : Nat :=
  store.forEachFrom [] false (fun mx key val =>
    (match parseVersionKey key with
      | some v => if slotOf v.tableId v.pk = v.slot ∧ mx < v.ts then v.ts else mx
      | none =>
        if (parseMetaKey key).isSome then
          match decodeMeta json val with
          | some m => max mx m.commitTs
          | none => mx
        else mx, true)) 0

/-- The timestamp of an entry that is a row version or a segment. -/
def recordTs (json : JsonFormat SegmentMeta) (e : Bytes × Bytes) : Option Nat :=
  match parseVersionKey e.1 with
  | some v => some v.ts
  | none =>
    if (parseMetaKey e.1).isSome then (decodeMeta json e.2).map (·.commitTs) else none

/-- The floor is at least the timestamp of every record of the store. -/
def FloorBounds (json : JsonFormat SegmentMeta) (store : Store) : Prop :=
  ∀ e ∈ store.entries, ∀ ts ∈ recordTs json e, ts ≤ recover store
  deriving Decidable

theorem scanMaxTs_le {json : JsonFormat SegmentMeta} {store : Store} {b : Nat}
    (h : ∀ e ∈ store.entries, ∀ ts ∈ recordTs json e, ts ≤ b) : scanMaxTs json store ≤ b := by
  refine foldUntil_inv (I := fun mx => mx ≤ b) (Nat.zero_le b) fun mx e he hmx => ?_
  have hle := h e (mem_filter.mp he).1
  unfold recordTs at hle
  dsimp only
  split
  · next v hv =>
    have := hle v.ts (by rw [hv]; rfl)
    split <;> omega
  · next hv =>
    rw [hv] at hle
    split
    · next hm =>
      rw [if_pos hm] at hle
      split
      · next m hd =>
        have := hle m.commitTs (by rw [hd]; rfl)
        omega
      · exact hmx
    · exact hmx

end Rdb.Sql
