import Rdb.Ds.Codec
import Rdb.Sql.Gc

/-!
# The planes that share the slot keyspace

Row versions and index entries of the SQL plane live under the same slot
prefixes as the records of the RESP, stream and Kafka planes, told apart by one
kind byte. The committed-offset rows of consumer groups have the kind byte of row
versions.
-/

namespace Rdb.Ds

open Lib Sql List Option

abbrev TypedKind := { kind : UInt8 // (familyOf kind).isSome }

/-- The records the RESP, stream and Kafka planes write, by the builder of their key. The data
key an expire-index entry refers to is given without its slot prefix. -/
inductive PlaneKey where
  | string (key : Bytes)
  | data (kind : TypedKind) (key : Bytes)
  | elem (kind : TypedKind) (key suffix : Bytes)
  | delayRow (dueMs : Nat) (stream : Bytes) (locked : Nat × Nat)
  | expireIndex (expireMs : Nat) (dataKey : Bytes)
  | ledger (stream group : Bytes)

def PlaneKey.physical (slot : UInt16) : PlaneKey → Bytes
  | .string key => stringKey (slotPrefix slot.toNat) key
  | .data kind key => Ds.dataKey (slotPrefix slot.toNat) kind.1 key
  | .elem kind key suffix => elemKey (slotPrefix slot.toNat) kind.1 key suffix
  | .delayRow dueMs stream locked => delayRowKey (slotPrefix slot.toNat) dueMs stream locked
  | .expireIndex expireMs dataKey =>
    expireIndexKey (slotPrefix slot.toNat) expireMs (slotPrefix slot.toNat ++ dataKey)
  | .ledger stream group => ledgerKey (slotPrefix slot.toNat) stream group

/-- The record starts with a SQL kind and is long enough to hold the fields behind it. -/
def PlaneKey.Captured : PlaneKey → Prop
  | .string key => key.head? = some kindSqlRow ∧ 13 ≤ key.length ∨
      (key.head? = some kindSqlIndex ∨ key.head? = some kindSqlUniqueIndex) ∧ 10 ≤ key.length
  | .data kind key => kind.1 = kindSqlRow ∧ 8 ≤ key.length
  | .elem kind key suffix => kind.1 = kindSqlRow ∧ 8 ≤ key.length + suffix.length
  | .delayRow .. => False
  | .expireIndex .. => False
  | .ledger stream group => 7 ≤ stream.length + group.length

/-! ## What the SQL parsers accept -/

def ParsesAsSql (key : Bytes) : Prop :=
  (parseVersionKey key).isSome ∨ (parseIndexKey key).isSome

theorem parsesAsSql_cons (slot : UInt16) (kind : UInt8) (body : Bytes) :
    ParsesAsSql (slotPrefix slot.toNat ++ kind :: body) ↔
      kind = kindSqlRow ∧ 12 ≤ body.length ∨
        (kind = kindSqlIndex ∨ kind = kindSqlUniqueIndex) ∧ 8 < body.length := by
  have hs : slot.toNat < 2 ^ 16 := slot.toNat_lt
  rw [ParsesAsSql, isSome_parseVersionKey hs, isSome_parseIndexKey hs]

theorem not_parsesAsSql (slot : UInt16) {kind : UInt8}
    (h : kind ∉ [kindSqlRow, kindSqlIndex, kindSqlUniqueIndex]) (body : Bytes) :
    ¬ ParsesAsSql (slotPrefix slot.toNat ++ kind :: body) := by
  simp only [mem_cons, not_mem_nil, or_false, not_or] at h
  rw [parsesAsSql_cons]
  rintro (⟨hk, -⟩ | ⟨hk | hk, -⟩)
  · exact h.1 hk
  · exact h.2.1 hk
  · exact h.2.2 hk

theorem TypedKind.ne_index (kind : TypedKind) :
    ¬ (kind.1 = kindSqlIndex ∨ kind.1 = kindSqlUniqueIndex) := by
  rintro (h | h)
  · exact absurd (h ▸ kind.2) (by decide)
  · exact absurd (h ▸ kind.2) (by decide)

theorem parsesAsSql_typed (slot : UInt16) (kind : TypedKind) (body : Bytes) :
    ParsesAsSql (slotPrefix slot.toNat ++ kind.1 :: body) ↔
      kind.1 = kindSqlRow ∧ 12 ≤ body.length := by
  rw [parsesAsSql_cons]
  exact or_iff_left fun h => kind.ne_index h.1

theorem parsesAsSql_physical (slot : UInt16) (k : PlaneKey) :
    ParsesAsSql (k.physical slot) ↔ k.Captured := by
  cases k with
  | string key =>
    cases key with
    | nil =>
      simp [PlaneKey.physical, stringKey, ParsesAsSql, parseVersionKey_slotPrefix,
        parseIndexKey_slotPrefix, PlaneKey.Captured]
    | cons kind body =>
      rw [PlaneKey.physical, stringKey, parsesAsSql_cons]
      simp only [PlaneKey.Captured, head?_cons, some.injEq, length_cons]
      exact or_congr (and_congr_right fun _ => by omega) (and_congr_right fun _ => by omega)
  | data kind key =>
    rw [PlaneKey.physical, Ds.dataKey, parsesAsSql_typed]
    simp only [length_append, length_beBytes]
    exact and_congr_right fun _ => by omega
  | elem kind key suffix =>
    rw [PlaneKey.physical, elemKey, Ds.dataKey, append_assoc, cons_append, parsesAsSql_typed]
    simp only [length_append, length_beBytes]
    exact and_congr_right fun _ => by omega
  | delayRow dueMs stream locked | expireIndex expireMs dataKey =>
    exact iff_of_false (not_parsesAsSql slot (by decide) _) id
  | ledger stream group =>
    rw [PlaneKey.physical, ledgerKey, Ds.dataKey, append_assoc, cons_append,
      parsesAsSql_typed slot ⟨kindStreamOffset, by decide⟩, PlaneKey.Captured]
    simp only [length_append, length_beBytes, length_cons]
    exact ⟨fun h => by omega, fun h => ⟨rfl, by omega⟩⟩

/-! ## Sweeps -/

/-- For every key the other planes write: the SQL parsers reject it, and every sweep leaves its
record alone, exactly when it does not have the shape of a SQL record. -/
theorem physical_not_captured_iff (slot : UInt16) (k : PlaneKey) :
    (parseVersionKey (k.physical slot) = none ∧ parseIndexKey (k.physical slot) = none ∧
      ∀ (store : Store) (wm : Nat) (dropped : List Nat) (cap : Nat),
        (sweepCapped store wm dropped cap).1.get (k.physical slot) =
          store.get (k.physical slot)) ↔ ¬ k.Captured := by
  rw [← parsesAsSql_physical slot k, ParsesAsSql, not_or, Bool.not_eq_true, Bool.not_eq_true,
    isSome_eq_false_iff, isSome_eq_false_iff, isNone_iff_eq_none, isNone_iff_eq_none]
  constructor
  · rintro ⟨hv, hi, -⟩
    exact ⟨hv, hi⟩
  · rintro ⟨hv, hi⟩
    exact ⟨hv, hi, get_sweepCapped_of_foreign hv hi⟩

theorem dead_visit_of_dropped {stop : Bytes} {v : VersionKey} (hlt : v.key < stop)
    (hparse : parseVersionKey v.key = some v) {dropped : List Nat} (hd : v.tableId ∈ dropped)
    (val : Bytes) (wm cap : Nat) :
    (foldUntil (fun s e => sweepVisit stop wm dropped cap s e.1 e.2) {} [(v.key, val)]).dead =
      [v.key] := by
  have hstop : ¬ stop ≤ v.key := not_le.mpr hlt
  simp only [foldUntil, sweepVisit, hstop, hparse, foldVersion, hd]
  simp

theorem get_sweepCapped_put {v : VersionKey} (hs : v.slot < slotNumber)
    (hparse : parseVersionKey v.key = some v) {dropped : List Nat} (hd : v.tableId ∈ dropped)
    (val : Bytes) (wm cap : Nat) :
    (sweepCapped (SortedMap.empty.write [.put v.key val]) wm dropped cap).1.get v.key = none := by
  have hentries : (SortedMap.empty.write [BatchOp.put v.key val]).entries = [(v.key, val)] := rfl
  have hdead := dead_visit_of_dropped (key_lt_slotSpaceEnd hs) hparse hd val wm cap
  have hfilter : [(v.key, val)].filter (fun e => if false then decide ([0x30, 0x2f] < e.1)
      else decide ([0x30, 0x2f] ≤ e.1)) = [(v.key, val)] := by
    simp [zeroSlash_le_key]
  unfold sweepCapped Store.forEachFrom
  -- the end of the slot space is a closed term that must not be evaluated
  rw [hentries, hfilter]
  dsimp only
  rw [hdead, SortedMap.get_write]
  simp [lastWrite_cons]

/-- The committed offset of group `g` on the stream `orders/eu/p1`. -/
def sampleLedger : PlaneKey :=
  .ledger [0x6f, 0x72, 0x64, 0x65, 0x72, 0x73, 0x2f, 0x65, 0x75, 0x2f, 0x70, 0x31] [0x67]

/-- What that row reads as: a version in the table whose id is the length of the stream name. -/
def sampleLedgerVersion : VersionKey :=
  ⟨70, 12, [0x6f, 0x72, 0x64, 0x65, 0x72, 0x73],
    tsFromSuffix [0x2f, 0x65, 0x75, 0x2f, 0x70, 0x31, 0x2f, 0x67]⟩

/-- Dropping table 12 lets the next sweep delete the committed offset. -/
theorem sweepCapped_deletes_ledger_row :
    parseVersionKey (sampleLedger.physical 70) ≠ none ∧
      (SortedMap.empty.write [.put (sampleLedger.physical 70) [0x00]]).get
        (sampleLedger.physical 70) ≠ none ∧
      (sweepCapped (SortedMap.empty.write [.put (sampleLedger.physical 70) [0x00]]) 0 [12]
        maxDeletesPerSweep).1.get (sampleLedger.physical 70) = none := by
  have hkey : sampleLedger.physical 70 = sampleLedgerVersion.key := by decide
  refine ⟨by decide, by decide, ?_⟩
  rw [hkey]
  exact get_sweepCapped_put (by decide) (by decide) (by decide) _ _ _

end Rdb.Ds
