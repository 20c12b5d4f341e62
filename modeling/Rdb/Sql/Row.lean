import Rdb.Sql.Codec

/-!
# The versioned row layout

A row version is stored under `<slot>/ 20 table_id pk_key !ts` with the value
`header ‖ null bitmap ‖ payloads`. The inverted timestamp puts the newest
version of a primary key first, so a reader takes the first version at or below
its timestamp and skips prepared ones.

* `encodeRow_eq_ok`: a live row is told from a tombstone by its length.
* `parseVersionKey_versionKey`, `eq_of_parseVersionKey`: what the key parser
  accepts and returns.
-/

namespace Rdb.Sql

open Lib List

/-! ## Values -/

def headerTombstone : UInt8 := 0x00
def headerLive : UInt8 := 0x01
def headerPrepared : UInt8 := 0x02

def isPrepared (val : Bytes) : Bool := val.head? == some headerPrepared

def finalHeader (preparedVal : Bytes) : UInt8 :=
  if preparedVal.length ≤ 1 then headerTombstone else headerLive

def preparedValue : Bytes → Bytes
  | [] => []
  | _ :: payload => headerPrepared :: payload

def encodeTombstone : Bytes := [headerTombstone]

inductive RowError where
  | text (msg : String)
  | misfit (v : Value) (ty : SqlType)
  deriving DecidableEq

def splitAtChecked (n : Nat) (b : Bytes) : Option (Bytes × Bytes) :=
  if n ≤ b.length then some (b.take n, b.drop n) else none

def orText {α : Type} (o : Option α) (msg : String) : Except RowError α :=
  match o with
  | some a => .ok a
  | none => .error (.text msg)

def split8 (rest : Bytes) (what : String) : Except RowError (Bytes × Bytes) :=
  orText (splitAtChecked 8 rest) (what ++ " payload truncated")

def encodePayload : SqlType → Value → Except RowError Bytes
  | .bool, .bool b => .ok [if b then 1 else 0]
  | .int, .int i => .ok (beBytes 8 i.toNat)
  | .double, .double bits => .ok (beBytes 8 bits.toNat)
  | .decimal _ scale, .decimal m s =>
    if s ≠ scale then .error (.text "decimal scale mismatch") else .ok (s :: beBytes 16 m.toNat)
  | .date, .date i => .ok (beBytes 8 i.toNat)
  | .dateTime, .dateTime i => .ok (beBytes 8 i.toNat)
  | .varChar, .str s => .ok (beBytes 4 (utf8 s).length ++ utf8 s)
  | .blob, .bytes b => .ok (beBytes 4 b.length ++ b)
  | ty, v => .error (.misfit v ty)

/-- One bit per column, eight columns a byte, set for NULL. -/
def nullBitmap (values : List Value) : Bytes :=
  (List.range ((values.length + 7) / 8)).map fun c =>
    UInt8.ofNat <| ((values.drop (8 * c)).take 8).zipIdx.foldl
      (fun bits p => if p.1 = .null then bits + 2 ^ p.2 else bits) 0

def encodePayloads : List (Value × ColumnDef) → Except RowError Bytes
  | [] => .ok []
  | (v, col) :: rest =>
    if v = .null then encodePayloads rest
    else do
      let p ← encodePayload col.sqlType v
      let ps ← encodePayloads rest
      return p ++ ps

def encodeRow (schema : TableSchema) (values : List Value) : Except RowError Bytes :=
  if values.length ≠ schema.columns.length then
    .error (.text (s!"row has {values.length} values, table {schema.name} has " ++
      s!"{schema.columns.length} columns"))
  else do
    let payload ← encodePayloads (values.zip schema.columns)
    return headerLive :: (nullBitmap values ++ payload)

def decodePayload (rest : Bytes) : SqlType → Except RowError (Value × Bytes)
  | .bool => match rest with
    | [] => .error (.text "bool payload truncated")
    | b :: r => .ok (.bool (b ≠ 0), r)
  | .int => do
    let (raw, r) ← split8 rest "int"
    return (.int (BitVec.ofNat 64 (ofBe raw)), r)
  | .double => do
    let (raw, r) ← split8 rest "double"
    return (.double (BitVec.ofNat 64 (ofBe raw)), r)
  | .decimal _ scale => match rest with
    | [] => .error (.text "decimal payload truncated")
    | s :: r =>
      if s ≠ scale then .error (.text "decimal scale mismatch")
      else do
        let (raw, r) ← orText (splitAtChecked 16 r) "decimal payload truncated"
        return (.decimal (BitVec.ofNat 128 (ofBe raw)) s, r)
  | .date => do
    let (raw, r) ← split8 rest "date"
    return (.date (BitVec.ofNat 64 (ofBe raw)), r)
  | .dateTime => do
    let (raw, r) ← split8 rest "datetime"
    return (.dateTime (BitVec.ofNat 64 (ofBe raw)), r)
  | .varChar => do
    let (raw, r) ← varLen
    let s ← orText (String.fromUTF8? (ByteArray.mk raw.toArray)) "invalid utf8 in row"
    return (.str s, r)
  | .blob => do
    let (raw, r) ← varLen
    return (.bytes raw, r)
where
  varLen : Except RowError (Bytes × Bytes) := do
    let (len, r) ← orText (splitAtChecked 4 rest) "varlen payload truncated"
    orText (splitAtChecked (ofBe len) r) "varlen payload shorter than length"

def decodeRow (schema : TableSchema) (bytes : Bytes) : Except RowError (List Value) := do
  let (bitmap, rest) ← orText (splitAtChecked ((schema.columns.length + 7) / 8) bytes)
    "row value shorter than null bitmap"
  go bitmap schema.columns.zipIdx rest
where
  go (bitmap : Bytes) : List (ColumnDef × Nat) → Bytes → Except RowError (List Value)
    | [], _ => .ok []
    | (col, i) :: cols, rest =>
      if ((bitmap.getD (i / 8) 0).toNat / 2 ^ (i % 8)) % 2 = 1 then do
        let vs ← go bitmap cols rest
        return .null :: vs
      else do
        let (v, r) ← decodePayload rest col.sqlType
        let vs ← go bitmap cols r
        return v :: vs

def decodeVersion (schema : TableSchema) : Bytes → Except RowError (UInt8 × List Value)
  | [] => .error (.text "empty row version")
  | header :: rest =>
    if header = headerTombstone then .ok (header, [])
    else if header ≠ headerLive then
      .error (.text ("unknown row version header 0x" ++
        String.ofList (Nat.toDigits 16 header.toNat)))
    else do
      let values ← decodeRow schema rest
      return (header, values)

theorem nullBitmap_ne_nil {values : List Value} (h : values ≠ []) : nullBitmap values ≠ [] := by
  have hpos := length_pos_iff.mpr h
  intro e
  have := congrArg length e
  simp only [nullBitmap, length_map, length_range, length_nil] at this
  omega

theorem encodeRow_eq_ok {schema : TableSchema} {values : List Value} {val : Bytes}
    (h : encodeRow schema values = .ok val) (hc : schema.columns ≠ []) :
    ∃ payload, val = headerLive :: payload ∧ payload ≠ [] := by
  unfold encodeRow at h
  split at h
  · cases h
  · next hlen =>
    have hne : values ≠ [] := by
      rintro rfl
      exact hlen (fun e => hc (length_eq_zero_iff.mp e.symm))
    obtain ⟨payload, -, h⟩ := bind_eq_ok.mp h
    cases h
    exact ⟨_, rfl, by simp [nullBitmap_ne_nil hne]⟩

/-! ## Keys -/

def slotOf (tableId : Nat) (pkKey : Bytes) : Nat :=
  (crc16 (beBytes 4 tableId ++ pkKey)).toNat % slotNumber

/-- The commit timestamp inverted, so that byte order is newest first. -/
def tsSuffix (ts : Nat) : Bytes := beBytes 8 (2 ^ 64 - 1 - ts)

def tsFromSuffix (suffix : Bytes) : Nat := 2 ^ 64 - 1 - ofBe suffix

def slotTablePrefix (slot tableId : Nat) : Bytes :=
  slotPrefix slot ++ kindSqlRow :: beBytes 4 tableId

def versionKey (slot tableId : Nat) (pkKey : Bytes) (ts : Nat) : Bytes :=
  slotTablePrefix slot tableId ++ pkKey ++ tsSuffix ts

def versionPrefix (tableId : Nat) (pkKey : Bytes) : Bytes :=
  slotTablePrefix (slotOf tableId pkKey) tableId ++ pkKey

structure VersionKey where
  slot : Nat
  tableId : Nat
  pk : Bytes
  ts : Nat
  deriving DecidableEq

/-- The identity of a primary key's versions: `(slot, table_id, pk_key)`. -/
def VersionKey.group (v : VersionKey) : Nat × Nat × Bytes := (v.slot, v.tableId, v.pk)

def parseVersionKey (key : Bytes) : Option VersionKey :=
  match splitSlash key with
  | some (head, kind :: body) =>
    (parseDec (2 ^ 32) head).bind fun slot =>
      if body.length < 4 + 8 ∨ kind ≠ kindSqlRow then none
      else if slot < 2 ^ 16 then
        some { slot, tableId := ofBe (body.take 4), pk := (body.drop 4).take (body.length - 12),
               ts := tsFromSuffix (body.drop (body.length - 8)) }
      else none
  | _ => none

theorem slotOf_lt (tableId : Nat) (pkKey : Bytes) : slotOf tableId pkKey < slotNumber :=
  Nat.mod_lt _ (by decide)

theorem tsFromSuffix_tsSuffix {ts : Nat} (h : ts < 2 ^ 64) : tsFromSuffix (tsSuffix ts) = ts := by
  rw [tsFromSuffix, tsSuffix, ofBe_beBytes_of_lt (by omega)]
  omega

theorem tsSuffix_lt_iff {a b : Nat} (ha : a < 2 ^ 64) (hb : b < 2 ^ 64) :
    tsSuffix a < tsSuffix b ↔ b < a := by
  rw [tsSuffix, tsSuffix, beBytes_lt_iff (by omega) (by omega)]
  omega

theorem versionKey_eq (slot tableId : Nat) (pkKey : Bytes) (ts : Nat) :
    versionKey slot tableId pkKey ts =
      slotPrefix slot ++ kindSqlRow :: (beBytes 4 tableId ++ pkKey ++ tsSuffix ts) := by
  simp [versionKey, slotTablePrefix]

theorem parseVersionKey_versionKey {slot ts : Nat} (tableId : Nat) (pkKey : Bytes)
    (hs : slot < 2 ^ 16) (hts : ts < 2 ^ 64) :
    parseVersionKey (versionKey slot tableId pkKey ts) =
      some ⟨slot, tableId % 2 ^ 32, pkKey, ts⟩ := by
  have hlen : (beBytes 4 tableId ++ pkKey ++ tsSuffix ts).length = 4 + pkKey.length + 8 := by
    simp only [length_append, tsSuffix, length_beBytes]
  have h4 : (beBytes 4 tableId ++ pkKey ++ tsSuffix ts).take 4 = beBytes 4 tableId := by
    rw [append_assoc, take_left' (length_beBytes 4 tableId)]
  have hpk : ((beBytes 4 tableId ++ pkKey ++ tsSuffix ts).drop 4).take pkKey.length = pkKey := by
    rw [append_assoc, drop_left' (length_beBytes 4 tableId), take_left]
  have hsuf : (beBytes 4 tableId ++ pkKey ++ tsSuffix ts).drop (4 + pkKey.length) = tsSuffix ts :=
    drop_left' (by simp [length_beBytes])
  simp only [versionKey_eq, parseVersionKey, splitSlash_slotPrefix, Option.bind_some,
    parseDec_decimal (show slot < 2 ^ 32 by omega), hlen]
  rw [if_neg (by simp), if_pos hs, show 4 + pkKey.length + 8 - 12 = pkKey.length by omega,
    show 4 + pkKey.length + 8 - 8 = 4 + pkKey.length by omega, h4, hpk, hsuf,
    ofBe_beBytes, tsFromSuffix_tsSuffix hts, show 256 ^ 4 = 2 ^ 32 by decide]

theorem isSome_parseVersionKey {slot : Nat} (h : slot < 2 ^ 16) (kind : UInt8) (body : Bytes) :
    (parseVersionKey (slotPrefix slot ++ kind :: body)).isSome ↔
      kind = kindSqlRow ∧ 12 ≤ body.length := by
  simp only [parseVersionKey, splitSlash_slotPrefix, Option.bind_some,
    parseDec_decimal (show slot < 2 ^ 32 by omega)]
  by_cases hb : body.length < 4 + 8 ∨ kind ≠ kindSqlRow
  · rw [if_pos hb]
    rcases hb with hb | hb
    · exact ⟨nofun, fun hk => by omega⟩
    · exact ⟨nofun, fun hk => absurd hk.1 hb⟩
  · rw [if_neg hb, if_pos h]
    obtain ⟨hlen, hkind⟩ := not_or.mp hb
    exact ⟨fun _ => ⟨not_not.mp hkind, by omega⟩, fun _ => rfl⟩

theorem parseVersionKey_slotPrefix (slot : Nat) : parseVersionKey (slotPrefix slot) = none := by
  have hs := splitSlash_slotPrefix slot []
  rw [append_nil] at hs
  rw [parseVersionKey, hs]

theorem eq_of_parseVersionKey {key : Bytes} {v : VersionKey} (h : parseVersionKey key = some v) :
    ∃ head, key = head ++ 0x2f :: kindSqlRow :: (beBytes 4 v.tableId ++ v.pk ++ tsSuffix v.ts) ∧
      parseDec (2 ^ 32) head = some v.slot ∧ v.slot < 2 ^ 16 ∧ v.tableId < 2 ^ 32 ∧
      v.ts < 2 ^ 64 := by
  unfold parseVersionKey at h
  split at h
  · next head kind body hs =>
    obtain ⟨slot, hslot, h⟩ := Option.bind_eq_some_iff.mp h
    split at h
    · cases h
    · next hb =>
      split at h
      · next hlt =>
        cases h
        obtain ⟨hlen, hkind⟩ := not_or.mp hb
        obtain rfl := not_not.mp hkind
        have h4 : (body.take 4).length = 4 := by rw [length_take]; omega
        have h8 : (body.drop (body.length - 8)).length = 8 := by rw [length_drop]; omega
        have hid := ofBe_lt (body.take 4)
        have hts := ofBe_lt (body.drop (body.length - 8))
        rw [h4] at hid
        rw [h8] at hts
        refine ⟨head, ?_, hslot, hlt, by simpa using hid, by simp only [tsFromSuffix]; omega⟩
        rw [eq_of_splitSlash hs]
        have e1 := beBytes_ofBe h4
        have e2 : tsSuffix (tsFromSuffix (body.drop (body.length - 8))) =
            body.drop (body.length - 8) := by
          rw [tsSuffix, tsFromSuffix, Nat.sub_sub_self (by omega), beBytes_ofBe h8]
        have e3 : (body.drop 4).take (body.length - 12) ++ body.drop (body.length - 8) =
            body.drop 4 := by
          have : body.drop (body.length - 8) = (body.drop 4).drop (body.length - 12) := by
            rw [drop_drop]; congr 1; omega
          rw [this, take_append_drop]
        rw [e1, e2, append_assoc, e3, take_append_drop]
      · cases h
  · cases h

end Rdb.Sql
