import Rdb.Lib.Json
import Rdb.Sql.Codec

/-!
# Table definitions

What the catalog stores for a table: the part the row layer reads, its secondary
indexes, its AUTO_INCREMENT column and its key model. `tableCodec` is the JSON text of
a definition, as the replicated catalog entries carry it.
-/

namespace Rdb.Sql

open Lib

/-- One secondary index; it covers exactly one column. -/
structure IndexDef where
  id : Nat
  name : String
  column : String
  unique : Bool
  deriving DecidableEq

/-- The table model: `primaryKey` tables treat INSERT as an upsert. -/
inductive KeyModel where
  | mySql | primaryKey | duplicate
  deriving DecidableEq

structure TableDef extends TableSchema where
  autoIncrement : Option String := none
  indexes : List IndexDef := []
  keyModel : KeyModel := .mySql
  deriving DecidableEq

def TableDef.autoIncrementIndex (t : TableDef) : Option Nat :=
  t.autoIncrement.bind t.columnIndex

/-! ## Text -/

def ofUtf8 (b : Bytes) : Option String := String.fromUTF8? (ByteArray.mk b.toArray)

theorem ofUtf8_utf8 (s : String) : ofUtf8 (utf8 s) = some s := by
  exact dif_pos s.isValidUTF8

theorem utf8_inj {a b : String} (h : utf8 a = utf8 b) : a = b := by
  rw [← Option.some.injEq, ← ofUtf8_utf8 a, h, ofUtf8_utf8]

/-! ## The JSON text of a definition -/

namespace TableDef

open JsonCodec

def textCodec : JsonCodec String := string.iso utf8 ofUtf8 ofUtf8_utf8

def typeNames : List (SqlType × Bytes) :=
  [(.bool, utf8 "bool"), (.int, utf8 "int"), (.double, utf8 "double"), (.date, utf8 "date"),
   (.dateTime, utf8 "datetime"), (.varChar, utf8 "varchar"), (.blob, utf8 "blob")]

def decimalCodec : JsonCodec (UInt8 × UInt8) :=
  object (field (utf8 "decimal") (object (fields (field (utf8 "precision") byte)
    (field (utf8 "scale") byte))))

def typeName : SqlType → Bytes ⊕ (UInt8 × UInt8)
  | .decimal p s => .inr (p, s)
  | t => .inl (((typeNames.find? (·.1 = t)).map (·.2)).getD [])

def ofTypeName : Bytes ⊕ (UInt8 × UInt8) → Option SqlType
  | .inr (p, s) => some (.decimal p s)
  | .inl name => (typeNames.find? (·.2 = name)).map (·.1)

def sqlTypeCodec : JsonCodec SqlType :=
  (choice 0x22 string decimalCodec (fun _ => rfl) fun _ => by
    simp [decimalCodec, object, after]).iso typeName ofTypeName fun t => by
      cases t with
      | decimal p s => rfl
      | _ => decide

def columnCodec : JsonCodec ColumnDef :=
  (object (fields (field (utf8 "name") textCodec) (fields (field (utf8 "type") sqlTypeCodec)
    (field (utf8 "nullable") bool)))).iso
    (fun c => (c.name, c.sqlType, c.nullable)) (fun p => some ⟨p.1, p.2.1, p.2.2⟩) fun _ => rfl

def indexCodec : JsonCodec IndexDef :=
  (object (fields (field (utf8 "id") nat) (fields (field (utf8 "name") textCodec)
    (fields (field (utf8 "column") textCodec) (field (utf8 "unique") bool))))).iso
    (fun i => (i.id, i.name, i.column, i.unique))
    (fun p => some ⟨p.1, p.2.1, p.2.2.1, p.2.2.2⟩) fun _ => rfl

def engineCodec : JsonCodec Engine :=
  string.iso (fun | .row => utf8 "row" | .columnar => utf8 "columnar")
    (fun b => if b = utf8 "row" then some .row
      else if b = utf8 "columnar" then some .columnar else none)
    fun | .row => by decide | .columnar => by decide

def keyModelCodec : JsonCodec KeyModel :=
  string.iso
    (fun | .mySql => utf8 "my_sql" | .primaryKey => utf8 "primary_key" | .duplicate => utf8 "duplicate")
    (fun b => if b = utf8 "my_sql" then some .mySql
      else if b = utf8 "primary_key" then some .primaryKey
      else if b = utf8 "duplicate" then some .duplicate else none)
    fun | .mySql => by decide | .primaryKey => by decide | .duplicate => by decide

def tableCodec : JsonCodec TableDef :=
  (object (fields (field (utf8 "id") nat) (fields (field (utf8 "name") textCodec)
    (fields (field (utf8 "columns") (array columnCodec))
      (fields (field (utf8 "pk") (array textCodec))
        (fields (field (utf8 "auto_increment") (nullable textCodec fun _ => by
            simp [textCodec, string, iso]))
          (fields (field (utf8 "engine") engineCodec)
            (fields (field (utf8 "indexes") (array indexCodec))
              (field (utf8 "key_model") keyModelCodec))))))))).iso
    (fun t => (t.id, t.name, t.columns, t.pk, t.autoIncrement, t.engine, t.indexes, t.keyModel))
    (fun p => some
      { id := p.1, name := p.2.1, columns := p.2.2.1, pk := p.2.2.2.1,
        autoIncrement := p.2.2.2.2.1, engine := p.2.2.2.2.2.1, indexes := p.2.2.2.2.2.2.1,
        keyModel := p.2.2.2.2.2.2.2 })
    fun _ => rfl

theorem tableCodec_enc_ne_nil (t : TableDef) : tableCodec.enc t ≠ [] := by
  obtain ⟨x, xs, h, -⟩ := tableCodec.head_ne t
  rw [h]
  exact List.cons_ne_nil x xs

end TableDef

end Rdb.Sql
