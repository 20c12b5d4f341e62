import Rdb.Store

/-!
# Values, schemas and their byte encodings

`encodeKey` is the order-preserving encoding used inside primary keys and index
keys: a type tag, then the payload. Row payloads are written by `encodePayload`.
Signed integers are bit vectors, a double is its bit pattern.
-/

namespace Rdb.Sql

open Lib

inductive SqlType where
  | bool | int | double
  | decimal (precision scale : UInt8)
  | date | dateTime | varChar | blob
  deriving DecidableEq

inductive Value where
  | null
  | bool (b : Bool)
  | int (i : BitVec 64)
  | double (bits : BitVec 64)
  | decimal (m : BitVec 128) (scale : UInt8)
  | date (i : BitVec 64)
  | dateTime (i : BitVec 64)
  | str (s : String)
  | bytes (b : Bytes)
  deriving DecidableEq

structure ColumnDef where
  name : String
  sqlType : SqlType
  nullable : Bool
  deriving DecidableEq

inductive Engine where
  | row | columnar
  deriving DecidableEq

/-- A table as the row layer and the commit protocol read it. -/
structure TableSchema where
  id : Nat
  name : String
  columns : List ColumnDef
  pk : List String
  engine : Engine
  deriving DecidableEq

namespace TableSchema

def columnIndex (schema : TableSchema) (name : String) : Option Nat :=
  schema.columns.findIdx? fun c => c.name.toLower == name.toLower

/-- Primary-key column positions; `none` is the panic on a missing column. -/
def pkIndices (schema : TableSchema) : Option (List Nat) := schema.pk.mapM schema.columnIndex

end TableSchema

/-! ## Kinds of SQL records -/

def kindSqlRow : UInt8 := 0x20
def kindSqlIndex : UInt8 := 0x21
def kindSqlUniqueIndex : UInt8 := 0x22
def kindSqlSegment : UInt8 := 0x23

/-! ## Key encoding -/

def utf8 (s : String) : Bytes := s.toUTF8.data.toList

/-- Fixed-width integer component: the sign bit is flipped. -/
def keyInt (tag : UInt8) (i : BitVec 64) : Bytes :=
  tag :: beBytes 8 (i ^^^ BitVec.intMin 64).toNat

def keyDecimal (m : BitVec 128) : Bytes :=
  0x08 :: beBytes 16 (m ^^^ BitVec.intMin 128).toNat

/-- Variable-length component: `00` is escaped as `00 FF`, and `00` ends it. -/
def keyBytes (tag : UInt8) (b : Bytes) : Bytes :=
  tag :: (b.flatMap (fun x => if x = 0x00 then [0x00, 0xff] else [x]) ++ [0x00])

def encodeKey : Value → Bytes
  | .null => [0x00]
  | .bool b => [0x01, if b then 1 else 0]
  | .int i => keyInt 0x02 i
  | .date i => keyInt 0x06 i
  | .dateTime i => keyInt 0x07 i
  | .decimal m _ => keyDecimal m
  | .double bits =>
    -- negative doubles invert all bits, the others set the sign bit
    let ordered := if bits &&& BitVec.intMin 64 ≠ 0 then ~~~bits else bits ||| BitVec.intMin 64
    0x03 :: beBytes 8 ordered.toNat
  | .str s => keyBytes 0x04 (utf8 s)
  | .bytes b => keyBytes 0x05 b

/-- The tag `encodeKey` puts in front. -/
def Value.tag : Value → UInt8
  | .null => 0x00
  | .bool _ => 0x01
  | .int _ => 0x02
  | .double _ => 0x03
  | .str _ => 0x04
  | .bytes _ => 0x05
  | .date _ => 0x06
  | .dateTime _ => 0x07
  | .decimal _ _ => 0x08

@[simp] theorem head?_encodeKey (v : Value) : (encodeKey v).head? = some v.tag := by
  cases v <;> rfl

/-- The primary key of a full-width row; `none` is the panic on a missing column. -/
def pkEncodeRow (schema : TableSchema) (values : List Value) : Option Bytes := do
  let is ← schema.pkIndices
  let vs ← is.mapM fun i => values[i]?
  return vs.flatMap encodeKey

end Rdb.Sql
