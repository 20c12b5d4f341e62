import Rdb.Sql.Row

/-!
# Index entry keys

A secondary entry is stored under `<slot>/ 21 table_id col_pos value pk_key` with
an empty value, a unique entry under `<slot>/ 22 table_id col_pos value` with the
owning primary key as its value. All entries of one index share a slot.
-/

namespace Rdb.Sql

open Lib

def indexSlot (tableId colPos : Nat) : Nat :=
  (crc16 (beBytes 4 tableId ++ beBytes 4 colPos)).toNat % slotNumber

/-- What every entry key of one index and kind starts with. -/
def indexPrefix (tableId colPos : Nat) (kind : UInt8) : Bytes :=
  slotPrefix (indexSlot tableId colPos) ++ kind :: (beBytes 4 tableId ++ beBytes 4 colPos)

def secondaryKey (tableId colPos : Nat) (colKey pkKey : Bytes) : Bytes :=
  indexPrefix tableId colPos kindSqlIndex ++ colKey ++ pkKey

def uniqueKey (tableId colPos : Nat) (colKey : Bytes) : Bytes :=
  indexPrefix tableId colPos kindSqlUniqueIndex ++ colKey

/-- An index write that rides in a batch: `none` deletes. -/
abbrev IndexOp := Bytes × Option Bytes

def applyOp (op : IndexOp) : WriteOp :=
  match op.2 with
  | some v => .put op.1 v
  | none => .del op.1

@[simp] theorem key_applyOp (op : IndexOp) : (applyOp op).key = op.1 := by
  unfold applyOp
  split <;> rfl

structure IndexKey where
  kind : UInt8
  tableId : Nat
  colPos : Nat
  rest : Bytes

def parseIndexKey (key : Bytes) : Option IndexKey :=
  match splitSlash key with
  | some (head, kind :: body) =>
    (parseDec (2 ^ 32) head).bind fun slot =>
      if 2 ^ 16 ≤ slot then none
      else if kind ≠ kindSqlIndex ∧ kind ≠ kindSqlUniqueIndex then none
      else if body.length ≤ 8 then none
      else some { kind, tableId := ofBe (body.take 4), colPos := ofBe ((body.drop 4).take 4),
                  rest := body.drop 8 }
  | _ => none

theorem isSome_parseIndexKey {slot : Nat} (h : slot < 2 ^ 16) (kind : UInt8) (body : Bytes) :
    (parseIndexKey (slotPrefix slot ++ kind :: body)).isSome ↔
      (kind = kindSqlIndex ∨ kind = kindSqlUniqueIndex) ∧ 8 < body.length := by
  simp only [parseIndexKey, splitSlash_slotPrefix, Option.bind_some,
    parseDec_decimal (show slot < 2 ^ 32 by omega)]
  rw [if_neg (by omega)]
  by_cases hk : kind ≠ kindSqlIndex ∧ kind ≠ kindSqlUniqueIndex
  · rw [if_pos hk]
    exact ⟨nofun, fun hb => absurd hk (Decidable.or_iff_not_not_and_not.mp hb.1)⟩
  · rw [if_neg hk]
    by_cases hlen : body.length ≤ 8
    · rw [if_pos hlen]
      exact ⟨nofun, fun hb => by omega⟩
    · rw [if_neg hlen]
      exact ⟨fun _ => ⟨Decidable.or_iff_not_not_and_not.mpr hk, by omega⟩, fun _ => rfl⟩

theorem parseIndexKey_slotPrefix (slot : Nat) : parseIndexKey (slotPrefix slot) = none := by
  have hs := splitSlash_slotPrefix slot []
  rw [List.append_nil] at hs
  rw [parseIndexKey, hs]

theorem parseVersionKey_of_parseIndexKey {key : Bytes} {ik : IndexKey}
    (h : parseIndexKey key = some ik) : parseVersionKey key = none := by
  unfold parseIndexKey at h
  split at h
  · next head kind body hs =>
    obtain ⟨slot, hp, h⟩ := Option.bind_eq_some_iff.mp h
    split_ifs at h with hlt hk hlen
    have hne : kind ≠ kindSqlRow := by
      rintro rfl
      exact hk (by decide)
    simp only [parseVersionKey, hs, hp, Option.bind_some]
    rw [if_pos (.inr hne)]
  · cases h

end Rdb.Sql
