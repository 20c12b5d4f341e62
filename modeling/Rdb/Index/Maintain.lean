import Rdb.Sql.Schema
import Rdb.Tx.Session

/-!
# Index maintenance of a batch

A write batch describes its rows as transitions from an old to a new row side. Every
index turns every transition into at most one delete and one put of an entry, in the
order of the transitions, and a unique index is checked first against the batch and
the store. The order of the operations is the order of the rows: a later row can
delete the entry an earlier row has just put. Values are compared by the derived
equality of their type, so the two zeros of a double are equal and NaN equals nothing.

* `lastWrite_entriesForRow`: what a transition does to an entry key.
-/

namespace Rdb.Sql

/-- The bits of a double without its sign. -/
def f64Magnitude (bits : BitVec 64) : BitVec 64 := bits &&& ~~~ BitVec.intMin 64

def f64IsNan (bits : BitVec 64) : Bool := 0x7ff0000000000000#64 < f64Magnitude bits

def f64Eq (a b : BitVec 64) : Bool :=
  !f64IsNan a && !f64IsNan b && (a == b || f64Magnitude a == 0 && f64Magnitude b == 0)

def Value.eq : Value → Value → Bool
  | .double a, .double b => f64Eq a b
  | a, b => a == b

end Rdb.Sql

namespace Rdb.Index

open Lib Sql Tx List Option
open Except (ok)

/-- One side of a row transition: primary key and full-width values. -/
structure RowSide where
  pkKey : Bytes
  values : List Value

/-- No old side is an insert, no new side a delete. -/
structure Transition where
  old : Option RowSide
  new : Option RowSide

def columnPos (t : TableDef) (index : IndexDef) : Except String Nat :=
  match t.columnIndex index.column with
  | some pos => .ok pos
  | none => .error s!"index column '{index.column}' missing from table"

def indexedAt (pos : Nat) : Option RowSide → Except String (Option (RowSide × Value))
  | none => .ok none
  | some side => match side.values[pos]? with
    | none => .error "index out of bounds"
    | some .null => .ok none
    | some v => .ok (some (side, v))

section

variable (t : TableDef) (index : IndexDef)

def entryKey (pos : Nat) (side : RowSide) (v : Value) : Bytes :=
  if index.unique then uniqueKey t.id pos (encodeKey v)
  else secondaryKey t.id pos (encodeKey v) side.pkKey

def entryValue (side : RowSide) : Bytes := if index.unique then side.pkKey else []

/-- Neither the key nor the indexed value changes. -/
def unchanged : Option (RowSide × Value) → Option (RowSide × Value) → Bool
  | some (old, a), some (new, b) => a.eq b && old.pkKey == new.pkKey
  | _, _ => false

def entriesForRow (tr : Transition) : Except String (List IndexOp) := do
  let pos ← columnPos t index
  let old ← indexedAt pos tr.old
  let new ← indexedAt pos tr.new
  if unchanged old new then return []
  return (old.map fun o => (entryKey t index pos o.1 o.2, none)).toList ++
    (new.map fun n => (entryKey t index pos n.1 n.2, some (entryValue index n.1))).toList

/-! ## Unique constraints -/

/-- The text of the error; `text` renders the value of an entry key. -/
def dupEntry (text : Bytes → String) (key : Bytes) : SqlError :=
  .err .dupEntry s!"Duplicate entry {text key} for key '{index.name}'"

/-- Who claims a key after the batch; `none` is a key left unclaimed. The error is the first key
claimed for a second row. -/
def claimKeys : SortedMap Bytes (Option Bytes) → List IndexOp →
    Except Bytes (SortedMap Bytes (Option Bytes))
  | claimed, [] => .ok claimed
  | claimed, (key, none) :: ops => claimKeys (claimed.put key none) ops
  | claimed, (key, some pk) :: ops => match claimed.get key with
    | some (some other) =>
      if other ≠ pk then .error key else claimKeys (claimed.put key (some pk)) ops
    | _ => claimKeys (claimed.put key (some pk)) ops

def uniqueOwnerByKey (store : Store) (key : Bytes) : Option Bytes :=
  (store.get key).filter fun v => !v.isEmpty

/-- The entry is owned by another row in the store and the batch does not vacate it. -/
def ownedElsewhere (store : Store) (vacated : List Bytes) (claim : Bytes × Option Bytes) : Bool :=
  match claim.2 with
  | none => false
  | some pk => !vacated.contains claim.1 &&
      (uniqueOwnerByKey store claim.1).any fun disk => disk != pk

def vacatedKeys (ops : List IndexOp) : List Bytes :=
  ops.filterMap fun op => if op.2.isNone then some op.1 else none

def checkUnique (text : Bytes → String) (store : Store) (ops : List IndexOp) :
    Except SqlError Unit :=
  match claimKeys SortedMap.empty ops with
  | .error key => .error (dupEntry index text key)
  | .ok claimed => match claimed.entries.find? (ownedElsewhere store (vacatedKeys ops)) with
    | some claim => .error (dupEntry index text claim.1)
    | none => .ok ()

def indexOps (text : IndexDef → Bytes → String) (store : Store) (ts : List Transition) :
    Except SqlError (List IndexOp) := do
  let perRow ← unknown (ts.mapM (entriesForRow t index))
  if index.unique then checkUnique index (text index) store perRow.flatten
  return perRow.flatten

end

def batchOps (text : IndexDef → Bytes → String) (store : Store) (t : TableDef)
    (ts : List Transition) : Except SqlError (List IndexOp) := do
  let perIndex ← t.indexes.mapM fun index => indexOps t index text store ts
  return perIndex.flatten

def applyOps (store : Store) (ops : List IndexOp) : Store := store.write (ops.map applyOp)

/-! ## The entries of a row -/

section

variable (t : TableDef)

def valued (index : IndexDef) (side : RowSide) : Option (RowSide × Value) :=
  (t.columnIndex index.column).bind fun pos =>
    match side.values[pos]? with
    | none => none
    | some .null => none
    | some v => some (side, v)

def keyOf (index : IndexDef) (side : RowSide) : Option Bytes :=
  (t.columnIndex index.column).bind fun pos =>
    (valued t index side).map fun p => entryKey t index pos side p.2

/-- The row has its entry: a unique entry names it, a secondary entry is there. -/
def HasEntry (store : Store) (index : IndexDef) (side : RowSide) : Prop :=
  ∀ key ∈ keyOf t index side, if index.unique then store.get key = some side.pkKey
    else (store.get key).isSome
  deriving Decidable

def Complete (store : Store) (rows : SortedMap Bytes (List Value)) : Prop :=
  ∀ e ∈ rows.entries, ∀ index ∈ t.indexes, HasEntry t store index ⟨e.1, e.2⟩
  deriving Decidable

/-! ## Who has a key last -/

def visits (ts : List Transition) : List (IndexDef × Transition) :=
  t.indexes.flatMap fun index => ts.map fun tr => (index, tr)

def Invisible (p : IndexDef × Transition) : Prop :=
  unchanged (p.2.old.bind (valued t p.1)) (p.2.new.bind (valued t p.1))

def Takes (key : Bytes) (p : IndexDef × Transition) : Prop :=
  ¬ Invisible t p ∧ p.2.old.bind (keyOf t p.1) = some key

def Gives (key : Bytes) (p : IndexDef × Transition) : Prop :=
  ¬ Invisible t p ∧ p.2.new.bind (keyOf t p.1) = some key

def LastGiven (ts : List Transition) (index : IndexDef) (key pk : Bytes) : Prop :=
  ∃ before p after, visits t ts = before ++ p :: after ∧ Gives t key p ∧
    (∀ q ∈ after, ¬ Takes t key q ∧ ¬ Gives t key q) ∧
    (index.unique → ∀ side ∈ p.2.new, side.pkKey = pk)

def LeftAlone (ts : List Transition) (key : Bytes) : Prop :=
  ∀ p ∈ visits t ts, ¬ Takes t key p ∧ ¬ Gives t key p

end

def applyTransition (rows : SortedMap Bytes (List Value)) (tr : Transition) :
    SortedMap Bytes (List Value) :=
  let rows := match tr.old with
    | some old => rows.delete old.pkKey
    | none => rows
  match tr.new with
  | some new => rows.put new.pkKey new.values
  | none => rows

def rowsAfter (rows : SortedMap Bytes (List Value)) (ts : List Transition) :
    SortedMap Bytes (List Value) := ts.foldl applyTransition rows

/-- The key of every row live after the batch is given to that row last, or the batch leaves it
alone and the row was live before with these values or the store had the entry. -/
def KeysKept (store : Store) (t : TableDef) (rows : SortedMap Bytes (List Value))
    (ts : List Transition) : Prop :=
  ∀ e ∈ (rowsAfter rows ts).entries, ∀ index ∈ t.indexes, ∀ key ∈ keyOf t index ⟨e.1, e.2⟩,
    LastGiven t ts index key e.1 ∨
      LeftAlone t ts key ∧ (rows.get e.1 = some e.2 ∨ HasEntry t store index ⟨e.1, e.2⟩)

/-! ## What a batch does to a key -/

section

variable {t : TableDef} {index : IndexDef} {tr : Transition}

theorem indexedAt_eq {pos : Nat} {side : Option RowSide} {r : Option (RowSide × Value)}
    (hpos : t.columnIndex index.column = some pos) (h : indexedAt pos side = .ok r) :
    r = side.bind (valued t index) := by
  cases side with
  | none =>
    cases h
    rfl
  | some side =>
    simp only [indexedAt] at h
    simp only [bind_some, valued, hpos]
    split at h
    · cases h
    · cases h
      rfl
    · cases h
      rfl

variable {side : RowSide}

theorem fst_of_valued {p : RowSide × Value} (h : valued t index side = some p) : p.1 = side := by
  obtain ⟨pos, -, h⟩ := bind_eq_some_iff.mp h
  split at h
  · cases h
  · cases h
  · cases h
    rfl

variable {ops : List IndexOp}

theorem entriesForRow_eq (h : entriesForRow t index tr = .ok ops) :
    (Invisible t (index, tr) → ops = []) ∧ (¬ Invisible t (index, tr) →
      ops = ((tr.old.bind (keyOf t index)).map fun key => (key, none)).toList ++
        (tr.new.bind fun side => (keyOf t index side).map fun key =>
          (key, some (entryValue index side))).toList) := by
  obtain ⟨pos, hcol, h⟩ := bind_eq_ok.mp h
  obtain ⟨old, hold, h⟩ := bind_eq_ok.mp h
  obtain ⟨new, hnew, h⟩ := bind_eq_ok.mp h
  have hpos : t.columnIndex index.column = some pos := by
    unfold columnPos at hcol
    split at hcol <;> cases hcol
    assumption
  obtain rfl := indexedAt_eq hpos hold
  obtain rfl := indexedAt_eq hpos hnew
  have hkey : ∀ side : RowSide, keyOf t index side =
      (valued t index side).map fun p => entryKey t index pos p.1 p.2 := fun side => by
    rw [keyOf, hpos, bind_some]
    cases hv : valued t index side with
    | none => rfl
    | some p => rw [map_some, map_some, fst_of_valued hv]
  split at h
  · next hun => exact ⟨fun _ => (ok.inj h).symm, fun hvis => absurd hun hvis⟩
  · next hun =>
    refine ⟨fun hinv => absurd hinv hun, fun _ => ?_⟩
    rw [← ok.inj h]
    congr 2
    · cases tr.old with
      | none => rfl
      | some side =>
        simp only [bind_some, hkey, Option.map_map]
        rfl
    · cases tr.new with
      | none => rfl
      | some side =>
        simp only [bind_some, hkey, Option.map_map]
        cases hv : valued t index side with
        | none => rfl
        | some p => rw [map_some, map_some, Function.comp_apply, fst_of_valued hv]

section

variable {ops : List IndexOp} {key : Bytes}

variable (h : entriesForRow t index tr = .ok ops)
include h

theorem lastWrite_of_gives (hg : Gives t key (index, tr)) :
    ∃ side ∈ tr.new, lastWrite key (ops.map applyOp) = some (some (entryValue index side)) := by
  obtain ⟨hvis, hkey⟩ := hg
  obtain ⟨side, hside, hkey⟩ := bind_eq_some_iff.mp hkey
  refine ⟨side, hside, ?_⟩
  have hnew : (tr.new.bind fun side => (keyOf t index side).map fun key =>
      (key, some (entryValue index side))) = some (key, some (entryValue index side)) := by
    rw [show tr.new = some side from hside, bind_some, show keyOf t index side = some key from
      hkey, map_some]
  rw [(entriesForRow_eq h).2 hvis, hnew, map_append, lastWrite_append]
  simp [lastWrite_cons, applyOp]

theorem lastWrite_of_not_gives (hg : ¬ Gives t key (index, tr)) {r : Option Bytes}
    (hl : lastWrite key (ops.map applyOp) = some r) : r = none ∧ Takes t key (index, tr) := by
  obtain ⟨op, hop, hopk, rfl⟩ := exists_of_lastWrite hl
  obtain ⟨e, he, rfl⟩ := mem_map.mp hop
  rw [key_applyOp] at hopk
  by_cases hvis : Invisible t (index, tr)
  · rw [(entriesForRow_eq h).1 hvis] at he
    cases he
  · rw [(entriesForRow_eq h).2 hvis] at he
    rcases mem_append.mp he with he | he
    · obtain ⟨k, hk, rfl⟩ := map_eq_some_iff.mp (mem_toList.mp he)
      exact ⟨rfl, hvis, hopk ▸ hk⟩
    · obtain ⟨side, hside, he⟩ := bind_eq_some_iff.mp (mem_toList.mp he)
      obtain ⟨k, hk, rfl⟩ := map_eq_some_iff.mp he
      refine absurd ⟨hvis, ?_⟩ hg
      rw [show (index, tr).2.new = some side from hside, bind_some, hk, ← hopk]

theorem lastWrite_of_takes (ht : Takes t key (index, tr)) :
    lastWrite key (ops.map applyOp) ≠ none := by
  intro hl
  refine lastWrite_eq_none.mp hl (applyOp (key, none)) (mem_map_of_mem ?_) (key_applyOp _)
  rw [(entriesForRow_eq h).2 ht.1, show tr.old.bind (keyOf t index) = some key from ht.2]
  exact mem_append_left _ (mem_singleton.mpr rfl)

theorem lastWrite_eq_none_iff :
    lastWrite key (ops.map applyOp) = none ↔ ¬ Takes t key (index, tr) ∧ ¬ Gives t key (index, tr) := by
  constructor
  · intro hl
    refine ⟨fun ht => lastWrite_of_takes h ht hl, fun hg => ?_⟩
    obtain ⟨side, -, hs⟩ := lastWrite_of_gives h hg
    rw [hl] at hs
    cases hs
  · rintro ⟨ht, hg⟩
    cases hl : lastWrite key (ops.map applyOp) with
    | none => rfl
    | some r => exact absurd (lastWrite_of_not_gives h hg hl).2 ht

end

/-! ## The batch as a list of visits -/

def opsOf (t : TableDef) (p : IndexDef × Transition) : List IndexOp :=
  match entriesForRow t p.1 p.2 with
  | .ok ops => ops
  | .error _ => []

theorem opsOf_eq {p : IndexDef × Transition}
    (h : entriesForRow t p.1 p.2 = .ok ops) : opsOf t p = ops := by
  rw [opsOf, h]

variable {text : IndexDef → Bytes → String} {store : Store} {ts : List Transition}

theorem indexOps_eq (h : indexOps t index text store ts = .ok ops) :
    ops = ts.flatMap (fun tr => opsOf t (index, tr)) ∧
      ∀ tr ∈ ts, entriesForRow t index tr = .ok (opsOf t (index, tr)) := by
  simp only [indexOps, bind, Except.bind] at h
  cases hm : ts.mapM (entriesForRow t index) with
  | error e => simp only [hm] at h; cases h
  | ok perRow =>
    have hrows := eq_map_of_mapM_ok (fun tr o ho => opsOf_eq (p := (index, tr)) ho) hm
    refine ⟨?_, fun tr htr => ?_⟩
    · rw [flatMap_def, ← hrows]
      simp only [hm, unknown, Except.mapError] at h
      split at h
      · split at h
        · cases h
        · exact (ok.inj h).symm
      · exact (ok.inj h).symm
    · obtain ⟨o, -, ho⟩ := (mapM_ok_spec hm).2 tr htr
      rw [ho, opsOf_eq (p := (index, tr)) ho]

theorem batchOps_eq (h : batchOps text store t ts = .ok ops) :
    ops = (visits t ts).flatMap (opsOf t) ∧
      ∀ p ∈ visits t ts, entriesForRow t p.1 p.2 = .ok (opsOf t p) := by
  obtain ⟨perIndex, hm, h⟩ := bind_eq_ok.mp h
  have hidx := eq_map_of_mapM_ok (fun index o ho => (indexOps_eq ho).1.symm) hm
  refine ⟨?_, fun p hp => ?_⟩
  · rw [← ok.inj h, hidx, visits, flatMap_assoc, flatMap_def]
    simp only [flatMap_map]
  · obtain ⟨index, hindex, hp⟩ := mem_flatMap.mp hp
    obtain ⟨tr, htr, rfl⟩ := mem_map.mp hp
    obtain ⟨o, -, ho⟩ := (mapM_ok_spec hm).2 index hindex
    exact (indexOps_eq ho).2 tr htr

section

variable {text : IndexDef → Bytes → String} {store : Store} {ts : List Transition}
  {ops : List IndexOp} {key : Bytes}

variable (h : batchOps text store t ts = .ok ops)
include h

theorem map_applyOp_batchOps :
    ops.map applyOp = (visits t ts).flatMap fun p => (opsOf t p).map applyOp := by
  rw [(batchOps_eq h).1, map_flatMap]

theorem lastWrite_batchOps_eq_none :
    lastWrite key (ops.map applyOp) = none ↔ LeftAlone t ts key := by
  rw [map_applyOp_batchOps h, lastWrite_flatMap_eq_none]
  exact forall₂_congr fun p hp => lastWrite_eq_none_iff ((batchOps_eq h).2 p hp)

theorem lastWrite_batchOps_eq_some {v : Bytes} :
    lastWrite key (ops.map applyOp) = some (some v) ↔
      ∃ before p after, visits t ts = before ++ p :: after ∧ Gives t key p ∧
        (∀ q ∈ after, ¬ Takes t key q ∧ ¬ Gives t key q) ∧
        ∀ side ∈ p.2.new, entryValue p.1 side = v := by
  rw [map_applyOp_batchOps h, lastWrite_flatMap_eq_some]
  have hok := (batchOps_eq h).2
  constructor
  · rintro ⟨before, p, after, hsplit, hp, hafter⟩
    rw [hsplit] at hok
    have hpok := hok p (by simp)
    have hg : Gives t key p := by
      by_contra hg
      cases (lastWrite_of_not_gives hpok hg hp).1
    refine ⟨before, p, after, hsplit, hg, fun q hq => ?_, fun side hside => ?_⟩
    · exact (lastWrite_eq_none_iff (hok q (by simp [hq]))).mp (hafter q hq)
    · obtain ⟨side', hside', hv⟩ := lastWrite_of_gives hpok hg
      obtain rfl : side' = side := mem_unique hside' hside
      rw [hp] at hv
      exact (some.inj (some.inj hv)).symm
  · rintro ⟨before, p, after, hsplit, hg, hafter, hv⟩
    rw [hsplit] at hok
    obtain ⟨side, hside, hl⟩ := lastWrite_of_gives (hok p (by simp)) hg
    refine ⟨before, p, after, hsplit, ?_, fun q hq => ?_⟩
    · rw [hl, hv side hside]
    · exact (lastWrite_eq_none_iff (hok q (by simp [hq]))).mpr (hafter q hq)

end

/-! ## Completeness -/

theorem splitSlash_entryKey (t : TableDef) (index : IndexDef) (pos : Nat) (side : RowSide)
    (v : Value) : ∃ slot body, splitSlash (entryKey t index pos side v) = some (slot,
      (if index.unique then kindSqlUniqueIndex else kindSqlIndex) ::
        (beBytes 4 t.id ++ (beBytes 4 pos ++ body))) := by
  unfold entryKey
  split
  · exact ⟨_, encodeKey v, by rw [uniqueKey, indexPrefix, append_assoc, cons_append,
      append_assoc, splitSlash_slotPrefix]⟩
  · exact ⟨_, encodeKey v ++ side.pkKey, by rw [secondaryKey, indexPrefix, append_assoc,
      append_assoc, cons_append, append_assoc, splitSlash_slotPrefix]⟩

theorem beBytes_four_inj {a b : Nat} {c d : Bytes} (h : beBytes 4 a ++ c = beBytes 4 b ++ d) :
    a % 2 ^ 32 = b % 2 ^ 32 ∧ c = d := by
  obtain ⟨hab, hcd⟩ := append_inj h (by simp)
  have h4 : (256 : Nat) ^ 4 = 2 ^ 32 := by decide
  exact ⟨by rw [← h4, ← ofBe_beBytes, hab, ofBe_beBytes], hcd⟩

theorem owner_of_keyOf {t' : TableDef} {index' : IndexDef} {side' : RowSide} {key : Bytes}
    (h : keyOf t index side = some key) (h' : keyOf t' index' side' = some key) :
    index.unique = index'.unique ∧ t.id % 2 ^ 32 = t'.id % 2 ^ 32 ∧
      ∃ pos pos', t.columnIndex index.column = some pos ∧
        t'.columnIndex index'.column = some pos' ∧ pos % 2 ^ 32 = pos' % 2 ^ 32 := by
  obtain ⟨pos, hpos, h⟩ := bind_eq_some_iff.mp h
  obtain ⟨p, -, rfl⟩ := map_eq_some_iff.mp h
  obtain ⟨pos', hpos', h'⟩ := bind_eq_some_iff.mp h'
  obtain ⟨p', -, h'⟩ := map_eq_some_iff.mp h'
  obtain ⟨slot, body, hs⟩ := splitSlash_entryKey t index pos side p.2
  obtain ⟨slot', body', hs'⟩ := splitSlash_entryKey t' index' pos' side' p'.2
  rw [h', hs] at hs'
  obtain ⟨hkind, hbody⟩ := cons.inj (Prod.mk.inj (some.inj hs')).2
  obtain ⟨hid, hbody⟩ := beBytes_four_inj hbody
  refine ⟨?_, hid, pos, pos', hpos, hpos', (beBytes_four_inj hbody).1⟩
  have hne : kindSqlUniqueIndex ≠ kindSqlIndex := by decide
  cases hu : index.unique with
  | true =>
    cases hu' : index'.unique with
    | true => rfl
    | false => rw [hu, hu'] at hkind; exact absurd hkind hne
  | false =>
    cases hu' : index'.unique with
    | false => rfl
    | true => rw [hu, hu'] at hkind; exact absurd hkind.symm hne

section

variable {text : IndexDef → Bytes → String} {store : Store} {ts : List Transition}
  {ops : List IndexOp} {side : RowSide} {key : Bytes}

theorem get_applyOps (key : Bytes) :
    (applyOps store ops).get key = (lastWrite key (ops.map applyOp)).getD (store.get key) :=
  SortedMap.get_write store (ops.map applyOp) key

theorem hasEntry_iff (hkey : keyOf t index side = some key) :
    HasEntry t store index side ↔ ∃ v, store.get key = some v ∧
      (index.unique → v = side.pkKey) := by
  have hall : HasEntry t store index side ↔ (if index.unique then
      store.get key = some side.pkKey else (store.get key).isSome) :=
    ⟨fun h => h key hkey, fun h k hk => mem_unique hkey hk ▸ h⟩
  rw [hall]
  split
  · next hu => exact ⟨fun h => ⟨_, h, fun _ => rfl⟩, fun ⟨v, hv, he⟩ => by rw [hv, he hu]⟩
  · next hu =>
    rw [isSome_iff_exists]
    exact ⟨fun ⟨v, hv⟩ => ⟨v, hv, fun h => absurd h hu⟩, fun ⟨v, hv, _⟩ => ⟨v, hv⟩⟩

theorem hasEntry_after_iff (hops : batchOps text store t ts = .ok ops)
    (hkey : keyOf t index side = some key) :
    HasEntry t (applyOps store ops) index side ↔
      LastGiven t ts index key side.pkKey ∨ LeftAlone t ts key ∧ HasEntry t store index side := by
  -- a put of the key is the value of an entry of the same kind
  have hvalue : ∀ p : IndexDef × Transition, Gives t key p → ∀ new ∈ p.2.new,
      index.unique → entryValue p.1 new = new.pkKey := fun p hg new hnew hu => by
    have hg2 := hg.2
    rw [show p.2.new = some new from hnew] at hg2
    rw [entryValue, ← (owner_of_keyOf hkey hg2).1, if_pos hu]
  rw [hasEntry_iff hkey, hasEntry_iff hkey, get_applyOps]
  constructor
  · rintro ⟨v, hv, hown⟩
    cases hl : lastWrite key (ops.map applyOp) with
    | none =>
      rw [hl] at hv
      exact .inr ⟨(lastWrite_batchOps_eq_none hops).mp hl, v, hv, hown⟩
    | some r =>
      rw [hl] at hv
      subst hv
      obtain ⟨before, p, after, hsplit, hg, hafter, hval⟩ := (lastWrite_batchOps_eq_some hops).mp hl
      refine .inl ⟨before, p, after, hsplit, hg, hafter, fun hu new hnew => ?_⟩
      rw [← hvalue p hg new hnew hu, hval new hnew, hown hu]
  · rintro (⟨before, p, after, hsplit, hg, hafter, hown⟩ | ⟨halone, v, hv, hown⟩)
    · obtain ⟨new, hnew, -⟩ := bind_eq_some_iff.mp hg.2
      have hl := (lastWrite_batchOps_eq_some hops).mpr ⟨before, p, after, hsplit, hg, hafter,
          fun new' hnew' => by rw [mem_unique hnew' hnew]⟩
      refine ⟨entryValue p.1 new, by rw [hl, getD_some], fun hu => ?_⟩
      rw [hvalue p hg new hnew hu, hown hu new hnew]
    · rw [(lastWrite_batchOps_eq_none hops).mpr halone]
      exact ⟨v, hv, hown⟩

end

end

/-- After an accepted batch every live row has its entries exactly when the key of each such row
is given last to that row, or left alone and already its own. -/
theorem complete_after_iff (text : IndexDef → Bytes → String) (store : Store) (t : TableDef)
    (rows : SortedMap Bytes (List Value)) (ts : List Transition) (ops : List IndexOp)
    (hops : batchOps text store t ts = .ok ops) (hbefore : Complete t store rows) :
    Complete t (applyOps store ops) (rowsAfter rows ts) ↔ KeysKept store t rows ts := by
  refine forall₄_congr fun e he index hindex => ⟨fun h key hkey => ?_, fun h => ?_⟩
  · rcases (hasEntry_after_iff hops hkey).mp h with hlast | ⟨halone, hhas⟩
    · exact .inl hlast
    · exact .inr ⟨halone, .inr hhas⟩
  · intro key hkey
    refine (hasEntry_after_iff hops hkey).mpr ?_ key hkey
    rcases h key hkey with hlast | ⟨halone, hlive | hhas⟩
    · exact .inl hlast
    · exact .inr ⟨halone, hbefore e (SortedMap.mem_entries.mpr hlive) index hindex⟩
    · exact .inr ⟨halone, hhas⟩

section

/-- A table with a secondary index on `v` and a unique index on `n`. -/
def sampleTable : TableDef where
  id := 7
  name := "t"
  columns := [⟨"id", .int, false⟩, ⟨"v", .varChar, true⟩, ⟨"n", .int, true⟩]
  pk := ["id"]
  engine := .row
  indexes := [⟨1, "idx_v", "v", false⟩, ⟨2, "uq_n", "n", true⟩]

def sampleSide (id n : BitVec 64) : RowSide := ⟨encodeKey (.int id), [.int id, .null, .int n]⟩

def sampleRows : SortedMap Bytes (List Value) :=
  .ofList [((sampleSide 1 10).pkKey, (sampleSide 1 10).values),
    ((sampleSide 2 20).pkKey, (sampleSide 2 20).values)]

def sampleStore : Store :=
  .ofList [(uniqueKey 7 2 (encodeKey (.int 10)), (sampleSide 1 10).pkKey),
    (uniqueKey 7 2 (encodeKey (.int 20)), (sampleSide 2 20).pkKey)]

/-- An update that moves each of two rows to a new value of `n`. -/
def sampleMoves (n₁ n₂ : BitVec 64) : List Transition :=
  [⟨some (sampleSide 1 10), some (sampleSide 1 n₁)⟩, ⟨some (sampleSide 2 20), some (sampleSide 2 n₂)⟩]

/-- Two rows that move to fresh values keep their entries. -/
theorem complete_after_iff_freshValues :
    Complete sampleTable sampleStore sampleRows ∧
      KeysKept sampleStore sampleTable sampleRows (sampleMoves 30 40) := by
  have hbefore : Complete sampleTable sampleStore sampleRows := by decide +kernel
  obtain ⟨ops, hops, hafter⟩ : ∃ ops, batchOps (fun _ _ => "") sampleStore sampleTable
      (sampleMoves 30 40) = .ok ops ∧
        Complete sampleTable (applyOps sampleStore ops) (rowsAfter sampleRows (sampleMoves 30 40)) :=
    exists_ok (by decide +kernel) fun _ _ h => h
  exact ⟨hbefore, (complete_after_iff _ sampleStore sampleTable sampleRows (sampleMoves 30 40) ops
    hops hbefore).mp hafter⟩

/-- Two rows swap their values: the second row deletes the entry the first row has just put. -/
theorem swap_loses_entry :
    ¬ ∀ text store t rows ts ops, batchOps text store t ts = .ok ops → Complete t store rows →
      Complete t (applyOps store ops) (rowsAfter rows ts) := by
  intro h
  obtain ⟨ops, hops, hlost⟩ : ∃ ops, batchOps (fun _ _ => "") sampleStore sampleTable
      (sampleMoves 20 10) = .ok ops ∧
        ¬ Complete sampleTable (applyOps sampleStore ops) (rowsAfter sampleRows (sampleMoves 20 10)) :=
    exists_ok (by decide +kernel) fun _ _ h => h
  exact hlost (h _ _ _ sampleRows _ _ hops (by decide +kernel))

end

end Rdb.Index
