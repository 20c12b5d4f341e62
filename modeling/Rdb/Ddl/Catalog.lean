import Rdb.Sql.Schema
import Rdb.Tx.Session

/-!
# The replicated catalog

Table definitions, AUTO_INCREMENT counters and the markers of retired table ids
are entries of one replicated map. A statement decides on a list of mutations and
each mutation is one or two entries, written in order. The counter of a table
stands under its name, not under its id.

* `createTable`, `dropTable`, `truncateTable`, `renameTable`: the mutations of a
  statement, or its error.
* `allocate`: the rows of an INSERT with their ids, and the raised counter.
* `mem_listTables_iff`, `mem_droppedIds_iff`: the listings, by name and by id.
-/

namespace Rdb.Ddl

open Lib Sql Tx List SortedMap Option

abbrev Kv := SortedMap Bytes Bytes

structure CatalogJson extends JsonFormat TableDef where
  toVec_ne_nil : ∀ t, toVec t ≠ []

/-! ## Keys -/

def catalogPrefix : Bytes := utf8 "sql_catalog/"
def sequencePrefix : Bytes := utf8 "sql_sequence/"
def droppedPrefix : Bytes := utf8 "sql_dropped/"

def catalogKey (table : String) : Bytes := catalogPrefix ++ utf8 table
def sequenceKey (table : String) : Bytes := sequencePrefix ++ utf8 table
def droppedIdKey (id : Nat) : Bytes := droppedPrefix ++ decimal id

/-- A missing entry reads as the empty text. -/
def raftGet (kv : Kv) (key : Bytes) : Bytes := (kv.get key).getD []

def stripped (pre key : Bytes) : Option Bytes :=
  if pre <+: key then some (key.drop pre.length) else none

/-! ## Reading the catalog -/

section

variable (json : CatalogJson) (kv : Kv)

def lookupState (table : String) : Except String (Option TableDef) :=
  let raw := raftGet kv (catalogKey table)
  if raw = [] then .ok none
  else match json.fromSlice raw with
    | some t => .ok (some t)
    | none =>
      -- a bare number is an old tombstone
      if (parseDec (2 ^ 32) raw).isSome then .ok none
      else .error s!"corrupt catalog entry for {table}"

/-- The definition an entry holds, if it belongs to a listed table. -/
def liveEntry (e : Bytes × Bytes) : Option TableDef :=
  match stripped catalogPrefix e.1 with
  | some name => if e.2 = [] ∨ name = [] then none else json.fromSlice e.2
  | none => none

def listTables : List TableDef :=
  (kv.entries.filterMap (liveEntry json)).mergeSort fun a b => decide (a.name ≤ b.name)

/-- The retired id an entry records: a marker, or an old tombstone under the name. -/
def retiredEntry (e : Bytes × Bytes) : Option Nat :=
  match (stripped droppedPrefix e.1).bind (parseDec (2 ^ 32)) with
  | some id => some id
  | none =>
    if (stripped catalogPrefix e.1).isNone ∨ e.2 = [] then none
    else if (json.fromSlice e.2).isSome then none
    else parseDec (2 ^ 32) e.2

def droppedIds : List Nat :=
  ((kv.entries.filterMap (retiredEntry json)).mergeSort fun a b => decide (a ≤ b)).dedup

def maxTableId : Nat :=
  max (((listTables json kv).map (·.id)).max?.getD 0) ((droppedIds json kv).max?.getD 0)

/-- The id is a 32-bit number. -/
def allocTableId : Nat := (maxTableId json kv + 1) % 2 ^ 32

end

/-! ## Mutations -/

inductive CatalogMutation where
  | put (t : TableDef)
  | drop (t : TableDef)
  | kv (key value : Bytes)

/-- A drop leaves an empty entry under the name and a marker under the id. -/
def CatalogMutation.entries (json : CatalogJson) : CatalogMutation → List (Bytes × Bytes)
  | .put t => [(catalogKey t.name, json.toVec t)]
  | .drop t => [(catalogKey t.name, []), (droppedIdKey t.id, utf8 t.name)]
  | .kv key value => [(key, value)]

def applyMutations (json : CatalogJson) (kv : Kv) (ms : List CatalogMutation) : Kv :=
  kv.write ((ms.flatMap (·.entries json)).map fun e => .put e.1 e.2)

def noSuchTable (name : String) : SqlError := .err .noSuchTable s!"table '{name}' doesn't exist"

def tableExists (name : String) : SqlError := .err .tableExists s!"table '{name}' already exists"

section

variable (json : CatalogJson) (kv : Kv)

def seedCounter (t : TableDef) : List CatalogMutation :=
  if t.autoIncrement.isSome then [.kv (sequenceKey t.name) (decimal 1)] else []

/-- CREATE TABLE: the definition comes without an id. The counter is a mutation of its own. -/
def createTable (t : TableDef) (ifNotExists : Bool) : Except SqlError (List CatalogMutation) := do
  match ← unknown (lookupState json kv t.name) with
  | some _ => if ifNotExists then return [] else throw (tableExists t.name)
  | none =>
    let t := { t with id := allocTableId json kv }
    return .put t :: seedCounter t

def dropTable (name : String) (ifExists : Bool) : Except SqlError (List CatalogMutation) := do
  match ← unknown (lookupState json kv name) with
  | none => if ifExists then return [] else throw (noSuchTable name)
  | some t =>
    return .drop t :: if t.autoIncrement.isSome then [.kv (sequenceKey t.name) []] else []

/-- TRUNCATE swaps the id and restarts the counter. -/
def truncateTable (name : String) : Except SqlError (List CatalogMutation) := do
  match ← unknown (lookupState json kv name) with
  | none => throw (noSuchTable name)
  | some old =>
    return [.drop old, .put { old with id := allocTableId json kv }] ++
      if old.autoIncrement.isSome then [.kv (sequenceKey name) (decimal 1)] else []

def eqIgnoreAsciiCase (a b : String) : Bool := a.toLower == b.toLower

/-- RENAME keeps the id and moves the text of the counter. -/
def renameTable (source target : String) : Except SqlError (List CatalogMutation) := do
  match ← unknown (lookupState json kv source) with
  | none => throw (noSuchTable source)
  | some t =>
    match (listTables json kv).find? fun s =>
        eqIgnoreAsciiCase s.name target && !eqIgnoreAsciiCase s.name source with
    | some clash => throw (tableExists clash.name)
    | none =>
      let oldSeq := raftGet kv (sequenceKey source)
      return [.kv (catalogKey t.name) [], .put { t with name := target }] ++
        (if oldSeq = [] then [] else [.kv (sequenceKey target) oldSeq]) ++
        [.kv (sequenceKey t.name) []]

/-- CREATE INDEX and DROP INDEX put the definition again with other indexes. -/
def reindexTable (name : String) (indexes : List IndexDef) :
    Except SqlError (List CatalogMutation) := do
  match ← unknown (lookupState json kv name) with
  | none => throw (noSuchTable name)
  | some t => return [.put { t with indexes }]

end

/-! ## AUTO_INCREMENT -/

/-- 64-bit two's complement. -/
def wrapI64 (x : Int) : Int := x.bmod (2 ^ 64)

def i64Text : Int → Bytes
  | .ofNat n => decimal n
  | .negSucc n => 0x2d :: decimal (n + 1)

def parseI64 : Bytes → Option Int
  | 0x2d :: ds =>
    if ds.head? = some 0x2b then none else (parseDec (2 ^ 63 + 1) ds).map fun (n : Nat) => -(n : Int)
  | b => (parseDec (2 ^ 63) b).map Int.ofNat

def sequenceNext (kv : Kv) (table : String) : Int :=
  max ((parseI64 (raftGet kv (sequenceKey table))).getD 1) 1

def reserveBatch : Int := 64

structure Walk where
  next : Int
  firstAuto : Option Int

def needsAuto (v : Value) : Bool := v == .null || v == .int 0

/-- One pass over the rows of a statement, with the next free id. -/
def assignFrom (ai : Nat) : Walk → List (List Value) → List (List Value) × Walk
  | w, [] => ([], w)
  | w, row :: rows =>
    let v := row[ai]?.getD .null
    if needsAuto v then
      let r := assignFrom ai ⟨wrapI64 (w.next + 1), w.firstAuto.or (some w.next)⟩ rows
      (row.set ai (.int (BitVec.ofInt 64 w.next)) :: r.1, r.2)
    else match v with
      | .int n =>
        let w := if w.next ≤ n.toInt then { w with next := wrapI64 (n.toInt + 1) } else w
        let r := assignFrom ai w rows
        (row :: r.1, r.2)
      | _ =>
        let r := assignFrom ai w rows
        (row :: r.1, r.2)

def assign (rows : List (List Value)) (ai : Nat) (floor : Int) : List (List Value) × Walk :=
  assignFrom ai ⟨max floor 1, none⟩ rows

def persistTarget (floor : Int) (w : Walk) : Int :=
  match w.firstAuto with
  | some _ => max w.next (wrapI64 (max floor 1 + reserveBatch))
  | none => w.next

def allocate (kv : Kv) (table : String) (rows : List (List Value)) (ai : Nat) :
    Kv × List (List Value) :=
  let floor := sequenceNext kv table
  let r := assign rows ai floor
  let target := persistTarget floor r.2
  (if floor < target then kv.put (sequenceKey table) (i64Text target) else kv, r.1)

def autoIds (ai : Nat) (rows out : List (List Value)) : List Value :=
  (rows.zip out).filterMap fun p =>
    if needsAuto (p.1[ai]?.getD .null) then p.2[ai]? else none

/-! ## Keys do not meet -/

/-- The byte that tells the three kinds of keys apart. -/
def kindByte (key : Bytes) : Option UInt8 := key[4]?

@[simp] theorem kindByte_catalogKey (n : String) : kindByte (catalogKey n) = some 0x63 := by
  rw [kindByte, catalogKey, getElem?_append_left (by decide)]
  decide

@[simp] theorem kindByte_sequenceKey (n : String) : kindByte (sequenceKey n) = some 0x73 := by
  rw [kindByte, sequenceKey, getElem?_append_left (by decide)]
  decide

@[simp] theorem kindByte_droppedIdKey (id : Nat) : kindByte (droppedIdKey id) = some 0x64 := by
  rw [kindByte, droppedIdKey, getElem?_append_left (by decide)]
  decide

theorem key_ne_of_kindByte {a b : Bytes} (h : kindByte a ≠ kindByte b) : a ≠ b :=
  fun e => h (congrArg kindByte e)

variable {a b : String}

@[simp] theorem catalogKey_inj : catalogKey a = catalogKey b ↔ a = b :=
  ⟨fun h => utf8_inj (append_cancel_left h), fun h => h ▸ rfl⟩

@[simp] theorem sequenceKey_inj : sequenceKey a = sequenceKey b ↔ a = b :=
  ⟨fun h => utf8_inj (append_cancel_left h), fun h => h ▸ rfl⟩

@[simp] theorem droppedIdKey_inj {a b : Nat} : droppedIdKey a = droppedIdKey b ↔ a = b := by
  refine ⟨fun h => ?_, fun h => h ▸ rfl⟩
  rw [← decVal_decimal a, append_cancel_left h, decVal_decimal]

@[simp] theorem catalogKey_ne_sequenceKey (a b : String) : catalogKey a ≠ sequenceKey b :=
  key_ne_of_kindByte (by simp)

@[simp] theorem catalogKey_ne_droppedIdKey (a : String) (b : Nat) : catalogKey a ≠ droppedIdKey b :=
  key_ne_of_kindByte (by simp)

@[simp] theorem sequenceKey_ne_droppedIdKey (a : String) (b : Nat) :
    sequenceKey a ≠ droppedIdKey b :=
  key_ne_of_kindByte (by simp)

theorem stripped_append (pre rest : Bytes) : stripped pre (pre ++ rest) = some rest := by
  rw [stripped, if_pos (prefix_append pre rest), drop_left]

theorem stripped_eq_none {pre key : Bytes} (hlen : 4 < pre.length)
    (h : kindByte pre ≠ kindByte key) : stripped pre key = none := by
  refine if_neg ?_
  rintro ⟨rest, rfl⟩
  exact h (getElem?_append_left hlen).symm

/-! ## The catalog by name and by id -/

def tableAt (json : CatalogJson) (kv : Kv) (name : String) : Option TableDef :=
  if raftGet kv (catalogKey name) = [] then none
  else json.fromSlice (raftGet kv (catalogKey name))

def Retired (kv : Kv) (id : Nat) : Prop := (kv.get (droppedIdKey id)).isSome

/-- What the catalog writes: definitions under their names, counters, markers. -/
def WfEntry (json : CatalogJson) (e : Bytes × Bytes) : Prop :=
  (∃ n, n ≠ "" ∧ e.1 = catalogKey n ∧ (e.2 = [] ∨ ∃ t, e.2 = json.toVec t ∧ t.name = n)) ∨
    (∃ n, e.1 = sequenceKey n) ∨ ∃ id < 2 ^ 32, e.1 = droppedIdKey id

def WfKv (json : CatalogJson) (kv : Kv) : Prop := ∀ e ∈ kv.entries, WfEntry json e

variable {json : CatalogJson} {kv : Kv} {n : String}

theorem utf8_ne_nil (h : n ≠ "") : utf8 n ≠ [] :=
  fun hn => h (utf8_inj (b := "") (hn.trans (by decide)))

theorem WfKv.at (h : WfKv json kv) (n : String) : raftGet kv (catalogKey n) = [] ∨
    n ≠ "" ∧ ∃ t : TableDef, raftGet kv (catalogKey n) = json.toVec t ∧ t.name = n := by
  cases hg : kv.get (catalogKey n) with
  | none => exact .inl (by rw [raftGet, hg]; rfl)
  | some v =>
    rw [raftGet, hg]
    rcases h (catalogKey n, v) (mem_entries.mpr hg) with
      ⟨m, hm, hkey, hval⟩ | ⟨m, hkey⟩ | ⟨id, -, hkey⟩
    · obtain rfl := catalogKey_inj.mp hkey
      rcases hval with hval | hval
      · exact .inl hval
      · exact .inr ⟨hm, hval⟩
    · exact absurd hkey (catalogKey_ne_sequenceKey n m)
    · exact absurd hkey (catalogKey_ne_droppedIdKey n id)

theorem WfKv.lookupState (h : WfKv json kv) (n : String) :
    lookupState json kv n = .ok (tableAt json kv n) := by
  unfold Ddl.lookupState tableAt
  rcases h.at n with hnil | ⟨-, t, ht, -⟩
  · simp [hnil]
  · simp [ht, json.toVec_ne_nil, json.fromSlice_toVec]

variable {t : TableDef}

theorem WfKv.name_of_tableAt (h : WfKv json kv)
    (ht : tableAt json kv n = some t) : t.name = n ∧ n ≠ "" := by
  unfold tableAt at ht
  rcases h.at n with hnil | ⟨hn, u, hu, hname⟩
  · rw [if_pos hnil] at ht
    cases ht
  · rw [hu, if_neg (json.toVec_ne_nil u), json.fromSlice_toVec] at ht
    cases ht
    exact ⟨hname, hn⟩

theorem WfKv.mem_listTables_iff (h : WfKv json kv) :
    t ∈ listTables json kv ↔ ∃ n, tableAt json kv n = some t := by
  rw [listTables, mem_mergeSort, mem_filterMap]
  constructor
  · rintro ⟨e, he, hlive⟩
    rcases h e he with ⟨n, hn, hkey, -⟩ | ⟨n, hkey⟩ | ⟨id, -, hkey⟩
    · rw [liveEntry, hkey, catalogKey, stripped_append] at hlive
      dsimp only at hlive
      split at hlive
      · cases hlive
      · next hne =>
        have hget : raftGet kv (catalogKey n) = e.2 := by
          rw [raftGet, ← hkey, mem_entries.mp he, getD_some]
        exact ⟨n, by rw [tableAt, hget, if_neg (not_or.mp hne).1, hlive]⟩
    · rw [liveEntry, hkey] at hlive
      cases hlive
    · rw [liveEntry, hkey] at hlive
      cases hlive
  · rintro ⟨n, ht⟩
    obtain ⟨-, hn⟩ := h.name_of_tableAt ht
    unfold tableAt at ht
    split at ht
    · cases ht
    · next hne =>
      cases hg : kv.get (catalogKey n) with
      | none => exact absurd (by rw [raftGet, hg]; rfl) hne
      | some v =>
        rw [raftGet, hg, getD_some] at ht hne
        refine ⟨(catalogKey n, v), mem_entries.mpr hg, ?_⟩
        rw [liveEntry, catalogKey]
        exact (if_neg (by simp [hne, utf8_ne_nil hn])).trans ht

variable {id : Nat}

theorem WfKv.mem_droppedIds_iff (h : WfKv json kv) :
    id ∈ droppedIds json kv ↔ id < 2 ^ 32 ∧ Retired kv id := by
  rw [droppedIds, mem_dedup, mem_mergeSort, mem_filterMap]
  constructor
  · rintro ⟨e, he, hret⟩
    rcases h e he with ⟨n, -, hkey, hval⟩ | ⟨n, hkey⟩ | ⟨id', hid, hkey⟩
    · -- a name holds no old tombstone
      rw [retiredEntry, hkey, stripped_eq_none (by decide)
        (by rw [kindByte_catalogKey]; decide)] at hret
      rcases hval with hval | ⟨t, hval, -⟩
      · simp [hval] at hret
      · simp [hval, json.fromSlice_toVec] at hret
    · rw [retiredEntry, hkey, stripped_eq_none (by decide) (by rw [kindByte_sequenceKey]; decide),
        stripped_eq_none (by decide) (by rw [kindByte_sequenceKey]; decide)] at hret
      simp at hret
    · rw [retiredEntry, hkey, droppedIdKey, stripped_append, bind_some,
        parseDec_decimal hid] at hret
      cases hret
      refine ⟨hid, ?_⟩
      rw [Retired, ← hkey, mem_entries.mp he]
      rfl
  · rintro ⟨hid, hret⟩
    obtain ⟨v, hv⟩ := isSome_iff_exists.mp hret
    refine ⟨(droppedIdKey id, v), mem_entries.mpr hv, ?_⟩
    rw [retiredEntry, droppedIdKey, stripped_append, bind_some, parseDec_decimal hid]

/-! ## One entry -/

theorem raftGet_put (kv : Kv) (k v k' : Bytes) :
    raftGet (kv.put k v) k' = if k = k' then v else raftGet kv k' := by
  rw [raftGet, get_put]
  split
  · rfl
  · rfl

theorem WfKv.put (h : WfKv json kv) {k v : Bytes} (he : WfEntry json (k, v)) :
    WfKv json (kv.put k v) := by
  intro e hmem
  have hget := mem_entries.mp hmem
  rw [get_put] at hget
  split at hget
  · next hk =>
    cases hget
    rwa [← show (k, e.2) = e from Prod.ext hk rfl]
  · exact h e (mem_entries.mpr hget)

theorem wfEntry_tombstone (h : n ≠ "") : WfEntry json (catalogKey n, []) :=
  .inl ⟨n, h, rfl, .inl rfl⟩

theorem wfEntry_table (h : t.name ≠ "") : WfEntry json (catalogKey t.name, json.toVec t) :=
  .inl ⟨t.name, h, rfl, .inr ⟨t, rfl, rfl⟩⟩

theorem wfEntry_counter (n : String) (v : Bytes) : WfEntry json (sequenceKey n, v) :=
  .inr (.inl ⟨n, rfl⟩)

theorem wfEntry_marker (h : id < 2 ^ 32) (v : Bytes) : WfEntry json (droppedIdKey id, v) :=
  .inr (.inr ⟨id, h, rfl⟩)

section

variable (json) (kv) (v : Bytes)

theorem tableAt_put_catalogKey (n m : String) : tableAt json (kv.put (catalogKey n) v) m =
    if n = m then (if v = [] then none else json.fromSlice v) else tableAt json kv m := by
  simp only [tableAt, raftGet_put]
  by_cases hnm : n = m
  · simp [hnm]
  · simp [hnm]

@[simp] theorem tableAt_put_sequenceKey (n : String) :
    tableAt json (kv.put (sequenceKey n) v) = tableAt json kv := by
  funext m
  simp only [tableAt, raftGet_put, (catalogKey_ne_sequenceKey m n).symm, if_false]

@[simp] theorem tableAt_put_droppedIdKey (id : Nat) :
    tableAt json (kv.put (droppedIdKey id) v) = tableAt json kv := by
  funext m
  simp only [tableAt, raftGet_put, (catalogKey_ne_droppedIdKey m id).symm, if_false]

theorem sequenceNext_put_sequenceKey (n m : String) : sequenceNext (kv.put (sequenceKey n) v) m =
    if n = m then max ((parseI64 v).getD 1) 1 else sequenceNext kv m := by
  simp only [sequenceNext, raftGet_put]
  by_cases hnm : n = m
  · simp [hnm]
  · simp [hnm]

@[simp] theorem sequenceNext_put_catalogKey (n : String) :
    sequenceNext (kv.put (catalogKey n) v) = sequenceNext kv := by
  funext m
  simp only [sequenceNext, raftGet_put, catalogKey_ne_sequenceKey, if_false]

@[simp] theorem sequenceNext_put_droppedIdKey (id : Nat) :
    sequenceNext (kv.put (droppedIdKey id) v) = sequenceNext kv := by
  funext m
  simp only [sequenceNext, raftGet_put, (sequenceKey_ne_droppedIdKey m id).symm, if_false]

theorem retired_put_droppedIdKey (id j : Nat) :
    Retired (kv.put (droppedIdKey id) v) j ↔ id = j ∨ Retired kv j := by
  simp only [Retired, get_put]
  by_cases hj : id = j
  · simp [hj]
  · simp [hj]

@[simp] theorem retired_put_catalogKey (n : String) :
    Retired (kv.put (catalogKey n) v) = Retired kv := by
  funext j
  simp only [Retired, get_put, catalogKey_ne_droppedIdKey, if_false]

@[simp] theorem retired_put_sequenceKey (n : String) :
    Retired (kv.put (sequenceKey n) v) = Retired kv := by
  funext j
  simp only [Retired, get_put, sequenceKey_ne_droppedIdKey, if_false]

end

theorem tableAt_put_table (kv : Kv) (t : TableDef) (m : String) :
    tableAt json (kv.put (catalogKey t.name) (json.toVec t)) m =
      if t.name = m then some t else tableAt json kv m := by
  rw [tableAt_put_catalogKey, if_neg (json.toVec_ne_nil t), json.fromSlice_toVec]

theorem tableAt_put_tombstone (kv : Kv) (n m : String) :
    tableAt json (kv.put (catalogKey n) []) m = if n = m then none else tableAt json kv m := by
  rw [tableAt_put_catalogKey, if_pos rfl]

theorem one_le_sequenceNext (kv : Kv) (n : String) : 1 ≤ sequenceNext kv n := le_max_right _ _

/-! ## Mutations in order -/

section

variable (json) (kv)

theorem applyMutations_append (ms ms' : List CatalogMutation) :
    applyMutations json kv (ms ++ ms') = applyMutations json (applyMutations json kv ms) ms' := by
  simp only [applyMutations, flatMap_append, map_append, write_append]

theorem applyMutations_put (t : TableDef) :
    applyMutations json kv [.put t] = kv.put (catalogKey t.name) (json.toVec t) := rfl

theorem applyMutations_drop (t : TableDef) : applyMutations json kv [.drop t] =
    (kv.put (catalogKey t.name) []).put (droppedIdKey t.id) (utf8 t.name) := rfl

theorem applyMutations_kv (k v : Bytes) : applyMutations json kv [.kv k v] = kv.put k v := rfl

end

/-- The two catalogs differ at most in the counter under a name. -/
def SameButCounter (n : String) (kv kv' : Kv) : Prop :=
  kv' = kv ∨ ∃ v, kv' = kv.put (sequenceKey n) v

theorem sameButCounter_opt (json : CatalogJson) (kv : Kv) (c : Prop) [Decidable c] (n : String)
    (v : Bytes) : SameButCounter n kv
      (applyMutations json kv (if c then [.kv (sequenceKey n) v] else [])) := by
  split
  · exact .inr ⟨v, rfl⟩
  · exact .inl rfl

section

variable {kv' : Kv} {n : String}

variable (h : SameButCounter n kv kv')
include h

theorem SameButCounter.wf (hwf : WfKv json kv) : WfKv json kv' := by
  rcases h with rfl | ⟨v, rfl⟩
  · exact hwf
  · exact hwf.put (wfEntry_counter n v)

theorem SameButCounter.tableAt : tableAt json kv' = tableAt json kv := by
  rcases h with rfl | ⟨v, rfl⟩
  · rfl
  · exact tableAt_put_sequenceKey json kv v n

theorem SameButCounter.retired : Retired kv' = Retired kv := by
  rcases h with rfl | ⟨v, rfl⟩
  · rfl
  · exact retired_put_sequenceKey kv v n

theorem SameButCounter.sequenceNext {m : String} (hm : n ≠ m) :
    sequenceNext kv' m = sequenceNext kv m := by
  rcases h with rfl | ⟨v, rfl⟩
  · rfl
  · rw [sequenceNext_put_sequenceKey, if_neg hm]

end

end Rdb.Ddl
