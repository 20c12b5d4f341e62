import Rdb.Kafka.OffsetCommit

/-!
# The committed offsets of a group

An OffsetFetch without topics walks the whole store for the ledger rows of its group. A
row is picked by the last bytes of its key, `/` and the group, and read by
`parseLedgerKey`, which goes by the length of the stream's name.

`scan_group_iff`: the walk returns the rows that were written for the group as long as no
other record has a key that ends the same way and reads as a row, and the group has a
name. Group names may hold slashes, so another one can: `foreign_group_scanned`.
-/

namespace Rdb.Kafka.Ledger

open Lib Ds Lite Sql OffsetCommit List Option

def groupScanLimit : Nat := 100000

-- the payload of a row is JSON
variable (decodeValue : Bytes → Option LedgerRow)

def rowOf (e : Bytes × Bytes) : Option (RowKey × LedgerRow) :=
  (parseLedgerKey e.1).bind fun key => (decodeValue e.2).map (key, ·)

/-- The rows pushed so far, and the records examined. -/
def scanVisit (group : Bytes) (s : List (RowKey × LedgerRow) × Nat) (k v : Bytes) :
    (List (RowKey × LedgerRow) × Nat) × Bool :=
  let row := if (0x2f :: group) <:+ k then rowOf decodeValue (k, v) else none
  ((s.1 ++ row.toList, s.2 + 1), decide (s.2 + 1 < groupScanLimit))

def scanGroup (store : Store) (group : Bytes) : List (RowKey × LedgerRow) :=
  (store.forEachFrom [] false (scanVisit decodeValue group) ([], 0)).1

variable {decodeValue} {store : Store} {g k : Bytes}

theorem foldUntil_scanVisit {es : List (Bytes × Bytes)} (s : List (RowKey × LedgerRow) × Nat)
    (h : s.2 + es.length ≤ groupScanLimit) :
    (foldUntil (fun s e => scanVisit decodeValue g s e.1 e.2) s es).1 = s.1 ++
      es.filterMap fun e => if (0x2f :: g) <:+ e.1 then rowOf decodeValue e else none := by
  rw [filterMap_eq_flatMap_toList]
  induction es generalizing s with
  | nil => exact (append_nil _).symm
  | cons e es ih =>
    rw [length_cons] at h
    have happend := ih (scanVisit decodeValue g s e.1 e.2).1 (by dsimp only [scanVisit]; omega)
    rw [flatMap_cons, ← append_assoc, foldUntil_cons]
    split
    · exact happend
    · next hstop =>
      -- only after the last record
      have hnil : es = [] := length_eq_zero_iff.mp (by
        have := of_decide_eq_false (Bool.not_eq_true _ ▸ hstop)
        omega)
      subst hnil
      exact happend

theorem scanGroup_eq (h : store.entries.length ≤ groupScanLimit) :
    scanGroup decodeValue store g = store.entries.filterMap fun e =>
      if (0x2f :: g) <:+ e.1 then rowOf decodeValue e else none := by
  have hall : store.entries.filter (fun e => decide ([] ≤ e.1)) = store.entries :=
    filter_eq_self.mpr fun e _ => decide_eq_true (le_of_isPrefix nil_prefix)
  rw [scanGroup, Store.forEachFrom]
  simp only [Bool.false_eq_true, if_false, hall]
  exact foldUntil_scanVisit ([], 0) (by simpa using h)

/-- A record of the store; a ledger row is of the stream and the group it was written for. -/
structure Record where
  key : Bytes
  value : Bytes
  writtenFor : Option RowKey
  key_eq : ∀ row ∈ writtenFor, row.1.length < 2 ^ 32 ∧
    ∃ slot : UInt16, key = ledgerKey (slotPrefix slot.toNat) row.1 row.2

def Record.entry (r : Record) : Bytes × Bytes := (r.key, r.value)

def Record.group (r : Record) : Option Bytes := r.writtenFor.map (·.2)

/-- What the walk makes of a record. -/
def scanned (decodeValue : Bytes → Option LedgerRow) (g : Bytes) (r : Record) :
    Option (RowKey × LedgerRow) :=
  if (0x2f :: g) <:+ r.key then rowOf decodeValue r.entry else none

def Record.rowOfGroup (decodeValue : Bytes → Option LedgerRow) (g : Bytes) (r : Record) :
    Option (RowKey × LedgerRow) :=
  (r.writtenFor.filter (·.2 = g)).bind fun key => (decodeValue r.value).map (key, ·)

variable {r : Record}

theorem Record.rowOfGroup_of_ne (h : r.group ≠ some g) : r.rowOfGroup decodeValue g = none := by
  unfold rowOfGroup
  unfold group at h
  cases hw : r.writtenFor with
  | none => rfl
  | some key =>
    rw [hw, map_some] at h
    rw [filter_some, if_neg (by simpa using h), bind_none]

theorem scanned_eq_rowOfGroup (h : r.group = some g) (hg : g ≠ []) :
    scanned decodeValue g r = r.rowOfGroup decodeValue g := by
  obtain ⟨key, hw, rfl⟩ := map_eq_some_iff.mp h
  obtain ⟨hlen, slot, hkey⟩ := r.key_eq key hw
  have hsuf : 0x2f :: key.2 <:+ r.key := ⟨dataKey _ _ _, by rw [hkey]; rfl⟩
  rw [scanned, if_pos hsuf, rowOf, Record.entry, hkey, parseLedgerKey_ledgerKey slot.toNat_lt hlen,
    if_neg (by simpa using hg), Record.rowOfGroup, hw, filter_some, if_pos (by simp)]

theorem group_of_rowOfGroup {x : RowKey × LedgerRow} (h : r.rowOfGroup decodeValue g = some x) :
    x.1.2 = g := by
  obtain ⟨key, hkey, hx⟩ := bind_eq_some_iff.mp h
  obtain ⟨row, -, rfl⟩ := map_eq_some_iff.mp hx
  simpa using (filter_eq_some_iff.mp hkey).2

/-- The row of a group without a name does not read as a row. -/
theorem ne_nil_of_scanned {x : RowKey × LedgerRow} (h : scanned decodeValue g r = some x) :
    x.1.2 ≠ [] := by
  rw [scanned] at h
  split at h
  · obtain ⟨key, hkey, hx⟩ := bind_eq_some_iff.mp h
    obtain ⟨row, -, rfl⟩ := map_eq_some_iff.mp hx
    obtain ⟨plen, -, hkey⟩ := bind_eq_some_iff.mp hkey
    split at hkey
    · cases hkey
    split at hkey
    · cases hkey
    dsimp only at hkey
    split at hkey
    · cases hkey
    split at hkey
    · cases hkey
    split at hkey
    · cases hkey
    · next hne =>
      cases hkey
      simpa using hne
  · cases h

/-- Two filters of which one only drops results agree where their lists do. -/
theorem eq_of_filterMap_eq {α β : Type} {f h : α → Option β} {l : List α}
    (hle : ∀ a ∈ l, h a ≠ none → f a = h a) (heq : l.filterMap f = l.filterMap h) :
    ∀ a ∈ l, f a = h a := by
  induction l with
  | nil => nofun
  | cons a l ih =>
    have hle' := fun b hb => hle b (mem_cons_of_mem _ hb)
    by_cases ha : h a = none
    · cases hf : f a with
      | none =>
        rw [filterMap_cons_none hf, filterMap_cons_none ha] at heq
        exact forall_mem_cons.mpr ⟨hf.trans ha.symm, ih hle' heq⟩
      | some x =>
        have hshort : (l.filterMap h).length ≤ (l.filterMap f).length := by
          rw [length_filterMap_eq_countP, length_filterMap_eq_countP]
          refine countP_mono_left fun b hb hsome => ?_
          rwa [hle' b hb (isSome_iff_ne_none.mp hsome)]
        have := congrArg length heq
        rw [filterMap_cons_some hf, filterMap_cons_none ha, length_cons] at this
        omega
    · have hfa := hle a mem_cons_self ha
      obtain ⟨x, hx⟩ := ne_none_iff_exists'.mp ha
      rw [filterMap_cons_some (hfa.trans hx), filterMap_cons_some hx] at heq
      exact forall_mem_cons.mpr ⟨hfa, ih hle' (cons.inj heq).2⟩

theorem scan_group_iff (store : Store) (records : List Record) (g : Bytes)
    (hstore : store.entries = records.map Record.entry)
    (hsize : records.length ≤ groupScanLimit) :
    (scanGroup decodeValue store g = records.filterMap (Record.rowOfGroup decodeValue g) ↔
      (∀ r ∈ records, 0x2f :: g <:+ r.key → (rowOf decodeValue r.entry).isSome →
        r.group = some g) ∧
      (g = [] → ∀ r ∈ records, r.group = some g → decodeValue r.value = none)) ∧
    ∀ (slot : UInt16) (stream : Bytes), stream.length < 2 ^ 32 →
      (parseLedgerKey (ledgerKey (slotPrefix slot.toNat) stream g) = some (stream, g) ↔ g ≠ []) := by
  have hscan : scanGroup decodeValue store g = records.filterMap (scanned decodeValue g) := by
    rw [scanGroup_eq (by rw [hstore, length_map]; exact hsize), hstore, filterMap_map]
    rfl
  rw [hscan]
  refine ⟨⟨fun heq => ?_, fun ⟨hforeign, hempty⟩ => filterMap_congr fun r hr => ?_⟩, ?_⟩
  · by_cases hg : g = []
    · -- no row of either list is one of the other
      subst hg
      have hnone : ∀ x, x ∉ records.filterMap (scanned decodeValue []) := fun x hx => by
        obtain ⟨r, -, hr⟩ := mem_filterMap.mp hx
        obtain ⟨r', -, hr'⟩ := mem_filterMap.mp (heq ▸ hx)
        exact ne_nil_of_scanned hr (group_of_rowOfGroup hr')
      refine ⟨fun r hr hsuf hsome => ?_, fun _ r hr hgroup => ?_⟩
      · obtain ⟨x, hx⟩ := isSome_iff_exists.mp hsome
        exact absurd (mem_filterMap.mpr ⟨r, hr, (if_pos hsuf).trans hx⟩) (hnone x)
      · by_contra hdec
        obtain ⟨row, hrow⟩ := ne_none_iff_exists'.mp hdec
        obtain ⟨key, hw, hkey⟩ := map_eq_some_iff.mp hgroup
        have hmem : (key, row) ∈ records.filterMap (Record.rowOfGroup decodeValue []) :=
          mem_filterMap.mpr ⟨r, hr, by simp [Record.rowOfGroup, hw, hkey, hrow, filter_some]⟩
        exact hnone _ (heq ▸ hmem)
    · refine ⟨fun r hr hsuf hsome => ?_, fun h => absurd h hg⟩
      by_contra hno
      have hne := eq_of_filterMap_eq (fun r _ hrow => scanned_eq_rowOfGroup (by
        by_contra hno
        exact hrow (Record.rowOfGroup_of_ne hno)) hg) heq r hr
      rw [Record.rowOfGroup_of_ne hno, scanned, if_pos hsuf] at hne
      rw [hne] at hsome
      cases hsome
  · by_cases hgroup : r.group = some g
    · by_cases hg : g = []
      · have hdec := hempty hg r hr hgroup
        simp [scanned, rowOf, Record.rowOfGroup, Record.entry, hdec]
      · exact scanned_eq_rowOfGroup hgroup hg
    · rw [Record.rowOfGroup_of_ne hgroup, scanned]
      split
      · next hsuf => exact not_isSome_iff_eq_none.mp fun hsome => hgroup (hforeign r hr hsuf hsome)
      · rfl
  · intro slot stream hlen
    rw [parseLedgerKey_ledgerKey slot.toNat_lt hlen]
    cases g <;> simp

def committed : LedgerRow := ⟨5, 1, []⟩

/-- A row of a stream `t/p…`. -/
def ledgerRecord (partition : UInt8) (group : Bytes) : Record where
  key := ledgerKey (slotPrefix 7) [0x74, 0x2f, 0x70, partition] group
  value := []
  writtenFor := some ([0x74, 0x2f, 0x70, partition], group)
  key_eq row h := by
    cases h
    exact ⟨by simp, 7, rfl⟩

def ledgerStore (records : List Record) : Store := .ofList (records.map Record.entry)

theorem scan_group_iff_twoGroups :
    scanGroup (fun _ => some committed) (ledgerStore [ledgerRecord 0x30 [0x67],
      ledgerRecord 0x31 [0x68]]) [0x67] = [(([0x74, 0x2f, 0x70, 0x30], [0x67]), committed)] :=
  ((scan_group_iff _ [ledgerRecord 0x30 [0x67], ledgerRecord 0x31 [0x68]] [0x67]
    (by decide +kernel) (by decide +kernel)).1.mpr
      ⟨by decide +kernel, nofun⟩).trans (by decide +kernel)

/-- The rows of the groups `g` and `x/g`: a scan for `g` returns both. -/
theorem foreign_group_scanned :
    scanGroup (fun _ => some committed) (ledgerStore [ledgerRecord 0x30 [0x67],
        ledgerRecord 0x31 [0x78, 0x2f, 0x67]]) [0x67] =
      [(([0x74, 0x2f, 0x70, 0x30], [0x67]), committed),
        (([0x74, 0x2f, 0x70, 0x31], [0x78, 0x2f, 0x67]), committed)] := by
  decide +kernel

end Rdb.Kafka.Ledger
