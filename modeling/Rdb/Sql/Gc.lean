import Rdb.Sql.IndexKeys
import Rdb.Sql.Versions

/-!
# Watermark garbage collection

`sweepCapped` walks the slot space in key order and folds the row versions with
a cursor: the first version of a group at or below the watermark is the anchor,
kept unless it is a tombstone, and the versions directly behind it are deleted.
The walk stops once `cap` keys are collected.

* `sweepCapped_eq`: the keys one sweep deletes.
* `versions_sweepCapped`: what it leaves, as a stream of versions.
-/

namespace Rdb.Sql

open Lib List VersionView

def maxDeletesPerSweep : Nat := 10000

structure GroupCursor where
  group : Option PkGroup := none
  anchorSeen : Bool := false
  droppedGroup : Bool := false

def foldVersion (cur : GroupCursor) (wm : Nat) (dropped : List Nat) (v : VersionKey)
    (val : Bytes) : GroupCursor × Bool :=
  let cur := if cur.group = some v.group then cur else
    { group := some v.group, anchorSeen := false, droppedGroup := decide (v.tableId ∈ dropped) }
  if cur.droppedGroup then (cur, true)
  else if wm < v.ts then (cur, false)
  else if cur.anchorSeen then (cur, true)
  else ({ cur with anchorSeen := true }, val.head? == some headerTombstone)

/-- Exclusive end of the slot keyspace. -/
def slotSpaceEnd : Bytes :=
  let last := (((List.range slotNumber).map slotPrefix).max?).getD []
  (keyUpperBound last).getD []

structure SweepState where
  cur : GroupCursor := {}
  dead : List Bytes := []

/-- Visit one key of the walk; `false` stops it, at the latest past `stop`. -/
def sweepVisit (stop : Bytes) (wm : Nat) (dropped : List Nat) (cap : Nat) (st : SweepState)
    (key val : Bytes) : SweepState × Bool :=
  if stop ≠ [] ∧ stop ≤ key then (st, false)
  else match parseVersionKey key with
    | none => match parseIndexKey key with
      | some ik =>
        -- index entries of dropped tables go too
        if ik.tableId ∈ dropped then
          ({ st with dead := st.dead ++ [key] }, decide (st.dead.length + 1 < cap))
        else (st, true)
      | none => (st, true)
    | some v =>
      let (cur, del) := foldVersion st.cur wm dropped v val
      if del then ({ cur, dead := st.dead ++ [key] }, decide (st.dead.length + 1 < cap))
      else ({ st with cur }, true)

/-- One pass with an explicit delete cap: the new store and the number of deletes. -/
def sweepCapped (store : Store) (wm : Nat) (dropped : List Nat) (cap : Nat) : Store × Nat :=
  let st := store.forEachFrom [0x30, 0x2f] false (sweepVisit slotSpaceEnd wm dropped cap) {}
  (store.write (st.dead.map .del), st.dead.length)

def sweep (store : Store) (wm : Nat) (dropped : List Nat) : Store × Nat :=
  sweepCapped store wm dropped maxDeletesPerSweep

/-! ## The walk covers the slot space -/

theorem exists_slotSpaceEnd : ∃ last, keyUpperBound (slotPrefix last) = some slotSpaceEnd ∧
    ∀ slot < slotNumber, slotPrefix slot ≤ slotPrefix last := by
  cases hm : ((range slotNumber).map slotPrefix).max? with
  | none =>
    have := max?_eq_none_iff.mp hm
    simp [slotNumber] at this
  | some m =>
    obtain ⟨hmem, hle⟩ := max?_eq_some_iff.mp hm
    obtain ⟨last, hlast, rfl⟩ := mem_map.mp hmem
    refine ⟨last, ?_, fun slot hs => hle _ (mem_map.mpr ⟨slot, mem_range.mpr hs, rfl⟩)⟩
    obtain ⟨upper, hu, -⟩ := lt_upper_of_slotPrefix_le (le_refl (slotPrefix last)) []
    rw [slotSpaceEnd, hm, Option.getD_some, hu, Option.getD_some]

theorem key_lt_slotSpaceEnd {v : VersionKey} (h : v.slot < slotNumber) : v.key < slotSpaceEnd := by
  obtain ⟨last, hlast, hle⟩ := exists_slotSpaceEnd
  obtain ⟨upper, hu, hlt⟩ := lt_upper_of_slotPrefix_le (hle _ h)
    (kindSqlRow :: (beBytes 4 v.tableId ++ v.pk ++ tsSuffix v.ts))
  rw [hlast, Option.some.injEq] at hu
  rwa [VersionKey.key, versionKey_eq, hu]

theorem zeroSlash_le_key (v : VersionKey) : [0x30, 0x2f] ≤ v.key := by
  rw [VersionKey.key, versionKey_eq]
  exact zeroSlash_le_slotPrefix _ _

variable {stop : Bytes} {es : List (Bytes × Bytes)}

theorem filterMap_asVersion_eq_nil (hstop : ∀ v : VersionKey, v.slot < slotNumber → v.key < stop)
    {e : Bytes × Bytes} (hs : (e :: es).Pairwise fun a b => a.1 < b.1)
    (hc : ∀ f ∈ e :: es, CanonicalEntry f)
    (he : stop ≤ e.1) : (e :: es).filterMap asVersion = [] := by
  refine filterMap_eq_nil_iff.mpr fun f hf => ?_
  have hle : stop ≤ f.1 := by
    rcases mem_cons.mp hf with rfl | hf
    · exact he
    · exact he.trans (le_of_lt ((pairwise_cons.mp hs).1 f hf))
  cases hv : asVersion f with
  | none => rfl
  | some x =>
    obtain ⟨hslot, hkey⟩ := hc f hf x.1 (asVersion_eq_some.mp hv).1
    rw [hkey] at hle
    exact absurd (hstop x.1 hslot) (not_lt.mpr hle)

/-! ## What a sweep can delete -/

theorem parsed_of_mem_dead (stop : Bytes) (wm : Nat) (dropped : List Nat) (cap : Nat)
    (es : List (Bytes × Bytes)) :
    ∀ k ∈ (foldUntil (fun s e => sweepVisit stop wm dropped cap s e.1 e.2) {} es).dead,
      (parseVersionKey k).isSome ∨ (parseIndexKey k).isSome := by
  refine foldUntil_inv (I := fun st : SweepState => ∀ k ∈ st.dead,
    (parseVersionKey k).isSome = true ∨ (parseIndexKey k).isSome = true) (by simp)
    fun st e _ hst => ?_
  have concat : ∀ key : Bytes, ((parseVersionKey key).isSome ∨
      (parseIndexKey key).isSome) → ∀ k ∈ st.dead ++ [key],
      (parseVersionKey k).isSome ∨ (parseIndexKey k).isSome := by
    intro key hkey k hk
    rcases mem_append.mp hk with hk | hk
    · exact hst k hk
    · rwa [mem_singleton.mp hk]
  unfold sweepVisit
  split
  · exact hst
  · split
    · split
      · next ik hik =>
        split
        · exact concat e.1 (.inr (by rw [hik]; rfl))
        · exact hst
      · exact hst
    · next v hpv =>
      dsimp only
      split
      · exact concat e.1 (.inl (by rw [hpv]; rfl))
      · exact hst

theorem get_sweepCapped_of_foreign {key : Bytes} (hv : parseVersionKey key = none)
    (hi : parseIndexKey key = none) (store : Store) (wm : Nat) (dropped : List Nat) (cap : Nat) :
    (sweepCapped store wm dropped cap).1.get key = store.get key := by
  unfold sweepCapped
  generalize slotSpaceEnd = stop
  refine SortedMap.get_write_of_not_mem fun op hop => ?_
  obtain ⟨k, hk, rfl⟩ := mem_map.mp hop
  rintro rfl
  rw [BatchOp.key_del] at hv hi
  rcases parsed_of_mem_dead stop wm dropped cap _ _ hk with h | h
  · rw [hv] at h
    cases h
  · rw [hi] at h
    cases h

/-! ## The fold -/

def visitVersion (wm cap : Nat) (st : SweepState) (x : RowVersion) : SweepState × Bool :=
  let (cur, del) := foldVersion st.cur wm [] x.1 x.2
  if del then ({ cur, dead := st.dead ++ [x.1.key] }, decide (st.dead.length + 1 < cap))
  else ({ st with cur }, true)

theorem foldUntil_sweepVisit (hstop : ∀ v : VersionKey, v.slot < slotNumber → v.key < stop)
    (wm cap : Nat) (st : SweepState) (hs : es.Pairwise fun a b => a.1 < b.1)
    (hc : ∀ f ∈ es, CanonicalEntry f) :
    foldUntil (fun s e => sweepVisit stop wm [] cap s e.1 e.2) st es =
      foldUntil (visitVersion wm cap) st (es.filterMap asVersion) := by
  induction es generalizing st with
  | nil => rfl
  | cons e es ih =>
    have ih := fun st => ih st (pairwise_cons.mp hs).2 fun f hf => hc f (by simp [hf])
    rw [foldUntil_cons]
    by_cases hend : stop ≠ [] ∧ stop ≤ e.1
    · rw [filterMap_asVersion_eq_nil hstop hs hc hend.2, sweepVisit, if_pos hend]
      rfl
    · cases hv : asVersion e with
      | none =>
        have hp : parseVersionKey e.1 = none := by simpa [asVersion] using hv
        have hvisit : sweepVisit stop wm [] cap st e.1 e.2 = (st, true) := by
          rw [sweepVisit, if_neg hend, hp]
          cases parseIndexKey e.1 <;> simp
        rw [hvisit, filterMap_cons_none hv]
        exact ih st
      | some x =>
        obtain ⟨hp, hval⟩ := asVersion_eq_some.mp hv
        have hkey := (hc e (by simp) x.1 hp).2
        have hvisit : sweepVisit stop wm [] cap st e.1 e.2 = visitVersion wm cap st x := by
          rw [sweepVisit, if_neg hend, hp, hval, hkey]
          rfl
        rw [hvisit, filterMap_cons_some hv, foldUntil_cons, ih]

/-- The cursor after a version `prev` of a stream without dropped tables. -/
def CursorAt (wm : Nat) (cur : GroupCursor) : Option RowVersion → Prop
  | none => cur = {}
  | some u => cur = ⟨some u.1.group, decide (u.1.ts ≤ wm), false⟩

theorem isDoomed_rowView (wm : Nat) (prev : Option RowVersion) (x : RowVersion) :
    rowView.isDoomed wm prev x = (decide (x.1.ts ≤ wm) &&
      (x.2.head? == some headerTombstone || rowView.shadowed wm prev x)) := rfl

variable {wm : Nat} {prev : Option RowVersion}

theorem foldVersion_eq {cur : GroupCursor} {x : RowVersion} (hcur : CursorAt wm cur prev)
    (hord : ∀ u, prev = some u → u.1.group = x.1.group → x.1.ts < u.1.ts) :
    (foldVersion cur wm [] x.1 x.2).2 = rowView.isDoomed wm prev x ∧
      CursorAt wm (foldVersion cur wm [] x.1 x.2).1 (some x) := by
  by_cases hsame : cur.group = some x.1.group
  · -- the cursor is on the group of `x`: the version before it is a newer one of the group
    cases prev with
    | none => rw [CursorAt] at hcur; subst hcur; cases hsame
    | some u =>
      subst hcur
      have hg : u.1.group = x.1.group := by simpa using hsame
      have hlt := hord u rfl hg
      have hsh : rowView.shadowed wm (some u) x = decide (u.1.ts ≤ wm) := by
        show (decide (u.1.group = x.1.group) && decide (u.1.ts ≤ wm)) = _
        rw [decide_eq_true hg, Bool.true_and]
      rcases Nat.lt_or_ge wm x.1.ts with hx | hx
      · have hu : wm < u.1.ts := lt_trans hx hlt
        simp [foldVersion, hg, hx, Nat.not_le.mpr hu, isDoomed_rowView, CursorAt]
      · by_cases hu : u.1.ts ≤ wm
        · simp [foldVersion, hg, hx, hu, Nat.not_lt.mpr hx, isDoomed_rowView, hsh, CursorAt]
        · simp [foldVersion, hg, hx, hu, Nat.not_lt.mpr hx, isDoomed_rowView, hsh, CursorAt]
  · have hsh : rowView.shadowed wm prev x = false := by
      cases prev with
      | none => rfl
      | some u =>
        subst hcur
        have hg : u.1.group ≠ x.1.group := by simpa using hsame
        simp [shadowed, hg]
    rcases Nat.lt_or_ge wm x.1.ts with hx | hx
    · simp [foldVersion, hsame, hx, isDoomed_rowView, CursorAt]
    · simp [foldVersion, hsame, hx, Nat.not_lt.mpr hx, isDoomed_rowView, hsh, CursorAt]

theorem foldUntil_visitVersion {cap : Nat} {l : List RowVersion} {st : SweepState}
    (hcur : CursorAt wm st.cur prev) (hord : rowView.NewestFirst (prev.toList ++ l))
    (hcap : st.dead = [] ∨ st.dead.length < cap) :
    (foldUntil (visitVersion wm cap) st l).dead = st.dead ++
      ((rowView.doomedFrom wm prev l).take (max (cap - st.dead.length) 1)).map (·.1.key) := by
  induction l generalizing prev st with
  | nil => simp [doomedFrom]
  | cons x l ih =>
    have hx : ∀ u, prev = some u → u.1.group = x.1.group → x.1.ts < u.1.ts := by
      rintro u rfl hg
      exact (pairwise_cons.mp hord).1 x (by simp) hg
    have hl : rowView.NewestFirst ((some x).toList ++ l) := (pairwise_append.mp hord).2.1
    obtain ⟨hdel, hcur'⟩ := foldVersion_eq hcur hx
    rw [foldUntil_cons, doomedFrom]
    cases hd : rowView.isDoomed wm prev x with
    | false =>
      have hv : visitVersion wm cap st x =
          (⟨(foldVersion st.cur wm [] x.1 x.2).1, st.dead⟩, true) := by
        simp only [visitVersion, hdel, hd]
        rfl
      rw [hv, if_pos rfl]
      exact ih hcur' hl hcap
    | true =>
      have hv : visitVersion wm cap st x =
          (⟨(foldVersion st.cur wm [] x.1 x.2).1, st.dead ++ [x.1.key]⟩,
            decide (st.dead.length + 1 < cap)) := by
        simp only [visitVersion, hdel, hd]
        rfl
      rw [hv]
      by_cases hgo : st.dead.length + 1 < cap
      · rw [if_pos (by simpa using hgo), ih hcur' hl (.inr (by simpa using hgo))]
        have hmax : max (cap - st.dead.length) 1 =
            max (cap - (st.dead ++ [x.1.key]).length) 1 + 1 := by
          rw [length_append, length_singleton]
          omega
        simp [hmax]
      · rw [if_neg (by simpa using hgo)]
        have hmax : max (cap - st.dead.length) 1 = 1 := by
          rcases hcap with h | h
          · omega
          · omega
        simp [hmax]

/-! ## What a sweep leaves -/

variable {store : Store}

theorem sweepCapped_eq (h : RowsOk store) (wm cap : Nat) :
    (sweepCapped store wm [] cap).1 = store.write
      ((((rowView.doomedFrom wm none (versions store)).take (max cap 1)).map (·.1.key)).map
        .del) := by
  have hwalk : (store.entries.filter fun e => decide ([0x30, 0x2f] ≤ e.1)).filterMap asVersion =
      versions store := by
    rw [filterMap_filter_key h.canonical fun k => decide ([0x30, 0x2f] ≤ k)]
    exact filter_eq_self.mpr fun x _ => decide_eq_true (zeroSlash_le_key x.1)
  have hfold := foldUntil_sweepVisit (fun v => key_lt_slotSpaceEnd) wm cap {}
    (store.sorted.filter fun e => decide ([0x30, 0x2f] ≤ e.1))
    fun e he => h.canonical e (mem_filter.mp he).1
  rw [hwalk] at hfold
  have hdead : (foldUntil (visitVersion wm cap) {} (versions store)).dead =
      ((rowView.doomedFrom wm none (versions store)).take (max cap 1)).map (·.1.key) := by
    have hcur : CursorAt wm ({} : SweepState).cur none := rfl
    exact foldUntil_visitVersion hcur (versions_newestFirst h.canonical) (.inl rfl)
  rw [sweepCapped]
  simp only [Store.forEachFrom, Bool.false_eq_true, if_false, hfold, hdead]

theorem versions_sweepCapped (h : RowsOk store) (wm cap : Nat) :
    versions (sweepCapped store wm [] cap).1 = rowView.sweep wm (max cap 1) (versions store) := by
  rw [sweepCapped_eq h, versions_delete h.canonical]
  refine filter_congr fun x hx => ?_
  rw [kept, decide_eq_decide, not_iff_not, mem_map]
  constructor
  · rintro ⟨y, hy, hk⟩
    have hmem := mem_of_mem_doomedFrom (mem_of_mem_take hy)
    exact eq_of_key_eq h.canonical hmem hx hk ▸ hy
  · exact fun hd => ⟨x, hd, rfl⟩

theorem RowsOk.sweepCapped (h : RowsOk store) (wm cap : Nat) :
    RowsOk (sweepCapped store wm [] cap).1 := by
  exact h.delete _

/-! ## Sequences of sweeps over committed versions -/

/-- A call of a sequence: its watermark and its cap. -/
structure SweepCall where
  wm : Nat
  cap : Nat

def sweepStep (store : Store) (c : SweepCall) : Option Store :=
  some (sweepCapped store c.wm [] c.cap).1

/-- Every read at or above the watermark resolves to the same live row after the call. -/
def ReadsKept (store : Store) (c : SweepCall) : Prop :=
  ∀ g readTs, c.wm ≤ readTs →
    liveRow (sweepCapped store c.wm [] c.cap).1 g readTs = liveRow store g readTs

/-- The call does not end between a deleted row's tombstone and an older live version of it. -/
def SweepSafe (store : Store) (c : SweepCall) : Prop :=
  ¬ rowView.Uncovers c.wm (max c.cap 1) (versions store)

def AllCommitted (store : Store) : Prop := ∀ x ∈ versions store, isPrepared x.2 = false
  deriving Decidable

theorem AllCommitted.sweepCapped (h : AllCommitted store) (hok : RowsOk store)
    (wm cap : Nat) : AllCommitted (sweepCapped store wm [] cap).1 := fun x hx => by
  rw [versions_sweepCapped hok] at hx
  exact h x (mem_filter.mp hx).1

theorem readsKept_iff (hok : RowsOk store) (hc : AllCommitted store)
    (c : SweepCall) : ReadsKept store c ↔ SweepSafe store c := by
  rw [SweepSafe, ← liveRead_sweep_iff (versions_newestFirst hok.canonical) hc]
  refine forall₃_congr fun g r _ => ?_
  rw [liveRow_eq_iff (hok.sweepCapped c.wm c.cap) hok, versions_sweepCapped hok]

/-- In a sequence of sweeps over committed versions every sweep keeps every read at or above its
watermark exactly when no sweep of the sequence uncovers a dead row. -/
theorem sweeps_keep_reads_iff (store : Store) (hok : RowsOk store) (hc : AllCommitted store)
    (calls : List SweepCall) :
    Guarded sweepStep ReadsKept store calls ↔ Guarded sweepStep SweepSafe store calls := by
  refine guarded_congr (I := fun s => RowsOk s ∧ AllCommitted s) ?_ ?_ ⟨hok, hc⟩
  · rintro s c s' ⟨hok, hc⟩ h
    cases h
    exact ⟨hok.sweepCapped c.wm c.cap, hc.sweepCapped hok c.wm c.cap⟩
  · rintro s c ⟨hok, hc⟩
    exact readsKept_iff hok hc c

def samplePk : Bytes := encodeKey (.int 1)
def sampleGroup : PkGroup := (slotOf 7 samplePk, 7, samplePk)

/-- The row `(1)` of a one-column table. -/
def sampleRow : Bytes := [headerLive, 0, 0, 0, 0, 0, 0, 0, 0, 1]

/-- The key holds a live row written at 1 and deleted at 2. -/
def deletedRowStore : Store := SortedMap.empty.write
  [.put (versionKey sampleGroup.1 7 samplePk 1) sampleRow,
   .put (versionKey sampleGroup.1 7 samplePk 2) encodeTombstone]

theorem rowsOk_deletedRowStore : RowsOk deletedRowStore := by decide +kernel

theorem allCommitted_deletedRowStore : AllCommitted deletedRowStore := by decide +kernel

/-- A sweep at 2 that stops after one delete removes the tombstone alone: the row written at 1
is readable again. -/
theorem sweepCapped_uncovers_deleted_row : RowsOk deletedRowStore ∧ AllCommitted deletedRowStore ∧
    ¬ Guarded sweepStep ReadsKept deletedRowStore [⟨2, 1⟩] := by
  refine ⟨rowsOk_deletedRowStore, allCommitted_deletedRowStore, fun h => ?_⟩
  have hread := h.1 sampleGroup 2 (le_refl 2)
  rw [liveRow_eq (rowsOk_deletedRowStore.sweepCapped 2 1),
    versions_sweepCapped rowsOk_deletedRowStore] at hread
  revert hread
  decide +kernel

theorem sweeps_keep_reads_iff_deletedRowStore :
    RowsOk deletedRowStore ∧ AllCommitted deletedRowStore ∧
      (Guarded sweepStep ReadsKept deletedRowStore [⟨2, 2⟩, ⟨2, 1⟩] ↔
        Guarded sweepStep SweepSafe deletedRowStore [⟨2, 2⟩, ⟨2, 1⟩]) :=
  ⟨rowsOk_deletedRowStore, allCommitted_deletedRowStore,
    sweeps_keep_reads_iff deletedRowStore rowsOk_deletedRowStore allCommitted_deletedRowStore _⟩

end Rdb.Sql
