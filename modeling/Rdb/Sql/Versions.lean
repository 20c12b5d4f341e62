import Rdb.Lib.VersionWalk
import Rdb.Sql.Row

/-!
# The row versions of a store

`versions` is what a walk over the store meets of the SQL row versions, in key
order. `RowsOk` is what every store the program writes satisfies: a row version
sits under the key `versionKey` builds for it and has one of the three headers.
`rowView` reads such a list as a stream of versions, and `liveRow_eq` says that
the live row `visibleValue` resolves to is that stream's.
-/

namespace Rdb.Sql

open Lib List SortedMap Option
open VersionView (liveRead visible_iff read_eq_some_iff)

/-- The identity of a primary key: `(slot, table_id, pk_key)`. -/
abbrev PkGroup := Nat × Nat × Bytes

abbrev RowVersion := VersionKey × Bytes

def VersionKey.key (v : VersionKey) : Bytes := versionKey v.slot v.tableId v.pk v.ts

def asVersion (e : Bytes × Bytes) : Option RowVersion := (parseVersionKey e.1).map (·, e.2)

def versions (store : Store) : List RowVersion := store.entries.filterMap asVersion

/-- The versions of one primary key, as a reader iterates them. -/
def versionsOf (store : Store) (g : PkGroup) : List (Nat × Bytes) :=
  (versions store).filterMap fun x => if x.1.group = g then some (x.1.ts, x.2) else none

/-- The newest version visible at `readTs`: prepared versions are skipped. -/
def visibleValue (vs : List (Nat × Bytes)) (readTs : Nat) : Option (Bytes × Nat) :=
  (vs.find? fun p => decide (p.1 ≤ readTs) && !isPrepared p.2).map fun p => (p.2, p.1)

def liveRow (store : Store) (g : PkGroup) (readTs : Nat) : Option (Bytes × Nat) :=
  (visibleValue (versionsOf store g) readTs).filter fun p => p.1.head? == some headerLive

/-- The newest version of a primary key, prepared ones included: the first key at or after the
version prefix, when it has the prefix. -/
def newestVersionTs (store : Store) (tableId : Nat) (pkKey : Bytes) : Option Nat :=
  let pre := versionPrefix tableId pkKey
  store.forEachFrom pre false (fun found key _ =>
    (if pre <+: key then ((parseVersionKey key).map (·.ts)).or found else found, false)) none

/-! ## Well-formed row data -/

/-- An entry that is a row version sits under its own key, inside the slot space. -/
def CanonicalEntry (e : Bytes × Bytes) : Prop :=
  ∀ v, parseVersionKey e.1 = some v → v.slot < slotNumber ∧ e.1 = v.key

def KnownHeader (val : Bytes) : Prop :=
  val.head? = some headerTombstone ∨ val.head? = some headerLive ∨ val.head? = some headerPrepared
  deriving Decidable

structure RowsOk (store : Store) : Prop where
  canonical : ∀ e ∈ store.entries, CanonicalEntry e
  header : ∀ x ∈ versions store, KnownHeader x.2

instance (e : Bytes × Bytes) : Decidable (CanonicalEntry e) :=
  match h : parseVersionKey e.1 with
  | none => isTrue fun v hv => by rw [h] at hv; cases hv
  | some v => decidable_of_iff (v.slot < slotNumber ∧ e.1 = v.key)
      ⟨fun hv w hw => by rw [h] at hw; cases hw; exact hv, fun hv => hv v h⟩

instance (store : Store) : Decidable (RowsOk store) :=
  decidable_of_iff
    ((∀ e ∈ store.entries, CanonicalEntry e) ∧ ∀ x ∈ versions store, KnownHeader x.2)
    ⟨fun h => ⟨h.1, h.2⟩, fun h => ⟨h.canonical, h.header⟩⟩

/-- How row versions are read as a stream of versions. -/
def rowView : VersionView RowVersion PkGroup where
  group x := x.1.group
  ts x := x.1.ts
  tomb x := x.2.head? == some headerTombstone
  hidden x := isPrepared x.2

@[simp] theorem rowView_group (x : RowVersion) : rowView.group x = x.1.group := rfl
@[simp] theorem rowView_ts (x : RowVersion) : rowView.ts x = x.1.ts := rfl
@[simp] theorem rowView_tomb (x : RowVersion) :
    rowView.tomb x = (x.2.head? == some headerTombstone) := rfl
@[simp] theorem rowView_hidden (x : RowVersion) : rowView.hidden x = isPrepared x.2 := rfl

variable {x : RowVersion}

theorem asVersion_eq_some {e : Bytes × Bytes} :
    asVersion e = some x ↔ parseVersionKey e.1 = some x.1 ∧ e.2 = x.2 := by
  obtain ⟨v, val⟩ := x
  simp [asVersion]

variable {store : Store}

theorem mem_versions :
    x ∈ versions store ↔ ∃ k, store.get k = some x.2 ∧ parseVersionKey k = some x.1 := by
  simp only [versions, mem_filterMap, asVersion_eq_some, Prod.exists, ← get_eq_some]
  constructor
  · rintro ⟨k, val, hg, hp, rfl⟩
    exact ⟨k, hg, hp⟩
  · rintro ⟨k, hg, hp⟩
    exact ⟨k, x.2, hg, hp, rfl⟩

variable {s t : Store}

theorem versions_congr (h : ∀ k, (parseVersionKey k).isSome → s.get k = t.get k) :
    versions s = versions t := by
  have hfilter : ∀ es : List (Bytes × Bytes), es.filterMap asVersion =
      (es.filter fun e => (parseVersionKey e.1).isSome).filterMap asVersion := by
    intro es
    rw [filterMap_filter]
    refine filterMap_congr fun e _ => ?_
    cases hp : parseVersionKey e.1 <;> simp [asVersion, hp]
  rw [versions, versions, hfilter s.entries, hfilter t.entries, filter_entries_congr h]

theorem liveRow_congr (h : versions s = versions t) (g : PkGroup) (readTs : Nat) :
    liveRow s g readTs = liveRow t g readTs := by
  rw [liveRow, liveRow, versionsOf, versionsOf, h]

theorem eq_of_key_eq (h : ∀ e ∈ store.entries, CanonicalEntry e) {y : RowVersion}
    (hx : x ∈ versions store) (hy : y ∈ versions store) (hk : x.1.key = y.1.key) : x = y := by
  obtain ⟨k, hgx, hpx⟩ := mem_versions.mp hx
  obtain ⟨k', hgy, hpy⟩ := mem_versions.mp hy
  have hkx : k = x.1.key := (h (k, x.2) (get_eq_some.mp hgx) x.1 hpx).2
  have hky : k' = y.1.key := (h (k', y.2) (get_eq_some.mp hgy) y.1 hpy).2
  obtain rfl : k = k' := by rw [hkx, hky, hk]
  refine Prod.ext ?_ ?_
  · exact some.inj (hpx.symm.trans hpy)
  · exact some.inj (hgx.symm.trans hgy)

theorem versions_newestFirst (h : ∀ e ∈ store.entries, CanonicalEntry e) :
    rowView.NewestFirst (versions store) := by
  refine pairwise_filterMap.mpr (store.sorted.imp_of_mem ?_)
  intro e f he hf hlt x hx y hy hg
  obtain ⟨hpx, -⟩ := asVersion_eq_some.mp hx
  obtain ⟨hpy, -⟩ := asVersion_eq_some.mp hy
  obtain ⟨-, -, -, -, -, htsx⟩ := eq_of_parseVersionKey hpx
  obtain ⟨-, -, -, -, -, htsy⟩ := eq_of_parseVersionKey hpy
  simp only [rowView, VersionKey.group, Prod.mk.injEq] at hg
  obtain ⟨hs, ht, hpk⟩ := hg
  rw [(h e he _ hpx).2, (h f hf _ hpy).2, VersionKey.key, VersionKey.key, versionKey, versionKey,
    hs, ht, hpk, append_lt_append_iff, tsSuffix_lt_iff htsx htsy] at hlt
  exact hlt

theorem filterMap_filter_key {es : List (Bytes × Bytes)} (h : ∀ e ∈ es, CanonicalEntry e)
    (p : Bytes → Bool) :
    (es.filter fun e => p e.1).filterMap asVersion =
      (es.filterMap asVersion).filter fun x => p x.1.key := by
  induction es with
  | nil => rfl
  | cons e es ih =>
    have ih := ih fun e' he' => h e' (by simp [he'])
    cases hv : asVersion e with
    | none => cases hp : p e.1 <;> simp [hp, hv, ih]
    | some x =>
      have hk : e.1 = x.1.key := (h e (by simp) x.1 (asVersion_eq_some.mp hv).1).2
      cases hp : p e.1
      · rw [filter_cons_of_neg (by simp [hp]), filterMap_cons_some hv,
          filter_cons_of_neg (by simp [← hk, hp]), ih]
      · rw [filter_cons_of_pos (by exact hp), filterMap_cons_some hv,
          filterMap_cons_some hv, filter_cons_of_pos (by rw [← hk]; exact hp), ih]

theorem versions_delete (h : ∀ e ∈ store.entries, CanonicalEntry e) (ks : List Bytes) :
    versions (store.write (ks.map .del)) =
      (versions store).filter fun x => decide (x.1.key ∉ ks) := by
  rw [versions, versions, entries_write_del, ← filterMap_filter_key h fun k => decide (k ∉ ks)]
  congr 1
  exact filter_congr fun e _ => by simp

theorem RowsOk.delete (h : RowsOk store) (ks : List Bytes) :
    RowsOk (store.write (ks.map .del)) where
  canonical e he := by
    rw [entries_write_del] at he
    exact h.canonical e (mem_filter.mp he).1
  header x hx := by
    rw [versions_delete h.canonical] at hx
    exact h.header x (mem_filter.mp hx).1

/-! ## Reads -/

theorem visibleValue_versionsOf (store : Store) (g : PkGroup) (readTs : Nat) :
    visibleValue (versionsOf store g) readTs =
      (rowView.read (versions store) g readTs).map fun x => (x.2, x.1.ts) := by
  unfold versionsOf VersionView.read
  induction versions store with
  | nil => rfl
  | cons x l ih =>
    by_cases hg : x.1.group = g
    · have hvis : rowView.visible g readTs x = (decide (x.1.ts ≤ readTs) && !isPrepared x.2) := by
        show (decide (x.1.group = g) && decide (x.1.ts ≤ readTs) && !isPrepared x.2) = _
        rw [decide_eq_true hg, Bool.true_and]
      cases hv : (decide (x.1.ts ≤ readTs) && !isPrepared x.2) with
      | true => simp [visibleValue, hvis, hg, hv]
      | false =>
        rw [filterMap_cons_some (by rw [if_pos hg]),
          find?_cons_of_neg (by rw [hvis, hv]; simp), ← ih]
        simp [visibleValue, hv]
    · rw [filterMap_cons_none (by rw [if_neg hg]), find?_cons_of_neg (by
        simp [VersionView.visible, rowView, hg]), ih]

theorem head?_eq_live (h : RowsOk store) (hx : x ∈ versions store) (ht : rowView.tomb x = false)
    (hh : rowView.hidden x = false) :
    x.2.head? = some headerLive := by
  rcases h.header x hx with hk | hk | hk
  · simp [hk] at ht
  · exact hk
  · simp [isPrepared, hk] at hh

theorem liveRow_eq (h : RowsOk store) (g : PkGroup) (readTs : Nat) :
    liveRow store g readTs =
      (rowView.liveRead (versions store) g readTs).map fun x => (x.2, x.1.ts) := by
  rw [liveRow, visibleValue_versionsOf, liveRead]
  cases hr : rowView.read (versions store) g readTs with
  | none => rfl
  | some x =>
    have hx := mem_of_find?_eq_some hr
    have hv := (visible_iff.mp (read_eq_some_iff.mp hr).1).2.2
    have htomb : headerLive ≠ headerTombstone := by decide
    cases ht : rowView.tomb x with
    | false =>
      have hl := head?_eq_live h hx ht hv
      rw [map_some, filter_some, if_pos (by simp [hl]), filter_some,
        if_pos (by simp [hl, htomb]), map_some]
    | true =>
      have hl : x.2.head? = some headerTombstone := by simpa using ht
      rw [map_some, filter_some, if_neg (by simp [hl, htomb.symm]),
        filter_some, if_neg (by simp [hl]), map_none]

theorem liveRow_eq_iff (hs : RowsOk s) (ht : RowsOk t) (g : PkGroup) (r : Nat) :
    liveRow s g r = liveRow t g r ↔
      rowView.liveRead (versions s) g r = rowView.liveRead (versions t) g r := by
  rw [liveRow_eq hs, liveRow_eq ht]
  refine ⟨fun h => ?_, fun h => by rw [h]⟩
  have hgroup : ∀ {l : List RowVersion} {x}, rowView.liveRead l g r = some x → x.1.group = g :=
    fun hx => (visible_iff.mp (read_eq_some_iff.mp
      (filter_eq_some_iff.mp hx).1).1).1
  cases hx : rowView.liveRead (versions s) g r with
  | none =>
    rw [hx] at h
    exact (map_eq_none_iff.mp h.symm).symm
  | some x =>
    cases hy : rowView.liveRead (versions t) g r with
    | none => rw [hx, hy] at h; cases h
    | some y =>
      have hg := (hgroup hx).trans (hgroup hy).symm
      obtain ⟨⟨s₁, i₁, p₁, t₁⟩, v₁⟩ := x
      simp only [VersionKey.group] at hg
      simp_all

theorem liveRow_delete_prepared (h : RowsOk store) {ks : List Bytes}
    (hks : ∀ x ∈ versions store, x.1.key ∈ ks → isPrepared x.2) (g : PkGroup) (r : Nat) :
    liveRow (store.write (ks.map .del)) g r = liveRow store g r := by
  rw [liveRow_eq_iff (h.delete ks) h, versions_delete h.canonical, liveRead,
    liveRead, VersionView.read_filter_of_hidden]
  intro x hx hk
  exact hks x hx (by simpa using hk)

end Rdb.Sql
