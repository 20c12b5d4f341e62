import Rdb.Sql.Gc
import Rdb.Sql.RowCodec
import Rdb.Sql.Scan

/-!
# What the probes of a primary key find

`newestAt` is the newest committed version of a primary key at or below a timestamp. Both
probes of a primary key, the point read and the search for its newest version, walk the
keys under its version prefix and do not compare the primary key they meet. A primary key
whose bytes go on behind those of another one can stand there too.

* `newestAt_eq_some_iff`: the newest committed version by the keys of the store.
* `visibleRowAtPk_eq`, `newestVersionTs_eq_some_iff`: the probes of a primary key that has
  its version prefix to itself.
-/

namespace Rdb.Sql

open Lib List SortedMap Option
open VersionView (visible_iff)

/-- The slot, table and primary key under which the versions of a row stand. -/
def pkGroup (tableId : Nat) (pk : Bytes) : PkGroup := (slotOf tableId pk, tableId, pk)

def rowKey (tableId : Nat) (pk : Bytes) (ts : Nat) : Bytes :=
  versionKey (slotOf tableId pk) tableId pk ts

/-- The newest committed version of a primary key at or below `readTs`. -/
def newestAt (store : Store) (tableId : Nat) (pk : Bytes) (readTs : Nat) : Option Bytes :=
  (rowView.read (versions store) (pkGroup tableId pk) readTs).map (·.2)

/-- Every row version lies under its own key, in the slot of its primary key. -/
def Placed (store : Store) : Prop :=
  ∀ k v, parseVersionKey k = some v → (store.get k).isSome → k = rowKey v.tableId v.pk v.ts

section

variable {store : Store} {tableId readTs : Nat} {pk : Bytes} {ts : Nat}

theorem parseVersionKey_rowKey (pk : Bytes) (hid : tableId < 2 ^ 32) (hts : ts < 2 ^ 64) :
    parseVersionKey (rowKey tableId pk ts) = some ⟨slotOf tableId pk, tableId, pk, ts⟩ := by
  rw [rowKey, parseVersionKey_versionKey tableId pk (lt_trans (slotOf_lt tableId pk) (by decide))
    hts, Nat.mod_eq_of_lt hid]

theorem Placed.canonical (h : Placed store) : ∀ e ∈ store.entries, CanonicalEntry e := by
  intro e he v hv
  have hk := h e.1 v hv (by rw [mem_entries.mp he]; rfl)
  obtain ⟨-, -, -, -, hid, hts⟩ := eq_of_parseVersionKey hv
  have hslot : v.slot = slotOf v.tableId v.pk := by
    have := hv
    rw [hk, parseVersionKey_rowKey _ hid hts] at this
    exact (congrArg VersionKey.slot (some.inj this)).symm
  refine ⟨hslot ▸ slotOf_lt _ _, ?_⟩
  rw [hk, rowKey, VersionKey.key, hslot]

theorem mem_versions_of_group (h : Placed store) (hid : tableId < 2 ^ 32) {val : Bytes} :
    (⟨slotOf tableId pk, tableId, pk, ts⟩, val) ∈ versions store ↔
      ts < 2 ^ 64 ∧ store.get (rowKey tableId pk ts) = some val := by
  rw [mem_versions]
  constructor
  · rintro ⟨k, hget, hparse⟩
    obtain ⟨-, -, -, -, -, hts⟩ := eq_of_parseVersionKey hparse
    have hk := h k _ hparse (by rw [hget]; rfl)
    exact ⟨hts, hk ▸ hget⟩
  · rintro ⟨hts, hget⟩
    exact ⟨_, hget, parseVersionKey_rowKey _ hid hts⟩

/-- The newest committed version of a primary key at or below `readTs`, by the keys of the store. -/
def IsVisible (store : Store) (tableId : Nat) (pk : Bytes) (readTs : Nat) (raw : Bytes) : Prop :=
  ∃ ts < 2 ^ 64, ts ≤ readTs ∧ store.get (rowKey tableId pk ts) = some raw ∧
    isPrepared raw = false ∧ ∀ ts' < 2 ^ 64, ts' ≤ readTs → ts < ts' →
      ∀ raw', store.get (rowKey tableId pk ts') = some raw' → isPrepared raw'

theorem newestAt_eq_some_iff (h : Placed store) (hid : tableId < 2 ^ 32) {val : Bytes} :
    newestAt store tableId pk readTs = some val ↔ IsVisible store tableId pk readTs val := by
  have hfirst := versions_newestFirst h.canonical
  rw [newestAt, map_eq_some_iff]
  constructor
  · rintro ⟨⟨⟨slot, id, pk', ts⟩, val'⟩, hread, rfl⟩
    obtain ⟨hmem, hvis, hmax⟩ := hfirst.read_eq_newest_iff.mp hread
    obtain ⟨hg, hts, hhid⟩ := visible_iff.mp hvis
    simp only [rowView_group, VersionKey.group] at hg
    obtain ⟨rfl, rfl, rfl⟩ := hg
    obtain ⟨hlt, hget⟩ := (mem_versions_of_group h hid).mp hmem
    refine ⟨ts, hlt, hts, hget, hhid, fun ts' hlt' hts' hnew val'' hget' => ?_⟩
    by_contra hp
    have := hmax _ ((mem_versions_of_group h hid).mpr ⟨hlt', hget'⟩)
      (visible_iff.mpr ⟨rfl, hts', Bool.eq_false_iff.mpr hp⟩)
    simp only [rowView_ts] at this
    omega
  · rintro ⟨ts, hlt, hts, hget, hhid, hmax⟩
    refine ⟨(⟨slotOf tableId pk, tableId, pk, ts⟩, val), hfirst.read_eq_newest_iff.mpr
      ⟨(mem_versions_of_group h hid).mpr ⟨hlt, hget⟩, visible_iff.mpr ⟨rfl, hts, hhid⟩,
        ?_⟩, rfl⟩
    rintro ⟨⟨slot, id, pk', ts'⟩, val'⟩ hmem hvis
    obtain ⟨hg, hts', hhid'⟩ := visible_iff.mp hvis
    simp only [rowView_group, VersionKey.group] at hg
    obtain ⟨rfl, rfl, rfl⟩ := hg
    obtain ⟨hlt', hget'⟩ := (mem_versions_of_group h hid).mp hmem
    by_contra hnew
    have hp := hmax ts' hlt' hts' (not_le.mp hnew) val' hget'
    simp only [rowView_hidden] at hhid'
    rw [hhid'] at hp
    cases hp

/-! ## The point read -/

def hit (tableId : Nat) (pk : Bytes) (readTs : Nat) (e : Bytes × Bytes) : Option Bytes :=
  (parseVersionKey e.1).bind fun v =>
    if v.group = pkGroup tableId pk ∧ v.ts ≤ readTs ∧ isPrepared e.2 = false then some e.2 else none

theorem newestAt_eq_findSome? (store : Store) (tableId : Nat) (pk : Bytes) (readTs : Nat) :
    newestAt store tableId pk readTs = store.entries.findSome? (hit tableId pk readTs) := by
  unfold newestAt versions VersionView.read
  induction store.entries with
  | nil => rfl
  | cons e es ih =>
    rw [findSome?_cons]
    cases hp : parseVersionKey e.1 with
    | none =>
      rw [filterMap_cons_none (by rw [asVersion, hp]; rfl), ih, hit, hp, bind_none]
    | some v =>
      have hvis : rowView.visible (pkGroup tableId pk) readTs (v, e.2) ↔
          v.group = pkGroup tableId pk ∧ v.ts ≤ readTs ∧ isPrepared e.2 = false :=
        visible_iff
      rw [filterMap_cons_some (by rw [asVersion, hp]; rfl), hit, hp, bind_some]
      split
      · next hif =>
        split at hif
        · next hc => rw [find?_cons_of_pos (hvis.mpr hc), map_some, hif]
        · cases hif
      · next hif =>
        split at hif
        · cases hif
        · next hc => rw [find?_cons_of_neg fun hv => hc (hvis.mp hv), ih]

variable {e : Bytes × Bytes}

theorem Placed.key_eq (h : Placed store) (he : e ∈ store.entries) {v : VersionKey}
    (hv : parseVersionKey e.1 = some v) : e.1 = rowKey v.tableId v.pk v.ts :=
  h e.1 v hv (by rw [mem_entries.mp he]; rfl)

/-- What the walk under a prefix takes from an entry. -/
def pkHit (pre : Bytes) (readTs : Nat) (e : Bytes × Bytes) : Option Bytes :=
  if pre <+: e.1 then (parseVersionKey e.1).bind fun v =>
    if v.ts ≤ readTs ∧ isPrepared e.2 = false then some e.2 else none
  else none

theorem eq_of_pkHit {pre : Bytes} {raw : Bytes}
    (h : pkHit pre readTs e = some raw) : e.2 = raw ∧ isPrepared e.2 = false := by
  rw [pkHit] at h
  split at h
  · obtain ⟨v, -, h⟩ := bind_eq_some_iff.mp h
    split at h
    · next hc => exact ⟨some.inj h, hc.2⟩
    · cases h
  · cases h

theorem pkWalk_eq (store : Store) (pre : Bytes) (readTs : Nat) :
    store.forEachFrom pre false (pkVisit pre readTs) none =
      store.entries.findSome? (pkHit pre readTs) := by
  have hvisit : ∀ x k val, pre <+: k → pkVisit pre readTs x k val =
      (pkHit pre readTs (k, val)).elim (x, true) fun b => (some b, false) := fun x k val hk => by
    simp only [pkVisit, pkHit, if_pos hk]
    cases hp : parseVersionKey k with
    | none => rfl
    | some v =>
      rw [bind_some]
      dsimp only
      split <;> rfl
  rw [Store.forEachFrom_prefix none (fun x k val hk => by rw [pkVisit, if_neg hk])
    (fun x k val hk => by simp only [pkHit, if_neg hk]; rfl) hvisit, Store.forEachFrom]
  rw [foldUntil_eq_findSome? (g := pkHit pre readTs) fun _ _ => rfl, findSome?_filter]
  intro e _ hlow
  exact if_neg fun hk => of_decide_eq_false hlow (le_of_isPrefix hk)

/-- A stored version as the row it shows. -/
def shownRow (schema : TableSchema) : Option Bytes → Except RowError (Option (List Value))
  | none => .ok none
  | some raw => (decodeVersion schema raw).map fun r => if r.1 = headerLive then some r.2 else none

theorem visibleRowAtPk_eq_shownRow (store : Store) (schema : TableSchema) (pk : Bytes)
    (readTs : Nat) : visibleRowAtPk store schema pk readTs =
      shownRow schema (store.entries.findSome? (pkHit (versionPrefix schema.id pk) readTs)) := by
  rw [visibleRowAtPk]
  rw [pkWalk_eq]
  cases store.entries.findSome? (pkHit (versionPrefix schema.id pk) readTs) with
  | none => rfl
  | some raw =>
    cases decodeVersion schema raw <;> rfl

variable {schema : TableSchema}

theorem visibleRowAtPk_eq (h : Placed store) (hid : schema.id < 2 ^ 32)
    (halone : PkAlone store schema.id pk) (readTs : Nat) :
    visibleRowAtPk store schema pk readTs = shownRow schema (newestAt store schema.id pk readTs) := by
  rw [visibleRowAtPk_eq_shownRow, newestAt_eq_findSome?]
  congr 1
  refine findSome?_congr fun e he => ?_
  rw [pkHit, hit]
  cases hp : parseVersionKey e.1 with
  | none =>
    exact ite_self _
  | some v =>
    have hgroup : versionPrefix schema.id pk <+: e.1 ↔ v.group = pkGroup schema.id pk := by
      constructor
      · intro hpre
        have hany := halone e he hpre
        rw [hp] at hany
        obtain ⟨hkey, hts⟩ := eq_of_isPrefix hpre hp (beq_iff_eq.mp hany)
        rw [← versionKey_eq_versionPrefix] at hkey
        have hv := hp
        rw [hkey, ← rowKey, parseVersionKey_rowKey pk hid hts] at hv
        rw [← some.inj hv]
        rfl
      · intro hg
        simp only [VersionKey.group, pkGroup, Prod.mk.injEq] at hg
        rw [h.key_eq he hp, hg.2.1, hg.2.2, rowKey]
        exact prefix_append _ _
    rw [bind_some, bind_some]
    by_cases hpre : versionPrefix schema.id pk <+: e.1
    · rw [if_pos hpre]
      simp only [hgroup.mp hpre, true_and]
    · rw [if_neg hpre, if_neg fun hc => hpre (hgroup.mpr hc.1)]

/-! ## The newest version -/

theorem isSome_of_newestVersionTs (halone : PkAlone store tableId pk)
    (h : newestVersionTs store tableId pk = some ts) :
    ts < 2 ^ 64 ∧ (store.get (rowKey tableId pk ts)).isSome := by
  unfold newestVersionTs Store.forEachFrom at h
  simp only [Bool.false_eq_true, if_false] at h
  cases hl : store.entries.filter fun e => decide (versionPrefix tableId pk ≤ e.1) with
  | nil =>
    rw [hl] at h
    cases h
  | cons e l =>
    have he : e ∈ store.entries := by
      refine (mem_filter.mp (?_ : e ∈ store.entries.filter fun e =>
        decide (versionPrefix tableId pk ≤ e.1))).1
      rw [hl]
      exact mem_cons_self
    rw [hl, foldUntil_cons] at h
    simp only [Bool.false_eq_true, if_false] at h
    split at h
    · next hpre =>
      rw [or_none, map_eq_some_iff] at h
      obtain ⟨v, hv, rfl⟩ := h
      have hany := halone e he hpre
      rw [hv] at hany
      obtain ⟨hkey, hts⟩ := eq_of_isPrefix hpre hv (beq_iff_eq.mp hany)
      refine ⟨hts, ?_⟩
      rw [rowKey, versionKey_eq_versionPrefix, ← hkey, mem_entries.mp he]
      rfl
    · cases h

theorem newestVersionTs_eq_some_iff (halone : PkAlone store tableId pk) :
    newestVersionTs store tableId pk = some ts ↔
      IsGreatest {ts | ts < 2 ^ 64 ∧ (store.get (rowKey tableId pk ts)).isSome} ts := by
  constructor
  · intro h
    refine ⟨isSome_of_newestVersionTs halone h, fun ts' hts' => ?_⟩
    obtain ⟨ts'', hnewest, hle⟩ := le_newestVersionTs halone hts'.1 hts'.2
    cases h.symm.trans hnewest
    exact hle
  · intro h
    obtain ⟨ts', hnewest, hle⟩ := le_newestVersionTs halone h.1.1 h.1.2
    have := h.2 (isSome_of_newestVersionTs halone hnewest)
    rw [hnewest, le_antisymm this hle]

/-! ## Exact probes -/

/-- The probes of a primary key find the newest of its own versions. -/
structure ProbesExact (store : Store) (schema : TableSchema) (pk : Bytes) : Prop where
  newest : ∀ ts, newestVersionTs store schema.id pk = some ts ↔
    IsGreatest {ts | ts < 2 ^ 64 ∧ (store.get (rowKey schema.id pk ts)).isSome} ts
  visible : ∀ readTs raw, IsVisible store schema.id pk readTs raw →
    visibleRowAtPk store schema pk readTs = shownRow schema (some raw)
  invisible : ∀ readTs, (∀ raw, ¬ IsVisible store schema.id pk readTs raw) →
    visibleRowAtPk store schema pk readTs = .ok none

/-- Every key of the store is the key of a row version. -/
def VersionsOnly (store : Store) : Prop :=
  ∀ k, (store.get k).isSome →
    ∃ tableId < 2 ^ 32, ∃ pk, ∃ ts < 2 ^ 64, k = rowKey tableId pk ts

theorem VersionsOnly.placed (h : VersionsOnly store) : Placed store := by
  intro k v hv hk
  obtain ⟨tableId, hid, pk, ts, hts, rfl⟩ := h k hk
  rw [parseVersionKey_rowKey pk hid hts] at hv
  cases hv
  rfl

theorem probesExact_of_pkAlone (h : Placed store) (hid : schema.id < 2 ^ 32)
    (halone : PkAlone store schema.id pk) : ProbesExact store schema pk := by
  refine ⟨fun ts => newestVersionTs_eq_some_iff halone, fun readTs raw hraw => ?_,
    fun readTs hno => ?_⟩
  · rw [visibleRowAtPk_eq h hid halone, (newestAt_eq_some_iff h hid).mpr hraw]
  · rw [visibleRowAtPk_eq h hid halone]
    cases hn : newestAt store schema.id pk readTs with
    | none => rfl
    | some raw => exact absurd ((newestAt_eq_some_iff h hid).mp hn) (hno raw)

/-- The keys of a store with prepared versions of one primary key and one row for all others. -/
def disguise (pk row : Bytes) (store : Store) : Store :=
  ⟨store.entries.map fun e => (e.1,
    if (parseVersionKey e.1).any (fun v => v.pk == pk) then [headerPrepared] else row),
    List.pairwise_map.mpr store.sorted⟩

theorem get_disguise (pk row : Bytes) (store : Store) (k : Bytes) :
    (disguise pk row store).get k = (store.get k).map fun _ =>
      if (parseVersionKey k).any (fun v => v.pk == pk) then [headerPrepared] else row := by
  refine Option.ext fun val => ?_
  rw [get_eq_some, map_eq_some_iff, disguise, List.mem_map]
  constructor
  · rintro ⟨e, he, hx⟩
    cases hx
    exact ⟨e.2, mem_entries.mp he, rfl⟩
  · rintro ⟨x, hx, rfl⟩
    exact ⟨(k, x), get_eq_some.mp hx, rfl⟩

theorem not_probesExact_disguise (hs : VersionsOnly store) (hid : schema.id < 2 ^ 32) {row : Bytes}
    {values : List Value} (hrow : isPrepared row = false)
    (hshown : shownRow schema (some row) = .ok (some values)) (he : e ∈ store.entries)
    (hpre : versionPrefix schema.id pk <+: e.1)
    (hother : ((parseVersionKey e.1).any fun v => v.pk == pk) = false) :
    ¬ ProbesExact (disguise pk row store) schema pk := by
  intro h
  -- all versions of the primary key itself are prepared
  have hnone := h.invisible (2 ^ 64 - 1) fun raw hvis => by
    obtain ⟨ts, hts, -, hget, hraw, -⟩ := hvis
    rw [get_disguise, parseVersionKey_rowKey pk hid hts, any_some, beq_self_eq_true,
      map_eq_some_iff] at hget
    obtain ⟨-, -, rfl⟩ := hget
    cases hraw
  rw [visibleRowAtPk_eq_shownRow] at hnone
  -- the walk stops at the first version that is not prepared
  have hfound : ∀ raw ∈ (disguise pk row store).entries.findSome?
      (pkHit (versionPrefix schema.id pk) (2 ^ 64 - 1)), raw = row := by
    intro raw hraw
    obtain ⟨x, hx, hhit⟩ := exists_of_findSome?_eq_some hraw
    obtain ⟨x', -, rfl⟩ := List.mem_map.mp hx
    obtain ⟨rfl, hp⟩ := eq_of_pkHit hhit
    by_cases hpk : ((parseVersionKey x'.1).any fun v => v.pk == pk)
    · rw [if_pos hpk] at hp
      cases hp
    · exact if_neg hpk
  cases hwalk : (disguise pk row store).entries.findSome?
      (pkHit (versionPrefix schema.id pk) (2 ^ 64 - 1)) with
  | some raw =>
    rw [hwalk, hfound raw hwalk, hshown] at hnone
    cases hnone
  | none =>
    have hmiss := findSome?_eq_none_iff.mp hwalk (e.1, row)
      (List.mem_map.mpr ⟨e, he, by rw [hother]; rfl⟩)
    obtain ⟨tableId, hid', pk', ts, hts, hkey⟩ := hs e.1 (by rw [mem_entries.mp he]; rfl)
    rw [pkHit, if_pos hpre, hkey, parseVersionKey_rowKey pk' hid' hts, bind_some,
      if_pos ⟨Nat.le_sub_one_of_lt hts, hrow⟩] at hmiss
    cases hmiss

/-- The probes of a primary key are exact, whatever the versions hold, exactly when no key of
another primary key starts with its version prefix. -/
theorem probes_exact_iff (hs : VersionsOnly store) (schema : TableSchema)
    (hid : schema.id < 2 ^ 32) (pk : Bytes) :
    (∀ t : Store, (∀ k, (t.get k).isSome = (store.get k).isSome) → ProbesExact t schema pk) ↔
      PkAlone store schema.id pk := by
  constructor
  · intro h e he hpre
    by_contra hother
    have hnulls : FitsRow schema.columns (schema.columns.map fun _ => .null) := by
      rw [FitsRow, forall₂_map_left_iff]
      exact forall₂_same.mpr fun _ _ => .inl rfl
    obtain ⟨raw, -, hdec⟩ := decodeVersion_encodeRow hnulls
    have hshown : shownRow schema (some (headerLive :: raw)) =
        .ok (some (schema.columns.map fun _ => .null)) := by
      rw [shownRow, hdec]
      rfl
    refine not_probesExact_disguise hs hid rfl hshown he hpre (Bool.eq_false_iff.mpr hother)
      (h _ fun k => ?_)
    rw [get_disguise, isSome_map]
  · intro halone t hkeys
    have hsome : ∀ {k}, (t.get k).isSome → (store.get k).isSome := fun hk => by
      rwa [← hkeys]
    have ht : VersionsOnly t := fun k hk => hs k (hsome hk)
    refine probesExact_of_pkAlone ht.placed hid fun e he hpre => ?_
    have hk := hsome (k := e.1) (by rw [mem_entries.mp he]; rfl)
    obtain ⟨val, hval⟩ := isSome_iff_exists.mp hk
    exact halone (e.1, val) (get_eq_some.mp hval) hpre

end

/-- A table with a text as its primary key. -/
def namesTable : TableSchema :=
  { id := 1, name := "names", engine := .row, pk := ["name"],
    columns := [{ name := "name", sqlType := .varChar, nullable := false }] }

/-- Two rows of the table, "a" at 9 and another one at 5. -/
def twoNames (other : String) : Store :=
  SortedMap.ofList [(rowKey 1 (encodeKey (.str "a")) 9, [headerLive, 0, 0, 0, 0, 1, 0x61]),
    (rowKey 1 (encodeKey (.str other)) 5,
      headerLive :: 0 :: (beBytes 4 (utf8 other).length ++ utf8 other))]

theorem versionsOnly_twoNames (other : String) : VersionsOnly (twoNames other) := by
  intro k hk
  obtain ⟨val, hval⟩ := isSome_iff_exists.mp hk
  have hmem := mem_of_get_ofList hval
  simp only [mem_cons, not_mem_nil, or_false] at hmem
  rcases hmem with ⟨rfl, -⟩ | ⟨rfl, -⟩
  · exact ⟨1, by decide, _, 9, by decide, rfl⟩
  · exact ⟨1, by decide, _, 5, by decide, rfl⟩

theorem probes_exact_two_names : ProbesExact (twoNames "b") namesTable (encodeKey (.str "a")) :=
  (probes_exact_iff (versionsOnly_twoNames "b") namesTable (by decide) _).mpr
    (by decide +kernel) _ fun _ => rfl

/-- The text "a" with a NUL and more behind it lies in the slot of "a", and its bytes start with
those of "a": its version is taken for the newest of "a". -/
theorem probes_meet_longer_name :
    VersionsOnly (twoNames "a\x00opy") ∧
      ¬ ProbesExact (twoNames "a\x00opy") namesTable (encodeKey (.str "a")) := by
  refine ⟨versionsOnly_twoNames _, fun h => ?_⟩
  have hfive : newestVersionTs (twoNames "a\x00opy") 1 (encodeKey (.str "a")) = some 5 := by
    decide +kernel
  have hnine : ((twoNames "a\x00opy").get (rowKey 1 (encodeKey (.str "a")) 9)).isSome := by
    decide +kernel
  have := ((h.newest 5).mp hfive).2 (⟨by decide, hnine⟩ : 9 < 2 ^ 64 ∧ _)
  exact absurd this (by decide)

end Rdb.Sql
