import Rdb.Sql.Versions

/-!
# Snapshot reads

A table scan walks the whole slot space and keeps, for each primary key, the
first version it meets that is visible at the read timestamp; a point read walks
the keys under the version prefix. Both depend on the store only through the row
versions at or below the read timestamp.

* `visibleVersionsBetween_congr`, `visibleRowAtPk_congr`: reads of stores that
  agree on those versions.
* `le_newestVersionTs`: what the probe of a primary key's newest version finds.
-/

variable {s t : Store}

namespace Rdb

open Lib

/-! ## Scans that skip -/

namespace Store

variable {σ : Type} {store : Store} {start : Bytes} {f : σ → Bytes → Bytes → σ × Bool}

theorem forEachFrom_congr {p : Bytes → Bool} (init : σ)
    (hskip : ∀ x k v, p k = false → f x k v = (x, true)) (h : ∀ k, p k → s.get k = t.get k) :
    s.forEachFrom start false f init = t.forEachFrom start false f init := by
  unfold forEachFrom
  rw [foldUntil_filter (p := fun e : Bytes × Bytes => p e.1) fun x e he => hskip x e.1 e.2 he,
    foldUntil_filter (p := fun e : Bytes × Bytes => p e.1) (fun x e he => hskip x e.1 e.2 he) init
      (t.entries.filter _), List.filter_filter, List.filter_filter]
  congr 1
  refine SortedMap.filter_entries_congr (p := fun k => p k && decide (start ≤ k)) fun k hk => ?_
  exact h k (Bool.and_eq_true_iff.mp hk).1

theorem forEachFrom_prefix {pre : Bytes} {g : σ → Bytes → Bytes → σ × Bool} (init : σ)
    (hstop : ∀ x k v, ¬ pre <+: k → f x k v = (x, false))
    (hskip : ∀ x k v, ¬ pre <+: k → g x k v = (x, true))
    (heq : ∀ x k v, pre <+: k → f x k v = g x k v) :
    store.forEachFrom pre false f init = store.forEachFrom pre false g init := by
  rw [store.forEachFrom_guard (g := fun x e => g x e.1 e.2) fun x k v _ => ?_, ← filter_under]
  · refine (foldUntil_filter (fun x e he => ?_) init _).symm
    exact hskip x e.1 e.2 (of_decide_eq_false he)
  · split
    · next hk => exact heq x k v hk
    · next hk => exact hstop x k v hk

end Store

end Rdb

namespace Rdb.Sql

open Lib

/-! ## Reads -/

def visibleVersionsBetween (store : Store) (schema : TableSchema) (readTs lo hi : Nat) :
    List (Bytes × Bytes) :=
  let newest : SortedMap Bytes (Nat × Bytes) :=
    store.forEachFrom [0x30, 0x2f] false (fun newest key val =>
      (match parseVersionKey key with
        | some v =>
          if lo ≤ v.slot ∧ v.slot ≤ hi ∧ v.tableId = schema.id ∧ v.ts ≤ readTs ∧
              isPrepared val = false then
            -- versions of one key arrive newest first: the first one stays
            match newest.get v.pk with
            | some _ => newest
            | none => newest.put v.pk (v.ts, val)
          else newest
        | none => newest, true)) SortedMap.empty
  newest.entries.filterMap fun e =>
    if e.2.2.head? = some headerLive then some (e.1, e.2.2) else none

/-- One key of the walk under a version prefix: the first visible version ends it. -/
def pkVisit (pre : Bytes) (readTs : Nat) (visible : Option Bytes) (key val : Bytes) :
    Option Bytes × Bool :=
  if pre <+: key then
    match parseVersionKey key with
    | some v =>
      if v.ts ≤ readTs ∧ isPrepared val = false then (some val, false) else (visible, true)
    | none => (visible, true)
  else (visible, false)

/-- The row of one primary key that is visible at `readTs`. -/
def visibleRowAtPk (store : Store) (schema : TableSchema) (pkKey : Bytes) (readTs : Nat) :
    Except RowError (Option (List Value)) :=
  let pre := versionPrefix schema.id pkKey
  match store.forEachFrom pre false (pkVisit pre readTs) none with
  | none => .ok none
  | some raw => do
    let (header, values) ← decodeVersion schema raw
    return if header = headerLive then some values else none

def SameVersions (s t : Store) (readTs : Nat) : Prop :=
  ∀ k v, parseVersionKey k = some v → v.ts ≤ readTs → s.get k = t.get k

variable {readTs : Nat}

theorem SameVersions.get (h : SameVersions s t readTs) (k : Bytes)
    (hk : ((parseVersionKey k).any fun v => decide (v.ts ≤ readTs))) :
    s.get k = t.get k := by
  obtain ⟨v, hv, hts⟩ := (Option.any_eq_true _ _).mp hk
  exact h k v hv (of_decide_eq_true hts)

theorem visibleVersionsBetween_congr (h : SameVersions s t readTs) (schema : TableSchema)
    (lo hi : Nat) :
    visibleVersionsBetween s schema readTs lo hi =
      visibleVersionsBetween t schema readTs lo hi := by
  unfold visibleVersionsBetween
  dsimp only
  congr 2
  refine Store.forEachFrom_congr _ (fun x k val hk => ?_) h.get
  cases hv : parseVersionKey k with
  | none => rfl
  | some v =>
    rw [hv, Option.any_some, decide_eq_false_iff_not] at hk
    dsimp only
    rw [if_neg fun hc => hk hc.2.2.2.1]

theorem visibleRowAtPk_congr (h : SameVersions s t readTs) (schema : TableSchema) (pkKey : Bytes) :
    visibleRowAtPk s schema pkKey readTs = visibleRowAtPk t schema pkKey readTs := by
  let pre := versionPrefix schema.id pkKey
  let g (visible : Option Bytes) (key val : Bytes) : Option Bytes × Bool :=
    if pre <+: key then pkVisit pre readTs visible key val else (visible, true)
  have hpre : ∀ store : Store, store.forEachFrom pre false (pkVisit pre readTs) none =
      store.forEachFrom pre false g none := fun store =>
    Store.forEachFrom_prefix none (fun x k val hk => by rw [pkVisit, if_neg hk])
      (fun x k val hk => if_neg hk) fun x k val hk => (if_pos hk).symm
  have hcongr : s.forEachFrom pre false g none = t.forEachFrom pre false g none := by
    refine Store.forEachFrom_congr _ (fun x k val hk => ?_) h.get
    by_cases hp : pre <+: k
    · simp only [g, pkVisit, if_pos hp]
      cases hv : parseVersionKey k with
      | none => rfl
      | some v =>
        rw [hv, Option.any_some, decide_eq_false_iff_not] at hk
        dsimp only
        rw [if_neg fun hc => hk hc.1]
    · exact if_neg hp
  unfold visibleRowAtPk
  dsimp only
  rw [hpre s, hpre t, hcongr]

/-! ## The newest version of a primary key -/

/-- Every key under the version prefix of a primary key is a version of it. -/
def PkAlone (store : Store) (tableId : Nat) (pk : Bytes) : Prop :=
  ∀ e ∈ store.entries, versionPrefix tableId pk <+: e.1 →
    ((parseVersionKey e.1).any fun v => v.pk == pk)
  deriving Decidable

theorem eq_of_isPrefix {key pk : Bytes} {tableId : Nat} {v : VersionKey}
    (hp : versionPrefix tableId pk <+: key) (hv : parseVersionKey key = some v) (hpk : v.pk = pk) :
    key = versionPrefix tableId pk ++ tsSuffix v.ts ∧ v.ts < 2 ^ 64 := by
  obtain ⟨rest, rfl⟩ := hp
  have hkey : versionPrefix tableId pk ++ rest =
      slotPrefix (slotOf tableId pk) ++ kindSqlRow :: (beBytes 4 tableId ++ (pk ++ rest)) := by
    simp [versionPrefix, slotTablePrefix]
  have hdrop : (beBytes 4 tableId ++ (pk ++ rest)).drop 4 = pk ++ rest :=
    List.drop_left' (length_beBytes 4 tableId)
  rw [hkey, parseVersionKey, splitSlash_slotPrefix] at hv
  obtain ⟨slot, -, hv⟩ := Option.bind_eq_some_iff.mp hv
  split_ifs at hv with hc hlt
  cases hv
  simp only [List.length_append, length_beBytes] at hc
  -- the parser leaves eight bytes for the timestamp
  have hlen : rest.length = 8 := by
    have := congrArg List.length hpk
    simp only [hdrop, List.length_take, List.length_append, length_beBytes] at this
    omega
  have hsuf : (beBytes 4 tableId ++ (pk ++ rest)).drop
      ((beBytes 4 tableId ++ (pk ++ rest)).length - 8) = rest := by
    rw [← List.append_assoc]
    refine List.drop_left' ?_
    simp only [List.length_append]
    omega
  have hts := ofBe_lt rest
  rw [hlen] at hts
  simp only [hsuf]
  refine ⟨?_, by simp only [tsFromSuffix]; omega⟩
  rw [tsSuffix, tsFromSuffix, Nat.sub_sub_self (by omega), beBytes_ofBe hlen]

theorem versionKey_eq_versionPrefix (tableId : Nat) (pk : Bytes) (ts : Nat) :
    versionKey (slotOf tableId pk) tableId pk ts = versionPrefix tableId pk ++ tsSuffix ts := rfl

theorem le_newestVersionTs {store : Store} {tableId ts : Nat} {pk : Bytes}
    (halone : PkAlone store tableId pk) (hts : ts < 2 ^ 64)
    (h : (store.get (versionKey (slotOf tableId pk) tableId pk ts)).isSome) :
    ∃ ts', newestVersionTs store tableId pk = some ts' ∧ ts ≤ ts' := by
  obtain ⟨val, hval⟩ := Option.isSome_iff_exists.mp h
  have hmem : (versionPrefix tableId pk ++ tsSuffix ts, val) ∈
      store.entries.filter fun e => decide (versionPrefix tableId pk ≤ e.1) :=
    List.mem_filter.mpr ⟨SortedMap.get_eq_some.mp hval,
      decide_eq_true (le_of_isPrefix (List.prefix_append _ _))⟩
  unfold newestVersionTs Store.forEachFrom
  simp only [Bool.false_eq_true, if_false]
  cases hl : store.entries.filter fun e => decide (versionPrefix tableId pk ≤ e.1) with
  | nil => rw [hl] at hmem; cases hmem
  | cons e l =>
    rw [hl] at hmem
    have he : e ∈ store.entries.filter fun e => decide (versionPrefix tableId pk ≤ e.1) := by
      rw [hl]; exact List.mem_cons_self
    obtain ⟨hein, hele⟩ := List.mem_filter.mp he
    have hsorted := hl ▸ store.sorted.filter _
    have hfirst : e.1 ≤ versionPrefix tableId pk ++ tsSuffix ts := by
      rcases List.mem_cons.mp hmem with heq | hin
      · rw [← heq]
      · exact le_of_lt ((List.pairwise_cons.mp hsorted).1 _ hin)
    have hpre : versionPrefix tableId pk <+: e.1 :=
      isPrefix_of_le_of_le (of_decide_eq_true hele) hfirst (List.prefix_append _ _)
    obtain ⟨v, hv, hpk⟩ := (Option.any_eq_true _ _).mp (halone e hein hpre)
    obtain ⟨hkey, hvts⟩ := eq_of_isPrefix hpre hv (beq_iff_eq.mp hpk)
    refine ⟨v.ts, ?_, ?_⟩
    · rw [foldUntil_cons]
      simp [hpre, hv]
    · rw [hkey, append_le_append_iff, ← not_lt, tsSuffix_lt_iff hts hvts, not_lt] at hfirst
      exact hfirst

end Rdb.Sql
