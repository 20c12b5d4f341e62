import Rdb.Ddl.Sequence

/-!
# Table ids and AUTO_INCREMENT counters across DDL

A run of statements against the replicated catalog. Beside the entries the state
keeps two histories that no statement reads: the table ids issued so far and the ids
handed out automatically, each with the table id it was handed out for.

Every statement is one of four moves of the live tables: one enters with a fresh
id, one leaves and its id is retired, one changes name or definition and keeps its
id, one raises its counter.

* `catalog_safe_of_guarded`: when ids stay unique, live ids stay out of the retired
  ones and counters never hand an id out twice.
-/

namespace Rdb.Ddl

open Lib Sql Tx List Option

structure CatalogState where
  kv : Kv := SortedMap.empty
  /-- Table ids, newest first. -/
  issued : List Nat := []
  /-- Automatically allocated ids with the table id they are for. -/
  handed : List (Nat × Value) := []

inductive CatalogStmt where
  | create (t : TableDef) (ifNotExists : Bool)
  | drop (name : String) (ifExists : Bool)
  | truncate (name : String)
  | rename (source target : String)
  | reindex (name : String) (indexes : List IndexDef)
  /-- An INSERT, up to the allocation of its ids. -/
  | insert (name : String) (rows : List (List Value))

def putIds (ms : List CatalogMutation) : List Nat :=
  ms.filterMap fun
    | .put t => some t.id
    | _ => none

section

variable (json : CatalogJson) (s : CatalogState)

/-- Apply what a statement decided; an error changes nothing. -/
def CatalogState.mutate (fresh : List CatalogMutation → List Nat) :
    Except SqlError (List CatalogMutation) → CatalogState
  | .ok ms => { s with kv := applyMutations json s.kv ms, issued := fresh ms ++ s.issued }
  | .error _ => s

def insertIds (name : String) (rows : List (List Value)) : CatalogState :=
  match lookupState json s.kv name with
  | .ok (some t) => match t.autoIncrementIndex with
    | some ai =>
      let r := allocate s.kv t.name rows ai
      { s with kv := r.1, handed := (autoIds ai rows r.2).map (t.id, ·) ++ s.handed }
    | none => s
  | _ => s

def catalogStep : CatalogStmt → Option CatalogState
  | .create t ifNotExists => some (s.mutate json putIds (createTable json s.kv t ifNotExists))
  | .drop name ifExists => some (s.mutate json (fun _ => []) (dropTable json s.kv name ifExists))
  | .truncate name => some (s.mutate json putIds (truncateTable json s.kv name))
  | .rename source target =>
    some (s.mutate json (fun _ => []) (renameTable json s.kv source target))
  | .reindex name indexes =>
    some (s.mutate json (fun _ => []) (reindexTable json s.kv name indexes))
  | .insert name rows => some (insertIds json s name rows)

/-- No table id is issued twice, no live table has a retired id, and no id is handed out twice
for one table id. -/
def CatalogSafe : Prop :=
  s.issued.Nodup ∧ (∀ t ∈ listTables json s.kv, t.id ∉ droppedIds json s.kv) ∧ s.handed.Nodup

/-- The counter and the explicit values of the rows stay clear of the end of the 64-bit range. -/
def CounterFits (floor : Int) (ai : Nat) (rows : List (List Value)) : Prop :=
  floor + rows.length + reserveBatch < 2 ^ 63 ∧
    ∀ row ∈ rows, ∀ n, row[ai]? = some (.int n) → n.toInt + rows.length < 2 ^ 63

/-- Tables have names; there is a next table id; a RENAME that changes at most the case of a name
changes it and does not hit a live table, or is about a table without a counter; counters do not
overflow. -/
def StmtGuard : CatalogStmt → Prop
  | .create t _ => t.name ≠ "" ∧ maxTableId json s.kv + 1 < 2 ^ 32
  | .truncate _ => maxTableId json s.kv + 1 < 2 ^ 32
  | .rename source target => target ≠ "" ∧
      (eqIgnoreAsciiCase target source →
        if target = source then ∀ t, tableAt json s.kv source = some t → t.autoIncrement = none
        else tableAt json s.kv target = none)
  | .insert name rows => ∀ t ai, tableAt json s.kv name = some t →
      t.autoIncrementIndex = some ai → CounterFits (sequenceNext s.kv name) ai rows
  | _ => True

end

/-! ## The invariant -/

/-- An id handed out stays below the counter of its table. -/
def Below (v : Value) (next : Int) : Prop :=
  ∃ k : Int, v = .int (BitVec.ofInt 64 k) ∧ 0 ≤ k ∧ k < next

theorem Below.mono {v : Value} {a b : Int} (h : Below v a) (hab : a ≤ b) : Below v b := by
  obtain ⟨k, hv, hk, hlt⟩ := h
  exact ⟨k, hv, hk, by omega⟩

structure CatalogOk (json : CatalogJson) (s : CatalogState) : Prop where
  wf : WfKv json s.kv
  live : ∀ n t, tableAt json s.kv n = some t → t.id ∈ s.issued ∧ ¬ Retired s.kv t.id
  inj : ∀ n m t u, tableAt json s.kv n = some t → tableAt json s.kv m = some u → t.id = u.id → n = m
  issued : ∀ id ∈ s.issued, (∃ n t, tableAt json s.kv n = some t ∧ t.id = id) ∨ Retired s.kv id
  retired : ∀ id, Retired s.kv id → id ∈ s.issued
  lt : ∀ id ∈ s.issued, id < 2 ^ 32
  nodup : s.issued.Nodup
  handed : ∀ p ∈ s.handed, p.1 ∈ s.issued
  counter : ∀ n t v, tableAt json s.kv n = some t → (t.id, v) ∈ s.handed →
    t.autoIncrement ≠ none ∧ Below v (sequenceNext s.kv n)
  handedNodup : s.handed.Nodup

variable {json : CatalogJson} {s : CatalogState}

theorem CatalogOk.safe (h : CatalogOk json s) : CatalogSafe json s := by
  refine ⟨h.nodup, fun t ht hd => ?_, h.handedNodup⟩
  obtain ⟨n, hn⟩ := h.wf.mem_listTables_iff.mp ht
  exact (h.live n t hn).2 (h.wf.mem_droppedIds_iff.mp hd).2

theorem le_max?_getD {l : List Nat} {a : Nat} (h : a ∈ l) : a ≤ l.max?.getD 0 := by
  cases hm : l.max? with
  | none =>
    rw [max?_eq_none_iff.mp hm] at h
    cases h
  | some m => exact (max?_eq_some_iff.mp hm).2 a h

theorem CatalogOk.fresh (h : CatalogOk json s) (hmax : maxTableId json s.kv + 1 < 2 ^ 32) :
    allocTableId json s.kv ∉ s.issued ∧ allocTableId json s.kv < 2 ^ 32 := by
  have heq : allocTableId json s.kv = maxTableId json s.kv + 1 := Nat.mod_eq_of_lt hmax
  refine ⟨fun hid => ?_, by omega⟩
  have hle : allocTableId json s.kv ≤ maxTableId json s.kv := by
    rcases h.issued _ hid with ⟨n, t, ht, hteq⟩ | hret
    · have hmem := h.wf.mem_listTables_iff.mpr ⟨n, ht⟩
      exact (le_max?_getD (l := (listTables json s.kv).map (·.id))
        (mem_map.mpr ⟨t, hmem, hteq⟩)).trans (le_max_left _ _)
    · have hmem := h.wf.mem_droppedIds_iff.mpr ⟨h.lt _ hid, hret⟩
      exact (le_max?_getD hmem).trans (le_max_right _ _)
  omega

/-! ## The moves of the live tables -/

variable {kv : Kv} {n : String} {t u : TableDef} (h : CatalogOk json s)

include h

theorem CatalogOk.enter (hwf : WfKv json kv) (hfree : tableAt json s.kv u.name = none)
    (hnew : u.id ∉ s.issued) (hlt : u.id < 2 ^ 32)
    (htable : ∀ m, tableAt json kv m = if u.name = m then some u else tableAt json s.kv m)
    (hret : Retired kv = Retired s.kv)
    (hseq : ∀ m, u.name ≠ m → sequenceNext kv m = sequenceNext s.kv m) :
    CatalogOk json { s with kv, issued := u.id :: s.issued } where
  wf := hwf
  live n t ht := by
    rw [htable] at ht
    rw [hret]
    split at ht
    · cases ht
      exact ⟨mem_cons_self, fun hr => hnew (h.retired _ hr)⟩
    · exact ⟨mem_cons_of_mem _ (h.live n t ht).1, (h.live n t ht).2⟩
  inj n m t v ht hv hid := by
    rw [htable] at ht hv
    split at ht
    · next hn =>
      cases ht
      split at hv
      · next hm => rw [← hn, hm]
      · exact absurd (hid ▸ (h.live m v hv).1) hnew
    · split at hv
      · cases hv
        exact absurd (hid ▸ (h.live n t ht).1) hnew
      · exact h.inj n m t v ht hv hid
  issued id hid := by
    rw [hret]
    rcases mem_cons.mp hid with rfl | hid
    · exact .inl ⟨u.name, u, by rw [htable, if_pos rfl], rfl⟩
    · rcases h.issued id hid with ⟨n, t, ht, hteq⟩ | hr
      · refine .inl ⟨n, t, ?_, hteq⟩
        rw [htable, if_neg fun e => by rw [← e, hfree] at ht; cases ht]
        exact ht
      · exact .inr hr
  retired id hr := mem_cons_of_mem _ (h.retired id (hret ▸ hr))
  lt id hid := by
    rcases mem_cons.mp hid with rfl | hid
    · exact hlt
    · exact h.lt id hid
  nodup := nodup_cons.mpr ⟨hnew, h.nodup⟩
  handed p hp := mem_cons_of_mem _ (h.handed p hp)
  counter n t v ht hv := by
    rw [htable] at ht
    split at ht
    · -- a fresh id has nothing handed out
      cases ht
      exact absurd (h.handed _ hv) hnew
    · next hn =>
      rw [show sequenceNext kv n = sequenceNext s.kv n from hseq n hn]
      exact h.counter n t v ht hv
  handedNodup := h.handedNodup

theorem CatalogOk.leave (hwf : WfKv json kv) (ht : tableAt json s.kv n = some t)
    (htable : ∀ m, tableAt json kv m = if n = m then none else tableAt json s.kv m)
    (hret : ∀ j, Retired kv j ↔ t.id = j ∨ Retired s.kv j)
    (hseq : ∀ m, n ≠ m → sequenceNext kv m = sequenceNext s.kv m) :
    CatalogOk json { s with kv } where
  wf := hwf
  live m u hu := by
    rw [htable] at hu
    split at hu
    · cases hu
    · next hm =>
      refine ⟨(h.live m u hu).1, fun hr => ?_⟩
      rcases (hret u.id).mp hr with hid | hr
      · exact hm (h.inj n m t u ht hu hid)
      · exact (h.live m u hu).2 hr
  inj m m' u v hu hv hid := by
    rw [htable] at hu hv
    split at hu
    · cases hu
    · split at hv
      · cases hv
      · exact h.inj m m' u v hu hv hid
  issued id hid := by
    rcases h.issued id hid with ⟨m, u, hu, rfl⟩ | hr
    · by_cases hm : n = m
      · subst hm
        rw [ht] at hu
        cases hu
        exact .inr ((hret t.id).mpr (.inl rfl))
      · exact .inl ⟨m, u, by rw [htable, if_neg hm, hu], rfl⟩
    · exact .inr ((hret id).mpr (.inr hr))
  retired id hr := by
    rcases (hret id).mp hr with rfl | hr
    · exact (h.live n t ht).1
    · exact h.retired id hr
  lt := h.lt
  nodup := h.nodup
  handed := h.handed
  counter m u v hu hv := by
    rw [htable] at hu
    split at hu
    · cases hu
    · next hm =>
      rw [show sequenceNext kv m = sequenceNext s.kv m from hseq m hm]
      exact h.counter m u v hu hv
  handedNodup := h.handedNodup

theorem CatalogOk.move (hwf : WfKv json kv) (ht : tableAt json s.kv n = some t)
    (hid : u.id = t.id) (hauto : u.autoIncrement = t.autoIncrement)
    (hfree : n = u.name ∨ tableAt json s.kv u.name = none) (htable : ∀ m, tableAt json kv m =
      if u.name = m then some u else if n = m then none else tableAt json s.kv m)
    (hret : Retired kv = Retired s.kv)
    (hseq : ∀ m, u.name ≠ m → n ≠ m → sequenceNext kv m = sequenceNext s.kv m)
    (hown : t.autoIncrement ≠ none → ∀ v, Below v (sequenceNext s.kv n) →
      Below v (sequenceNext kv u.name)) :
    CatalogOk json { s with kv } where
  wf := hwf
  live m v hv := by
    rw [htable] at hv
    rw [hret]
    split at hv
    · cases hv
      rw [hid]
      exact h.live n t ht
    · split at hv
      · cases hv
      · exact h.live m v hv
  inj m m' v v' hv hv' heq := by
    rw [htable] at hv hv'
    split at hv
    · next hm =>
      cases hv
      split at hv'
      · next hm' => rw [← hm, hm']
      · split at hv'
        · cases hv'
        · next hn =>
          exact absurd (h.inj n m' t v' ht hv' (hid ▸ heq)) hn
    · split at hv
      · cases hv
      · next hn =>
        split at hv'
        · cases hv'
          exact absurd (h.inj n m t v ht hv (by rw [heq, hid])) hn
        · split at hv'
          · cases hv'
          · exact h.inj m m' v v' hv hv' heq
  issued id hmem := by
    rw [hret]
    rcases h.issued id hmem with ⟨m, v, hv, rfl⟩ | hr
    · by_cases hm : n = m
      · subst hm
        rw [ht] at hv
        cases hv
        exact .inl ⟨u.name, u, by rw [htable, if_pos rfl], hid⟩
      · refine .inl ⟨m, v, ?_, rfl⟩
        rw [htable, if_neg, if_neg hm, hv]
        rintro rfl
        rcases hfree with hf | hf
        · exact hm hf
        · rw [hf] at hv
          cases hv
    · exact .inr hr
  retired id hr := h.retired id (hret ▸ hr)
  lt := h.lt
  nodup := h.nodup
  handed := h.handed
  counter m v x hv hx := by
    rw [htable] at hv
    split at hv
    · next hm =>
      cases hv
      subst hm
      rw [hid] at hx
      obtain ⟨ha, hb⟩ := h.counter n t x ht hx
      exact ⟨hauto ▸ ha, hown ha x hb⟩
    · next hu =>
      split at hv
      · cases hv
      · next hn =>
        rw [show sequenceNext kv m = sequenceNext s.kv m from hseq m hu hn]
        exact h.counter m v x hv hx
  handedNodup := h.handedNodup

theorem CatalogOk.raise (hwf : WfKv json kv) (ht : tableAt json s.kv n = some t)
    (hauto : t.autoIncrement ≠ none) {vs : List Value}
    (htable : tableAt json kv = tableAt json s.kv) (hret : Retired kv = Retired s.kv)
    (hseq : ∀ m, n ≠ m → sequenceNext kv m = sequenceNext s.kv m)
    (hle : sequenceNext s.kv n ≤ sequenceNext kv n) (hvs : vs.Nodup)
    (hbelow : ∀ v ∈ vs, Below v (sequenceNext kv n))
    (habove : ∀ v ∈ vs, ¬ Below v (sequenceNext s.kv n)) :
    CatalogOk json { s with kv, handed := vs.map (t.id, ·) ++ s.handed } where
  wf := hwf
  live m u hu := by
    rw [htable] at hu
    rw [hret]
    exact h.live m u hu
  inj m m' u v hu hv := by
    rw [htable] at hu hv
    exact h.inj m m' u v hu hv
  issued id hid := by
    rw [htable, hret]
    exact h.issued id hid
  retired id hr := h.retired id (hret ▸ hr)
  lt := h.lt
  nodup := h.nodup
  handed p hp := by
    rcases mem_append.mp hp with hp | hp
    · obtain ⟨v, -, rfl⟩ := mem_map.mp hp
      exact (h.live n t ht).1
    · exact h.handed p hp
  counter m u v hu hv := by
    rw [htable] at hu
    rcases mem_append.mp hv with hv | hv
    · obtain ⟨w, hw, heq⟩ := mem_map.mp hv
      obtain ⟨hid, rfl⟩ := Prod.mk.inj heq
      obtain rfl := h.inj n m t u ht hu hid
      rw [ht] at hu
      cases hu
      exact ⟨hauto, hbelow w hw⟩
    · obtain ⟨ha, hb⟩ := h.counter m u v hu hv
      refine ⟨ha, ?_⟩
      by_cases hm : n = m
      · subst hm
        exact hb.mono hle
      · rw [show sequenceNext kv m = sequenceNext s.kv m from hseq m hm]
        exact hb
  handedNodup := by
    refine nodup_append.mpr ⟨hvs.map fun a b hab => (Prod.mk.inj hab).2, h.handedNodup, ?_⟩
    rintro p hp q hq rfl
    obtain ⟨v, hv, rfl⟩ := mem_map.mp hp
    exact habove v hv (h.counter n t v ht hq).2

/-! ## The statements -/

theorem CatalogOk.put_table
    (hkv : SameButCounter u.name (applyMutations json s.kv [.put u]) kv) (hname : u.name ≠ "")
    (hfree : tableAt json s.kv u.name = none) (hnew : u.id ∉ s.issued) (hlt : u.id < 2 ^ 32) :
    CatalogOk json { s with kv, issued := u.id :: s.issued } := by
  rw [applyMutations_put] at hkv
  refine h.enter (hkv.wf (h.wf.put (wfEntry_table hname))) hfree hnew hlt (fun m => ?_) ?_
    (fun m hm => ?_)
  · rw [hkv.tableAt, tableAt_put_table]
  · rw [hkv.retired, retired_put_catalogKey]
  · rw [hkv.sequenceNext hm, sequenceNext_put_catalogKey]

theorem CatalogOk.drop_table (ht : tableAt json s.kv n = some t)
    (hkv : SameButCounter n (applyMutations json s.kv [.drop t]) kv) :
    CatalogOk json { s with kv } := by
  obtain ⟨rfl, hne⟩ := h.wf.name_of_tableAt ht
  have hlt : t.id < 2 ^ 32 := h.lt _ (h.live _ t ht).1
  rw [applyMutations_drop] at hkv
  refine h.leave (hkv.wf ((h.wf.put (wfEntry_tombstone hne)).put (wfEntry_marker hlt _))) ht
    (fun m => ?_) (fun j => ?_) (fun m hm => ?_)
  · rw [hkv.tableAt, tableAt_put_droppedIdKey, tableAt_put_tombstone]
  · rw [hkv.retired, retired_put_droppedIdKey, retired_put_catalogKey]
  · rw [hkv.sequenceNext hm, sequenceNext_put_droppedIdKey, sequenceNext_put_catalogKey]

omit h in
theorem putIds_append_counter (ms : List CatalogMutation) (c : Prop) [Decidable c] (k v : Bytes) :
    putIds (ms ++ if c then [.kv k v] else []) = putIds ms := by
  have hnil : putIds (if c then [.kv k v] else []) = [] := by
    split
    · rfl
    · rfl
  rw [putIds, filterMap_append]
  exact (congrArg (putIds ms ++ ·) hnil).trans (append_nil _)

theorem CatalogOk.createTable {ifNotExists : Bool} (hname : t.name ≠ "")
    (hmax : maxTableId json s.kv + 1 < 2 ^ 32) :
    CatalogOk json (s.mutate json putIds (createTable json s.kv t ifNotExists)) := by
  obtain ⟨hnew, hlt⟩ := h.fresh hmax
  unfold Ddl.createTable
  rw [h.wf.lookupState]
  cases hat : tableAt json s.kv t.name with
  | some old =>
    cases ifNotExists with
    | true | false => exact h
  | none =>
    have hok := h.put_table (u := { t with id := allocTableId json s.kv })
      (sameButCounter_opt json _ (t.autoIncrement.isSome) t.name (decimal 1))
      hname hat hnew hlt
    rw [show allocTableId json s.kv :: s.issued =
      putIds [.put { t with id := allocTableId json s.kv }] ++ s.issued from rfl,
      ← putIds_append_counter _ (t.autoIncrement.isSome) (sequenceKey t.name)
        (decimal 1)] at hok
    exact hok

theorem CatalogOk.dropTable {ifExists : Bool} :
    CatalogOk json (s.mutate json (fun _ => []) (dropTable json s.kv n ifExists)) := by
  unfold Ddl.dropTable
  rw [h.wf.lookupState]
  cases hat : tableAt json s.kv n with
  | none =>
    cases ifExists with
    | true | false => exact h
  | some t =>
    have hok := h.drop_table hat
      (sameButCounter_opt json _ (t.autoIncrement.isSome) n [])
    obtain ⟨rfl, -⟩ := h.wf.name_of_tableAt hat
    exact hok

theorem CatalogOk.truncateTable (hmax : maxTableId json s.kv + 1 < 2 ^ 32) :
    CatalogOk json (s.mutate json putIds (truncateTable json s.kv n)) := by
  obtain ⟨hnew, hlt⟩ := h.fresh hmax
  unfold Ddl.truncateTable
  rw [h.wf.lookupState]
  cases hat : tableAt json s.kv n with
  | none => exact h
  | some old =>
    obtain ⟨rfl, hne⟩ := h.wf.name_of_tableAt hat
    -- the old id is retired before the fresh one comes in
    have hgone := h.drop_table hat (.inl rfl)
    have hfree : tableAt json (applyMutations json s.kv [.drop old]) old.name = none := by
      rw [applyMutations_drop, tableAt_put_droppedIdKey, tableAt_put_tombstone, if_pos rfl]
    have hok := hgone.put_table (u := { old with id := allocTableId json s.kv })
      (sameButCounter_opt json _ (old.autoIncrement.isSome) old.name (decimal 1))
      hne hfree hnew hlt
    rw [show allocTableId json s.kv :: s.issued =
      putIds [.drop old, .put { old with id := allocTableId json s.kv }] ++ s.issued from rfl,
      ← putIds_append_counter _ (old.autoIncrement.isSome) (sequenceKey old.name)
        (decimal 1)] at hok
    exact hok

theorem free_of_renameTable {source target : String}
    (hg : StmtGuard json s (.rename source target))
    (hclash : (listTables json s.kv).find? (fun u =>
      eqIgnoreAsciiCase u.name target && !eqIgnoreAsciiCase u.name source) = none) :
    source = target ∨ tableAt json s.kv target = none := by
  by_contra hcon
  obtain ⟨hne, hlive⟩ := not_or.mp hcon
  obtain ⟨u, hu⟩ := ne_none_iff_exists'.mp hlive
  obtain ⟨rfl, -⟩ := h.wf.name_of_tableAt hu
  have hno := find?_eq_none.mp hclash u (h.wf.mem_listTables_iff.mpr ⟨_, hu⟩)
  have heq : eqIgnoreAsciiCase u.name source := by
    cases hc : eqIgnoreAsciiCase u.name source with
    | true => rfl
    | false =>
      rw [hc, eqIgnoreAsciiCase, beq_self_eq_true] at hno
      exact absurd rfl hno
  have hfree := hg.2 heq
  rw [if_neg fun e => hne e.symm, hu] at hfree
  cases hfree

theorem CatalogOk.renameTable {source target : String}
    (hg : StmtGuard json s (.rename source target)) :
    CatalogOk json (s.mutate json (fun _ => []) (renameTable json s.kv source target)) := by
  unfold Ddl.renameTable
  rw [h.wf.lookupState]
  cases hat : tableAt json s.kv source with
  | none => exact h
  | some t =>
    obtain ⟨rfl, hne⟩ := h.wf.name_of_tableAt hat
    cases hclash : (listTables json s.kv).find? (fun u =>
        eqIgnoreAsciiCase u.name target && !eqIgnoreAsciiCase u.name t.name) with
    | some clash => exact h
    | none =>
      change CatalogOk json { s with kv := applyMutations json s.kv (_ ++ _ ++ _) }
      simp only [applyMutations_append]
      have hfree := free_of_renameTable h hg hclash
      generalize hkv : applyMutations json s.kv _ = kv
      -- the counter has moved, or there was none to move
      generalize hkv' : applyMutations json kv _ = kv'
      have hmoved : SameButCounter target kv kv' := by
        rw [← hkv']
        split
        · exact .inl rfl
        · exact .inr ⟨_, rfl⟩
      have hclear : SameButCounter t.name kv' (applyMutations json kv'
          [.kv (sequenceKey t.name) []]) := .inr ⟨_, rfl⟩
      have hkv : kv = (s.kv.put (catalogKey t.name) []).put (catalogKey target)
        (json.toVec { t with name := target }) := hkv.symm
      have hwf : WfKv json kv := by
        rw [hkv]
        exact (h.wf.put (wfEntry_tombstone hne)).put
          (wfEntry_table (t := { t with name := target }) hg.1)
      refine h.move (u := { t with name := target }) (hclear.wf (hmoved.wf hwf)) hat rfl rfl hfree
        (fun m => ?_) ?_ (fun m hu hn => ?_) (fun ha v hv => ?_)
      · rw [hclear.tableAt, hmoved.tableAt, hkv]
        exact (tableAt_put_table _ { t with name := target } m).trans
          (by rw [tableAt_put_tombstone])
      · rw [hclear.retired, hmoved.retired, hkv, retired_put_catalogKey, retired_put_catalogKey]
      · rw [hclear.sequenceNext hn, hmoved.sequenceNext hu, hkv, sequenceNext_put_catalogKey,
          sequenceNext_put_catalogKey]
      · have hne' : t.name ≠ target := by
          rintro rfl
          have := hg.2 (beq_self_eq_true _)
          rw [if_pos rfl] at this
          exact ha (this t hat)
        rw [hclear.sequenceNext hne']
        refine hv.mono ?_
        rw [← hkv']
        split
        · next hnil =>
          have hone : sequenceNext s.kv t.name = 1 := by rw [sequenceNext, hnil]; rfl
          rw [hone]
          exact one_le_sequenceNext _ _
        · rw [applyMutations_kv, sequenceNext_put_sequenceKey, if_pos rfl]
          exact le_refl _

theorem CatalogOk.reindexTable {indexes : List IndexDef} :
    CatalogOk json (s.mutate json (fun _ => []) (reindexTable json s.kv n indexes)) := by
  unfold Ddl.reindexTable
  rw [h.wf.lookupState]
  cases hat : tableAt json s.kv n with
  | none => exact h
  | some t =>
    obtain ⟨rfl, hne⟩ := h.wf.name_of_tableAt hat
    let u : TableDef := { t with indexes }
    have hseq := sequenceNext_put_catalogKey s.kv (json.toVec u) t.name
    refine h.move (u := u) (h.wf.put (wfEntry_table (t := u) hne)) hat rfl rfl (.inl rfl)
      (fun m => ?_) (retired_put_catalogKey s.kv _ t.name) (fun m _ _ => congrFun hseq m)
      (fun _ v hv => (congrFun hseq t.name).symm ▸ hv)
    refine (tableAt_put_table s.kv u m).trans ?_
    split
    · rfl
    · rfl

/-! ## Allocation -/

omit h in
theorem CounterFits.freeId_lt {ai : Nat} {rows : List (List Value)} {next : Int}
    (hnext : next + rows.length < 2 ^ 63)
    (hrows : ∀ row ∈ rows, ∀ n, row[ai]? = some (.int n) → n.toInt + rows.length < 2 ^ 63) :
    freeId ai next rows < 2 ^ 63 := by
  induction rows generalizing next with
  | nil => simpa using hnext
  | cons row rows ih =>
    rw [length_cons] at hnext hrows
    rw [freeId_cons]
    refine ih ?_ fun r hr n hn => by have := hrows r (mem_cons_of_mem _ hr) n hn; omega
    unfold raise
    split
    · omega
    · cases he : explicitId ai row with
      | none =>
        rw [map_none, getD_none]
        omega
      | some n =>
        obtain ⟨m, hm, rfl⟩ := explicitId_eq_some he
        have := hrows row mem_cons_self m hm
        rw [map_some, getD_some]
        omega

theorem CatalogOk.insertIds {rows : List (List Value)}
    (hg : StmtGuard json s (.insert n rows)) : CatalogOk json (insertIds json s n rows) := by
  unfold Ddl.insertIds
  rw [h.wf.lookupState]
  cases hat : tableAt json s.kv n with
  | none => exact h
  | some t =>
    obtain ⟨rfl, -⟩ := h.wf.name_of_tableAt hat
    cases hai : t.autoIncrementIndex with
    | none => simpa only [hai] using h
    | some ai =>
      obtain ⟨hfloor, hrows⟩ := hg t ai hat hai
      rw [reserveBatch] at hfloor
      obtain ⟨hids, hks, hle, hsame⟩ := allocate_spec s.kv t.name rows ai
        (CounterFits.freeId_lt (by omega) hrows) (by rw [reserveBatch]; omega)
      have hauto : t.autoIncrement ≠ none := fun hnone => by
        rw [TableDef.autoIncrementIndex, hnone] at hai
        cases hai
      have hone := one_le_sequenceNext s.kv t.name
      simp only [hai]
      rw [hids]
      refine h.raise (hsame.wf h.wf) hat hauto hsame.tableAt hsame.retired
        (fun m hm => hsame.sequenceNext hm) hle ?_ ?_ ?_
      · refine idValue_nodup (fun k hk => ?_) (idsFrom_pairwise _ _ _)
        have := hks k hk
        omega
      · intro v hv
        obtain ⟨k, hk, rfl⟩ := mem_map.mp hv
        exact ⟨k, rfl, by have := hks k hk; omega, (hks k hk).2.1⟩
      · rintro v hv ⟨k', hv', hpos', hlt'⟩
        obtain ⟨k, hk, rfl⟩ := mem_map.mp hv
        have hk := hks k hk
        have := ofInt_inj (by omega) hk.2.2 hpos' (by omega) (Value.int.inj hv')
        omega

/-! ## Runs -/

omit h

theorem CatalogOk.empty (json : CatalogJson) : CatalogOk json {} where
  wf := fun _ he => nomatch he
  live _ _ ht := nomatch ht
  inj _ _ _ _ ht := nomatch ht
  issued _ hid := nomatch hid
  retired _ hr := nomatch hr
  lt _ hid := nomatch hid
  nodup := .nil
  handed _ hp := nomatch hp
  counter _ _ _ ht := nomatch ht
  handedNodup := .nil

theorem CatalogOk.step {stmt : CatalogStmt} {s' : CatalogState} (h : CatalogOk json s)
    (hg : StmtGuard json s stmt) (hstep : catalogStep json s stmt = some s') :
    CatalogOk json s' := by
  cases stmt with cases hstep
  | create t ifNotExists =>
    exact h.createTable hg.1 hg.2
  | drop n ifExists =>
    exact h.dropTable
  | truncate n =>
    exact h.truncateTable hg
  | rename source target =>
    exact h.renameTable hg
  | reindex n indexes =>
    exact h.reindexTable
  | insert n rows =>
    exact h.insertIds hg

theorem catalog_safe_of_guarded (json : CatalogJson) (stmts : List CatalogStmt) (s : CatalogState)
    (hg : Guarded (catalogStep json) (StmtGuard json) {} stmts)
    (h : exec (catalogStep json) {} stmts = some s) : CatalogSafe json s :=
  (exec_inv (fun _ _ _ hok hg hs => hok.step hg hs) (CatalogOk.empty json) hg h).safe

def catalogJson : CatalogJson where
  toJsonFormat := TableDef.tableCodec.toFormat
  toVec_ne_nil := TableDef.tableCodec_enc_ne_nil

/-- A table with nothing but an AUTO_INCREMENT key. -/
def counted (name : String) : TableDef where
  id := 0
  name := name
  columns := [⟨"id", .int, false⟩]
  pk := ["id"]
  engine := .row
  autoIncrement := some "id"

theorem stmtGuard_insert {rows : List (List Value)} {ai : Nat} (ht : tableAt json s.kv n = some t)
    (hai : t.autoIncrementIndex = some ai) (hfit : CounterFits (sequenceNext s.kv n) ai rows) :
    StmtGuard json s (.insert n rows) := by
  intro t' ai' ht' hai'
  rw [ht] at ht'
  cases ht'
  rw [hai] at hai'
  cases hai'
  exact hfit

/-- A life of a table: created, filled, renamed, emptied, filled again and dropped. -/
def tableLife : List CatalogStmt :=
  [.create (counted "a") false, .insert "a" [[.null], [.int 7], [.null]], .rename "a" "b",
   .truncate "b", .insert "b" [[.null]], .drop "b" false]

theorem tableLife_guarded :
    Guarded (catalogStep catalogJson) (StmtGuard catalogJson) {} tableLife := by
  refine .cons rfl ⟨by decide, by decide +kernel⟩ ?_
  refine .cons rfl ?_ ?_
  · refine stmtGuard_insert (t := { counted "a" with id := 1 }) (by decide +kernel)
      (show _ = some 0 by decide +kernel) ⟨by decide +kernel, ?_⟩
    simp
  refine .cons rfl ⟨by decide, fun heq => absurd heq (by decide +kernel)⟩ ?_
  refine .cons rfl ?_ ?_
  · change maxTableId _ _ + 1 < 2 ^ 32
    decide +kernel
  refine .cons rfl ?_ ?_
  · refine stmtGuard_insert (t := { counted "b" with id := 2 }) (by decide +kernel)
      (show _ = some 0 by decide +kernel) ⟨by decide +kernel, ?_⟩
    simp
  exact .cons rfl trivial trivial

theorem catalog_safe_tableLife : ∃ s, exec (catalogStep catalogJson) {} tableLife = some s ∧
    s.issued = [2, 1] ∧ s.handed = [(2, .int 1), (1, .int 1), (1, .int 8)] ∧
    CatalogSafe catalogJson s := by
  refine exists_run (P := fun s => s.issued = [2, 1] ∧
    s.handed = [(2, .int 1), (1, .int 1), (1, .int 8)]) (by decide +kernel) fun s hs hh => ?_
  exact ⟨hh.1, hh.2, catalog_safe_of_guarded catalogJson tableLife s tableLife_guarded hs⟩

/-- RENAME of a table to its own name clears its counter last: the next INSERT hands out an id
that is taken. -/
theorem rename_to_itself_restarts_counter : ∃ s,
    exec (catalogStep catalogJson) {}
      [.create (counted "a") false, .insert "a" [[.null]], .rename "a" "a",
       .insert "a" [[.null]]] = some s ∧
    s.handed = [(1, .int 1), (1, .int 1)] ∧ ¬ CatalogSafe catalogJson s := by
  refine exists_run (by decide +kernel) fun s _ hh => ⟨hh, fun hsafe => ?_⟩
  have := hsafe.2.2
  rw [hh] at this
  exact absurd this (by decide)

end Rdb.Ddl
