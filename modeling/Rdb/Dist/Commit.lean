import Rdb.Dist.InDoubt

/-!
# What a commit publishes

A commit decision looks at the first byte of whatever is stored at a staged key
and flips it when it is the prepared header. Row values carry that header; the
value of a unique entry is a primary key, whose first byte is a type tag.
-/

namespace Rdb.Dist

open Lib Sql Participant List SortedMap Option
open Serde (json)

variable {J : Serde} {store : Store}

/-! ## Flipping the staged keys -/

/-- What a commit makes of a staged data value. -/
def publish (v : Bytes) : Bytes := if isPrepared v then finalHeader v :: v.tail else v

variable {k : Bytes}

theorem flipValue_of_dataKey (hk : DataKey k) :
    flipValue J store k = (store.get k).bind fun v =>
      if isPrepared v then some (finalHeader v :: v.tail) else none := by
  have hm : (parseMetaKey k).isSome = false := by
    cases h : (parseMetaKey k).isSome with
    | false => rfl
    | true => exact absurd rfl (hk.ne (slotOfKey_of_isMeta h))
  simp only [flipValue, hm, Bool.false_eq_true, if_false]

theorem get_decide_commit {txnId : TxnId} {now : Nat} {bind : Addr} {indexOps : List WireOp}
    (hk : DataKey k) (hops : ∀ op ∈ indexOps, op.1 ≠ k) (hstaged : k ∈ stagedKeys J store txnId) :
    (Participant.decide J now store txnId bind true indexOps).1.get k =
      (store.get k).map publish := by
  have hno : ∀ op ∈ indexOps.map applyOp, op.key ≠ k := by
    intro op hop
    obtain ⟨w, hw, rfl⟩ := mem_map.mp hop
    rw [key_applyOp]
    exact hops w hw
  rw [get_decide hk, decideBody, if_pos rfl, lastWrite_append_of_not_mem hno]
  cases hf : flipValue J store k with
  | some v =>
    have hmem : (.put k v : WriteOp) ∈
        (stagedKeys J store txnId).filterMap fun k => (flipValue J store k).map (.put k) :=
      mem_filterMap.mpr ⟨k, hstaged, by rw [hf]; rfl⟩
    have hlast : lastWrite k ((stagedKeys J store txnId).filterMap fun k =>
        (flipValue J store k).map (.put k)) = some (some v) := by
      refine lastWrite_of_forall hmem rfl fun op hop hkey => ?_
      obtain ⟨k', -, hk'⟩ := mem_filterMap.mp hop
      obtain ⟨v', hv', rfl⟩ := map_eq_some_iff.mp hk'
      obtain rfl : k' = k := hkey
      rw [hf] at hv'
      exact hv'.symm
    rw [hlast, getD_some]
    rw [flipValue_of_dataKey hk] at hf
    obtain ⟨w, hw, hf⟩ := bind_eq_some_iff.mp hf
    split at hf
    · next hp =>
      cases hf
      rw [hw, map_some, publish, if_pos hp]
    · cases hf
  | none =>
    have hlast : lastWrite k ((stagedKeys J store txnId).filterMap fun k =>
        (flipValue J store k).map (.put k)) = none := by
      refine lastWrite_eq_none.mpr fun op hop hkey => ?_
      obtain ⟨k', -, hk'⟩ := mem_filterMap.mp hop
      obtain ⟨v', hv', rfl⟩ := map_eq_some_iff.mp hk'
      obtain rfl : k' = k := hkey
      rw [hf] at hv'
      cases hv'
    rw [hlast, getD_none]
    cases hg : store.get k with
    | none => rfl
    | some w =>
      rw [flipValue_of_dataKey hk, hg, bind_some] at hf
      have hp : isPrepared w = false := by
        by_contra hp
        rw [if_pos (by simpa using hp)] at hf
        cases hf
      rw [map_some, publish, if_neg (by simp [hp])]

/-! ## Slices -/

/-- The final value of a row version: a tombstone or a live row with a payload. -/
def RowValue (v : Bytes) : Prop :=
  v = encodeTombstone ∨ ∃ payload, payload ≠ [] ∧ v = headerLive :: payload

theorem publish_preparedValue {v : Bytes} (h : RowValue v) : publish (preparedValue v) = v := by
  rcases h with rfl | ⟨payload, hp, rfl⟩
  · rfl
  · have hlen : ¬ (headerPrepared :: payload).length ≤ 1 := by
      have := length_pos_iff.mpr hp
      simp only [length_cons]
      omega
    have hprep : isPrepared (headerPrepared :: payload) := rfl
    rw [preparedValue, publish, if_pos hprep, finalHeader, if_neg hlen, tail_cons]

/-- The slice of a plan for one participant: rows are staged in their prepared form under keys of
their own, unique entries under unique-index keys, and the index writes are of secondary indexes. -/
structure SliceOk (entries : List Entry) (indexOps : List WireOp) : Prop where
  rows : ∀ e ∈ entries, e.kind = .rowPrepared → ∃ v, RowValue v ∧ e.value = preparedValue v
  rowKeys : ((entries.filter (·.kind = .rowPrepared)).map (·.key)).Nodup
  unique : UniqueEntriesOk entries
  ops : ∀ op ∈ indexOps, SecondaryKey op.1

/-- Every row entry's key holds its final value, every unique put's key the staged owner. -/
def Publishes (entries : List Entry) (after : Store) : Prop :=
  ∀ e ∈ entries,
    (e.kind = .rowPrepared → ∀ v, RowValue v → e.value = preparedValue v →
      after.get e.key = some v) ∧
    (e.kind = .uniquePut → after.get e.key = some e.value)

def lastOn (k : Bytes) (entries : List Entry) : Option Entry :=
  entries.reverse.find? fun e => decide (e.key = k)

theorem lastWrite_stageEntry (k : Bytes) (entries : List Entry) :
    lastWrite k (entries.map stageEntry) = (lastOn k entries).map fun e => (stageEntry e).val := by
  induction entries using reverseRecOn with
  | nil => rfl
  | append_singleton es e ih =>
    rw [map_append, lastWrite_append, ih, lastOn, lastOn]
    by_cases h : e.key = k
    · simp [lastWrite_cons, key_stageEntry, h]
    · simp [lastWrite_cons, key_stageEntry, h]

variable {entries : List Entry}

theorem lastOn_spec {e : Entry} (h : lastOn k entries = some e) : e ∈ entries ∧ e.key = k := by
  have hm := mem_of_find?_eq_some h
  have hp := find?_some h
  exact ⟨mem_reverse.mp hm, by simpa using hp⟩

theorem exists_lastOn {e : Entry} (he : e ∈ entries) : ∃ e', lastOn e.key entries = some e' := by
  cases h : lastOn e.key entries with
  | some e' => exact ⟨e', rfl⟩
  | none =>
    have := find?_eq_none.mp h e (mem_reverse.mpr he)
    simp at this

theorem owners_agree {commitTs readTs : Nat} {vacated : List Bytes} {claimed : List (Bytes × Bytes)}
    (h : checkEntries store commitTs readTs vacated claimed entries = .ok none) :
    (∀ e ∈ entries, e.kind = .uniquePut → ∀ v, claimed.lookup e.key = some v → v = e.value) ∧
    ∀ e ∈ entries, ∀ e' ∈ entries, e.kind = .uniquePut → e'.kind = .uniquePut →
      e.key = e'.key → e.value = e'.value := by
  induction entries generalizing claimed with
  | nil => simp
  | cons e₀ es ih =>
    rw [checkEntries] at h
    split at h
    · cases h
    · cases h
    · next hc =>
      obtain ⟨ihc, ihe⟩ := ih h
      -- the first put of a key is claimed, and a claim stays
      have hfirst : e₀.kind = .uniquePut → (claim claimed e₀).lookup e₀.key = some e₀.value := by
        intro hk
        rw [checkEntry, hk] at hc
        cases hl : claimed.lookup e₀.key with
        | none => simp [claim, hk, hl]
        | some first =>
          simp only [hl] at hc
          split at hc
          · cases hc
          · next hv => simp [claim, hl, not_not.mp hv]
      have hkeep : ∀ k v, claimed.lookup k = some v → (claim claimed e₀).lookup k = some v := by
        intro k v hl
        unfold claim
        split
        · next hl₀ =>
          have hne : k ≠ e₀.key := by rintro rfl; rw [hl] at hl₀; cases hl₀
          rw [lookup_cons, beq_eq_false_iff_ne.mpr hne]
          exact hl
        · exact hl
      constructor
      · intro e he hk v hl
        rcases mem_cons.mp he with rfl | he
        · have := hfirst hk
          rw [hkeep _ v hl] at this
          exact some.inj this
        · exact ihc e he hk v (hkeep _ v hl)
      · intro e he e' he' hk hk' hkey
        rcases mem_cons.mp he with rfl | hin
        · rcases mem_cons.mp he' with rfl | hin'
          · rfl
          · exact ihc e' hin' hk' e.value (by rw [← hkey]; exact hfirst hk)
        · rcases mem_cons.mp he' with rfl | hin'
          · exact (ihc e hin hk e'.value (by rw [hkey]; exact hfirst hk')).symm
          · exact ihe e hin e' hin' hk hk' hkey

/-- The owner of every unique put does not start like a prepared value, and the last entry on its
key is a put. -/
def OwnersSafe (entries : List Entry) : Prop :=
  ∀ e ∈ entries, e.kind = .uniquePut →
    e.value.head? ≠ some headerPrepared ∧ (lastOn e.key entries).map (·.kind) = some .uniquePut

theorem publish_eq_self {v : Bytes} : publish v = v ↔ v.head? ≠ some headerPrepared := by
  unfold publish
  constructor
  · intro h hp
    rw [if_pos (by simp [isPrepared, hp])] at h
    rw [← h, head?_cons, finalHeader] at hp
    revert hp
    split <;> decide
  · intro h
    rw [if_neg (by simpa [isPrepared] using h)]

theorem lastOn_row {indexOps : List WireOp} (hok : SliceOk entries indexOps) {e : Entry}
    (he : e ∈ entries) (hk : e.kind = .rowPrepared) (hp : (parseVersionKey e.key).isSome) :
    lastOn e.key entries = some e := by
  obtain ⟨e', hl⟩ := exists_lastOn he
  obtain ⟨he', hkey⟩ := lastOn_spec hl
  have hk' : e'.kind = .rowPrepared := by
    by_contra hne
    have := (hok.unique e' he' hne).parseVersionKey
    rw [hkey] at this
    rw [this] at hp
    cases hp
  have hinj := inj_on_of_nodup_map hok.rowKeys
  rw [hl, hinj (mem_filter.mpr ⟨he', by simpa using hk'⟩)
    (mem_filter.mpr ⟨he, by simpa using hk⟩) hkey]

/-- A slice that was accepted and then committed publishes its planned values exactly when its
unique owners are safe. -/
theorem publishes_iff (J : Serde) (env : VoteEnv) (store prepared : Store) (txnId : TxnId)
    (coordinator bind : Addr) (commitTs readTs now : Nat) (entries : List Entry)
    (segments : List PendingSegment) (indexOps : List WireOp) (hok : SliceOk entries indexOps)
    (hvote : vote J env store txnId coordinator commitTs readTs entries segments =
      .ok (.yes, prepared)) :
    Publishes entries (Participant.decide J now prepared txnId bind true indexOps).1 ↔
      OwnersSafe entries := by
  obtain ⟨hcheck, metas, hmetas, rfl⟩ := vote_eq_yes hvote
  have hget : ∀ e ∈ entries, ∀ l, lastOn e.key entries = some l →
      (Participant.decide J now (store.write (prepareOps J txnId
        ⟨coordinator, readTs, commitTs, env.now, entries.map (·.key) ++ metas.map (·.1)⟩
        entries metas (stagedMaxTs entries segments))) txnId bind true indexOps).1.get e.key =
        (stageEntry l).val.map publish := by
    intro e he l hl
    have hk := rowOrUniqueKey_of_entry hok.unique hcheck he
    have hops : ∀ op ∈ indexOps, op.1 ≠ e.key := by
      intro op hop heq
      exact SecondaryKey.not_rowOrUniqueKey (hok.ops op hop) (heq ▸ hk)
    rw [get_decide_commit hk.dataKey hops, get_prepare hmetas hk.dataKey, lastWrite_stageEntry, hl]
    · rfl
    · rw [stagedKeys_prepare]
      exact mem_append_left _ (mem_map_of_mem he)
  constructor
  · intro h e he hk
    obtain ⟨l, hl⟩ := exists_lastOn he
    obtain ⟨hlmem, hlkey⟩ := lastOn_spec hl
    have hafter := (h e he).2 hk
    rw [hget e he l hl] at hafter
    have huniq : UniqueKey e.key := hok.unique e he (by rw [hk]; decide)
    have hlk : l.kind = .uniquePut := by
      cases hlk : l.kind with
      | uniquePut => rfl
      | uniqueDel => simp [stageEntry, hlk] at hafter
      | rowPrepared =>
        have := parse_of_checkEntries hcheck hlmem hlk
        rw [hlkey, huniq.parseVersionKey] at this
        cases this
    have hval : l.value = e.value := (owners_agree hcheck).2 l hlmem e he hlk hk hlkey
    refine ⟨publish_eq_self.mp ?_, by rw [hl, map_some, hlk]⟩
    simpa [stageEntry, hlk, hval] using hafter
  · intro h e he
    refine ⟨fun hk v hv hval => ?_, fun hk => ?_⟩
    · have hl := lastOn_row hok he hk (parse_of_checkEntries hcheck he hk)
      rw [hget e he e hl]
      simp [stageEntry, hk, hval, publish_preparedValue hv]
    · obtain ⟨hhead, hlast⟩ := h e he hk
      obtain ⟨l, hl, hlk⟩ := map_eq_some_iff.mp hlast
      obtain ⟨hlmem, hlkey⟩ := lastOn_spec hl
      have hval : l.value = e.value := (owners_agree hcheck).2 l hlmem e he hlk hk hlkey
      rw [hget e he l hl]
      simp [stageEntry, hlk, hval, publish_eq_self.mpr hhead]

/-- The slice of an INSERT of a row with an INT primary key and a unique column. -/
def insertEntries : List Entry :=
  [⟨versionKey sampleGroup.1 7 samplePk 2, preparedValue sampleRow, .rowPrepared⟩,
   ⟨sampleUnique, samplePk, .uniquePut⟩]

def preparedInsert : Store := SortedMap.empty.write (prepareOps json sampleTxn
  ⟨utf8 "127.0.0.1:8080", 1, 2, 0, insertEntries.map (·.key)⟩ insertEntries [] 2)

theorem vote_insertEntries : vote json sampleEnv SortedMap.empty sampleTxn
    (utf8 "127.0.0.1:8080") 2 1 insertEntries [] = .ok (.yes, preparedInsert) := by
  decide +kernel

theorem rowValue_sampleRow : RowValue sampleRow := .inr ⟨sampleRow.tail, by decide, by decide⟩

theorem sliceOk_insertEntries : SliceOk insertEntries [] := by
  have h : ((insertEntries.filter (·.kind = .rowPrepared)).map (·.key)).Nodup ∧
      UniqueEntriesOk insertEntries := by decide +kernel
  refine ⟨fun e he hk => ?_, h.1, h.2, by simp⟩
  rcases mem_cons.mp he with rfl | he
  · exact ⟨sampleRow, rowValue_sampleRow, rfl⟩
  · cases mem_singleton.mp he
    cases hk

/-- The tag of an INT key is the prepared header: the commit rewrites the owner of the unique
value. -/
theorem commit_rewrites_unique_owner : SliceOk insertEntries [] ∧
    vote json sampleEnv SortedMap.empty sampleTxn (utf8 "127.0.0.1:8080") 2 1 insertEntries []
      = .ok (.yes, preparedInsert) ∧
    ¬ Publishes insertEntries (Participant.decide json 0 preparedInsert sampleTxn
      (utf8 "127.0.0.1:6379") true []).1 := by
  refine ⟨sliceOk_insertEntries, vote_insertEntries, fun h => ?_⟩
  have hget := (h ⟨sampleUnique, samplePk, .uniquePut⟩ (by simp [insertEntries])).2 rfl
  revert hget
  decide +kernel

theorem publishes_iff_insertEntries :
    Publishes insertEntries
      (Participant.decide json 0 preparedInsert sampleTxn (utf8 "127.0.0.1:6379") true []).1 ↔
      OwnersSafe insertEntries :=
  publishes_iff json sampleEnv empty preparedInsert sampleTxn
    (utf8 "127.0.0.1:8080") (utf8 "127.0.0.1:6379") 2 1 0 insertEntries [] []
    sliceOk_insertEntries vote_insertEntries

/-! ## A second delivery -/

/-- What a participant does between two deliveries of a decision. -/
inductive Event where
  | prepare (env : VoteEnv) (txnId : TxnId) (coordinator : Addr) (commitTs readTs : Nat)
      (entries : List Entry) (segments : List PendingSegment)
  | decide (now : Nat) (txnId : TxnId) (commit : Bool) (indexOps : List WireOp)
  /-- The one batch of a commit that needs no other node. -/
  | localCommit (ops : List WriteOp)

namespace Event

def apply (J : Serde) (bind : Addr) (store : Store) : Event → Store
  | prepare env txnId coordinator commitTs readTs entries segments =>
    match vote J env store txnId coordinator commitTs readTs entries segments with
    | .ok (_, after) => after
    | .error _ => store
  | decide now txnId commit indexOps =>
    (Participant.decide J now store txnId bind commit indexOps).1
  | localCommit ops => store.write ops

/-- The writes among which those of secondary-index entries are found. -/
def indexWrites : Event → List WriteOp
  | prepare .. => []
  | decide _ _ commit indexOps => if commit then indexOps.map applyOp else []
  | localCommit ops => ops

/-- The event is of a transaction other than `txnId`, with the keys the planner gives it. -/
def Other (txnId : TxnId) : Event → Prop
  | prepare _ id _ _ _ entries _ => id ≠ txnId ∧ UniqueEntriesOk entries
  | decide _ id _ indexOps => id ≠ txnId ∧ ∀ op ∈ indexOps, SecondaryKey op.1
  | localCommit ops => ∀ op ∈ ops, NoRecord op.key

end Event

theorem Event.apply_spec {bind : Addr} {txnId : TxnId} {e : Event} (hm : MarkersOk J store)
    (he : e.Other txnId) :
    MarkersOk J (e.apply J bind store) ∧
      (e.apply J bind store).get (markerKey txnId) = store.get (markerKey txnId) ∧
      ∀ k, SecondaryKey k →
        (e.apply J bind store).get k = (lastWrite k e.indexWrites).getD (store.get k) := by
  cases e with
  | prepare env id coordinator commitTs readTs entries segments =>
    obtain ⟨hid, hent⟩ := he
    simp only [Event.apply]
    cases hv : vote J env store id coordinator commitTs readTs entries segments with
    | error e => exact ⟨hm, rfl, fun _ _ => rfl⟩
    | ok r =>
      obtain ⟨v, after⟩ := r
      rcases vote_inv hv with ⟨reason, -, rfl⟩ | ⟨rfl, hcheck, metas, hmetas, hafter⟩
      · exact ⟨hm, rfl, fun _ _ => rfl⟩
      · have hrow := fun e he => rowOrUniqueKey_of_entry hent hcheck (e := e) he
        refine ⟨hm.vote hent hv, ?_, fun k hk => ?_⟩
        · rw [hafter, get_markerKey_prepare hrow hmetas, if_neg hid]
        · rw [hafter, get_prepare hmetas hk.dataKey, lastWrite_eq_none.mpr]
          · rfl
          · intro op hop
            obtain ⟨e, he, rfl⟩ := mem_map.mp hop
            rw [key_stageEntry]
            rintro rfl
            exact hk.not_rowOrUniqueKey (hrow e he)
  | decide now id commit indexOps =>
    obtain ⟨hid, hops⟩ := he
    have hdata : ∀ op ∈ indexOps, DataKey op.1 := fun op hop => (hops op hop).dataKey
    refine ⟨hm.decide hdata, ?_, fun k hk => ?_⟩
    · rw [Event.apply, get_markerKey_decide (hm id) hdata, if_neg hid]
    · have hkeys : ∀ k' ∈ stagedKeys J store id, k' ≠ k := by
        rintro k' hk' rfl
        exact hk.not_stagedKey (hm id k' hk')
      rw [Event.apply, get_decide hk.dataKey, Event.indexWrites, lastWrite_decideBody hkeys]
  | localCommit ops =>
    have hget : (store.write ops).get (markerKey txnId) = store.get (markerKey txnId) :=
      get_write_of_not_mem fun op hop => ((he op hop txnId).1).symm
    refine ⟨fun t k hk => ?_, hget, fun k _ => get_write store ops k⟩
    rw [Event.apply, stagedKeys_congr (t := store)
      (get_write_of_not_mem fun op hop => ((he op hop t).1).symm)] at hk
    exact hm t k hk

theorem foldl_apply_spec {bind : Addr} {txnId : TxnId} {events : List Event}
    (hm : MarkersOk J store) (he : ∀ e ∈ events, e.Other txnId) :
    (events.foldl (Event.apply J bind) store).get (markerKey txnId) = store.get (markerKey txnId) ∧
      ∀ k, SecondaryKey k → (events.foldl (Event.apply J bind) store).get k =
        (lastWrite k (events.flatMap (·.indexWrites))).getD (store.get k) := by
  induction events generalizing store with
  | nil => exact ⟨rfl, fun _ _ => rfl⟩
  | cons e es ih =>
    obtain ⟨hm', hmark, hsec⟩ := @Event.apply_spec J store bind txnId e hm (he e mem_cons_self)
    obtain ⟨ihmark, ihsec⟩ := ih hm' fun e' he' => he e' (mem_cons_of_mem _ he')
    refine ⟨ihmark.trans hmark, fun k hk => ?_⟩
    rw [foldl_cons, ihsec k hk, hsec k hk, flatMap_cons, lastWrite_append]
    cases lastWrite k (es.flatMap (·.indexWrites)) <;> rfl

def RowOrIndexKey (k : Bytes) : Prop :=
  (parseVersionKey k).isSome ∨ (parseIndexKey k).isSome

theorem RowOrIndexKey.dataKey (h : RowOrIndexKey k) : DataKey k := by
  rcases h with h | h
  · obtain ⟨v, hv⟩ := isSome_iff_exists.mp h
    exact dataKey_of_parseVersionKey hv
  · obtain ⟨ik, hik⟩ := isSome_iff_exists.mp h
    exact isSome_slotOfKey_of_parseIndexKey hik

theorem SecondaryKey.rowOrIndexKey (h : SecondaryKey k) : RowOrIndexKey k := by
  obtain ⟨ik, hik, -⟩ := (Option.any_eq_true _ _).mp h
  exact .inr (by rw [hik]; rfl)

def DeliveryInert (J : Serde) (store : Store) (txnId : TxnId) (bind : Addr)
    (indexOps : List WireOp) : Prop :=
  ∀ now k, RowOrIndexKey k →
    (Participant.decide J now store txnId bind true indexOps).1.get k = store.get k

/-- The store a second delivery of the commit finds. -/
def beforeRedelivery (J : Serde) (store : Store) (txnId : TxnId) (bind : Addr) (now : Nat)
    (indexOps : List WireOp) (events : List Event) : Store :=
  events.foldl (Event.apply J bind) (Participant.decide J now store txnId bind true indexOps).1

/-- A second delivery of a commit is inert exactly when no later transaction left, at a key of its
index writes, anything other than it left itself. -/
theorem redelivery_inert_iff (J : Serde) (store : Store) (txnId : TxnId) (bind : Addr) (now : Nat)
    (indexOps : List WireOp) (events : List Event) (hm : MarkersOk J store)
    (hops : ∀ op ∈ indexOps, SecondaryKey op.1) (hev : ∀ e ∈ events, e.Other txnId) :
    DeliveryInert J (beforeRedelivery J store txnId bind now indexOps events) txnId bind indexOps ↔
      ∀ op ∈ indexOps, lastWrite op.1 (events.flatMap (·.indexWrites)) = none ∨
        lastWrite op.1 (events.flatMap (·.indexWrites)) =
          lastWrite op.1 (indexOps.map applyOp) := by
  have hdata : ∀ op ∈ indexOps, DataKey op.1 := fun op hop => (hops op hop).dataKey
  have hm' : MarkersOk J (Participant.decide J now store txnId bind true indexOps).1 :=
    hm.decide hdata
  obtain ⟨hmark, hsec⟩ := @foldl_apply_spec J _ bind txnId events hm' hev
  have hgone : stagedKeys J (beforeRedelivery J store txnId bind now indexOps events) txnId = [] :=
    stagedKeys_of_get_none (by
      rw [beforeRedelivery, hmark, get_markerKey_decide (hm txnId) hdata, if_pos rfl])
  -- what the first delivery left at a key of its index writes
  have hfirst : ∀ op ∈ indexOps, ∃ r, lastWrite op.1 (indexOps.map applyOp) = some r ∧
      (Participant.decide J now store txnId bind true indexOps).1.get op.1 = r := by
    intro op hop
    cases hl : lastWrite op.1 (indexOps.map applyOp) with
    | none =>
      exact absurd (key_applyOp op) (lastWrite_eq_none.mp hl _ (mem_map_of_mem hop))
    | some r =>
      refine ⟨r, rfl, ?_⟩
      rw [get_decide (hdata op hop), lastWrite_decideBody, if_pos rfl, hl, getD_some]
      rintro k hk rfl
      exact (hops op hop).not_stagedKey (hm txnId _ hk)
  rw [← beforeRedelivery] at hsec
  generalize beforeRedelivery J store txnId bind now indexOps events = later at hsec hgone
  -- without a marker the second delivery only replays the index writes
  have hreplay : ∀ now k, DataKey k →
      (Participant.decide J now later txnId bind true indexOps).1.get k =
        (lastWrite k (indexOps.map applyOp)).getD (later.get k) := by
    intro now k hk
    rw [get_decide hk, hgone, lastWrite_decideBody (by simp), if_pos rfl]
  constructor
  · intro h op hop
    obtain ⟨r, hl, hget⟩ := hfirst op hop
    have heq := h 0 op.1 (SecondaryKey.rowOrIndexKey (hops op hop))
    rw [hreplay 0 op.1 (hdata op hop), hl, hsec op.1 (hops op hop), getD_some] at heq
    cases hw : lastWrite op.1 (events.flatMap (·.indexWrites)) with
    | none => exact .inl rfl
    | some w =>
      rw [hw, getD_some] at heq
      exact .inr (by rw [hl, heq])
  · intro h now k hk
    rw [hreplay now k hk.dataKey]
    cases hl : lastWrite k (indexOps.map applyOp) with
    | none => rfl
    | some r =>
      obtain ⟨w, hw, hkey, -⟩ := exists_of_lastWrite hl
      obtain ⟨op, hop, rfl⟩ := mem_map.mp hw
      rw [key_applyOp] at hkey
      subst hkey
      obtain ⟨r', hl', hget⟩ := hfirst op hop
      rw [hl] at hl'
      cases hl'
      rw [getD_some, hsec op.1 (hops op hop), hget]
      rcases h op hop with h | h
      · rw [h, getD_none]
      · rw [h, hl, getD_some]

def sampleIndex : Bytes := secondaryKey 7 1 (encodeKey (.str "a")) samplePk

/-- A later DELETE of the inserted row, on the same participant. -/
def laterDelete : List Event :=
  [.prepare sampleEnv (utf8 "ts3") (utf8 "127.0.0.1:8080") 3 2
    [⟨versionKey sampleGroup.1 7 samplePk 3, preparedValue encodeTombstone, .rowPrepared⟩,
     ⟨sampleUnique, samplePk, .uniqueDel⟩] [],
   .decide 0 (utf8 "ts3") true [(sampleIndex, none)]]

theorem markersOk_preparedInsert : MarkersOk json preparedInsert :=
  (markersOk_empty json).vote sliceOk_insertEntries.unique vote_insertEntries

theorem secondaryKey_sampleIndex : SecondaryKey sampleIndex := by decide +kernel

theorem other_laterDelete : ∀ e ∈ laterDelete, e.Other sampleTxn := by
  intro e he
  rcases mem_cons.mp he with rfl | he
  · show _ ∧ UniqueEntriesOk _
    decide +kernel
  · cases mem_singleton.mp he
    exact ⟨by decide, forall_mem_singleton.mpr secondaryKey_sampleIndex⟩

/-- The second delivery of the INSERT brings back the index entry that the DELETE removed. -/
theorem redelivery_restores_deleted_index_entry : MarkersOk json preparedInsert ∧
    (∀ op ∈ [(sampleIndex, some ([] : Bytes))], SecondaryKey op.1) ∧
    (∀ e ∈ laterDelete, e.Other sampleTxn) ∧
    ¬ DeliveryInert json (beforeRedelivery json preparedInsert sampleTxn
      (utf8 "127.0.0.1:6379") 0 [(sampleIndex, some [])] laterDelete) sampleTxn
      (utf8 "127.0.0.1:6379") [(sampleIndex, some [])] := by
  refine ⟨markersOk_preparedInsert, forall_mem_singleton.mpr secondaryKey_sampleIndex,
    other_laterDelete, fun h => ?_⟩
  have hget := h 0 sampleIndex (.inr secondaryKey_sampleIndex)
  revert hget
  decide +kernel

theorem redelivery_inert_iff_laterDelete :
    DeliveryInert json (beforeRedelivery json preparedInsert sampleTxn
      (utf8 "127.0.0.1:6379") 0 [(sampleIndex, some [])] laterDelete) sampleTxn
      (utf8 "127.0.0.1:6379") [(sampleIndex, some [])] ↔
      ∀ op ∈ [(sampleIndex, some ([] : Bytes))],
        lastWrite op.1 (laterDelete.flatMap (·.indexWrites)) = none ∨
        lastWrite op.1 (laterDelete.flatMap (·.indexWrites)) =
          lastWrite op.1 ([(sampleIndex, some ([] : Bytes))].map applyOp) :=
  redelivery_inert_iff json preparedInsert sampleTxn (utf8 "127.0.0.1:6379") 0
    [(sampleIndex, some [])] laterDelete markersOk_preparedInsert
    (forall_mem_singleton.mpr secondaryKey_sampleIndex) other_laterDelete

end Rdb.Dist
