import Rdb.Lite.Append

/-!
# Producing into a partition

A partition is a stream. A produce request reads the meta record under the stream's
latch, gives its records consecutive ids and writes them with the new length in one
batch. With acks 0 the batch is handed to a detached task and the latch released at
once, so the next request may read the meta record before the batch is in.

`produce_serialized`: as long as no request reads the meta record while a detached
batch is in flight, every record accepted is an entry of its own.
-/

namespace Rdb.Kafka.Produce

open Lib Lite List SortedMap Option Write

inductive ProduceError where
  | unknownServerError

/-- `n` ids from the arrival clock, each above the one before. -/
def autoIds (last : Option EntryId) (now : Nat) : Nat → Option (List EntryId)
  | 0 => some []
  | n + 1 => match autoId last now with
    | none => none
    | some id => (autoIds (some id) now n).map (id :: ·)

/-- The base offset, the entries and the batch of a request; its records come as field pairs. -/
def produceBatch (r : Records) (now : Nat) (s : Bytes) (records : List Fields) :
    Except ProduceError (Nat × List (EntryId × Fields) × List Write) :=
  let (m, fresh) := metaOrFresh r now s
  if records.isEmpty then .ok (m.len, [], [])
  else match autoIds (if fresh then none else some m.lastId) now records.length with
    | none => .error .unknownServerError
    | some ids =>
      let next := { m.withLast (ids.getLastD minId) with len := m.len + ids.length }
      match idleDeadline next now with
      | none => .error .unknownServerError
      | some expire =>
        let rows := ids.zip records
        .ok (m.len, rows, .head s ⟨next, expire⟩ :: rows.map fun e => .entry s (.put e.1 e.2))

/-! ## Requests and their batches -/

/-- A batch whose request holds the latch until it is written. -/
structure Pending where
  accepted : List Fields
  batch : List Write

/-- The partition's records, the batch the latch holder waits for, the detached batches, and the
records of every request accepted so far. -/
structure Partition where
  records : Records
  awaiting : Option Pending := none
  detached : List (List Write) := []
  accepted : List (List Fields) := []

inductive Action where
  /-- A request takes the latch, reads the meta record and builds its batch. -/
  | produce (fireAndForget : Bool) (now : Nat) (records : List Fields)
  | xadd (now : Nat) (nomkstream : Bool) (delayMs : Nat) (idArg : IdArg) (fields : Fields)
  /-- The batch of the latch holder is written, or refused by the store. -/
  | commit
  | fail
  /-- A detached batch is written. -/
  | land (i : Nat)

def produceStep (s : Bytes) (p : Partition) (fireAndForget : Bool) (now : Nat)
    (records : List Fields) : Partition :=
  let r := reap p.records now s
  match produceBatch r now s records with
  | .error _ => { p with records := r }
  | .ok (_, rows, batch) =>
    if rows.isEmpty then { p with records := r }
    else if fireAndForget then
      { p with records := r, detached := p.detached ++ [batch],
               accepted := p.accepted ++ [records] }
    else { p with records := r, awaiting := some ⟨records, batch⟩ }

def xaddStep (s : Bytes) (p : Partition) (now : Nat) (o : XaddOpts) (idArg : IdArg)
    (fields : Fields) : Partition :=
  let r := reap p.records now s
  match xaddBatch r now s o idArg fields with
  | .error _ | .ok none => { p with records := r }
  | .ok (some (id, batch)) =>
    { p with records := r, awaiting := some ⟨(appended o id fields).map (·.2), batch⟩ }

def step (s : Bytes) (p : Partition) : Action → Option Partition
  | .produce fireAndForget now records =>
    if p.awaiting.isSome then none else some (produceStep s p fireAndForget now records)
  | .xadd now nomkstream delayMs idArg fields =>
    if p.awaiting.isSome then none
    else some (xaddStep s p now { nomkstream, delayMs } idArg fields)
  | .commit => p.awaiting.map fun q =>
    { p with records := p.records.write q.batch, awaiting := none,
             accepted := p.accepted ++ [q.accepted] }
  | .fail => p.awaiting.map fun _ => { p with awaiting := none }
  | .land i => (p.detached[i]?).map fun batch =>
    { p with records := p.records.write batch, detached := p.detached.eraseIdx i }

/-- The meta record is read only when no detached batch is in flight. -/
def Clean (p : Partition) : Action → Prop
  | .produce .. | .xadd .. => p.detached = []
  | .commit | .fail | .land _ => True

instance decidableClean (p : Partition) (a : Action) : Decidable (Clean p a) := by
  cases a <;> dsimp only [Clean] <;> infer_instance

/-- Every record of every request is an entry of its own, in the order of its request. -/
def Placed (entries : SortedMap EntryId Fields) (accepted : List (List Fields)) : Prop :=
  ∃ ids : List (List EntryId), ids.flatten.Nodup ∧
    List.Forall₂ (fun records ids => ids.Pairwise (· < ·) ∧
      List.Forall₂ (fun fields id => entries.get id = some fields) records ids) accepted ids

/-! ## The account of one batch -/

variable {now : Nat}

theorem autoIds_spec {last : Option EntryId} {n : Nat} {ids : List EntryId}
    (h : autoIds last now n = some ids) :
    ids.length = n ∧ ids.Pairwise (· < ·) ∧ ∀ l ∈ last, ∀ id ∈ ids, l < id := by
  induction n generalizing last ids with
  | zero =>
    cases h
    exact ⟨rfl, .nil, nofun⟩
  | succ n ih =>
    unfold autoIds at h
    split at h
    · cases h
    · next id hid =>
      obtain ⟨rest, hrest, rfl⟩ := map_eq_some_iff.mp h
      obtain ⟨hlen, hsorted, habove⟩ := ih hrest
      refine ⟨by rw [length_cons, hlen], pairwise_cons.mpr ⟨habove id rfl, hsorted⟩, ?_⟩
      rintro l rfl id' hid'
      have hlt : l < id := lt_of_autoId hid
      rcases mem_cons.mp hid' with rfl | hid'
      · exact hlt
      · exact hlt.trans (habove id rfl id' hid')

variable {r : Records} {s : Bytes} {rows : List (EntryId × Fields)}

theorem produceBatch_accounts {records : List Fields} {base : Nat} {batch : List Write}
    (ht : Timeless r s) (h : produceBatch r now s records = .ok (base, rows, batch))
    (hrows : rows.isEmpty = false) :
    rows.map (·.2) = records ∧ ∃ next, Accounts r s batch next rows [] := by
  obtain ⟨hlen, hidle, hstored⟩ := metaOrFresh_spec now ht
  unfold produceBatch at h
  generalize metaOrFresh r now s = mf at h hlen hidle hstored
  obtain ⟨m, fresh⟩ := mf
  dsimp only at h hlen hidle
  split at h
  · cases h
    cases hrows
  split at h
  · cases h
  next ids hids =>
  obtain ⟨hcount, hsorted, habove⟩ := autoIds_spec hids
  rw [idleDeadline_of_idle (by exact hidle)] at h
  cases h
  have hkeys := map_fst_zip hcount.le
  have hids_ne : ids ≠ [] := by
    rintro rfl
    cases hrows
  have hlast : ids.getLast? = some (ids.getLastD minId) := by
    rw [getLastD_eq_getLast?, getLast?_eq_some_getLast hids_ne]
    rfl
  have hle : ∀ id ∈ ids, id ≤ ids.getLastD minId := by
    obtain ⟨init, hinit⟩ := getLast?_eq_some_iff.mp hlast
    intro id hid
    rw [hinit] at hsorted hid
    rcases mem_append.mp hid with hid | hid
    · exact ((pairwise_append.mp hsorted).2.2 id hid _ (mem_singleton.mpr rfl)).le
    · exact (mem_singleton.mp hid).le
  have habove' : ∀ m' ∈ r.metas s, ∀ id ∈ ids, m'.payload.lastId < id := by
    intro m' hm' id hid
    cases hstored m' hm'
    exact habove _ rfl id hid
  refine ⟨map_snd_zip hcount.ge,
    { m.withLast (ids.getLastD minId) with len := m.len + ids.length },
    ?_, hidle, ?_, ?_, ?_, ?_, ?_, .nil, nofun, ?_, ?_⟩
  · rw [filterMap_cons_some (toMeta_head s _), filterMap_map]
    exact congrArg _ (filterMap_eq_nil_iff.mpr fun _ _ => rfl)
  · rw [filterMap_cons_none rfl, filterMap_map, map_nil, append_nil, ← filterMap_eq_map]
    exact filterMap_congr fun e _ => toEntry_entry s _
  · rw [hkeys]
    exact hsorted
  · intro e he m' hm'
    exact habove' m' hm' e.1 (of_mem_zip he).1
  · intro e he
    exact hle e.1 (of_mem_zip he).1
  · intro m' hm'
    exact (habove' m' hm' _ (mem_of_getLast? hlast)).le
  · rw [← hlen, length_zip, ← hcount, Nat.min_self]
    rfl
  · intro s' hs'
    rw [filterMap_cons_none (toMeta_head_ne hs' _), filterMap_cons_none rfl,
      filterMap_map, filterMap_map]
    exact ⟨filterMap_eq_nil_iff.mpr fun _ _ => rfl,
      filterMap_eq_nil_iff.mpr fun _ _ => toEntry_entry_ne hs' _⟩

/-! ## Runs -/

theorem Placed.append {ws : List Write} {next : MetaPayload} {accepted : List (List Fields)}
    (hexact : Exact r s) (hws : Accounts r s ws next rows []) (h : Placed (r.entries s) accepted) :
    Placed ((r.write ws).entries s) (accepted ++ [rows.map (·.2)]) := by
  obtain ⟨ids, hnodup, hall⟩ := h
  have hkeep : ∀ id f, (r.entries s).get id = some f → ((r.write ws).entries s).get id = some f := by
    intro id f hf
    have hkey : id ∈ ((r.write ws).entries s).keys := by
      rw [hws.keys_eq, Finset.mem_sdiff, Finset.mem_union]
      exact ⟨.inl (SortedMap.mem_keys.mpr (by rw [hf]; rfl)), by simp⟩
    obtain ⟨f', hf'⟩ := isSome_iff_exists.mp (SortedMap.mem_keys.mp hkey)
    rw [hf', hws.get_eq hexact.last hf hf']
  -- the ids of earlier requests are stored, those of this one are not
  have hold : ∀ id ∈ ids.flatten, id ∈ (r.entries s).keys := by
    intro id hid
    obtain ⟨is, his, hid⟩ := mem_flatten.mp hid
    obtain ⟨fs, -, -, hfs⟩ := exists_of_forall₂_right hall his
    obtain ⟨f, -, hf⟩ := exists_of_forall₂_right hfs hid
    exact SortedMap.mem_keys.mpr (by rw [hf]; rfl)
  refine ⟨ids ++ [rows.map (·.1)], ?_, rel_append ?_ ?_⟩
  · rw [flatten_append, flatten_singleton, nodup_append']
    refine ⟨hnodup, hws.sorted.imp ne_of_lt, fun id hid hid' => ?_⟩
    obtain ⟨e, he, rfl⟩ := mem_map.mp hid'
    exact hws.not_mem_keys hexact.last he (hold e.1 hid)
  · exact hall.imp fun fs is h => ⟨h.1, h.2.imp fun f id => hkeep id f⟩
  · refine .cons ⟨hws.sorted, ?_⟩ .nil
    rw [forall₂_map_left_iff, forall₂_map_right_iff, forall₂_same]
    exact fun e he => hws.get_new he not_mem_nil

/-- The states of a clean run: no batch in flight, one the latch holder waits for, or one
detached. -/
inductive Serial (s : Bytes) : Partition → Prop where
  | idle {r accepted} (hexact : Exact r s) (ht : Timeless r s)
      (hplaced : Placed (r.entries s) accepted) : Serial s ⟨r, none, [], accepted⟩
  | awaiting {r accepted batch next rows} (hexact : Exact r s) (ht : Timeless r s)
      (hplaced : Placed (r.entries s) accepted) (hws : Accounts r s batch next rows []) :
      Serial s ⟨r, some ⟨rows.map (·.2), batch⟩, [], accepted⟩
  | detached {r accepted batch next rows} (hexact : Exact r s) (ht : Timeless r s)
      (hplaced : Placed (r.entries s) accepted) (hws : Accounts r s batch next rows []) :
      Serial s ⟨r, none, [batch], accepted ++ [rows.map (·.2)]⟩

theorem step_serial (s : Bytes) (p : Partition) (a : Action) (p' : Partition) (h : Serial s p)
    (hok : Clean p a) (hstep : step s p a = some p') : Serial s p' := by
  cases h with
  | @idle r accepted hexact ht hplaced =>
    cases a with
    | produce fireAndForget now records =>
      cases hstep
      unfold produceStep
      rw [reap_of_timeless ht]
      dsimp only
      split
      · exact .idle hexact ht hplaced
      · next base rows batch hbatch =>
        cases hrows : rows.isEmpty with
        | true => exact .idle hexact ht hplaced
        | false =>
          obtain ⟨rfl, next, hws⟩ := produceBatch_accounts ht hbatch hrows
          cases fireAndForget with
          | true => exact .detached hexact ht hplaced hws
          | false => exact .awaiting hexact ht hplaced hws
    | xadd now nomkstream delayMs idArg fields =>
      cases hstep
      unfold xaddStep
      rw [reap_of_timeless ht]
      dsimp only
      split
      · exact .idle hexact ht hplaced
      · exact .idle hexact ht hplaced
      · next id batch hbatch =>
        obtain ⟨next, victims, hws, -, hvict⟩ := xaddBatch_accounts hexact.last ht hbatch
        cases hvict rfl
        exact .awaiting hexact ht hplaced hws
    | commit | fail | land i => cases hstep
  | @awaiting r accepted batch next rows hexact ht hplaced hws =>
    cases a with
    | produce | xadd | land i => cases hstep
    | commit =>
      cases hstep
      exact .idle (hws.exact hexact) hws.timeless (hplaced.append hexact hws)
    | fail =>
      cases hstep
      exact .idle hexact ht hplaced
  | @detached r accepted batch next rows hexact ht hplaced hws =>
    cases a with
    | produce | xadd => cases hok
    | commit | fail => cases hstep
    | land i =>
      cases i with
      | zero =>
        cases hstep
        exact .idle (hws.exact hexact) hws.timeless (hplaced.append hexact hws)
      | succ i => cases hstep

theorem produce_serialized (s : Bytes) (r : Records) (hexact : Exact r s) (ht : Timeless r s)
    (actions : List Action) (p : Partition) (hrun : exec (step s) { records := r } actions = some p)
    (hclean : Guarded (step s) Clean { records := r } actions)
    (hawaiting : p.awaiting = none) (hdetached : p.detached = []) :
    Placed (p.records.entries s) p.accepted ∧
      (p.records.entries s).size = metaLen (p.records.metas s) := by
  have hinit : Serial s { records := r } := .idle hexact ht ⟨[], .nil, .nil⟩
  have hserial := exec_inv (step_serial s) hinit hclean hrun
  cases hserial with
  | idle hexact _ hplaced => exact ⟨hplaced, hexact.len⟩
  | awaiting => cases hawaiting
  | detached => cases hdetached

def sampleFields (b : UInt8) : Fields := [([118], [b])]

/-- Stream `t/q`: one request without acks and one with, in the same millisecond. -/
def sampleRequests : List Action :=
  [.produce true 5 [sampleFields 1], .produce false 5 [sampleFields 2], .commit, .land 0]

theorem produce_serialized_landed :
    ∃ p, exec (step [116, 47, 113]) { records := {} }
        [.produce true 5 [sampleFields 1], .land 0, .produce false 5 [sampleFields 2], .commit] =
        some p ∧
      Placed (p.records.entries [116, 47, 113]) p.accepted ∧
        (p.records.entries [116, 47, 113]).size = metaLen (p.records.metas [116, 47, 113]) := by
  refine exists_run (P := fun p => p.awaiting.isNone ∧ p.detached = []) (by decide +kernel)
    fun p hp hh => ?_
  exact produce_serialized _ {} ⟨rfl, by simp⟩ (by simp [Timeless]) _ p hp (by decide +kernel)
    (isNone_iff_eq_none.mp hh.1) hh.2

/-- Both requests read the meta record before the detached batch is in, get the same id, and the
batch written last overwrites the entry of the other. -/
theorem produce_overwrites :
    ¬ ∀ (actions : List Action) (p : Partition),
      exec (step [116, 47, 113]) { records := {} } actions = some p →
      p.awaiting = none → p.detached = [] →
      Placed (p.records.entries [116, 47, 113]) p.accepted ∧
        (p.records.entries [116, 47, 113]).size = metaLen (p.records.metas [116, 47, 113]) := by
  intro hall
  have h : (exec (step [116, 47, 113]) { records := {} } sampleRequests).map
      (fun p => decide (p.awaiting.isNone ∧ p.detached = [] ∧
        p.accepted = [[sampleFields 1], [sampleFields 2]] ∧
        (p.records.entries [116, 47, 113]).entries = [(⟨5, 0⟩, sampleFields 1)])) =
      some true := by decide +kernel
  obtain ⟨p, hp, hh⟩ := map_eq_some_iff.mp h
  obtain ⟨hawaiting, hdetached, haccepted, hentries⟩ := of_decide_eq_true hh
  obtain ⟨ids, -, hids⟩ := (hall _ p hp (isNone_iff_eq_none.mp hawaiting) hdetached).1
  rw [haccepted] at hids
  -- the second record is stored nowhere
  obtain ⟨is, -, -, his⟩ := exists_of_forall₂_right hids.flip (mem_cons_of_mem _ mem_cons_self)
  obtain ⟨id, -, hid⟩ := exists_of_forall₂_right his.flip mem_cons_self
  have hmem := get_eq_some.mp hid
  rw [hentries] at hmem
  simp [sampleFields] at hmem

end Rdb.Kafka.Produce
