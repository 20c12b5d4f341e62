import Rdb.Lite.Records

/-!
# Appending to a stream, and removing from it

XADD, XTRIM, XDEL and the exchange of delayed messages each write the meta record
and the entries in one batch, the length moved by what they counted before the
batch is applied. `Accounts` says what such a batch has to get right, `Exact` what
the meta record then says of the entries, and `Exact.accounts` that the one keeps
the other.
-/

namespace Rdb.Lite

open Lib List SortedMap
open Write (toMeta toEntry entry)

/-! ## Trimming -/

inductive TrimPlan where
  | maxLen (n : Nat)
  | minId (id : EntryId) (limit : Option Nat)

def entryIds (entries : SortedMap EntryId Fields) : List EntryId := entries.entries.map (·.1)

def atMost {α : Type} (limit : Option Nat) (ids : List α) : List α :=
  match limit with
  | some n => ids.take n
  | none => ids

def trimVictims (entries : SortedMap EntryId Fields) (plan : TrimPlan) (liveLen : Nat)
    (newEntry : Option EntryId) : List EntryId :=
  match plan with
  | .maxLen n =>
    let trim := liveLen - n
    let victims := (entryIds entries).take trim
    victims ++ newEntry.toList.filter fun _ => victims.length < trim
  | .minId minid limit =>
    let victims := atMost limit ((entryIds entries).takeWhile (· < minid))
    victims ++ newEntry.toList.filter fun id =>
      id < minid && limit.all fun n => victims.length < n

/-! ## XADD -/

structure XaddOpts where
  nomkstream : Bool := false
  delayMs : Nat := 0
  trim : Option TrimPlan := none

inductive IdArg where
  | auto
  | explicit (id : EntryId)
  | malformed

inductive AppendError where
  | ledgerGuarded
  | invalidId
  | tooSmall
  | exhausted
  | idleOverflow
  | delayOverflow

def AppendError.text (stream : String) : AppendError → String
  | .ledgerGuarded => s!"ERR stream {stream} has committed consumer-group offsets; " ++
      "destroy the owning consumer groups (XGROUP DESTROY) first"
  | .invalidId => "ERR Invalid stream ID specified as stream command argument"
  | .tooSmall =>
    "ERR The ID specified in XADD is equal or smaller than the stream last item's id"
  | .exhausted =>
    "ERR The stream has exhausted the last possible ID, unable to add more items"
  | .idleOverflow => "ERR ID or idle deadline overflow"
  | .delayOverflow => "ERR delay deadline overflow"

/-- The meta record an append starts from, and whether the stream is new. -/
def metaOrFresh (r : Records) (now : Nat) (s : Bytes) : MetaPayload × Bool :=
  match readMeta r now s with
  | .live m => (m, false)
  | .purged | .missing => ({ createdMs := now }, true)

def MetaPayload.withLast (m : MetaPayload) (id : EntryId) : MetaPayload :=
  { m with lastMs := id.ms, lastSeq := id.seq }

def checkedAdd (a b : Nat) : Option Nat := if a + b ≤ u64Max then some (a + b) else none

/-- The deadline an append arms; `none` when it does not fit 64 bits. -/
def idleDeadline (m : MetaPayload) (now : Nat) : Option Nat :=
  if m.idleMs = 0 then some 0 else checkedAdd (max now m.lastMs) m.idleMs

def xaddId (fresh : Bool) (m : MetaPayload) (now : Nat) : IdArg → Except AppendError EntryId
  | .auto => match autoId (if fresh then none else some m.lastId) now with
    | none => .error .exhausted
    | some id => .ok id
  | .malformed => .error .invalidId
  | .explicit id => if !fresh && id ≤ m.lastId then .error .tooSmall else .ok id

/-- The slot of a stream is that of its parent. -/
def streamSlot (s : Bytes) : Nat := (slotWithPrefix ((splitSlash s).elim s (·.1))).1

def messageRow (s : Bytes) (now delayMs : Nat) (id : EntryId) (fields : Fields) :
    Except AppendError Write :=
  if delayMs = 0 then .ok (.entry s (.put id fields))
  else match checkedAdd now delayMs with
    | none => .error .delayOverflow
    | some due => .ok (.delay (.put ⟨streamSlot s, due, s, id⟩ fields))

def victimsOf (r : Records) (s : Bytes) (o : XaddOpts) (liveLen : Nat) (id : EntryId) :
    List EntryId :=
  match o.trim with
  | none => []
  | some plan =>
    trimVictims (r.entries s) plan liveLen (if o.delayMs = 0 then some id else none)

/-- The length with the message in it; a staged row does not count. -/
def postLen (o : XaddOpts) (m : MetaPayload) : Nat := if o.delayMs = 0 then m.len + 1 else m.len

def xaddBatch (r : Records) (now : Nat) (s : Bytes) (o : XaddOpts) (idArg : IdArg)
    (fields : Fields) : Except AppendError (Option (EntryId × List Write)) := do
  if o.trim.isSome && r.ledger s then throw .ledgerGuarded
  let (m, fresh) := metaOrFresh r now s
  if fresh && o.nomkstream then return none
  let id ← xaddId fresh m now idArg
  let victims := victimsOf r s o (postLen o m) id
  let next := { m.withLast id with len := postLen o m - victims.length }
  let expire ← (idleDeadline next now).elim (throw .idleOverflow) pure
  let row ← messageRow s now o.delayMs id fields
  return some (id, .head s ⟨next, expire⟩ :: row :: victims.map fun id => .entry s (.del id))

/-! ## XTRIM, XDEL and the exchange -/

def currentExpire (r : Records) (s : Bytes) : Nat := (r.metas s).elim 0 (·.expire)

def xtrimBatch (r : Records) (now : Nat) (s : Bytes) (plan : TrimPlan) :
    Except AppendError (List EntryId × List Write) :=
  if r.ledger s then .error .ledgerGuarded
  else match (readMeta r now s).live? with
    | none => .ok ([], [])
    | some m =>
      let victims := trimVictims (r.entries s) plan m.len none
      .ok (victims, victims.map (fun id => .entry s (.del id)) ++
        [.head s ⟨{ m with len := m.len - victims.length }, currentExpire r s⟩])

/-- Repeated ids count once: the ids are sorted and neighbours dropped. -/
def xdelBatch (r : Records) (now : Nat) (s : Bytes) (ids : List EntryId) :
    Except AppendError (List EntryId × List Write) :=
  if r.ledger s then .error .ledgerGuarded
  else match (readMeta r now s).live? with
    | none => .ok ([], [])
    | some m =>
      let found := (ids.mergeSort (· ≤ ·)).dedup.filter fun id => ((r.entries s).get id).isSome
      .ok (found, found.map (fun id => .entry s (.del id)) ++
        if found.isEmpty then []
        else [.head s ⟨{ m with len := m.len - found.length }, currentExpire r s⟩])

abbrev DueRow := DelayKey × Fields

/-- Fresh ids for the rows, in their order, as long as there are any. -/
def allotIds {α : Type} (last : EntryId) (now : Nat) : List α → List (EntryId × α)
  | [] => []
  | a :: as => match autoId (some last) now with
    | none => []
    | some id => (id, a) :: allotIds id now as

def exchangeRows (s : Bytes) (got : List (EntryId × DueRow)) : List Write :=
  got.flatMap fun e => [.entry s (.put e.1 e.2.2), .delay (.del e.2.1)]

def dropRows (rows : List DueRow) : List Write := rows.map fun row => .delay (.del row.1)

def exchangeBatch (r : Records) (now : Nat) (s : Bytes) (rows : List DueRow) : List Write :=
  match streamPrefix s, (readMeta r now s).live? with
  | some _, some m =>
    let got := allotIds m.lastId now rows
    match got.getLast? with
    | none => []
    | some (last, _) =>
      let next := { m.withLast last with len := m.len + got.length }
      match idleDeadline next now with
      | none => []
      | some expire => exchangeRows s got ++ [.head s ⟨next, expire⟩]
  | _, _ => dropRows rows

/-! ## What the meta record says of the entries -/

def metaLen (m : Option MetaRecord) : Nat := m.elim 0 (·.payload.len)

/-- The last id of the meta record bounds the ids of the entries. -/
def Bounded (r : Records) (s : Bytes) : Prop :=
  ∀ id ∈ (r.entries s).keys, ∃ m ∈ r.metas s, id ≤ m.payload.lastId

instance (r : Records) (s : Bytes) : Decidable (Bounded r s) :=
  decidable_of_iff (∀ id ∈ (r.entries s).keys, (r.metas s).any fun m => id ≤ m.payload.lastId)
    (forall₂_congr fun id _ => by simp [Option.any_eq_true])

/-- The meta record counts the entries and bounds their ids. -/
structure Exact (r : Records) (s : Bytes) : Prop where
  len : (r.entries s).size = metaLen (r.metas s)
  last : ∀ id ∈ (r.entries s).keys, ∃ m ∈ r.metas s, id ≤ m.payload.lastId

/-- No deadline is set on the stream. -/
def Timeless (r : Records) (s : Bytes) : Prop :=
  ∀ m ∈ r.metas s, m.payload.idleMs = 0 ∧ m.expire = 0

/-- What a batch that appends `new` and removes `victims` has to write. -/
structure Accounts (r : Records) (s : Bytes) (ws : List Write) (next : MetaPayload)
    (new : List (EntryId × Fields)) (victims : List EntryId) : Prop where
  head : ws.filterMap (toMeta s) = [⟨next, 0⟩]
  idle : next.idleMs = 0
  rows : ws.filterMap (toEntry s) = new.map (fun e => .put e.1 e.2) ++ victims.map .del
  sorted : (new.map (·.1)).Pairwise (· < ·)
  above : ∀ e ∈ new, ∀ m ∈ r.metas s, m.payload.lastId < e.1
  last : ∀ e ∈ new, e.1 ≤ next.lastId
  grows : ∀ m ∈ r.metas s, m.payload.lastId ≤ next.lastId
  nodup : victims.Nodup
  stored : ∀ id ∈ victims, id ∈ (r.entries s).keys ∨ id ∈ new.map (·.1)
  len : next.len = metaLen (r.metas s) + new.length - victims.length
  only : ∀ s', s' ≠ s → ws.filterMap (toMeta s') = [] ∧ ws.filterMap (toEntry s') = []

variable {id : EntryId}

namespace Accounts

variable {r : Records} {s : Bytes} {ws : List Write} {next : MetaPayload}
  {new : List (EntryId × Fields)} {victims : List EntryId}

theorem metas_eq (h : Accounts r s ws next new victims) :
    (r.write ws).metas s = some ⟨next, 0⟩ := by
  rw [Records.metas_write, h.head]
  rfl

theorem keys_eq (h : Accounts r s ws next new victims) : ((r.write ws).entries s).keys =
    ((r.entries s).keys ∪ (new.map (·.1)).toFinset) \ victims.toFinset := by
  rw [Records.entries_write, h.rows, write_append, keys_write_del, keys_write_put]

variable {e : EntryId × Fields}

variable (h : Accounts r s ws next new victims)
include h

theorem not_mem_keys (hbound : Bounded r s) (he : e ∈ new) : e.1 ∉ (r.entries s).keys := by
  intro hk
  obtain ⟨m, hm, hle⟩ := hbound _ hk
  exact absurd (h.above e he m hm) (not_lt.mpr hle)

theorem bounded (hbound : Bounded r s) : Bounded (r.write ws) s := by
  intro id hid
  rw [h.keys_eq, Finset.mem_sdiff, Finset.mem_union] at hid
  refine ⟨⟨next, 0⟩, h.metas_eq, ?_⟩
  rcases hid.1 with hid | hid
  · obtain ⟨m, hm, hle⟩ := hbound id hid
    exact hle.trans (h.grows m hm)
  · obtain ⟨e, he, rfl⟩ := mem_map.mp (mem_toFinset.mp hid)
    exact h.last e he

theorem exact (hexact : Exact r s) : Exact (r.write ws) s := by
  have hdisj : Disjoint (r.entries s).keys (new.map (·.1)).toFinset := by
    rw [Finset.disjoint_right]
    intro id hid
    obtain ⟨e, he, rfl⟩ := mem_map.mp (mem_toFinset.mp hid)
    exact h.not_mem_keys hexact.last he
  have hsub : victims.toFinset ⊆ (r.entries s).keys ∪ (new.map (·.1)).toFinset := by
    intro id hid
    rw [Finset.mem_union, mem_toFinset]
    exact h.stored id (mem_toFinset.mp hid)
  have hnew : (new.map (·.1)).toFinset.card = new.length := by
    rw [toFinset_card_of_nodup (h.sorted.imp ne_of_lt), length_map]
  refine ⟨?_, h.bounded hexact.last⟩
  rw [size_eq_card, h.keys_eq, Finset.card_sdiff_of_subset hsub,
    Finset.card_union_of_disjoint hdisj, hnew, toFinset_card_of_nodup h.nodup, ← size_eq_card,
    hexact.len, h.metas_eq]
  exact h.len.symm

theorem timeless : Timeless (r.write ws) s := by
  intro m hm
  rw [h.metas_eq] at hm
  cases hm
  exact ⟨h.idle, rfl⟩

theorem timeless_of_timeless {t : Bytes} (ht : Timeless r t) : Timeless (r.write ws) t := by
  by_cases hst : t = s
  · subst hst
    exact h.timeless
  · intro m hm
    rw [Records.metas_write, (h.only t hst).1] at hm
    exact ht m hm

omit h

variable {f : Fields}

variable (h : Accounts r s ws next new victims)
include h

theorem get_eq (hbound : Bounded r s) {f' : Fields} (hf : (r.entries s).get id = some f)
    (hf' : ((r.write ws).entries s).get id = some f') : f' = f := by
  have hmem : id ∈ (r.entries s).keys := SortedMap.mem_keys.mpr (by rw [hf]; rfl)
  have hnew : ∀ op ∈ new.map (fun e => BatchOp.put e.1 e.2), op.key ≠ id := by
    intro op hop
    obtain ⟨e, he, rfl⟩ := mem_map.mp hop
    rintro rfl
    exact h.not_mem_keys hbound he hmem
  rw [Records.entries_write, h.rows, write_append, get_write,
    get_write_of_not_mem hnew, lastWrite_map_del, hf] at hf'
  split at hf'
  · cases hf'
  · cases hf'
    rfl

theorem get_stored (hbound : Bounded r s) (hv : victims = []) (hf : (r.entries s).get id = some f) :
    ((r.write ws).entries s).get id = some f := by
  have hkey : id ∈ ((r.write ws).entries s).keys := by
    rw [h.keys_eq, hv]
    have : id ∈ (r.entries s).keys := SortedMap.mem_keys.mpr (by rw [hf]; rfl)
    simp [this]
  obtain ⟨f', hf'⟩ := Option.isSome_iff_exists.mp (SortedMap.mem_keys.mp hkey)
  rw [hf', h.get_eq hbound hf hf']

theorem get_new (he : e ∈ new) (hv : e.1 ∉ victims) :
    ((r.write ws).entries s).get e.1 = some e.2 := by
  have hlast : lastWrite e.1 (new.map fun e => BatchOp.put e.1 e.2) = some (some e.2) := by
    refine lastWrite_of_forall (mem_map_of_mem he) rfl ?_
    intro op hop hk
    obtain ⟨e', he', rfl⟩ := mem_map.mp hop
    have hnodup : (new.map (·.1)).Nodup := h.sorted.imp ne_of_lt
    have : e' = e := inj_on_of_nodup_map hnodup he' he hk
    rw [this]
    rfl
  rw [Records.entries_write, h.rows, write_append, get_write,
    lastWrite_map_del, if_neg hv, get_write, hlast]
  rfl

end Accounts

/-! ## The batches keep the account -/

section

variable {r : Records} {now : Nat} {s : Bytes}

theorem readMeta_of_timeless (ht : Timeless r s) :
    readMeta r now s = (r.metas s).elim .missing fun m => .live m.payload := by
  unfold readMeta
  cases hm : r.metas s with
  | none => rfl
  | some m =>
    have hnone : isExpired m.expire now = false := by simp [isExpired, (ht m hm).2]
    simp [hnone]

theorem readMeta_ne_purged (ht : Timeless r s) : readMeta r now s ≠ .purged := by
  rw [readMeta_of_timeless ht]
  intro hm
  cases h : r.metas s with
  | none | some m =>
    rw [h] at hm
    cases hm

theorem reap_of_timeless (ht : Timeless r s) : reap r now s = r := by
  rw [reap, readMeta_of_timeless ht]
  cases r.metas s <;> rfl

theorem live?_of_timeless (ht : Timeless r s) :
    (readMeta r now s).live? = (r.metas s).map (·.payload) := by
  rw [readMeta_of_timeless ht]
  cases r.metas s <;> rfl

theorem metaOrFresh_spec (now : Nat) (ht : Timeless r s) :
    (metaOrFresh r now s).1.len = metaLen (r.metas s) ∧
      (metaOrFresh r now s).1.idleMs = 0 ∧
      ∀ m ∈ r.metas s, metaOrFresh r now s = (m.payload, false) := by
  unfold metaOrFresh
  rw [readMeta_of_timeless ht]
  cases hm : r.metas s with
  | none => exact ⟨rfl, rfl, nofun⟩
  | some m => exact ⟨rfl, (ht m hm).1, fun _ h => by cases h; rfl⟩

variable {m : MetaPayload}

theorem idleDeadline_of_idle (h : m.idleMs = 0) : idleDeadline m now = some 0 := if_pos h

variable {idArg : IdArg}

theorem lt_of_xaddId (h : xaddId false m now idArg = .ok id) : m.lastId < id := by
  cases idArg with
  | auto =>
    simp only [xaddId] at h
    split at h
    · cases h
    · next id' hid =>
      cases h
      exact lt_of_autoId hid
  | malformed => cases h
  | explicit id' =>
    simp only [xaddId, Bool.not_false, Bool.true_and, decide_eq_true_eq] at h
    split at h
    · cases h
    · next hlt =>
      cases h
      exact not_le.mp hlt

theorem atMost_sublist {α : Type} (limit : Option Nat) (ids : List α) :
    (atMost limit ids).Sublist ids := by
  cases limit with
  | none => exact .refl _
  | some n => exact take_sublist n ids

theorem mem_entryIds {entries : SortedMap EntryId Fields} :
    id ∈ entryIds entries ↔ id ∈ entries.keys := mem_toFinset.symm

theorem trimVictims_spec (entries : SortedMap EntryId Fields) (plan : TrimPlan) (liveLen : Nat)
    (newEntry : Option EntryId) (hnew : ∀ id ∈ newEntry, id ∉ entries.keys) :
    (trimVictims entries plan liveLen newEntry).Nodup ∧
      ∀ id ∈ trimVictims entries plan liveLen newEntry, id ∈ entries.keys ∨ newEntry = some id := by
  -- both plans take some of the stored ids, in order, and maybe the new one
  obtain ⟨victims, p, hsub, heq⟩ : ∃ victims p, victims.Sublist (entryIds entries) ∧
      trimVictims entries plan liveLen newEntry = victims ++ newEntry.toList.filter p := by
    cases plan with
    | maxLen n => exact ⟨_, _, take_sublist _ _, rfl⟩
    | minId id limit =>
      exact ⟨_, _, (atMost_sublist _ _).trans (takeWhile_sublist _), rfl⟩
  rw [heq]
  constructor
  · refine nodup_append'.mpr ⟨hsub.nodup entries.nodup_keys, ?_, ?_⟩
    · exact filter_sublist.nodup (by cases newEntry <;> simp)
    · intro id hid hid'
      have hmem := (mem_filter.mp hid').1
      exact hnew id (Option.mem_toList.mp hmem) (mem_entryIds.mp (hsub.subset hid))
  · intro id hid
    rcases mem_append.mp hid with hid | hid
    · exact .inl (mem_entryIds.mp (hsub.subset hid))
    · exact .inr (Option.mem_toList.mp (mem_filter.mp hid).1)

variable {o : XaddOpts} {fields : Fields} {ws : List Write}

theorem xaddBatch_ok (h : xaddBatch r now s o idArg fields = .ok (some (id, ws))) :
    ∃ m fresh victims next expire row, metaOrFresh r now s = (m, fresh) ∧
      xaddId fresh m now idArg = .ok id ∧ victims = victimsOf r s o (postLen o m) id ∧
      next = { m.withLast id with len := postLen o m - victims.length } ∧
      idleDeadline next now = some expire ∧ messageRow s now o.delayMs id fields = .ok row ∧
      ws = .head s ⟨next, expire⟩ :: row :: victims.map fun id => .entry s (.del id) := by
  simp only [xaddBatch, bind, Except.bind] at h
  split at h
  · cases h
  split at h
  · cases h
  cases hid : xaddId (metaOrFresh r now s).2 (metaOrFresh r now s).1 now idArg with
  | error e => rw [hid] at h; cases h
  | ok id' =>
    rw [hid] at h
    dsimp only at h
    generalize hnext : ({ (metaOrFresh r now s).1.withLast id' with
        len := _ } : MetaPayload) = next at h
    cases hexp : idleDeadline next now with
    | none => rw [hexp] at h; cases h
    | some expire =>
      rw [hexp] at h
      cases hrow : messageRow s now o.delayMs id' fields with
      | error e => rw [hrow] at h; cases h
      | ok row =>
        rw [hrow] at h
        cases h
        exact ⟨_, _, _, next, expire, row, rfl, hid, rfl, hnext.symm, hexp, hrow, rfl⟩

def appended (o : XaddOpts) (id : EntryId) (fields : Fields) : List (EntryId × Fields) :=
  if o.delayMs = 0 then [(id, fields)] else []

variable {row : Write}

theorem messageRow_ok (h : messageRow s now o.delayMs id fields = .ok row) :
    (∀ s', row.toMeta s' = none) ∧ (∀ s', s' ≠ s → row.toEntry s' = none) ∧
      (row.toEntry s).toList = (appended o id fields).map fun e => .put e.1 e.2 := by
  unfold messageRow at h
  unfold appended
  split at h
  · next hd =>
    cases h
    rw [if_pos hd]
    exact ⟨fun _ => rfl, fun s' hs' => if_neg (Ne.symm hs'), by simp [toEntry]⟩
  · next hd =>
    rw [if_neg hd]
    split at h
    · cases h
    · cases h
      exact ⟨fun _ => rfl, fun _ _ => rfl, rfl⟩

theorem filterMap_toMeta_del (s s' : Bytes) (ids : List EntryId) :
    (ids.map fun id => entry s (.del id)).filterMap (toMeta s') = [] := by
  rw [filterMap_map]
  exact filterMap_eq_nil_iff.mpr fun _ _ => rfl

theorem filterMap_toEntry_del (s : Bytes) (ids : List EntryId) :
    (ids.map fun id => entry s (.del id)).filterMap (toEntry s) = ids.map .del := by
  rw [filterMap_map, ← filterMap_eq_map]
  exact filterMap_congr fun _ _ => Write.toEntry_entry s _

variable {s s' : Bytes}

theorem filterMap_toEntry_del_ne (h : s' ≠ s) (ids : List EntryId) :
    (ids.map fun id => entry s (.del id)).filterMap (toEntry s') = [] := by
  rw [filterMap_map]
  exact filterMap_eq_nil_iff.mpr fun _ _ => Write.toEntry_entry_ne h _

theorem xaddBatch_spec (ht : Timeless r s)
    (h : xaddBatch r now s o idArg fields = .ok (some (id, ws))) :
    ∃ victims next row, victims = victimsOf r s o (postLen o (metaOrFresh r now s).1) id ∧
      next.len = postLen o (metaOrFresh r now s).1 - victims.length ∧ next.idleMs = 0 ∧
      next.lastId = id ∧ (∀ m ∈ r.metas s, m.payload.lastId < id) ∧
      messageRow s now o.delayMs id fields = .ok row ∧
      ws = .head s ⟨next, 0⟩ :: row :: victims.map (fun id => .entry s (.del id)) ∧
      ∀ t, ws.filterMap (toMeta t) = if t = s then [⟨next, 0⟩] else [] := by
  obtain ⟨m, fresh, victims, next, expire, row, hm, hid, hvict, hnext, hexp, hrow, rfl⟩ :=
    xaddBatch_ok h
  obtain ⟨-, hidle, hstored⟩ := metaOrFresh_spec now ht
  rw [hm] at hidle hstored ⊢
  have hnidle : next.idleMs = 0 := by rw [hnext]; exact hidle
  rw [idleDeadline_of_idle hnidle] at hexp
  cases hexp
  refine ⟨victims, next, row, hvict, by rw [hnext], hnidle, by rw [hnext]; rfl, fun m' hm' => ?_,
    hrow, rfl, fun t => ?_⟩
  · cases hstored m' hm'
    exact lt_of_xaddId hid
  · have hrest := (messageRow_ok hrow).1 t
    by_cases hts : t = s
    · rw [if_pos hts, hts, filterMap_cons_some (Write.toMeta_head s _),
        filterMap_cons_none (hts ▸ hrest), filterMap_toMeta_del]
    · rw [if_neg hts, filterMap_cons_none (Write.toMeta_head_ne hts _),
        filterMap_cons_none hrest, filterMap_toMeta_del]

theorem xaddBatch_accounts (hbound : Bounded r s) (ht : Timeless r s)
    (h : xaddBatch r now s o idArg fields = .ok (some (id, ws))) :
    ∃ next victims, Accounts r s ws next (appended o id fields) victims ∧ next.lastId = id ∧
      (o.trim = none → victims = []) := by
  obtain ⟨victims, next, row, hvict, hnext, hnidle, hlast, habove, hrow, rfl, hheads⟩ :=
    xaddBatch_spec ht h
  have hnew : id ∉ (r.entries s).keys := fun hk => by
    obtain ⟨m', hm', hle⟩ := hbound id hk
    exact absurd (habove m' hm') (not_lt.mpr hle)
  have hspec : victims.Nodup ∧
      ∀ v ∈ victims, v ∈ (r.entries s).keys ∨ v ∈ (appended o id fields).map (·.1) := by
    rw [hvict]
    unfold victimsOf
    split
    · simp
    · refine (trimVictims_spec _ _ _ _ ?_).imp_right fun hv v hmem => (hv v hmem).imp_right ?_
      · split
        · rintro _ ⟨⟩; exact hnew
        · nofun
      · unfold appended
        split
        · rintro ⟨⟩; simp
        · nofun
  obtain ⟨-, hrowOther, hrowEntry⟩ := messageRow_ok hrow
  have hentries : ∀ ws' : List Write, (row :: ws').filterMap (toEntry s) =
      (row.toEntry s).toList ++ ws'.filterMap (toEntry s) := by
    intro ws'
    rw [filterMap_cons]
    cases row.toEntry s <;> rfl
  refine ⟨next, victims, ⟨(hheads s).trans (if_pos rfl), hnidle, ?_, ?_, ?_, ?_, ?_, hspec.1,
    hspec.2, ?_, fun s' hs' => ⟨(hheads s').trans (if_neg hs'), ?_⟩⟩, hlast, ?_⟩
  · rw [filterMap_cons_none rfl, hentries, hrowEntry, filterMap_toEntry_del]
  · unfold appended
    split <;> simp
  · intro e he m' hm'
    unfold appended at he
    split at he
    · cases mem_singleton.mp he
      exact habove m' hm'
    · cases he
  · intro e he
    unfold appended at he
    split at he
    · cases mem_singleton.mp he
      exact hlast.ge
    · cases he
  · intro m' hm'
    rw [hlast]
    exact (habove m' hm').le
  · rw [hnext, ← (metaOrFresh_spec now ht).1]
    unfold postLen appended
    split <;> rfl
  · rw [filterMap_cons_none rfl, filterMap_cons_none (hrowOther s' hs'),
      filterMap_toEntry_del_ne hs']
  · intro hno
    rw [hvict]
    unfold victimsOf
    rw [hno]

variable {victims : List EntryId}

theorem accounts_of_removal {m : MetaRecord} (hm : r.metas s = some m) (ht : Timeless r s)
    (hnodup : victims.Nodup) (hstored : ∀ id ∈ victims, id ∈ (r.entries s).keys)
    (hws : ws = victims.map (fun id => .entry s (.del id)) ++
      [.head s ⟨{ m.payload with len := m.payload.len - victims.length }, currentExpire r s⟩]) :
    Accounts r s ws { m.payload with len := m.payload.len - victims.length } [] victims := by
  have hexpire : currentExpire r s = 0 := by
    rw [currentExpire, hm]
    exact (ht m hm).2
  subst hws
  rw [hexpire]
  refine ⟨?_, (ht m hm).1, ?_, .nil, nofun, nofun, ?_, hnodup, fun id h => .inl (hstored id h), ?_, ?_⟩
  · rw [filterMap_append, filterMap_toMeta_del]
    simp
  · rw [filterMap_append, filterMap_toEntry_del]
    simp [toEntry]
  · intro m' hm'
    rw [hm] at hm'
    cases hm'
    exact le_rfl
  · rw [hm]
    rfl
  · intro s' hs'
    rw [filterMap_append, filterMap_append, filterMap_toMeta_del, filterMap_toEntry_del_ne hs']
    simp [Write.toMeta_head_ne hs', toEntry]

variable {plan : TrimPlan}

theorem xtrimBatch_accounts (ht : Timeless r s) (h : xtrimBatch r now s plan = .ok (victims, ws)) :
    ws = [] ∨ ∃ next, Accounts r s ws next [] victims := by
  unfold xtrimBatch at h
  split at h
  · cases h
  rw [live?_of_timeless ht] at h
  cases hm : r.metas s with
  | none =>
    rw [hm] at h
    cases h
    exact .inl rfl
  | some m =>
    rw [hm] at h
    cases h
    have hspec := trimVictims_spec (r.entries s) plan m.payload.len none nofun
    exact .inr ⟨_, accounts_of_removal hm ht hspec.1
      (fun id hid => (hspec.2 id hid).resolve_right nofun) rfl⟩

variable {ids found : List EntryId}

theorem xdelBatch_accounts (ht : Timeless r s) (h : xdelBatch r now s ids = .ok (found, ws)) :
    ws = [] ∨ ∃ next, Accounts r s ws next [] found := by
  unfold xdelBatch at h
  split at h
  · cases h
  rw [live?_of_timeless ht] at h
  cases hm : r.metas s with
  | none =>
    rw [hm] at h
    cases h
    exact .inl rfl
  | some m =>
    rw [hm] at h
    generalize hfound : (ids.mergeSort (· ≤ ·)).dedup.filter
      (fun id => ((r.entries s).get id).isSome) = found' at h
    cases h
    split
    · next hnil =>
      rw [List.isEmpty_iff.mp hnil]
      exact .inl rfl
    · refine .inr ⟨_, accounts_of_removal hm ht ?_ ?_ rfl⟩
      · rw [← hfound]
        exact (nodup_dedup _).filter _
      · intro id hid
        rw [← hfound] at hid
        exact SortedMap.mem_keys.mpr (mem_filter.mp hid).2

theorem allotIds_spec {α : Type} (last : EntryId) (now : Nat) (as : List α) :
    ((allotIds last now as).map (·.1)).Pairwise (· < ·) ∧
      ∀ e ∈ allotIds last now as, last < e.1 := by
  induction as generalizing last with
  | nil => exact ⟨.nil, nofun⟩
  | cons a as ih =>
    unfold allotIds
    split
    · exact ⟨.nil, nofun⟩
    · next id hid =>
      have hlt := lt_of_autoId hid
      obtain ⟨hsorted, habove⟩ := ih id
      constructor
      · rw [map_cons, pairwise_cons]
        refine ⟨fun id' hid' => ?_, hsorted⟩
        obtain ⟨e, he, rfl⟩ := mem_map.mp hid'
        exact habove e he
      · intro e he
        rcases mem_cons.mp he with rfl | he
        · exact hlt
        · exact hlt.trans (habove e he)

theorem le_getLast_of_sorted {α : Type} {l : List (EntryId × α)} {last : EntryId × α}
    (h : (l.map (·.1)).Pairwise (· < ·)) (hlast : l.getLast? = some last) :
    ∀ e ∈ l, e.1 ≤ last.1 := by
  obtain ⟨init, rfl⟩ := getLast?_eq_some_iff.mp hlast
  rw [map_append, pairwise_append] at h
  intro e he
  rcases mem_append.mp he with he | he
  · exact (h.2.2 e.1 (mem_map_of_mem he) last.1 (by simp)).le
  · rw [mem_singleton.mp he]

theorem filterMap_toMeta_exchange (s s' : Bytes) (got : List (EntryId × DueRow)) :
    (exchangeRows s got).filterMap (toMeta s') = [] := by
  rw [exchangeRows, filterMap_flatMap]
  exact flatMap_eq_nil_iff.mpr fun _ _ => rfl

theorem filterMap_toEntry_exchange (s : Bytes) (got : List (EntryId × DueRow)) :
    (exchangeRows s got).filterMap (toEntry s) = got.map fun e => .put e.1 e.2.2 := by
  rw [exchangeRows, filterMap_flatMap, map_eq_flatMap]
  refine flatMap_congr fun e _ => ?_
  rw [filterMap_cons_some (Write.toEntry_entry s _)]
  rfl

theorem filterMap_toEntry_exchange_ne (h : s' ≠ s) (got : List (EntryId × DueRow)) :
    (exchangeRows s got).filterMap (toEntry s') = [] := by
  rw [exchangeRows, filterMap_flatMap]
  refine flatMap_eq_nil_iff.mpr fun e _ => ?_
  rw [filterMap_cons_none (Write.toEntry_entry_ne h _)]
  rfl

theorem exchangeBatch_accounts (now : Nat) (ht : Timeless r s) (rows : List DueRow) :
    (∀ s', (exchangeBatch r now s rows).filterMap (toMeta s') = [] ∧
      (exchangeBatch r now s rows).filterMap (toEntry s') = []) ∨
    ∃ m next, r.metas s = some m ∧ Accounts r s (exchangeBatch r now s rows) next
      ((allotIds m.payload.lastId now rows).map fun e => (e.1, e.2.2)) [] := by
  unfold exchangeBatch
  rw [live?_of_timeless ht]
  have hdrop : ∀ s', (dropRows rows).filterMap (toMeta s') = [] ∧
      (dropRows rows).filterMap (toEntry s') = [] := by
    intro s'
    unfold dropRows
    rw [filterMap_map, filterMap_map]
    exact ⟨filterMap_eq_nil_iff.mpr fun _ _ => rfl, filterMap_eq_nil_iff.mpr fun _ _ => rfl⟩
  split
  · next m _ hm =>
    obtain ⟨m', hm', rfl⟩ := Option.map_eq_some_iff.mp hm
    obtain ⟨hsorted, habove⟩ := allotIds_spec m'.payload.lastId now rows
    generalize hgot : allotIds m'.payload.lastId now rows = got at hsorted habove ⊢
    dsimp only
    split
    · exact .inl fun _ => ⟨rfl, rfl⟩
    · next last row hlast =>
      rw [idleDeadline_of_idle (by exact (ht m' hm').1)]
      refine .inr ⟨m', { m'.payload.withLast last with len := m'.payload.len + got.length }, hm', ?_⟩
      rw [hgot]
      refine ⟨?_, (ht m' hm').1, ?_, ?_, ?_, ?_, ?_, .nil, nofun, ?_, ?_⟩
      · rw [filterMap_append, filterMap_toMeta_exchange]
        exact filterMap_cons_some (Write.toMeta_head s _)
      · rw [filterMap_append, filterMap_toEntry_exchange, map_map]
        rfl
      · rw [map_map]
        exact hsorted
      · intro e he m hm
        obtain ⟨e', he', rfl⟩ := mem_map.mp he
        rw [hm'] at hm
        cases hm
        exact habove e' he'
      · intro e he
        obtain ⟨e', he', rfl⟩ := mem_map.mp he
        exact le_getLast_of_sorted hsorted hlast e' he'
      · intro m hm
        rw [hm'] at hm
        cases hm
        exact (habove _ (mem_of_getLast? hlast)).le
      · rw [hm', length_map]
        rfl
      · intro s' hs'
        rw [filterMap_append, filterMap_append, filterMap_toMeta_exchange,
          filterMap_toEntry_exchange_ne hs', filterMap_cons_none (Write.toMeta_head_ne hs' _)]
        exact ⟨rfl, rfl⟩
  · exact .inl hdrop

/-! ## The groups are left alone -/

theorem messageRow_ofStream {delayMs : Nat}
    (h : messageRow s now delayMs id fields = .ok row) : row.OfStream := by
  unfold messageRow at h
  split at h
  · cases h
    trivial
  · split at h
    · cases h
    · cases h
      trivial

theorem xaddBatch_ofStream (h : xaddBatch r now s o idArg fields = .ok (some (id, ws))) :
    ∀ w ∈ ws, w.OfStream := by
  obtain ⟨m, fresh, victims, next, expire, row, -, -, -, -, -, hrow, rfl⟩ := xaddBatch_ok h
  intro w hw
  rcases mem_cons.mp hw with rfl | hw
  · trivial
  rcases mem_cons.mp hw with rfl | hw
  · exact messageRow_ofStream hrow
  · obtain ⟨id, -, rfl⟩ := mem_map.mp hw
    trivial

def Write.OfRemoval (s : Bytes) (w : Write) : Prop :=
  (∃ id, w = .entry s (.del id)) ∨ ∃ m, w = .head s m

variable {w : Write}

theorem Write.OfRemoval.toDelay (h : w.OfRemoval s) : w.toDelay = none := by
  rcases h with ⟨id, rfl⟩ | ⟨m, rfl⟩ <;> rfl

theorem ofRemoval_append (hws : ∀ w ∈ ws, w.OfRemoval s) :
    ∀ w ∈ ids.map (fun id => entry s (.del id)) ++ ws, w.OfRemoval s := by
  intro w hw
  rcases mem_append.mp hw with hw | hw
  · obtain ⟨id, -, rfl⟩ := mem_map.mp hw
    exact .inl ⟨id, rfl⟩
  · exact hws w hw

theorem xtrimBatch_ofRemoval
    (h : xtrimBatch r now s plan = .ok (victims, ws)) : ∀ w ∈ ws, w.OfRemoval s := by
  unfold xtrimBatch at h
  split at h
  · cases h
  split at h
  · cases h
    nofun
  · cases h
    exact ofRemoval_append fun w hw => .inr ⟨_, mem_singleton.mp hw⟩

theorem xdelBatch_ofRemoval
    (h : xdelBatch r now s ids = .ok (found, ws)) : ∀ w ∈ ws, w.OfRemoval s := by
  unfold xdelBatch at h
  split at h
  · cases h
  split at h
  · cases h
    nofun
  · cases h
    refine ofRemoval_append fun w hw => ?_
    split at hw
    · cases hw
    · exact .inr ⟨_, mem_singleton.mp hw⟩

theorem exchangeBatch_ofStream (rows : List DueRow) :
    ∀ w ∈ exchangeBatch r now s rows, w.OfStream := by
  intro w hw
  unfold exchangeBatch at hw
  split at hw
  · dsimp only at hw
    split at hw
    · cases hw
    · split at hw
      · cases hw
      · rcases mem_append.mp hw with hw | hw
        · obtain ⟨e, -, hw⟩ := mem_flatMap.mp hw
          rcases mem_cons.mp hw with rfl | hw
          · trivial
          · cases mem_singleton.mp hw
            trivial
        · cases mem_singleton.mp hw
          trivial
  · obtain ⟨row, -, rfl⟩ := mem_map.mp hw
    trivial

end

end Rdb.Lite
