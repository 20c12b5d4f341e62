import Rdb.Lite.System

/-!
# What the group commands write

The entries and meta records that a read, a claim or a sweep writes are those of its
dead-letter transfers (`Batch`). Which transfers a command can make is known before
it runs: the pending rows over the cap whose entry is stored (`threats`). Reads make
one transfer for each stream, claims one for each row, and all of them read the
store without the open batch.
-/

namespace Rdb.Lite

open Lib List SortedMap Offsets Write Verdict

/-! ## Transfers of a batch -/

structure Transfer where
  source : Bytes
  group : Bytes
  dlq : Bytes
  rows : List DeadRow

namespace Transfer

def puts (r : Records) (x : Transfer) : List (EntryId × Fields) :=
  x.rows.filterMap fun row => ((r.entries x.source).get row.id).map fun fields =>
    (row.id, appendTrace fields x.group row.consumer row.times x.source)

/-- The target's meta record, if there is an entry to put. -/
def head (r : Records) (now : Nat) (x : Transfer) : Option MetaRecord :=
  if (storedRows r x.source x.rows).isEmpty then none
  else some (transferMeta r now x.source x.dlq x.rows)

def moves (r : Records) (x : Transfer) : List Move :=
  (storedRows r x.source x.rows).filterMap fun row =>
    ((r.entries x.source).get row.id).map fun fields => ⟨x.dlq, x.source, row.id, fields⟩

end Transfer

/-- The entries and the meta records of a batch are those of the transfers `ts`. -/
structure Batch (r : Records) (now : Nat) (ws : List Write) (ts : List Transfer) : Prop where
  entries : ∀ t, ws.filterMap (Write.toEntry t) =
    ts.flatMap fun x => if x.dlq = t then (x.puts r).map fun e => .put e.1 e.2 else []
  metas : ∀ t, ws.filterMap (Write.toMeta t) =
    ts.filterMap fun x => if x.dlq = t then x.head r now else none

/-- A write outside the entries and meta records. -/
def Write.Aside : Write → Prop
  | .head .. | .entry .. => False
  | .delay _ | .group .. | .pend .. | .consumer .. => True

namespace Batch

variable {r : Records} {now : Nat} {ws ws' : List Write} {ts ts' : List Transfer}

theorem append (h : Batch r now ws ts) (h' : Batch r now ws' ts') :
    Batch r now (ws ++ ws') (ts ++ ts') := by
  constructor
  · intro t
    rw [filterMap_append, h.entries, h'.entries, flatMap_append]
  · intro t
    rw [filterMap_append, h.metas, h'.metas, filterMap_append]

theorem of_aside (h : ∀ w ∈ ws, w.Aside) : Batch r now ws [] := by
  constructor <;> intro t <;> refine filterMap_eq_nil_iff.mpr fun w hw => ?_ <;>
    have hw := h w hw <;> cases w <;> first | rfl | exact hw.elim

theorem nil : Batch r now [] [] := of_aside nofun

end Batch

section transferRows

variable (r : Records) (s g d : Bytes) (dead : List DeadRow)

theorem transferRows_toEntry (t : Bytes) :
    (dead.flatMap (transferRow r s g d)).filterMap (Write.toEntry t) =
      if d = t then (Transfer.puts r ⟨s, g, d, dead⟩).map fun e => .put e.1 e.2 else [] := by
  induction dead with
  | nil => simp [Transfer.puts]
  | cons row dead ih =>
    rw [flatMap_cons, filterMap_append, ih]
    unfold Transfer.puts transferRow
    rw [filterMap_cons]
    cases (r.entries s).get row.id with
    | none => simp [toEntry]
    | some fields => by_cases h : d = t <;> simp [toEntry, h]

theorem transferRows_toMeta (t : Bytes) :
    (dead.flatMap (transferRow r s g d)).filterMap (Write.toMeta t) = [] := by
  rw [filterMap_flatMap, flatMap_eq_nil_iff]
  intro row _
  unfold transferRow
  cases (r.entries s).get row.id <;> rfl

theorem transferRows_toPend (s' g' : Bytes) :
    (dead.flatMap (transferRow r s g d)).filterMap (Write.toPend s' g') =
      if s = s' ∧ g = g' then dead.map fun row => .del row.id else [] := by
  induction dead with
  | nil => simp
  | cons row dead ih =>
    rw [flatMap_cons, filterMap_append, ih]
    unfold transferRow
    cases (r.entries s).get row.id <;> by_cases h : s = s' ∧ g = g' <;>
      simp [toPend, h, filterMap_cons]

end transferRows

variable {r : Records} {o : Offsets} {now : Nat} {s g : Bytes} {st : GroupState}
  {dead : List DeadRow} {ws : List Write} {tally : TransferTally}

theorem transferEntries_ok {o' : Offsets}
    (h : transferEntries r o now s g st dead false = .ok (o', ws, tally)) :
    Batch r now ws [⟨s, g, st.dlq, dead⟩] ∧ tally.resolved = dead.length ∧
      tally.moved = Transfer.moves r ⟨s, g, st.dlq, dead⟩ ∧
      ∀ s' g', ws.filterMap (Write.toPend s' g') =
        if s = s' ∧ g = g' then dead.map fun row => .del row.id else [] := by
  unfold transferEntries at h
  split at h
  · next hnil =>
    cases h
    rw [List.isEmpty_iff.mp hnil]
    refine ⟨⟨fun t => ?_, fun t => ?_⟩, rfl, rfl, fun s' g' => ?_⟩
    · simp [Transfer.puts]
    · simp [Transfer.head, storedRows]
    · simp
  split at h
  · cases h
  cases h
  refine ⟨⟨fun t => ?_, fun t => ?_⟩, rfl, rfl, fun s' g' => ?_⟩
  · rw [filterMap_append, filterMap_append, transferRows_toEntry, flatMap_singleton]
    split <;> split <;> simp [toEntry]
  · rw [filterMap_append, filterMap_append, transferRows_toMeta]
    unfold Transfer.head
    by_cases hd : st.dlq = t <;> split <;> split <;> simp_all [toMeta]
  · rw [filterMap_append, filterMap_append, transferRows_toPend]
    split <;> split <;> split <;> simp [toPend]

variable {t : Bytes}

theorem transferMeta_timeless (ht : Timeless r t) (s : Bytes) (dead : List DeadRow) :
    (transferMeta r now s t dead).payload.idleMs = 0 ∧
      (transferMeta r now s t dead).expire = 0 := by
  unfold transferMeta
  cases hm : r.metas t with
  | none => exact ⟨rfl, rfl⟩
  | some m =>
    have hidle := (ht m hm).1
    refine ⟨hidle, ?_⟩
    show (if 0 < m.payload.idleMs then _ else 0) = 0
    rw [hidle]
    rfl

variable {ts : List Transfer}

theorem Batch.timeless (h : Batch r now ws ts) (ht : Timeless r t) : Timeless (r.write ws) t := by
  intro m hm
  rw [Records.metas_write, h.metas] at hm
  cases hlast : (ts.filterMap fun x => if x.dlq = t then x.head r now else none).getLast? with
  | none =>
    rw [hlast] at hm
    exact ht m hm
  | some m' =>
    rw [hlast] at hm
    cases hm
    obtain ⟨x, -, hx⟩ := mem_filterMap.mp (mem_of_getLast? hlast)
    split at hx
    · next hd =>
      subst hd
      unfold Transfer.head at hx
      split at hx
      · cases hx
      · cases hx
        exact transferMeta_timeless ht _ _
    · cases hx

/-! ## Which transfers a command can make -/

/-- A row over the cap that has been idle long enough and whose entry is stored. -/
def isDoomed (r : Records) (st : GroupState) (s : Bytes) (now minIdle : Nat)
    (row : EntryId × PendState) : Bool :=
  shouldDeadLetter row.2.timesDelivered st.maxdelivery &&
    decide (minIdle ≤ now - row.2.deliveredMs) && ((r.entries s).get row.1).isSome

def doomed (r : Records) (st : GroupState) (s g : Bytes) (now minIdle : Nat) : List EntryId :=
  ((r.pend s g).entries.filter (isDoomed r st s now minIdle)).map (·.1)

variable {id : EntryId}

theorem mem_doomed {minIdle : Nat} :
    id ∈ doomed r st s g now minIdle ↔ ∃ row, (r.pend s g).get id = some row ∧
      shouldDeadLetter row.timesDelivered st.maxdelivery ∧
      minIdle ≤ now - row.deliveredMs ∧ ((r.entries s).get id).isSome := by
  simp only [doomed, isDoomed, mem_map, mem_filter, Bool.and_eq_true, decide_eq_true_eq, and_assoc]
  constructor
  · rintro ⟨row, hrow, h1, h2, h3, rfl⟩
    exact ⟨row.2, mem_entries.mp hrow, h1, h2, h3⟩
  · rintro ⟨row, hrow, h1, h2, h3⟩
    exact ⟨(id, row), get_eq_some.mp hrow, h1, h2, h3, rfl⟩

structure Threat where
  source : Bytes
  dlq : Bytes
  ids : List EntryId

/-- The transfers a read can make: of rows above the delivered position, as after a rewind. -/
def readThreats (r : Records) (c : ReadCall) (o : Offsets) (streams : List Bytes) : List Threat :=
  streams.filterMap fun s => (o.peek r c.now s c.group).map fun st =>
    ⟨s, st.dlq, (doomed r st s c.group c.now 0).filter (st.delivered < ·)⟩

/-- The transfers an action can make, from the state it starts in. -/
def threats (l : Runtime) : Action → List Threat
  | .xreadgroup c streams => readThreats l.records c l.offsets streams
  | .xclaim c s ids => (l.offsets.peek l.records c.now s c.group).elim [] fun st =>
    (ids.filter fun id => !c.justid &&
      decide (id ∈ doomed l.records st s c.group c.now c.minIdle)).map fun id => ⟨s, st.dlq, [id]⟩
  | .xautoclaim c s start _ => (l.offsets.peek l.records c.now s c.group).elim [] fun st =>
    ((doomed l.records st s c.group c.now c.minIdle).filter fun id =>
      !c.justid && decide (start ≤ id)).map fun id => ⟨s, st.dlq, [id]⟩
  | .sweep now idle _ s g => (l.offsets.peek l.records now s g).elim [] fun st =>
    [⟨s, st.dlq, doomed l.records st s g now idle⟩]
  | _ => []

structure Covers (r : Records) (x : Transfer) (t : Threat) : Prop where
  source : x.source = t.source
  dlq : x.dlq = t.dlq
  nodup : (x.rows.map (·.id)).Nodup
  ids : ∀ row ∈ storedRows r x.source x.rows, row.id ∈ t.ids

/-- The transfers are some of those that threaten. -/
def Within (r : Records) (ts : List Transfer) (threats : List Threat) : Prop :=
  ∃ l, l.Sublist threats ∧ List.Forall₂ (Covers r) ts l

theorem within_nil {threats : List Threat} : Within r [] threats := ⟨[], nil_sublist _, .nil⟩

variable {l l' : List Threat}

theorem Within.append {ts' : List Transfer} (h : Within r ts l)
    (h' : Within r ts' l') : Within r (ts ++ ts') (l ++ l') := by
  obtain ⟨k, hk, hts⟩ := h
  obtain ⟨k', hk', hts'⟩ := h'
  exact ⟨k ++ k', hk.append hk', rel_append hts hts'⟩

theorem Within.mono (h : Within r ts l) (hl : l.Sublist l') : Within r ts l' := by
  obtain ⟨k, hk, hts⟩ := h
  exact ⟨k, hk.trans hl, hts⟩

variable {ths : List Threat}

theorem covered_of_within (h : Within r ts ths) {x : Transfer}
    (hx : x ∈ ts) : ∃ t ∈ ths, Covers r x t := by
  obtain ⟨l, hsub, hall⟩ := h
  obtain ⟨t, ht, hc⟩ := exists_of_forall₂_right hall.flip hx
  exact ⟨t, hsub.subset ht, hc⟩

theorem pairwise_of_forall₂ {α β : Type} {R : α → β → Prop} {S : α → α → Prop} {T : β → β → Prop}
    {l : List α} {k : List β} (hall : List.Forall₂ R l k) (hT : k.Pairwise T)
    (h : ∀ a a' b b', R a b → R a' b' → T b b' → S a a') : l.Pairwise S := by
  induction hall with
  | nil => exact .nil
  | cons hab hrest ih =>
    obtain ⟨hb, hk⟩ := pairwise_cons.mp hT
    refine pairwise_cons.mpr ⟨fun a' ha' => ?_, ih hk⟩
    obtain ⟨b', hb', hab'⟩ := exists_of_forall₂_right hrest.flip ha'
    exact h _ _ _ _ hab hab' (hb b' hb')

/-! ## Claims -/

namespace Verdict

def pendOp (id : EntryId) : Verdict → Option (BatchOp EntryId PendState)
  | .skip => none
  | .orphan => some (.del id)
  | .hand row _ _ => some (.put id row)
  | .dead row => some (.del row.id)

def deadRow : Verdict → Option DeadRow
  | .dead row => some row
  | _ => none

end Verdict

def claimTransfers (s g dlq : Bytes) (visited : List (EntryId × Verdict)) : List Transfer :=
  visited.filterMap fun v => v.2.deadRow.map fun row => ⟨s, g, dlq, [row]⟩

/-- The batch of a claim after the verdicts `visited`. -/
structure Applied (r : Records) (now : Nat) (s g : Bytes) (dlq : Bytes)
    (visited : List (EntryId × Verdict)) (a a' : Claimed) : Prop where
  writes : ∃ ws, a'.writes = a.writes ++ ws ∧ Batch r now ws (claimTransfers s g dlq visited) ∧
    (∀ s' g', ws.filterMap (Write.toPend s' g') =
      if s = s' ∧ g = g' then visited.filterMap fun v => v.2.pendOp v.1 else []) ∧
    (claimTransfers s g dlq visited = [] →
      a'.offsets = a.offsets ∧ ∀ s' g', ws.filterMap (Write.toGroup s' g') = [])
  moves : a'.moves = a.moves ++ (claimTransfers s g dlq visited).flatMap (Transfer.moves r)

variable {a a' : Claimed}

theorem applyVerdict_applied {v : EntryId × Verdict} (h : applyVerdict r now s g st a v = .ok a') :
    Applied r now s g st.dlq [v] a a' := by
  obtain ⟨id, verdict⟩ := v
  have hpend : ∀ (op : BatchOp EntryId PendState) s' g', [pend s g op].filterMap
      (toPend s' g') = if s = s' ∧ g = g' then [op] else [] := by
    intro op s' g'
    by_cases h : s = s' ∧ g = g' <;> simp [toPend, h]
  have haside : ∀ op : BatchOp EntryId PendState, Batch r now [pend s g op] [] := fun op =>
    .of_aside fun w hw => by cases mem_singleton.mp hw; trivial
  cases verdict with
  | skip =>
    cases h
    exact ⟨⟨[], by simp, .nil, by simp [pendOp], fun _ => ⟨rfl, fun _ _ => rfl⟩⟩,
      by simp [claimTransfers, deadRow]⟩
  | orphan | hand =>
    cases h
    exact ⟨⟨_, rfl, haside _, hpend _, fun _ => ⟨rfl, fun _ _ => rfl⟩⟩,
      by simp [claimTransfers, deadRow]⟩
  | dead row =>
    unfold applyVerdict at h
    dsimp only at h
    split at h
    · cases h
    · next o ws tally ht =>
      cases h
      obtain ⟨hbatch, -, hmoved, hpends⟩ := transferEntries_ok ht
      exact ⟨⟨ws, rfl, hbatch, hpends, fun h => by cases h⟩, by simp [claimTransfers, deadRow, hmoved]⟩

variable {dlq : Bytes}

theorem Applied.trans {v v' : List (EntryId × Verdict)} {a'' : Claimed}
    (h : Applied r now s g dlq v a a')
    (h' : Applied r now s g dlq v' a' a'') : Applied r now s g dlq (v ++ v') a a'' := by
  obtain ⟨ws, hws, hbatch, hpend, hquiet⟩ := h.writes
  obtain ⟨ws', hws', hbatch', hpend', hquiet'⟩ := h'.writes
  have hsplit : claimTransfers s g dlq (v ++ v') =
      claimTransfers s g dlq v ++ claimTransfers s g dlq v' := filterMap_append
  refine ⟨⟨ws ++ ws', ?_, ?_, fun s' g' => ?_, fun hnil => ?_⟩, ?_⟩
  · rw [hws', hws, append_assoc]
  · rw [hsplit]
    exact hbatch.append hbatch'
  · rw [filterMap_append, hpend, hpend']
    split
    · rw [filterMap_append]
    · rfl
  · rw [hsplit, append_eq_nil_iff] at hnil
    obtain ⟨ho, hg⟩ := hquiet hnil.1
    obtain ⟨ho', hg'⟩ := hquiet' hnil.2
    exact ⟨ho'.trans ho, fun s' g' => by rw [filterMap_append, hg, hg']; rfl⟩
  · rw [h'.moves, h.moves, hsplit, flatMap_append, append_assoc]

variable {visited : List (EntryId × Verdict)}

theorem applied_of_foldlM (h : visited.foldlM (applyVerdict r now s g st) a = .ok a') :
    Applied r now s g st.dlq visited a a' := by
  induction visited generalizing a with
  | nil =>
    cases h
    exact ⟨⟨[], by simp, .nil, by simp, fun _ => ⟨rfl, fun _ _ => rfl⟩⟩, by simp [claimTransfers]⟩
  | cons v visited ih =>
    rw [foldlM_cons] at h
    obtain ⟨b, hv, h⟩ := bind_eq_ok.mp h
    exact (applyVerdict_applied hv).trans (ih h)

theorem deadIds_sublist {β : Type} (key : β → EntryId) (P : β → Bool)
    {R : β → EntryId × Verdict → Prop} {rows : List β} (hall : List.Forall₂ R rows visited)
    (hR : ∀ row v, R row v → ∀ d, v.2.deadRow = some d → d.id = key row ∧ P row) :
    (visited.filterMap fun v => v.2.deadRow.map (·.id)).Sublist ((rows.filter P).map key) := by
  induction hall with
  | nil => exact .slnil
  | @cons row v rows visited h _ ih =>
    cases hd : v.2.deadRow with
    | none =>
      rw [filterMap_cons_none (by rw [hd]; rfl)]
      exact ih.trans (((sublist_cons_self row rows).filter P).map key)
    | some d =>
      obtain ⟨hid, hP⟩ := hR row v h d hd
      rw [filterMap_cons_some (by rw [hd]; rfl), filter_cons_of_pos hP, map_cons, ← hid]
      exact ih.cons_cons _

theorem claimTransfers_within {ids : List EntryId}
    (h : (visited.filterMap fun v => v.2.deadRow.map (·.id)).Sublist ids) :
    Within r (claimTransfers s g dlq visited) (ids.map fun id => ⟨s, dlq, [id]⟩) := by
  refine ⟨_, h.map _, ?_⟩
  clear h
  induction visited with
  | nil => exact .nil
  | cons v visited ih =>
    cases hd : v.2.deadRow with
    | none =>
      rw [claimTransfers, filterMap_cons_none (by rw [hd]; rfl),
        filterMap_cons_none (by rw [hd]; rfl)]
      exact ih
    | some d =>
      rw [claimTransfers, filterMap_cons_some (by rw [hd]; rfl),
        filterMap_cons_some (by rw [hd]; rfl)]
      refine .cons ⟨rfl, rfl, nodup_singleton _, fun row hrow => ?_⟩ ih
      cases mem_singleton.mp (mem_filter.mp hrow).1
      exact mem_singleton_self _

theorem shouldDeadLetter_zero (m : Nat) : shouldDeadLetter 0 m = false := by
  unfold shouldDeadLetter nextTimes
  rw [Bool.and_eq_false_iff]
  by_cases h : 0 < m
  · right
    rw [decide_eq_false_iff_not]
    omega
  · left
    rw [decide_eq_false_iff_not]
    exact h

variable {epoch : Nat} {d : DeadRow}

theorem claimVerdict_spec (r : Records) (c : ClaimCall) (s : Bytes) (st : GroupState) (epoch : Nat)
    (id : EntryId) : match claimVerdict r c s st epoch id with
      | .skip | .hand .. => True
      | .orphan => (r.entries s).get id = none
      | .dead d => d.id = id ∧ c.justid = false ∧ id ∈ doomed r st s c.group c.now c.minIdle := by
  unfold claimVerdict
  dsimp only
  generalize hf : (if c.justid && ((r.pend s c.group).get id).isNone.not then none
    else (r.entries s).get id) = fields
  have hfields : (!c.justid) → c.justid = false ∧ (r.entries s).get id = fields := by
    intro hjust
    have hjust : c.justid = false := by simpa using hjust
    rw [hjust, Bool.false_and] at hf
    exact ⟨hjust, hf⟩
  split_ifs with hidle _ _ horphan hdead
  · trivial
  · trivial
  · trivial
  · obtain ⟨hjust, hnone⟩ := Bool.and_eq_true_iff.mp horphan
    obtain ⟨-, rfl⟩ := hfields hjust
    exact Option.isNone_iff_eq_none.mp hnone
  · obtain ⟨hjust, hdead⟩ := Bool.and_eq_true_iff.mp hdead
    obtain ⟨hjust, rfl⟩ := hfields hjust
    refine ⟨rfl, hjust, mem_doomed.mpr ?_⟩
    cases hold : (r.pend s c.group).get id with
    | none =>
      rw [hold, Option.elim_none, shouldDeadLetter_zero] at hdead
      cases hdead
    | some row =>
      rw [hold] at hdead hidle
      refine ⟨row, rfl, hdead, by simpa using hidle, ?_⟩
      simpa [hjust, Option.isSome_iff_ne_none] using horphan
  · trivial

variable {c : ClaimCall}

theorem deadRow_claimVerdict (h : (claimVerdict r c s st epoch id).deadRow = some d) :
    d.id = id ∧ c.justid = false ∧ id ∈ doomed r st s c.group c.now c.minIdle := by
  have hspec := claimVerdict_spec r c s st epoch id
  cases hv : claimVerdict r c s st epoch id with
  | skip | orphan | hand => rw [hv] at h; cases h
  | dead d' =>
    rw [hv] at h hspec
    cases h
    exact hspec

theorem deadRow_autoclaimVerdict {row : EntryId × PendState}
    (h : (autoclaimVerdict r c s st epoch row).deadRow = some d) :
    d.id = row.1 ∧ c.justid = false ∧ shouldDeadLetter row.2.timesDelivered st.maxdelivery ∧
      c.minIdle ≤ c.now - row.2.deliveredMs ∧ ((r.entries s).get row.1).isSome := by
  unfold autoclaimVerdict at h
  split at h
  · cases h
  next hidle =>
  split at h
  · cases h
  next fields hfields =>
  split at h
  · next hdead =>
    cases h
    obtain ⟨hjust, hdead⟩ := Bool.and_eq_true_iff.mp hdead
    exact ⟨rfl, by simpa using hjust, hdead, not_lt.mp hidle, by rw [hfields]; rfl⟩
  · cases h

theorem autoclaimWalk_visited (verdict : EntryId × PendState → Verdict) (skips : EntryId → Bool)
    (ordered : Bool) (count : Nat) (a : Visit) (rows : List (EntryId × PendState)) :
    ∃ rows' new, (autoclaimWalk verdict skips ordered count a rows).visited = a.visited ++ new ∧
      rows'.Sublist rows ∧
      List.Forall₂ (fun row v => v.1 = row.1 ∧ (v.2 = .skip ∨ v.2 = verdict row)) rows' new := by
  induction rows generalizing a with
  | nil => exact ⟨[], [], (append_nil _).symm, .slnil, .nil⟩
  | cons row rows ih =>
    -- a visited row goes in front of what the rest of the walk visits
    have hnext : ∀ (b : Visit) (v : Verdict), b.visited = a.visited ++ [(row.1, v)] →
        v = .skip ∨ v = verdict row → ∃ rows' new,
          (autoclaimWalk verdict skips ordered count b rows).visited = a.visited ++ new ∧
          rows'.Sublist (row :: rows) ∧
          List.Forall₂ (fun row v => v.1 = row.1 ∧ (v.2 = .skip ∨ v.2 = verdict row)) rows' new := by
      intro b v hb hv
      obtain ⟨rows', new, hnew, hsub, hall⟩ := ih b
      exact ⟨row :: rows', (row.1, v) :: new, by rw [hnew, hb]; simp, hsub.cons_cons row,
        .cons ⟨rfl, hv⟩ hall⟩
    unfold autoclaimWalk
    split
    · exact ⟨[], [], (append_nil _).symm, nil_sublist _, .nil⟩
    split
    · dsimp only
      split
      · exact ⟨[row], [(row.1, .skip)], rfl, (nil_sublist rows).cons_cons row,
          .cons ⟨rfl, .inl rfl⟩ .nil⟩
      · exact hnext _ .skip rfl (.inl rfl)
    · exact hnext _ (verdict row) rfl (.inr rfl)

/-! ## The effect of a command -/

/-- The records change by transfers that the state before the command threatens. -/
def Effect (l l' : Runtime) (now : Nat) (moves : List Move) (ths : List Threat) : Prop :=
  ∃ ws ts, l'.records = l.records.write ws ∧ Batch l.records now ws ts ∧
    moves = ts.flatMap (Transfer.moves l.records) ∧ Within l.records ts ths

variable {l : Runtime}

theorem effect_of_records_eq {l' : Runtime} (h : l'.records = l.records) : Effect l l' now [] ths :=
  ⟨[], [], h, .nil, rfl, within_nil⟩

theorem effect_of_aside {l' : Runtime} (h : l'.records = l.records.write ws)
    (hws : ∀ w ∈ ws, w.Aside) : Effect l l' now [] ths :=
  ⟨ws, [], h, .of_aside hws, rfl, within_nil⟩

/-- A claim leaves the group as it is loaded, or writes what its verdicts say. -/
inductive Claims {α : Type} (l : Runtime) (c : ClaimCall) (s : Bytes)
    (P : GroupState → List (EntryId × Verdict) → Prop) (out : ClaimOut α) : Prop
  | idle (records : out.runtime.records = l.records)
    (offsets : out.runtime.offsets = (l.offsets.load l.records c.now s c.group).1)
    (moves : out.moves = [])
  | done {st : GroupState} {visited : List (EntryId × Verdict)} {a : Claimed}
    {op : BatchOp Bytes ConsumerState}
    (found : l.offsets.peek l.records c.now s c.group = some st) (verdicts : P st visited)
    (applied : visited.foldlM (applyVerdict l.records c.now s c.group st)
      { offsets := (l.offsets.load l.records c.now s c.group).1 } = .ok a)
    (records : out.runtime.records = l.records.write (.consumer s c.group op :: a.writes))
    (offsets : out.runtime.offsets = (a.offsets.bumpPending s c.group a.minted).bumpPending s
      c.group (-(a.dlqCount : Int)))
    (moves : out.moves = a.moves)

variable {known : Known} {P : GroupState → List (EntryId × Verdict) → Prop}

theorem commitVerdicts_claims {α : Type} {reply : α} {offsets : Offsets} {owners : Owners}
    {op : BatchOp Bytes ConsumerState}
    (hload : l.offsets.load l.records c.now s c.group = (offsets, some st)) (hP : P st visited) :
    Claims l c s P (commitVerdicts { l with offsets, owners, known } c s st
      (.consumer s c.group op) visited reply) := by
  have hpeek := load_snd l.offsets l.records c.now s c.group
  rw [hload] at hpeek
  unfold commitVerdicts
  split
  · exact .idle rfl (by rw [hload]; exact restore_mark _ _ _) rfl
  · next a ha => exact .done hpeek.symm hP (by rw [hload]; exact ha) rfl rfl rfl

theorem claimTargets_sublist (l : Runtime) (c : ClaimCall) (s : Bytes) (st : GroupState)
    (ids : List EntryId) : (claimTargets l c s st ids).1.Sublist ids := by
  unfold claimTargets
  split
  · exact .refl _
  split
  · exact nil_sublist _
  split
  · exact filter_sublist
  · exact nil_sublist _

theorem xclaim_claims (l : Runtime) (c : ClaimCall) (s : Bytes) (ids : List EntryId) :
    Claims l c s (fun st visited => ∃ (ids' : List EntryId) (epoch : Nat), ids'.Sublist ids ∧
      visited = ids'.map fun id => (id, claimVerdict l.records c s st epoch id))
      (xclaim l c s ids) := by
  unfold xclaim
  split
  · next hload => exact .idle rfl (by rw [hload]) rfl
  · next st hload =>
    exact commitVerdicts_claims hload ⟨_, _, claimTargets_sublist l c s st ids, rfl⟩

theorem xautoclaim_claims (l : Runtime) (c : ClaimCall) (s : Bytes) (start : EntryId)
    (count : Nat) :
    Claims l c s (fun st visited => ∃ (rows : List (EntryId × PendState)) (epoch : Nat),
      rows.Sublist (scanPend (l.records.pend s c.group) start none) ∧
      List.Forall₂ (fun row v => v.1 = row.1 ∧
        (v.2 = .skip ∨ v.2 = autoclaimVerdict l.records c s st epoch row)) rows visited)
      (xautoclaim l c s start count) := by
  unfold xautoclaim
  split
  · next hload => exact .idle rfl (by rw [hload]) rfl
  · next st hload =>
    refine commitVerdicts_claims hload ?_
    obtain ⟨rows, new, hvisited, hsub, hall⟩ := autoclaimWalk_visited
      (autoclaimVerdict l.records c s st (if st.ordered then
        forceTakeover l.owners s c.group c.consumer c.now else (l.owners, 0)).2)
      (fun id => some id ≠ (firstPending (l.records.pend s c.group)).map (·.1)) st.ordered count {}
      (scanPend (l.records.pend s c.group) start none)
    rw [hvisited]
    exact ⟨rows, _, hsub, hall⟩

theorem Claims.effect {α : Type} {out : ClaimOut α} (h : Claims l c s P out)
    (hP : ∀ st visited, l.offsets.peek l.records c.now s c.group = some st → P st visited →
      Within l.records (claimTransfers s c.group st.dlq visited) ths) :
    Effect l out.runtime c.now out.moves ths := by
  cases h with
  | idle hr _ hm =>
    rw [hm]
    exact effect_of_records_eq hr
  | @done st visited a op hst hv ha hr _ hm =>
    have happ := applied_of_foldlM ha
    obtain ⟨ws, hws, hbatch, -⟩ := happ.writes
    have hrow : Batch l.records c.now [.consumer s c.group op] [] :=
      .of_aside fun w hw => by cases mem_singleton.mp hw; trivial
    rw [hws] at hr
    exact ⟨_, _, hr, hrow.append hbatch, hm.trans happ.moves, hP _ _ hst hv⟩

theorem xclaim_effect (l : Runtime) (c : ClaimCall) (s : Bytes) (ids : List EntryId) :
    Effect l (xclaim l c s ids).runtime c.now (xclaim l c s ids).moves
      (threats l (.xclaim c s ids)) := by
  refine (xclaim_claims l c s ids).effect ?_
  rintro st _ hst ⟨ids', epoch, hsub, rfl⟩
  rw [threats, hst]
  refine claimTransfers_within (.trans ?_ (hsub.filter _))
  rw [← map_id (ids'.filter _)]
  refine deadIds_sublist id _ (R := fun id v => v = (id, claimVerdict l.records c s st epoch id))
    ?_ ?_
  · exact forall₂_map_right_iff.mpr (forall₂_same.mpr fun _ _ => rfl)
  · rintro id _ rfl d hd
    obtain ⟨hid, hjust, hmem⟩ := deadRow_claimVerdict hd
    exact ⟨hid, by rw [hjust, decide_eq_true hmem]; rfl⟩

theorem xautoclaim_effect (l : Runtime) (c : ClaimCall) (s : Bytes) (start : EntryId) (count : Nat) :
    Effect l (xautoclaim l c s start count).runtime c.now (xautoclaim l c s start count).moves
      (threats l (.xautoclaim c s start count)) := by
  refine (xautoclaim_claims l c s start count).effect ?_
  rintro st visited hst ⟨rows, epoch, hsub, hall⟩
  rw [threats, hst]
  refine claimTransfers_within ((deadIds_sublist (·.1) (fun row =>
    !c.justid && isDoomed l.records st s c.now c.minIdle row) hall ?_).trans ?_)
  · rintro row v ⟨-, hskip | hv⟩ d hd
    · rw [hskip] at hd
      cases hd
    · rw [hv] at hd
      obtain ⟨hid, hjust, h1, h2, h3⟩ := deadRow_autoclaimVerdict hd
      exact ⟨hid, by simp [isDoomed, hjust, h1, h2, h3]⟩
  · have hsame : (scanPend (l.records.pend s c.group) start none).filter
          (fun row => !c.justid && isDoomed l.records st s c.now c.minIdle row) =
        ((l.records.pend s c.group).entries.filter
          (isDoomed l.records st s c.now c.minIdle)).filter
            fun row => !c.justid && decide (start ≤ row.1) := by
      rw [scanPend]
      cases c.justid <;> simp [Bool.and_comm]
    rw [doomed, filter_map]
    exact ((hsub.filter _).trans (hsame ▸ .refl _)).map _

/-! ## The sweep -/

theorem scanPend_sublist (pend : SortedMap EntryId PendState) (start : EntryId)
    (limit : Option Nat) : (scanPend pend start limit).Sublist pend.entries := by
  cases limit with
  | none => exact filter_sublist
  | some n => exact (take_sublist _ _).trans filter_sublist

/-- The dead rows of a plan are some of the rows of a group. -/
def PlansRows (now idle : Nat) (st : GroupState) (rows : List (EntryId × PendState))
    (plan : SweepPlan) : Prop :=
  ∃ dead : List (EntryId × PendState), dead.Sublist rows ∧
    plan.dead = dead.map (fun row => ⟨row.1, row.2.timesDelivered, row.2.consumer⟩) ∧
    ∀ row ∈ dead, rowAction now idle row.2.deliveredMs row.2.timesDelivered st.maxdelivery =
      .deadLetter

theorem sweepRows_plans (owners : Owners) (now idle leaseMs : Nat) (s g : Bytes) (st : GroupState)
    (rows : List (EntryId × PendState)) :
    PlansRows now idle st rows (sweepRows owners now idle leaseMs s g st rows) := by
  have hnil : ∀ owners puts, PlansRows now idle st rows ⟨owners, puts, []⟩ := fun _ _ =>
    ⟨[], nil_sublist _, rfl, nofun⟩
  unfold sweepRows
  dsimp only
  split
  · cases rows with
    | nil => exact hnil _ _
    | cons row rest =>
      dsimp only
      split
      · exact hnil _ _
      · next hact => exact ⟨[row], (nil_sublist rest).cons_cons row, rfl, fun row' h' => by
          cases mem_singleton.mp h'
          exact hact⟩
      · split
        · exact hnil _ _
        · exact hnil _ _
  · exact ⟨_, filter_sublist, rfl, fun row hrow => of_decide_eq_true (mem_filter.mp hrow).2⟩

theorem sweepGroup_cases (l : Runtime) (now idle leaseMs : Nat) (s g : Bytes) :
    ((sweepGroup l now idle leaseMs s g).1.records = l.records ∧
      (sweepGroup l now idle leaseMs s g).2 = []) ∨
    ∃ st rows o ws tally plan, l.offsets.peek l.records now s g = some st ∧
      rows.Sublist (l.records.pend s g).entries ∧
      PlansRows now idle st rows plan ∧
      transferEntries l.records (l.offsets.load l.records now s g).1 now s g st plan.dead false =
        .ok (o, ws, tally) ∧
      (sweepGroup l now idle leaseMs s g).1.records =
        l.records.write (plan.puts.map (.pend s g) ++ ws) ∧
      (sweepGroup l now idle leaseMs s g).2 = tally.moved := by
  unfold sweepGroup
  have hpeek := load_snd l.offsets l.records now s g
  cases hload : l.offsets.load l.records now s g with
  | mk offsets found =>
    rw [hload] at hpeek
    cases found with
    | none => exact .inl ⟨rfl, rfl⟩
    | some st =>
      dsimp only
      split
      · exact .inl ⟨rfl, rfl⟩
      split
      · exact .inl ⟨rfl, rfl⟩
      · next o ws tally ht =>
        exact .inr ⟨st, _, o, ws, tally, _, hpeek.symm, scanPend_sublist _ _ _,
          sweepRows_plans _ _ _ _ _ _ _ _, ht, rfl, rfl⟩

theorem sweepGroup_effect (l : Runtime) (now idle leaseMs : Nat) (s g : Bytes) :
    Effect l (sweepGroup l now idle leaseMs s g).1 now (sweepGroup l now idle leaseMs s g).2
      (threats l (.sweep now idle leaseMs s g)) := by
  rcases sweepGroup_cases l now idle leaseMs s g with ⟨hr, hm⟩ |
    ⟨st, rows, o, ws, tally, plan, hpeek, hrows, ⟨dead, hsub, hdead, hspec⟩, ht, hr, hm⟩
  · rw [hm]
    exact effect_of_records_eq hr
  · obtain ⟨hbatch, -, hmoved, -⟩ := transferEntries_ok ht
    have hputs : Batch l.records now (plan.puts.map (pend s g)) [] := .of_aside fun w hw => by
      obtain ⟨op, -, rfl⟩ := mem_map.mp hw
      trivial
    refine ⟨_, [⟨s, g, st.dlq, plan.dead⟩], hr, hputs.append hbatch, ?_, ?_⟩
    · rw [hm, hmoved, flatMap_singleton]
    · rw [threats, hpeek]
      refine ⟨_, .refl _, .cons ⟨rfl, rfl, ?_, fun row hrow => ?_⟩ .nil⟩
      · rw [hdead, map_map]
        exact (l.records.pend s g).nodup_keys.sublist ((hsub.trans hrows).map _)
      · obtain ⟨hmem, hstored⟩ := mem_filter.mp hrow
        rw [hdead] at hmem
        obtain ⟨row', hrow', rfl⟩ := mem_map.mp hmem
        have hin := hrows.subset (hsub.subset hrow')
        have hact := hspec row' hrow'
        unfold rowAction at hact
        split_ifs at hact with hidle hcap
        exact mem_doomed.mpr
          ⟨row'.2, mem_entries.mp hin, hcap, not_lt.mp hidle, hstored⟩

/-! ## Reads -/

def deadOf (st : GroupState) (rows : List (EntryId × PendState)) (consumer : Bytes)
    (found : List (EntryId × Fields)) : List DeadRow :=
  if st.maxdelivery = 0 || rows.isEmpty then [] else splitDead rows st.maxdelivery consumer found

def keptOf (dead : List DeadRow) (found : List (EntryId × Fields)) : List (EntryId × Fields) :=
  found.filter fun e => !dead.any fun d => d.id = e.1

/-- What it takes to hand out the entries `found` of a stream. -/
structure Served (r : Records) (c : ReadCall) (s : Bytes) (st : GroupState) (epoch : Nat)
    (found : List (EntryId × Fields)) (rows : List (EntryId × PendState)) (dead : List DeadRow)
    (kept : List (EntryId × Fields)) (advanced o : Offsets) (tw : List Write)
    (tally : TransferTally) (p p' : Plan) : Prop where
  rows_eq : rows = scanPend (r.pend s c.group) st.delivered (some found.length)
  dead_eq : dead = deadOf st rows c.consumer found
  kept_eq : kept = keptOf dead found
  advanced_eq : advanced =
    found.getLast?.elim p.offsets fun e => p.offsets.advanceDelivered s c.group e.1
  transfer : transferEntries r advanced c.now s c.group st dead false = .ok (o, tw, tally)
  offsets : p'.offsets = o.bumpPending s c.group
    ((kept.filter fun e => (timesOf rows e.1).isNone).length - tally.resolved)
  writes : p'.writes = p.writes ++ tw ++ kept.map (pendRow c s epoch rows) ++
    [(registerConsumer p.known s c.group c.consumer c.now).2]
  results : p'.results = if kept.isEmpty then p.results else p.results ++ [(s, kept)]
  dlqCount : p'.dlqCount = p.dlqCount + tally.resolved
  moves : p'.moves = p.moves ++ tally.moved

theorem filterMap_toPend_pend {α : Type} (s g s' g' : Bytes) (f : α → BatchOp EntryId PendState)
    (l : List α) : (l.map fun a => Write.pend s g (f a)).filterMap (Write.toPend s' g') =
      if s = s' ∧ g = g' then l.map f else [] := by
  rw [filterMap_map]
  split
  · next h =>
    obtain ⟨rfl, rfl⟩ := h
    rw [← filterMap_eq_map]
    exact filterMap_congr fun a _ => toPend_pend s g _
  · next h => exact filterMap_eq_nil_iff.mpr fun a _ => if_neg h

namespace Served

variable {r : Records} {c : ReadCall} {s : Bytes} {st : GroupState} {epoch : Nat}
  {found : List (EntryId × Fields)} {rows : List (EntryId × PendState)} {dead : List DeadRow}
  {kept : List (EntryId × Fields)} {advanced o : Offsets} {tw : List Write} {tally : TransferTally}
  {p p' : Plan}

variable (h : Served r c s st epoch found rows dead kept advanced o tw tally p p')
include h

theorem writes_eq :
    p'.writes = p.writes ++ (tw ++ kept.map (pendRow c s epoch rows) ++
      [(registerConsumer p.known s c.group c.consumer c.now).2]) := by
  rw [h.writes]
  simp

theorem toPend (s' g' : Bytes) : (tw ++ kept.map (pendRow c s epoch rows) ++
      [(registerConsumer p.known s c.group c.consumer c.now).2]).filterMap (Write.toPend s' g') =
      if s = s' ∧ c.group = g' then (dead.map (·.id)).map .del ++ kept.map fun e => .put e.1 {
        consumer := c.consumer
        deliveredMs := c.now
        timesDelivered := (timesOf rows e.1).elim 1 fun old => saturatingAdd old 1
        epoch } else [] := by
  rw [filterMap_append, filterMap_append, (transferEntries_ok h.transfer).2.2.2,
    filterMap_cons_none rfl, filterMap_nil, append_nil, map_map]
  split
  · next hs =>
    exact congrArg (_ ++ ·) ((filterMap_toPend_pend s c.group s' g' _ _).trans (if_pos hs))
  · next hs => exact (filterMap_toPend_pend s c.group s' g' _ _).trans (if_neg hs)

theorem moved : p.offsets.Moves p'.offsets s c.group := by
  have hadv : p.offsets.Moves advanced s c.group := by
    rw [h.advanced_eq]
    cases found.getLast? with
    | none => exact .refl
    | some e => exact moves_advanceDelivered _
  rw [h.offsets]
  exact (hadv.trans (transferEntries_moves h.transfer)).trans (moves_bumpPending _)

theorem busy (hne : found ≠ []) : kept ≠ [] ∨ dead ≠ [] := by
  by_contra hboth
  obtain ⟨hk, hd⟩ := not_or.mp hboth
  rw [not_not] at hk hd
  have hall := h.kept_eq
  rw [hk, hd] at hall
  obtain ⟨e, he⟩ := exists_mem_of_ne_nil _ hne
  exact absurd (filter_eq_nil_iff.mp hall.symm e he) (by simp)

end Served

variable {c : ReadCall} {p p' : Plan} {found : List (EntryId × Fields)}

theorem serveStream_ok (h : serveStream r c {} p s st epoch found = .ok p') :
    ∃ rows dead kept advanced o tw tally,
      Served r c s st epoch found rows dead kept advanced o tw tally p p' := by
  unfold serveStream gateDelivery at h
  dsimp only at h
  split at h
  · cases h
  · next gated hgate =>
    split at hgate
    · cases hgate
    · next o tw tally ht =>
      cases hgate
      cases h
      exact ⟨_, _, _, _, o, tw, tally, rfl, rfl, rfl, rfl, ht, rfl, rfl, rfl, rfl, rfl⟩

structure Loaded (r : Records) (c : ReadCall) (s : Bytes) (st : GroupState) (p p₁ : Plan) : Prop where
  found : p.offsets.peek r c.now s c.group = some st
  offsets : p₁.offsets = (p.offsets.load r c.now s c.group).1
  writes : p₁.writes = p.writes
  results : p₁.results = p.results
  dlqCount : p₁.dlqCount = p.dlqCount
  moves : p₁.moves = p.moves

theorem planStream_ok (h : planStream r c {} p s = .ok p') :
    ∃ st p₁, Loaded r c s st p p₁ ∧
      (p' = p₁ ∨ ∃ cap epoch found, found = scanEntries (r.entries s) st.delivered cap ∧
        found ≠ [] ∧ serveStream r c {} p₁ s st epoch found = .ok p') := by
  unfold planStream at h
  rw [if_neg Bool.false_ne_true] at h
  have hpeek := load_snd p.offsets r c.now s c.group
  cases hload : p.offsets.load r c.now s c.group with
  | mk offsets found =>
    rw [hload] at h hpeek
    cases found with
    | none => cases h
    | some st =>
      dsimp only at h hpeek
      have hloaded : ∀ owners, Loaded r c s st p { p with offsets, owners } := fun owners =>
        ⟨hpeek.symm, by rw [hload], rfl, rfl, rfl, rfl⟩
      split at h
      · next owners _ =>
        cases h
        exact ⟨st, _, hloaded owners, .inl rfl⟩
      · next owners cap epoch _ =>
        rw [if_neg Bool.false_ne_true] at h
        split at h
        · cases h
          exact ⟨st, _, hloaded owners, .inl rfl⟩
        · next hfound => exact ⟨st, _, hloaded owners, .inr ⟨cap, epoch, _, rfl, hfound, h⟩⟩

/-- Every group in `o'` is a later state of the one in `o`. -/
def Offsets.Follows (r : Records) (now : Nat) (o o' : Offsets) : Prop :=
  ∀ s g, ∃ f : GroupState → GroupState, (∀ st : GroupState, st.Later (f st)) ∧
    o'.peek r now s g = (o.peek r now s g).map f

namespace Offsets

variable {r : Records} {now : Nat} {o o' o'' : Offsets} {s g : Bytes}

theorem follows_of_eq (h : ∀ s g, o'.peek r now s g = o.peek r now s g) : Follows r now o o' :=
  fun s g => ⟨id, .refl, by rw [h, Option.map_id, id_eq]⟩

theorem Follows.trans (h : Follows r now o o') (h' : Follows r now o' o'') :
    Follows r now o o'' := by
  intro s g
  obtain ⟨f, hf, hp⟩ := h s g
  obtain ⟨f', hf', hp'⟩ := h' s g
  exact ⟨f' ∘ f, fun st => (hf st).trans (hf' _), by rw [hp', hp, Option.map_map]⟩

theorem Moves.follows (h : o.Moves o' s g) : Follows r now o o' := by
  intro s' g'
  by_cases hne : s = s' ∧ g = g'
  · obtain ⟨rfl, rfl⟩ := hne
    obtain ⟨f, hf, hmap⟩ := h
    unfold peek
    rw [hmap, map_modify]
    cases o.map s g with
    | none => exact ⟨id, .refl, by simp⟩
    | some st => exact ⟨f, hf, rfl⟩
  · exact ⟨id, .refl, by simp [peek, h.map_ne hne]⟩

end Offsets

variable {rows : List (EntryId × PendState)} {kept : List (EntryId × Fields)} {advanced : Offsets}
  {tw : List Write}

theorem mem_of_timesOf {n : Nat}
    (h : timesOf rows id = some n) : ∃ row ∈ rows, row.1 = id ∧ row.2.timesDelivered = n := by
  obtain ⟨row, hrow, hn⟩ := Option.map_eq_some_iff.mp h
  have hid := find?_some hrow
  exact ⟨row, mem_of_find?_eq_some hrow, of_decide_eq_true hid, hn⟩

theorem deadOf_sublist (st : GroupState) (rows : List (EntryId × PendState)) (consumer : Bytes)
    (found : List (EntryId × Fields)) :
    ((deadOf st rows consumer found).map (·.id)).Sublist (found.map (·.1)) := by
  unfold deadOf splitDead
  split
  · exact nil_sublist _
  · rw [map_map]
    exact filter_sublist.map _

variable {consumer : Bytes}

theorem of_mem_deadOf (h : d ∈ deadOf st rows consumer found) :
    d.id ∈ found.map (·.1) ∧ ∃ row ∈ rows, row.1 = d.id ∧
      shouldDeadLetter row.2.timesDelivered st.maxdelivery := by
  refine ⟨(deadOf_sublist st rows consumer found).subset (mem_map_of_mem h), ?_⟩
  unfold deadOf splitDead at h
  split at h
  · cases h
  obtain ⟨e, he, rfl⟩ := mem_map.mp h
  have hcap := (mem_filter.mp he).2
  cases ht : timesOf rows e.1 with
  | none =>
    rw [ht, Option.getD_none, shouldDeadLetter_zero] at hcap
    cases hcap
  | some n =>
    obtain ⟨row, hrow, hid, rfl⟩ := mem_of_timesOf ht
    rw [ht] at hcap
    exact ⟨row, hrow, hid, hcap⟩

theorem scanEntries_sublist (entries : SortedMap EntryId Fields) (after : EntryId) (count : Nat) :
    (scanEntries entries after count).Sublist entries.entries :=
  (take_sublist _ _).trans filter_sublist

variable {cap : Nat}

variable (h : Served r c s st epoch found rows dead kept advanced o tw tally p p')
include h

theorem Served.within {st₀ : GroupState}
    (hfound : found = scanEntries (r.entries s) st.delivered cap) (hlater : st₀.Later st) :
    Within r [⟨s, c.group, st.dlq, dead⟩]
      [⟨s, st₀.dlq, (doomed r st₀ s c.group c.now 0).filter (st₀.delivered < ·)⟩] := by
  refine ⟨_, .refl _, .cons ⟨rfl, hlater.dlq.symm, ?_, fun d hd => ?_⟩ .nil⟩
  · have hsub : (dead.map (·.id)).Sublist ((r.entries s).entries.map (·.1)) := by
      rw [h.dead_eq]
      refine (deadOf_sublist _ _ _ _).trans ?_
      rw [hfound]
      exact (scanEntries_sublist _ _ _).map _
    exact (r.entries s).nodup_keys.sublist hsub
  · obtain ⟨hmem, hstored⟩ := mem_filter.mp hd
    have hmem := h.dead_eq ▸ hmem
    obtain ⟨hid, row, hrow, hrid, hcap⟩ := of_mem_deadOf hmem
    obtain ⟨e, he, hed⟩ := mem_map.mp hid
    rw [hfound] at he
    have hlt : st₀.delivered < d.id := hed ▸ hlater.delivered.trans_lt (lt_of_mem_scanEntries he)
    have hpend : row ∈ (r.pend s c.group).entries := by
      rw [h.rows_eq] at hrow
      exact (scanPend_sublist _ _ _).subset hrow
    rw [mem_filter, decide_eq_true_eq]
    refine ⟨mem_doomed.mpr ⟨row.2, hrid ▸ mem_entries.mp hpend, ?_, Nat.zero_le _, hstored⟩, hlt⟩
    rw [hlater.maxdelivery]
    exact hcap

omit h

theorem planStreams_batch {streams : List Bytes} {i : Nat}
    (hfollows : Offsets.Follows r c.now o p.offsets)
    (h : planStreams r c (fun _ => {}) i p streams = (p', none)) :
    ∃ ws ts, p'.writes = p.writes ++ ws ∧ Batch r c.now ws ts ∧
      p'.moves = p.moves ++ ts.flatMap (Transfer.moves r) ∧
      Within r ts (readThreats r c o streams) := by
  induction streams generalizing p i with
  | nil =>
    cases h
    exact ⟨[], [], by simp, .nil, by simp, within_nil⟩
  | cons s streams ih =>
    unfold planStreams at h
    split at h
    · next p₁ hplan =>
      obtain ⟨st, p₀, hld, hcase⟩ := planStream_ok hplan
      obtain ⟨f, hf, hst⟩ := hfollows s c.group
      rw [hld.found] at hst
      obtain ⟨st₀, hst₀, rfl⟩ := Option.map_eq_some_iff.mp hst.symm
      have hfollows₀ := hld.offsets ▸ hfollows.trans (follows_of_eq (peek_load _ _ _ _ _))
      have hths : readThreats r c o (s :: streams) =
          [⟨s, st₀.dlq, (doomed r st₀ s c.group c.now 0).filter (st₀.delivered < ·)⟩] ++
            readThreats r c o streams := by
        rw [readThreats, filterMap_cons_some (by rw [hst₀]; rfl)]
        rfl
      rcases hcase with rfl | ⟨cap, epoch, found, hfound, -, hserve⟩
      · obtain ⟨ws, ts, hws, hbatch, hmoves, hwithin⟩ := ih hfollows₀ h
        rw [hld.writes] at hws
        rw [hld.moves] at hmoves
        exact ⟨ws, ts, hws, hbatch, hmoves, hths ▸ hwithin.mono (sublist_append_right _ _)⟩
      · obtain ⟨rows, dead, kept, advanced, o', tw, tally, hs⟩ := serveStream_ok hserve
        obtain ⟨ws, ts, hws, hbatch, hmoves, hwithin⟩ := ih (hfollows₀.trans hs.moved.follows) h
        obtain ⟨htw, -, hmoved, -⟩ := transferEntries_ok hs.transfer
        have haside : Batch r c.now (kept.map (pendRow c s epoch rows) ++
            [(registerConsumer p₀.known s c.group c.consumer c.now).2]) [] := .of_aside fun w hw => by
          rcases mem_append.mp hw with hw | hw
          · obtain ⟨e, -, rfl⟩ := mem_map.mp hw
            trivial
          · cases mem_singleton.mp hw
            trivial
        refine ⟨_, _, ?_, (htw.append haside).append hbatch, ?_,
          hths ▸ (hs.within hfound (hf st₀)).append hwithin⟩
        · rw [hws, hs.writes, hld.writes]
          simp
        · rw [hmoves, hs.moves, hld.moves, hmoved]
          simp
    all_goals cases h

theorem validateGroups_spec {P : Offsets → Prop} (l : Runtime) (c : ReadCall) (streams : List Bytes)
    (hload : ∀ o s, P o → P (o.load l.records c.now s c.group).1) (h : P l.offsets) :
    (validateGroups l c streams).1.records = l.records ∧ P (validateGroups l c streams).1.offsets ∧
      (∀ s g, (validateGroups l c streams).1.offsets.peek l.records c.now s g =
        l.offsets.peek l.records c.now s g) ∧
      ((validateGroups l c streams).2 = none →
        ∀ s ∈ streams, (l.offsets.peek l.records c.now s c.group).isSome) := by
  induction streams generalizing l with
  | nil => exact ⟨rfl, h, fun _ _ => rfl, nofun⟩
  | cons s streams ih =>
    have hP := hload l.offsets s h
    have hfound := load_snd l.offsets l.records c.now s c.group
    have hpeek := peek_load l.offsets l.records c.now s c.group
    unfold validateGroups
    generalize l.offsets.load l.records c.now s c.group = loaded at hP hfound hpeek ⊢
    obtain ⟨offsets, found⟩ := loaded
    cases found with
    | none => exact ⟨rfl, hP, hpeek, nofun⟩
    | some st =>
      obtain ⟨hr, hP, hp, hall⟩ := ih { l with offsets } hload hP
      refine ⟨hr, hP, fun s' g' => (hp s' g').trans (hpeek s' g'), fun hnone t ht => ?_⟩
      rcases mem_cons.mp ht with rfl | ht
      · rw [← hfound]
        rfl
      · rw [← hpeek]
        exact hall hnone t ht

theorem xreadgroup_effect (l : Runtime) (c : ReadCall) (streams : List Bytes) :
    Effect l (xreadgroup l c {} streams).runtime c.now (xreadgroup l c {} streams).moves
      (threats l (.xreadgroup c streams)) := by
  unfold xreadgroup
  obtain ⟨hr, -, hpeek, -⟩ := validateGroups_spec (P := fun _ => True) l c streams
    (fun _ _ _ => trivial) trivial
  cases hval : validateGroups l c streams with
  | mk l₁ missing =>
    rw [hval] at hr hpeek
    cases missing with
    | some s => exact effect_of_records_eq hr
    | none =>
      have hths : threats l (.xreadgroup c streams) = readThreats l₁.records c l₁.offsets streams := by
        rw [threats, hr]
        exact filterMap_congr fun s _ => by rw [hpeek]
      dsimp only at hr ⊢
      unfold deliverNew
      split
      · exact effect_of_records_eq hr
      · next p hplan =>
        split
        · exact effect_of_records_eq hr
        obtain ⟨ws, ts, hws, hbatch, hmoves, hwithin⟩ := planStreams_batch (follows_of_eq fun _ _ => rfl) hplan
        rw [hths]
        rw [hr] at hbatch hmoves hwithin
        refine ⟨p.writes, ts, congrArg (·.write p.writes) hr, ?_, ?_, hr.symm ▸ hwithin⟩
        · rw [hws]
          exact hbatch
        · exact hmoves

/-! ## Steps -/

def Action.appends : Action → Bool
  | .xadd .. | .xtrim .. | .xdel .. | .exchange .. => true
  | _ => false

/-- The batch of an ack: the record of the group if its position moves, the rows found pending, and
the activity of their consumers. -/
def ackBatch (l : Runtime) (now : Nat) (s g : Bytes) (ids : List EntryId)
    (heads : List GroupPayload) : List Write :=
  heads.map (.group s g) ++ (pendHits l.records s g ids).map (fun hit => .pend s g (.del hit.1)) ++
    ((pendHits l.records s g ids).map (·.2)).dedup.flatMap fun owner =>
      touchSeen l.records l.known s g owner now

/-- The cache of an ack before the rows are taken off the count. -/
def ackedOffsets (l : Runtime) (now : Nat) (s g : Bytes) (st : GroupState) (ids : List EntryId) :
    Offsets :=
  ((l.offsets.load l.records now s g).1.ack s g ids (ackHead l.records s g st ids)).1

section

variable (l : Runtime) (now : Nat) (s g s' g' : Bytes) (ids : List EntryId)
  (heads : List GroupPayload)

theorem xack_none (h : l.offsets.peek l.records now s g = none) : (xack l now s g ids).1 = l := by
  rw [xack, load, h]

theorem xack_eq {st : GroupState} (h : l.offsets.peek l.records now s g = some st) : ∃ heads,
    (∀ p ∈ heads, p = payloadOf (((ackedOffsets l now s g st ids).map s g).getD st)) ∧
    (xack l now s g ids).1 = { l with
      records := l.records.write (ackBatch l now s g ids heads)
      offsets := (ackedOffsets l now s g st ids).bumpPending s g
        (-((pendHits l.records s g ids).length : Int)) } := by
  unfold xack ackedOffsets
  have hload := load_snd l.offsets l.records now s g
  generalize l.offsets.load l.records now s g = loaded at hload ⊢
  obtain ⟨offsets, found⟩ := loaded
  rw [h] at hload
  cases hload
  dsimp only
  split
  · next hidle =>
    have hnil := List.isEmpty_iff.mp (Bool.and_eq_true_iff.mp hidle).2
    refine ⟨[], nofun, ?_⟩
    simp [ackBatch, hnil, bumpPending, Offsets.modify, update₂_self, Records.write]
  split
  · exact ⟨[_], fun p hp => mem_singleton.mp hp, rfl⟩
  · exact ⟨[], nofun, rfl⟩

theorem filterMap_touchSeen {β : Type} {f : Write → Option β}
    (hf : ∀ op, f (.consumer s g op) = none) (r : Records) (known : Known) (consumers : List Bytes) :
    (consumers.flatMap fun consumer => touchSeen r known s g consumer now).filterMap f = [] := by
  rw [filterMap_flatMap, flatMap_eq_nil_iff]
  intro consumer _
  unfold touchSeen
  split
  · rfl
  · exact filterMap_cons_none (hf _)

theorem ackBatch_aside : ∀ w ∈ ackBatch l now s g ids heads, w.Aside := by
  intro w hw
  rcases mem_append.mp hw with hw | hw
  · rcases mem_append.mp hw with hw | hw <;> obtain ⟨_, -, rfl⟩ := mem_map.mp hw <;> trivial
  · obtain ⟨owner, -, hw⟩ := mem_flatMap.mp hw
    unfold touchSeen at hw
    split at hw
    · cases hw
    · cases mem_singleton.mp hw
      trivial

theorem pendHits_ids (r : Records) :
    (pendHits r s g ids).map (·.1) = ids.filter fun id => ((r.pend s g).get id).isSome := by
  unfold pendHits
  induction ids with
  | nil => rfl
  | cons id ids ih =>
    cases h : (r.pend s g).get id with
    | none =>
      rw [filterMap_cons_none (by rw [h]; rfl), filter_cons_of_neg (by simp [h]), ih]
    | some row =>
      rw [filterMap_cons_some (by rw [h]; rfl), filter_cons_of_pos (by simp [h]), map_cons, ih]

theorem ackBatch_toPend : (ackBatch l now s g ids heads).filterMap (Write.toPend s' g') =
    if s = s' ∧ g = g' then (ids.filter fun id => ((l.records.pend s g).get id).isSome).map .del
    else [] := by
  rw [ackBatch, filterMap_append, filterMap_append, filterMap_toPend_pend,
    filterMap_touchSeen now s g fun _ => rfl, append_nil,
    filterMap_eq_nil_iff.mpr (by simp [toPend]), nil_append, ← pendHits_ids,
    map_map]
  rfl

theorem ackBatch_toGroup : (ackBatch l now s g ids heads).filterMap (Write.toGroup s' g') =
    if s = s' ∧ g = g' then heads else [] := by
  rw [ackBatch, filterMap_append, filterMap_append,
    filterMap_touchSeen now s g fun _ => rfl, append_nil]
  by_cases h : s = s' ∧ g = g' <;> simp [toGroup, h, filterMap_map, Function.comp_def]

theorem xack_effect (ths : List Threat) : Effect l (xack l now s g ids).1 now [] ths := by
  cases h : l.offsets.peek l.records now s g with
  | none => exact effect_of_records_eq (by rw [xack_none l now s g ids h])
  | some st =>
    obtain ⟨heads, -, heq⟩ := xack_eq l now s g ids h
    exact effect_of_aside (by rw [heq]) (ackBatch_aside l now s g ids heads)

end

theorem delconsumer_effect (l : Runtime) (s g consumer : Bytes) (now : Nat) (ths : List Threat) :
    Effect l (delconsumer l s g consumer).1 now [] ths := by
  refine effect_of_aside rfl fun w hw => ?_
  rcases mem_append.mp hw with hw | hw
  · obtain ⟨id, -, rfl⟩ := mem_map.mp hw
    trivial
  · cases mem_singleton.mp hw
    trivial

theorem setid_effect (l : Runtime) (s g : Bytes) (id : EntryId) (now : Nat) (ths : List Threat) :
    Effect l (setid l s g id) now [] ths := by
  unfold setid
  split
  · exact effect_of_records_eq rfl
  · exact effect_of_aside rfl fun w hw => by cases mem_singleton.mp hw; trivial

theorem flushGroup_effect (l : Runtime) (s g : Bytes) (now : Nat) (ths : List Threat) :
    Effect l (flushGroup l s g) now [] ths := by
  unfold flushGroup
  split
  · cases l.offsets.map s g with
    | none => exact effect_of_records_eq rfl
    | some st => exact effect_of_aside rfl fun w hw => by cases mem_singleton.mp hw; trivial
  · exact effect_of_records_eq rfl

theorem step_effect {w w' : World} {a : Action} (ha : a.appends = false)
    (h : step w a = some w') :
    ∃ now moves, Effect w.runtime w'.runtime now moves (threats w.runtime a) ∧
      w'.moves = w.moves ++ moves := by
  cases a with cases h
  | xadd | xtrim | xdel | exchange => cases ha
  | xreadgroup c streams =>
    exact ⟨_, _, xreadgroup_effect _ _ _, rfl⟩
  | xack now s g ids =>
    exact ⟨_, _, xack_effect _ _ _ _ _ _, (append_nil _).symm⟩
  | xclaim c s ids =>
    exact ⟨_, _, xclaim_effect _ _ _ _, rfl⟩
  | xautoclaim c s start count =>
    exact ⟨_, _, xautoclaim_effect _ _ _ _ _, rfl⟩
  | sweep now idle leaseMs s g =>
    exact ⟨_, _, sweepGroup_effect _ _ _ _ _ _, rfl⟩
  | delconsumer s g consumer =>
    exact ⟨0, _, delconsumer_effect _ _ _ _ _ _, (append_nil _).symm⟩
  | setid s g id =>
    exact ⟨0, _, setid_effect _ _ _ _ _ _, (append_nil _).symm⟩
  | flush s g =>
    exact ⟨0, _, flushGroup_effect _ _ _ _ _, (append_nil _).symm⟩
  | restart =>
    exact ⟨0, _, effect_of_records_eq rfl, (append_nil _).symm⟩

theorem xadd_cases (now : Nat) (o : XaddOpts) (idArg : IdArg) (fields : Fields)
    (ht : Timeless l.records s) (hbound : Bounded l.records s) :
    xadd l now s o idArg fields = l ∨
    ∃ id ws next victims, xaddBatch l.records now s o idArg fields = .ok (some (id, ws)) ∧
      (xadd l now s o idArg fields).records = l.records.write ws ∧
      Accounts l.records s ws next (appended o id fields) victims ∧
      (o.trim = none → victims = []) := by
  unfold xadd
  rw [reap_of_timeless ht]
  dsimp only
  split
  · exact .inl rfl
  · exact .inl rfl
  · next id ws hbatch =>
    obtain ⟨next, victims, hacc, -, hvict⟩ := xaddBatch_accounts hbound ht hbatch
    exact .inr ⟨id, ws, next, victims, hbatch, rfl, hacc, hvict⟩

end Rdb.Lite
