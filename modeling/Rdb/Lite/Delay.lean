import Rdb.Lite.System

/-!
# Delayed messages under the due sweep

A round of the sweep first collects the due rows of all slots, without a latch, and
then takes the streams one after the other: latch the stream and read its meta record,
build the batch, write it. The rows are used as they were collected. XADD, XTRIM, XDEL
and the deletion of a topic wait for the latch; DEL and RENAME take another one.

DEL and RENAME work in the slot their key routes to, and a stream command looks for a
name in the slot of its parent: a stream that RENAME puts under a name of another slot
is out of reach of the stream commands (`strays`), but its staged rows are collected
under the new name.

Every stream gets a number when it is created and keeps it when it is renamed, and every
staged row a number of its own (`Tag`). `exchanged_once`: as long as no command has
taken a stream away between the scan and its batch, each row becomes one entry, and an
entry of the stream it was sent to.
-/

namespace Rdb.Lite.Delay

open Lib List SortedMap
open Option (some map_eq_some_iff ite_none_left_eq_some)
open Function (update update_self update_of_ne)

/-! ## Places -/

/-- The records of a stream that go where it goes. -/
structure Family where
  head : MetaRecord
  entries : SortedMap EntryId Fields
  groups : Bytes → Option GroupPayload
  pend : Bytes → SortedMap EntryId PendState
  consumers : Bytes → SortedMap Bytes ConsumerState
  window : Window
  ledger : Bool

def Home (slot : Nat) (s : Bytes) : Prop := (streamPrefix s).isSome ∧ streamSlot s = slot
  deriving Decidable

/-- The number of the stream a row was sent to, and its own. -/
structure Tag where
  sent : Nat
  token : Nat

structure Found where
  key : DelayKey
  fields : Fields
  tag : Tag

/-- The rows of one stream that wait for their batch; `touched` once a command has taken a stream
of this name away since. -/
structure Waiting where
  stream : Bytes
  rows : List Found
  touched : Bool := false

/-- A stream under its latch, with the batch that is to be written. -/
structure Opened where
  entry : Waiting
  batch : List Write
  got : List (EntryId × Found)

/-- A row that became the entry `id` of the stream `into`. -/
structure Exchanged where
  token : Nat
  sent : Nat
  into : Nat
  id : EntryId
  deriving DecidableEq

structure World where
  records : Records := {}
  strays : Nat → Bytes → Option Family := fun _ _ => none
  now : Nat := 0
  queue : List Waiting := []
  opened : Option Opened := none
  streams : Nat := 0
  tokens : Nat := 0
  idents : Nat → Bytes → Nat := fun _ _ => 0
  tags : DelayKey → Tag := fun _ => ⟨0, 0⟩
  done : List Exchanged := []

namespace World

def familyAt (w : World) (slot : Nat) (s : Bytes) : Option Family :=
  if Home slot s then (w.records.metas s).map fun head =>
    { head
      entries := w.records.entries s
      groups := w.records.groups s
      pend := w.records.pend s
      consumers := w.records.consumers s
      window := w.records.window s
      ledger := w.records.ledger s }
  else w.strays slot s

def setFamily (w : World) (slot : Nat) (s : Bytes) (f : Option Family) : World :=
  if Home slot s then
    { w with records := { w.records with
      metas := update w.records.metas s (f.map (·.head))
      entries := update w.records.entries s (f.elim .empty (·.entries))
      groups := update w.records.groups s (f.elim (fun _ => none) (·.groups))
      pend := update w.records.pend s (f.elim (fun _ => .empty) (·.pend))
      consumers := update w.records.consumers s (f.elim (fun _ => .empty) (·.consumers))
      window := update w.records.window s (f.elim .empty (·.window))
      ledger := update w.records.ledger s (f.elim false (·.ledger)) } }
  else
    { w with strays := fun slot' s' => if slot' = slot ∧ s' = s then f else w.strays slot' s' }

def writeDelays (w : World) (ops : List (BatchOp DelayKey Fields)) : World :=
  { w with records := { w.records with delays := w.records.delays.write ops } }

def staged (w : World) (slot : Nat) (s : Bytes) : List (DelayKey × Fields) :=
  w.records.delays.entries.filter fun e => e.1.slot = slot ∧ e.1.stream = s

def Waiting.touch (names : List Bytes) (e : Waiting) : Waiting :=
  if e.stream ∈ names then { e with touched := true } else e

def touch (w : World) (names : List Bytes) : World :=
  { w with
    queue := w.queue.map (Waiting.touch names)
    opened := w.opened.map fun o => { o with entry := Waiting.touch names o.entry } }

def numbered (w : World) (slot : Nat) (s : Bytes) : World :=
  { w with
    streams := w.streams + 1
    idents := fun slot' s' => if slot' = slot ∧ s' = s then w.streams else w.idents slot' s' }

def latched (w : World) (s : Bytes) : Bool :=
  w.opened.any fun o => decide (o.entry.stream = s) && (streamPrefix s).isSome

end World

/-! ## Commands -/

/-- A family delete in a slot: the staged rows of the name go with it. -/
def del (w : World) (slot : Nat) (s : Bytes) : World :=
  match w.familyAt slot s with
  | none => w
  | some _ =>
    (((w.setFamily slot s none).writeDelays ((w.staged slot s).map fun e => .del e.1))).touch [s]

def rekey (k : DelayKey) (s : Bytes) : DelayKey := ⟨k.slot, k.due, s, k.id⟩

/-- The staged rows of a rename: those of the overwritten stream go, those of the moved one get
the new name. -/
def renameOps (w : World) (slot : Nat) (src dst : Bytes) : List (BatchOp DelayKey Fields) :=
  (if (w.familyAt slot dst).isSome then (w.staged slot dst).map fun e => .del e.1 else []) ++
  (w.staged slot src).flatMap fun e => [.put (rekey e.1 dst) e.2, .del e.1]

def rename (w : World) (slot : Nat) (src dst : Bytes) (nx : Bool) : World :=
  if src = dst then w
  else match w.familyAt slot src with
    | none => w
    | some f =>
      if nx && (w.familyAt slot dst).isSome then w
      else
        let moved := ((w.setFamily slot src none).setFamily slot dst (some f)).writeDelays
          (renameOps w slot src dst)
        { moved with
          idents := fun slot' s' =>
            if slot' = slot ∧ s' = dst then w.idents slot src else w.idents slot' s'
          tags := fun k =>
            if k.slot = slot ∧ k.stream = dst then w.tags (rekey k src) else w.tags k
          : World }.touch [src, dst]

/-- XADD; a delayed message is a staged row of the stream. -/
def append (w : World) (now : Nat) (s : Bytes) (o : XaddOpts) (idArg : IdArg) (fields : Fields) :
    World :=
  let w' := if readMeta w.records now s = .purged then w.touch [s] else w
  let w' := { w' with records := (xadd { records := w.records } now s o idArg fields).records }
  match xaddBatch (reap w.records now s) now s o idArg fields with
  | .error _ | .ok none => w'
  | .ok (some (id, _)) =>
    let w' := if (metaOrFresh (reap w.records now s) now s).2 then w'.numbered (streamSlot s) s
      else w'
    if o.delayMs = 0 then w'
    else { w' with
      tokens := w'.tokens + 1
      tags := update w'.tags ⟨streamSlot s, now + o.delayMs, s, id⟩
        ⟨w'.idents (streamSlot s) s, w'.tokens⟩ }

def removal (w : World) (now : Nat) (s : Bytes)
    (batch : Records → Except AppendError (List EntryId × List Write)) : World :=
  let w' := if readMeta w.records now s = .purged then w.touch [s] else w
  { w' with records := (remove { records := w.records } now s batch).records }

/-! ## The sweep -/

def roundBudget : Nat := 128

/-- The due rows of the slots one after the other; a slot's rows lie by their due times. -/
def dueRows (r : Records) (now : Nat) : List (DelayKey × Fields) :=
  (r.delays.entries.filter fun e => e.1.due ≤ now).take roundBudget

/-- A row joins those of its stream, or starts a new one. -/
def pushRow (queue : List Waiting) (row : Found) : List Waiting :=
  if queue.any (·.stream = row.key.stream) then
    queue.map fun e => if e.stream = row.key.stream then { e with rows := e.rows ++ [row] } else e
  else queue ++ [{ stream := row.key.stream, rows := [row] }]

def groupRows (rows : List Found) : List Waiting := rows.foldl pushRow []

def scan (w : World) (now : Nat) : Option World :=
  if w.queue.isEmpty && w.opened.isNone then
    some { w with
      now
      queue := groupRows ((dueRows w.records now).map fun e => ⟨e.1, e.2, w.tags e.1⟩) }
  else none

def Waiting.due (e : Waiting) : List DueRow := e.rows.map fun row => (row.key, row.fields)

def takenRows (r : Records) (now : Nat) (s : Bytes) (rows : List Found) : List (EntryId × Found) :=
  match streamPrefix s, (readMeta r now s).live? with
  | some _, some m =>
    let got := allotIds m.lastId now rows
    match got.getLast? with
    | none => []
    | some (last, _) =>
      if (idleDeadline (m.withLast last) now).isSome then got else []
  | _, _ => []

/-- Latch the next stream, read its meta record and build the batch; a stream in use is left for
the next round. Of a stream that is gone there is nothing left to be taken away. -/
def latch (w : World) (busy : Bool) : Option World :=
  match w.opened, w.queue with
  | none, e :: rest =>
    let named := (streamPrefix e.stream).isSome
    if busy && named then some { w with queue := rest }
    else
      let live := named && (readMeta w.records w.now e.stream).live?.isSome
      some { w with
        records := if named then reap w.records w.now e.stream else w.records
        queue := rest
        opened := some {
          entry := { e with touched := e.touched && live }
          batch := exchangeBatch w.records w.now e.stream e.due
          got := takenRows w.records w.now e.stream e.rows } }
  | _, _ => none

/-- Write the batch. If the stream was taken away since the latch, the write starts a new one. -/
def write (w : World) : Option World :=
  match w.opened with
  | none => none
  | some o =>
    let s := o.entry.stream
    let w' := if !o.got.isEmpty && (w.records.metas s).isNone then w.numbered (streamSlot s) s
      else w
    some { w' with
      records := w.records.write o.batch
      opened := none
      done := w.done ++ o.got.map fun e =>
        ⟨e.2.tag.token, e.2.tag.sent, w'.idents (streamSlot s) s, e.1⟩ }

/-! ## Steps -/

inductive Action where
  | xadd (now : Nat) (s : Bytes) (o : XaddOpts) (id : IdArg) (fields : Fields)
  | xtrim (now : Nat) (s : Bytes) (plan : TrimPlan)
  | xdel (now : Nat) (s : Bytes) (ids : List EntryId)
  /-- DEL in the slot of its key, or the deletion of a topic, which takes the stream's latch. -/
  | del (topic : Bool) (slot : Nat) (s : Bytes)
  | rename (slot : Nat) (src dst : Bytes) (nx : Bool)
  | scan (now : Nat)
  | latch (busy : Bool)
  | write

/-- A stream command refuses a name without a slot, and waits for the latch. -/
def onStream (w : World) (s : Bytes) (w' : World) : Option World :=
  if (streamPrefix s).isNone then some w else if w.latched s then none else some w'

def step (w : World) : Action → Option World
  | .xadd now s o id fields => onStream w s (append w now s o id fields)
  | .xtrim now s plan => onStream w s (removal w now s (xtrimBatch · now s plan))
  | .xdel now s ids => onStream w s (removal w now s (xdelBatch · now s ids))
  | .del topic slot s => if topic && w.latched s then none else some (del w slot s)
  | .rename slot src dst nx => some (rename w slot src dst nx)
  | .scan now => scan w now
  | .latch busy => latch w busy
  | .write => write w

/-! ## What a command leaves alone -/

variable {w w' : World} {slot : Nat} {s : Bytes}

namespace World

def headAt (w : World) (slot : Nat) (s : Bytes) : Option MetaRecord :=
  if Home slot s then w.records.metas s else (w.strays slot s).map (·.head)

abbrev row (w : World) (k : DelayKey) : Option Fields := w.records.delays.get k

theorem map_head_familyAt (w : World) (slot : Nat) (s : Bytes) :
    (w.familyAt slot s).map (·.head) = w.headAt slot s := by
  unfold familyAt headAt
  split
  · rw [Option.map_map]
    exact congrFun Option.map_id _
  · rfl

theorem headAt_home (h : Home slot s) : w.headAt slot s = w.records.metas s := if_pos h

theorem headAt_setFamily (w : World) (slot : Nat) (s : Bytes) (f : Option Family) (slot' : Nat)
    (s' : Bytes) : (w.setFamily slot s f).headAt slot' s' =
      if slot' = slot ∧ s' = s then f.map (·.head) else w.headAt slot' s' := by
  unfold setFamily headAt
  by_cases hhome : Home slot s
  · rw [if_pos hhome]
    dsimp only
    by_cases hs : s' = s
    · subst hs
      by_cases hslot : slot' = slot
      · subst hslot
        rw [if_pos hhome, if_pos ⟨rfl, rfl⟩, update_self]
      · have hnot : ¬ Home slot' s' := fun h => hslot (h.2.symm.trans hhome.2)
        rw [if_neg hnot, if_neg fun h => hslot h.1, if_neg hnot]
    · rw [update_of_ne hs, if_neg fun h : slot' = slot ∧ s' = s => hs h.2]
  · rw [if_neg hhome]
    dsimp only
    by_cases hs : slot' = slot ∧ s' = s
    · obtain ⟨rfl, rfl⟩ := hs
      rw [if_neg hhome, if_pos ⟨rfl, rfl⟩, if_pos ⟨rfl, rfl⟩]
    · rw [if_neg hs, if_neg hs]

theorem setFamily_eq (w : World) (slot : Nat) (s : Bytes) (f : Option Family) :
    ∃ records strays, w.setFamily slot s f = { w with records, strays } ∧
      records.delays = w.records.delays := by
  unfold setFamily
  split <;> exact ⟨_, _, rfl, rfl⟩

theorem metas_setFamily_ne (w : World) (slot : Nat) (s : Bytes) (f : Option Family) {t : Bytes}
    (h : t ≠ s) : (w.setFamily slot s f).records.metas t = w.records.metas t := by
  unfold setFamily
  split
  · exact update_of_ne h _ _
  · rfl

end World

/-- The rows of a waiting entry: of one stream, different, and still staged unless the entry is
touched. -/
structure Fine (w : World) (e : Waiting) : Prop where
  named : ∀ row ∈ e.rows, row.key.stream = e.stream
  nodup : (e.rows.map (·.key)).Nodup
  present : e.touched = false → ∀ row ∈ e.rows, w.row row.key = some row.fields ∧
    w.tags row.key = row.tag

/-- The batch under the latch is the one that the state gives. -/
structure FineOpen (w : World) (o : Opened) : Prop where
  named : ∀ row ∈ o.entry.rows, row.key.stream = o.entry.stream
  nodup : (o.entry.rows.map (·.key)).Nodup
  batch : o.entry.touched = false →
    o.batch = exchangeBatch w.records w.now o.entry.stream o.entry.due ∧
      o.got = takenRows w.records w.now o.entry.stream o.entry.rows
  present : o.entry.touched = false → (streamPrefix o.entry.stream).isSome →
    (w.records.metas o.entry.stream).isSome →
    ∀ row ∈ o.entry.rows, w.row row.key = some row.fields ∧ w.tags row.key = row.tag

def Keeps (w w' : World) (s : Bytes) : Prop :=
  ∀ k f, k.stream = s → w.row k = some f → w'.row k = some f ∧ w'.tags k = w.tags k

theorem Fine.keep {e : Waiting} (h : Fine w e) (hk : Keeps w w' e.stream) : Fine w' e := by
  refine ⟨h.named, h.nodup, fun ht row hrow => ?_⟩
  obtain ⟨hget, htag⟩ := h.present ht row hrow
  obtain ⟨hget', htag'⟩ := hk row.key row.fields (h.named row hrow) hget
  exact ⟨hget', htag'.trans htag⟩

variable {r : Records}

theorem exchangeBatch_congr {r' : Records} (h : r'.metas s = r.metas s) (now : Nat)
    (rows : List DueRow) : exchangeBatch r' now s rows = exchangeBatch r now s rows := by
  unfold exchangeBatch readMeta
  rw [h]

theorem takenRows_congr {r' : Records} (h : r'.metas s = r.metas s) (now : Nat)
    (rows : List Found) : takenRows r' now s rows = takenRows r now s rows := by
  unfold takenRows readMeta
  rw [h]

variable {o : Opened}

theorem FineOpen.keep (h : FineOpen w o) (hk : Keeps w w' o.entry.stream) (hnow : w'.now = w.now)
    (hm : w'.records.metas o.entry.stream = w.records.metas o.entry.stream) : FineOpen w' o := by
  refine ⟨h.named, h.nodup, fun ht => ?_, fun ht hpre hsome row hrow => ?_⟩
  · rw [exchangeBatch_congr hm, takenRows_congr hm, hnow]
    exact h.batch ht
  · obtain ⟨hget, htag⟩ := h.present ht hpre (hm ▸ hsome) row hrow
    obtain ⟨hget', htag'⟩ := hk row.key row.fields (h.named row hrow) hget
    exact ⟨hget', htag'.trans htag⟩

/-! ## The invariant -/

/-- A staged row belongs to the stream in its place: it has an id from there, carries its number,
and has not been exchanged. -/
structure Owned (w : World) (k : DelayKey) : Prop where
  head : ∃ m, w.headAt k.slot k.stream = some m ∧ k.id ≤ m.payload.lastId
  sent : (w.tags k).sent = w.idents k.slot k.stream
  token : (w.tags k).token < w.tokens
  free : (w.tags k).token ∉ w.done.map (·.token)

structure Booked (w : World) : Prop where
  timeless : ∀ slot s m, w.headAt slot s = some m → m.payload.idleMs = 0 ∧ m.expire = 0
  owned : ∀ k f, w.row k = some f → Owned w k
  distinct : ∀ k k' f f', w.row k = some f → w.row k' = some f' →
    (w.tags k).token = (w.tags k').token → k = k'
  doneNodup : (w.done.map (·.token)).Nodup
  doneLt : ∀ x ∈ w.done, x.token < w.tokens
  doneInto : ∀ x ∈ w.done, x.into = x.sent

structure Swept (w : World) : Prop where
  queue : ∀ e ∈ w.queue, Fine w e
  opened : ∀ o ∈ w.opened, FineOpen w o
  streams : (w.opened.toList.map (·.entry.stream) ++ w.queue.map (·.stream)).Nodup

structure Sound (w : World) : Prop where
  booked : Booked w
  swept : Swept w

theorem Booked.timeless_records (h : Booked w)
    (hpre : (streamPrefix s).isSome) : Timeless w.records s := fun m hm =>
  h.timeless (streamSlot s) s m ((World.headAt_home ⟨hpre, rfl⟩).trans hm)

/-- The row at `k` was at `o` before, in a place whose last id was not higher. -/
structure From (w w' : World) (k o : DelayKey) : Prop where
  tags : w'.tags k = w.tags o
  idents : w'.idents k.slot k.stream = w.idents o.slot o.stream
  id : k.id = o.id
  head : ∀ m, w.headAt o.slot o.stream = some m →
    ∃ m', w'.headAt k.slot k.stream = some m' ∧ m.payload.lastId ≤ m'.payload.lastId

theorem Booked.step (h : Booked w) (o : DelayKey → Option DelayKey) (log : List Exchanged)
    (hold : ∀ k f k', w'.row k = some f → o k = some k' →
      w.row k' = some f ∧ From w w' k k' ∧ (w.tags k').token ∉ log.map (·.token))
    (hnew : ∀ k f, w'.row k = some f → o k = none →
      w'.tags k = ⟨w'.idents k.slot k.stream, w.tokens⟩ ∧ w.tokens < w'.tokens ∧
        ∃ m, w'.headAt k.slot k.stream = some m ∧ k.id ≤ m.payload.lastId)
    (hinj : ∀ k k' f f', w'.row k = some f → w'.row k' = some f' → o k = o k' → k = k')
    (htokens : w.tokens ≤ w'.tokens) (hdone : w'.done = w.done ++ log)
    (hlog : ∀ x ∈ log, x.into = x.sent ∧ ∃ k f, w.row k = some f ∧ x.token = (w.tags k).token)
    (hnodup : (log.map (·.token)).Nodup)
    (htimeless : ∀ slot s m, w'.headAt slot s = some m → m.payload.idleMs = 0 ∧ m.expire = 0) :
    Booked w' := by
  have hlt : ∀ x ∈ w'.done, x.token < w.tokens := by
    intro x hx
    rw [hdone] at hx
    rcases mem_append.mp hx with hx | hx
    · exact h.doneLt x hx
    · obtain ⟨-, k, f, hk, htok⟩ := hlog x hx
      exact htok ▸ (h.owned k f hk).token
  refine ⟨htimeless, fun k f hk => ?_, fun k k' f f' hk hk' htok => ?_, ?_,
    fun x hx => (hlt x hx).trans_le htokens, fun x hx => ?_⟩
  · cases ho : o k with
    | none =>
      obtain ⟨htag, hnext, hhead⟩ := hnew k f hk ho
      refine ⟨hhead, by rw [htag], by rw [htag]; exact hnext, fun hmem => ?_⟩
      obtain ⟨x, hx, heq⟩ := mem_map.mp hmem
      rw [htag] at heq
      exact (hlt x hx).ne heq
    | some k' =>
      obtain ⟨hk', hfrom, hfresh⟩ := hold k f k' hk ho
      obtain ⟨⟨m, hm, hle⟩, hsent, htok, hfree⟩ := h.owned k' f hk'
      obtain ⟨m', hm', hle'⟩ := hfrom.head m hm
      refine ⟨⟨m', hm', hfrom.id.trans_le (hle.trans hle')⟩, ?_, ?_, ?_⟩
      · rw [hfrom.tags, hfrom.idents]
        exact hsent
      · rw [hfrom.tags]
        exact htok.trans_le htokens
      · rw [hfrom.tags, hdone, map_append, mem_append, not_or]
        exact ⟨hfree, hfresh⟩
  · refine hinj k k' f f' hk hk' ?_
    cases ho : o k <;> cases ho' : o k'
    · rfl
    · obtain ⟨hk', hfrom, -⟩ := hold k' f' _ hk' ho'
      rw [(hnew k f hk ho).1, hfrom.tags] at htok
      exact absurd htok.symm (h.owned _ f' hk').token.ne
    · obtain ⟨hk, hfrom, -⟩ := hold k f _ hk ho
      rw [(hnew k' f' hk' ho').1, hfrom.tags] at htok
      exact absurd htok (h.owned _ f hk).token.ne
    · obtain ⟨hk, hfrom, -⟩ := hold k f _ hk ho
      obtain ⟨hk', hfrom', -⟩ := hold k' f' _ hk' ho'
      rw [hfrom.tags, hfrom'.tags] at htok
      rw [h.distinct _ _ f f' hk hk' htok]
  · rw [hdone, map_append, nodup_append]
    refine ⟨h.doneNodup, hnodup, ?_⟩
    rintro _ hdone _ hmem rfl
    obtain ⟨x, hx, heq⟩ := mem_map.mp hmem
    obtain ⟨-, k, f, hk, htok⟩ := hlog x hx
    rw [← heq, htok] at hdone
    exact (h.owned k f hk).free hdone
  · rw [hdone] at hx
    rcases mem_append.mp hx with hx | hx
    · exact h.doneInto x hx
    · exact (hlog x hx).1

theorem Booked.shrink (h : Booked w) (htokens : w'.tokens = w.tokens) (hdone : w'.done = w.done)
    (hrows : ∀ k f, w'.row k = some f → w.row k = some f ∧ From w w' k k)
    (htimeless : ∀ slot s m, w'.headAt slot s = some m → m.payload.idleMs = 0 ∧ m.expire = 0) :
    Booked w' := by
  refine h.step some _ (fun k f k' hk ho => ?_) nofun (fun _ _ _ _ _ _ ho => some.inj ho)
    htokens.ge (hdone.trans (append_nil _).symm) nofun .nil htimeless
  cases ho
  exact ⟨(hrows k f hk).1, (hrows k f hk).2, not_mem_nil⟩

theorem Booked.sweep (h : Booked w) (now : Nat) (queue : List Waiting) (opened : Option Opened) :
    Booked { w with now, queue, opened } :=
  h.shrink rfl rfl (fun _ _ hk => ⟨hk, rfl, rfl, rfl, fun m hm => ⟨m, hm, le_rfl⟩⟩) h.timeless

theorem World.Waiting.stream_touch (names : List Bytes) (e : Waiting) :
    (Waiting.touch names e).stream = e.stream := by
  unfold Waiting.touch
  split <;> rfl

theorem Swept.touch (h : Swept w) (names : List Bytes) (hq : w'.queue = w.queue)
    (ho : w'.opened = w.opened) (hnow : w'.now = w.now)
    (hkeep : ∀ t, t ∉ names → Keeps w w' t ∧ w'.records.metas t = w.records.metas t) :
    Swept (w'.touch names) := by
  refine ⟨fun e he => ?_, fun o ho' => ?_, ?_⟩
  · obtain ⟨e₀, he₀, rfl⟩ := mem_map.mp he
    rw [hq] at he₀
    have hfine := h.queue e₀ he₀
    unfold World.Waiting.touch
    split
    · exact ⟨hfine.named, hfine.nodup, nofun⟩
    · next hnot =>
      have hk := (hkeep _ hnot).1
      exact hfine.keep hk
  · obtain ⟨o₀, ho₀, rfl⟩ := map_eq_some_iff.mp ho'
    rw [ho] at ho₀
    have hfine := h.opened o₀ ho₀
    unfold World.Waiting.touch
    split
    · exact ⟨hfine.named, hfine.nodup, nofun, nofun⟩
    · next hnot =>
      have hk := (hkeep _ hnot).1
      exact hfine.keep hk hnow (hkeep _ hnot).2
  · have hstreams := h.streams
    unfold World.touch
    rw [hq, ho]
    simp only [Option.toList_map, map_map, Function.comp_def, World.Waiting.stream_touch]
    exact hstreams

/-! ## DEL and RENAME -/

theorem row_writeDelays (w : World) (ops : List (BatchOp DelayKey Fields)) (k : DelayKey) :
    (w.writeDelays ops).row k = (lastWrite k ops).getD (w.row k) :=
  get_write _ _ _

theorem mem_staged {e : DelayKey × Fields} :
    e ∈ w.staged slot s ↔ w.row e.1 = some e.2 ∧ e.1.slot = slot ∧ e.1.stream = s := by
  unfold World.staged
  rw [mem_filter, mem_entries, decide_eq_true_eq]

theorem lastWrite_staged (w : World) (slot : Nat) (s : Bytes) (k : DelayKey) :
    (lastWrite k ((w.staged slot s).map fun e => BatchOp.del e.1)).getD (w.row k) =
      if k.slot = slot ∧ k.stream = s then none else w.row k := by
  have hmap : ((w.staged slot s).map fun e => (BatchOp.del e.1 : BatchOp DelayKey Fields)) =
      ((w.staged slot s).map (·.1)).map .del := by rw [map_map]; rfl
  rw [hmap, lastWrite_map_del]
  by_cases hmem : k ∈ (w.staged slot s).map (·.1)
  · obtain ⟨e, he, rfl⟩ := mem_map.mp hmem
    rw [if_pos hmem, if_pos (mem_staged.mp he).2]
    rfl
  · rw [if_neg hmem]
    split
    · next hplace =>
      cases hrow : w.row k with
      | none => rfl
      | some f =>
        have hin : (k, f) ∈ w.staged slot s := mem_staged.mpr ⟨hrow, hplace⟩
        exact absurd (mem_map_of_mem hin) hmem
    · rfl

theorem del_sound (hs : Sound w) (slot : Nat) (s : Bytes) : Sound (del w slot s) := by
  unfold del
  cases hf : w.familyAt slot s with
  | none => exact hs
  | some f =>
    have hhead := w.headAt_setFamily slot s none
    have hmetas := fun t => w.metas_setFamily_ne slot s none (t := t)
    obtain ⟨records, strays, hset, hdelays⟩ := w.setFamily_eq slot s none
    rw [hset] at hhead hmetas ⊢
    have hrow : ∀ k, (World.writeDelays { w with records, strays }
        ((w.staged slot s).map fun e => .del e.1)).row k =
        if k.slot = slot ∧ k.stream = s then none else w.row k := by
      intro k
      rw [row_writeDelays, World.row, hdelays]
      exact lastWrite_staged w slot s k
    have hbooked : Booked (World.writeDelays { w with records, strays }
        ((w.staged slot s).map fun e => .del e.1)) := by
      refine hs.booked.shrink rfl rfl (fun k f hk => ?_) fun slot' s' m hm => ?_
      · rw [hrow, ite_none_left_eq_some] at hk
        exact ⟨hk.2, rfl, rfl, rfl,
          fun m hm => ⟨m, ((hhead _ _).trans (if_neg hk.1)).trans hm, le_rfl⟩⟩
      · have hm := (hhead slot' s').symm.trans hm
        split at hm
        · cases hm
        · exact hs.booked.timeless slot' s' m hm
    refine ⟨hbooked.sweep _ _ _, hs.swept.touch [s] rfl rfl rfl
      fun t ht => ⟨fun k f hk hget => ⟨?_, rfl⟩, hmetas t ?_⟩⟩
    · rw [hrow, if_neg fun h => ht (mem_singleton.mpr (hk.symm.trans h.2))]
      exact hget
    · exact fun h => ht (mem_singleton.mpr h)

theorem lastWrite_moved (k : DelayKey) (e : DelayKey × Fields) (dst : Bytes) :
    lastWrite k [BatchOp.put (rekey e.1 dst) e.2, .del e.1] =
      if e.1 = k then some none else if rekey e.1 dst = k then some (some e.2) else none := by
  rw [lastWrite_cons, lastWrite_cons, lastWrite_nil, BatchOp.key_del]
  by_cases h : e.1 = k
  · rw [if_pos h, if_pos h]
    rfl
  · rw [if_neg h, if_neg h]
    rfl

variable {src dst : Bytes}

theorem rekey_eq {k k' : DelayKey} (hsrc : k.stream = src) (hdst : k'.stream = dst) :
    rekey k dst = k' ↔ k = rekey k' src := by
  subst hsrc hdst
  constructor <;> intro h
  · rw [← h]
    rfl
  · rw [h]
    rfl

theorem rekey_inj {k k' : DelayKey} (hs : k.stream = k'.stream)
    (h : rekey k s = rekey k' s) : k = k' := by
  cases k'
  cases hs
  cases h
  rfl

theorem lastWrite_staged_moved (hne : src ≠ dst) (k : DelayKey) :
    lastWrite k ((w.staged slot src).flatMap fun e => [.put (rekey e.1 dst) e.2, .del e.1]) =
      if k.slot = slot ∧ k.stream = dst then (w.row (rekey k src)).map some
      else if k.slot = slot ∧ k.stream = src then (w.row k).map fun _ => none else none := by
  split
  · next hk =>
    have hl : ∀ v, (rekey k src, v) ∈ w.staged slot src ↔ w.row (rekey k src) = some v :=
      fun v => mem_staged.trans (and_iff_left ⟨hk.1, rfl⟩)
    refine lastWrite_flatMap_rows hl fun e he => ?_
    obtain ⟨-, -, hsrc⟩ := mem_staged.mp he
    have hother : e.1 ≠ k := fun h => hne (hsrc.symm.trans ((congrArg _ h).trans hk.2))
    rw [lastWrite_moved, if_neg hother]
    exact if_congr (rekey_eq hsrc hk.2) rfl rfl
  · next hk =>
    have hl : ∀ v, (k, v) ∈ w.staged slot src ↔
        (if k.slot = slot ∧ k.stream = src then w.row k else none) = some v := by
      intro v
      rw [mem_staged, Option.ite_none_right_eq_some, and_comm]
    have hmoved := lastWrite_flatMap_rows (k := k) (g := fun _ => none) hl fun e he => by
      obtain ⟨-, hslot, -⟩ := mem_staged.mp he
      refine (lastWrite_moved k e dst).trans (if_congr Iff.rfl rfl (if_neg fun h => hk ?_))
      rw [← h]
      exact ⟨hslot, rfl⟩
    rw [hmoved]
    split <;> rfl

theorem row_rename (hne : src ≠ dst)
    (hdst : w.familyAt slot dst = none → ∀ k, k.slot = slot → k.stream = dst → w.row k = none)
    (k : DelayKey) :
    (lastWrite k (renameOps w slot src dst)).getD (w.row k) =
      if k.slot = slot ∧ k.stream = dst then w.row (rekey k src)
      else if k.slot = slot ∧ k.stream = src then none else w.row k := by
  have hover : (lastWrite k (if (w.familyAt slot dst).isSome then
      (w.staged slot dst).map fun e => .del e.1 else [])).getD (w.row k) =
      if k.slot = slot ∧ k.stream = dst then none else w.row k := by
    split
    · exact lastWrite_staged w slot dst k
    · next hnone =>
      split
      · next hplace => exact hdst (by simpa using hnone) k hplace.1 hplace.2
      · rfl
  unfold renameOps
  rw [lastWrite_append, lastWrite_staged_moved hne]
  split
  · next hk =>
    rw [if_pos hk] at hover
    cases w.row (rekey k src) with
    | none => exact hover
    | some v => rfl
  · next hk =>
    rw [if_neg hk] at hover
    split
    · cases hrow : w.row k with
      | none =>
        rw [hrow] at hover
        exact hover
      | some v => rfl
    · exact hover

theorem rename_sound (hs : Sound w) (slot : Nat) (src dst : Bytes) (nx : Bool) :
    Sound (rename w slot src dst nx) := by
  unfold rename
  split
  · exact hs
  next hne =>
  cases hf : w.familyAt slot src with
  | none => exact hs
  | some f =>
    dsimp only
    split
    · exact hs
    have hsrc : w.headAt slot src = some f.head := by
      rw [← w.map_head_familyAt, hf]
      rfl
    have hdst : w.familyAt slot dst = none →
        ∀ k, k.slot = slot → k.stream = dst → w.row k = none := by
      rintro hnone k rfl rfl
      cases hrow : w.row k with
      | none => rfl
      | some x =>
        obtain ⟨m, hm, -⟩ := (hs.booked.owned k x hrow).head
        rw [← w.map_head_familyAt, hnone] at hm
        cases hm
    obtain ⟨records, strays, hset, hdelays⟩ := w.setFamily_eq slot src none
    have hhead₁ := w.headAt_setFamily slot src none
    have hmetas₁ := fun t => w.metas_setFamily_ne slot src none (t := t)
    rw [hset] at hhead₁ hmetas₁ ⊢
    obtain ⟨records', strays', hset', hdelays'⟩ :=
      World.setFamily_eq { w with records, strays } slot dst (some f)
    have hhead₂ := World.headAt_setFamily { w with records, strays } slot dst (some f)
    have hmetas₂ := fun t =>
      World.metas_setFamily_ne { w with records, strays } slot dst (some f) (t := t)
    rw [hset'] at hhead₂ hmetas₂ ⊢
    generalize hw' : ({ World.writeDelays { w with records := records', strays := strays' }
      (renameOps w slot src dst) with idents := _, tags := _ } : World) = w'
    have hrow : ∀ k, w'.row k = if k.slot = slot ∧ k.stream = dst then w.row (rekey k src)
        else if k.slot = slot ∧ k.stream = src then none else w.row k := by
      intro k
      rw [← row_rename hne hdst k, ← hw']
      rw [row_writeDelays, World.row, hdelays', hdelays]
    have hhead : ∀ slot' s', w'.headAt slot' s' = if slot' = slot ∧ s' = dst then some f.head
        else if slot' = slot ∧ s' = src then none else w.headAt slot' s' := by
      intro slot' s'
      rw [← hw']
      refine (hhead₂ slot' s').trans ?_
      rw [hhead₁]
      rfl
    have htags : ∀ k, w'.tags k =
        if k.slot = slot ∧ k.stream = dst then w.tags (rekey k src) else w.tags k := by
      intro k
      rw [← hw']
    have hidents : ∀ slot' s', w'.idents slot' s' =
        if slot' = slot ∧ s' = dst then w.idents slot src else w.idents slot' s' := by
      intro slot' s'
      rw [← hw']
    have hsame : w'.now = w.now ∧ w'.queue = w.queue ∧ w'.opened = w.opened ∧
        w'.tokens = w.tokens ∧ w'.done = w.done := by
      rw [← hw']
      exact ⟨rfl, rfl, rfl, rfl, rfl⟩
    obtain ⟨hnow, hqueue, hopened, htokens, hdone⟩ := hsame
    refine ⟨(hs.booked.step
      (fun k => some (if k.slot = slot ∧ k.stream = dst then rekey k src else k)) [] ?_ nofun
        ?_ htokens.ge (hdone.trans (append_nil _).symm) nofun .nil ?_).sweep _ _ _,
      hs.swept.touch [src, dst] hqueue hopened hnow fun t ht => ?_⟩
    · intro k x k' hk ho
      cases ho
      rw [hrow] at hk
      split at hk
      · next hat =>
        rw [if_pos hat]
        refine ⟨hk, ⟨by rw [htags, if_pos hat], ?_, rfl, fun m hm => ⟨m, ?_, le_rfl⟩⟩, not_mem_nil⟩
        · rw [hidents, if_pos hat, ← hat.1]
          rfl
        · rw [hhead, if_pos hat, ← hm, ← hsrc, ← hat.1]
          rfl
      · next hat =>
        split at hk
        · cases hk
        · next hnot =>
          rw [if_neg hat]
          exact ⟨hk, ⟨by rw [htags, if_neg hat], by rw [hidents, if_neg hat], rfl,
            fun m hm => ⟨m, by rw [hhead, if_neg hat, if_neg hnot, hm], le_rfl⟩⟩, not_mem_nil⟩
    · -- a row that kept its key is not where the moved ones came from
      have hapart : ∀ k k' x, w'.row k' = some x → k.slot = slot ∧ k.stream = dst →
          ¬ (k'.slot = slot ∧ k'.stream = dst) → rekey k src ≠ k' := by
        rintro k k' x hk' hat hat' rfl
        rw [hrow, if_neg hat', if_pos ⟨hat.1, rfl⟩] at hk'
        cases hk'
      intro k k' x x' hk hk' heq
      have heq := some.inj heq
      by_cases hat : k.slot = slot ∧ k.stream = dst <;>
        by_cases hat' : k'.slot = slot ∧ k'.stream = dst
      · rw [if_pos hat, if_pos hat'] at heq
        exact rekey_inj (hat.2.trans hat'.2.symm) heq
      · rw [if_pos hat, if_neg hat'] at heq
        exact absurd heq (hapart k k' x' hk' hat hat')
      · rw [if_neg hat, if_pos hat'] at heq
        exact absurd heq.symm (hapart k' k x hk hat' hat)
      · rwa [if_neg hat, if_neg hat'] at heq
    · intro slot' s' m hm
      rw [hhead] at hm
      split at hm
      · cases hm
        exact hs.booked.timeless slot src _ hsrc
      · split at hm
        · cases hm
        · exact hs.booked.timeless slot' s' m hm
    · rw [mem_pair, not_or] at ht
      refine ⟨fun k x hk hget => ⟨?_, ?_⟩, ?_⟩
      · rw [hrow, if_neg fun h => ht.2 (hk.symm.trans h.2),
          if_neg fun h => ht.1 (hk.symm.trans h.2)]
        exact hget
      · rw [htags, if_neg fun h => ht.2 (hk.symm.trans h.2)]
      · rw [← hw']
        exact (hmetas₂ t ht.2).trans (hmetas₁ t ht.1)

/-! ## Stream commands -/

variable {now : Nat} {idArg : IdArg} {fields : Fields} {ws : List Write}

theorem xaddBatch_effect {o : XaddOpts} {id : EntryId} (ht : Timeless r s)
    (h : xaddBatch r now s o idArg fields = .ok (some (id, ws))) :
    ∃ m : MetaRecord, m.payload.lastId = id ∧ m.payload.idleMs = 0 ∧ m.expire = 0 ∧
      (∀ t, (r.write ws).metas t = if t = s then some m else r.metas t) ∧
      (∀ m, r.metas s = some m → m.payload.lastId < id) ∧
      ∀ k, (r.write ws).delays.get k =
        if o.delayMs ≠ 0 ∧ k = ⟨streamSlot s, now + o.delayMs, s, id⟩ then some fields
        else r.delays.get k := by
  obtain ⟨victims, next, row, -, -, hidle, hlast, hold, hrow, rfl, hheads⟩ := xaddBatch_spec ht h
  refine ⟨⟨next, 0⟩, hlast, hidle, rfl, fun t => ?_, hold, fun k => ?_⟩
  · rw [Records.metas_write, hheads]
    split <;> rfl
  · have hdels : (victims.map fun id => Write.entry s (.del id)).filterMap Write.toDelay = [] := by
      rw [filterMap_map]
      exact filterMap_eq_nil_iff.mpr fun _ _ => rfl
    rw [Records.delays_write, filterMap_cons_none rfl]
    unfold messageRow at hrow
    split at hrow
    · next hzero =>
      cases hrow
      rw [filterMap_cons_none rfl, hdels, if_neg fun hk => hk.1 hzero]
      rfl
    · next hdelay =>
      cases hdue : checkedAdd now o.delayMs with
      | none => rw [hdue] at hrow; cases hrow
      | some due =>
        rw [hdue] at hrow
        cases hrow
        have hsum : due = now + o.delayMs := by
          unfold checkedAdd at hdue
          split at hdue
          · exact (some.inj hdue).symm
          · cases hdue
        rw [filterMap_cons_some (f := Write.toDelay) rfl, hdels, hsum]
        show (r.delays.put _ fields).get k = _
        rw [get_put]
        by_cases hk : k = ⟨streamSlot s, now + o.delayMs, s, id⟩
        · rw [if_pos hk.symm, if_pos ⟨hdelay, hk⟩]
        · rw [if_neg (Ne.symm hk), if_neg fun h => hk h.2]

/-- Of the meta records only the one of `s` changes, and its last id does not go back. -/
structure Grown (w w' : World) (s : Bytes) : Prop where
  strays : w'.strays = w.strays
  others : ∀ t, t ≠ s → w'.records.metas t = w.records.metas t
  head : ∀ m, w.records.metas s = some m → ∃ m', w'.records.metas s = some m' ∧
    m.payload.lastId ≤ m'.payload.lastId
  timeless : (streamPrefix s).isSome → Timeless w'.records s

theorem Grown.headAt_eq (h : Grown w w' s) {t : Bytes}
    (hne : ¬ (Home slot t ∧ t = s)) : w'.headAt slot t = w.headAt slot t := by
  unfold World.headAt
  rw [h.strays]
  by_cases hhome : Home slot t
  · rw [if_pos hhome, if_pos hhome, h.others t fun hts => hne ⟨hhome, hts⟩]
  · rw [if_neg hhome, if_neg hhome]

variable {m : MetaRecord}

theorem Grown.headAt (h : Grown w w' s) {t : Bytes} (hm : w.headAt slot t = some m) :
    ∃ m', w'.headAt slot t = some m' ∧ m.payload.lastId ≤ m'.payload.lastId := by
  by_cases hat : Home slot t ∧ t = s
  · obtain ⟨hhome, rfl⟩ := hat
    rw [World.headAt_home hhome] at hm ⊢
    exact h.head m hm
  · exact ⟨m, (h.headAt_eq hat).trans hm, le_rfl⟩

theorem Grown.timeless_headAt (h : Grown w w' s) (hw : Booked w) (slot : Nat) (t : Bytes)
    (m : MetaRecord) (hm : w'.headAt slot t = some m) :
    m.payload.idleMs = 0 ∧ m.expire = 0 := by
  by_cases hat : Home slot t ∧ t = s
  · obtain ⟨hhome, rfl⟩ := hat
    rw [World.headAt_home hhome] at hm
    exact h.timeless hhome.1 m hm
  · rw [h.headAt_eq hat] at hm
    exact hw.timeless slot t m hm

theorem Swept.stream (h : Swept w) (hpre : (streamPrefix s).isSome)
    (hlatch : w.latched s = false) (hq : w'.queue = w.queue) (ho : w'.opened = w.opened)
    (hnow : w'.now = w.now) (hkeep : ∀ t, Keeps w w' t)
    (hmetas : ∀ t, t ≠ s → w'.records.metas t = w.records.metas t) :
    Swept w' := by
  refine ⟨fun e he => ?_, fun o ho' => ?_, ?_⟩
  · rw [hq] at he
    exact (h.queue e he).keep (hkeep _)
  · rw [ho] at ho'
    have hne : o.entry.stream ≠ s := by
      intro heq
      unfold World.latched at hlatch
      rw [Option.mem_def.mp ho', Option.any_some, heq, hpre] at hlatch
      simp at hlatch
    exact (h.opened o ho').keep (hkeep _) hnow (hmetas _ hne)
  · rw [hq, ho]
    exact h.streams

theorem keeps_of_rows (hrow : ∀ k f, w.row k = some f → w'.row k = some f)
    (htags : ∀ k f, w.row k = some f → w'.tags k = w.tags k) (t : Bytes) : Keeps w w' t :=
  fun k f _ hk => ⟨hrow k f hk, htags k f hk⟩

theorem append_ok {o : XaddOpts} {id : EntryId} (ht : Timeless w.records s)
    (h : xaddBatch w.records now s o idArg fields = .ok (some (id, ws))) :
    ∃ streams idents, (∀ slot t, (w.records.metas s = none → ¬ (slot = streamSlot s ∧ t = s)) →
      idents slot t = w.idents slot t) ∧
    append w now s o idArg fields = { w with
      records := w.records.write ws
      streams
      idents
      tokens := if o.delayMs = 0 then w.tokens else w.tokens + 1
      tags := if o.delayMs = 0 then w.tags
        else update w.tags ⟨streamSlot s, now + o.delayMs, s, id⟩
          ⟨idents (streamSlot s) s, w.tokens⟩ } := by
  have hfresh : (metaOrFresh w.records now s).2 = (w.records.metas s).isNone := by
    unfold metaOrFresh
    rw [readMeta_of_timeless ht]
    cases w.records.metas s <;> rfl
  unfold append
  rw [if_neg (readMeta_ne_purged ht)]
  simp only [xadd, reap_of_timeless ht, h, hfresh]
  cases w.records.metas s with
  | none =>
    refine ⟨w.streams + 1, (w.numbered (streamSlot s) s).idents,
      fun slot t hne => if_neg (hne rfl), ?_⟩
    split <;> rfl
  | some m =>
    refine ⟨w.streams, w.idents, fun _ _ _ => rfl, ?_⟩
    split <;> rfl

theorem append_refused {o : XaddOpts} (ht : Timeless w.records s)
    (h : ∀ id ws, xaddBatch w.records now s o idArg fields ≠ .ok (some (id, ws))) :
    append w now s o idArg fields = w := by
  unfold append
  rw [if_neg (readMeta_ne_purged ht)]
  simp only [xadd, reap_of_timeless ht]
  cases hb : xaddBatch w.records now s o idArg fields with
  | error => rfl
  | ok found =>
    cases found with
    | none => rfl
    | some x => exact absurd hb (h x.1 x.2)

theorem append_sound (hs : Sound w) {o : XaddOpts} (hpre : (streamPrefix s).isSome)
    (hlatch : w.latched s = false) : Sound (append w now s o idArg fields) := by
  have ht := hs.booked.timeless_records hpre
  by_cases hok : ∃ id ws, xaddBatch w.records now s o idArg fields = .ok (some (id, ws))
  swap
  · rw [append_refused ht fun id ws h => hok ⟨id, ws, h⟩]
    exact hs
  obtain ⟨id, ws, hok⟩ := hok
  obtain ⟨m, hlast, hidle, hexpire, hmetas, hold, hdelays⟩ := xaddBatch_effect ht hok
  have hm := (hmetas s).trans (if_pos rfl)
  have hhome : Home (streamSlot s) s := ⟨hpre, rfl⟩
  generalize hk₀ : (⟨streamSlot s, now + o.delayMs, s, id⟩ : DelayKey) = k₀ at hdelays
  obtain ⟨streams, idents, hidents, happ⟩ := append_ok ht hok
  rw [happ, hk₀]
  generalize hw' : ({ w with records := _, streams, idents, tokens := _, tags := _ } : World) = w'
  have hg : Grown w w' s := by
    rw [← hw']
    refine ⟨rfl, fun t ht => (hmetas t).trans (if_neg ht),
      fun m' hm' => ⟨m, hm, hlast ▸ (hold m' hm').le⟩, fun _ m' hm' => ?_⟩
    rw [hm] at hm'
    cases hm'
    exact ⟨hidle, hexpire⟩
  have hrow : ∀ k, w'.row k = if o.delayMs ≠ 0 ∧ k = k₀ then some fields else w.row k := by
    rw [← hw']
    exact hdelays
  -- the id is above all that the stream has given
  have hne : ∀ k f, w.row k = some f → k ≠ k₀ := by
    rintro k f hk rfl
    obtain ⟨m', hm', hle⟩ := (hs.booked.owned k f hk).head
    rw [← hk₀] at hm' hle
    rw [World.headAt_home hhome] at hm'
    exact absurd (hold m' hm') hle.not_gt
  have htag : ∀ k f, w.row k = some f → w'.tags k = w.tags k := by
    intro k f hk
    rw [← hw']
    split
    · rfl
    · exact update_of_ne (hne k f hk) _ _
  have hkept : ∀ k f, w.row k = some f → w'.row k = some f := by
    intro k f hk
    rw [hrow, if_neg fun h => hne k f hk h.2, hk]
  refine ⟨hs.booked.step (fun k => if o.delayMs ≠ 0 ∧ k = k₀ then none else some k) []
    (fun k f k' hk ho => ?_) (fun k f hk ho => ?_) (fun k k' _ _ _ _ ho => ?_) ?_ ?_ nofun .nil
    (hg.timeless_headAt hs.booked), hs.swept.stream hpre hlatch ?_ ?_ ?_
      (keeps_of_rows hkept htag) hg.others⟩
  · obtain ⟨hnot, ho⟩ := ite_none_left_eq_some.mp ho
    cases ho
    rw [hrow, if_neg hnot] at hk
    refine ⟨hk, ⟨htag k f hk, ?_, rfl, fun m hm => hg.headAt hm⟩, not_mem_nil⟩
    rw [← hw']
    refine hidents _ _ fun hnone hplace => ?_
    obtain ⟨m', hm', -⟩ := (hs.booked.owned k f hk).head
    rw [hplace.1, hplace.2, World.headAt_home hhome, hnone] at hm'
    cases hm'
  · obtain ⟨hdelay, rfl⟩ : o.delayMs ≠ 0 ∧ k = k₀ := by
      by_contra hnot
      rw [if_neg hnot] at ho
      cases ho
    rw [← hw', ← hk₀]
    rw [if_neg hdelay, if_neg hdelay]
    exact ⟨update_self _ _ _, Nat.lt_succ_self _, m, (World.headAt_home hhome).trans hm,
      hlast.ge⟩
  · split at ho <;> split at ho
    · next h h' => rw [h.2, h'.2]
    · cases ho
    · cases ho
    · exact some.inj ho
  · rw [← hw']
    dsimp only
    split <;> omega
  all_goals rw [← hw']
  rw [append_nil]

/-- An XTRIM or XDEL writes the meta record of its stream and no staged row. -/
structure Removes (r : Records) (s : Bytes) (ws : List Write) : Prop where
  metas : ∀ t, t ≠ s → (r.write ws).metas t = r.metas t
  head : ∀ m, r.metas s = some m → ∃ m', (r.write ws).metas s = some m' ∧
    m.payload.lastId ≤ m'.payload.lastId
  timeless : Timeless (r.write ws) s
  delays : (r.write ws).delays = r.delays

theorem removes_of_accounts {victims : List EntryId} (ht : Timeless r s)
    (h : ws = [] ∨ ∃ next, Accounts r s ws next [] victims)
    (hws : ∀ w ∈ ws, w.toDelay = none) : Removes r s ws := by
  rcases h with rfl | ⟨next, h⟩
  · exact ⟨fun _ _ => rfl, fun m hm => ⟨m, hm, le_rfl⟩, ht, rfl⟩
  · refine ⟨fun t hne => (r.write_untouched (h.only t hne)).1,
      fun m hm => ⟨_, h.metas_eq, h.grows m hm⟩, h.timeless, ?_⟩
    · rw [Records.delays_write, filterMap_eq_nil_iff.mpr hws]
      rfl

theorem removal_sound (hs : Sound w)
    {batch : Records → Except AppendError (List EntryId × List Write)}
    (hpre : (streamPrefix s).isSome) (hlatch : w.latched s = false)
    (hbatch : ∀ ids ws, batch w.records = .ok (ids, ws) → Removes w.records s ws) :
    Sound (removal w now s batch) := by
  have ht := hs.booked.timeless_records hpre
  unfold removal
  rw [if_neg (readMeta_ne_purged ht)]
  simp only [remove, reap_of_timeless ht]
  cases hb : batch w.records with
  | error e => exact hs
  | ok out =>
    have hrem := hbatch out.1 out.2 hb
    have hg : Grown w { w with records := w.records.write out.2 } s :=
      ⟨rfl, hrem.metas, hrem.head, fun _ => hrem.timeless⟩
    have hrow : ∀ k f, (w.records.write out.2).delays.get k = some f ↔ w.row k = some f := by
      intro k f
      rw [hrem.delays]
    exact ⟨hs.booked.shrink rfl rfl
      (fun k f hk => ⟨(hrow k f).mp hk, rfl, rfl, rfl, fun m hm => hg.headAt hm⟩)
      (hg.timeless_headAt hs.booked), hs.swept.stream hpre hlatch rfl rfl rfl
        (keeps_of_rows (fun k f => (hrow k f).mpr) fun _ _ _ => rfl) hg.others⟩

/-! ## The scan -/

/-- What the groups are after the rows `seen`: one entry a stream, with rows of it. -/
structure Grouped (queue : List Waiting) (seen : List Found) : Prop where
  streams : (queue.map (·.stream)).Nodup
  rows : ∀ e ∈ queue, e.rows.Sublist seen
  named : ∀ e ∈ queue, ∀ row ∈ e.rows, row.key.stream = e.stream

theorem pushRow_grouped {queue : List Waiting} {seen : List Found} (h : Grouped queue seen)
    (row : Found) : Grouped (pushRow queue row) (seen ++ [row]) := by
  have hkept : ∀ e ∈ queue, e.rows.Sublist (seen ++ [row]) := fun e he =>
    (h.rows e he).trans (sublist_append_left _ _)
  unfold pushRow
  split
  · generalize hf : (fun e : Waiting =>
      if e.stream = row.key.stream then { e with rows := e.rows ++ [row] } else e) = f
    have hstream : ∀ e, (f e).stream = e.stream := by
      intro e
      rw [← hf]
      dsimp only
      split <;> rfl
    refine ⟨?_, forall_mem_map.mpr fun e he => ?_, forall_mem_map.mpr fun e he => ?_⟩
    · rw [map_map]
      exact (map_congr_left fun e _ => hstream e) ▸ h.streams
    · rw [← hf]
      dsimp only
      split
      · exact (h.rows e he).append_right _
      · exact hkept e he
    · rw [hstream, ← hf]
      dsimp only
      split
      · next heq =>
        exact forall_mem_append.mpr ⟨h.named e he, forall_mem_singleton.mpr heq.symm⟩
      · exact h.named e he
  · next hany =>
    refine ⟨?_, forall_mem_append.mpr ⟨hkept, ?_⟩, forall_mem_append.mpr ⟨h.named, ?_⟩⟩
    · rw [map_append, nodup_append]
      refine ⟨h.streams, nodup_singleton _, fun a ha b hb heq => hany ?_⟩
      rw [heq, mem_singleton.mp hb] at ha
      simpa [mem_map] using ha
    · exact forall_mem_singleton.mpr (sublist_append_right _ _)
    · exact forall_mem_singleton.mpr (forall_mem_singleton.mpr rfl)

theorem foldl_grouped {queue : List Waiting} {seen : List Found} (h : Grouped queue seen)
    (rows : List Found) : Grouped (rows.foldl pushRow queue) (seen ++ rows) := by
  induction rows generalizing queue seen with
  | nil => rwa [append_nil]
  | cons row rows ih =>
    have := ih (pushRow_grouped h row)
    rwa [append_assoc] at this

theorem groupRows_grouped (rows : List Found) : Grouped (groupRows rows) rows :=
  have hnil : Grouped [] [] := ⟨nodup_nil, nofun, nofun⟩
  foldl_grouped hnil rows

theorem scan_sound (hs : Sound w) (h : scan w now = some w') : Sound w' := by
  obtain ⟨hfree, h⟩ := Option.ite_none_right_eq_some.mp h
  cases h
  obtain ⟨-, hopened⟩ := Bool.and_eq_true_iff.mp hfree
  rw [Option.isNone_iff_eq_none] at hopened
  generalize hrows : (dueRows w.records now).map (fun e => (⟨e.1, e.2, w.tags e.1⟩ : Found)) = rows
  have hgroups := groupRows_grouped rows
  have hsub : (dueRows w.records now).Sublist w.records.delays.entries :=
    (take_sublist _ _).trans filter_sublist
  have hkeys : (rows.map (·.key)).Nodup := by
    rw [← hrows, map_map]
    exact w.records.delays.nodup_keys.sublist (hsub.map _)
  have hpresent : ∀ row ∈ rows, w.row row.key = some row.fields ∧ w.tags row.key = row.tag := by
    intro row hrow
    rw [← hrows] at hrow
    obtain ⟨e, he, rfl⟩ := mem_map.mp hrow
    exact ⟨mem_entries.mp (hsub.subset he), rfl⟩
  refine ⟨hs.booked.sweep _ _ _, fun e he => ?_, fun o ho => ?_, ?_⟩
  · have hsub := hgroups.rows e he
    exact ⟨hgroups.named e he, hkeys.sublist (hsub.map _),
      fun _ row hrow => hpresent row (hsub.subset hrow)⟩
  · rw [hopened] at ho
    cases ho
  · rw [hopened]
    exact hgroups.streams

/-! ## The latch -/

theorem latch_sound (hs : Sound w) {busy : Bool} (h : latch w busy = some w') : Sound w' := by
  unfold latch at h
  split at h
  swap
  · cases h
  next e rest hopened hqueue =>
  have hstreams := hs.swept.streams
  rw [hopened, hqueue] at hstreams
  have hfine := hs.swept.queue e (by rw [hqueue]; exact mem_cons_self)
  have hrest : ∀ e' ∈ rest, Fine w e' := fun e' he' =>
    hs.swept.queue e' (by rw [hqueue]; exact mem_cons_of_mem _ he')
  dsimp only at h
  split at h
  · cases h
    refine ⟨hs.booked.sweep _ _ _,
      fun e' he' => (hrest e' he').keep fun _ _ _ hk => ⟨hk, rfl⟩, fun o ho => ?_, ?_⟩
    · rw [hopened] at ho
      cases ho
    · rw [hopened]
      exact (nodup_cons.mp hstreams).2
  · have hreap : (if (streamPrefix e.stream).isSome then reap w.records w.now e.stream
        else w.records) = w.records := by
      split
      · next hpre => exact reap_of_timeless (hs.booked.timeless_records hpre)
      · rfl
    rw [hreap] at h
    cases h
    refine ⟨hs.booked.sweep _ _ _,
      fun e' he' => (hrest e' he').keep fun _ _ _ hk => ⟨hk, rfl⟩, fun o ho => ?_, hstreams⟩
    cases ho
    refine ⟨hfine.named, hfine.nodup, fun _ => ⟨rfl, rfl⟩, fun htouched hpre hsome => ?_⟩
    have hlive : (readMeta w.records w.now e.stream).live?.isSome := by
      rw [live?_of_timeless (hs.booked.timeless_records hpre), Option.isSome_map]
      exact hsome
    rw [hpre, hlive, Bool.and_true, Bool.and_true] at htouched
    exact hfine.present htouched

/-! ## The batch -/

def Room (last : EntryId) (now n : Nat) : Prop :=
  n ≤ u64Max ∧ (last.ms < now ∨ last.seq + n ≤ u64Max)
  deriving Decidable

theorem autoId_of_room {last : EntryId} {n : Nat} (h : Room last now (n + 1)) :
    ∃ id, autoId (some last) now = some id ∧ Room id now n := by
  unfold Room at *
  unfold autoId
  dsimp only
  split
  · rw [if_neg (by omega)]
    exact ⟨_, rfl, by omega, .inr (by dsimp only; omega)⟩
  · exact ⟨_, rfl, by omega, .inr (by dsimp only; omega)⟩

theorem allotIds_of_room {α : Type} {last : EntryId} {as : List α}
    (h : Room last now as.length) : (allotIds last now as).map (·.2) = as := by
  induction as generalizing last with
  | nil => rfl
  | cons a as ih =>
    obtain ⟨id, hid, hroom⟩ := autoId_of_room h
    unfold allotIds
    rw [hid]
    exact congrArg (a :: ·) (ih hroom)

theorem allotIds_map {α β : Type} (f : α → β) (last : EntryId) (now : Nat) (as : List α) :
    allotIds last now (as.map f) = (allotIds last now as).map fun e => (e.1, f e.2) := by
  induction as generalizing last with
  | nil => rfl
  | cons a as ih =>
    rw [map_cons]
    unfold allotIds
    split
    · rfl
    · next id _ => rw [map_cons, ih]

theorem filterMap_toDelay_exchange (s : Bytes) (got : List (EntryId × DueRow)) :
    (exchangeRows s got).filterMap Write.toDelay = got.map fun e => .del e.2.1 := by
  rw [exchangeRows, filterMap_flatMap, map_eq_flatMap]
  rfl

theorem get_write_delRows {m : SortedMap DelayKey Fields} {keys : List DelayKey} (k : DelayKey) :
    (m.write (keys.map .del)).get k = if k ∈ keys then none else m.get k := by
  rw [get_write, lastWrite_map_del]
  split <;> rfl

theorem exchangeBatch_live (now : Nat) (rows : List Found) (hpre : (streamPrefix s).isSome)
    (ht : Timeless r s) (hm : r.metas s = some m) {batch : List Write}
    {got : List (EntryId × Found)}
    (hbatch : batch = exchangeBatch r now s (rows.map fun row => (row.key, row.fields)))
    (hgot : got = allotIds m.payload.lastId now rows) :
    takenRows r now s rows = got ∧
    (got = [] ∧ batch = [] ∨
      ∃ next, Accounts r s batch next (got.map fun e => (e.1, e.2.fields)) []) ∧
    ∀ k, (r.write batch).delays.get k = if k ∈ got.map (·.2.key) then none else r.delays.get k := by
  have hacc := exchangeBatch_accounts now ht (rows.map fun row => (row.key, row.fields))
  rw [← hbatch] at hacc
  obtain ⟨pre, hpre⟩ := Option.isSome_iff_exists.mp hpre
  have hlive : (readMeta r now s).live? = some m.payload := by
    rw [live?_of_timeless ht, hm]
    rfl
  unfold exchangeBatch at hbatch
  unfold takenRows
  rw [hpre, hlive] at hbatch ⊢
  dsimp only at hbatch ⊢
  rw [allotIds_map, ← hgot, getLast?_map] at hbatch
  rw [← hgot]
  cases hlast : got.getLast? with rw [hlast] at hbatch
  | none =>
    rw [getLast?_eq_none_iff.mp hlast]
    exact ⟨rfl, .inl ⟨rfl, hbatch⟩, fun _ => by rw [hbatch]; rfl⟩
  | some e =>
    dsimp only [Option.map_some] at hbatch
    rw [idleDeadline_of_idle (by exact (ht m hm).1)] at hbatch
    dsimp only
    rw [idleDeadline_of_idle (by exact (ht m hm).1)]
    refine ⟨rfl, .inr ?_, fun k => ?_⟩
    · rcases hacc with hnone | ⟨m', next, hm', hacc⟩
      · have := (hnone s).1
        rw [hbatch, filterMap_append, filterMap_toMeta_exchange,
          filterMap_cons_some (Write.toMeta_head s _)] at this
        cases this
      · rw [hm] at hm'
        cases hm'
        rw [allotIds_map, ← hgot, map_map] at hacc
        exact ⟨next, hacc⟩
    · have hkeys : got.map ((fun e : EntryId × DueRow =>
          (BatchOp.del e.2.1 : BatchOp DelayKey Fields)) ∘
          fun e => (e.1, e.2.key, e.2.fields)) = (got.map (·.2.key)).map .del := by
        rw [map_map]
        rfl
      rw [Records.delays_write, hbatch, filterMap_append, filterMap_toDelay_exchange,
        filterMap_cons_none rfl, filterMap_nil, append_nil, map_map, hkeys, get_write_delRows]

theorem exchangeBatch_gone
    (hgone : ¬ ((streamPrefix s).isSome ∧ (readMeta r now s).live?.isSome))
    (rows : List Found) :
    takenRows r now s rows = [] ∧
    exchangeBatch r now s (rows.map fun row => (row.key, row.fields)) =
      (rows.map (·.key)).map fun k => .delay (.del k) := by
  unfold takenRows exchangeBatch
  cases hpre : streamPrefix s with
  | none => exact ⟨rfl, by rw [dropRows, map_map, map_map]; rfl⟩
  | some pre =>
    cases hlive : (readMeta r now s).live? with
    | none => exact ⟨rfl, by rw [dropRows, map_map, map_map]; rfl⟩
    | some m => exact absurd ⟨by rw [hpre]; rfl, by rw [hlive]; rfl⟩ hgone

/-- The batches are written while the streams they were collected for are still the same, and in
the slot where the rows are. -/
def Clean (w : World) : Action → Prop
  | .write => ∀ o ∈ w.opened, o.entry.touched = false ∧
      (∀ row ∈ o.entry.rows, Home row.key.slot o.entry.stream) ∧
      ∀ m ∈ w.records.metas o.entry.stream, Room m.payload.lastId w.now o.entry.rows.length
  | _ => True

instance decidableClean (w : World) (a : Action) : Decidable (Clean w a) := by
  cases a <;> dsimp only [Clean] <;> infer_instance

/-- What a batch does: it turns `got`, the rows that are still staged, into entries. -/
structure Exchanges (w w' : World) (o : Opened) (got : List (EntryId × Found)) : Prop where
  opened : w'.opened = none
  framed : w'.now = w.now ∧ w'.queue = w.queue ∧ w'.tokens = w.tokens ∧ w'.idents = w.idents ∧
    w'.tags = w.tags
  grown : Grown w w' o.entry.stream
  row : ∀ k, w'.row k = if k ∈ o.entry.rows.map (·.key) then none else w.row k
  rows : (got.map (·.2)).Sublist o.entry.rows
  complete : ∀ row ∈ o.entry.rows, ∀ f, w.row row.key = some f → row ∈ got.map (·.2)
  staged : ∀ e ∈ got, w.row e.2.key = some e.2.fields ∧ w.tags e.2.key = e.2.tag ∧
    e.2.tag.sent = w.idents (streamSlot o.entry.stream) o.entry.stream
  sorted : (got.map (·.1)).Pairwise (· < ·)
  above : ∀ e ∈ got, ∀ m ∈ w.records.metas o.entry.stream, m.payload.lastId < e.1
  entries : ∀ e ∈ got, (w'.records.entries o.entry.stream).get e.1 = some e.2.fields
  keys : (w'.records.entries o.entry.stream).keys =
    (w.records.entries o.entry.stream).keys ∪ (got.map (·.1)).toFinset
  done : w'.done = w.done ++ got.map fun e =>
    ⟨e.2.tag.token, e.2.tag.sent, w.idents (streamSlot o.entry.stream) o.entry.stream, e.1⟩

theorem write_live (hs : Sound w) (ho : w.opened = some o) (hclean : Clean w .write)
    (hpre : (streamPrefix o.entry.stream).isSome)
    (hm : w.records.metas o.entry.stream = some m) (h : write w = some w') :
    Exchanges w w' o o.got := by
  obtain ⟨htouched, hhome, hroom⟩ := hclean o ho
  have hfine := hs.swept.opened o ho
  have ht := hs.booked.timeless_records hpre
  obtain ⟨hbatch, hgot⟩ := hfine.batch htouched
  obtain ⟨htaken, hacc, hdelays⟩ := exchangeBatch_live w.now o.entry.rows hpre ht hm hbatch rfl
  rw [htaken] at hgot
  have hrows := allotIds_of_room (hroom m hm)
  obtain ⟨hsorted, habove⟩ := allotIds_spec m.payload.lastId w.now o.entry.rows
  rw [← hgot] at hrows hdelays hacc hsorted habove
  have hkeys : o.got.map (·.2.key) = o.entry.rows.map (·.key) := by
    rw [← hrows, map_map]
    rfl
  unfold write at h
  rw [ho] at h
  dsimp only at h
  rw [hm, Option.isNone_some, Bool.and_false] at h
  cases h
  refine ⟨rfl, ⟨rfl, rfl, rfl, rfl, rfl⟩, ?_, fun k => hkeys ▸ hdelays k, hrows ▸ .refl _,
    fun row hrow _ _ => hrows ▸ hrow, fun e he => ?_, hsorted, fun e he m' hm' => ?_, fun e he => ?_,
    ?_, rfl⟩
  · rcases hacc with ⟨-, hnil⟩ | ⟨next, hacc⟩
    · rw [hnil]
      exact ⟨rfl, fun _ _ => rfl, fun m hm => ⟨m, hm, le_rfl⟩, fun _ => ht⟩
    · exact ⟨rfl, fun t hne => (w.records.write_untouched (hacc.only t hne)).1,
        fun m' hm' => ⟨_, hacc.metas_eq, hacc.grows m' hm'⟩, fun _ => hacc.timeless⟩
  · have hrow : e.2 ∈ o.entry.rows := hrows ▸ mem_map_of_mem he
    obtain ⟨hget, htag⟩ := hfine.present htouched hpre (by rw [hm]; rfl) e.2 hrow
    refine ⟨hget, htag, ?_⟩
    rw [← htag, (hs.booked.owned _ _ hget).sent, hfine.named e.2 hrow, (hhome e.2 hrow).2]
  · rw [hm] at hm'
    cases hm'
    exact habove e he
  · rcases hacc with ⟨hnil, -⟩ | ⟨next, hacc⟩
    · rw [hnil] at he
      cases he
    · exact hacc.get_new (mem_map_of_mem (f := fun e => (e.1, e.2.fields)) he) nofun
  · rcases hacc with ⟨hnil, hbnil⟩ | ⟨next, hacc⟩
    · rw [hnil, hbnil]
      simp
    · have := hacc.keys_eq
      rw [map_map, toFinset_nil] at this
      exact this

theorem filterMap_drop {α : Type} {f : Write → Option α} (hf : ∀ k, f (.delay (.del k)) = none)
    (ks : List DelayKey) : (ks.map fun k => Write.delay (.del k)).filterMap f = [] := by
  rw [filterMap_map]
  exact filterMap_eq_nil_iff.mpr fun k _ => hf k

theorem write_gone (hs : Sound w) (ho : w.opened = some o) (hclean : Clean w .write)
    (hgone : ¬ ((streamPrefix o.entry.stream).isSome ∧
      (readMeta w.records w.now o.entry.stream).live?.isSome)) (h : write w = some w') :
    Exchanges w w' o [] := by
  obtain ⟨htouched, hhome, -⟩ := hclean o ho
  have hfine := hs.swept.opened o ho
  obtain ⟨hbatch, hgot⟩ := hfine.batch htouched
  obtain ⟨htaken, hdrop⟩ := exchangeBatch_gone hgone o.entry.rows
  rw [htaken] at hgot
  unfold write at h
  rw [ho] at h
  dsimp only at h
  rw [hgot, hbatch, Waiting.due, hdrop, isEmpty_nil, Bool.not_true, Bool.false_and,
    map_nil, append_nil] at h
  cases h
  have hmetas : ∀ t, (w.records.write ((o.entry.rows.map (·.key)).map fun k =>
      .delay (.del k))).metas t = w.records.metas t := by
    intro t
    rw [Records.metas_write, filterMap_drop fun _ => rfl]
    rfl
  refine ⟨rfl, ⟨rfl, rfl, rfl, rfl, rfl⟩, ⟨rfl, fun t _ => hmetas t, fun m hm =>
    ⟨m, (hmetas _).trans hm, le_rfl⟩, fun hpre m hm => ?_⟩, fun k => ?_, nil_sublist _,
    fun row hrow f hf => ?_, nofun, .nil, nofun, nofun, ?_, (append_nil _).symm⟩
  · exact hs.booked.timeless_records hpre m ((hmetas _).symm.trans hm)
  · have hdel : ((o.entry.rows.map (·.key)).map fun k => Write.delay (.del k)).filterMap
        Write.toDelay = (o.entry.rows.map (·.key)).map .del := by
      rw [filterMap_map]
      exact congrFun filterMap_eq_map _
    rw [World.row, Records.delays_write, hdel, get_write_delRows]
  · -- a staged row has its stream
    obtain ⟨m, hm, -⟩ := (hs.booked.owned row.key f hf).head
    rw [hfine.named row hrow, World.headAt_home (hhome row hrow)] at hm
    refine absurd ⟨(hhome row hrow).1, ?_⟩ hgone
    rw [live?_of_timeless (hs.booked.timeless_records (hhome row hrow).1), hm]
    rfl
  · rw [Records.entries_write, filterMap_drop fun _ => rfl]
    simp

theorem write_exchanges (hs : Sound w) (ho : w.opened = some o) (hclean : Clean w .write)
    (h : write w = some w') : ∃ got, Exchanges w w' o got := by
  by_cases hlive : (streamPrefix o.entry.stream).isSome ∧
      (readMeta w.records w.now o.entry.stream).live?.isSome
  · obtain ⟨hpre, hsome⟩ := hlive
    rw [live?_of_timeless (hs.booked.timeless_records hpre), Option.isSome_map] at hsome
    obtain ⟨m, hm⟩ := Option.isSome_iff_exists.mp hsome
    exact ⟨_, write_live hs ho hclean hpre hm h⟩
  · exact ⟨_, write_gone hs ho hclean hlive h⟩

theorem Swept.written {got : List (EntryId × Found)} (h : Swept w) (ho : w.opened = some o)
    (hex : Exchanges w w' o got) : Swept w' := by
  obtain ⟨-, hq, -, -, htags⟩ := hex.framed
  have hstreams := h.streams
  rw [ho] at hstreams
  refine ⟨fun e he => ?_, fun o' ho' => ?_, ?_⟩
  · rw [hq] at he
    have hne : e.stream ≠ o.entry.stream := by
      intro heq
      refine (nodup_cons.mp hstreams).1 (?_ : o.entry.stream ∈ w.queue.map (·.stream))
      rw [← heq]
      exact mem_map_of_mem he
    refine (h.queue e he).keep fun k f hk hget => ⟨?_, by rw [htags]⟩
    rw [hex.row, if_neg fun hmem => ?_, hget]
    obtain ⟨row, hr, rfl⟩ := mem_map.mp hmem
    exact hne (hk.symm.trans ((h.opened o ho).named row hr))
  · rw [hex.opened] at ho'
    cases ho'
  · rw [hex.opened, hq]
    exact (nodup_cons.mp hstreams).2

theorem write_sound (hs : Sound w) (hclean : Clean w .write)
    (h : write w = some w') : Sound w' := by
  obtain ⟨o, ho⟩ : ∃ o, w.opened = some o := by
    unfold write at h
    split at h
    · cases h
    · next o ho => exact ⟨o, ho⟩
  obtain ⟨got, hex⟩ := write_exchanges hs ho hclean h
  obtain ⟨-, -, htokens, hidents, htags⟩ := hex.framed
  have hlog : (got.map fun e => (⟨e.2.tag.token, e.2.tag.sent,
      w.idents (streamSlot o.entry.stream) o.entry.stream, e.1⟩ : Exchanged)).map (·.token) =
      ((got.map (·.2)).map (·.key)).map fun k => (w.tags k).token := by
    rw [map_map, map_map, map_map]
    refine map_congr_left fun e he => ?_
    exact congrArg Tag.token (hex.staged e he).2.1.symm
  have hsame : ∀ k ∈ (got.map (·.2)).map (·.key), ∀ k' f', w.row k' = some f' →
      (w.tags k).token = (w.tags k').token → k = k' := by
    intro k hk k' f' hk' htok
    rw [map_map] at hk
    obtain ⟨e, he, rfl⟩ := mem_map.mp hk
    exact hs.booked.distinct _ _ _ _ (hex.staged e he).1 hk' htok
  have hsub := hex.rows.map (·.key)
  refine ⟨hs.booked.step some _ (fun k f k' hk ho => ?_) nofun
    (fun _ _ _ _ _ _ ho => some.inj ho) htokens.ge hex.done (fun x hx => ?_) ?_
    (hex.grown.timeless_headAt hs.booked), hs.swept.written ho hex⟩
  · cases ho
    rw [hex.row, ite_none_left_eq_some] at hk
    refine ⟨hk.2, ⟨by rw [htags], by rw [hidents], rfl, fun m hm => hex.grown.headAt hm⟩, ?_⟩
    rw [hlog, mem_map]
    rintro ⟨k', hk', heq⟩
    exact hk.1 (hsame k' hk' k f hk.2 heq ▸ hsub.subset hk')
  · obtain ⟨e, he, rfl⟩ := mem_map.mp hx
    obtain ⟨hget, htag, hsent⟩ := hex.staged e he
    exact ⟨hsent.symm, _, _, hget, by rw [htag]⟩
  · rw [hlog]
    refine ((hs.swept.opened o ho).nodup.sublist hsub).map_on fun k hk k' hk' htok => ?_
    rw [map_map] at hk'
    obtain ⟨e, he, rfl⟩ := mem_map.mp hk'
    exact hsame k hk _ _ (hex.staged e he).1 htok

/-! ## Runs -/

theorem step_sound {a : Action} (hs : Sound w) (hclean : Clean w a)
    (h : step w a = some w') : Sound w' := by
  have hstream : ∀ s w'', onStream w s w'' = some w' →
      ((streamPrefix s).isSome → w.latched s = false → Sound w'') → Sound w' := by
    intro s w'' h hok
    unfold onStream at h
    split at h
    · cases h
      exact hs
    · next hpre =>
      obtain ⟨hlatch, h⟩ := ite_none_left_eq_some.mp h
      cases h
      exact hok (by simpa [Option.isSome_iff_ne_none] using hpre) (by simpa using hlatch)
  cases a with
  | xadd now s o id fields => exact hstream s _ h fun hpre hlatch => append_sound hs hpre hlatch
  | xtrim now s plan =>
    refine hstream s _ h fun hpre hlatch => removal_sound hs hpre hlatch fun ids ws hb => ?_
    have ht := hs.booked.timeless_records hpre
    exact removes_of_accounts ht (xtrimBatch_accounts ht hb) fun x hx =>
      (xtrimBatch_ofRemoval hb x hx).toDelay
  | xdel now s ids =>
    refine hstream s _ h fun hpre hlatch => removal_sound hs hpre hlatch fun ids ws hb => ?_
    have ht := hs.booked.timeless_records hpre
    exact removes_of_accounts ht (xdelBatch_accounts ht hb) fun x hx =>
      (xdelBatch_ofRemoval hb x hx).toDelay
  | del topic slot s =>
    obtain ⟨-, h⟩ := ite_none_left_eq_some.mp h
    cases h
    exact del_sound hs slot s
  | rename slot src dst nx =>
    cases h
    exact rename_sound hs slot src dst nx
  | scan now => exact scan_sound hs h
  | latch busy => exact latch_sound hs h
  | write => exact write_sound hs hclean h

/-- In every state that such a run reaches, no row has become two entries, every entry is one of
the stream its row was sent to, and what is staged has not been exchanged. The next batch turns the
rows that are still there into new entries, one each. -/
theorem exchanged_once {w w₁ : World} {as : List Action} (hw : Sound w)
    (hg : Guarded step Clean w as) (h : exec step w as = some w₁) :
    ((w₁.done.map (·.token)).Nodup ∧ (∀ x ∈ w₁.done, x.into = x.sent) ∧
      ∀ k f, w₁.row k = some f → (w₁.tags k).token ∉ w₁.done.map (·.token)) ∧
    ∀ o w₂, w₁.opened = some o → Clean w₁ .write → step w₁ .write = some w₂ →
      ∃ log, w₂.done = w₁.done ++ log ∧ (log.map (·.id)).Pairwise (· < ·) ∧
        (∀ x ∈ log, ∀ m ∈ w₁.records.metas o.entry.stream, m.payload.lastId < x.id) ∧
        (w₂.records.entries o.entry.stream).keys =
          (w₁.records.entries o.entry.stream).keys ∪ (log.map (·.id)).toFinset ∧
        ∀ row ∈ o.entry.rows, ∀ f, w₁.row row.key = some f →
          w₂.row row.key = none ∧ ∃ x ∈ log, x.token = (w₁.tags row.key).token ∧
            (w₂.records.entries o.entry.stream).get x.id = some f := by
  have hs : Sound w₁ := exec_inv (fun _ _ _ => step_sound) hw hg h
  refine ⟨⟨hs.booked.doneNodup, hs.booked.doneInto, fun k f hk => (hs.booked.owned k f hk).free⟩,
    fun o w₂ ho hclean hwrite => ?_⟩
  obtain ⟨got, hex⟩ := write_exchanges hs ho hclean hwrite
  refine ⟨_, hex.done, ?_, fun x hx m hm => ?_, ?_, fun row hrow f hf => ⟨?_, ?_⟩⟩
  · rw [map_map]
    exact hex.sorted
  · obtain ⟨e, he, rfl⟩ := mem_map.mp hx
    exact hex.above e he m hm
  · rw [hex.keys, map_map]
    rfl
  · rw [hex.row, if_pos (mem_map_of_mem hrow)]
  · obtain ⟨e, he, rfl⟩ := mem_map.mp (hex.complete row hrow f hf)
    obtain ⟨hget, htag, -⟩ := hex.staged e he
    rw [hget] at hf
    cases hf
    exact ⟨_, mem_map_of_mem he, by rw [htag], hex.entries e he⟩

/-! ## A stream of the same name -/

theorem sound_empty : Sound {} := by
  refine ⟨⟨fun slot s m hm => ?_, nofun, nofun, nodup_nil, nofun, nofun⟩, nofun, nofun, nodup_nil⟩
  unfold World.headAt at hm
  split at hm <;> cases hm

/-- Stream `f/tg`: its name routes to the slot of its parent. -/
def sampleRouted : Bytes := [102, 47, 116, 103]

/-- A message that is due at 20, and the sweep that finds it. -/
def delayedSend : List Action :=
  [.xadd 10 sampleRouted { delayMs := 10 } .auto [([102], [118])], .scan 30]

theorem exchanged_once_due : ∃ w₁ o w₂, exec step {} (delayedSend ++ [.latch false]) = some w₁ ∧
    w₁.opened = some o ∧ o.entry.rows ≠ [] ∧ step w₁ .write = some w₂ ∧
    ∃ log, w₂.done = w₁.done ++ log ∧ ∀ row ∈ o.entry.rows, ∀ f, w₁.row row.key = some f →
      w₂.row row.key = none ∧ ∃ x ∈ log, (w₂.records.entries o.entry.stream).get x.id = some f := by
  have hg : Guarded step Clean {} (delayedSend ++ [.latch false]) := by decide +kernel
  obtain ⟨w₁, hw₁, hclean, hopened, hsome⟩ : ∃ w, exec step {} (delayedSend ++ [.latch false]) =
      some w ∧ Clean w .write ∧ w.opened.map (·.entry.rows.length) = some 1 ∧
      (step w .write).isSome := exists_run (by decide +kernel) fun _ _ h => h
  obtain ⟨o, ho, hlen⟩ := map_eq_some_iff.mp hopened
  obtain ⟨w₂, hw₂⟩ := Option.isSome_iff_exists.mp hsome
  obtain ⟨log, hdone, -, -, -, hrows⟩ := (exchanged_once sound_empty hg hw₁).2 o w₂ ho hclean hw₂
  refine ⟨w₁, o, w₂, hw₁, ho, fun hnil => ?_, hw₂, log, hdone, fun row hrow f hf => ?_⟩
  · rw [hnil] at hlen
    cases hlen
  · obtain ⟨hgone, x, hx, -, hentry⟩ := hrows row hrow f hf
    exact ⟨hgone, x, hx, hentry⟩

/-- DEL after the scan, and the stream made anew before its batch. -/
def delAndAdd : List Action :=
  [.del false (slotWithPrefix sampleRouted).1 sampleRouted,
    .xadd 40 sampleRouted {} .auto [([102], [119])], .latch false, .write]

/-- The message to the first stream becomes an entry of the second. -/
theorem exchanged_into_successor : ∃ w₁, exec step {} (delayedSend ++ delAndAdd) = some w₁ ∧
    ∃ x ∈ w₁.done, x.into ≠ x.sent :=
  exists_run (by decide +kernel) fun _ _ h => h

end Rdb.Lite.Delay
