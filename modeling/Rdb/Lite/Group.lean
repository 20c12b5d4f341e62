import Rdb.Lite.Records

/-!
# The cached state of consumer groups

A group's positions live in a cache over its group record: `delivered`, how far
`XREADGROUP >` has gone, and `committed`, from where a restart resumes. A load of
a group that is not cached starts both at the record's committed position. The
cache also counts the pending rows; every command moves the count by its own
delta. Ordered groups have an owner, a consumer with a lease.
-/

namespace Rdb.Lite

open Lib

/-! ## The offset cache -/

structure GroupState where
  createdMs : Nat
  delivered : EntryId
  committed : EntryId
  pending : Nat
  ordered : Bool := false
  inflightMax : Nat := 0
  maxdelivery : Nat := 0
  dlq : Bytes := []

def payloadOf (st : GroupState) : GroupPayload where
  createdMs := st.createdMs
  delivered := st.delivered
  committed := st.committed
  ordered := st.ordered
  inflightMax := st.inflightMax
  maxdelivery := st.maxdelivery
  dlq := st.dlq

structure Offsets where
  map : Bytes → Bytes → Option GroupState := fun _ _ => none
  dirty : Bytes → Bytes → Bool := fun _ _ => false

/-- Every key under the group's base that has the length of a pending row's. -/
def countPend (r : Records) (s g : Bytes) : Nat :=
  ((r.window s).entries.filter fun e =>
    g ++ [pendTag] <+: e.1 ∧ e.1.length = g.length + 17).length

/-- The state a load takes from the group record: delivery resumes at the committed position. -/
def ofRecord (r : Records) (s g : Bytes) (p : GroupPayload) : GroupState where
  createdMs := p.createdMs
  delivered := p.committed
  committed := p.committed
  pending := countPend r s g
  ordered := p.ordered
  inflightMax := normalizeInflight p.ordered p.inflightMax
  maxdelivery := p.maxdelivery
  dlq := p.dlq

def readGroup (r : Records) (now : Nat) (s g : Bytes) : Option GroupPayload :=
  match (readMeta r now s).live? with
  | none => none
  | some _ => r.groups s g

namespace Offsets

/-- The state of a group, cached or as a load would take it from the store. -/
def peek (o : Offsets) (r : Records) (now : Nat) (s g : Bytes) : Option GroupState :=
  (o.map s g).or ((readGroup r now s g).map (ofRecord r s g))

def set (o : Offsets) (s g : Bytes) (st : GroupState) : Offsets :=
  { o with map := update₂ o.map s g (some st) }

/-- A load caches what it finds; a group that does not exist is not cached. -/
def load (o : Offsets) (r : Records) (now : Nat) (s g : Bytes) : Offsets × Option GroupState :=
  match o.peek r now s g with
  | none => (o, none)
  | some st => (o.set s g st, some st)

def modify (o : Offsets) (s g : Bytes) (f : GroupState → GroupState) : Offsets :=
  { o with map := update₂ o.map s g ((o.map s g).map f) }

def markDirty (o : Offsets) (s g : Bytes) : Offsets := { o with dirty := update₂ o.dirty s g true }

/-- The delivered position moves up only. -/
def advanceDelivered (o : Offsets) (s g : Bytes) (id : EntryId) : Offsets :=
  o.modify s g fun st => if st.delivered < id then { st with delivered := id } else st

end Offsets

/-- The committed position moves up to a candidate, and takes the delivered one along. -/
def GroupState.advanceTo (st : GroupState) (candidate : EntryId) : GroupState :=
  { st with committed := candidate, delivered := max st.delivered candidate }

namespace Offsets

def advanceCommitted (o : Offsets) (s g : Bytes) (candidate : GroupState → EntryId) : Offsets :=
  match o.map s g with
  | none => o
  | some st =>
    if st.committed < candidate st then (o.set s g (st.advanceTo (candidate st))).markDirty s g
    else o

def maxOf (old : EntryId) (ids : List EntryId) : EntryId := ids.foldl max old

/-- XACK: over the acked ids that no surviving pending row precedes. -/
def ackCandidate (ids : List EntryId) (headAfter : Option EntryId) (old : EntryId) : EntryId :=
  match headAfter with
  | none => maxOf old ids
  | some h => maxOf old (ids.filter (· < h))

def ack (o : Offsets) (s g : Bytes) (ids : List EntryId) (headAfter : Option EntryId) :
    Offsets × Option Nat :=
  (o.advanceCommitted s g fun st => ackCandidate ids headAfter st.committed,
    (o.map s g).map fun st => (ids.filter (st.committed < ·)).length)

/-- A dead-letter resolve may go on to the bound when nothing pending is left before it. -/
def resolveCandidate (ids : List EntryId) (headAfter : Option EntryId) (bound old : EntryId) :
    EntryId :=
  match headAfter with
  | none => max (maxOf old ids) bound
  | some h => maxOf old (ids.filter (· < h))

def resolve (o : Offsets) (s g : Bytes) (ids : List EntryId) (headAfter : Option EntryId)
    (bound : EntryId) : Offsets :=
  o.advanceCommitted s g fun st => resolveCandidate ids headAfter bound st.committed

end Offsets

structure RollbackMark where
  st : GroupState
  dirty : Bool

namespace Offsets

def mark (o : Offsets) (s g : Bytes) : Option RollbackMark :=
  (o.map s g).map fun st => ⟨st, o.dirty s g⟩

def restore (o : Offsets) (s g : Bytes) : Option RollbackMark → Offsets
  | none => o
  | some m => { o.set s g m.st with dirty := update₂ o.dirty s g m.dirty }

/-- The count never goes below zero. -/
def bumpPending (o : Offsets) (s g : Bytes) (delta : Int) : Offsets :=
  o.modify s g fun st => { st with pending := (st.pending + delta).toNat }

def setPosition (o : Offsets) (s g : Bytes) (id : EntryId) : Offsets :=
  match o.map s g with
  | none => o
  | some st => (o.set s g { st with delivered := id, committed := id }).markDirty s g

def removeStream (o : Offsets) (s : Bytes) : Offsets where
  map := Function.update o.map s fun _ => none
  dirty := Function.update o.dirty s fun _ => false

end Offsets

/-! ## Pending rows -/

/-- A bounded walk takes a row before it looks at its bound. -/
def upTo {α : Type} (n : Nat) (l : List α) : List α := l.take (max n 1)

def scanPend (pend : SortedMap EntryId PendState) (start : EntryId) (limit : Option Nat) :
    List (EntryId × PendState) :=
  let rows := pend.entries.filter fun e => start ≤ e.1
  match limit with
  | none => rows
  | some n => upTo n rows

def firstPending (pend : SortedMap EntryId PendState) : Option (EntryId × PendState) :=
  (scanPend pend minId (some 1)).head?

/-- The first pending row above `committed`, up to `maxAcked`, that the acked ids leave. The walk
is over the keys under the group's base and ends at one that has not the length of a pending
row's. -/
def headAfterAck (window : Window) (g : Bytes) (committed : EntryId) (acked : List EntryId)
    (maxAcked : EntryId) : Option EntryId :=
  let base := g ++ [pendTag]
  let start := base ++ (succId committed).elim [] EntryId.suffix
  let walk := window.entries.filter fun e => base <+: e.1 ∧ start ≤ e.1
  ((walk.map fun e => EntryId.ofSuffix (e.1.drop base.length)).takeWhile
    (·.any (· ≤ maxAcked))).filterMap id |>.find? (· ∉ acked)

/-- Nothing lies under the group's base but its own pending rows. -/
def Own (r : Records) (s g : Bytes) : Prop :=
  ((r.window s).entries.filter fun e => g ++ [pendTag] <+: e.1).map
      (fun e => (EntryId.ofSuffix (e.1.drop (g ++ [pendTag]).length), e.2)) =
    (r.pend s g).entries.map fun e => (some e.1, .inl e.2)
  deriving Decidable

theorem Own.get_window {r : Records} {s g : Bytes} (h : Own r s g) {id : EntryId} {row : PendState}
    (hrow : (r.pend s g).get id = some row) :
    (r.window s).get (g ++ pendTag :: id.suffix) = some (.inl row) ∧
      EntryId.ofSuffix id.suffix = some id := by
  have hmem : (some id, .inl row) ∈ (r.pend s g).entries.map fun e =>
      (some e.1, (.inl e.2 : PendState ⊕ ConsumerState)) :=
    List.mem_map_of_mem (SortedMap.get_eq_some.mp hrow)
  rw [← h] at hmem
  obtain ⟨⟨k, val⟩, he, heq⟩ := List.mem_map.mp hmem
  obtain ⟨hid, rfl⟩ := Prod.mk.inj heq
  obtain ⟨hin, hpre⟩ := List.mem_filter.mp he
  obtain ⟨b, rfl⟩ := of_decide_eq_true hpre
  rw [List.drop_left] at hid
  cases (EntryId.of_ofSuffix hid).1
  exact ⟨SortedMap.get_eq_some.mpr (by simpa using hin), hid⟩

def scanEntries (entries : SortedMap EntryId Fields) (after : EntryId) (count : Nat) :
    List (EntryId × Fields) :=
  upTo count (entries.entries.filter fun e => after < e.1)

/-! ## Ownership of ordered groups -/

structure Owner where
  consumer : Bytes
  epoch : Nat
  activeMs : Nat

abbrev Owners := Bytes → Bytes → Option Owner

def leaseLive (activeMs now leaseMs : Nat) : Bool := now - activeMs < leaseMs

inductive Access where
  | own (epoch : Nat) (tookOver : Bool)
  | busy (epoch : Nat)

/-- A free queue and an expired lease are taken, a fresh foreign lease is respected. -/
def acquire (owners : Owners) (s g consumer : Bytes) (now leaseMs : Nat) : Owners × Access :=
  match owners s g with
  | none => (update₂ owners s g (some ⟨consumer, 1, now⟩), .own 1 true)
  | some o =>
    if o.consumer = consumer then
      (update₂ owners s g (some { o with activeMs := now }), .own o.epoch false)
    else if leaseLive o.activeMs now leaseMs then (owners, .busy o.epoch)
    else (update₂ owners s g (some ⟨consumer, o.epoch + 1, now⟩), .own (o.epoch + 1) true)

def forceTakeover (owners : Owners) (s g consumer : Bytes) (now : Nat) : Owners × Nat :=
  match owners s g with
  | none => (update₂ owners s g (some ⟨consumer, 1, now⟩), 1)
  | some o =>
    if o.consumer = consumer then (update₂ owners s g (some { o with activeMs := now }), o.epoch)
    else (update₂ owners s g (some ⟨consumer, o.epoch + 1, now⟩), o.epoch + 1)

/-- The sweep takes over from a stale holder only; a live one is neither deposed nor
refreshed. -/
def takeoverIfStale (owners : Owners) (s g consumer : Bytes) (now leaseMs : Nat) :
    Owners × Option Nat :=
  match owners s g with
  | none => (update₂ owners s g (some ⟨consumer, 1, now⟩), some 1)
  | some o =>
    if o.consumer = consumer then
      (if leaseLive o.activeMs now leaseMs then owners
        else update₂ owners s g (some { o with activeMs := now }), some o.epoch)
    else if leaseLive o.activeMs now leaseMs then (owners, none)
    else (update₂ owners s g (some ⟨consumer, o.epoch + 1, now⟩), some (o.epoch + 1))

def releaseConsumer (owners : Owners) (s g consumer : Bytes) : Owners :=
  match owners s g with
  | some o => if o.consumer = consumer then update₂ owners s g none else owners
  | none => owners

/-! ## Known consumers -/

/-- Creation times of the consumers this process has seen. -/
abbrev Known := Bytes → Bytes → Bytes → Option Nat

def ensureConsumer (known : Known) (s g consumer : Bytes) (now : Nat) : Known × Option Nat :=
  match known s g consumer with
  | some created => (known, some created)
  | none => (update₂ known s g (Function.update (known s g) consumer (some now)), none)

def forgetConsumer (known : Known) (s g consumer : Bytes) : Known :=
  update₂ known s g (Function.update (known s g) consumer none)

/-- The consumer's row with its activity clock, written by deliveries and claims. -/
def registerConsumer (known : Known) (s g consumer : Bytes) (now : Nat) : Known × Write :=
  let (known, created) := ensureConsumer known s g consumer now
  (known, .consumer s g (.put consumer ⟨created.getD now, now⟩))

/-- The refresh of an ack; a consumer nobody knows is not created. -/
def touchSeen (r : Records) (known : Known) (s g consumer : Bytes) (now : Nat) : List Write :=
  match (known s g consumer).or (((r.consumers s g).get consumer).map (·.createdMs)) with
  | none => []
  | some created => [.consumer s g (.put consumer ⟨created, now⟩)]

/-! ## What the cache operations do to one group -/

namespace Offsets

theorem le_maxOf (old : EntryId) (ids : List EntryId) : old ≤ maxOf old ids := by
  induction ids generalizing old with
  | nil => exact le_rfl
  | cons id ids ih => exact (le_max_left old id).trans (ih (max old id))

theorem le_maxOf_of_mem {old id : EntryId} {ids : List EntryId} (h : id ∈ ids) :
    id ≤ maxOf old ids := by
  induction ids generalizing old with
  | nil => cases h
  | cons id' ids ih =>
    rcases List.mem_cons.mp h with rfl | h
    · exact (le_max_right old id).trans (le_maxOf (max old id) ids)
    · exact ih h

variable (o : Offsets) (r : Records) (now : Nat) (s g s' g' : Bytes)

@[simp] theorem map_set (st : GroupState) : (o.set s g st).map s g = some st := by
  simp [set, update₂_apply]

theorem map_set_ne (st : GroupState) (h : ¬ (s = s' ∧ g = g')) :
    (o.set s g st).map s' g' = o.map s' g' := by
  simp only [set, update₂_apply, if_neg h]

@[simp] theorem map_modify (f : GroupState → GroupState) :
    (o.modify s g f).map s g = (o.map s g).map f := by
  simp [modify, update₂_apply]

theorem map_modify_ne (f : GroupState → GroupState) (h : ¬ (s = s' ∧ g = g')) :
    (o.modify s g f).map s' g' = o.map s' g' := by
  simp only [modify, update₂_apply, if_neg h]

theorem load_snd : (o.load r now s g).2 = o.peek r now s g := by
  unfold load
  cases o.peek r now s g <;> rfl

theorem map_load (st : GroupState) (h : (o.load r now s g).2 = some st) :
    (o.load r now s g).1.map s g = some st := by
  rw [load_snd] at h
  simp [load, h]

theorem peek_load : (o.load r now s g).1.peek r now s' g' = o.peek r now s' g' := by
  unfold load
  cases hp : o.peek r now s g with
  | none => rfl
  | some st =>
    by_cases h : s = s' ∧ g = g'
    · obtain ⟨rfl, rfl⟩ := h
      rw [hp]
      simp [peek]
    · simp only [peek, map_set_ne o s g s' g' st h]

theorem map_load_ne (h : ¬ (s = s' ∧ g = g')) : (o.load r now s g).1.map s' g' = o.map s' g' := by
  unfold load
  cases o.peek r now s g with
  | none => rfl
  | some st => exact map_set_ne o s g s' g' st h

@[simp] theorem dirty_load : (o.load r now s g).1.dirty = o.dirty := by
  unfold load
  cases o.peek r now s g <;> rfl

theorem map_advanceCommitted (f : GroupState → EntryId) : (o.advanceCommitted s g f).map =
    (o.modify s g fun st => if st.committed < f st then st.advanceTo (f st) else st).map := by
  unfold advanceCommitted modify
  cases h : o.map s g with
  | none =>
    dsimp only [Option.map_none]
    rw [← h, update₂_self]
  | some st =>
    dsimp only [Option.map_some]
    split
    · rfl
    · rw [← h, update₂_self]

theorem restore_mark : o.restore s g (o.mark s g) = o := by
  unfold mark
  cases h : o.map s g with
  | none => rfl
  | some st =>
    show Offsets.mk (update₂ o.map s g (some st)) (update₂ o.dirty s g (o.dirty s g)) = o
    rw [← h, update₂_self, update₂_self]

end Offsets

structure GroupState.Later (st st' : GroupState) : Prop where
  delivered : st.delivered ≤ st'.delivered
  maxdelivery : st.maxdelivery = st'.maxdelivery
  dlq : st.dlq = st'.dlq

theorem GroupState.Later.refl (st : GroupState) : st.Later st := ⟨le_rfl, rfl, rfl⟩

theorem GroupState.Later.trans {st st' st'' : GroupState} (h : st.Later st') (h' : st'.Later st'') :
    st.Later st'' :=
  ⟨h.delivered.trans h'.delivered, h.maxdelivery.trans h'.maxdelivery, h.dlq.trans h'.dlq⟩

namespace Offsets

/-- The cached state of one group goes on to a later one. -/
def Moves (o o' : Offsets) (s g : Bytes) : Prop :=
  ∃ f : GroupState → GroupState, (∀ st : GroupState, st.Later (f st)) ∧ o'.map = (o.modify s g f).map

variable {o o' o'' : Offsets} {s g s' g' : Bytes}

theorem Moves.refl : o.Moves o s g :=
  ⟨id, .refl, by rw [modify, Option.map_id, id_eq, update₂_self]⟩

theorem Moves.trans (h : o.Moves o' s g) (h' : o'.Moves o'' s g) : o.Moves o'' s g := by
  obtain ⟨f, hf, hmap⟩ := h
  obtain ⟨f', hf', hmap'⟩ := h'
  exact ⟨f' ∘ f, fun st => (hf st).trans (hf' _), by simp [hmap', hmap, modify, update₂]⟩

theorem Moves.map_ne (h : o.Moves o' s g) (hne : ¬ (s = s' ∧ g = g')) :
    o'.map s' g' = o.map s' g' := by
  obtain ⟨f, -, hmap⟩ := h
  rw [hmap, map_modify_ne o s g s' g' f hne]

theorem moves_modify {f : GroupState → GroupState} (hf : ∀ st : GroupState, st.Later (f st)) :
    o.Moves (o.modify s g f) s g := ⟨f, hf, rfl⟩

theorem moves_advanceDelivered (id : EntryId) : o.Moves (o.advanceDelivered s g id) s g := by
  refine moves_modify fun st => ?_
  split
  · next h => exact ⟨h.le, rfl, rfl⟩
  · exact .refl st

theorem moves_bumpPending (delta : Int) : o.Moves (o.bumpPending s g delta) s g :=
  moves_modify fun _ => ⟨le_rfl, rfl, rfl⟩

theorem moves_advanceCommitted (f : GroupState → EntryId) :
    o.Moves (o.advanceCommitted s g f) s g := by
  refine ⟨_, fun st => ?_, map_advanceCommitted o s g f⟩
  split
  · exact ⟨le_max_left _ _, rfl, rfl⟩
  · exact .refl st

end Offsets

end Rdb.Lite
