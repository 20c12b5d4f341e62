import Rdb.Lite.Transfer

/-!
# XREADGROUP

A `>` read plans stream by stream: it loads the group, passes the gate of an ordered
group, scans above the delivered position, moves that position in the cache, sends
over-delivered entries to the dead-letter stream, and adds the pending rows to one
batch that is committed at the end. The cache has moved by then. When the call fails
it is put back to marks, and a mark is taken after the delivered position has moved.

`deliverNew_unchanged_iff`: a failed call leaves the groups as they were exactly when
it fails before any of its streams has an entry to hand out.
-/

namespace Rdb.Lite

open Lib List Option Offsets

/-- The records and what the process keeps about the groups. -/
structure Runtime where
  records : Records := {}
  offsets : Offsets := {}
  owners : Owners := fun _ _ => none
  known : Known := fun _ _ _ => none
  /-- Where the idle sweep goes on in a group. -/
  resumes : Bytes → Bytes → Option EntryId := fun _ _ => none

/-- Reads of the store that fail while a stream is planned. -/
structure StreamFaults where
  load : Bool := false
  scan : Bool := false
  pend : Bool := false
  transfer : Bool := false

/-- The failures of one call: by position in the list of streams, and at the commit. -/
structure Faults where
  at_ : Nat → StreamFaults := fun _ => {}
  commit : Bool := false

inductive DeliverErr where
  | store (e : String)
  | noGroup (stream : Bytes)

/-- A call: the group, the consumer, COUNT, the clock and the lease of ordered queues. -/
structure ReadCall where
  group : Bytes
  consumer : Bytes
  count : Nat
  now : Nat
  leaseMs : Nat

structure Plan where
  offsets : Offsets
  owners : Owners
  known : Known
  writes : List Write := []
  results : List (Bytes × List (EntryId × Fields)) := []
  dlqCount : Nat := 0
  moves : List Move := []
  marks : List (Bytes × Option RollbackMark) := []

/-- The gate of an ordered group: how many entries may go out, and the epoch they carry. -/
def orderedGate (c : ReadCall) (owners : Owners) (s : Bytes) (st : GroupState) :
    Owners × Option (Nat × Nat) :=
  if !st.ordered then (owners, some (c.count, 0))
  else
    let window := st.inflightMax - st.pending
    if window = 0 then (owners, none)
    else match acquire owners s c.group c.consumer c.now c.leaseMs with
      | (owners, .busy _) => (owners, none)
      | (owners, .own epoch _) => (owners, some (min window c.count, epoch))

def pendRow (c : ReadCall) (s : Bytes) (epoch : Nat) (rows : List (EntryId × PendState))
    (e : EntryId × Fields) : Write :=
  .pend s c.group (.put e.1 {
    consumer := c.consumer
    deliveredMs := c.now
    timesDelivered := (timesOf rows e.1).elim 1 fun old => saturatingAdd old 1
    epoch })

inductive PlanErr where
  | noGroup
  /-- A scan error returns at once, without the marks. -/
  | scan
  | gate (e : String)

/-- Hand out the entries of a scan that found some. -/
def serveStream (r : Records) (c : ReadCall) (f : StreamFaults) (p : Plan) (s : Bytes)
    (st : GroupState) (epoch : Nat) (found : List (EntryId × Fields)) :
    Except (Plan × PlanErr) Plan :=
  let offsets := found.getLast?.elim p.offsets fun e => p.offsets.advanceDelivered s c.group e.1
  let rows := if f.pend then []
    else scanPend (r.pend s c.group) st.delivered (some found.length)
  match gateDelivery r offsets c.now s c.group st found rows c.consumer f.transfer with
  | .error e => .error ({ p with offsets }, .gate e)
  | .ok gated =>
    let (known, row) := registerConsumer p.known s c.group c.consumer c.now
    .ok { p with
      offsets := gated.offsets
      known
      writes := p.writes ++ gated.writes ++ gated.kept.map (pendRow c s epoch rows) ++ [row]
      results := if gated.kept.isEmpty then p.results else p.results ++ [(s, gated.kept)]
      dlqCount := p.dlqCount + gated.tally.resolved
      moves := p.moves ++ gated.tally.moved
      marks := p.marks ++ [(s, gated.mark)] }

def planStream (r : Records) (c : ReadCall) (f : StreamFaults) (p : Plan) (s : Bytes) :
    Except (Plan × PlanErr) Plan :=
  match if f.load then (p.offsets, none) else p.offsets.load r c.now s c.group with
  | (offsets, none) => .error ({ p with offsets }, .noGroup)
  | (offsets, some st) =>
    match orderedGate c p.owners s st with
    | (owners, none) => .ok { p with offsets, owners }
    | (owners, some (cap, epoch)) =>
      let p := { p with offsets, owners }
      if f.scan then .error (p, .scan)
      else match scanEntries (r.entries s) st.delivered cap with
        | [] => .ok p
        | found => serveStream r c f p s st epoch found

def rollbackMarks (g : Bytes) (p : Plan) : Plan :=
  { p with offsets := p.marks.foldl (fun o m => o.restore m.1 g m.2) p.offsets, marks := [] }

def planStreams (r : Records) (c : ReadCall) (f : Nat → StreamFaults) (i : Nat) (p : Plan) :
    List Bytes → Plan × Option DeliverErr
  | [] => (p, none)
  | s :: rest => match planStream r c (f i) p s with
    | .ok p => planStreams r c f (i + 1) p rest
    | .error (p, .noGroup) => (rollbackMarks c.group p, some (.noGroup s))
    | .error (p, .scan) => (p, some (.store "scan failed"))
    | .error (p, .gate e) => (rollbackMarks c.group p, some (.store e))

structure Delivered where
  runtime : Runtime
  reply : Except DeliverErr (List (Bytes × List (EntryId × Fields)))
  moves : List Move

def Runtime.plan (l : Runtime) : Plan := { offsets := l.offsets, owners := l.owners, known := l.known }

def Runtime.ofPlan (l : Runtime) (p : Plan) : Runtime :=
  { l with offsets := p.offsets, owners := p.owners, known := p.known }

def deliverNew (l : Runtime) (c : ReadCall) (f : Faults) (streams : List Bytes) : Delivered :=
  match planStreams l.records c f.at_ 0 l.plan streams with
  | (p, some e) => ⟨l.ofPlan p, .error e, []⟩
  | (p, none) =>
    if p.results.isEmpty && p.dlqCount = 0 then ⟨l.ofPlan p, .ok p.results, []⟩
    else if f.commit then ⟨l.ofPlan (rollbackMarks c.group p), .error (.store "commit failed"), []⟩
    else ⟨{ l.ofPlan p with records := l.records.write p.writes }, .ok p.results, p.moves⟩

/-- Every group is looked up before any stream is planned. -/
def validateGroups (l : Runtime) (c : ReadCall) : List Bytes → Runtime × Option Bytes
  | [] => (l, none)
  | s :: rest => match l.offsets.load l.records c.now s c.group with
    | (offsets, none) => ({ l with offsets }, some s)
    | (offsets, some _) => validateGroups { l with offsets } c rest

def xreadgroup (l : Runtime) (c : ReadCall) (f : Faults) (streams : List Bytes) : Delivered :=
  match validateGroups l c streams with
  | (l, some s) => ⟨l, .error (.noGroup s), []⟩
  | (l, none) => deliverNew l c f streams

/-! ## Positions along a plan -/

/-- The delivered position of a group does not go down. -/
def Offsets.Rises (o o' : Offsets) (s g : Bytes) : Prop :=
  ∀ st, o.map s g = some st → ∃ st', o'.map s g = some st' ∧ st.delivered ≤ st'.delivered

namespace Offsets

variable {o o' o'' : Offsets} {s g s' g' : Bytes}

theorem Rises.refl (o : Offsets) (s g : Bytes) : o.Rises o s g := fun st h => ⟨st, h, le_rfl⟩

theorem rises_load (r : Records) (now : Nat) : o.Rises (o.load r now s' g').1 s g := by
  intro st hst
  by_cases h : s' = s ∧ g' = g
  · obtain ⟨rfl, rfl⟩ := h
    have hpeek : o.peek r now s' g' = some st := by rw [peek, hst, some_or]
    exact ⟨st, map_load o r now s' g' st (by rw [load_snd, hpeek]), le_rfl⟩
  · exact ⟨st, by rw [map_load_ne o r now s' g' s g h, hst], le_rfl⟩

theorem Moves.rises (h : o.Moves o' s' g') : o.Rises o' s g := by
  obtain ⟨f, hf, hmap⟩ := h
  intro st hst
  rw [hmap]
  by_cases h : s' = s ∧ g' = g
  · obtain ⟨rfl, rfl⟩ := h
    exact ⟨f st, by rw [map_modify, hst]; rfl, (hf st).delivered⟩
  · exact ⟨st, by rw [map_modify_ne o s' g' s g f h, hst], le_rfl⟩

end Offsets

variable {r : Records} {s g s' : Bytes} {st : GroupState}

theorem transferEntries_moves {o o' : Offsets} {now : Nat} {dead : List DeadRow} {fault : Bool}
    {writes : List Write} {tally : TransferTally}
    (h : transferEntries r o now s g st dead fault = .ok (o', writes, tally)) :
    o.Moves o' s g := by
  unfold transferEntries at h
  split at h
  · cases h
    exact .refl
  split at h
  · cases h
  split at h
  · cases h
  cases h
  exact moves_advanceCommitted _

theorem gateDelivery_ok {o : Offsets} {now : Nat} {entries : List (EntryId × Fields)}
    {rows : List (EntryId × PendState)} {consumer : Bytes} {fault : Bool} {gated : Gated}
    (h : gateDelivery r o now s g st entries rows consumer fault = .ok gated) (s' : Bytes) :
    o.Rises gated.offsets s' g ∧ gated.mark = o.mark s g := by
  unfold gateDelivery at h
  dsimp only at h
  split at h
  · cases h
  · next o' writes tally ht =>
    cases h
    exact ⟨((transferEntries_moves ht).trans (moves_bumpPending _)).rises, rfl⟩

/-- The group of `s` stands above `d` in the cache and in every mark. -/
structure Ahead (g : Bytes) (p : Plan) (s : Bytes) (d : EntryId) : Prop where
  cached : ∃ st, p.offsets.map s g = some st ∧ d < st.delivered
  marked : ∀ m, (s, some m) ∈ p.marks → d < m.st.delivered

variable {p : Plan} {d : EntryId}

theorem Ahead.of_rises {p' : Plan} (h : Ahead g p s d) (hr : p.offsets.Rises p'.offsets s g)
    (hm : p'.marks = p.marks) : Ahead g p' s d := by
  obtain ⟨st, hst, hlt⟩ := h.cached
  obtain ⟨st', hst', hle⟩ := hr st hst
  exact ⟨⟨st', hst', hlt.trans_le hle⟩, hm ▸ h.marked⟩

theorem Ahead.rollback (h : Ahead g p s d) : Ahead g (rollbackMarks g p) s d := by
  have hfold : ∀ (marks : List (Bytes × Option RollbackMark)) (o : Offsets),
      (∃ st, o.map s g = some st ∧ d < st.delivered) →
      (∀ m, (s, some m) ∈ marks → d < m.st.delivered) →
      ∃ st, (marks.foldl (fun o m => o.restore m.1 g m.2) o).map s g = some st ∧
        d < st.delivered := by
    intro marks
    induction marks with
    | nil => exact fun o ho _ => ho
    | cons m marks ih =>
      intro o ho hm
      refine ih _ ?_ fun m' hm' => hm m' (mem_cons_of_mem _ hm')
      obtain ⟨s', mark⟩ := m
      cases mark with
      | none => exact ho
      | some mark =>
        by_cases hs : s' = s
        · subst hs
          exact ⟨mark.st, by simp [restore], hm mark mem_cons_self⟩
        · obtain ⟨st, hst, hlt⟩ := ho
          refine ⟨st, ?_, hlt⟩
          rw [← hst]
          exact map_set_ne o s' g s g mark.st fun h => hs h.1
  exact ⟨hfold p.marks p.offsets h.cached h.marked, fun _ hm => absurd hm not_mem_nil⟩

/-- The plan that a stream's planning ends with, whether it fails or not. -/
def planOf : Except (Plan × PlanErr) Plan → Plan
  | .ok p => p
  | .error (p, _) => p

variable {c : ReadCall} {f : StreamFaults} {found : List (EntryId × Fields)}

theorem serveStream_ahead {epoch : Nat} (h : Ahead c.group p s d) :
    Ahead c.group (planOf (serveStream r c f p s' st epoch found)) s d := by
  have hadv : p.offsets.Rises (found.getLast?.elim p.offsets fun e =>
      p.offsets.advanceDelivered s' c.group e.1) s c.group := by
    cases found.getLast? with
    | none => exact .refl _ _ _
    | some e => exact (moves_advanceDelivered _).rises
  unfold serveStream
  dsimp only
  split
  · exact h.of_rises hadv rfl
  · next gated hgate =>
    obtain ⟨hrises, hmark⟩ := gateDelivery_ok hgate s
    obtain ⟨st₀, hst₀, hlt⟩ := h.cached
    obtain ⟨st₁, hst₁, hle₁⟩ := hadv st₀ hst₀
    obtain ⟨st₂, hst₂, hle₂⟩ := hrises st₁ hst₁
    refine ⟨⟨st₂, hst₂, hlt.trans_le (hle₁.trans hle₂)⟩, fun m hm => ?_⟩
    rcases mem_append.mp hm with hm | hm
    · exact h.marked m hm
    · -- the new mark is of the cache after the position has moved
      obtain ⟨rfl, heq⟩ := Prod.mk.inj (mem_singleton.mp hm)
      rw [hmark, mark, hst₁] at heq
      cases heq
      exact hlt.trans_le hle₁

theorem planStream_ahead (h : Ahead c.group p s d) (s' : Bytes) :
    Ahead c.group (planOf (planStream r c f p s')) s d := by
  have hload : p.offsets.Rises
      (if f.load then (p.offsets, none) else p.offsets.load r c.now s' c.group).1 s c.group := by
    split
    · exact .refl _ _ _
    · exact rises_load r c.now
  unfold planStream
  split
  · next offsets heq =>
    rw [heq] at hload
    exact h.of_rises hload rfl
  · next offsets st heq =>
    rw [heq] at hload
    split
    · exact h.of_rises hload rfl
    · next owners cap epoch _ =>
      have h' : Ahead c.group { p with offsets, owners } s d := h.of_rises hload rfl
      split
      · exact h'
      split
      · exact h'
      · exact serveStream_ahead h'

theorem planStreams_ahead {f : Nat → StreamFaults} {i : Nat} (h : Ahead c.group p s d)
    (streams : List Bytes) :
    Ahead c.group (planStreams r c f i p streams).1 s d := by
  induction streams generalizing i p with
  | nil => exact h
  | cons s' rest ih =>
    have hnext := planStream_ahead (r := r) (f := f i) h s'
    unfold planStreams
    split
    · next p' heq => rw [heq] at hnext; exact ih hnext
    · next p' heq => rw [heq] at hnext; exact hnext.rollback
    · next p' heq => rw [heq] at hnext; exact hnext
    · next p' e heq => rw [heq] at hnext; exact hnext.rollback

/-! ## A failed call -/

/-- The group of the stream has an entry to hand out, and its gate is open. -/
def handsOut (l : Runtime) (c : ReadCall) (s : Bytes) : Bool :=
  match l.offsets.peek l.records c.now s c.group with
  | none => false
  | some st => (orderedGate c l.owners s st).2.any fun cap =>
      !(scanEntries (l.records.entries s) st.delivered cap.1).isEmpty

/-- The call meets a failure before a stream that hands out an entry: a missing group, a failed
load, or a failed scan behind an open gate. -/
def failsFirst (l : Runtime) (c : ReadCall) (f : Nat → StreamFaults) (i : Nat) : List Bytes → Bool
  | [] => false
  | s :: rest =>
    match if (f i).load then none else l.offsets.peek l.records c.now s c.group with
    | none => true
    | some st => match (orderedGate c l.owners s st).2 with
      | none => failsFirst l c f (i + 1) rest
      | some _ => (f i).scan || !handsOut l c s && failsFirst l c f (i + 1) rest

/-- The positions, the count and the dirty flag of a group are the same. -/
def Unchanged (l l' : Runtime) (now : Nat) (s g : Bytes) : Prop :=
  l'.offsets.peek l'.records now s g = l.offsets.peek l.records now s g ∧
    l'.offsets.dirty s g = l.offsets.dirty s g

theorem orderedGate_congr {owners owners' : Owners} (st : GroupState)
    (h : owners s c.group = owners' s c.group) :
    (orderedGate c owners s st).2 = (orderedGate c owners' s st).2 := by
  unfold orderedGate acquire
  rw [h]
  split
  · rfl
  dsimp only
  split
  · rfl
  cases owners' s c.group with
  | none => rfl
  | some o =>
    by_cases hc : o.consumer = c.consumer
    · simp [hc]
    · cases hl : leaseLive o.activeMs c.now c.leaseMs <;> simp [hc, hl]

theorem acquire_other (c : ReadCall) (owners : Owners) (hs : s ≠ s') :
    (acquire owners s c.group c.consumer c.now c.leaseMs).1 s' c.group = owners s' c.group := by
  unfold acquire
  split
  · simp [update₂_apply, hs]
  split
  · simp [update₂_apply, hs]
  split
  · rfl
  · simp [update₂_apply, hs]

theorem acquire_again (c : ReadCall) (owners : Owners) (s s' : Bytes) (st : GroupState) :
    (orderedGate c (acquire owners s c.group c.consumer c.now c.leaseMs).1 s' st).2 =
      (orderedGate c owners s' st).2 := by
  by_cases hs : s = s'
  · subst hs
    unfold orderedGate
    split
    · rfl
    dsimp only
    split
    · rfl
    cases ho : owners s c.group with
    | none => simp [acquire, ho, update₂_apply]
    | some o =>
      by_cases hc : o.consumer = c.consumer
      · simp [acquire, ho, hc, update₂_apply]
      · cases hl : leaseLive o.activeMs c.now c.leaseMs with
        | true => simp [acquire, ho, hc, hl]
        | false => simp [acquire, ho, hc, hl, update₂_apply]
  · exact orderedGate_congr st (acquire_other c owners hs)

theorem orderedGate_owners (c : ReadCall) (owners : Owners) (s : Bytes) (st : GroupState) :
    (orderedGate c owners s st).1 = owners ∨
      (orderedGate c owners s st).1 = (acquire owners s c.group c.consumer c.now c.leaseMs).1 := by
  unfold orderedGate
  split
  · exact .inl rfl
  dsimp only
  split
  · exact .inl rfl
  · right
    generalize acquire owners s c.group c.consumer c.now c.leaseMs = acc
    obtain ⟨owners', access⟩ := acc
    cases access <;> rfl

theorem orderedGate_again (c : ReadCall) (owners : Owners) (s s' : Bytes) (st st' : GroupState) :
    (orderedGate c (orderedGate c owners s st).1 s' st').2 = (orderedGate c owners s' st').2 := by
  rcases orderedGate_owners c owners s st with h | h
  · rw [h]
  · rw [h]
    exact acquire_again c owners s s' st'

/-- A plan in which no stream has handed out anything. -/
structure Quiet (l : Runtime) (c : ReadCall) (p : Plan) : Prop where
  peek : ∀ s, p.offsets.peek l.records c.now s c.group = l.offsets.peek l.records c.now s c.group
  dirty : p.offsets.dirty = l.offsets.dirty
  gate : ∀ s st, (orderedGate c p.owners s st).2 = (orderedGate c l.owners s st).2
  results : p.results = []
  dlqCount : p.dlqCount = 0
  marks : p.marks = []

theorem quiet_plan (l : Runtime) (c : ReadCall) : Quiet l c l.plan :=
  ⟨fun _ => rfl, rfl, fun _ _ => rfl, rfl, rfl, rfl⟩

variable {l : Runtime}

theorem Quiet.of_load (h : Quiet l c p) (s : Bytes) {owners : Owners}
    (howners : ∀ s st, (orderedGate c owners s st).2 = (orderedGate c l.owners s st).2) :
    Quiet l c { p with offsets := (p.offsets.load l.records c.now s c.group).1, owners } where
  peek s' := by
    rw [← h.peek s']
    exact peek_load p.offsets l.records c.now s c.group s' c.group
  dirty := by
    rw [← h.dirty]
    exact dirty_load p.offsets l.records c.now s c.group
  gate := howners
  results := h.results
  dlqCount := h.dlqCount
  marks := h.marks

theorem Quiet.unchanged (h : Quiet l c p) (s : Bytes) : Unchanged l (l.ofPlan p) c.now s c.group :=
  ⟨h.peek s, congrFun (congrFun h.dirty s) c.group⟩

theorem Quiet.rollback (h : Quiet l c p) : Quiet l c (rollbackMarks c.group p) := by
  have hoff : (rollbackMarks c.group p).offsets = p.offsets := by
    rw [rollbackMarks, h.marks]
    rfl
  exact ⟨fun s => by rw [hoff, h.peek], by rw [hoff, h.dirty], h.gate, h.results, h.dlqCount, rfl⟩

/-- What planning a stream does to a plan in which nothing was handed out: it fails and stays
quiet, it goes on quiet, or its group is ahead from now on. -/
inductive QuietStep (l : Runtime) (c : ReadCall) (f : StreamFaults) (s : Bytes) :
    Except (Plan × PlanErr) Plan → Prop where
  | noGroup {p : Plan} (h : Quiet l c p)
      (hnone : (if f.load then none else l.offsets.peek l.records c.now s c.group) = none) :
      QuietStep l c f s (.error (p, .noGroup))
  | closed {p : Plan} {st : GroupState} (h : Quiet l c p) (hload : f.load = false)
      (hst : l.offsets.peek l.records c.now s c.group = some st)
      (hgate : (orderedGate c l.owners s st).2 = none) : QuietStep l c f s (.ok p)
  | scan {p : Plan} {st : GroupState} {cap : Nat × Nat} (h : Quiet l c p) (hload : f.load = false)
      (hst : l.offsets.peek l.records c.now s c.group = some st)
      (hgate : (orderedGate c l.owners s st).2 = some cap) (hscan : f.scan) :
      QuietStep l c f s (.error (p, .scan))
  | empty {p : Plan} {st : GroupState} {cap : Nat × Nat} (h : Quiet l c p) (hload : f.load = false)
      (hst : l.offsets.peek l.records c.now s c.group = some st)
      (hgate : (orderedGate c l.owners s st).2 = some cap) (hscan : f.scan = false)
      (hempty : scanEntries (l.records.entries s) st.delivered cap.1 = []) :
      QuietStep l c f s (.ok p)
  | served {st : GroupState} {cap : Nat × Nat} {out : Except (Plan × PlanErr) Plan}
      (hload : f.load = false) (hst : l.offsets.peek l.records c.now s c.group = some st)
      (hgate : (orderedGate c l.owners s st).2 = some cap) (hscan : f.scan = false)
      (hfound : scanEntries (l.records.entries s) st.delivered cap.1 ≠ [])
      (hahead : Ahead c.group (planOf out) s st.delivered)
      (herr : ∀ p e, out = .error (p, e) → ∃ m, e = .gate m) : QuietStep l c f s out

theorem lt_of_mem_scanEntries {entries : SortedMap EntryId Fields} {after : EntryId} {count : Nat}
    {e : EntryId × Fields} (h : e ∈ scanEntries entries after count) : after < e.1 := by
  have := (mem_filter.mp (mem_of_mem_take h)).2
  simpa using this

theorem serveStream_served (epoch : Nat) (hst : p.offsets.map s c.group = some st)
    (hmarks : p.marks = []) (hne : found ≠ []) (habove : ∀ e ∈ found, st.delivered < e.1) :
    Ahead c.group (planOf (serveStream r c f p s st epoch found)) s st.delivered ∧
      ∀ p' e, serveStream r c f p s st epoch found = .error (p', e) → ∃ m, e = .gate m := by
  have hlast := getLast?_eq_some_getLast hne
  have hlt := habove _ (getLast_mem hne)
  unfold serveStream
  rw [hlast]
  dsimp only [elim_some]
  generalize hoff : p.offsets.advanceDelivered s c.group (found.getLast hne).1 = offsets
  have hmap : offsets.map s c.group = some { st with delivered := (found.getLast hne).1 } := by
    rw [← hoff, advanceDelivered, map_modify, hst, map_some, if_pos hlt]
  split
  · refine ⟨⟨⟨_, hmap, hlt⟩, ?_⟩, fun p' e h => by cases h; exact ⟨_, rfl⟩⟩
    rw [hmarks]
    nofun
  · next gated hgate =>
    obtain ⟨hrises, hmark⟩ := gateDelivery_ok hgate s
    obtain ⟨st', hst', hle⟩ := hrises _ hmap
    refine ⟨⟨⟨st', hst', hlt.trans_le hle⟩, fun m hm => ?_⟩, nofun⟩
    rw [show p.marks ++ [(s, gated.mark)] = [(s, gated.mark)] by rw [hmarks]; rfl] at hm
    obtain ⟨-, heq⟩ := Prod.mk.inj (mem_singleton.mp hm)
    rw [hmark, mark, hmap] at heq
    cases heq
    exact hlt

theorem planStream_quiet (h : Quiet l c p)
    (s : Bytes) : QuietStep l c f s (planStream l.records c f p s) := by
  unfold planStream
  cases hload : f.load with
  | true =>
    exact .noGroup (p := { p with offsets := p.offsets })
      ⟨h.peek, h.dirty, h.gate, h.results, h.dlqCount, h.marks⟩ (by rw [if_pos hload])
  | false =>
    rw [if_neg Bool.false_ne_true]
    have hpeek := load_snd p.offsets l.records c.now s c.group
    rw [h.peek] at hpeek
    have hquiet := h.of_load s h.gate
    have hmap := map_load p.offsets l.records c.now s c.group
    generalize p.offsets.load l.records c.now s c.group = loaded at hpeek hquiet hmap ⊢
    obtain ⟨offsets, found⟩ := loaded
    cases found with
    | none => exact .noGroup hquiet (by rw [hload]; exact hpeek.symm)
    | some st =>
      dsimp only at hpeek hquiet hmap ⊢
      have hgate := h.gate s st
      have hagain := fun s' st' => (orderedGate_again c p.owners s s' st st').trans (h.gate s' st')
      generalize orderedGate c p.owners s st = gate at hgate hagain ⊢
      obtain ⟨owners, cap⟩ := gate
      have hquiet' : Quiet l c { p with offsets, owners } :=
        ⟨hquiet.peek, hquiet.dirty, hagain, hquiet.results, hquiet.dlqCount, hquiet.marks⟩
      cases cap with
      | none => exact .closed hquiet' hload hpeek.symm hgate.symm
      | some cap =>
        obtain ⟨cap, epoch⟩ := cap
        dsimp only
        cases hscan : f.scan with
        | true => exact .scan hquiet' hload hpeek.symm hgate.symm hscan
        | false =>
          cases hfound : scanEntries (l.records.entries s) st.delivered cap with
          | nil => exact .empty hquiet' hload hpeek.symm hgate.symm hscan hfound
          | cons e found =>
            have hserved := serveStream_served (r := l.records) (f := f)
              (p := { p with offsets, owners }) epoch (hmap st rfl) hquiet'.marks
              (cons_ne_nil e found)
              fun e' he' => lt_of_mem_scanEntries (by rw [hfound]; exact he')
            exact .served hload hpeek.symm hgate.symm hscan
              (by rw [hfound]; exact cons_ne_nil _ _) hserved.1 hserved.2

/-- How a plan that starts quiet ends: it fails and is quiet when it fails first, and otherwise it
ends quiet or leaves a group ahead. -/
def Ends (l : Runtime) (c : ReadCall) (fails : Bool) (streams : List Bytes)
    (out : Plan × Option DeliverErr) : Prop :=
  if fails then out.2.isSome ∧ Quiet l c out.1
  else (out.2 = none ∧ Quiet l c out.1) ∨
    ∃ s ∈ streams, ∃ st, l.offsets.peek l.records c.now s c.group = some st ∧
      Ahead c.group out.1 s st.delivered

theorem Ends.cons {fails : Bool} {streams : List Bytes} {out : Plan × Option DeliverErr}
    (h : Ends l c fails streams out) (s : Bytes) : Ends l c fails (s :: streams) out := by
  unfold Ends at h ⊢
  cases fails with
  | true => exact h
  | false =>
    refine h.imp_right ?_
    rintro ⟨s', hs', hst⟩
    exact ⟨s', mem_cons_of_mem _ hs', hst⟩

theorem planStreams_quiet {f : Nat → StreamFaults} {i : Nat} (h : Quiet l c p)
    (streams : List Bytes) :
    Ends l c (failsFirst l c f i streams) streams (planStreams l.records c f i p streams) := by
  induction streams generalizing i p with
  | nil => exact .inl ⟨rfl, h⟩
  | cons s rest ih =>
    have hstep := planStream_quiet (f := f i) h s
    unfold failsFirst planStreams
    generalize planStream l.records c (f i) p s = out at hstep ⊢
    cases hstep with
    | noGroup hq hnone =>
      rw [hnone]
      exact ⟨rfl, hq.rollback⟩
    | closed hq hload hst hgate =>
      simp only [hload, hst, hgate, Bool.false_eq_true, if_false]
      exact (ih hq).cons s
    | scan hq hload hst hgate hscan =>
      simp only [hload, hst, hgate, hscan, Bool.false_eq_true, if_false]
      exact ⟨rfl, hq⟩
    | empty hq hload hst hgate hscan hempty =>
      have hno : handsOut l c s = false := by simp [handsOut, hst, hgate, hempty]
      simp only [hload, hst, hgate, hscan, hno, Bool.false_eq_true, if_false]
      exact (ih hq).cons s
    | served hload hst hgate hscan hfound hahead herr =>
      have hyes : handsOut l c s := by
        simpa [handsOut, hst, hgate] using hfound
      simp only [hload, hst, hgate, hscan, hyes, Bool.false_eq_true, if_false]
      refine .inr ⟨s, mem_cons_self, _, hst, ?_⟩
      cases out with
      | ok p' => exact planStreams_ahead hahead rest
      | error pe =>
        obtain ⟨p', e⟩ := pe
        obtain ⟨m, rfl⟩ := herr p' e rfl
        exact hahead.rollback

theorem not_unchanged_of_ahead (hst : l.offsets.peek l.records c.now s c.group = some st)
    (h : Ahead c.group p s st.delivered) : ¬ Unchanged l (l.ofPlan p) c.now s c.group := by
  rintro ⟨hpeek, -⟩
  obtain ⟨st', hst', hlt⟩ := h.cached
  have hpeek' : (l.ofPlan p).offsets.peek (l.ofPlan p).records c.now s c.group = some st' := by
    show (p.offsets.map s c.group).or _ = _
    rw [hst', some_or]
  rw [hpeek', hst] at hpeek
  cases hpeek
  exact lt_irrefl _ hlt

theorem deliverNew_unchanged_iff (l : Runtime) (c : ReadCall) (f : Faults) (streams : List Bytes)
    (e : DeliverErr) (herr : (deliverNew l c f streams).reply = .error e) :
    (∀ s ∈ streams, Unchanged l (deliverNew l c f streams).runtime c.now s c.group) ↔
      failsFirst l c f.at_ 0 streams := by
  have hplan := planStreams_quiet (f := f.at_) (i := 0) (quiet_plan l c) streams
  unfold deliverNew at herr ⊢
  generalize planStreams l.records c f.at_ 0 l.plan streams = out at hplan herr ⊢
  obtain ⟨p, err⟩ := out
  cases hfirst : failsFirst l c f.at_ 0 streams with rw [hfirst] at hplan
  | true =>
    obtain ⟨herr', hq⟩ := hplan
    cases err with
    | none => cases herr'
    | some e' => exact iff_of_true (fun s _ => hq.unchanged s) rfl
  | false =>
    refine iff_of_false (fun hall => ?_) Bool.false_ne_true
    rcases hplan with ⟨rfl, hq⟩ | ⟨s, hs, st, hst, hahead⟩
    · -- a quiet plan has nothing to commit, so it does not fail
      dsimp only at herr
      rw [hq.results, hq.dlqCount] at herr
      cases herr
    · have hsame := hall s hs
      cases err with
      | some e' => exact not_unchanged_of_ahead hst hahead hsame
      | none =>
        dsimp only at herr hsame
        split at herr
        · cases herr
        next hne =>
        rw [if_neg hne] at hsame
        split at herr
        · next hcommit =>
          rw [if_pos hcommit] at hsame
          exact not_unchanged_of_ahead hst hahead.rollback hsame
        · cases herr

def sampleStream : Bytes := [116, 47, 97]
def sampleMissing : Bytes := [116, 47, 98]

/-- Stream `t/a` holds the given entries; its group `g` stands at the start. -/
def sampleRuntime (ids : List EntryId) : Runtime where
  records := {
    metas := fun s => if s = sampleStream then some ⟨{ lastMs := 1, len := ids.length }, 0⟩ else none
    entries := fun s =>
      if s = sampleStream then .ofList (ids.map fun id => (id, [([102], [118])])) else .empty }
  offsets := { map := fun s g =>
    if s = sampleStream ∧ g = [103] then some ⟨0, minId, minId, 0, false, 0, 0, []⟩ else none }

def sampleCall : ReadCall := { group := [103], consumer := [99], count := 10, now := 5, leaseMs := 100 }

theorem deliverNew_unchanged_empty :
    (deliverNew (sampleRuntime []) sampleCall {} [sampleStream, sampleMissing]).reply =
        .error (.noGroup sampleMissing) ∧
      ∀ s ∈ [sampleStream, sampleMissing], Unchanged (sampleRuntime [])
        (deliverNew (sampleRuntime []) sampleCall {} [sampleStream, sampleMissing]).runtime 5 s [103] := by
  have h : (deliverNew (sampleRuntime []) sampleCall {} [sampleStream, sampleMissing]).reply =
      .error (.noGroup sampleMissing) := by rfl
  exact ⟨h, (deliverNew_unchanged_iff (sampleRuntime []) sampleCall {} _ _ h).mpr (by decide +kernel)⟩

/-- The second stream has no group: the call fails, and the entry of the first is skipped by the
next read. -/
theorem deliverNew_skips_entry :
    ¬ ∀ (l : Runtime) (c : ReadCall) (f : Faults) (streams : List Bytes) (e : DeliverErr),
      (deliverNew l c f streams).reply = .error e →
      ∀ s ∈ streams, Unchanged l (deliverNew l c f streams).runtime c.now s c.group := by
  intro hall
  have h : (deliverNew (sampleRuntime [⟨1, 0⟩]) sampleCall {} [sampleStream, sampleMissing]).reply =
      .error (.noGroup sampleMissing) := by rfl
  have hdelivered : ((deliverNew (sampleRuntime [⟨1, 0⟩]) sampleCall {}
      [sampleStream, sampleMissing]).runtime.offsets.map sampleStream [103]).map (·.delivered) =
      some ⟨1, 0⟩ := by decide +kernel
  have hsame := (hall _ _ _ _ _ h sampleStream mem_cons_self).1
  obtain ⟨st, hst, hd⟩ := map_eq_some_iff.mp hdelivered
  rw [peek, show sampleCall.group = [103] from rfl, hst] at hsame
  cases hsame
  cases hd

end Rdb.Lite
