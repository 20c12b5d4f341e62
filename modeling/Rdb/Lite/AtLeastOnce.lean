import Rdb.Lite.Effects

/-!
# At-least-once delivery

An entry above a group's start is acknowledged, still to be delivered or pending: what
a read passes it writes into the pending rows, and a claim keeps the rows of stored
entries. A position below which nothing is lost is `Safe`, and so is every position
before it; the delivered position is one, and so is the committed position of the
record, from which a restart resumes.

An XACK takes the committed position to the largest id it names that no pending row
precedes, and the delivered one with it. Rows are all it looks at: entries that were
never delivered have none, and an id beyond the tail passes entries not yet written.

`entries_due`: if every XACK names ids up to which the entries are acknowledged or
pending, no entry is lost.
-/

namespace Rdb.Lite.AtLeastOnce

open Lib List SortedMap
open Records (write_ofStream groups_write pend_write)
open Offsets (map_modify load_snd map_load maxOf ackCandidate)

/-- Nothing is lost up to `d`: what is stored above the start is acknowledged, above `d` or
pending. What is appended comes above `d`. -/
structure Safe (start : EntryId) (named : List (Bytes × Bytes × EntryId)) (r : Records)
    (s g : Bytes) (d : EntryId) : Prop where
  tail : ∃ m, r.metas s = some m ∧ d ≤ max m.payload.lastId start
  held : ∀ id ∈ (r.entries s).keys, start < id →
    (s, g, id) ∈ named ∨ d < id ∨ id ∈ (r.pend s g).keys

/-- The positions of every group are safe, those of the records and those in the cache. -/
structure Held (start : Bytes → Bytes → EntryId) (named : List (Bytes × Bytes × EntryId))
    (r : Records) (o : Offsets) : Prop where
  record : ∀ s g p, r.groups s g = some p → Safe (start s g) named r s g p.committed
  cached : ∀ s g st, o.map s g = some st →
    st.committed ≤ st.delivered ∧ Safe (start s g) named r s g st.delivered

variable {first d : EntryId} {s g : Bytes} {now : Nat} {st : GroupState} {o' : Offsets}

section

variable {start : Bytes → Bytes → EntryId} {named named' : List (Bytes × Bytes × EntryId)}
  {r r' : Records} {o : Offsets}

theorem Safe.of_le {d' : EntryId} (h : Safe first named r s g d)
    (hd : d' ≤ d) : Safe first named r s g d' := by
  obtain ⟨m, hm, hle⟩ := h.tail
  exact ⟨⟨m, hm, hd.trans hle⟩, fun id hid hs => (h.held id hid hs).imp_right
    (Or.imp_left hd.trans_lt)⟩

theorem Safe.rows (h : Safe first named r s g d) (hm : r'.metas s = r.metas s)
    (he : r'.entries s = r.entries s) (hp : ∀ id ∈ (r.entries s).keys, id ∈ (r.pend s g).keys →
      (s, g, id) ∈ named' ∨ id ∈ (r'.pend s g).keys)
    (hn : named ⊆ named') : Safe first named' r' s g d := by
  refine ⟨hm ▸ h.tail, fun id hid hs => ?_⟩
  rw [he] at hid
  rcases h.held id hid hs with h | h | h
  · exact .inl (hn h)
  · exact .inr (.inl h)
  · exact (hp id hid h).imp_right .inr

theorem Held.rows (h : Held start named r o) (hm : ∀ s, r'.metas s = r.metas s)
    (he : ∀ s, r'.entries s = r.entries s) (hg : ∀ s g, r'.groups s g = r.groups s g)
    (hp : ∀ s g, ∀ id ∈ (r.entries s).keys, id ∈ (r.pend s g).keys →
      (s, g, id) ∈ named' ∨ id ∈ (r'.pend s g).keys)
    (hn : named ⊆ named') : Held start named' r' o :=
  ⟨fun s g p hgp => (h.record s g p (hg s g ▸ hgp)).rows (hm s) (he s) (hp s g) hn,
    fun s g st hst => (h.cached s g st hst).imp_right fun hs =>
      hs.rows (hm s) (he s) (hp s g) hn⟩

theorem Held.peek (h : Held start named r o) (hg : ∀ s g, r.groups s g = r'.groups s g)
    (hp : o.peek r' now s g = some st) :
    st.committed ≤ st.delivered ∧ Safe (start s g) named r s g st.delivered := by
  unfold Offsets.peek at hp
  cases ho : o.map s g with
  | some st' =>
    rw [ho] at hp
    cases hp
    exact h.cached s g _ ho
  | none =>
    rw [ho] at hp
    obtain ⟨p, hgp, rfl⟩ := Option.map_eq_some_iff.mp hp
    unfold readGroup at hgp
    split at hgp
    · cases hgp
    · exact ⟨le_rfl, h.record s g p (hg s g ▸ hgp)⟩

theorem Held.set (h : Held start named r o) (s g : Bytes)
    (hother : ∀ s' g', ¬ (s = s' ∧ g = g') → o'.map s' g' = o.map s' g')
    (hset : ∀ st, o'.map s g = some st →
      st.committed ≤ st.delivered ∧ Safe (start s g) named r s g st.delivered) :
    Held start named r o' := by
  refine ⟨h.record, fun s' g' st hst => ?_⟩
  by_cases hs : s = s' ∧ g = g'
  · obtain ⟨rfl, rfl⟩ := hs
    exact hset st hst
  · exact h.cached s' g' st (hother s' g' hs ▸ hst)

theorem Held.load (h : Held start named r o) (hg : ∀ s g, r.groups s g = r'.groups s g) (now : Nat)
    (s g : Bytes) : Held start named r (o.load r' now s g).1 := by
  refine h.set s g (fun s' g' hs => Offsets.map_load_ne o r' now s g s' g' hs) fun st hst => ?_
  cases hp : o.peek r' now s g with
  | none =>
    rw [Offsets.load, hp] at hst
    exact h.cached s g st hst
  | some st' =>
    rw [Offsets.load, hp, Offsets.map_set] at hst
    cases hst
    exact h.peek hg hp

theorem Held.bumpPending (h : Held start named r o) (s g : Bytes) (delta : Int) :
    Held start named r (o.bumpPending s g delta) := by
  refine h.set s g (fun s' g' hs => Offsets.map_modify_ne o s g s' g' _ hs) fun st hst => ?_
  rw [Offsets.bumpPending, map_modify] at hst
  obtain ⟨st', hst', rfl⟩ := Option.map_eq_some_iff.mp hst
  exact h.cached s g st' hst'

end

/-! ## Appends -/

variable {start : Bytes → Bytes → EntryId} {named : List (Bytes × Bytes × EntryId)} {r : Records}
  {o : Offsets} {t : Bytes} {ws : List Write} {next : MetaPayload} {new : List (EntryId × Fields)}

theorem accounts_held (h : Held start named r o) (hacc : Accounts r t ws next new [])
    (hws : ∀ w ∈ ws, w.OfStream) :
    Held start named (r.write ws) o := by
  have hsafe : ∀ {s g d}, Safe (start s g) named r s g d →
      Safe (start s g) named (r.write ws) s g d := by
    intro s g d hs
    obtain ⟨m, hm, hd⟩ := hs.tail
    obtain ⟨hpend, -⟩ := write_ofStream r ws s g hws
    by_cases hst : s = t
    · subst hst
      refine ⟨⟨_, hacc.metas_eq, hd.trans (max_le_max_right _ (hacc.grows m hm))⟩,
        fun id hid hstart => ?_⟩
      rw [hacc.keys_eq, toFinset_nil, Finset.sdiff_empty, Finset.mem_union] at hid
      rw [hpend]
      rcases hid with hid | hid
      · exact hs.held id hid hstart
      · obtain ⟨e, he, rfl⟩ := mem_map.mp (mem_toFinset.mp hid)
        exact .inr (.inl (hd.trans_lt (max_lt (hacc.above e he m hm) hstart)))
    · obtain ⟨hmeta, hentry⟩ := r.write_untouched (hacc.only s hst)
      exact hs.rows hmeta hentry (fun id _ hid => .inr (hpend ▸ hid)) fun _ => id
  refine ⟨fun s g p hp => hsafe (h.record s g p ?_), fun s g st hst =>
    (h.cached s g st hst).imp_right hsafe⟩
  rw [← (write_ofStream r ws s g hws).2]
  exact hp

/-! ## Reads -/

variable {after : EntryId} {count : Nat} {e : EntryId × Fields}

theorem mem_scanEntries {entries : SortedMap EntryId Fields} {x : EntryId × Fields}
    (hlast : (scanEntries entries after count).getLast? = some e) (hx : x ∈ entries.entries)
    (hafter : after < x.1) (hle : x.1 ≤ e.1) :
    x ∈ scanEntries entries after count := by
  unfold scanEntries upTo at hlast ⊢
  have hsorted := entries.sorted.filter fun e => decide (after < e.1)
  have hmem : x ∈ entries.entries.filter fun e => decide (after < e.1) :=
    mem_filter.mpr ⟨hx, decide_eq_true hafter⟩
  generalize entries.entries.filter _ = l at hlast hsorted hmem ⊢
  rw [← take_append_drop (max count 1) l] at hsorted hmem
  refine (mem_append.mp hmem).resolve_right fun hdrop => ?_
  exact absurd ((pairwise_append.mp hsorted).2.2 e (mem_of_getLast? hlast) x hdrop)
    (not_lt.mpr hle)

theorem get_of_moves_nil {x : Transfer} (h : x.moves r = []) {row : DeadRow}
    (hrow : row ∈ x.rows) : (r.entries x.source).get row.id = none := by
  unfold Transfer.moves storedRows at h
  rw [filterMap_filter, filterMap_eq_nil_iff] at h
  have := h row hrow
  cases hget : (r.entries x.source).get row.id with
  | none => rfl
  | some fields => simp [hget] at this

theorem batch_idle {ts : List Transfer} (h : Batch r now ws ts)
    (hmoves : ts.flatMap (Transfer.moves r) = []) (t : Bytes) :
    (r.write ws).metas t = r.metas t ∧ (r.write ws).entries t = r.entries t := by
  have hrows : ∀ x ∈ ts, ∀ row ∈ x.rows, (r.entries x.source).get row.id = none := fun x hx _ =>
    get_of_moves_nil (flatMap_eq_nil_iff.mp hmoves x hx)
  have hputs : ∀ x ∈ ts, x.puts r = [] := fun x hx =>
    filterMap_eq_nil_iff.mpr fun row hrow => by rw [hrows x hx row hrow]; rfl
  have hheads : ∀ x ∈ ts, x.head r now = none := fun x hx => by
    have hnil : storedRows r x.source x.rows = [] := filter_eq_nil_iff.mpr fun row hrow => by
      rw [hrows x hx row hrow]
      exact Bool.false_ne_true
    rw [Transfer.head, hnil]
    rfl
  constructor
  · rw [Records.metas_write, h.metas, filterMap_eq_nil_iff.mpr fun x hx => by
      rw [hheads x hx, ite_self]]
    rfl
  · rw [Records.entries_write, h.entries, flatMap_eq_nil_iff.mpr fun x hx => by
      rw [hputs x hx, map_nil, ite_self]]
    rfl

def OfRows : Write → Prop
  | .pend .. | .consumer .. => True
  | .head .. | .entry .. | .delay _ | .group .. => False

theorem write_ofRows (h : ∀ w ∈ ws, OfRows w) :
    (∀ s, (r.write ws).metas s = r.metas s) ∧ (∀ s, (r.write ws).entries s = r.entries s) ∧
      ∀ s g, (r.write ws).groups s g = r.groups s g := by
  have hbatch : Batch r 0 ws [] := .of_aside fun w hw => by
    have := h w hw
    cases w <;> trivial
  have hsame := batch_idle hbatch rfl
  refine ⟨fun s => (hsame s).1, fun s => (hsame s).2, fun s g => ?_⟩
  rw [groups_write, filterMap_eq_nil_iff.mpr fun w hw => by
    have := h w hw
    cases w <;> first | rfl | exact this.elim]
  rfl

/-- A plan that has handed out what it passed. -/
structure PlanHeld (start : Bytes → Bytes → EntryId) (named : List (Bytes × Bytes × EntryId))
    (r : Records) (p : Plan) : Prop where
  held : Held start named (r.write p.writes) p.offsets
  rows : ∀ w ∈ p.writes, OfRows w
  quiet : p.results = [] → p.writes = []

section Served

variable {r : Records} {c : ReadCall} {s : Bytes} {st : GroupState} {epoch : Nat}
  {found : List (EntryId × Fields)} {rows : List (EntryId × PendState)} {dead : List DeadRow}
  {kept : List (EntryId × Fields)} {advanced o : Offsets} {tw : List Write} {tally : TransferTally}
  {p p' : Plan} {cap : Nat}

theorem dead_eq_nil (h : Served r c s st epoch found rows dead kept advanced o tw tally p p')
    (hfound : found = scanEntries (r.entries s) after cap)
    (hmoved : tally.moved = []) : dead = [] := by
  rw [(transferEntries_ok h.transfer).2.2.1] at hmoved
  refine eq_nil_iff_forall_not_mem.mpr fun row hrow => ?_
  have hnone := get_of_moves_nil hmoved hrow
  rw [h.dead_eq] at hrow
  obtain ⟨e, he, hid⟩ := mem_map.mp (of_mem_deadOf hrow).1
  rw [hfound] at he
  rw [← hid, mem_entries.mp ((scanEntries_sublist _ _ _).subset he)] at hnone
  cases hnone

variable (h : Served r c s st epoch found rows [] kept advanced o tw tally p p')
include h

theorem served_map (hlast : found.getLast? = some e) (hst : p.offsets.map s c.group = some st) :
    o.map s c.group = some (if st.delivered < e.1 then { st with delivered := e.1 } else st) := by
  have htransfer := h.transfer
  cases htransfer
  rw [h.advanced_eq, hlast]
  show (p.offsets.modify s c.group _).map s c.group = _
  rw [map_modify, hst]
  rfl

theorem served_keys (s' g' : Bytes) : ((r.write p'.writes).pend s' g').keys =
      if s = s' ∧ c.group = g' then ((r.write p.writes).pend s' g').keys ∪
        (found.map (·.1)).toFinset else ((r.write p.writes).pend s' g').keys := by
  have hkept : kept = found := by
    rw [h.kept_eq]
    exact filter_eq_self.mpr fun _ _ => rfl
  rw [h.writes_eq, Records.write_append, pend_write, h.toPend]
  split
  · have := ((r.write p.writes).pend s' g').keys_write_put (kept.map fun e => (e.1, {
      consumer := c.consumer
      deliveredMs := c.now
      timesDelivered := (timesOf rows e.1).elim 1 fun old => saturatingAdd old 1
      epoch }))
    rw [map_map, map_map] at this
    rw [← hkept]
    exact this
  · rfl

theorem served_rows (hp : ∀ w ∈ p.writes, OfRows w) : ∀ w ∈ p'.writes, OfRows w := by
  have htransfer := h.transfer
  cases htransfer
  rw [h.writes_eq]
  intro w hw
  rcases mem_append.mp hw with hw | hw
  · exact hp w hw
  rcases mem_append.mp hw with hw | hw
  · obtain ⟨e, -, rfl⟩ := mem_map.mp hw
    trivial
  · cases mem_singleton.mp hw
    trivial

theorem served_held (hbound : Bounded r s)
    (hfound : found = scanEntries (r.entries s) st.delivered cap) (hne : found ≠ [])
    (hst : p.offsets.map s c.group = some st) (hp : PlanHeld start named r p) :
    PlanHeld start named r p' := by
  have hrows := served_rows h hp.rows
  obtain ⟨hm, he, hg⟩ := write_ofRows (r := r) hp.rows
  obtain ⟨hm', he', hg'⟩ := write_ofRows (r := r) hrows
  have hkeys := served_keys h
  obtain ⟨e, hlast⟩ := Option.isSome_iff_exists.mp (getLast?_isSome.mpr hne)
  have hmap := served_map h hlast hst
  have hheld := hp.held.rows (fun s => (hm' s).trans (hm s).symm) (fun s => (he' s).trans (he s).symm)
      (fun s g => (hg' s g).trans (hg s g).symm) (fun s' g' id _ hid => .inr (by
        rw [hkeys]
        split
        · exact Finset.mem_union_left _ hid
        · exact hid)) fun _ => id
  refine ⟨?_, hrows, fun hnil => ?_⟩
  · rw [h.offsets]
    refine Held.bumpPending (hheld.set s c.group (fun s' g' hs => ?_) fun st' hst' => ?_) _ _ _
    · have := h.moved.map_ne hs
      rwa [h.offsets, Offsets.bumpPending, Offsets.map_modify_ne _ _ _ _ _ _ hs] at this
    · obtain ⟨hcd, hsafe⟩ := hheld.cached s c.group st hst
      rw [hmap] at hst'
      cases hst'
      split
      · next hlt =>
        refine ⟨hcd.trans hlt.le, ⟨?_, fun id hid hstart => ?_⟩⟩
        · have hmem : e ∈ (r.entries s).entries := (scanEntries_sublist _ _ _).subset
            (hfound ▸ mem_of_getLast? hlast)
          obtain ⟨m, hmeta, hle⟩ := hbound e.1 (mem_toFinset.mpr (mem_map_of_mem hmem))
          exact ⟨m, (hm' s).trans hmeta, hle.trans (le_max_left _ _)⟩
        · rcases hsafe.held id hid hstart with hn | habove | hpend
          · exact .inl hn
          · refine .inr ((lt_or_ge e.1 id).imp_right fun hle => ?_)
            -- passed by the position, so found by the scan
            rw [he'] at hid
            obtain ⟨x, hx, rfl⟩ := mem_map.mp (mem_toFinset.mp hid)
            rw [hkeys, if_pos ⟨rfl, rfl⟩, Finset.mem_union, mem_toFinset]
            subst hfound
            exact .inr (mem_map_of_mem (mem_scanEntries hlast hx habove hle))
          · exact .inr (.inr hpend)
      · exact ⟨hcd, hsafe⟩
  · rw [h.results] at hnil
    split at hnil
    · next hk =>
      rcases h.busy hne with hk' | hd
      · exact absurd (List.isEmpty_iff.mp hk) hk'
      · exact absurd rfl hd
    · exact absurd hnil (by simp)

end Served

/-- The group of a stream is there, and a transfer out of it has a place to go. -/
def Ready (r : Records) (c : ReadCall) (o : Offsets) (s : Bytes) : Prop :=
  ∃ st, o.peek r c.now s c.group = some st ∧
    (st.maxdelivery = 0 ∨ (streamPrefix st.dlq).isSome)

variable {dead : List DeadRow}

theorem transferEntries_isOk (r : Records) (o : Offsets) (now : Nat) (s g : Bytes)
    (h : dead = [] ∨ (streamPrefix st.dlq).isSome) :
    ∃ out, transferEntries r o now s g st dead false = .ok out := by
  unfold transferEntries
  split
  · exact ⟨_, rfl⟩
  · next hne =>
    have hslot := h.resolve_left fun hnil => hne (by rw [hnil]; rfl)
    rw [if_neg (by rw [Option.isNone_iff_eq_none, ← Option.not_isSome_iff_eq_none, hslot]; decide)]
    exact ⟨_, rfl⟩

variable {c : ReadCall} {p : Plan} {epoch : Nat} {found : List (EntryId × Fields)}

theorem serveStream_isOk (h : st.maxdelivery = 0 ∨ (streamPrefix st.dlq).isSome) :
    ∃ p', serveStream r c {} p s st epoch found = .ok p' := by
  have hdead : ∀ rows, deadOf st rows c.consumer found = [] ∨ (streamPrefix st.dlq).isSome :=
    fun rows => h.imp_left fun hcap => by rw [deadOf, hcap]; rfl
  unfold serveStream gateDelivery
  dsimp only
  rw [if_neg Bool.false_ne_true]
  generalize found.getLast?.elim p.offsets _ = offsets
  obtain ⟨out, hout⟩ := transferEntries_isOk r offsets c.now s c.group
    (hdead (scanPend (r.pend s c.group) st.delivered (some found.length)))
  unfold deadOf at hout
  rw [hout]
  exact ⟨_, rfl⟩

theorem planStream_isOk (h : Ready r c p.offsets s) : ∃ p', planStream r c {} p s = .ok p' := by
  obtain ⟨st, hpeek, hcap⟩ := h
  unfold planStream
  rw [if_neg Bool.false_ne_true]
  have hload := load_snd p.offsets r c.now s c.group
  rw [hpeek] at hload
  generalize p.offsets.load r c.now s c.group = loaded at hload ⊢
  obtain ⟨offsets, found⟩ := loaded
  cases hload
  dsimp only
  split
  · exact ⟨_, rfl⟩
  · rw [if_neg Bool.false_ne_true]
    split
    · exact ⟨_, rfl⟩
    · exact serveStream_isOk hcap

variable {p' : Plan}

theorem Ready.follows (h : Ready r c o t) (hf : Offsets.Follows r c.now o o') : Ready r c o' t := by
  obtain ⟨st, hpeek, hcap⟩ := h
  obtain ⟨f, hlater, hpeek'⟩ := hf t c.group
  refine ⟨f st, by rw [hpeek', hpeek]; rfl, ?_⟩
  rw [← (hlater st).maxdelivery, ← (hlater st).dlq]
  exact hcap

theorem planStream_held (start : Bytes → Bytes → EntryId) (named : List (Bytes × Bytes × EntryId))
    (hbound : Bounded r s) (hplan : planStream r c {} p s = .ok p') :
    (∃ ms n, p'.moves = p.moves ++ ms ∧ p'.dlqCount = p.dlqCount + n ∧ ms.length ≤ n) ∧
    (∀ t, Ready r c p.offsets t → Ready r c p'.offsets t) ∧
    (p'.moves = p.moves → PlanHeld start named r p → PlanHeld start named r p') := by
  obtain ⟨st, p₁, hld, hcase⟩ := planStream_ok hplan
  have hready : ∀ t, Ready r c p.offsets t → Ready r c p₁.offsets t := by
    intro t h
    rw [hld.offsets]
    exact h.follows (Offsets.follows_of_eq (Offsets.peek_load _ _ _ _ _))
  have hheld : PlanHeld start named r p → PlanHeld start named r p₁ := by
    intro hp
    obtain ⟨-, -, hg⟩ := write_ofRows (r := r) hp.rows
    refine ⟨?_, hld.writes ▸ hp.rows, hld.writes ▸ hld.results ▸ hp.quiet⟩
    rw [hld.writes, hld.offsets]
    exact hp.held.load hg c.now s c.group
  rcases hcase with rfl | ⟨cap, epoch, found, hfound, hne, hserve⟩
  · refine ⟨⟨[], 0, by rw [hld.moves, append_nil], hld.dlqCount, le_rfl⟩, hready, fun _ => hheld⟩
  · obtain ⟨rows, dead, kept, advanced, o, tw, tally, hs⟩ := serveStream_ok hserve
    refine ⟨⟨tally.moved, tally.resolved, ?_, ?_, ?_⟩, fun t h => (hready t h).follows hs.moved.follows,
      fun hmoves hp => ?_⟩
    · rw [hs.moves, hld.moves]
    · rw [hs.dlqCount, hld.dlqCount]
    · obtain ⟨-, hres, hmoved, -⟩ := transferEntries_ok hs.transfer
      rw [hres, hmoved]
      exact (length_filterMap_le _ _).trans (length_filter_le _ _)
    · rw [hs.moves, hld.moves, append_right_eq_self] at hmoves
      cases dead_eq_nil hs hfound hmoves
      refine served_held hs hbound hfound hne ?_ (hheld hp)
      rw [hld.offsets]
      exact map_load _ _ _ _ _ _ (by rw [load_snd, hld.found])

variable {streams : List Bytes}

theorem planStreams_held (start : Bytes → Bytes → EntryId) (named : List (Bytes × Bytes × EntryId))
    (i : Nat) (hbound : ∀ s, Bounded r s) (hready : ∀ s ∈ streams, Ready r c p.offsets s) :
    ∃ p', planStreams r c (fun _ => {}) i p streams = (p', none) ∧
      (∃ ms n, p'.moves = p.moves ++ ms ∧ p'.dlqCount = p.dlqCount + n ∧ ms.length ≤ n) ∧
      (p'.moves = p.moves → PlanHeld start named r p → PlanHeld start named r p') := by
  induction streams generalizing i p with
  | nil => exact ⟨p, rfl, ⟨[], 0, by simp, rfl, le_rfl⟩, fun _ h => h⟩
  | cons s streams ih =>
    obtain ⟨p₁, hplan⟩ := planStream_isOk (hready s mem_cons_self)
    obtain ⟨⟨ms₁, n₁, hm₁, hn₁, hle₁⟩, hready₁, hheld₁⟩ :=
      planStream_held start named (hbound s) hplan
    obtain ⟨p', heq, ⟨ms₂, n₂, hm₂, hn₂, hle₂⟩, hheld₂⟩ := ih (i + 1)
      fun t ht => hready₁ t (hready t (mem_cons_of_mem _ ht))
    refine ⟨p', ?_, ⟨ms₁ ++ ms₂, n₁ + n₂, ?_, ?_, ?_⟩, fun hmoves hp => ?_⟩
    · rw [planStreams, hplan]
      exact heq
    · rw [hm₂, hm₁, append_assoc]
    · rw [hn₂, hn₁, Nat.add_assoc]
    · rw [length_append]
      exact Nat.add_le_add hle₁ hle₂
    · rw [hm₂, hm₁, append_assoc, append_right_eq_self, append_eq_nil_iff] at hmoves
      obtain ⟨rfl, rfl⟩ := hmoves
      exact hheld₂ (by rw [hm₂, append_nil]) (hheld₁ (by rw [hm₁, append_nil]) hp)

variable {l : Runtime}

/-- The groups of a read have no cap, or a dead-letter stream that has a slot. -/
def ReadClean (l : Runtime) (c : ReadCall) (streams : List Bytes) : Prop :=
  ∀ s ∈ streams, ∀ st ∈ l.offsets.peek l.records c.now s c.group,
    st.maxdelivery = 0 ∨ (streamPrefix st.dlq).isSome
  deriving Decidable

theorem xreadgroup_held (hbound : ∀ s, Bounded l.records s) (hc : ReadClean l c streams)
    (hmoves : (xreadgroup l c {} streams).moves = []) (h : Held start named l.records l.offsets) :
    Held start named (xreadgroup l c {} streams).runtime.records
      (xreadgroup l c {} streams).runtime.offsets := by
  unfold xreadgroup at hmoves ⊢
  obtain ⟨hr, hval, hpeek, hall⟩ := validateGroups_spec (P := Held start named l.records) l c streams
    (fun _ s h => Held.load h (fun _ _ => rfl) c.now s c.group) h
  generalize validateGroups l c streams = valid at hr hpeek hval hall hmoves ⊢
  obtain ⟨l₁, missing⟩ := valid
  cases missing with
  | some s =>
    rw [hr]
    exact hval
  | none =>
    dsimp only at hr hpeek hval hall hmoves ⊢
    have hready : ∀ s ∈ streams, Ready l₁.records c l₁.plan.offsets s := by
      intro s hs
      obtain ⟨st, hst⟩ := Option.isSome_iff_exists.mp (hall rfl s hs)
      refine ⟨st, ?_, hc s hs st hst⟩
      rw [hr]
      exact (hpeek s c.group).trans hst
    obtain ⟨p, hplan, ⟨ms, n, hms, hn, hle⟩, hheld⟩ :=
      planStreams_held start named 0 (fun s => hr ▸ hbound s) hready
    unfold deliverNew at hmoves ⊢
    rw [show planStreams l₁.records c ({} : Faults).at_ 0 l₁.plan streams = (p, none) from hplan]
      at hmoves ⊢
    dsimp only at hmoves ⊢
    have hfirst : PlanHeld start named l₁.records l₁.plan :=
      ⟨by rw [hr]; exact hval, nofun, fun _ => rfl⟩
    split at hmoves
    · next hquiet =>
      obtain ⟨hres, hdlq⟩ := Bool.and_eq_true_iff.mp hquiet
      rw [of_decide_eq_true hdlq] at hn
      have hzero : n = 0 := (Nat.add_eq_zero_iff.mp hn.symm).2
      rw [hzero] at hle
      have hp := hheld (by rw [hms, length_eq_zero_iff.mp (Nat.le_zero.mp hle), append_nil]) hfirst
      have := hp.held
      rw [hp.quiet (List.isEmpty_iff.mp hres)] at this
      rw [if_pos hquiet]
      exact this
    · next hbusy =>
      rw [if_neg hbusy]
      exact (hheld hmoves hfirst).held

/-! ## Claims -/

/-- The row is dropped only if the entry is gone, and a dead row has its entry. -/
def Careful (r : Records) (s : Bytes) (v : EntryId × Verdict) : Prop :=
  (v.2 = .orphan → (r.entries s).get v.1 = none) ∧
    ∀ d, v.2.deadRow = some d → ((r.entries s).get d.id).isSome

theorem claimVerdict_careful (r : Records) (c : ClaimCall) (s : Bytes) (st : GroupState)
    (epoch : Nat) (id : EntryId) : Careful r s (id, claimVerdict r c s st epoch id) := by
  refine ⟨fun h => ?_, fun d hd => ?_⟩
  · have hspec := claimVerdict_spec r c s st epoch id
    rw [show claimVerdict r c s st epoch id = .orphan from h] at hspec
    exact hspec
  · obtain ⟨hid, -, hmem⟩ := deadRow_claimVerdict hd
    obtain ⟨-, -, -, -, hstored⟩ := mem_doomed.mp hmem
    rw [hid]
    exact hstored

theorem autoclaimVerdict_careful (r : Records) (c : ClaimCall) (s : Bytes) (st : GroupState)
    (epoch : Nat) (row : EntryId × PendState) :
    Careful r s (row.1, autoclaimVerdict r c s st epoch row) := by
  refine ⟨fun h => ?_, fun d hd => ?_⟩
  · unfold autoclaimVerdict at h
    split at h
    · cases h
    split at h
    · next hgone => exact hgone
    · split at h <;> cases h
  · obtain ⟨hid, -, -, -, hstored⟩ := deadRow_autoclaimVerdict hd
    rw [hid]
    exact hstored

variable {c : ClaimCall}

theorem claims_held {α : Type} {out : ClaimOut α} {P : GroupState → List (EntryId × Verdict) → Prop}
    (h : Held start named l.records l.offsets) (hc : Claims l c s P out)
    (hP : ∀ st visited, P st visited → ∀ v ∈ visited, Careful l.records s v)
    (hmoves : out.moves = []) : Held start named out.runtime.records out.runtime.offsets := by
  have hload := h.load (fun _ _ => rfl) c.now s c.group
  cases hc with
  | idle hr ho _ =>
    rw [hr, ho]
    exact hload
  | @done st visited a op _ hv ha hr ho hm =>
    have hcare := hP _ _ hv
    have happ := applied_of_foldlM ha
    have hdead : ∀ v ∈ visited, v.2.deadRow = none := by
      intro v hv
      cases hd : v.2.deadRow with
      | none => rfl
      | some d =>
        rw [hm, happ.moves, nil_append, flatMap_eq_nil_iff] at hmoves
        have hmem : (⟨s, c.group, st.dlq, [d]⟩ : Transfer) ∈
            claimTransfers s c.group st.dlq visited :=
          mem_filterMap.mpr ⟨v, hv, by rw [hd]; rfl⟩
        have hnone := get_of_moves_nil (hmoves _ hmem) (mem_singleton.mpr rfl)
        have hsome := (hcare v hv).2 d hd
        rw [hnone] at hsome
        cases hsome
    have hnone : claimTransfers s c.group st.dlq visited = [] :=
      filterMap_eq_nil_iff.mpr fun v hv => by rw [hdead v hv]; rfl
    obtain ⟨ws, hws, hbatch, hops, hquiet⟩ := happ.writes
    obtain ⟨hoff, hgroups⟩ := hquiet hnone
    rw [nil_append] at hws
    rw [hnone] at hbatch
    have hone : Batch l.records c.now [.consumer s c.group op] [] := .of_aside fun w hw => by
      cases mem_singleton.mp hw
      trivial
    have hsame := batch_idle (hone.append (hws ▸ hbatch)) rfl
    rw [hr, ho, hoff]
    refine Held.bumpPending (Held.bumpPending ?_ _ _ _) _ _ _
    refine hload.rows (fun t => (hsame t).1) (fun t => (hsame t).2) (fun s' g' => ?_)
      (fun s' g' id hid hp => .inr ?_) fun _ => id
    · rw [groups_write, filterMap_cons_none rfl, hws, hgroups]
      rfl
    rw [SortedMap.mem_keys] at hp ⊢
    rw [pend_write, filterMap_cons_none rfl, hws, hops]
    split
    · next hs =>
      obtain ⟨rfl, rfl⟩ := hs
      rw [get_write]
      cases hlast : lastWrite id (visited.filterMap fun v => v.2.pendOp v.1) with
      | none => exact hp
      | some val =>
        obtain ⟨op, hop, hkey, hval⟩ := exists_of_lastWrite hlast
        obtain ⟨⟨id', verdict⟩, hv, hop⟩ := mem_filterMap.mp hop
        rw [← hval]
        cases verdict with
        | skip => cases hop
        | hand row fresh fields =>
          cases hop
          rfl
        | dead row => cases hdead _ hv
        | orphan =>
          cases hop
          have hgone := (hcare _ hv).1 rfl
          rw [show id' = id from hkey] at hgone
          rw [SortedMap.mem_keys, hgone] at hid
          cases hid
    · exact hp

variable {ids : List EntryId}

theorem xclaim_held (h : Held start named l.records l.offsets) :
    (xclaim l c s ids).moves = [] →
    Held start named (xclaim l c s ids).runtime.records (xclaim l c s ids).runtime.offsets := by
  refine claims_held h (xclaim_claims l c s ids) ?_
  rintro st _ ⟨ids', epoch, -, rfl⟩ v hv
  obtain ⟨id, -, rfl⟩ := mem_map.mp hv
  exact claimVerdict_careful _ _ _ _ _ _

theorem xautoclaim_held
    (h : Held start named l.records l.offsets) : (xautoclaim l c s first count).moves = [] →
    Held start named (xautoclaim l c s first count).runtime.records
      (xautoclaim l c s first count).runtime.offsets := by
  refine claims_held h (xautoclaim_claims l c s first count) ?_
  rintro st visited ⟨rows, epoch, -, hall⟩ v hv
  obtain ⟨row, -, hid, hv'⟩ := exists_of_forall₂_right hall hv
  obtain ⟨id, v⟩ := v
  cases hid
  rcases hv' with hskip | hv'
  · cases hskip
    exact ⟨nofun, nofun⟩
  · cases hv'
    exact autoclaimVerdict_careful _ _ _ _ _ _

/-! ## Acknowledgements -/

theorem maxOf_eq_or_mem (old : EntryId) (ids : List EntryId) :
    maxOf old ids = old ∨ maxOf old ids ∈ ids := by
  induction ids generalizing old with
  | nil => exact .inl rfl
  | cons id ids ih =>
    rcases ih (max old id) with h | h
    · rcases max_choice old id with hmax | hmax
      · exact .inl (h.trans hmax)
      · right
        rw [show maxOf old (id :: ids) = maxOf (max old id) ids from rfl, h, hmax]
        exact mem_cons_self
    · exact .inr (mem_cons_of_mem _ h)

theorem suffix_succId_le {c id : EntryId} (h : c < id) (hms : id.ms < 256 ^ 8)
    (hseq : id.seq < 256 ^ 8) : (succId c).elim [] EntryId.suffix ≤ id.suffix := by
  have hle : ∀ c : EntryId, ¬ id < c → c.suffix ≤ id.suffix := by
    intro c hc
    rcases (not_lt.mp hc).eq_or_lt with rfl | hlt
    · exact le_rfl
    · exact (EntryId.suffix_lt hms hseq hlt).le
  have hmax : u64Max + 1 = 256 ^ 8 := by decide
  rw [EntryId.lt_iff] at h
  simp only [EntryId.lt_iff] at hle
  unfold succId
  split
  · exact hle _ (by dsimp only; omega)
  · split
    · exact hle _ (by dsimp only; omega)
    · exact le_of_isPrefix nil_prefix

/-- Over a window with the group's rows alone, the walk is over ids that are pending, and over all
of them above the committed position. -/
theorem headAfterAck_eq (h : Own r s g) (committed maxAcked : EntryId) (acked : List EntryId) :
    ∃ l : List EntryId, l.Sublist ((r.pend s g).entries.map (·.1)) ∧
      (∀ id ∈ (r.pend s g).keys, committed < id → id ∈ l) ∧
      headAfterAck (r.window s) g committed acked maxAcked =
        (l.takeWhile (· ≤ maxAcked)).find? (· ∉ acked) := by
  generalize hstart : g ++ [pendTag] ++ (succId committed).elim [] EntryId.suffix = start
  generalize hids : ((r.window s).entries.filter fun e => g ++ [pendTag] <+: e.1 ∧ start ≤ e.1).map
    (fun e => EntryId.ofSuffix (e.1.drop (g ++ [pendTag]).length)) = ids
  have hown : ((r.window s).entries.filter fun e => g ++ [pendTag] <+: e.1).map
      (fun e => EntryId.ofSuffix (e.1.drop (g ++ [pendTag]).length)) =
      ((r.pend s g).entries.map (·.1)).map some := by
    simpa [Function.comp_def] using congrArg (map Prod.fst) h
  have hsub : ids.Sublist (((r.pend s g).entries.map (·.1)).map some) := by
    rw [← hids, ← hown]
    exact (monotone_filter_right _ fun e he => by simp_all).map _
  obtain ⟨l, hl, rfl⟩ := sublist_map_iff.mp hsub
  refine ⟨l, hl, fun id hid hlow => ?_, ?_⟩
  · obtain ⟨row, hrow⟩ := Option.isSome_iff_exists.mp (SortedMap.mem_keys.mp hid)
    obtain ⟨hget, hdec⟩ := h.get_window hrow
    obtain ⟨-, hms, hseq⟩ := EntryId.of_ofSuffix hdec
    refine mem_map_of_injective (Option.some_injective _) |>.mp (hids ▸ mem_map.mpr
      ⟨(g ++ pendTag :: id.suffix, .inl row), mem_filter.mpr ⟨get_eq_some.mp hget, ?_⟩, ?_⟩)
    · have := (append_le_append_iff (g ++ [pendTag])).mpr (suffix_succId_le hlow hms hseq)
      rw [hstart] at this
      simpa using this
    · simpa using hdec
  · unfold headAfterAck
    dsimp only
    rw [hstart, hids, takeWhile_map, filterMap_map]
    exact congrArg (find? _) filterMap_some

theorem mem_of_headAfterAck (h : Own r s g) {committed maxAcked : EntryId}
    {acked : List EntryId} {id : EntryId} (hid : id ∈ (r.pend s g).keys) (hlow : committed < id)
    (hhigh : id ≤ maxAcked)
    (hhead : ∀ h ∈ headAfterAck (r.window s) g committed acked maxAcked, id < h) : id ∈ acked := by
  obtain ⟨l, hsub, hall, heq⟩ := headAfterAck_eq h committed maxAcked acked
  rw [heq] at hhead
  have hmem := hall id hid hlow
  have hsorted := (pairwise_map.mpr (r.pend s g).sorted).sublist hsub
  clear hsub hall heq
  induction l with
  | nil => cases hmem
  | cons x l ih =>
    obtain ⟨hx, hsorted⟩ := pairwise_cons.mp hsorted
    have hxle : x ≤ maxAcked := by
      rcases mem_cons.mp hmem with rfl | hmem
      · exact hhigh
      · exact (hx id hmem).le.trans hhigh
    rw [takeWhile_cons_of_pos (by simpa using hxle)] at hhead
    by_cases hacked : x ∈ acked
    · rcases mem_cons.mp hmem with rfl | hmem
      · exact hacked
      · rw [find?_cons_of_neg (by simpa using hacked)] at hhead
        exact ih hhead hmem hsorted
    · rw [find?_cons_of_pos (by simpa using hacked)] at hhead
      rcases mem_cons.mp hmem with rfl | hmem
      · exact absurd (hhead id rfl) (lt_irrefl id)
      · exact absurd (hx id hmem) (hhead x rfl).not_gt

theorem ackCandidate_spec (hown : Own r s g) (hd : d = ackCandidate ids (ackHead r s g st ids) st.committed)
    (h : st.committed < d) :
    d ∈ ids ∧ ∀ id ∈ (r.pend s g).keys, st.committed < id → id ≤ d → id ∈ ids := by
  have hspec : d ∈ ids ∧ ∀ x ∈ ackHead r s g st ids, d < x := by
    unfold ackCandidate at hd
    split at hd
    · next hnone =>
      rw [hnone]
      exact ⟨hd ▸ (maxOf_eq_or_mem _ _).resolve_left fun heq => h.ne' (hd.trans heq), nofun⟩
    · next x hsome =>
      have hmem := mem_filter.mp ((maxOf_eq_or_mem st.committed (ids.filter (· < x))).resolve_left
        fun heq => h.ne' (hd.trans heq))
      rw [← hd] at hmem
      refine ⟨hmem.1, fun y hy => ?_⟩
      rw [hsome] at hy
      cases hy
      exact of_decide_eq_true hmem.2
  have hmax : d ≤ maxOf st.committed ids := Offsets.le_maxOf_of_mem hspec.1
  refine ⟨hspec.1, fun id hid hlow hle => ?_⟩
  refine mem_of_headAfterAck hown hid hlow (hle.trans hmax) fun x hx => hle.trans_lt (hspec.2 x ?_)
  rw [ackHead, if_pos (h.trans_le hmax)]
  exact hx

/-- Each id above the delivered position that the ack can take the committed position to, no other
pending row being left before it, is not beyond the tail, and the entries up to it are acknowledged
or pending. -/
def AckClean (w : World) (now : Nat) (s g : Bytes) (ids : List EntryId) : Prop :=
  ∀ st ∈ w.offsets.peek w.records now s g, ∀ id ∈ ids, st.delivered < id →
    (∀ row ∈ (w.records.pend s g).entries, st.committed < row.1 → row.1 ≤ id → row.1 ∈ ids) →
    (∃ m ∈ w.records.metas s, id ≤ m.payload.lastId) ∧
      ∀ e ∈ (w.records.entries s).entries, st.delivered < e.1 → e.1 ≤ id →
        (s, g, e.1) ∈ w.acked ∨ e.1 ∈ ids ∨ ((w.records.pend s g).get e.1).isSome
  deriving Decidable

def ackedState (r : Records) (s g : Bytes) (st : GroupState) (ids : List EntryId) : GroupState :=
  let d := ackCandidate ids (ackHead r s g st ids) st.committed
  if st.committed < d then st.advanceTo d else st

/-- What an ack changes: rows of its ids go, and the positions move on. -/
structure Acks (l l' : Runtime) (s g : Bytes) (ids : List EntryId) (st : GroupState) : Prop where
  metas : ∀ t, l'.records.metas t = l.records.metas t
  entries : ∀ t, l'.records.entries t = l.records.entries t
  groups : ∀ s' g', l'.records.groups s' g' = l.records.groups s' g' ∨
    s = s' ∧ g = g' ∧ ∃ p, l'.records.groups s' g' = some p ∧ p.committed = st.committed
  pend : ∀ s' g', ∀ id ∈ (l.records.pend s' g').keys,
    id ∈ (l'.records.pend s' g').keys ∨ s = s' ∧ g = g' ∧ id ∈ ids
  others : ∀ s' g', ¬ (s = s' ∧ g = g') → l'.offsets.map s' g' = l.offsets.map s' g'
  state : ∃ st', l'.offsets.map s g = some st' ∧ st'.committed = st.committed ∧
    st'.delivered = st.delivered

theorem xack_acks (ids : List EntryId) (h : l.offsets.peek l.records now s g = some st) :
    Acks l (xack l now s g ids).1 s g ids (ackedState l.records s g st ids) := by
  have hmap : (ackedOffsets l now s g st ids).map s g = some (ackedState l.records s g st ids) := by
    show (Offsets.advanceCommitted _ s g _).map s g = _
    rw [Offsets.map_advanceCommitted, map_modify,
      map_load _ _ _ _ _ st (by rw [load_snd, h])]
    rfl
  obtain ⟨heads, hheads, heq⟩ := xack_eq l now s g ids h
  rw [hmap] at hheads
  have hbatch : Batch l.records now _ [] := .of_aside (ackBatch_aside l now s g ids heads)
  have hsame := batch_idle hbatch rfl
  rw [heq]
  refine ⟨fun t => (hsame t).1, fun t => (hsame t).2, fun s' g' => ?_, fun s' g' id hid => ?_,
    fun s' g' hs => ?_, ?_⟩
  · rw [groups_write, ackBatch_toGroup]
    split
    · next hs =>
      cases hlast : heads.getLast? with
      | none => exact .inl rfl
      | some p => exact .inr ⟨hs.1, hs.2, p, rfl, by rw [hheads p (mem_of_getLast? hlast)]; rfl⟩
    · exact .inl rfl
  · rw [pend_write, ackBatch_toPend]
    split
    · next hs =>
      obtain ⟨rfl, rfl⟩ := hs
      rw [keys_write_del, Finset.mem_sdiff, mem_toFinset]
      by_cases hids : id ∈ ids
      · exact .inr ⟨rfl, rfl, hids⟩
      · exact .inl ⟨hid, fun hmem => hids (mem_filter.mp hmem).1⟩
    · exact .inl hid
  · exact (((Offsets.moves_bumpPending _).map_ne hs).trans
      ((Offsets.moves_advanceCommitted _).map_ne hs)).trans (Offsets.map_load_ne _ _ _ _ _ _ _ hs)
  · rw [Offsets.bumpPending, map_modify, hmap]
    exact ⟨_, rfl, rfl, rfl⟩

variable {w : World}

theorem ackedState_safe (hown : Own w.records s g) (hc : AckClean w now s g ids)
    (hst : w.offsets.peek w.records now s g = some st) (hle : st.committed ≤ st.delivered)
    (hsafe : Safe first w.acked w.records s g st.delivered) :
    (ackedState w.records s g st ids).committed ≤ (ackedState w.records s g st ids).delivered ∧
      Safe first (w.acked ++ ids.map fun id => (s, g, id)) w.records s g
        (ackedState w.records s g st ids).delivered := by
  have hsafe' : Safe first (w.acked ++ ids.map fun id => (s, g, id)) w.records s g st.delivered :=
    hsafe.rows rfl rfl (fun _ _ hid => .inr hid) (subset_append_left _ _)
  unfold ackedState
  generalize hd : ackCandidate ids (ackHead w.records s g st ids) st.committed = d
  dsimp only
  split
  · next hlt =>
    obtain ⟨hmem, hrows⟩ := ackCandidate_spec hown hd.symm hlt
    refine ⟨le_max_right _ _, ?_⟩
    show Safe _ _ _ _ _ (max st.delivered d)
    rcases le_or_gt d st.delivered with hback | hfwd
    · rw [max_eq_left hback]
      exact hsafe'
    · rw [max_eq_right hfwd.le]
      obtain ⟨⟨m, hm, htail⟩, hall⟩ := hc st hst d hmem hfwd fun row hrow hlow hhigh =>
        hrows row.1 (mem_toFinset.mpr (mem_map_of_mem hrow)) hlow hhigh
      refine ⟨⟨m, hm, htail.trans (le_max_left _ _)⟩, fun id hid hstart => ?_⟩
      rcases hsafe'.held id hid hstart with h | h | h
      · exact .inl h
      · refine (lt_or_ge d id).elim (fun hgt => .inr (.inl hgt)) fun hle => ?_
        obtain ⟨e, he, rfl⟩ := mem_map.mp (mem_toFinset.mp hid)
        rcases hall e he h hle with h | h | h
        · exact .inl (mem_append_left _ h)
        · exact .inl (mem_append_right _ (mem_map_of_mem h))
        · exact .inr (.inr (SortedMap.mem_keys.mpr h))
      · exact .inr (.inr h)
  · exact ⟨hle, hsafe'⟩

theorem xack_held (hown : Own w.records s g) (hc : AckClean w now s g ids)
    (h : Held start w.acked w.records w.offsets) :
    Held start (w.acked ++ ids.map fun id => (s, g, id)) (xack w.runtime now s g ids).1.records
      (xack w.runtime now s g ids).1.offsets := by
  cases hst : w.offsets.peek w.records now s g with
  | none =>
    rw [xack_none w.runtime now s g ids hst]
    exact h.rows (fun _ => rfl) (fun _ => rfl) (fun _ _ => rfl) (fun _ _ _ _ hid => .inr hid)
      (subset_append_left _ _)
  | some st =>
    have ha := xack_acks ids hst
    obtain ⟨hle, hsafe⟩ := h.peek (fun _ _ => rfl) hst
    obtain ⟨hle', hsafe'⟩ := ackedState_safe hown hc hst hle hsafe
    have hrows : ∀ {first s' g' d} {named : List (Bytes × Bytes × EntryId)},
        named ⊆ w.acked ++ ids.map (fun id => (s, g, id)) → Safe first named w.records s' g' d →
        Safe first (w.acked ++ ids.map fun id => (s, g, id))
          (xack w.runtime now s g ids).1.records s' g' d := by
      intro first s' g' d named hn hs
      refine hs.rows (ha.metas s') (ha.entries s') (fun id _ hid => ?_) hn
      rcases ha.pend s' g' id hid with hp | ⟨rfl, rfl, hnamed⟩
      · exact .inr hp
      · exact .inl (mem_append_right _ (mem_map_of_mem hnamed))
    refine ⟨fun s' g' p hp => ?_, fun s' g' st' hst' => ?_⟩
    · rcases ha.groups s' g' with hg | ⟨rfl, rfl, p', hp', hcom⟩
      · exact hrows (subset_append_left _ _) (h.record s' g' p (hg ▸ hp))
      · rw [hp] at hp'
        cases hp'
        rw [hcom]
        exact hrows (fun _ => id) (hsafe'.of_le hle')
    · by_cases hs : s = s' ∧ g = g'
      · obtain ⟨rfl, rfl⟩ := hs
        obtain ⟨st₁, hst₁, hcom, hdel⟩ := ha.state
        rw [hst'] at hst₁
        cases hst₁
        rw [hcom, hdel]
        exact ⟨hle', hrows (fun _ => id) hsafe'⟩
      · exact (h.cached s' g' st' (ha.others s' g' hs ▸ hst')).imp_right
          (hrows (subset_append_left _ _))

/-! ## Steps -/

/-- No deadline is set, the last ids bound the stored ones, and nothing is lost. -/
structure Sound (start : Bytes → Bytes → EntryId) (w : World) : Prop where
  timeless : ∀ s, Timeless w.records s
  bounded : ∀ s, Bounded w.records s
  held : Held start w.acked w.records w.offsets

/-- The commands in question: nothing trims or deletes, and no position is set. -/
def Listed : Action → Prop
  | .xadd _ _ o _ _ => o.trim = none
  | .exchange .. | .xreadgroup .. | .xack .. | .xclaim .. | .xautoclaim .. | .flush .. | .restart =>
    True
  | .xtrim .. | .xdel .. | .sweep .. | .delconsumer .. | .setid .. => False

instance decidableListed (a : Action) : Decidable (Listed a) := by
  cases a <;> dsimp only [Listed] <;> infer_instance

def Lossless (w : World) : Action → Prop
  | .xreadgroup c streams =>
    ReadClean w.runtime c streams ∧ ∀ s ∈ streams, Own w.records s c.group
  | .xack now s g ids => AckClean w now s g ids ∧ Own w.records s g
  | .xclaim c s _ | .xautoclaim c s _ _ => Own w.records s c.group
  | _ => True

instance decidableLossless (w : World) (a : Action) : Decidable (Lossless w a) := by
  cases a <;> dsimp only [Lossless] <;> infer_instance

/-- A command of the list that dead-letters nothing and meets the condition. -/
def Clean (w : World) (a : Action) : Prop :=
  Listed a ∧ (step w a).map (·.moves) = some w.moves ∧ Lossless w a
  deriving Decidable

theorem sound_of_accounts (hw : Sound start w) (hacc : Accounts w.records t ws next new [])
    (hws : ∀ x ∈ ws, x.OfStream)
    (ho : ∀ s g st, o.map s g = some st → w.offsets.map s g = some st) :
    Sound start { w with
      runtime := { w.runtime with records := w.records.write ws, offsets := o } } := by
  have hheld := accounts_held hw.held hacc hws
  refine ⟨fun s => hacc.timeless_of_timeless (hw.timeless s), fun s => ?_, hheld.record,
    fun s g st hst => hheld.cached s g st (ho s g st hst)⟩
  by_cases hst : s = t
  · subst hst
    exact hacc.bounded (hw.bounded s)
  · obtain ⟨hm, he⟩ := w.records.write_untouched (hacc.only s hst)
    rw [Bounded, hm, he]
    exact hw.bounded s

theorem xadd_sound (now : Nat) (s : Bytes) (o : XaddOpts) (idArg : IdArg) (fields : Fields)
    (hw : Sound start w) (htrim : o.trim = none) :
    Sound start { w with runtime := xadd w.runtime now s o idArg fields } := by
  unfold xadd
  rw [reap_of_timeless (hw.timeless s)]
  dsimp only
  split
  · exact hw
  · exact hw
  · next id ws hbatch =>
    obtain ⟨next, victims, hacc, -, hvict⟩ :=
      xaddBatch_accounts (hw.bounded s) (hw.timeless s) hbatch
    cases hvict htrim
    refine sound_of_accounts hw hacc (xaddBatch_ofStream hbatch) fun t g st hst => ?_
    split at hst
    · by_cases hts : t = s
      · subst hts
        simp [Offsets.removeStream] at hst
      · simpa [Offsets.removeStream, hts] using hst
    · exact hst

theorem exchange_sound (now : Nat) (s : Bytes) (rows : List DueRow) (hw : Sound start w) :
    Sound start { w with runtime := exchange w.runtime now s rows } := by
  unfold exchange
  rw [reap_of_timeless (hw.timeless s), ite_self]
  rcases exchangeBatch_accounts now (hw.timeless s) rows with hnone | ⟨m, next, -, hacc⟩
  · have hws : ∀ x ∈ exchangeBatch w.records now s rows, x.OfStream := exchangeBatch_ofStream rows
    generalize exchangeBatch w.records now s rows = ws at hnone hws
    have hm := fun t => (w.records.write_untouched (hnone t)).1
    have he := fun t => (w.records.write_untouched (hnone t)).2
    refine ⟨fun t m hmeta => hw.timeless t m (hm t ▸ hmeta), fun t => ?_, ?_⟩
    · rw [Bounded, hm, he]
      exact hw.bounded t
    · have hgroups := fun t g => write_ofStream w.records ws t g hws
      exact hw.held.rows hm he (fun t g => (hgroups t g).2)
        (fun t g id _ hid => .inr ((hgroups t g).1.symm ▸ hid)) fun _ => id
  · exact sound_of_accounts hw hacc (exchangeBatch_ofStream rows) fun _ _ _ hst => hst

theorem flushGroup_held (h : Held start named l.records l.offsets) :
    Held start named (flushGroup l s g).records (flushGroup l s g).offsets := by
  unfold flushGroup
  split
  · cases hst : l.offsets.map s g with
    | none => exact ⟨h.record, h.cached⟩
    | some st =>
      obtain ⟨hle, hsafe⟩ := h.cached s g st hst
      have hsame : ∀ {first s' g' d}, Safe first named l.records s' g' d →
          Safe first named (l.records.write [.group s g (payloadOf st)]) s' g' d := fun hs =>
        hs.rows rfl rfl (fun _ _ hid => .inr hid) fun _ => id
      refine ⟨fun s' g' p hp => ?_, fun s' g' st' hst' => (h.cached s' g' st' hst').imp_right hsame⟩
      rw [groups_write] at hp
      cases hw : (Write.group s g (payloadOf st)).toGroup s' g' with
      | none =>
        rw [filterMap_cons_none hw] at hp
        exact hsame (h.record s' g' p hp)
      | some p' =>
        obtain ⟨rfl, rfl, rfl⟩ := Write.of_toGroup_group hw
        rw [filterMap_cons_some hw] at hp
        cases hp
        exact hsame (hsafe.of_le hle)
  · exact h

variable {w' : World} {a : Action}

theorem step_held (hw : Sound start w) (hlisted : Listed a) (hok : Lossless w a)
    (hmoves : w'.moves = w.moves) (ha : a.appends = false) (h : step w a = some w') :
    Held start w'.acked w'.records w'.offsets := by
  cases a with cases h
  | xadd | xtrim | xdel | exchange => cases ha
  | sweep | delconsumer | setid => exact hlisted.elim
  | xreadgroup c streams =>
    exact xreadgroup_held hw.bounded hok.1 (append_right_eq_self.mp hmoves) hw.held
  | xack now s g ids =>
    exact xack_held hok.2 hok.1 hw.held
  | xclaim c s ids =>
    exact xclaim_held hw.held (append_right_eq_self.mp hmoves)
  | xautoclaim c s start count =>
    exact xautoclaim_held hw.held (append_right_eq_self.mp hmoves)
  | flush s g =>
    exact flushGroup_held hw.held
  | restart =>
    exact ⟨hw.held.record, nofun⟩

theorem step_sound (hw : Sound start w) (hc : Clean w a)
    (h : step w a = some w') : Sound start w' := by
  obtain ⟨hlisted, hmoves, hok⟩ := hc
  rw [h] at hmoves
  have hmoves : w'.moves = w.moves := Option.some.inj hmoves
  by_cases ha : a.appends = false
  · obtain ⟨now, moves, ⟨ws, ts, hr, hb, hts, -⟩, hm⟩ := step_effect ha h
    rw [hm, append_right_eq_self] at hmoves
    have hsame := batch_idle hb (hts.symm.trans hmoves)
    refine ⟨fun s m hmeta => ?_, fun s => ?_, step_held hw hlisted hok ?_ ha h⟩
    · refine hw.timeless s m ?_
      rw [← (hsame s).1, ← hr]
      exact hmeta
    · show Bounded w'.runtime.records s
      rw [hr, Bounded, (hsame s).1, (hsame s).2]
      exact hw.bounded s
    · rw [hm, hmoves, append_nil]
  cases a with
  | xadd now s o idArg fields =>
    cases h
    exact xadd_sound now s o idArg fields hw hlisted
  | exchange now s rows =>
    cases h
    exact exchange_sound now s rows hw
  | xtrim | xdel => exact hlisted.elim
  | xreadgroup | xack | xclaim | xautoclaim | sweep | delconsumer | setid | flush | restart =>
    exact absurd rfl ha

theorem entries_due {start : Bytes → Bytes → EntryId} {w w₁ : World} {as : List Action}
    (hw : Sound start w) (hg : Guarded step Clean w as) (h : exec step w as = some w₁) {now : Nat}
    {s g : Bytes} {st : GroupState} (hst : w₁.offsets.peek w₁.records now s g = some st)
    (hown : Own w₁.records s g) {id : EntryId}
    (hid : ((w₁.records.entries s).get id).isSome) (hstart : start s g < id)
    (hnamed : (s, g, id) ∉ w₁.acked) : st.delivered < id ∨
      ∃ row, (w₁.records.window s).get (g ++ pendTag :: id.suffix) = some (.inl row) := by
  have hs : Sound start w₁ := exec_inv (fun _ _ _ => step_sound) hw hg h
  obtain ⟨-, hsafe⟩ := hs.held.peek (fun _ _ => rfl) hst
  have hheld := hsafe.held id (SortedMap.mem_keys.mpr hid) hstart
  refine (hheld.resolve_left hnamed).imp_right fun hmem => ?_
  obtain ⟨row, hrow⟩ := Option.isSome_iff_exists.mp (SortedMap.mem_keys.mp hmem)
  exact ⟨row, (hown.get_window hrow).1⟩

/-! ## An id that was never delivered -/

/-- Stream `t/a` with two entries and a group on it that has not read yet. -/
def unread : World where
  runtime := { records := {
    metas := fun s => if s = sampleStream then some ⟨{ lastMs := 2, len := 2 }, 0⟩ else none
    entries := fun s => if s = sampleStream then .ofList [(⟨1, 0⟩, []), (⟨2, 0⟩, [])] else .empty
    groups := fun s g =>
      if s = sampleStream ∧ g = [103] then some ⟨0, minId, minId, false, 0, 0, []⟩ else none } }

theorem unread_sound : Sound (fun _ _ => minId) unread := by
  refine ⟨fun s m hm => ?_, fun s => ?_, fun s g p hp => ?_, nofun⟩
  · dsimp only [unread] at hm
    split at hm
    · cases hm
      exact ⟨rfl, rfl⟩
    · cases hm
  · by_cases hs : s = sampleStream
    · subst hs
      decide
    · have he : unread.records.entries s = .empty := if_neg hs
      intro id hid
      rw [he] at hid
      cases hid
  · dsimp only [unread] at hp
    split at hp
    · next hs =>
      cases hp
      obtain ⟨rfl, rfl⟩ := hs
      exact ⟨⟨_, rfl, le_max_right _ _⟩, fun id _ hstart => .inr (.inl hstart)⟩
    · cases hp

def unreadRead : Action :=
  .xreadgroup { group := [103], consumer := [99], count := 1, now := 5, leaseMs := 100 }
    [sampleStream]

def unreadAck (id : EntryId) : Action := .xack 6 sampleStream [103] [id]

/-- The first entry is read and acknowledged, and the process restarts: the second one is still to
be delivered. -/
theorem entries_due_unread : ∃ w₁ st,
    exec step unread [unreadRead, unreadAck ⟨1, 0⟩, .restart] = some w₁ ∧
      w₁.offsets.peek w₁.records 7 sampleStream [103] = some st ∧
      (sampleStream, [103], ⟨2, 0⟩) ∉ w₁.acked ∧ (st.delivered < ⟨2, 0⟩ ∨ ∃ row,
        (w₁.records.window sampleStream).get ([103] ++ pendTag :: EntryId.suffix ⟨2, 0⟩) =
          some (.inl row)) := by
  have hg : Guarded step Clean unread [unreadRead, unreadAck ⟨1, 0⟩, .restart] := by decide +kernel
  obtain ⟨w₁, hw₁, hpeek, hnot, hown, hid⟩ : ∃ w, exec step unread [unreadRead, unreadAck ⟨1, 0⟩,
      .restart] = some w ∧ (w.offsets.peek w.records 7 sampleStream [103]).isSome ∧
      (sampleStream, [103], ⟨2, 0⟩) ∉ w.acked ∧ Own w.records sampleStream [103] ∧
      ((w.records.entries sampleStream).get ⟨2, 0⟩).isSome :=
    exists_run (by decide +kernel) fun _ _ h => h
  obtain ⟨st, hst⟩ := Option.isSome_iff_exists.mp hpeek
  exact ⟨w₁, st, hw₁, hst, hnot, entries_due unread_sound hg hw₁ hst hown hid (by decide) hnot⟩

/-- The second entry is acknowledged before anything is delivered: the first one is neither above
the delivered position nor pending, and no XACK has named it. -/
theorem entry_lost : Sound (fun _ _ => minId) unread ∧
    ∃ w₁ st, exec step unread [unreadAck ⟨2, 0⟩] = some w₁ ∧
      w₁.offsets.peek w₁.records 7 sampleStream [103] = some st ∧
      ((w₁.records.entries sampleStream).get ⟨1, 0⟩).isSome ∧ minId < (⟨1, 0⟩ : EntryId) ∧
      (sampleStream, [103], ⟨1, 0⟩) ∉ w₁.acked ∧ ¬ (st.delivered < ⟨1, 0⟩ ∨ ∃ row,
        (w₁.records.window sampleStream).get ([103] ++ pendTag :: EntryId.suffix ⟨1, 0⟩) =
          some (.inl row)) := by
  obtain ⟨w₁, hw₁, hpeek, hnot, hid, hrow⟩ : ∃ w, exec step unread [unreadAck ⟨2, 0⟩] = some w ∧
      (w.offsets.peek w.records 7 sampleStream [103]).map (·.delivered) = some ⟨2, 0⟩ ∧
      (sampleStream, [103], ⟨1, 0⟩) ∉ w.acked ∧
      ((w.records.entries sampleStream).get ⟨1, 0⟩).isSome ∧
      (w.records.window sampleStream).get ([103] ++ pendTag :: EntryId.suffix ⟨1, 0⟩) = none :=
    exists_run (by decide +kernel) fun _ _ h => h
  obtain ⟨st, hst, hdel⟩ := Option.map_eq_some_iff.mp hpeek
  refine ⟨unread_sound, w₁, st, hw₁, hst, hid, by decide, hnot, ?_⟩
  rw [hdel, hrow]
  rintro (hlt | ⟨row, hrow⟩)
  · exact absurd hlt (by decide)
  · cases hrow

end Rdb.Lite.AtLeastOnce
