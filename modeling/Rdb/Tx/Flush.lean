import Rdb.Tx.Session

/-!
# Concurrent columnar flushes

A flush allocates its commit timestamp, looks for a free segment id from that
timestamp on, writes the segment file and then the segment's meta record. The id
is taken only by the meta record, so until then another flush can find the same
id free. On a single node a flush starts at its own timestamp and finds it free;
in a cluster it scans on to the next id whose slot the node owns, and flushes
with different timestamps meet there.

* `chooseSegmentId_spec`: the id a probe finds.
-/

namespace Rdb.Tx

open Lib Sql List SortedMap
open SortedMap (empty)

/-- One flush of rows with its commit timestamp; once it has probed, with its segment id. -/
inductive Flush where
  | idle
  | allocated (rows : List (List Value)) (commitTs : Nat)
  | chosen (rows : List (List Value)) (commitTs segmentId : Nat)
  /-- The segment file is in place, the meta is not. -/
  | written (rows : List (List Value)) (commitTs segmentId : Nat)
  | acknowledged (rows : List (List Value)) (commitTs segmentId : Nat)
  | failed
  deriving DecidableEq

def Flush.segmentId : Flush → Option Nat
  | .chosen _ _ id => some id
  | .written _ _ id => some id
  | .acknowledged _ _ id => some id
  | _ => none

/-- The id of a flush that no meta record claims yet. -/
def Flush.pending : Flush → Option Nat
  | .chosen _ _ id => some id
  | .written _ _ id => some id
  | _ => none

/-- The flushes of one columnar table on one node, with its segment directory. -/
structure FlushState where
  store : Store
  files : SortedMap Bytes (List (List Value))
  flushes : Nat → Flush
  /-- The commit timestamps handed out. -/
  used : List Nat

inductive FlushAction where
  | alloc (f : Nat) (rows : List (List Value)) (commitTs : Nat)
  /-- Probe for an id; `allow` are the slots the node owns, all of them on a single node. -/
  | choose (f : Nat) (allow : Nat → Bool)
  | writeFile (f : Nat) (ok : Bool)
  /-- The batch of the meta record, with the row writes of a transaction in it. -/
  | writeMeta (f : Nat) (others : List WriteOp) (ok : Bool)

def segmentFileName (tableId segmentId : Nat) : Bytes :=
  utf8 "t" ++ (decimal tableId ++ (utf8 "-s" ++ (decimal segmentId ++ utf8 ".col")))

def FlushState.set (s : FlushState) (f : Nat) (fl : Flush) : FlushState :=
  { s with flushes := fun i => if i = f then fl else s.flushes i }

section

variable (json : JsonFormat SegmentMeta) (schema : TableSchema)

def liveMeta (rows : List (List Value)) (commitTs segmentId : Nat) : SegmentMeta :=
  { tableId := schema.id, tableName := utf8 schema.name, segmentId, commitTs, state := .live,
    numRows := rows.length, file := segmentFileName schema.id segmentId }

def metaBatch (others : List WriteOp) (commitTs segmentId : Nat) (encoded : Bytes) : List WriteOp :=
  others ++ [.put (metaKey schema.id segmentId) encoded, stamp commitTs]

/-- The op puts or deletes a segment meta of the table. -/
def touchesMeta (op : WriteOp) : Bool :=
  (parseMetaKey op.key).any fun k => k.1 == schema.id

def flushStep (s : FlushState) : FlushAction → Option FlushState
  | .alloc f rows commitTs => match s.flushes f with
    | .idle =>
      if commitTs ∈ s.used ∨ 2 ^ 64 ≤ commitTs then none
      else some ({ s with used := commitTs :: s.used }.set f (.allocated rows commitTs))
    | _ => none
  | .choose f allow => match s.flushes f with
    | .allocated rows commitTs =>
      match chooseSegmentId s.store allow schema.id maxSegmentIdCandidates commitTs with
      | .ok id => some (s.set f (.chosen rows commitTs id))
      | .error _ => some (s.set f .failed)
    | _ => none
  | .writeFile f ok => match s.flushes f with
    | .chosen rows commitTs id =>
      if ok then
        some ({ s with files := s.files.put (segmentFileName schema.id id) rows }.set f
          (.written rows commitTs id))
      else some (s.set f .failed)
    | _ => none
  | .writeMeta f others ok => match s.flushes f with
    | .written rows commitTs id =>
      if others.any (touchesMeta schema) then none
      else match encodeMeta json (liveMeta schema rows commitTs id), ok with
        | some encoded, true =>
          let store := s.store.write (metaBatch schema others commitTs id encoded)
          some ({ s with store }.set f (.acknowledged rows commitTs id))
        | _, _ => some (s.set f .failed)
    | _ => none

end

def flushInitial (store : Store) (files : SortedMap Bytes (List (List Value))) : FlushState :=
  { store, files, flushes := fun _ => .idle, used := [] }

/-! ## The id a probe finds -/

/-- The id can be taken: no meta record has it and the slot is allowed. -/
def Eligible (store : Store) (allow : Nat → Bool) (tableId id : Nat) : Prop :=
  (store.get (metaKey tableId id)).isNone ∧ allow (segmentSlot tableId id)

variable {allow : Nat → Bool} {tableId id : Nat}

theorem chooseSegmentId_spec {store : Store} {fuel base : Nat}
    (h : chooseSegmentId store allow tableId fuel base = .ok id) :
    base ≤ id ∧ id < 2 ^ 64 ∧ Eligible store allow tableId id ∧
      ∀ j, base ≤ j → j < id → ¬ Eligible store allow tableId j := by
  induction fuel generalizing base with
  | zero => cases h
  | succ fuel ih =>
    rw [chooseSegmentId] at h
    split at h
    · cases h
    · split at h
      · next helig =>
        cases h
        exact ⟨le_refl _, by omega, helig, fun j hlo hhi => by omega⟩
      · next hbase =>
        obtain ⟨hle, hid, helig, hfirst⟩ := ih h
        refine ⟨by omega, hid, helig, fun j hlo hhi => ?_⟩
        rcases Nat.eq_or_lt_of_le hlo with rfl | hlo
        · exact hbase
        · exact hfirst j hlo hhi

/-! ## Names -/

variable {a b : Nat}

theorem metaKey_inj (ha : a < 2 ^ 64) (hb : b < 2 ^ 64)
    (h : metaKey tableId a = metaKey tableId b) : a = b := by
  have hbytes := append_cancel_left (cons.inj h).2
  rw [← ofBe_beBytes_of_lt (w := 8) (n := a) (by omega), hbytes, ofBe_beBytes_of_lt (by omega)]

theorem segmentFileName_inj
    (h : segmentFileName tableId a = segmentFileName tableId b) : a = b := by
  have hdec := append_cancel_right (append_cancel_left (append_cancel_left
    (append_cancel_left h)))
  rw [← decVal_decimal a, hdec, decVal_decimal]

variable {schema : TableSchema}

theorem metaKey_ne_of_not_touches (ht : schema.id < 2 ^ 32) (hid : id < 2 ^ 64) {op : WriteOp}
    (h : touchesMeta schema op = false) :
    op.key ≠ metaKey schema.id id := by
  intro hk
  rw [touchesMeta, hk, parseMetaKey_metaKey ht hid] at h
  simp at h

theorem key_stamp_ne_metaKey (ts tableId id : Nat) : (stamp ts).key ≠ metaKey tableId id := by
  intro h
  have := congrArg head? h
  simp [stamp, floorKey, metaKey, kindSqlSegment] at this

/-! ## What a step does -/

variable {json : JsonFormat SegmentMeta} {schema : TableSchema} {s s' : FlushState}

inductive FlushEffect (json : JsonFormat SegmentMeta) (schema : TableSchema) (s : FlushState) :
    FlushAction → FlushState → Prop
  | alloc {f rows ts} : FlushEffect json schema s (.alloc f rows ts)
      ({ s with used := ts :: s.used }.set f (.allocated rows ts))
  | choose {f allow rows ts id} : s.flushes f = .allocated rows ts →
      chooseSegmentId s.store allow schema.id maxSegmentIdCandidates ts = .ok id →
      FlushEffect json schema s (.choose f allow) (s.set f (.chosen rows ts id))
  | fail {a f} : FlushEffect json schema s a (s.set f .failed)
  | writeFile {f ok rows ts id} : s.flushes f = .chosen rows ts id →
      FlushEffect json schema s (.writeFile f ok)
        ({ s with files := s.files.put (segmentFileName schema.id id) rows }.set f
          (.written rows ts id))
  | writeMeta {f others ok rows ts id encoded} : s.flushes f = .written rows ts id →
      others.any (touchesMeta schema) = false →
      encodeMeta json (liveMeta schema rows ts id) = some encoded →
      FlushEffect json schema s (.writeMeta f others ok)
        ({ s with store := s.store.write (metaBatch schema others ts id encoded) }.set f
          (.acknowledged rows ts id))

theorem flushEffect_of_step {a : FlushAction} (h : flushStep json schema s a = some s') :
    FlushEffect json schema s a s' := by
  cases a with rw [flushStep] at h
  | alloc f rows ts =>
    split at h
    · split at h
      · cases h
      · cases h
        exact .alloc
    · cases h
  | choose f allow =>
    split at h
    · next rows ts hf =>
      split at h
      · next id hid =>
        cases h
        exact .choose hf hid
      · cases h
        exact .fail
    · cases h
  | writeFile f ok =>
    split at h
    · next rows ts id hf =>
      split at h
      · cases h
        exact .writeFile hf
      · cases h
        exact .fail
    · cases h
  | writeMeta f others ok =>
    split at h
    · next rows ts id hf =>
      split at h
      · cases h
      · next hothers =>
        split at h
        · next encoded henc =>
          cases h
          exact .writeMeta hf (by simpa using hothers) henc
        · cases h
          exact .fail
    · cases h

/-! ## Runs -/

/-- A probe is taken while every id another flush has found and not yet claimed lies before the
timestamp the probe starts at, or behind an id that the probe meets first. -/
def ProbeClear (schema : TableSchema) (s : FlushState) (a : FlushAction) : Prop :=
  ∀ f allow, a = .choose f allow → ∀ rows ts, s.flushes f = .allocated rows ts →
    ∀ g p, (s.flushes g).pending = some p →
      p < ts ∨ ∃ id, ts ≤ id ∧ id < p ∧ Eligible s.store allow schema.id id

/-- Every acknowledged flush has its own segment id, its rows are in the file of that id, and the
meta record of that id is its own. -/
def SegmentsIntact (json : JsonFormat SegmentMeta) (schema : TableSchema) (s : FlushState) : Prop :=
  ∀ f rows ts id, s.flushes f = .acknowledged rows ts id →
    (∀ g rows' ts', s.flushes g = .acknowledged rows' ts' id → g = f) ∧
    s.files.get (segmentFileName schema.id id) = some rows ∧
    (s.store.get (metaKey schema.id id)).bind (decodeMeta json) = some (liveMeta schema rows ts id)

structure FlushOk (json : JsonFormat SegmentMeta) (schema : TableSchema) (s : FlushState) :
    Prop where
  lt : ∀ f id, (s.flushes f).segmentId = some id → id < 2 ^ 64
  distinct : ∀ f g id, (s.flushes f).segmentId = some id → (s.flushes g).segmentId = some id → f = g
  file : ∀ f rows ts id, s.flushes f = .written rows ts id ∨ s.flushes f = .acknowledged rows ts id →
    s.files.get (segmentFileName schema.id id) = some rows
  claimed : ∀ f rows ts id, s.flushes f = .acknowledged rows ts id →
    ∃ encoded, encodeMeta json (liveMeta schema rows ts id) = some encoded ∧
      s.store.get (metaKey schema.id id) = some encoded

theorem FlushOk.intact (h : FlushOk json schema s) : SegmentsIntact json schema s := by
  intro f rows ts id hf
  obtain ⟨encoded, henc, hget⟩ := h.claimed f rows ts id hf
  refine ⟨fun g rows' ts' hg => h.distinct g f id (by rw [hg]; rfl) (by rw [hf]; rfl),
    h.file f rows ts id (.inr hf), ?_⟩
  rw [hget, Option.bind_some, decodeMeta_encodeMeta henc]

theorem FlushState.flushes_set (s : FlushState) (f : Nat) (fl : Flush) (i : Nat) :
    (s.set f fl).flushes i = if i = f then fl else s.flushes i := rfl

variable {f : Nat}

theorem FlushOk.set {t : FlushState} {fl : Flush} (h : FlushOk json schema s)
    (hsame : t.flushes = s.flushes) (hid : ∀ id, fl.segmentId = some id →
      id < 2 ^ 64 ∧ ∀ g, g ≠ f → (s.flushes g).segmentId ≠ some id)
    (hfiles : ∀ g id, g ≠ f → (s.flushes g).segmentId = some id →
      t.files.get (segmentFileName schema.id id) = s.files.get (segmentFileName schema.id id))
    (hmetas : ∀ g id, g ≠ f → (s.flushes g).segmentId = some id →
      t.store.get (metaKey schema.id id) = s.store.get (metaKey schema.id id))
    (hfile : ∀ rows ts id, fl = .written rows ts id ∨ fl = .acknowledged rows ts id →
      t.files.get (segmentFileName schema.id id) = some rows)
    (hclaim : ∀ rows ts id, fl = .acknowledged rows ts id →
      ∃ encoded, encodeMeta json (liveMeta schema rows ts id) = some encoded ∧
        t.store.get (metaKey schema.id id) = some encoded) :
    FlushOk json schema (t.set f fl) where
  lt i id hi := by
    rw [FlushState.flushes_set, hsame] at hi
    split at hi
    · exact (hid id hi).1
    · exact h.lt i id hi
  distinct i j id hi hj := by
    rw [FlushState.flushes_set, hsame] at hi hj
    split at hi
    · next hif =>
      split at hj
      · next hjf => rw [hif, hjf]
      · next hjf => exact absurd hj ((hid id hi).2 j hjf)
    · next hif =>
      split at hj
      · exact absurd hi ((hid id hj).2 i hif)
      · exact h.distinct i j id hi hj
  file i rows ts id hi := by
    rw [FlushState.flushes_set, hsame] at hi
    split at hi
    · exact hfile rows ts id hi
    · next hif =>
      have hseg : (s.flushes i).segmentId = some id := by
        rcases hi with hi | hi
        · rw [hi]; rfl
        · rw [hi]; rfl
      exact (hfiles i id hif hseg).trans (h.file i rows ts id hi)
  claimed i rows ts id hi := by
    rw [FlushState.flushes_set, hsame] at hi
    split at hi
    · exact hclaim rows ts id hi
    · next hif =>
      obtain ⟨encoded, henc, hget⟩ := h.claimed i rows ts id hi
      exact ⟨encoded, henc, (hmetas i id hif (by rw [hi]; rfl)).trans hget⟩

variable {ts : Nat}

theorem FlushOk.fresh_of_probe (h : FlushOk json schema s)
    (hclear : ProbeClear schema s (.choose f allow)) {rows : List (List Value)}
    (hf : s.flushes f = .allocated rows ts)
    (hid : chooseSegmentId s.store allow schema.id maxSegmentIdCandidates ts = .ok id) (g : Nat) :
    (s.flushes g).segmentId ≠ some id := by
  intro hg
  obtain ⟨hle, -, helig, hfirst⟩ := chooseSegmentId_spec hid
  have hpending : (s.flushes g).pending ≠ some id := fun hp => by
    rcases hclear f allow rfl rows ts hf g id hp with hlt | ⟨j, hlo, hhi, hj⟩
    · omega
    · exact hfirst j hlo hhi hj
  cases hfl : s.flushes g with
  | idle | allocated rows' ts' | failed => rw [hfl] at hg; cases hg
  | chosen rows' ts' id' | written rows' ts' id' => rw [hfl] at hg hpending; exact hpending hg
  | acknowledged rows' ts' id' =>
    rw [hfl] at hg
    cases hg
    obtain ⟨encoded, -, hget⟩ := h.claimed g rows' ts' id hfl
    rw [Eligible, hget] at helig
    cases helig.1

theorem get_metaBatch (ht : schema.id < 2 ^ 32) {others : List WriteOp}
    (hothers : others.any (touchesMeta schema) = false) {j : Nat} {encoded : Bytes}
    (hj : j < 2 ^ 64) (hne : j ≠ id) (hid : id < 2 ^ 64) (store : Store) :
    (store.write (metaBatch schema others ts id encoded)).get (metaKey schema.id j) =
      store.get (metaKey schema.id j) := by
  refine get_write_of_not_mem fun op hop => ?_
  rw [metaBatch, mem_append] at hop
  rcases hop with hop | hop
  · exact metaKey_ne_of_not_touches ht hj (by simpa using any_eq_false.mp hothers op hop)
  · rcases mem_cons.mp hop with rfl | hop
    · exact fun hk => hne (metaKey_inj hj hid hk.symm)
    · rw [mem_singleton.mp hop]
      exact key_stamp_ne_metaKey _ _ _

theorem get_metaBatch_self (others : List WriteOp) (ts id : Nat) (encoded : Bytes)
    (store : Store) : (store.write (metaBatch schema others ts id encoded)).get
      (metaKey schema.id id) = some encoded := by
  have hlast : lastWrite (metaKey schema.id id) (metaBatch schema others ts id encoded) =
      some (some encoded) := by
    rw [metaBatch, lastWrite_append, lastWrite_cons,
      lastWrite_eq_none.mpr fun op hop => by
        rw [mem_singleton.mp hop]; exact key_stamp_ne_metaKey _ _ _]
    simp
  rw [get_write, hlast]
  rfl

theorem FlushOk.step (ht : schema.id < 2 ^ 32) (h : FlushOk json schema s) {a : FlushAction}
    (hclear : ProbeClear schema s a) (he : FlushEffect json schema s a s') :
    FlushOk json schema s' := by
  cases he with
  | alloc | fail => exact h.set rfl nofun (fun _ _ _ _ => rfl) (fun _ _ _ _ => rfl) nofun nofun
  | choose hf hid =>
    refine h.set rfl (fun id heq => ?_) (fun _ _ _ _ => rfl) (fun _ _ _ _ => rfl) nofun nofun
    cases heq
    exact ⟨(chooseSegmentId_spec hid).2.1, fun g _ => h.fresh_of_probe hclear hf hid g⟩
  | @writeFile f ok rows ts id hf =>
    have hown : (s.flushes f).segmentId = some id := by rw [hf]; rfl
    refine h.set rfl (fun id' heq => ?_) (fun g id' hg hseg => ?_) (fun _ _ _ _ => rfl)
      (fun rows' ts' id' heq => ?_) nofun
    · cases heq
      exact ⟨h.lt f id hown, fun g hg hseg => hg (h.distinct g f id hseg hown)⟩
    · -- another id is another file
      refine (get_put _ _ _ _).trans (if_neg fun hname => hg ?_)
      rw [← segmentFileName_inj hname] at hseg
      exact h.distinct g f id hseg hown
    · rcases heq with heq | heq
      · cases heq
        exact (get_put _ _ _ _).trans (if_pos rfl)
      · cases heq
  | @writeMeta f others ok rows ts id encoded hf hothers henc =>
    have hown : (s.flushes f).segmentId = some id := by rw [hf]; rfl
    refine h.set rfl (fun id' heq => ?_) (fun _ _ _ _ => rfl) (fun g id' hg hseg => ?_)
      (fun rows' ts' id' heq => ?_) (fun rows' ts' id' heq => ?_)
    · cases heq
      exact ⟨h.lt f id hown, fun g hg hseg => hg (h.distinct g f id hseg hown)⟩
    · refine get_metaBatch ht hothers (h.lt g id' hseg) (fun heq => hg ?_) (h.lt f id hown) _
      rw [heq] at hseg
      exact h.distinct g f id hseg hown
    · rcases heq with heq | heq
      · cases heq
      · cases heq
        exact h.file f rows ts id (.inl hf)
    · cases heq
      exact ⟨encoded, henc, get_metaBatch_self others ts id encoded _⟩

theorem flushOk_initial (store : Store) (files : SortedMap Bytes (List (List Value))) :
    FlushOk json schema (flushInitial store files) where
  lt _ _ := nofun
  distinct _ _ _ := nofun
  file _ _ _ _ h := by
    rcases h with h | h
    · cases h
    · cases h
  claimed _ _ _ _ := nofun

/-- In every run of flushes of one table whose probes are all clear of pending ids, every
acknowledged flush has a segment id of its own, and its file and its meta are in place. -/
theorem segments_intact (json : JsonFormat SegmentMeta) (schema : TableSchema)
    (ht : schema.id < 2 ^ 32) (store : Store) (files : SortedMap Bytes (List (List Value)))
    (as : List FlushAction)
    (hg : Guarded (flushStep json schema) (ProbeClear schema) (flushInitial store files) as)
    (s : FlushState) (h : exec (flushStep json schema) (flushInitial store files) as = some s) :
    SegmentsIntact json schema s :=
  (exec_inv (fun _ _ _ hok hclear hstep => FlushOk.step ht hok hclear (flushEffect_of_step hstep))
    (flushOk_initial store files) hg h).intact

def sampleColumnar : TableSchema :=
  { id := 7, name := "m", columns := [⟨"id", .int, false⟩], pk := [], engine := .columnar }

def sampleMetaJson : JsonFormat SegmentMeta := segmentCodec.toFormat

def lowerHalf (slot : Nat) : Bool := decide (slot < 8192)

/-- Two flushes of one row each, with timestamps 1 and 2. Segment 1 of table 7 falls into the
upper half, segment 2 into the lower. -/
def racingFlushes : List FlushAction :=
  [.alloc 1 [[.int 1]] 1, .alloc 2 [[.int 2]] 2, .choose 1 lowerHalf, .choose 2 lowerHalf,
   .writeFile 1 true, .writeFile 2 true, .writeMeta 1 [] true, .writeMeta 2 [] true]

/-- Both flushes take segment 2 and are acknowledged; the row of the first is lost. -/
theorem racing_flushes_share_segment : ∃ s,
    exec (flushStep sampleMetaJson sampleColumnar)
        (flushInitial empty empty) racingFlushes = some s ∧
      ¬ SegmentsIntact sampleMetaJson sampleColumnar s := by
  refine exists_run (P := fun s => s.flushes 1 = .acknowledged [[.int 1]] 1 2 ∧
    s.flushes 2 = .acknowledged [[.int 2]] 2 2) (by decide +kernel) fun s _ hh h => ?_
  cases (h 1 [[.int 1]] 1 2 hh.1).1 2 [[.int 2]] 2 hh.2

/-- The same flushes, the second one after the first has published its meta. -/
def orderlyFlushes : List FlushAction :=
  [.alloc 1 [[.int 1]] 1, .choose 1 lowerHalf, .writeFile 1 true, .writeMeta 1 [] true,
   .alloc 2 [[.int 2]] 2, .choose 2 lowerHalf, .writeFile 2 true, .writeMeta 2 [] true]

theorem probeClear_of_quiet {s : FlushState} (h : ∀ g, (s.flushes g).pending = none)
    (a : FlushAction) : ProbeClear schema s a := by
  intro f allow _ rows ts _ g p hp
  rw [h g] at hp
  cases hp

theorem guarded_orderlyFlushes : Guarded (flushStep sampleMetaJson sampleColumnar)
    (ProbeClear sampleColumnar) (flushInitial empty empty) orderlyFlushes := by
  have hother : ∀ (s : FlushState) (a : FlushAction), (∀ f allow, a ≠ .choose f allow) →
      ProbeClear sampleColumnar s a := fun s a ha f allow h => absurd h (ha f allow)
  refine .cons rfl (hother _ _ (by simp)) ?_
  refine .cons rfl (probeClear_of_quiet (fun g => ?_) _) ?_
  · rw [FlushState.flushes_set]
    split <;> rfl
  refine .cons rfl (hother _ _ (by simp)) ?_
  refine .cons rfl (hother _ _ (by simp)) ?_
  refine .cons rfl (hother _ _ (by simp)) ?_
  refine .cons rfl (probeClear_of_quiet (fun g => ?_) _) ?_
  · simp only [FlushState.flushes_set]
    repeat' split
    all_goals rfl
  refine .cons rfl (hother _ _ (by simp)) ?_
  exact ⟨hother _ _ (by simp), fun _ _ => trivial⟩

theorem segments_intact_orderlyFlushes : ∃ s,
    exec (flushStep sampleMetaJson sampleColumnar)
        (flushInitial empty empty) orderlyFlushes = some s ∧
      SegmentsIntact sampleMetaJson sampleColumnar s :=
  exists_run (P := fun _ => True) (by decide +kernel) fun s hs _ => segments_intact sampleMetaJson
    sampleColumnar (by decide) _ _ orderlyFlushes guarded_orderlyFlushes s hs

end Rdb.Tx
