import Rdb.Dist.Frame

/-!
# Recovery

A participant that missed a decision asks the other nodes. They answer with a
line of text made from their outcome record; the answer to a committed
transaction carries the index writes the record maps to the asker. Old outcome
records are collected.

* `parseStatusBody_statusBody`: the asker reads what the record says.
* `StoreOk`: markers list staged keys and records carry index writes; prepares,
  decisions, coordinator records, collections and foreign writes keep it.
* `readMarker_decide`, `readOutcome_decide` and the like: the records after each of
  these.
-/

namespace Rdb.Dist

open Lib Sql Participant Option

variable (J : Serde)

/-! ## Status answers -/

def statusBody (store : Store) (txnId : TxnId) (node : Addr) : Bytes :=
  match readOutcome J store txnId with
  | some rec =>
    if rec.commit then
      utf8 "committed " ++ J.indexOps.toVec ((rec.indexOps.get node).getD []) ++ utf8 "\n"
    else utf8 "aborted\n"
  | none => utf8 "unknown\n"

/-- The decision a body tells, with the index writes of a commit. -/
def parseStatusBody (body : Bytes) : Option (Bool × List WireOp) :=
  let body := trim body
  if body = utf8 "aborted" then some (false, [])
  else (JsonCodec.expect (utf8 "committed ") body).bind fun ops =>
    (J.indexOps.fromSlice ops).map (true, ·)

def Outcome.told : Outcome → Option (Bool × List WireOp)
  | .committed indexOps => some (true, indexOps)
  | .aborted => some (false, [])
  | .unknown => none

variable {J}

theorem trim_committed (ops : List WireOp) :
    trim (utf8 "committed " ++ J.indexOps.toVec ops ++ utf8 "\n") =
      utf8 "committed " ++ J.indexOps.toVec ops := by
  obtain ⟨body, hb⟩ := J.indexOps_brackets ops
  have := trim_line (x := 0x63) (z := 0x5d) (by decide) (by decide)
    (utf8 "ommitted " ++ 0x5b :: body)
  have hu : utf8 "committed " = 0x63 :: utf8 "ommitted " := by decide +kernel
  have hn : utf8 "\n" = [0x0a] := by decide +kernel
  rw [hb, hu, hn]
  simpa using this

theorem parseStatusBody_statusBody (store : Store) (txnId : TxnId) (node : Addr) :
    parseStatusBody J (statusBody J store txnId node) = (status J store txnId node).told := by
  unfold statusBody status
  cases readOutcome J store txnId with
  | none =>
    have ht : trim (utf8 "unknown\n") = utf8 "unknown" := by decide +kernel
    have he : JsonCodec.expect (utf8 "committed ") (utf8 "unknown") = none := by decide +kernel
    rfl
  | some rec =>
    cases hc : rec.commit with
    | false =>
      have ht : trim (utf8 "aborted\n") = utf8 "aborted" := by decide +kernel
      simp only [hc]
      rfl
    | true =>
      have hne : utf8 "committed " ++ J.indexOps.toVec ((rec.indexOps.get node).getD []) ≠
          utf8 "aborted" := by
        intro h
        have := congrArg List.head? h
        revert this
        rw [show utf8 "committed " = 0x63 :: utf8 "ommitted " by decide +kernel]
        simp only [List.cons_append, List.head?_cons]
        decide +kernel
      simp only [hc, if_true, parseStatusBody, trim_committed, JsonCodec.expect_append,
        bind_some, J.indexOps.fromSlice_toVec]
      rfl

/-! ## Replay and collection -/

/-- The index writes a node replays from its own record. -/
def replayOps (bind : Addr) (rec : OutcomeRecord) : List WireOp :=
  if rec.commit then
    -- a record without a map is a participant's own
    if rec.indexOps.entries.isEmpty then rec.ownOps else (rec.indexOps.get bind).getD []
  else []

/-- The transactions whose outcome records are old enough to go. -/
def staleOutcomes (J : Serde) (now : Nat) (store : Store) : List TxnId :=
  ((outcomes J store).filter fun r => outcomeGcSecs < now - r.2.writtenAt).map (·.1)

def gcOutcomes (J : Serde) (now : Nat) (store : Store) : Store :=
  store.write ((staleOutcomes J now store).map fun id => .del (outcomeKey id))

/-! ## Well-formed stores -/

structure RecordOk (rec : OutcomeRecord) : Prop where
  mapped : ∀ node ops, rec.indexOps.get node = some ops → ∀ op ∈ ops, DataKey op.1
  own : ∀ op ∈ rec.ownOps, DataKey op.1

structure StoreOk (J : Serde) (store : Store) : Prop where
  markers : MarkersOk J store
  outcomes : ∀ txnId rec, readOutcome J store txnId = some rec → RecordOk rec

variable {rec : OutcomeRecord}

theorem RecordOk.getD (h : RecordOk rec) (node : Addr) :
    ∀ op ∈ (rec.indexOps.get node).getD [], DataKey op.1 := by
  cases hg : rec.indexOps.get node with
  | none => exact fun _ hop => (nomatch hop)
  | some ops => exact h.mapped node ops hg

theorem RecordOk.replayOps (h : RecordOk rec) (bind : Addr) :
    ∀ op ∈ replayOps bind rec, DataKey op.1 := by
  unfold Dist.replayOps
  split
  · split
    · exact h.own
    · exact h.getD bind
  · exact fun _ hop => (nomatch hop)

variable {commit : Bool}

theorem StoreOk.told {store : Store} (h : StoreOk J store) {txnId : TxnId} {node : Addr}
    {ops : List WireOp} (ht : (status J store txnId node).told = some (commit, ops)) :
    (∃ rec, readOutcome J store txnId = some rec ∧ rec.commit = commit) ∧
      ∀ op ∈ ops, DataKey op.1 := by
  unfold status at ht
  cases hr : readOutcome J store txnId with
  | none => rw [hr] at ht; cases ht
  | some rec =>
    rw [hr] at ht
    cases hc : rec.commit with simp only [hc] at ht
    | true =>
      cases ht
      exact ⟨⟨rec, rfl, hc⟩, (h.outcomes txnId rec hr).getD node⟩
    | false =>
      cases ht
      exact ⟨⟨rec, rfl, hc⟩, fun _ hop => (nomatch hop)⟩

variable {commitTs : Nat}

theorem recordOk_participantOutcome {now : Nat} {bind : Addr} {indexOps : List WireOp}
    (h : ∀ op ∈ indexOps, DataKey op.1) :
    RecordOk (participantOutcome now commitTs bind commit indexOps) where
  mapped node ops hg := by
    unfold participantOutcome at hg
    split at hg
    · rw [SortedMap.get_put] at hg
      split at hg
      · cases hg
        exact h
      · cases hg
    · cases hg
  own := h

/-! ## The records after a write -/

variable {store : Store} {txnId : TxnId}

theorem readOutcome_congr {s t : Store}
    (h : s.get (outcomeKey txnId) = t.get (outcomeKey txnId)) :
    readOutcome J s txnId = readOutcome J t txnId := by
  rw [readOutcome, readOutcome, h]

variable {after : Store}

theorem StoreOk.congr (h : StoreOk J store)
    (hm : ∀ t, after.get (markerKey t) = store.get (markerKey t))
    (ho : ∀ t, after.get (outcomeKey t) = store.get (outcomeKey t)) : StoreOk J after where
  markers t k hk := h.markers t k (by rwa [← stagedKeys_congr (hm t)])
  outcomes t rec hr := h.outcomes t rec (by rwa [← readOutcome_congr (ho t)])

theorem StoreOk.vote {env : VoteEnv} {coordinator : Addr} {readTs : Nat} {entries : List Entry}
    {segments : List PendingSegment} {v : Vote} (h : StoreOk J store)
    (hent : UniqueEntriesOk entries)
    (hv : vote J env store txnId coordinator commitTs readTs entries segments = .ok (v, after)) :
    StoreOk J after ∧ (∀ t, readOutcome J after t = readOutcome J store t) ∧
      ∀ t, txnId ≠ t → readMarker J after t = readMarker J store t := by
  rcases vote_inv hv with ⟨-, -, rfl⟩ | ⟨rfl, hcheck, metas, hmetas, hafter⟩
  · exact ⟨h, fun _ => rfl, fun _ _ => rfl⟩
  · have hrow := fun e he => rowOrUniqueKey_of_entry hent hcheck (e := e) he
    have hout : ∀ t, after.get (outcomeKey t) = store.get (outcomeKey t) := fun t => by
      rw [hafter, get_outcomeKey_prepare hrow hmetas]
    refine ⟨⟨h.markers.vote hent hv, fun t rec hr => ?_⟩, fun t => readOutcome_congr (hout t),
      fun t ht => readMarker_congr ?_⟩
    · exact h.outcomes t rec (by rwa [← readOutcome_congr (hout t)])
    · rw [hafter, get_markerKey_prepare hrow hmetas, if_neg ht]

section Decide

variable {now : Nat} {bind : Addr} {commit : Bool} {indexOps : List WireOp}

theorem readMarker_decide (h : StoreOk J store) (hops : ∀ op ∈ indexOps, DataKey op.1)
    (t : TxnId) :
    readMarker J (Participant.decide J now store txnId bind commit indexOps).1 t =
      if txnId = t then none else readMarker J store t := by
  rw [readMarker, get_markerKey_decide (h.markers txnId) hops]
  split
  · rfl
  · rfl

theorem readOutcome_decide (h : StoreOk J store) (hops : ∀ op ∈ indexOps, DataKey op.1)
    (t : TxnId) :
    readOutcome J (Participant.decide J now store txnId bind commit indexOps).1 t =
      if txnId = t then
        some (participantOutcome now (((readMarker J store txnId).map (·.commitTs)).getD 0) bind
          commit indexOps)
      else readOutcome J store t := by
  rw [readOutcome, get_outcomeKey_decide (h.markers txnId) hops]
  split
  · rw [bind_some, J.outcome.fromSlice_toVec]
  · rfl

theorem StoreOk.decide (h : StoreOk J store) (hops : ∀ op ∈ indexOps, DataKey op.1) :
    StoreOk J (Participant.decide J now store txnId bind commit indexOps).1 where
  markers := h.markers.decide hops
  outcomes t rec hr := by
    rw [readOutcome_decide h hops] at hr
    split at hr
    · cases hr
      exact recordOk_participantOutcome hops
    · exact h.outcomes t rec hr

end Decide

def recordOutcome (J : Serde) (store : Store) (txnId : TxnId) (rec : OutcomeRecord) : Store :=
  store.write [.put (outcomeKey txnId) (J.outcome.toVec rec)]

theorem get_recordOutcome (rec : OutcomeRecord) (k : Bytes) :
    (recordOutcome J store txnId rec).get k =
      if outcomeKey txnId = k then some (J.outcome.toVec rec) else store.get k := by
  rw [recordOutcome, SortedMap.get_write, lastWrite_cons, lastWrite_nil, BatchOp.key_put]
  split <;> rfl

theorem readMarker_recordOutcome (rec : OutcomeRecord) (t : TxnId) :
    readMarker J (recordOutcome J store txnId rec) t = readMarker J store t :=
  readMarker_congr (by rw [get_recordOutcome, if_neg (markerKey_ne_outcomeKey t txnId).symm])

theorem readOutcome_recordOutcome (rec : OutcomeRecord) (t : TxnId) :
    readOutcome J (recordOutcome J store txnId rec) t =
      if txnId = t then some rec else readOutcome J store t := by
  rw [readOutcome, get_recordOutcome]
  simp only [outcomeKey_inj]
  split
  · rw [bind_some, J.outcome.fromSlice_toVec]
  · rfl

theorem StoreOk.recordOutcome (h : StoreOk J store) (hr : RecordOk rec) :
    StoreOk J (recordOutcome J store txnId rec) where
  markers t k hk := by
    rw [stagedKeys, readMarker_recordOutcome] at hk
    exact h.markers t k hk
  outcomes t rec' ht := by
    rw [readOutcome_recordOutcome] at ht
    split at ht
    · cases ht
      exact hr
    · exact h.outcomes t rec' ht

theorem get_gcOutcomes (now : Nat) (k : Bytes) :
    (gcOutcomes J now store).get k =
      if k ∈ (staleOutcomes J now store).map outcomeKey then none else store.get k := by
  have hmap : ((staleOutcomes J now store).map fun id => (.del (outcomeKey id) : WriteOp)) =
      ((staleOutcomes J now store).map outcomeKey).map .del := by
    rw [List.map_map]
    rfl
  rw [gcOutcomes, hmap, SortedMap.get_write, lastWrite_map_del]
  split <;> rfl

theorem readMarker_gcOutcomes (now : Nat) (t : TxnId) :
    readMarker J (gcOutcomes J now store) t = readMarker J store t := by
  refine readMarker_congr ?_
  rw [get_gcOutcomes, if_neg]
  intro hmem
  obtain ⟨id, -, hid⟩ := List.mem_map.mp hmem
  exact markerKey_ne_outcomeKey t id hid.symm

theorem readOutcome_gcOutcomes (now : Nat) (t : TxnId) :
    readOutcome J (gcOutcomes J now store) t =
      if t ∈ staleOutcomes J now store then none else readOutcome J store t := by
  have hmem : outcomeKey t ∈ (staleOutcomes J now store).map outcomeKey ↔
      t ∈ staleOutcomes J now store := by
    refine ⟨fun h => ?_, List.mem_map_of_mem⟩
    obtain ⟨id, hid, heq⟩ := List.mem_map.mp h
    rwa [← outcomeKey_inj.mp heq]
  rw [readOutcome, get_gcOutcomes]
  simp only [hmem]
  split <;> rfl

theorem StoreOk.gcOutcomes (h : StoreOk J store) (now : Nat) :
    StoreOk J (gcOutcomes J now store) where
  markers t k hk := by
    rw [stagedKeys, readMarker_gcOutcomes] at hk
    exact h.markers t k hk
  outcomes t rec ht := by
    rw [readOutcome_gcOutcomes] at ht
    split at ht
    · cases ht
    · exact h.outcomes t rec ht

/-- Writes of the rest of the node: they stay off the records. -/
def Foreign (ops : List WriteOp) : Prop :=
  ∀ op ∈ ops, ¬ markerPrefix <+: op.key ∧ ¬ outcomePrefix <+: op.key
  deriving Decidable

theorem Foreign.get {ops : List WriteOp} (h : Foreign ops) (t : TxnId) :
    (store.write ops).get (markerKey t) = store.get (markerKey t) ∧
      (store.write ops).get (outcomeKey t) = store.get (outcomeKey t) := by
  refine ⟨SortedMap.get_write_of_not_mem fun op hop heq => (h op hop).1 ?_,
    SortedMap.get_write_of_not_mem fun op hop heq => (h op hop).2 ?_⟩
  · rw [heq]
    exact List.prefix_append _ _
  · rw [heq]
    exact List.prefix_append _ _

theorem readMarker_of_mem_markers {m : Marker} (h : (txnId, m) ∈ markers J store) :
    readMarker J store txnId = some m := by
  obtain ⟨e, he, hm⟩ := List.mem_filterMap.mp h
  obtain ⟨m', hm', heq⟩ := map_eq_some_iff.mp hm
  cases heq
  obtain ⟨hget, hpre⟩ := Store.mem_prefixIterCollect he
  obtain ⟨id, hid⟩ := hpre
  have hkey : markerKey (e.1.drop markerPrefix.length) = e.1 := by
    rw [← hid]
    rfl
  rw [readMarker, hkey, hget, bind_some, hm']

end Rdb.Dist
