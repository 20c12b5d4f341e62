import Rdb.Dist.InDoubt
import Rdb.Sql.Scan

/-!
# Concurrent votes on one node

`vote` checks its entries one after the other against the store and then writes one
batch. Prepares that arrive over the wire hold the node-wide mutex from the first
check to the batch; the node's own coordinator calls `vote` without it, so its checks
and its batch can fall between those of another vote. Here a vote takes one step for
every entry it checks and one for its batch.

`votes_exclude`: when two accepted and undecided votes share no row and no unique key.
-/

namespace Rdb.Dist

open Lib Sql Participant List Option
open SortedMap (empty)

structure VoteCall where
  txnId : TxnId
  coordinator : Addr
  commitTs : Nat
  readTs : Nat
  entries : List Entry
  segments : List PendingSegment
  /-- The call comes from the wire, under the mutex. -/
  rpc : Bool
  deriving DecidableEq

inductive VotePhase where
  | waiting
  /-- The unique keys claimed by the entries checked so far, and the entries to check. -/
  | reading (claimed : List (Bytes × Bytes)) (rest : List Entry)
  | yes
  | no
  | decided
  deriving DecidableEq

structure VoteNode where
  store : Store
  calls : List (VoteCall × VotePhase)
  /-- The call that holds the mutex. -/
  mux : Option Nat

inductive VoteAction where
  | arrive (call : VoteCall)
  | start (c : Nat)
  | read (c : Nat)
  | stage (c : Nat) (env : VoteEnv)
  | decide (c : Nat) (now : Nat) (bind : Addr) (commit : Bool) (indexOps : List WireOp)

def VoteCall.vacated (call : VoteCall) : List Bytes :=
  (call.entries.filter (·.kind = .uniqueDel)).map (·.key)

/-- Segments are not sent over the wire. -/
def VoteCall.ownSegments (call : VoteCall) : List PendingSegment :=
  if call.rpc then [] else call.segments

namespace VoteNode

variable (s : VoteNode)

def setPhase (c : Nat) (call : VoteCall) (phase : VotePhase) : VoteNode :=
  { s with calls := s.calls.set c (call, phase) }

/-- The call is over: the mutex is free again if it was the call's. -/
def finish (c : Nat) (call : VoteCall) (phase : VotePhase) : VoteNode :=
  { s.setPhase c call phase with mux := if s.mux = some c then none else s.mux }

end VoteNode

section

variable (J : Serde)

/-- The last step of a vote: the segments and the batch. -/
def stageVote (env : VoteEnv) (s : VoteNode) (c : Nat) (call : VoteCall) : VoteNode :=
  match checkSegments env call.ownSegments with
  | .ok none => match call.ownSegments.mapM (stageSegment J env) with
    | .ok metas =>
      let m : Marker :=
        { coordinator := call.coordinator, readTs := call.readTs, commitTs := call.commitTs,
          startedAt := env.now, keys := call.entries.map (·.key) ++ metas.map (·.1) }
      let ops := prepareOps J call.txnId m call.entries metas
        (stagedMaxTs call.entries call.ownSegments)
      { s with store := s.store.write ops }.finish c call .yes
    | .error _ => s.finish c call .no
  | _ => s.finish c call .no

def voteStep (s : VoteNode) : VoteAction → Option VoteNode
  | .arrive call =>
    if s.calls.any fun p => p.1.txnId == call.txnId then none
    else some { s with calls := s.calls ++ [(call, .waiting)] }
  | .start c => match s.calls[c]? with
    | some (call, .waiting) =>
      if call.rpc then
        if s.mux.isSome then none
        else some { s.setPhase c call (.reading [] call.entries) with mux := some c }
      else some (s.setPhase c call (.reading [] call.entries))
    | _ => none
  | .read c => match s.calls[c]? with
    | some (call, .reading claimed (e :: rest)) =>
      match checkEntry s.store call.commitTs call.readTs call.vacated claimed e with
      | .ok none => some (s.setPhase c call (.reading (claim claimed e) rest))
      | _ => some (s.finish c call .no)
    | _ => none
  | .stage c env => match s.calls[c]? with
    | some (call, .reading _ []) => some (stageVote J env s c call)
    | _ => none
  | .decide c now bind commit indexOps => match s.calls[c]? with
    | some (call, .yes) =>
      let store := (Participant.decide J now s.store call.txnId bind commit indexOps).1
      some { s.setPhase c call .decided with store }
    | _ => none

end

/-! ## What two slices share -/

def Entry.row (e : Entry) : Option (Nat × Bytes) :=
  if e.kind = .rowPrepared then (parseVersionKey e.key).map fun v => (v.tableId, v.pk) else none

variable {e : Entry}

theorem Entry.of_row (h : e.row.isSome) :
    e.kind = .rowPrepared ∧ ∃ v, parseVersionKey e.key = some v ∧ e.row = some (v.tableId, v.pk) := by
  unfold Entry.row at h ⊢
  split at h
  · next hk =>
    rw [if_pos hk]
    obtain ⟨v, hv⟩ := isSome_iff_exists.mp (isSome_map.symm.trans h)
    exact ⟨hk, v, hv, by rw [hv]; rfl⟩
  · cases h

def SharesRow (es es' : List Entry) : Prop :=
  ∃ e ∈ es, ∃ e' ∈ es', e.row.isSome ∧ e.row = e'.row
  deriving Decidable

/-- Both claim a unique key, for different primary keys. -/
def SharesKey (es es' : List Entry) : Prop :=
  ∃ e ∈ es, ∃ e' ∈ es', e.kind = .uniquePut ∧ e'.kind = .uniquePut ∧ e.key = e'.key ∧
    e.value ≠ e'.value
  deriving Decidable

/-- The first deletes a unique key that the second claims. -/
def Vacates (es es' : List Entry) : Prop :=
  ∃ e ∈ es, ∃ e' ∈ es', e.kind = .uniqueDel ∧ e'.kind = .uniquePut ∧ e.key = e'.key
  deriving Decidable

/-- Accepted and undecided votes whose read points precede each other's commit share no row and
claim no unique key for different rows. -/
def VotesExclude (s : VoteNode) : Prop :=
  ∀ (i j : Nat) (a b : VoteCall), i ≠ j →
    s.calls[i]? = some (a, .yes) → s.calls[j]? = some (b, .yes) →
    a.readTs < b.commitTs → b.readTs < a.commitTs →
      ¬ SharesRow a.entries b.entries ∧ ¬ SharesKey a.entries b.entries

/-! ## The condition -/

/-- The vote has begun to read and has not written its batch. -/
def VotePhase.active : VotePhase → Bool
  | .reading .. => true
  | _ => false

/-- The vote is active, or accepted and undecided. -/
def VotePhase.live : VotePhase → Bool
  | .reading .. | .yes => true
  | _ => false

/-- The shape of a slice: row versions stand in the slot of their primary key with a timestamp of
the transaction's range; the other entries are unique keys; a claim names a primary key and is not
deleted again. -/
@[mk_iff] structure CallOk (call : VoteCall) : Prop where
  rows : ∀ e ∈ call.entries, e.kind = .rowPrepared → ∀ v ∈ parseVersionKey e.key,
    e.key = versionKey (slotOf v.tableId v.pk) v.tableId v.pk v.ts ∧ call.commitTs ≤ v.ts
  keys : ∀ e ∈ call.entries, e.kind ≠ .rowPrepared → UniqueKey e.key
  values : ∀ e ∈ call.entries, e.kind = .uniquePut → e.value ≠ []
  order : call.entries.Pairwise fun e d =>
    e.kind = .uniquePut → d.kind = .uniqueDel → e.key ≠ d.key

instance decidableCallOk (call : VoteCall) : Decidable (CallOk call) :=
  decidable_of_iff' _ (callOk_iff call)

def VoteNode.next (s : VoteNode) (c : Nat) : Option (VoteCall × Entry) :=
  match s.calls[c]? with
  | some (call, .reading _ (e :: _)) => some (call, e)
  | _ => none

/-- A vote begins while no active vote shares a row or a claimed key with it and no vote that is
active or accepted stands to lose a claim to it, or it to an active one. A row check finds only
versions of its row under the row's prefix, and no version of another transaction above its read
point that carries one of its own timestamps. A decision leaves the keys of other accepted votes
alone. -/
def VoteGuard (J : Serde) (s : VoteNode) : VoteAction → Prop
  | .start c => ∀ p ∈ s.calls[c]?, CallOk p.1 ∧ ∀ q ∈ s.calls,
      (q.2.active → ¬ SharesRow p.1.entries q.1.entries ∧
        ¬ SharesKey p.1.entries q.1.entries ∧ ¬ Vacates q.1.entries p.1.entries) ∧
      (q.2.live → ¬ Vacates p.1.entries q.1.entries)
  | .read c => ∀ p ∈ s.next c, p.2.kind = .rowPrepared → ∀ v ∈ parseVersionKey p.2.key,
      PkAlone s.store v.tableId v.pk ∧ ∀ n ∈ newestVersionTs s.store v.tableId v.pk,
        n ≤ p.1.readTs ∨ n ≠ p.1.commitTs ∧ n ≠ v.ts
  | .decide c _ _ commit indexOps => ∀ p ∈ s.calls[c]?,
      ∀ op ∈ decideBody J s.store (stagedKeys J s.store p.1.txnId) commit indexOps,
      ∀ q ∈ s.calls, q.2 = .yes → q.1.txnId ≠ p.1.txnId →
        ∀ e ∈ q.1.entries, e.kind ≠ .uniqueDel → op.key ≠ e.key
  | _ => True

instance decidableVoteGuard (J : Serde) (s : VoteNode) (a : VoteAction) :
    Decidable (VoteGuard J s a) := by
  cases a <;> dsimp only [VoteGuard] <;> infer_instance

/-! ## The checks -/

variable {es : List Entry}

section

variable {store : Store} {commitTs readTs : Nat} {vacated : List Bytes}
  {claimed : List (Bytes × Bytes)} {e : Entry}

theorem checkEntry_row {v : VersionKey} {n : Nat} (hk : e.kind = .rowPrepared)
    (hv : parseVersionKey e.key = some v) (hn : newestVersionTs store v.tableId v.pk = some n)
    (h : checkEntry store commitTs readTs vacated claimed e = .ok none) :
    n ≤ readTs ∨ n = commitTs ∨ n = v.ts := by
  simp only [checkEntry, hk, hv, hn] at h
  split at h
  · cases h
  · next hc =>
    by_contra hcon
    exact hc (by omega)

theorem checkEntry_put (hk : e.kind = .uniquePut)
    (h : checkEntry store commitTs readTs vacated claimed e = .ok none) :
    (∀ first, claimed.lookup e.key = some first → first = e.value) ∧
      (e.key ∉ vacated → ∀ owner, store.get e.key = some owner → owner ≠ [] → owner = e.value) := by
  have howner : checkOwner store vacated e = none →
      e.key ∉ vacated → ∀ owner, store.get e.key = some owner → owner ≠ [] → owner = e.value := by
    intro hnone hvac owner hget hne
    have hfilter : (some owner).filter (fun v : Bytes => !v.isEmpty) = some owner := by
      simp [hne]
    rw [checkOwner, if_neg hvac, hget, hfilter] at hnone
    dsimp only at hnone
    split at hnone
    · cases hnone
    · next heq => exact not_not.mp heq
  simp only [checkEntry, hk] at h
  cases hl : claimed.lookup e.key with
  | none =>
    rw [hl] at h
    exact ⟨fun _ h' => (nomatch h'), howner (Except.ok.inj h)⟩
  | some first =>
    rw [hl] at h
    dsimp only at h
    split at h
    · cases h
    · next heq =>
      refine ⟨fun _ h' => ?_, howner (Except.ok.inj h)⟩
      cases h'
      exact not_not.mp heq

def Recorded (claimed : List (Bytes × Bytes)) (es : List Entry) : Prop :=
  ∀ e ∈ es, e.kind = .uniquePut → claimed.lookup e.key = some e.value

theorem Recorded.claim (h : Recorded claimed es)
    (hcheck : checkEntry store commitTs readTs vacated claimed e = .ok none) :
    Recorded (claim claimed e) (es ++ [e]) := by
  -- what is on record stays there
  have hkeep : ∀ k v, claimed.lookup k = some v → (Participant.claim claimed e).lookup k = some v := by
    intro k v hv
    unfold Participant.claim
    split
    · next hl =>
      have hne : k ≠ e.key := fun heq => by rw [← heq, hv] at hl; cases hl
      rw [lookup_cons, beq_false_of_ne hne]
      exact hv
    · exact hv
  intro e' he' hk'
  rcases mem_append.mp he' with he' | he'
  · exact hkeep _ _ (h e' he' hk')
  · cases mem_singleton.mp he'
    cases hl : claimed.lookup e.key with
    | some first => exact hkeep _ _ (((checkEntry_put hk' hcheck).1 first hl) ▸ hl)
    | none => simp [Participant.claim, hk', hl]

end

/-! ## What an accepted vote leaves -/

def Staged (store : Store) (call : VoteCall) : Prop :=
  ∀ e ∈ call.entries, (e.kind = .rowPrepared → (store.get e.key).isSome) ∧
    (e.kind = .uniquePut → store.get e.key = some e.value)

variable {store : Store} {call : VoteCall}

theorem Staged.congr {store' : Store} (h : Staged store call)
    (hget : ∀ e ∈ call.entries, e.kind ≠ .uniqueDel → store'.get e.key = store.get e.key) :
    Staged store' call := by
  intro e he
  refine ⟨fun hk => ?_, fun hk => ?_⟩
  · rw [hget e he (by rw [hk]; decide)]
    exact (h e he).1 hk
  · rw [hget e he (by rw [hk]; decide)]
    exact (h e he).2 hk

/-- The keys of the rows can be read back. -/
def Parsed (es : List Entry) : Prop :=
  ∀ e ∈ es, e.kind = .rowPrepared → (parseVersionKey e.key).isSome

theorem CallOk.dataKey (h : CallOk call) (he : e ∈ call.entries)
    (hp : e.kind = .rowPrepared → (parseVersionKey e.key).isSome) : DataKey e.key := by
  by_cases hk : e.kind = .rowPrepared
  · obtain ⟨v, hv⟩ := isSome_iff_exists.mp (hp hk)
    exact dataKey_of_parseVersionKey hv
  · exact (h.keys e he hk).dataKey

theorem val_stageEntry (hk : e.kind ≠ .uniqueDel) : (stageEntry e).val = some e.value := by
  unfold stageEntry
  split
  · next hdel => exact absurd hdel hk
  · rfl

theorem isSome_get_row (hs : CallOk call) {k : Bytes} (hk : (parseVersionKey k).isSome)
    (h : (store.get k).isSome ∨ ∃ e ∈ call.entries, e.key = k) :
    ((lastWrite k (call.entries.map stageEntry)).getD (store.get k)).isSome := by
  cases hl : lastWrite k (call.entries.map stageEntry) with
  | none =>
    rcases h with h | ⟨e, he, hek⟩
    · exact h
    · exact absurd ((key_stageEntry e).trans hek)
        (lastWrite_eq_none.mp hl _ (mem_map_of_mem he))
  | some r =>
    obtain ⟨op, hop, hkey, rfl⟩ := exists_of_lastWrite hl
    obtain ⟨e, he, rfl⟩ := mem_map.mp hop
    rw [key_stageEntry] at hkey
    have hrow : e.kind = .rowPrepared := by
      by_contra hne
      rw [← hkey, (hs.keys e he hne).parseVersionKey] at hk
      cases hk
    rw [val_stageEntry (by rw [hrow]; decide)]
    rfl

variable {claimed : List (Bytes × Bytes)}

theorem lastWrite_claim (hs : CallOk call) (hparse : Parsed call.entries)
    (hrec : Recorded claimed call.entries) (he : e ∈ call.entries) (hk : e.kind = .uniquePut) :
    lastWrite e.key (call.entries.map stageEntry) = some (some e.value) := by
  have hne : e.kind ≠ .rowPrepared := by rw [hk]; decide
  -- a put on the key is a claim
  have hput : ∀ d ∈ call.entries, d.key = e.key → (stageEntry d).val.isSome →
      d.kind = .uniquePut := by
    intro d hd hdk hsome
    cases hkd : d.kind with
    | rowPrepared =>
      have := hparse d hd hkd
      rw [hdk, (hs.keys e he hne).parseVersionKey] at this
      cases this
    | uniquePut => rfl
    | uniqueDel => simp [stageEntry, hkd] at hsome
  refine lastWrite_of_putsLast ?_ ?_ (mem_map_of_mem he) (key_stageEntry e)
    (val_stageEntry (by rw [hk]; decide))
  · refine pairwise_map.mpr (hs.order.imp_of_mem fun {a b} ha hb hab hak hbk hsome => ?_)
    rw [key_stageEntry] at hak hbk
    rw [val_stageEntry fun hdel => hab (hput a ha hak hsome) hdel (hak.trans hbk.symm)]
    rfl
  · intro op hop hopk w hw
    obtain ⟨d, hd, rfl⟩ := mem_map.mp hop
    rw [key_stageEntry] at hopk
    have hdput := hput d hd hopk (by rw [hw]; rfl)
    rw [val_stageEntry (by rw [hdput]; decide)] at hw
    have hsame := (hrec d hd hdput).symm.trans (hopk ▸ hrec e he hk)
    rw [← some.inj hw]
    exact some.inj hsame

/-! ## The invariant -/

/-- The entries of a vote that have been checked meet no claim of an accepted vote, and none of its
rows when the two overlap. -/
def Clear (a b : VoteCall) (es : List Entry) : Prop :=
  ¬ SharesKey es b.entries ∧
    (a.readTs < b.commitTs → b.readTs < a.commitTs → ¬ SharesRow es b.entries)

def Checked (p : VoteCall × VotePhase) (es : List Entry) : Prop :=
  p.2 = .yes ∧ es = p.1.entries ∨ ∃ claimed rest, p.2 = .reading claimed rest ∧ p.1.entries = es ++ rest

structure CallInv (store : Store) (p : VoteCall × VotePhase) : Prop where
  shape : p.2.live → CallOk p.1
  parsed : ∀ es, Checked p es → Parsed es
  staged : p.2 = .yes → Staged store p.1
  progress : ∀ claimed rest, p.2 = .reading claimed rest →
    ∃ done, p.1.entries = done ++ rest ∧ Recorded claimed done

structure PairInv (p q : VoteCall × VotePhase) : Prop where
  ids : p.1.txnId ≠ q.1.txnId
  apart : p.2.active → q.2.active →
    ¬ SharesRow p.1.entries q.1.entries ∧ ¬ SharesKey p.1.entries q.1.entries
  vacate : p.2.active → q.2.live → ¬ Vacates p.1.entries q.1.entries
  clear : q.2 = .yes → ∀ es, Checked p es → Clear p.1 q.1 es

structure VotesOk (s : VoteNode) : Prop where
  calls : ∀ (i : Nat) (p : VoteCall × VotePhase), s.calls[i]? = some p → CallInv s.store p
  pairs : ∀ (i j : Nat) (p q : VoteCall × VotePhase), i ≠ j → s.calls[i]? = some p →
    s.calls[j]? = some q → PairInv p q

variable {J : Serde} {s s' : VoteNode} {es' : List Entry} {ph : VotePhase} {c : Nat}

theorem VotesOk.exclude (h : VotesOk s) : VotesExclude s := by
  intro i j a b hij hi hj hlt hlt'
  obtain ⟨hkey, hrow⟩ := (h.pairs i j _ _ hij hi hj).clear rfl _ (.inl ⟨rfl, rfl⟩)
  exact ⟨hrow hlt hlt', hkey⟩

theorem VotesOk.set (h : VotesOk s) {p p' : VoteCall × VotePhase} (hc : s.calls[c]? = some p)
    (hcalls : s'.calls = s.calls.set c p') (hself : CallInv s'.store p')
    (hothers : ∀ (i : Nat) (q : VoteCall × VotePhase), i ≠ c → s.calls[i]? = some q →
      CallInv s'.store q ∧ PairInv p' q ∧ PairInv q p') : VotesOk s' := by
  have hget : ∀ i : Nat, s'.calls[i]? = if c = i then some p' else s.calls[i]? := fun i => by
    rw [hcalls, getElem?_set]
    by_cases hi : c = i
    · rw [if_pos hi, if_pos hi, if_pos (List.getElem?_eq_some_iff.mp hc).1]
    · rw [if_neg hi, if_neg hi]
  constructor
  · intro i q hi
    rw [hget] at hi
    split at hi
    · cases hi
      exact hself
    · next hci => exact (hothers i q (Ne.symm hci) hi).1
  · intro i j q r hij hi hj
    rw [hget] at hi hj
    split at hi
    · next hci =>
      cases hi
      rw [if_neg (hci ▸ hij)] at hj
      exact (hothers j r (hci ▸ hij.symm) hj).2.1
    · next hci =>
      split at hj
      · cases hj
        exact (hothers i q (Ne.symm hci) hi).2.2
      · exact h.pairs i j q r hij hi hj

theorem SharesRow.symm (h : SharesRow es es') : SharesRow es' es := by
  obtain ⟨e, he, e', he', hsome, heq⟩ := h
  exact ⟨e', he', e, he, heq ▸ hsome, heq.symm⟩

theorem SharesKey.symm (h : SharesKey es es') : SharesKey es' es := by
  obtain ⟨e, he, e', he', hk, hk', hkey, hne⟩ := h
  exact ⟨e', he', e, he, hk', hk, hkey.symm, hne.symm⟩

theorem Clear.symm {a b : VoteCall} (h : Clear a b a.entries) : Clear b a b.entries :=
  ⟨fun hs => h.1 hs.symm, fun hlt hlt' hs => h.2 hlt' hlt hs.symm⟩

theorem Clear.append {a b : VoteCall} {es ds : List Entry} (h : Clear a b es) (h' : Clear a b ds) :
    Clear a b (es ++ ds) := by
  refine ⟨?_, fun hlt hlt' => ?_⟩
  · rintro ⟨e, he, rest⟩
    exact (mem_append.mp he).elim (fun he => h.1 ⟨e, he, rest⟩) fun he => h'.1 ⟨e, he, rest⟩
  · rintro ⟨e, he, rest⟩
    exact (mem_append.mp he).elim (fun he => h.2 hlt hlt' ⟨e, he, rest⟩)
      fun he => h'.2 hlt hlt' ⟨e, he, rest⟩

theorem clear_of_apart {a b : VoteCall} (hrow : ¬ SharesRow a.entries b.entries)
    (hkey : ¬ SharesKey a.entries b.entries) (hsub : ∀ e ∈ es, e ∈ a.entries) : Clear a b es :=
  ⟨fun ⟨e, he, rest⟩ => hkey ⟨e, hsub e he, rest⟩,
    fun _ _ ⟨e, he, rest⟩ => hrow ⟨e, hsub e he, rest⟩⟩

section

variable {p q : VoteCall × VotePhase}

theorem Checked.live (h : Checked p es) : p.2.live := by
  rcases h with ⟨h, -⟩ | ⟨_, _, h, -⟩
  · rw [h]
    rfl
  · rw [h]
    rfl

theorem Checked.subset (h : Checked p es) : ∀ e ∈ es, e ∈ p.1.entries := by
  rcases h with ⟨-, rfl⟩ | ⟨_, rest, -, heq⟩
  · exact fun _ he => he
  · exact fun _ he => heq ▸ mem_append_left rest he

theorem checked_yes : Checked (call, .yes) es ↔ es = call.entries := by
  simp [Checked]

theorem checked_reading {rest : List Entry} :
    Checked (call, .reading claimed rest) es ↔ call.entries = es ++ rest := by
  simp [Checked]

theorem VotePhase.live_of_active (h : ph.active) : ph.live := by
  cases ph with
  | reading claimed rest => rfl
  | _ => cases h

theorem callInv_of_not_live (h : ph.live = false) : CallInv store (call, ph) := by
  have hno : ph.live ≠ true := by rw [h]; decide
  refine ⟨fun hl => absurd hl hno, fun es hes => absurd hes.live hno, ?_, ?_⟩
  · rintro rfl
    cases h
  · rintro claimed rest rfl
    cases h

theorem pairInv_of_not_live (h : ph.live = false) (hid : call.txnId ≠ q.1.txnId) :
    PairInv (call, ph) q ∧ PairInv q (call, ph) := by
  have hno : ph.live ≠ true := by rw [h]; decide
  have hactive : ph.active ≠ true := fun ha => hno (VotePhase.live_of_active ha)
  refine ⟨⟨hid, fun ha => absurd ha hactive, fun ha => absurd ha hactive,
    fun _ es hes => absurd hes.live hno⟩, ⟨hid.symm, fun _ ha => absurd ha hactive,
    fun _ hl => absurd hl hno, ?_⟩⟩
  rintro rfl
  cases h

end

theorem VotesOk.retire (h : VotesOk s) {ph' : VotePhase} (hc : s.calls[c]? = some (call, ph))
    (hlive : ph'.live = false) (hcalls : s'.calls = s.calls.set c (call, ph'))
    (hstaged : ∀ (i : Nat) (a : VoteCall), i ≠ c → s.calls[i]? = some (a, .yes) →
      Staged s'.store a) : VotesOk s' := by
  refine h.set hc hcalls (callInv_of_not_live hlive) fun i q hic hi => ⟨?_, ?_⟩
  · exact { h.calls i q hi with staged := fun hyes => hstaged i q.1 hic (by rw [hi, ← hyes]) }
  · exact pairInv_of_not_live hlive (h.pairs c i _ _ hic.symm hc hi).ids

theorem VotesOk.refuse (h : VotesOk s) (hc : s.calls[c]? = some (call, ph)) :
    VotesOk (s.finish c call .no) :=
  h.retire hc rfl rfl fun i _ _ hi => (h.calls i _ hi).staged rfl

theorem VotesOk.arrive (h : VotesOk s) (hnew : ∀ p ∈ s.calls, p.1.txnId ≠ call.txnId) :
    VotesOk { s with calls := s.calls ++ [(call, .waiting)] } := by
  have hget : ∀ (i : Nat) (p : VoteCall × VotePhase),
      (s.calls ++ [(call, VotePhase.waiting)])[i]? = some p →
        s.calls[i]? = some p ∨ p = (call, .waiting) ∧ i = s.calls.length := by
    intro i p hi
    rw [getElem?_append] at hi
    split at hi
    · exact .inl hi
    · obtain ⟨hi0, hp⟩ := List.getElem?_eq_some_iff.mp hi
      rw [length_singleton] at hi0
      have hzero : i - s.calls.length = 0 := by omega
      have hp' : (call, VotePhase.waiting) = p := by simpa [hzero] using hp
      exact .inr ⟨hp'.symm, by omega⟩
  constructor
  · intro i p hi
    rcases hget i p hi with hi | ⟨rfl, -⟩
    · exact h.calls i p hi
    · exact callInv_of_not_live rfl
  · intro i j p q hij hi hj
    rcases hget i p hi with hi | ⟨rfl, hilen⟩
    · rcases hget j q hj with hj | ⟨rfl, -⟩
      · exact h.pairs i j p q hij hi hj
      · exact (pairInv_of_not_live rfl (hnew p (mem_of_getElem? hi)).symm).2
    · rcases hget j q hj with hj | ⟨rfl, hjlen⟩
      · exact (pairInv_of_not_live rfl (hnew q (mem_of_getElem? hj)).symm).1
      · exact absurd (hilen.trans hjlen.symm) hij

theorem VotesOk.start (h : VotesOk s) (hc : s.calls[c]? = some (call, .waiting))
    (hg : VoteGuard J s (.start c)) (hstore : s'.store = s.store)
    (hcalls : s'.calls = (s.setPhase c call (.reading [] call.entries)).calls) : VotesOk s' := by
  obtain ⟨hshape, hguard⟩ := hg _ hc
  have hnil : ∀ es, Checked (call, .reading [] call.entries) es → es = [] := fun es hes =>
    append_left_eq_self.mp (checked_reading.mp hes).symm
  refine h.set hc hcalls ⟨fun _ => hshape, ?_, fun hyes => (nomatch hyes), ?_⟩ fun i q hic hi => ?_
  · intro es hes
    rw [hnil es hes]
    exact fun _ he => (nomatch he)
  · rintro claimed rest ⟨⟩
    exact ⟨[], rfl, fun _ he => (nomatch he)⟩
  · have hq := hstore ▸ h.calls i q hi
    obtain ⟨hactive, hlive⟩ := hguard q (mem_of_getElem? hi)
    have hid := (h.pairs c i _ _ hic.symm hc hi).ids
    refine ⟨hq, ⟨hid, fun _ ha => ⟨(hactive ha).1, (hactive ha).2.1⟩, fun _ => hlive, ?_⟩,
      ⟨hid.symm, fun ha _ => ⟨fun hs => (hactive ha).1 hs.symm, fun hs => (hactive ha).2.1 hs.symm⟩,
        fun ha _ => (hactive ha).2.2, fun hyes => (nomatch hyes)⟩⟩
    intro _ es hes
    rw [hnil es hes]
    exact ⟨fun ⟨e, he, _⟩ => (nomatch he), fun _ _ ⟨e, he, _⟩ => (nomatch he)⟩

section

variable {store : Store} {call b : VoteCall} {claimed : List (Bytes × Bytes)} {e : Entry}

theorem not_sharesKey_of_check (hb : CallOk b) (hstaged : Staged store b)
    (hvac : ¬ Vacates call.entries b.entries)
    (hcheck : checkEntry store call.commitTs call.readTs call.vacated claimed e = .ok none) :
    ¬ SharesKey [e] b.entries := by
  rintro ⟨d, hd, e', he', hk, hk', hkey, hne⟩
  obtain rfl := mem_singleton.mp hd
  have howner : store.get d.key = some e'.value := by
    rw [hkey]
    exact (hstaged e' he').2 hk'
  by_cases hv : d.key ∈ call.vacated
  · obtain ⟨x, hx, hxk⟩ := mem_map.mp hv
    obtain ⟨hxmem, hxdel⟩ := mem_filter.mp hx
    exact hvac ⟨x, hxmem, e', he', of_decide_eq_true hxdel, hk', hxk.trans hkey⟩
  · exact hne ((checkEntry_put hk hcheck).2 hv _ howner (hb.values e' he' hk')).symm

theorem not_sharesRow_of_check (hb : CallOk b) (hstaged : Staged store b)
    (hlt : call.readTs < b.commitTs)
    (hg : e.kind = .rowPrepared → ∀ v ∈ parseVersionKey e.key, PkAlone store v.tableId v.pk ∧
      ∀ n ∈ newestVersionTs store v.tableId v.pk, n ≤ call.readTs ∨ n ≠ call.commitTs ∧ n ≠ v.ts)
    (hcheck : checkEntry store call.commitTs call.readTs call.vacated claimed e = .ok none) :
    ¬ SharesRow [e] b.entries := by
  rintro ⟨d, hd, e', he', hsome, heq⟩
  obtain rfl := mem_singleton.mp hd
  obtain ⟨hk, v, hv, hrow⟩ := Entry.of_row hsome
  obtain ⟨hk', v', hv', hrow'⟩ := Entry.of_row (heq ▸ hsome)
  obtain ⟨htable, hpk⟩ := Prod.mk.inj (some.inj (hrow.symm.trans (heq.trans hrow')))
  obtain ⟨hkey, hts⟩ := hb.rows e' he' hk' v' hv'
  obtain ⟨halone, hown⟩ := hg hk v hv
  have hget : (store.get (versionKey (slotOf v.tableId v.pk) v.tableId v.pk v'.ts)).isSome := by
    rw [htable, hpk, ← hkey]
    exact (hstaged e' he').1 hk'
  obtain ⟨-, -, -, -, -, hlt64⟩ := eq_of_parseVersionKey hv'
  obtain ⟨n, hn, hle⟩ := le_newestVersionTs halone hlt64 hget
  have := checkEntry_row hk hv hn hcheck
  have := hown n hn
  omega

end

theorem VotesOk.read (h : VotesOk s) {rest : List Entry}
    (hc : s.calls[c]? = some (call, .reading claimed (e :: rest))) (hg : VoteGuard J s (.read c))
    (hcheck : checkEntry s.store call.commitTs call.readTs call.vacated claimed e = .ok none) :
    VotesOk (s.setPhase c call (.reading (claim claimed e) rest)) := by
  have hnext := hg (call, e) (by rw [VoteNode.next, hc]; rfl)
  have hself := h.calls c _ hc
  -- the entries checked are those before and this one
  have hdone : ∀ es, Checked (call, .reading (claim claimed e) rest) es →
      ∃ done, es = done ++ [e] ∧ Checked (call, .reading claimed (e :: rest)) done := by
    intro es hes
    obtain ⟨done, heq, -⟩ := hself.progress _ _ rfl
    have := (checked_reading.mp hes).symm.trans heq
    rw [append_cons] at this
    exact ⟨done, append_cancel_right this, checked_reading.mpr heq⟩
  refine h.set hc rfl ⟨fun _ => hself.shape rfl, ?_, fun hyes => (nomatch hyes), ?_⟩
    fun i q hic hi => ⟨h.calls i q hi, ?_⟩
  · intro es hes d hd hk
    obtain ⟨done, rfl, hdone⟩ := hdone es hes
    rcases mem_append.mp hd with hd | hd
    · exact hself.parsed done hdone d hd hk
    · rw [mem_singleton.mp hd] at hk ⊢
      have hone : checkEntries s.store call.commitTs call.readTs call.vacated claimed [e] =
          .ok none := by rw [checkEntries, hcheck]; rfl
      exact parse_of_checkEntries hone mem_cons_self hk
  · rintro _ _ ⟨⟩
    obtain ⟨done, heq, hrec⟩ := hself.progress _ _ rfl
    exact ⟨done ++ [e], by rw [append_assoc]; exact heq, hrec.claim hcheck⟩
  · have hpq := h.pairs c i _ _ hic.symm hc hi
    have hqp := h.pairs i c _ _ hic hi hc
    refine ⟨⟨hpq.ids, hpq.apart, hpq.vacate, fun hyes es hes => ?_⟩,
      ⟨hqp.ids, hqp.apart, hqp.vacate, fun hyes => (nomatch hyes)⟩⟩
    obtain ⟨done, rfl, hdone⟩ := hdone es hes
    have hq := h.calls i q hi
    have hlive : q.2.live = true := by rw [hyes]; rfl
    refine (hpq.clear hyes done hdone).append ⟨?_, fun hlt _ => ?_⟩
    · exact not_sharesKey_of_check (hq.shape hlive) (hq.staged hyes) (hpq.vacate rfl hlive) hcheck
    · exact not_sharesRow_of_check (hq.shape hlive) (hq.staged hyes) hlt hnext hcheck

theorem Staged.write {b : VoteCall} {store' : Store} (h : Staged store b) (hcall : CallOk call)
    (hb : CallOk b)
    (hparse : Parsed call.entries) (hparse' : Parsed b.entries)
    (hkey : ¬ SharesKey call.entries b.entries) (hvac : ¬ Vacates call.entries b.entries)
    (hget : ∀ k, DataKey k →
      store'.get k = (lastWrite k (call.entries.map stageEntry)).getD (store.get k)) :
    Staged store' b := by
  intro e' he'
  rw [hget e'.key (hb.dataKey he' (hparse' e' he'))]
  refine ⟨fun hk' => isSome_get_row hcall (hparse' e' he' hk') (.inl ((h e' he').1 hk')),
    fun hk' => ?_⟩
  cases hl : lastWrite e'.key (call.entries.map stageEntry) with
  | none => exact (h e' he').2 hk'
  | some r =>
    obtain ⟨op, hop, hopk, rfl⟩ := exists_of_lastWrite hl
    obtain ⟨e, he, rfl⟩ := mem_map.mp hop
    rw [key_stageEntry] at hopk
    cases hk : e.kind with
    | rowPrepared =>
      have hp := hparse e he hk
      rw [hopk, (hb.keys e' he' (by rw [hk']; decide)).parseVersionKey] at hp
      cases hp
    | uniqueDel => exact absurd ⟨e, he, e', he', hk, hk', hopk⟩ hvac
    | uniquePut =>
      rw [getD_some, val_stageEntry (by rw [hk]; decide)]
      by_contra hne
      exact hkey ⟨e, he, e', he', hk, hk', hopk, fun heq => hne (by rw [heq])⟩

theorem VotesOk.accept (h : VotesOk s) (hc : s.calls[c]? = some (call, .reading claimed []))
    (hstore : ∀ k, DataKey k →
      store.get k = (lastWrite k (call.entries.map stageEntry)).getD (s.store.get k)) :
    VotesOk ({ s with store }.finish c call .yes) := by
  have hself := h.calls c _ hc
  have hall : Checked (call, .reading claimed []) call.entries :=
    checked_reading.mpr (append_nil _).symm
  have hshape : CallOk call := hself.shape rfl
  have hparse := hself.parsed _ hall
  refine h.set hc rfl ⟨fun _ => hshape, ?_, fun _ e he => ?_, fun _ _ hr => (nomatch hr)⟩
    fun i q hic hi => ?_
  · intro es hes
    rw [checked_yes.mp hes]
    exact hparse
  · obtain ⟨done, heq, hrec⟩ := hself.progress _ _ rfl
    rw [append_nil] at heq
    subst heq
    change (_ → (store.get e.key).isSome) ∧ (_ → store.get e.key = some e.value)
    rw [hstore e.key (hshape.dataKey he (hparse e he))]
    refine ⟨fun hk => isSome_get_row hshape (hparse e he hk) (.inr ⟨e, he, rfl⟩), fun hk => ?_⟩
    rw [lastWrite_claim hshape hparse hrec he hk]
    rfl
  · have hq := h.calls i q hi
    have hpq := h.pairs c i _ _ hic.symm hc hi
    have hqp := h.pairs i c _ _ hic hi hc
    refine ⟨{ hq with staged := fun hyes => ?_ }, ⟨hpq.ids, fun ha => (nomatch ha),
      fun ha => (nomatch ha), fun hyes es hes => ?_⟩, ⟨hqp.ids, fun _ ha => (nomatch ha),
      fun ha _ => hqp.vacate ha rfl, fun _ es hes => ?_⟩⟩
    · have hlive : q.2.live = true := by rw [hyes]; rfl
      exact (hq.staged hyes).write hshape (hq.shape hlive) hparse (hq.parsed _ (.inl ⟨hyes, rfl⟩))
        (hpq.clear hyes _ hall).1 (hpq.vacate rfl hlive) hstore
    · rw [checked_yes.mp hes]
      exact hpq.clear hyes _ hall
    · have hsub := hes.subset
      rcases hes with ⟨hyes, rfl⟩ | ⟨claimed', rest, hreading, -⟩
      · exact (hpq.clear hyes _ hall).symm
      · -- an active vote shares nothing with one that was active before
        have hactive : q.2.active = true := by rw [hreading]; rfl
        obtain ⟨hrow, hkey⟩ := hqp.apart hactive rfl
        exact clear_of_apart hrow hkey hsub

/-! ## Runs -/

theorem VotesOk.stage (h : VotesOk s) {env : VoteEnv}
    (hc : s.calls[c]? = some (call, .reading claimed [])) :
    VotesOk (stageVote J env s c call) := by
  unfold stageVote
  split
  · split
    · next metas hm =>
      refine h.accept hc fun k hk => get_prepare (fun p hp => ?_) hk
      obtain ⟨seg, -, hseg⟩ := (mapM_ok_spec hm).1 p hp
      exact isMeta_of_stageSegment hseg
    · exact h.refuse hc
  · exact h.refuse hc

theorem VotesOk.step {a : VoteAction} (h : VotesOk s) (hg : VoteGuard J s a)
    (hstep : voteStep J s a = some s') : VotesOk s' := by
  cases a with simp only [voteStep] at hstep
  | arrive call =>
    split at hstep
    · cases hstep
    · next hany =>
      cases hstep
      refine h.arrive fun p hp heq => hany ?_
      exact any_eq_true.mpr ⟨p, hp, beq_iff_eq.mpr heq⟩
  | start c =>
    split at hstep
    · next call hc =>
      split at hstep
      · split at hstep
        · cases hstep
        · cases hstep
          exact h.start hc hg rfl rfl
      · cases hstep
        exact h.start hc hg rfl rfl
    · cases hstep
  | read c =>
    split at hstep
    · next call claimed e rest hc =>
      split at hstep
      · next hcheck =>
        cases hstep
        exact h.read hc hg hcheck
      · cases hstep
        exact h.refuse hc
    · cases hstep
  | stage c env =>
    split at hstep
    · next call claimed hc =>
      cases hstep
      exact h.stage hc
    · cases hstep
  | decide c now bind commit indexOps =>
    split at hstep
    · next call hc =>
      cases hstep
      refine h.retire hc rfl rfl fun i a hic hi =>
        ((h.calls i _ hi).staged rfl).congr fun e he hk => ?_
      have ha := h.calls i _ hi
      have hdata := (ha.shape rfl).dataKey he (ha.parsed _ (checked_yes.mpr rfl) e he)
      rw [get_decide hdata, lastWrite_eq_none.mpr fun op hop => hg _ hc op hop (a, .yes)
        (mem_of_getElem? hi) rfl (h.pairs i c _ _ hic hi hc).ids e he hk]
      rfl
    · cases hstep

def voteInitial (store : Store) : VoteNode := ⟨store, [], none⟩

theorem VotesOk.initial (store : Store) : VotesOk (voteInitial store) :=
  ⟨fun _ _ hi => (nomatch hi), fun _ _ _ _ _ hi => (nomatch hi)⟩

/-- Votes that do not overlap with a vote they share a row or a key with exclude each other. -/
theorem votes_exclude (J : Serde) (store : Store) (as : List VoteAction) (s : VoteNode)
    (hg : Guarded (voteStep J) (VoteGuard J) (voteInitial store) as)
    (h : exec (voteStep J) (voteInitial store) as = some s) : VotesExclude s :=
  (exec_inv (fun _ _ _ hok hg hs => hok.step hg hs) (VotesOk.initial store) hg h).exclude

/-- A transaction that has read up to 4 writes one row of table 7 at its commit timestamp and claims
a value of a unique column. -/
def rowCall (txnId : String) (rpc : Bool) (commitTs : Nat) (pk value : Value) : VoteCall where
  txnId := utf8 txnId
  coordinator := utf8 "127.0.0.1:8080"
  commitTs := commitTs
  readTs := 4
  entries :=
    [⟨versionKey (slotOf 7 (encodeKey pk)) 7 (encodeKey pk) commitTs, preparedValue sampleRow,
      .rowPrepared⟩,
     ⟨uniqueKey 7 1 (encodeKey value), encodeKey pk, .uniquePut⟩]
  segments := []
  rpc := rpc

/-- Two votes on different rows at the same time, a third on the row of the first, and the decision
of the second. -/
def orderlyVotes : List VoteAction :=
  [.arrive (rowCall "ts5" false 5 (.int 1) (.str "a")),
   .arrive (rowCall "ts6" true 6 (.int 2) (.str "b")),
   .start 0, .start 1, .read 0, .read 1, .read 0, .stage 0 sampleEnv, .read 1, .stage 1 sampleEnv,
   .arrive (rowCall "ts7" true 7 (.int 1) (.str "c")), .start 2, .read 2,
   .decide 1 0 (utf8 "127.0.0.1:6379") true []]

theorem votes_exclude_orderlyVotes : ∃ s,
    exec (voteStep Serde.json) (voteInitial empty) orderlyVotes = some s ∧
    s.calls.map (·.2) = [.yes, .decided, .no] ∧ VotesExclude s :=
  exists_run (by decide +kernel) fun s hs hh =>
    ⟨hh, votes_exclude Serde.json empty orderlyVotes s (by decide +kernel) hs⟩

/-- A vote of the node's own coordinator reads while a vote from the wire holds the mutex: both
find the row and the key free and both are accepted. -/
theorem unlocked_vote_shares_row : ∃ s,
    exec (voteStep Serde.json) (voteInitial empty)
      [.arrive (rowCall "ts5" true 5 (.int 1) (.str "a")),
       .arrive (rowCall "ts6" false 6 (.int 1) (.str "a")),
       .start 0, .read 0, .read 0, .start 1, .read 1, .read 1, .stage 0 sampleEnv,
       .stage 1 sampleEnv] = some s ∧
    s.calls = [(rowCall "ts5" true 5 (.int 1) (.str "a"), .yes),
      (rowCall "ts6" false 6 (.int 1) (.str "a"), .yes)] ∧ ¬ VotesExclude s := by
  refine exists_run (by decide +kernel) fun s _ hh => ⟨hh, fun hex => ?_⟩
  refine (hex 0 1 (rowCall "ts5" true 5 (.int 1) (.str "a"))
    (rowCall "ts6" false 6 (.int 1) (.str "a")) (by decide) (by rw [hh]; rfl) (by rw [hh]; rfl)
    (by decide) (by decide)).1 ?_
  decide +kernel

end Rdb.Dist
