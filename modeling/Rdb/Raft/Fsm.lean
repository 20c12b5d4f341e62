import Rdb.Store

/-!
# The replicated map

The state machine of the raft group is a map of strings that committed log entries set. A
snapshot builder is a copy of the state machine: it has the applied position of the moment
it was taken, but it shares the map, and the snapshot it builds holds the map of the
moment it is built. A restart starts from the last saved snapshot.

The log is a list of which the state machine has applied a prefix; strings are their UTF-8
bytes.

* `merge_foldTo`: a snapshot written over an older map.
-/

namespace Rdb.Raft

open Lib List Option

abbrev KvMap := SortedMap Bytes Bytes

section

variable {M : Type}

inductive Payload (M : Type) where
  | blank
  | normal (key value : Bytes)
  | membership (mem : M)

/-- The metadata of a snapshot and its data, the whole map. -/
structure Snapshot (M : Type) where
  lastLogId : Option Nat
  lastMembership : Option (Nat × M)
  idx : Nat
  kv : KvMap

structure StateMachine (M : Type) where
  lastAppliedLogId : Option Nat := none
  lastMembership : Option (Nat × M) := none
  kv : KvMap := SortedMap.empty
  snapshotIdx : Nat := 0

namespace StateMachine

variable (sm : StateMachine M)

def apply (logId : Nat) (e : Payload M) : StateMachine M :=
  let sm := { sm with lastAppliedLogId := some logId }
  match e with
  | .blank => sm
  | .normal key value => { sm with kv := sm.kv.put key value }
  | .membership mem => { sm with lastMembership := some (logId, mem) }

/-- Keys of the snapshot are overwritten, all others stay. -/
def restore (snap : Snapshot M) : StateMachine M :=
  { sm with
    lastAppliedLogId := snap.lastLogId
    lastMembership := snap.lastMembership
    kv := sm.kv.write (snap.kv.entries.map fun e => .put e.1 e.2) }

/-- The builder `b` is a copy of the state machine; `kv` is the map it shares. -/
def buildSnapshot (b : StateMachine M) (kv : KvMap) : Snapshot M :=
  ⟨b.lastAppliedLogId, b.lastMembership, b.snapshotIdx, kv⟩

end StateMachine

/-- A node: its state machine, the builders taken from it, and what has been saved and built. -/
structure Node (M : Type) where
  sm : StateMachine M := {}
  builders : List (StateMachine M) := []
  saved : Option (Snapshot M) := none
  built : List (Snapshot M) := []

inductive Action (M : Type) where
  | apply
  | getSnapshotBuilder
  | buildSnapshot (b : Nat)
  | installSnapshot (snap : Snapshot M)
  | restart

def upTo (logId : Option Nat) : Nat := logId.elim 0 (· + 1)

def step (log : List (Payload M)) (s : Node M) : Action M → Option (Node M)
  | .apply =>
    (log[upTo s.sm.lastAppliedLogId]?).map fun e =>
      { s with sm := s.sm.apply (upTo s.sm.lastAppliedLogId) e }
  | .getSnapshotBuilder =>
    let sm := { s.sm with snapshotIdx := s.sm.snapshotIdx + 1 }
    some { s with sm, builders := s.builders ++ [sm] }
  | .buildSnapshot b =>
    (s.builders[b]?).map fun builder =>
      let snap := builder.buildSnapshot s.sm.kv
      { s with saved := some snap, built := s.built ++ [snap] }
  | .installSnapshot snap => some { s with sm := s.sm.restore snap, saved := some snap }
  | .restart =>
    some { s with
      sm := s.saved.elim {} fun snap => ({} : StateMachine M).restore snap
      builders := [] }

/-! ## The fold of the log -/

def applyKv (kv : KvMap) : Payload M → KvMap
  | .normal key value => kv.put key value
  | _ => kv

def foldTo (log : List (Payload M)) (logId : Option Nat) : KvMap :=
  (log.take (upTo logId)).foldl applyKv SortedMap.empty

theorem kv_apply (sm : StateMachine M) (logId : Nat) (e : Payload M) :
    (sm.apply logId e).kv = applyKv sm.kv e := by
  cases e <;> rfl

theorem lastAppliedLogId_apply (sm : StateMachine M) (logId : Nat) (e : Payload M) :
    (sm.apply logId e).lastAppliedLogId = some logId := by
  cases e <;> rfl

theorem foldTo_next {log : List (Payload M)} {logId : Option Nat} {e : Payload M}
    (h : log[upTo logId]? = some e) :
    foldTo log (some (upTo logId)) = applyKv (foldTo log logId) e := by
  have htake : log.take (upTo logId + 1) = log.take (upTo logId) ++ [e] := by
    rw [take_add_one, h]
    rfl
  rw [foldTo, upTo, elim_some, htake, foldl_append]
  rfl

theorem isSome_foldl (es : List (Payload M)) (kv : KvMap) {k : Bytes}
    (h : (kv.get k).isSome) : ((es.foldl applyKv kv).get k).isSome := by
  induction es generalizing kv with
  | nil => exact h
  | cons e es ih =>
    refine ih _ ?_
    cases e with
    | normal key value =>
      rw [applyKv, SortedMap.get_put]
      split
      · rfl
      · exact h
    | blank | membership mem => exact h

theorem merge_foldTo (log : List (Payload M)) {old new : Option Nat} (h : upTo old ≤ upTo new) :
    (foldTo log old).write ((foldTo log new).entries.map fun e => .put e.1 e.2) =
      foldTo log new := by
  refine SortedMap.ext fun k => ?_
  rw [SortedMap.get_write_entries]
  cases hnew : (foldTo log new).get k with
  | some x => rfl
  | none =>
    cases hold : (foldTo log old).get k with
    | none => rfl
    | some x =>
      have hsplit : log.take (upTo new) =
          log.take (upTo old) ++ (log.take (upTo new)).drop (upTo old) := by
        conv_lhs => rw [← take_append_drop (upTo old) (log.take (upTo new))]
        rw [take_take, min_eq_left h]
      have hsome := isSome_foldl ((log.take (upTo new)).drop (upTo old)) (foldTo log old)
        (k := k) (by rw [hold]; rfl)
      rw [foldTo, ← foldl_append, ← hsplit, ← foldTo, hnew] at hsome
      cases hsome

/-! ## Runs -/

/-- A snapshot is built before anything else is applied, and an installed one is the map of its
position and not older than what is applied. -/
def Clean (log : List (Payload M)) (s : Node M) : Action M → Prop
  | .buildSnapshot b =>
    ∀ builder ∈ s.builders[b]?, builder.lastAppliedLogId = s.sm.lastAppliedLogId
  | .installSnapshot snap =>
    snap.kv = foldTo log snap.lastLogId ∧ upTo s.sm.lastAppliedLogId ≤ upTo snap.lastLogId
  | _ => True

instance decidableClean (log : List (Payload M)) (s : Node M) (a : Action M) :
    Decidable (Clean log s a) := by
  cases a <;> dsimp only [Clean] <;> infer_instance

/-- The map is that of the applied position, and so is the data of every snapshot. -/
structure Exact (log : List (Payload M)) (s : Node M) : Prop where
  map : s.sm.kv = foldTo log s.sm.lastAppliedLogId
  saved : ∀ snap ∈ s.saved, snap.kv = foldTo log snap.lastLogId
  built : ∀ snap ∈ s.built, snap.kv = foldTo log snap.lastLogId

theorem Exact.step {log : List (Payload M)} {s s' : Node M} {a : Action M} (h : Exact log s)
    (hc : Clean log s a) (hs : step log s a = some s') : Exact log s' := by
  cases a with
  | apply =>
    obtain ⟨e, he, rfl⟩ := map_eq_some_iff.mp hs
    refine ⟨?_, h.saved, h.built⟩
    rw [kv_apply, lastAppliedLogId_apply, h.map, foldTo_next he]
  | getSnapshotBuilder =>
    cases hs
    exact ⟨h.map, h.saved, h.built⟩
  | buildSnapshot b =>
    obtain ⟨builder, hb, rfl⟩ := map_eq_some_iff.mp hs
    have hsnap : (builder.buildSnapshot s.sm.kv).kv =
        foldTo log (builder.buildSnapshot s.sm.kv).lastLogId := by
      rw [StateMachine.buildSnapshot, hc builder hb, h.map]
    refine ⟨h.map, fun snap hsnap' => ?_, fun snap hmem => ?_⟩
    · cases hsnap'
      exact hsnap
    · rcases mem_append.mp hmem with hmem | hmem
      · exact h.built snap hmem
      · rw [mem_singleton.mp hmem]
        exact hsnap
  | installSnapshot snap =>
    cases hs
    refine ⟨?_, fun snap' hsnap' => ?_, h.built⟩
    · rw [StateMachine.restore, h.map, hc.1]
      exact merge_foldTo log hc.2
    · cases hsnap'
      exact hc.1
  | restart =>
    cases hs
    refine ⟨?_, h.saved, h.built⟩
    cases hsaved : s.saved with
    | none => rfl
    | some snap =>
      rw [elim_some, StateMachine.restore, h.saved snap hsaved]
      have hle : upTo none ≤ upTo snap.lastLogId := Nat.zero_le _
      exact merge_foldTo log hle

/-- In every run whose snapshots are built before the next apply or install, the map is the fold
of the log up to the applied position, and so is every snapshot up to its own. -/
theorem replicated_map_exact (log : List (Payload M)) (as : List (Action M)) (s : Node M)
    (hg : Guarded (step log) (Clean log) {} as) (h : exec (step log) {} as = some s) :
    Exact log s := by
  have hinit : Exact log ({} : Node M) := ⟨rfl, nofun, nofun⟩
  exact exec_inv (fun _ _ _ hex hc hs => hex.step hc hs) hinit hg h

end

def twoSets : List (Payload Unit) := [.normal [0x6b] [0x31], .normal [0x6b] [0x32]]

theorem replicated_map_exact_restart : ∃ s, exec (step twoSets) {}
      [.apply, .getSnapshotBuilder, .buildSnapshot 0, .apply, .restart, .apply] = some s ∧
    s.sm.kv.get [0x6b] = some [0x32] ∧ Exact twoSets s :=
  exists_run (by decide +kernel) fun s hs hh =>
    ⟨hh, replicated_map_exact twoSets _ s (by decide +kernel) hs⟩

/-- The builder is taken at the first entry and builds after the second: after a restart the map
at the first entry is that of the second. -/
theorem snapshot_ahead_of_position : ∃ s, exec (step twoSets) {}
      [.apply, .getSnapshotBuilder, .apply, .buildSnapshot 0, .restart] = some s ∧
    s.sm.lastAppliedLogId = some 0 ∧ s.sm.kv.get [0x6b] = some [0x32] ∧ ¬ Exact twoSets s := by
  refine exists_run (P := fun s => s.sm.lastAppliedLogId = some 0 ∧
    s.sm.kv.get [0x6b] = some [0x32]) (by decide +kernel) fun s _ hh => ⟨hh.1, hh.2, fun hex => ?_⟩
  have hmap := hh.2
  rw [hex.map, hh.1] at hmap
  exact absurd hmap (by decide +kernel)

end Rdb.Raft
