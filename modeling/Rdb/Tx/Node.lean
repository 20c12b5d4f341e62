import Rdb.Sql.Scan
import Rdb.Tx.Session

/-!
# One node as a transition system

The sessions of a node share its oracle and its store. What the source does
between two awaits is one step: BEGIN, staging, the validation of a COMMIT, the
allocation of its range, the write of its batch; an autocommit statement reads
the clock, allocates and writes. A crash loses everything but the store, and the
boot replays the timestamp floor into a fresh oracle.

The state also keeps what the code does not: when transactions began and
committed, the store a transaction saw at BEGIN, and the ranges handed out. No
step reads them.

* `effect_of_step`: every step is one of four kinds.
* `NodeOk.step`: the timestamps of open transactions and pending batches, along
  every run that does not wrap the counter.
-/

namespace Rdb.Tx

open Lib Sql Option

/-- A transaction with the step of its BEGIN and the store at that moment. -/
structure Begun where
  txn : Txn
  begun : Nat
  view : Store

inductive Session where
  | idle
  /-- Between BEGIN and COMMIT. -/
  | opened (t : Begun)
  /-- The validation passed. -/
  | checked (t : Begun) (idx : IndexOps)
  /-- An autocommit statement that has read the clock. -/
  | statement (readTs : Nat)
  /-- A range is allocated and its batch not yet written; `none` is an autocommit statement. -/
  | allocated (t : Option Begun) (range : TsRange) (ops : List WriteOp)
  | committed (t : Begun) (done : Nat)
  | ended

structure Node where
  oracle : Oracle
  store : Store
  sessions : Nat → Session
  /-- The number of steps taken. -/
  clock : Nat
  /-- The ranges handed out, newest first. -/
  granted : List TsRange
  /-- The highest timestamp stamped into the floor so far. -/
  stamped : Nat

inductive Action where
  | begin (id : Nat)
  | stageUpsert (id : Nat) (schema : TableSchema) (values : List Value)
  | stageDelete (id : Nat) (schema : TableSchema) (pkKey : Bytes)
  | stageAppend (id : Nat) (table : String) (values : List Value)
  | rollback (id : Nat)
  /-- COMMIT up to the validation, with the index writes it derived. -/
  | check (id : Nat) (idx : IndexOps)
  | alloc (id : Nat) (env : Env)
  | statement (id : Nat)
  | allocStatement (id : Nat) (schema : TableSchema) (writes : List RowWrite) (idx : IndexOps)
  | allocSegment (id : Nat) (env : Env) (schema : TableSchema) (rows : List (List Value))
  | write (id : Nat)
  | crash

namespace Node

def set (n : Node) (id : Nat) (s : Session) : Node :=
  { n with sessions := fun i => if i = id then s else n.sessions i }

/-- A staging call of an open transaction; an error leaves the transaction as it is. -/
def stage (n : Node) (id : Nat) (f : Txn → Option (Except SqlError Txn)) : Option Node :=
  match n.sessions id with
  | .opened t => match f t.txn with
    | none => none
    | some (.error _) => some n
    | some (.ok txn) => some (n.set id (.opened { t with txn }))
  | _ => none

/-- The oracle handed out `range`: the batch waits to be written, or could not be built. -/
def grant (n : Node) (id : Nat) (t : Option Begun) (o : Oracle) (range : TsRange)
    (batch : Except SqlError (List WriteOp)) : Node :=
  match batch with
  | .ok ops => { n with oracle := o, granted := range :: n.granted }.set id (.allocated t range ops)
  | .error _ => { n with
      oracle := match t with
        | some t => o.unregisterSnapshot t.txn.readTs
        | none => o
      granted := range :: n.granted }.set id .ended

end Node

/-- Boot: the floor is read, or scanned for and stamped when the key is missing. -/
def boot (json : JsonFormat SegmentMeta) (store : Store) : Store × Oracle :=
  let keyFloor := recover store
  let floor := if 0 < keyFloor then keyFloor else scanMaxTs json store
  (if keyFloor = 0 ∧ 0 < floor then store.write [stamp floor] else store,
    Oracle.new.advanceTo floor)

def Session.crashed : Session → Session
  | .idle => .idle
  | .committed t done => .committed t done
  | _ => .ended

variable (json : JsonFormat SegmentMeta)

def initial (store : Store) : Node where
  oracle := (boot json store).2
  store := (boot json store).1
  sessions _ := .idle
  clock := 0
  granted := []
  stamped := recover (boot json store).1

def stepBody (n : Node) : Action → Option Node
  | .begin id => match n.sessions id with
    | .idle =>
      let (o, txn) := Txn.begin n.oracle
      some ({ n with oracle := o }.set id (.opened ⟨txn, n.clock, n.store⟩))
    | _ => none
  | .stageUpsert id schema values => n.stage id (·.stageUpsert schema values)
  | .stageDelete id schema pkKey => n.stage id (some <| ·.stageDelete schema pkKey)
  | .stageAppend id table values => n.stage id (some <| ·.stageAppend table values)
  | .rollback id => match n.sessions id with
    | .opened t =>
      some ({ n with oracle := n.oracle.unregisterSnapshot t.txn.readTs }.set id .ended)
    | _ => none
  | .check id idx => match n.sessions id with
    | .opened t =>
      let released := { n with oracle := n.oracle.unregisterSnapshot t.txn.readTs }.set id .ended
      -- a transaction that staged nothing has nothing to validate or write
      if t.txn.writes.entries = [] ∧ t.txn.appends.entries = [] then some released
      else match conflictCheck n.store t.txn with
        | .ok () => some (n.set id (.checked t idx))
        | .error _ => some released
    | _ => none
  | .alloc id env => match n.sessions id with
    | .checked t idx =>
      let total := t.txn.writes.entries.length + t.txn.appends.entries.length
      let (o, range) := n.oracle.allocNAbove total t.txn.readTs
      some (n.grant id (some t) o range (commitBatch json env n.store t.txn idx range))
    | _ => none
  | .statement id => match n.sessions id with
    | .idle => some (n.set id (.statement n.oracle.now))
    | _ => none
  | .allocStatement id schema writes idx => match n.sessions id with
    | .statement readTs => (statementWrites schema writes).map fun ws =>
      let (o, range) := n.oracle.allocNAbove ws.length readTs
      n.grant id none o range (statementBatch schema ws idx range)
    | _ => none
  | .allocSegment id env schema rows => match n.sessions id with
    | .statement _ =>
      let (o, range) := n.oracle.allocN 1
      some (n.grant id none o range (segmentBatch json env n.store schema rows range.start))
    | _ => none
  | .write id => match n.sessions id with
    | .allocated t range ops =>
      let written := { n with
        store := n.store.write ops
        stamped := max n.stamped (range.stop - 1) }
      match t with
      | some t => some ({ written with
          oracle := n.oracle.unregisterSnapshot t.txn.readTs }.set id (.committed t n.clock))
      | none => some (written.set id .ended)
    | _ => none
  | .crash =>
    let (store, oracle) := boot json n.store
    some { n with
      store, oracle
      sessions := fun i => (n.sessions i).crashed
      stamped := max n.stamped (recover store) }

def step (n : Node) (a : Action) : Option Node :=
  (stepBody json n a).map fun n' => { n' with clock := n.clock + 1 }

/-! ## What a step does -/

/-- The timestamps a step asks the oracle for: how many, above what. -/
def request (n : Node) : Action → Option (Nat × Nat)
  | .alloc id _ => match n.sessions id with
    | .checked t _ =>
      some (t.txn.writes.entries.length + t.txn.appends.entries.length, t.txn.readTs)
    | _ => none
  | .allocStatement id schema writes _ => match n.sessions id with
    | .statement readTs => (statementWrites schema writes).map fun ws => (ws.length, readTs)
    | _ => none
  | .allocSegment .. => some (1, 0)
  | _ => none

def NoWrap (n : Node) (a : Action) : Prop := ∀ r ∈ request n a, n.oracle.Fits r.1 r.2
  deriving Decidable

/-- The batch has a version of every key the transaction staged. -/
def Covers (txn : Txn) (range : TsRange) (ops : List WriteOp) : Prop :=
  ∀ k w, txn.writes.get k = some w → ∃ ts val, range.start ≤ ts ∧ ts < range.stop ∧
    .put (k.version ts) val ∈ ops

/-- The moves of a session that touch neither the counter nor the store. -/
inductive Move (n : Node) : Action → Nat → Session → Session → Prop
  | begin {id : Nat} : Move n (.begin id) id .idle
      (.opened ⟨⟨n.oracle.now, SortedMap.empty, SortedMap.empty, none⟩, n.clock, n.store⟩)
  | stage {a : Action} {id : Nat} {t : Begun} {txn : Txn} (h : txn.readTs = t.txn.readTs) :
      Move n a id (.opened t) (.opened { t with txn })
  | finish {a : Action} {id : Nat} {t : Begun} : Move n a id (.opened t) .ended
  | check {id : Nat} {t : Begun} {idx : IndexOps} (h : conflictCheck n.store t.txn = .ok ()) :
      Move n (.check id idx) id (.opened t) (.checked t idx)
  | statement {id : Nat} : Move n (.statement id) id .idle (.statement n.oracle.now)

def Becomes (n n' : Node) (id : Nat) (s : Session) : Prop :=
  ∀ i, n'.sessions i = if i = id then s else n.sessions i

inductive Effect (n : Node) (a : Action) (n' : Node) : Prop
  | move {id : Nat} {s : Session} (hm : Move n a id (n.sessions id) s)
      (hs : Becomes n n' id s) (hnext : n'.oracle.next = n.oracle.next)
      (hstore : n'.store = n.store) (hg : n'.granted = n.granted) (hst : n'.stamped = n.stamped)
  | grant {id : Nat} {t : Option Begun} {range : TsRange} {s : Session}
      (hold : (∃ b idx, t = some b ∧ n.sessions id = .checked b idx) ∨
        t = none ∧ ∃ r, n.sessions id = .statement r)
      (hs : Becomes n n' id s)
      (hnew : s = .ended ∨ ∃ ops, s = .allocated t range ops ∧ BatchFits json range ops ∧
        ∀ b, t = some b → Covers b.txn range ops)
      (hlo : n.oracle.next ≤ range.start) (hle : range.start ≤ range.stop)
      (h64 : range.stop < 2 ^ 64) (hread : ∀ b, t = some b → b.txn.readTs < range.start)
      (hnext : n'.oracle.next = range.stop) (hstore : n'.store = n.store)
      (hg : n'.granted = range :: n.granted) (hst : n'.stamped = n.stamped)
  | write {id : Nat} {t : Option Begun} {range : TsRange} {ops : List WriteOp} (ha : a = .write id)
      (hold : n.sessions id = .allocated t range ops)
      (hs : Becomes n n' id (match t with
        | some b => .committed b n.clock
        | none => .ended))
      (hnext : n'.oracle.next = n.oracle.next) (hstore : n'.store = n.store.write ops)
      (hg : n'.granted = n.granted) (hst : n'.stamped = max n.stamped (range.stop - 1))
  | crash (ha : a = .crash) (hs : ∀ i, n'.sessions i = (n.sessions i).crashed)
      (hstore : n'.store = (boot json n.store).1) (ho : n'.oracle = (boot json n.store).2)
      (hg : n'.granted = n.granted)
      (hst : n'.stamped = max n.stamped (recover (boot json n.store).1))

variable {json} {n n' : Node} {a : Action} {id : Nat}

theorem effect_of_stage {f : Txn → Option (Except SqlError Txn)}
    (hf : ∀ txn txn', f txn = some (.ok txn') → txn'.readTs = txn.readTs)
    (h : n.stage id f = some n') (c : Nat) : Effect json n a { n' with clock := c } := by
  unfold Node.stage at h
  split at h
  · next t ht =>
    split at h
    · cases h
    · cases h
      refine @Effect.move json n a _ id (.opened t) ?_ (fun i => ?_) rfl rfl rfl rfl
      · rw [ht]
        exact @Move.stage n a id t t.txn rfl
      · by_cases hi : i = id
        · rw [if_pos hi, hi, ht]
        · rw [if_neg hi]
    · next txn hok =>
      cases h
      exact .move (by rw [ht]; exact .stage (hf _ _ hok)) (fun _ => rfl) rfl rfl rfl rfl
  · cases h

theorem ok_of_checkEngine {α : Type} {txn : Txn} {e : Engine} {f : Unit → Except SqlError α}
    {r : α} (h : (txn.checkEngine e >>= f) = .ok r) : f () = .ok r := by
  obtain ⟨_, -, h⟩ := bind_eq_ok.mp h
  exact h

theorem effect_of_grant {t : Option Begun} {o : Oracle} {range : TsRange}
    {batch : Except SqlError (List WriteOp)}
    (hold : (∃ b idx, t = some b ∧ n.sessions id = .checked b idx) ∨
      t = none ∧ ∃ r, n.sessions id = .statement r)
    (hbatch : ∀ ops, batch = .ok ops → BatchFits json range ops ∧
      ∀ b, t = some b → Covers b.txn range ops) (hlo : n.oracle.next ≤ range.start)
    (hle : range.start ≤ range.stop) (h64 : range.stop < 2 ^ 64)
    (hread : ∀ b, t = some b → b.txn.readTs < range.start) (hnext : o.next = range.stop) (c : Nat) :
    Effect json n a { n.grant id t o range batch with clock := c } := by
  cases batch with
  | error e =>
    refine .grant hold (fun _ => rfl) (.inl rfl) hlo hle h64 hread ?_ rfl rfl rfl
    cases t with
    | none => exact hnext
    | some b => exact (Oracle.next_unregisterSnapshot o b.txn.readTs).trans hnext
  | ok ops =>
    obtain ⟨hfits, hcover⟩ := hbatch ops rfl
    exact .grant hold (fun _ => rfl) (.inr ⟨ops, rfl, hfits, hcover⟩) hlo hle h64 hread hnext rfl
      rfl rfl

theorem effect_of_step (hw : NoWrap n a) (h : step json n a = some n') : Effect json n a n' := by
  obtain ⟨m, hm, rfl⟩ := map_eq_some_iff.mp h
  have hfinish : ∀ {i : Nat} {t : Begun}, n.sessions i = .opened t → Effect json n a
      { { n with oracle := n.oracle.unregisterSnapshot t.txn.readTs }.set i .ended with
        clock := n.clock + 1 } := fun ht =>
    .move (by rw [ht]; exact .finish) (fun _ => rfl) (Oracle.next_unregisterSnapshot _ _) rfl rfl rfl
  cases a with simp only [stepBody] at hm
  | begin id =>
    split at hm
    · next hid =>
      cases hm
      exact .move (by rw [hid]; exact .begin) (fun _ => rfl) rfl rfl rfl rfl
    · cases hm
  | stageUpsert id schema values =>
    refine effect_of_stage (fun txn txn' hok => ?_) hm _
    unfold Txn.stageUpsert at hok
    split at hok
    · cases hok
    · obtain ⟨pk, -, hok⟩ := map_eq_some_iff.mp hok
      cases hok
      rfl
  | stageDelete id schema pkKey | stageAppend id table values =>
    refine effect_of_stage (fun txn txn' hok => ?_) hm _
    cases ok_of_checkEngine (some.inj hok)
    rfl
  | rollback id =>
    split at hm
    · next t ht =>
      cases hm
      exact hfinish ht
    · cases hm
  | check id idx =>
    split at hm
    · next t ht =>
      split at hm
      · cases hm
        exact hfinish ht
      · split at hm
        · next hok =>
          cases hm
          exact .move (by rw [ht]; exact .check hok) (fun _ => rfl) rfl rfl rfl rfl
        · cases hm
          exact hfinish ht
    · cases hm
  | alloc id env =>
    split at hm
    · next t idx ht =>
      have hfit : n.oracle.Fits (t.txn.writes.entries.length + t.txn.appends.entries.length)
          t.txn.readTs := hw (_, _) (by simp [request, ht])
      have hlt := hfit
      unfold Oracle.Fits at hlt
      rw [Oracle.allocNAbove_eq hfit] at hm
      cases hm
      refine effect_of_grant (.inl ⟨t, idx, rfl, ht⟩) (fun ops hok => ?_) (by simp) (by simp) hlt
        (by rintro b ⟨⟩; simp only; omega) rfl _
      obtain ⟨hfits, hcover⟩ := commitBatch_fits hok rfl (by simp only; omega)
      exact ⟨hfits, by rintro b ⟨⟩; exact hcover⟩
    · cases hm
  | statement id =>
    split at hm
    · next hid =>
      cases hm
      exact .move (by rw [hid]; exact .statement) (fun _ => rfl) rfl rfl rfl rfl
    · cases hm
  | allocStatement id schema writes idx =>
    split at hm
    · next readTs ht =>
      obtain ⟨ws, hws, rfl⟩ := map_eq_some_iff.mp hm
      have hfit : n.oracle.Fits ws.length readTs := hw (_, _) (by simp [request, ht, hws])
      have hlt := hfit
      unfold Oracle.Fits at hlt
      rw [Oracle.allocNAbove_eq hfit]
      refine effect_of_grant (.inr ⟨rfl, readTs, ht⟩) (fun ops hok => ?_) (by simp) (by simp) hlt
        (by rintro b ⟨⟩) rfl _
      exact ⟨statementBatch_fits hok rfl (by simp only; omega), by rintro b ⟨⟩⟩
    · cases hm
  | allocSegment id env schema rows =>
    split at hm
    · next readTs ht =>
      have hlt : n.oracle.Fits 1 0 := hw (_, _) rfl
      unfold Oracle.Fits at hlt
      have hstop : (n.oracle.next + 1) % 2 ^ 64 = n.oracle.next + 1 := Nat.mod_eq_of_lt (by omega)
      cases hm
      simp only [Oracle.allocN, hstop]
      refine effect_of_grant (.inr ⟨rfl, readTs, ht⟩) (fun ops hok => ?_) (by simp) (by simp)
        (by simp only; omega) (by rintro b ⟨⟩) rfl _
      exact ⟨segmentBatch_fits hok rfl, by rintro b ⟨⟩⟩
    · cases hm
  | write id =>
    split at hm
    · next t range ops ht =>
      cases t with
      | none => cases hm; exact .write rfl ht (fun _ => rfl) rfl rfl rfl rfl
      | some b =>
        cases hm
        exact .write rfl ht (fun _ => rfl) (Oracle.next_unregisterSnapshot _ _) rfl rfl rfl
    · cases hm
  | crash =>
    cases hm
    exact .crash rfl (fun _ => rfl) rfl rfl rfl rfl

/-! ## Timestamps along a run -/

/-- The transaction of a session between BEGIN and the end of its COMMIT. -/
def Session.active : Session → Option Begun
  | .opened t => some t
  | .checked t _ => some t
  | .allocated t _ _ => t
  | _ => none

/-- Open snapshots lie below the counter, pending batches fit ranges below it. -/
structure NodeOk (json : JsonFormat SegmentMeta) (n : Node) : Prop where
  next_pos : 0 < n.oracle.next
  readTs_lt : ∀ i t, (n.sessions i).active = some t → t.txn.readTs < n.oracle.next
  pending : ∀ i t range ops, n.sessions i = .allocated t range ops →
    BatchFits json range ops ∧ range.stop ≤ n.oracle.next ∧ range.stop < 2 ^ 64 ∧
      ∀ b, t = some b → Covers b.txn range ops

theorem next_boot_pos (store : Store) : 0 < (boot json store).2.next := by
  simp [boot, Oracle.advanceTo]

theorem nodeOk_initial (store : Store) : NodeOk json (initial json store) where
  next_pos := next_boot_pos store
  readTs_lt _ _ h := by cases h
  pending _ _ _ _ h := by cases h

variable {s : Session}

theorem Move.active {s' : Session} (h : Move n a id s s') {t : Begun} (ht : s'.active = some t) :
    (a = .begin id ∧ t.txn.readTs = n.oracle.now ∧ t.begun = n.clock ∧ t.view = n.store) ∨
      ∃ u, s.active = some u ∧ t.txn.readTs = u.txn.readTs ∧ t.begun = u.begun ∧
        t.view = u.view := by
  cases h with
  | begin => cases ht; exact .inl ⟨rfl, rfl, rfl, rfl⟩
  | stage hts => cases ht; exact .inr ⟨_, rfl, hts, rfl, rfl⟩
  | finish | statement => cases ht
  | check _ => cases ht; exact .inr ⟨_, rfl, rfl, rfl, rfl⟩

theorem Move.not_allocated {s' : Session} (h : Move n a id s s') {t : Option Begun}
    {range : TsRange} {ops : List WriteOp} :
    s' ≠ .allocated t range ops := by
  cases h <;> simp

theorem Session.active_crashed (s : Session) : s.crashed.active = none := by
  cases s <;> rfl

theorem Session.crashed_ne_allocated (s : Session) (t : Option Begun) (range : TsRange)
    (ops : List WriteOp) : s.crashed ≠ .allocated t range ops := by
  cases s <;> simp [Session.crashed]

theorem Becomes.active {i : Nat} {t : Begun} (hs : Becomes n n' id s)
    (h : (n'.sessions i).active = some t) :
    (i = id ∧ s.active = some t) ∨ (i ≠ id ∧ (n.sessions i).active = some t) := by
  rw [hs i] at h
  split at h
  · next hi => exact .inl ⟨hi, h⟩
  · next hi => exact .inr ⟨hi, h⟩

theorem NodeOk.step (hn : NodeOk json n) (he : Effect json n a n') : NodeOk json n' := by
  cases he with
  | @move id s hm hs hnext =>
    refine ⟨hnext ▸ hn.next_pos, fun i t ht => ?_, fun i t range ops hi => ?_⟩
    · rw [hnext]
      rcases hs.active ht with ⟨rfl, ht⟩ | ⟨-, ht⟩
      · rcases hm.active ht with ⟨-, hts, -⟩ | ⟨u, hu, hts, -⟩
        · have := hn.next_pos
          rw [hts, Oracle.now]
          omega
        · rw [hts]
          exact hn.readTs_lt _ u hu
      · exact hn.readTs_lt i t ht
    · rw [hs i] at hi
      split at hi
      · exact absurd hi hm.not_allocated
      · rw [hnext]
        exact hn.pending i t range ops hi
  | @grant id t range s hold hs hnew hlo hle h64 hread hnext =>
    refine ⟨by have := hn.next_pos; omega, fun i u hu => ?_, fun i u range' ops hi => ?_⟩
    · rcases hs.active hu with ⟨rfl, hu⟩ | ⟨-, hu⟩
      · rcases hnew with rfl | ⟨ops, rfl, -⟩
        · cases hu
        · have := hread u hu
          omega
      · have := hn.readTs_lt i u hu
        omega
    · rw [hs i] at hi
      split at hi
      · rcases hnew with rfl | ⟨ops', rfl, hfits, hcover⟩
        · cases hi
        · cases hi
          exact ⟨hfits, by omega, h64, hcover⟩
      · obtain ⟨hfits, hstop, h⟩ := hn.pending i u range' ops hi
        exact ⟨hfits, by omega, h⟩
  | @write id t range ops ha hold hs hnext =>
    refine ⟨hnext ▸ hn.next_pos, fun i u hu => ?_, fun i u range' ops' hi => ?_⟩
    · rw [hnext]
      rcases hs.active hu with ⟨-, hu⟩ | ⟨-, hu⟩
      · cases t <;> cases hu
      · exact hn.readTs_lt i u hu
    · rw [hs i] at hi
      split at hi
      · cases t <;> cases hi
      · rw [hnext]
        exact hn.pending i u range' ops' hi
  | crash ha hs hstore ho =>
    refine ⟨ho ▸ next_boot_pos _, fun i u hu => ?_, fun i u range ops hi => ?_⟩
    · rw [hs i, Session.active_crashed] at hu
      cases hu
    · rw [hs i] at hi
      exact absurd hi (Session.crashed_ne_allocated _ _ _ _)

theorem clock_step (h : step json n a = some n') : n'.clock = n.clock + 1 := by
  obtain ⟨m, -, rfl⟩ := map_eq_some_iff.mp h
  rfl

end Rdb.Tx
