import Rdb.Sql.Gc
import Rdb.Tx.Node

/-!
# Isolation of concurrent transactions on one node

`now` counts timestamps whose batch has not been written. A BEGIN between the
allocation of a range and the write of its batch pins a snapshot that the batch
changes later, and its COMMIT takes the batch's versions for old ones. The
validation, the allocation and the write are separate steps, so two COMMITs can
pass each other's validation.
-/

namespace Rdb.Tx

open Lib Sql SortedMap Option Session
open SortedMap (empty)

variable {json : JsonFormat SegmentMeta}

/-! ## Repeatable read -/

/-- BEGIN is taken while no writer stands between its allocation and its batch write. -/
def QuietBegin (n : Node) (a : Action) : Prop :=
  ∀ id, a = .begin id → ∀ i t range ops, n.sessions i ≠ .allocated t range ops

def ReadGuard (n : Node) (a : Action) : Prop := NoWrap n a ∧ QuietBegin n a

/-- Every read an open transaction can make at its read timestamp gives what it gave at BEGIN. -/
def RepeatableReads (n : Node) : Prop :=
  ∀ i t, (n.sessions i).active = some t → ∀ schema,
    (∀ lo hi, visibleVersionsBetween n.store schema t.txn.readTs lo hi =
      visibleVersionsBetween t.view schema t.txn.readTs lo hi) ∧
    ∀ pk, visibleRowAtPk n.store schema pk t.txn.readTs =
      visibleRowAtPk t.view schema pk t.txn.readTs

/-- Pending batches lie above every open snapshot, and the store has at or below a snapshot what
it had at BEGIN. -/
structure SnapshotsOk (json : JsonFormat SegmentMeta) (n : Node) : Prop extends NodeOk json n where
  above : ∀ i t range ops j u, n.sessions i = .allocated t range ops →
    (n.sessions j).active = some u → u.txn.readTs < range.start
  view : ∀ j u, (n.sessions j).active = some u → SameVersions n.store u.view u.txn.readTs

theorem SameVersions.refl (s : Store) (readTs : Nat) : SameVersions s s readTs := fun _ _ _ _ => rfl

variable {range : TsRange} {ops : List WriteOp}

theorem sameVersions_write {readTs : Nat} (hfits : BatchFits json range ops)
    (h : readTs < range.start) (store : Store) :
    SameVersions (store.write ops) store readTs := by
  intro k v hv hts
  refine get_write_of_not_mem fun op hop hk => ?_
  obtain ⟨-, hlo, -⟩ := (hfits.each op hop).row v (hk ▸ hv)
  omega

variable {n n' : Node} {id j : Nat} {t : Option Begun} {s : Session} {u : Begun}

section Grant

variable (hold : (∃ b idx, t = some b ∧ n.sessions id = .checked b idx) ∨
    t = none ∧ ∃ r, n.sessions id = .statement r)
  (hnew : s = .ended ∨ ∃ ops, s = .allocated t range ops ∧ BatchFits json range ops ∧
    ∀ b, t = some b → Covers b.txn range ops)
include hold hnew

theorem active_of_grant (hu : s.active = some u) :
    t = some u ∧ ∃ idx, n.sessions id = .checked u idx := by
  rcases hnew with rfl | ⟨ops, rfl, -⟩
  · cases hu
  · obtain rfl : t = some u := hu
    rcases hold with ⟨b, idx, hb, hid⟩ | ⟨h, -⟩
    · cases hb
      exact ⟨rfl, idx, hid⟩
    · cases h

theorem Becomes.active_of_grant (hs : Becomes n n' id s)
    (hu : (n'.sessions j).active = some u) : (n.sessions j).active = some u := by
  rcases hs.active hu with ⟨rfl, hu⟩ | ⟨-, hu⟩
  · obtain ⟨-, idx, hid⟩ := Tx.active_of_grant hold hnew hu
    rw [hid]
    rfl
  · exact hu

end Grant

variable {a : Action}

theorem SnapshotsOk.step_above (hn : SnapshotsOk json n) (hb : QuietBegin n a)
    (he : Effect json n a n') {i : Nat} (hi : n'.sessions i = .allocated t range ops)
    (hu : (n'.sessions j).active = some u) :
    u.txn.readTs < range.start := by
  cases he with
  | @move id s hm hs =>
    rw [hs i] at hi
    split at hi
    · exact absurd hi hm.not_allocated
    · rcases hs.active hu with ⟨rfl, hu⟩ | ⟨-, hu⟩
      · rcases hm.active hu with ⟨ha, -⟩ | ⟨w, hw, hts, -⟩
        · exact absurd hi (hb _ ha i t range ops)
        · rw [hts]
          exact hn.above i t range ops _ w hi hw
      · exact hn.above i t range ops j u hi hu
  | @grant id t' range' s hold hs hnew hlo hle h64 hread =>
    have hu' := hs.active_of_grant hold hnew hu
    rw [hs i] at hi
    split at hi
    · -- the new range starts at the counter, above every snapshot
      rcases hnew with rfl | ⟨ops', rfl, -⟩
      · cases hi
      · cases hi
        exact lt_of_lt_of_le (hn.readTs_lt j u hu') hlo
    · exact hn.above i t range ops j u hi hu'
  | @write id t' range' ops' ha hold hs =>
    rw [hs i] at hi
    split at hi
    · cases t' <;> cases hi
    · rcases hs.active hu with ⟨-, hu⟩ | ⟨-, hu⟩
      · cases t' <;> cases hu
      · exact hn.above i t range ops j u hi hu
  | crash ha hs =>
    rw [hs i] at hi
    exact absurd hi (crashed_ne_allocated _ _ _ _)

theorem SnapshotsOk.step_view (hn : SnapshotsOk json n) (he : Effect json n a n')
    (hu : (n'.sessions j).active = some u) :
    SameVersions n'.store u.view u.txn.readTs := by
  cases he with
  | @move id s hm hs hnext hstore =>
    rw [hstore]
    rcases hs.active hu with ⟨rfl, hu⟩ | ⟨-, hu⟩
    · rcases hm.active hu with ⟨-, -, -, hview⟩ | ⟨w, hw, hts, -, hview⟩
      · rw [hview]
        exact SameVersions.refl _ _
      · rw [hview, hts]
        exact hn.view _ w hw
    · exact hn.view j u hu
  | @grant id t' range' s hold hs hnew hlo hle h64 hread hnext hstore =>
    rw [hstore]
    exact hn.view j u (hs.active_of_grant hold hnew hu)
  | @write id t' range' ops' ha hold hs hnext hstore =>
    rcases hs.active hu with ⟨-, hu⟩ | ⟨-, hu⟩
    · cases t' <;> cases hu
    · have hfits := (hn.pending id t' range' ops' hold).1
      have habove := hn.above id t' range' ops' j u hold hu
      rw [hstore]
      intro k v hv hts
      rw [sameVersions_write hfits habove n.store k v hv hts]
      exact hn.view j u hu k v hv hts
  | crash ha hs =>
    rw [hs j, active_crashed] at hu
    cases hu

theorem SnapshotsOk.step (hn : SnapshotsOk json n) (hb : QuietBegin n a)
    (he : Effect json n a n') : SnapshotsOk json n' where
  toNodeOk := hn.toNodeOk.step he
  above _ _ _ _ _ _ hi hu := hn.step_above hb he hi hu
  view _ _ hu := hn.step_view he hu

theorem snapshotsOk_initial (store : Store) : SnapshotsOk json (initial json store) where
  toNodeOk := nodeOk_initial store
  above _ _ _ _ _ _ h := by cases h
  view _ _ h := by cases h

/-- In a run whose BEGINs are all quiet, the reads of every open transaction are repeatable. -/
theorem reads_repeatable (json : JsonFormat SegmentMeta) (store : Store) (as : List Action)
    (hg : Guarded (step json) ReadGuard (initial json store) as) (n : Node)
    (h : exec (step json) (initial json store) as = some n) : RepeatableReads n := by
  have hok : SnapshotsOk json n := by
    refine exec_inv (I := SnapshotsOk json) (fun s a s' hs hga hstep => ?_)
      (snapshotsOk_initial store) hg h
    exact hs.step hga.2 (effect_of_step hga.1 hstep)
  intro i t ht schema
  exact ⟨fun lo hi => visibleVersionsBetween_congr (hok.view i t ht) schema lo hi,
    fun pk => visibleRowAtPk_congr (hok.view i t ht) schema pk⟩

def sampleSchema : TableSchema :=
  { id := 7, name := "t", columns := [⟨"id", .int, false⟩], pk := ["id"], engine := .row }

def noIndex : IndexOps := ⟨[], fun _ h => by cases h⟩

def sampleJson : JsonFormat SegmentMeta := segmentCodec.toFormat

/-- An autocommit INSERT with a BEGIN between its allocation and its write. -/
def lateWrite : List Action :=
  [.statement 1, .allocStatement 1 sampleSchema [⟨[], some [.int 1]⟩] noIndex, .begin 2, .write 1]

/-- The row of the INSERT appears in the snapshot that was pinned before it was written. -/
theorem late_write_enters_snapshot : ∃ n,
    exec (step sampleJson) (initial sampleJson empty) lateWrite = some n ∧
      ¬ RepeatableReads n := by
  refine exists_run (P := fun n => (n.sessions 2).active.map (fun t => decide
    (visibleVersionsBetween n.store sampleSchema t.txn.readTs 0 16383 =
      visibleVersionsBetween t.view sampleSchema t.txn.readTs 0 16383)) = some false)
    (by decide +kernel) fun n _ hrun h => ?_
  obtain ⟨t, ht, hne⟩ := map_eq_some_iff.mp hrun
  exact of_decide_eq_false hne ((h 2 t ht sampleSchema).1 0 16383)

def quietWrite : List Action :=
  [.begin 2, .statement 1, .allocStatement 1 sampleSchema [⟨[], some [.int 1]⟩] noIndex, .write 1]

theorem guarded_quietWrite :
    Guarded (step sampleJson) ReadGuard (initial sampleJson empty) quietWrite := by
  have hother : ∀ (n : Node) (a : Action), NoWrap n a → (∀ id, a ≠ .begin id) → ReadGuard n a :=
    fun n a hw ha => ⟨hw, fun id h => absurd h (ha id)⟩
  refine .cons rfl ⟨by decide, fun _ _ _ _ _ _ => Session.noConfusion⟩ ?_
  refine .cons rfl (hother _ _ (by decide) (by simp)) ?_
  exact ⟨hother _ _ (by decide +kernel) (by simp), fun s _ =>
    ⟨hother _ _ (fun r hr => by cases hr) (by simp), fun _ _ => trivial⟩⟩

theorem reads_repeatable_quietWrite : ∃ n,
    exec (step sampleJson) (initial sampleJson empty) quietWrite = some n ∧
      RepeatableReads n :=
  exists_run (P := fun _ => True) (by decide +kernel) fun n hn _ =>
    reads_repeatable sampleJson empty quietWrite guarded_quietWrite n hn

/-! ## First committer wins -/

/-- The transaction of a session whose COMMIT has passed its validation. -/
def Session.validated : Session → Option Begun
  | .checked t _ => some t
  | .allocated t _ _ => t
  | _ => none

def Shares (t u : Txn) : Prop :=
  ∃ k, (t.writes.get k).isSome ∧ (u.writes.get k).isSome

/-- A validation is taken while no other transaction that stages one of its keys stands between
its own validation and its batch write, and while no other primary key's versions stand under the
version prefix of a staged key. -/
def SerialCheck (n : Node) (a : Action) : Prop :=
  ∀ id idx t, a = .check id idx → n.sessions id = .opened t →
    (∀ j u, (n.sessions j).validated = some u → ¬ Shares t.txn u.txn) ∧
    ∀ k, (t.txn.writes.get k).isSome → PkAlone n.store k.tableId k.pk

def CommitGuard (n : Node) (a : Action) : Prop := NoWrap n a ∧ QuietBegin n a ∧ SerialCheck n a

/-- No two committed transactions wrote one key and overlapped. -/
def FirstCommitterWins (n : Node) : Prop :=
  ∀ i j t u d e, i ≠ j → n.sessions i = .committed t d → n.sessions j = .committed u e →
    Shares t.txn u.txn → ¬ (t.begun < e ∧ u.begun < d)

def Overwritten (store : Store) (t : Txn) (readTs : Nat) : Prop :=
  ∀ k, (t.writes.get k).isSome →
    ∃ ts, readTs < ts ∧ ts < 2 ^ 64 ∧ (store.get (k.version ts)).isSome

structure CommitsOk (json : JsonFormat SegmentMeta) (n : Node) : Prop
    extends SnapshotsOk json n where
  begun_lt : ∀ i t, (n.sessions i).active = some t → t.begun < n.clock
  done_lt : ∀ i t d, n.sessions i = .committed t d → d < n.clock
  exclusive : ∀ i j t u, i ≠ j → (n.sessions i).validated = some t →
    (n.sessions j).validated = some u → ¬ Shares t.txn u.txn
  /-- What a commit has done to the transactions that were open at the time. -/
  after : ∀ i j t d u, n.sessions i = .committed t d → (n.sessions j).active = some u →
    u.begun < d → Overwritten n.store t.txn u.txn.readTs ∧
      ((n.sessions j).validated = some u → ¬ Shares t.txn u.txn)
  wins : FirstCommitterWins n

variable {store : Store}

theorem isSome_get_write (hfits : BatchFits json range ops) {k : TxnKey} {ts : Nat}
    (hts : ts < 2 ^ 64)
    (h : (store.get (k.version ts)).isSome ∨ ∃ val, .put (k.version ts) val ∈ ops) :
    ((store.write ops).get (k.version ts)).isSome := by
  have hparse := parseVersionKey_versionKey k.tableId k.pk (slotOf_lt_u16 k.tableId k.pk) hts
  rw [get_write]
  cases hl : lastWrite (k.version ts) ops with
  | some r =>
    obtain ⟨op, hop, hkey, rfl⟩ := exists_of_lastWrite hl
    exact ((hfits.each op hop).row _ (by rw [hkey]; exact hparse)).1
  | none =>
    rcases h with h | ⟨val, hmem⟩
    · exact h
    · exact absurd rfl (lastWrite_eq_none.mp hl _ hmem)

theorem Overwritten.write (hfits : BatchFits json range ops) {t : Txn} {readTs : Nat}
    (h : Overwritten store t readTs) :
    Overwritten (store.write ops) t readTs := by
  intro k hk
  obtain ⟨ts, hlt, h64, hsome⟩ := h k hk
  exact ⟨ts, hlt, h64, isSome_get_write hfits h64 (.inl hsome)⟩

theorem not_shares_of_check {t u : Txn} (hok : conflictCheck store u = .ok ())
    (halone : ∀ k, (u.writes.get k).isSome → PkAlone store k.tableId k.pk)
    (h : Overwritten store t u.readTs) : ¬ Shares t u := by
  rintro ⟨k, hkt, hku⟩
  obtain ⟨ts, hlt, h64, hsome⟩ := h k hkt
  obtain ⟨ts', hnew, hle⟩ := le_newestVersionTs (halone k hku) h64 hsome
  obtain ⟨w, hw⟩ := isSome_iff_exists.mp hku
  have := conflictCheck_eq_ok hok hw hnew
  omega

theorem Shares.symm {t u : Txn} (h : Shares t u) : Shares u t := by
  obtain ⟨k, ht, hu⟩ := h
  exact ⟨k, hu, ht⟩

theorem Session.active_of_validated {t : Begun} (h : s.validated = some t) : s.active = some t := by
  cases s <;> first | exact h | cases h

theorem Move.not_committed {s' : Session} (h : Move n a id s s') {t : Begun}
    {d : Nat} : s' ≠ .committed t d := by
  cases h <;> simp

theorem Move.validated {s' : Session} (h : Move n a id s s') {t : Begun}
    (ht : s'.validated = some t) :
    ∃ idx, a = .check id idx ∧ s = .opened t ∧ conflictCheck n.store t.txn = .ok () := by
  cases h with
  | check hok => cases ht; exact ⟨_, rfl, rfl, hok⟩
  | _ => cases ht

theorem CommitsOk.mono (hn : CommitsOk json n) (hs : SnapshotsOk json n')
    (hclock : n.clock ≤ n'.clock)
    (hact : ∀ j u, (n'.sessions j).active = some u → (n.sessions j).active = some u)
    (hval : ∀ j u, (n'.sessions j).validated = some u → (n.sessions j).validated = some u)
    (hcom : ∀ j t d, n'.sessions j = .committed t d → n.sessions j = .committed t d)
    (hover : ∀ j u, (n'.sessions j).active = some u → ∀ t,
      Overwritten n.store t u.txn.readTs → Overwritten n'.store t u.txn.readTs) :
    CommitsOk json n' where
  toSnapshotsOk := hs
  begun_lt j u hu := lt_of_lt_of_le (hn.begun_lt j u (hact j u hu)) hclock
  done_lt j t d hj := lt_of_lt_of_le (hn.done_lt j t d (hcom j t d hj)) hclock
  exclusive i j t u hij ht hu := hn.exclusive i j t u hij (hval i t ht) (hval j u hu)
  after i j t d u hi hu hlt := by
    obtain ⟨ho, hv⟩ := hn.after i j t d u (hcom i t d hi) (hact j u hu) hlt
    exact ⟨hover j u hu _ ho, fun h => hv (hval j u h)⟩
  wins i j t u d e hij hi hj := hn.wins i j t u d e hij (hcom i t d hi) (hcom j u e hj)

theorem CommitsOk.move (hn : CommitsOk json n) (hok : SnapshotsOk json n') (hg : SerialCheck n a)
    (hm : Move n a id (n.sessions id) s) (hs : Becomes n n' id s) (hstore : n'.store = n.store)
    (hclock : n'.clock = n.clock + 1) :
    CommitsOk json n' := by
  have hcom : ∀ j t d, n'.sessions j = .committed t d → n.sessions j = .committed t d := by
    intro j t d hj
    rw [hs j] at hj
    split at hj
    · exact absurd hj hm.not_committed
    · exact hj
  have hval : ∀ j u, (n'.sessions j).validated = some u → (n.sessions j).validated = some u ∨
      j = id ∧ s.validated = some u := by
    intro j u hu
    rw [hs j] at hu
    split at hu
    · next hj => exact .inr ⟨hj, hu⟩
    · exact .inl hu
  -- the session that is validated by this step shares nothing with those validated before
  have hnew : ∀ j t u, s.validated = some t → (n.sessions j).validated = some u →
      ¬ Shares t.txn u.txn := by
    intro j t u ht hu
    obtain ⟨idx, ha, hid, -⟩ := hm.validated ht
    exact (hg id idx t ha hid).1 j u hu
  refine ⟨hok, fun j u hu => ?_, fun j t d hj => ?_, fun i j t u hij ht hu => ?_,
    fun i j t d u hi hu hlt => ?_, fun i j t u d e hij hi hj =>
      hn.wins i j t u d e hij (hcom i t d hi) (hcom j u e hj)⟩
  · rcases hs.active hu with ⟨rfl, hu⟩ | ⟨-, hu⟩
    · rcases hm.active hu with ⟨-, -, hbegun, -⟩ | ⟨w, hw, -, hbegun, -⟩
      · omega
      · have := hn.begun_lt _ w hw
        omega
    · have := hn.begun_lt j u hu
      omega
  · have := hn.done_lt j t d (hcom j t d hj)
    omega
  · rcases hval i t ht with ht | ⟨rfl, ht⟩
    · rcases hval j u hu with hu | ⟨rfl, hu⟩
      · exact hn.exclusive i j t u hij ht hu
      · exact fun h => hnew i u t hu ht h.symm
    · rcases hval j u hu with hu | ⟨rfl, hu⟩
      · exact hnew j t u ht hu
      · exact absurd rfl hij
  · rw [hstore]
    have hi := hcom i t d hi
    rcases hs.active hu with ⟨rfl, hu⟩ | ⟨hj, hu⟩
    · rcases hm.active hu with ⟨-, -, hbegun, -⟩ | ⟨w, hw, hts, hbegun, -⟩
      · have := hn.done_lt i t d hi
        omega
      · obtain ⟨ho, -⟩ := hn.after i j t d w hi hw (by omega)
        rw [← hts] at ho
        refine ⟨ho, fun hv => ?_⟩
        rw [hs j, if_pos rfl] at hv
        obtain ⟨idx, ha, hid, hcheck⟩ := hm.validated hv
        exact not_shares_of_check hcheck (hg j idx u ha hid).2 ho
    · obtain ⟨ho, hv⟩ := hn.after i j t d u hi hu hlt
      refine ⟨ho, fun h => hv ?_⟩
      rwa [hs j, if_neg hj] at h

theorem CommitsOk.write {b : Begun} (hn : CommitsOk json n) (hok : SnapshotsOk json n')
    (hold : n.sessions id = .allocated (some b) range ops)
    (hs : Becomes n n' id (.committed b n.clock)) (hstore : n'.store = n.store.write ops)
    (hclock : n'.clock = n.clock + 1) : CommitsOk json n' := by
  obtain ⟨hfits, -, h64, hcover⟩ := hn.pending id (some b) range ops hold
  have hact : ∀ j u, (n'.sessions j).active = some u → j ≠ id ∧ (n.sessions j).active = some u := by
    intro j u hu
    rcases hs.active hu with ⟨-, hu⟩ | h
    · cases hu
    · exact h
  have hval : ∀ j u, (n'.sessions j).validated = some u →
      j ≠ id ∧ (n.sessions j).validated = some u := by
    intro j u hu
    rw [hs j] at hu
    split at hu
    · cases hu
    · next hj => exact ⟨hj, hu⟩
  have hcom : ∀ j t d, n'.sessions j = .committed t d →
      (j = id ∧ t = b ∧ d = n.clock) ∨ (j ≠ id ∧ n.sessions j = .committed t d) := by
    intro j t d hj
    rw [hs j] at hj
    split at hj
    · next hid => cases hj; exact .inl ⟨hid, rfl, rfl⟩
    · next hid => exact .inr ⟨hid, hj⟩
  have hb : (n.sessions id).active = some b := by rw [hold]; rfl
  have hbv : (n.sessions id).validated = some b := by rw [hold]; rfl
  -- a transaction that committed while `b` was open has no key of `b`
  have hbefore : ∀ j u e, n.sessions j = .committed u e → b.begun < e → ¬ Shares u.txn b.txn :=
    fun j u e hj hlt => (hn.after j id u e b hj hb hlt).2 hbv
  refine ⟨hok, fun j u hu => ?_, fun j t d hj => ?_, fun i j t u hij ht hu => ?_,
    fun i j t d u hi hu hlt => ?_, fun i j t u d e hij hi hj hsh => ?_⟩
  · have := hn.begun_lt j u (hact j u hu).2
    omega
  · rcases hcom j t d hj with ⟨-, -, rfl⟩ | ⟨-, hj⟩
    · omega
    · have := hn.done_lt j t d hj
      omega
  · exact hn.exclusive i j t u hij (hval i t ht).2 (hval j u hu).2
  · obtain ⟨hjid, hu⟩ := hact j u hu
    have hvj : (n'.sessions j).validated = (n.sessions j).validated := by rw [hs j, if_neg hjid]
    rw [hstore, hvj]
    rcases hcom i t d hi with ⟨rfl, rfl, rfl⟩ | ⟨-, hi⟩
    · refine ⟨fun k hk => ?_, fun hv => hn.exclusive i j t u hjid.symm hbv hv⟩
      obtain ⟨w, hw⟩ := isSome_iff_exists.mp hk
      obtain ⟨ts, val, hlo, hhi, hput⟩ := hcover t rfl k w hw
      have hread := hn.above i (some t) range ops j u hold hu
      exact ⟨ts, by omega, by omega, isSome_get_write hfits (by omega) (.inr ⟨val, hput⟩)⟩
    · obtain ⟨ho, hv⟩ := hn.after i j t d u hi hu hlt
      exact ⟨ho.write hfits, hv⟩
  · rintro ⟨hte, hud⟩
    rcases hcom i t d hi with ⟨rfl, rfl, rfl⟩ | ⟨-, hi⟩
    · rcases hcom j u e hj with ⟨rfl, -⟩ | ⟨-, hj⟩
      · exact hij rfl
      · exact hbefore j u e hj hte hsh.symm
    · rcases hcom j u e hj with ⟨rfl, rfl, rfl⟩ | ⟨-, hj⟩
      · exact hbefore i t d hi hud hsh
      · exact hn.wins i j t u d e hij hi hj hsh ⟨hte, hud⟩

theorem CommitsOk.step (hn : CommitsOk json n) (hb : QuietBegin n a) (hg : SerialCheck n a)
    (he : Effect json n a n') (hclock : n'.clock = n.clock + 1) :
    CommitsOk json n' := by
  have hok := hn.toSnapshotsOk.step hb he
  cases he with
  | move hm hs hnext hstore => exact hn.move hok hg hm hs hstore hclock
  | @grant id t range s hold hs hnew hlo hle h64 hread hnext hstore =>
    refine hn.mono hok (by omega) (fun j u hu => ?_) (fun j u hu => ?_) (fun j u d hj => ?_)
      fun j u _ t ho => hstore ▸ ho
    · exact hs.active_of_grant hold hnew hu
    · rw [hs j] at hu
      split at hu
      · next hj =>
        obtain ⟨-, idx, hid⟩ := active_of_grant hold hnew (active_of_validated hu)
        rw [hj, hid]
        rfl
      · exact hu
    · rw [hs j] at hj
      split at hj
      · rcases hnew with rfl | ⟨ops, rfl, -⟩ <;> cases hj
      · exact hj
  | @write id t range ops ha hold hs hnext hstore =>
    cases t with
    | some b => exact hn.write hok hold hs hstore hclock
    | none =>
      have hfits := (hn.pending id none range ops hold).1
      refine hn.mono hok (by omega) (fun j u hu => ?_) (fun j u hu => ?_) (fun j u d hj => ?_)
        fun j u _ t ho => hstore ▸ ho.write hfits
      · rcases hs.active hu with ⟨-, hu⟩ | ⟨-, hu⟩
        · cases hu
        · exact hu
      · rw [hs j] at hu
        split at hu
        · cases hu
        · exact hu
      · rw [hs j] at hj
        split at hj
        · cases hj
        · exact hj
  | crash ha hs =>
    have hact : ∀ j u, (n'.sessions j).active ≠ some u := by
      intro j u hu
      rw [hs j, active_crashed] at hu
      cases hu
    refine hn.mono hok (by omega) (fun j u hu => absurd hu (hact j u))
      (fun j u hu => absurd (active_of_validated hu) (hact j u)) (fun j u d hj => ?_)
      fun j u hu => absurd hu (hact j u)
    rw [hs j] at hj
    cases hj' : n.sessions j <;> rw [hj'] at hj <;> cases hj
    rfl

theorem commitsOk_initial (store : Store) : CommitsOk json (initial json store) where
  toSnapshotsOk := snapshotsOk_initial store
  begun_lt _ _ h := by cases h
  done_lt _ _ _ h := by cases h
  exclusive _ _ _ _ _ h := by cases h
  after _ _ _ _ _ h := by cases h
  wins _ _ _ _ _ _ _ h := by cases h

/-- In a run whose BEGINs are quiet and whose validations are serial, the first committer wins. -/
theorem first_committer_wins (json : JsonFormat SegmentMeta) (store : Store) (as : List Action)
    (hg : Guarded (step json) CommitGuard (initial json store) as) (n : Node)
    (h : exec (step json) (initial json store) as = some n) : FirstCommitterWins n := by
  have hok : CommitsOk json n := by
    refine exec_inv (I := CommitsOk json) (fun s a s' hs hga hstep => ?_)
      (commitsOk_initial store) hg h
    exact hs.step hga.2.1 hga.2.2 (effect_of_step hga.1 hstep) (clock_step hstep)
  exact hok.wins

def sampleEnv : Env where
  tables := [sampleSchema]
  lookup _ := .ok none
  writeSegmentFile _ _ _ := .error "no columnar table"

/-- Two transactions delete one row; both are validated before either writes. -/
def racingDeletes : List Action :=
  [.begin 1, .begin 2, .stageDelete 1 sampleSchema samplePk, .stageDelete 2 sampleSchema samplePk,
   .check 1 noIndex, .check 2 noIndex, .alloc 1 sampleEnv, .write 1, .alloc 2 sampleEnv, .write 2]

/-- Both commit. -/
theorem racing_deletes_both_commit : ∃ n,
    exec (step sampleJson) (initial sampleJson empty) racingDeletes = some n ∧
      ¬ FirstCommitterWins n := by
  refine exists_run (P := fun n => true = match n.sessions 1, n.sessions 2 with
    | .committed t d, .committed u e => decide ((t.txn.writes.get (toLex (7, samplePk))).isSome ∧
      (u.txn.writes.get (toLex (7, samplePk))).isSome ∧ t.begun < e ∧ u.begun < d)
    | _, _ => false) (by decide +kernel) fun n _ hrun h => ?_
  split at hrun
  · next t d u e h1 h2 =>
    obtain ⟨ht, hu, hover⟩ := of_decide_eq_true hrun.symm
    exact h 1 2 t u d e (by decide) h1 h2 ⟨_, ht, hu⟩ hover
  · cases hrun

/-- The same transactions; the second gives up. -/
def orderedDeletes : List Action :=
  [.begin 1, .begin 2, .stageDelete 1 sampleSchema samplePk, .stageDelete 2 sampleSchema samplePk,
   .check 1 noIndex, .alloc 1 sampleEnv, .write 1, .rollback 2]

theorem guarded_orderedDeletes :
    Guarded (step sampleJson) CommitGuard (initial sampleJson empty) orderedDeletes := by
  have hother : ∀ (n : Node) (a : Action), NoWrap n a → (∀ id, a ≠ .begin id) →
      (∀ id idx, a ≠ .check id idx) → CommitGuard n a := fun n a hw hb hc =>
    ⟨hw, fun id h => absurd h (hb id), fun id idx _ h => absurd h (hc id idx)⟩
  have hkey : ∀ (k : TxnKey), (((empty : SortedMap TxnKey TxnWrite).put
      (toLex (7, samplePk)) .tombstone).get k).isSome → k = toLex (7, samplePk) := by
    intro k hk
    rw [get_put] at hk
    by_contra hne
    rw [if_neg (Ne.symm hne)] at hk
    cases hk
  refine .cons rfl ⟨by decide, fun _ _ _ _ _ _ => Session.noConfusion,
    fun _ _ _ h => nomatch h⟩ ?_
  refine .cons rfl ⟨by decide, fun _ _ i _ _ _ h => ?_, fun _ _ _ h => nomatch h⟩ ?_
  · by_cases hi : i = 1
    · subst hi
      cases h
    · simp [Node.set, hi, initial] at h
  refine .cons rfl (hother _ _ (by decide) (by simp) (by simp)) ?_
  refine .cons rfl (hother _ _ (by decide) (by simp) (by simp)) ?_
  refine .cons rfl ⟨by decide, fun _ h => (nomatch h), fun id idx t ha ht => ?_⟩ ?_
  · cases ha
    cases ht
    refine ⟨fun j u hu => ?_, fun k hk => ?_⟩
    · by_cases hj : j = 1
      · subst hj
        cases hu
      · by_cases hj' : j = 2
        · subst hj'
          cases hu
        · simp [Node.set, hj, hj', initial, validated] at hu
    · rw [hkey k hk]
      decide +kernel
  refine .cons rfl (hother _ _ (by decide +kernel) (by simp) (by simp)) ?_
  refine .cons rfl (hother _ _ (by decide) (by simp) (by simp)) ?_
  exact ⟨hother _ _ (by decide) (by simp) (by simp), fun _ _ => trivial⟩

theorem first_committer_wins_orderedDeletes : ∃ n,
    exec (step sampleJson) (initial sampleJson empty) orderedDeletes = some n ∧
      FirstCommitterWins n :=
  exists_run (P := fun _ => True) (by decide +kernel) fun n hn _ =>
    first_committer_wins sampleJson empty orderedDeletes guarded_orderedDeletes n hn

end Rdb.Tx
