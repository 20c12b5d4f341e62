import Rdb.Tx.Isolation

/-!
# The timestamp floor across a restart

Every batch overwrites the one floor key with the last timestamp of its own
range, so the floor is right as long as batches reach the store in the order of
their ranges. A range that was handed out and not written before a crash is
handed out again.
-/

namespace Rdb.Tx

open Lib Sql SortedMap
open SortedMap (empty)

variable {json : JsonFormat SegmentMeta}

/-- A batch is written while no batch with a higher last timestamp has been. -/
def InOrder (n : Node) (a : Action) : Prop :=
  ∀ id t range ops, a = .write id → n.sessions id = .allocated t range ops →
    n.stamped ≤ range.stop - 1

def FloorGuard (n : Node) (a : Action) : Prop := NoWrap n a ∧ InOrder n a

/-- A crash is taken while no timestamp above the highest one stamped has been handed out. -/
def CleanCrash (n : Node) (a : Action) : Prop :=
  a = .crash → ∀ r ∈ n.granted, r.stop ≤ n.stamped + 1

/-- After a crash and the boot every record is still there and visible at `now`. -/
def VisibleAfterBoot (json : JsonFormat SegmentMeta) (store : Store) : Prop :=
  ∀ e ∈ store.entries, ∀ ts ∈ recordTs json e,
    (boot json store).1.get e.1 = some e.2 ∧ ts ≤ (boot json store).2.now
  deriving Decidable

/-- Every range handed out starts where all earlier ones had ended. -/
def NoReuse (n : Node) : Prop :=
  n.granted.Pairwise fun later earlier => earlier.stop ≤ later.start
  deriving Decidable

variable {store : Store}

theorem boot_eq (h : FloorBounds json store) :
    boot json store = (store, Oracle.new.advanceTo (recover store)) := by
  unfold boot
  dsimp only
  by_cases hpos : 0 < recover store
  · rw [if_pos hpos, if_neg (by omega)]
  · have hzero : recover store = 0 := by omega
    have hscan : scanMaxTs json store = 0 := by
      have := scanMaxTs_le (b := 0) fun e he ts hts => hzero ▸ h e he ts hts
      omega
    rw [if_neg hpos, hscan, hzero, if_neg (by omega)]

variable {range : TsRange} {ops : List WriteOp}

theorem recover_write (hfits : BatchFits json range ops) (h64 : range.stop < 2 ^ 64)
    (store : Store) : recover (store.write ops) = range.stop - 1 := by
  rw [recover, get_write, hfits.floor]
  exact ofBe_beBytes_of_lt (by omega)

theorem recordTs_write (hfits : BatchFits json range ops) {e : Bytes × Bytes}
    (he : e ∈ (store.write ops).entries) {ts : Nat} (hts : ts ∈ recordTs json e) :
    (range.start ≤ ts ∧ ts < range.stop) ∨ e ∈ store.entries := by
  rcases mem_entries_write he with ⟨op, hop, hk, hv⟩ | he
  · left
    unfold recordTs at hts
    split at hts
    · next v hpv =>
      cases hts
      exact ((hfits.each op hop).row v (by rw [hk]; exact hpv)).2
    · split at hts
      · next hm =>
        obtain ⟨b, m, hb, hd, hrange⟩ := (hfits.each op hop).segment (by rw [hk]; exact hm)
        rw [hv] at hb
        cases hb
        rw [hd] at hts
        cases hts
        exact hrange
      · cases hts
  · exact .inr he

structure FloorOk (json : JsonFormat SegmentMeta) (n : Node) : Prop extends NodeOk json n where
  bounds : FloorBounds json n.store
  stamped : recover n.store = n.stamped
  stamped_lt : n.stamped + 1 < 2 ^ 64

variable {n n' : Node} {a : Action}

theorem FloorOk.step (hn : FloorOk json n) (hg : InOrder n a)
    (he : Effect json n a n') : FloorOk json n' := by
  have hok := hn.toNodeOk.step he
  cases he with
  | move hm hs hnext hstore hgr hst | grant hold hs hnew hlo hle h64 hread hnext hstore hgr hst =>
    exact ⟨hok, hstore ▸ hn.bounds, by rw [hstore, hst]; exact hn.stamped, hst ▸ hn.stamped_lt⟩
  | @write id t range ops ha hold hs hnext hstore hgr hst =>
    obtain ⟨hfits, -, h64, -⟩ := hn.pending id t range ops hold
    have hord := hg id t range ops ha hold
    have hrec := recover_write hfits h64 n.store
    refine ⟨hok, ?_, by rw [hstore]; omega, by have := hn.stamped_lt; omega⟩
    rw [hstore]
    intro e hmem ts hts
    rcases recordTs_write hfits hmem hts with ⟨-, hlt⟩ | hold
    · omega
    · have := hn.bounds e hold ts hts
      have := hn.stamped
      omega
  | crash ha hs hstore ho hgr hst =>
    rw [boot_eq hn.bounds] at hstore hst
    have := hn.stamped
    exact ⟨hok, hstore ▸ hn.bounds, by rw [hstore, hst]; simp only; omega,
      by have := hn.stamped_lt; simp only at hst; omega⟩

theorem floorOk_initial : FloorOk json (initial json empty) := by
  have hb : FloorBounds json empty := fun e he => by cases he
  have hboot := boot_eq hb
  exact ⟨nodeOk_initial _, by rw [initial]; exact hb, rfl, by
    rw [initial, hboot]; decide⟩

/-- The ranges handed out lie below the counter, the newer above the older. -/
structure RangesOk (n : Node) : Prop where
  below : ∀ r ∈ n.granted, r.stop ≤ n.oracle.next
  fresh : NoReuse n

theorem RangesOk.step (hn : RangesOk n) (hf : FloorOk json n) (hc : CleanCrash n a)
    (he : Effect json n a n') : RangesOk n' := by
  cases he with
  | move hm hs hnext hstore hgr | write ha hold hs hnext hstore hgr =>
    exact ⟨by rw [hgr, hnext]; exact hn.below, by rw [NoReuse, hgr]; exact hn.fresh⟩
  | grant hold hs hnew hlo hle h64 hread hnext hstore hgr =>
    refine ⟨fun r hr => ?_, ?_⟩
    · rw [hgr] at hr
      rcases List.mem_cons.mp hr with rfl | hr
      · omega
      · have := hn.below r hr
        omega
    · rw [NoReuse, hgr]
      exact List.pairwise_cons.mpr ⟨fun r hr => le_trans (hn.below r hr) hlo, hn.fresh⟩
  | crash ha hs hstore ho hgr =>
    refine ⟨fun r hr => ?_, by rw [NoReuse, hgr]; exact hn.fresh⟩
    rw [hgr] at hr
    have hle := hc ha r hr
    have hst := hf.stamped
    have hlt := hf.stamped_lt
    rw [ho, boot_eq hf.bounds]
    simp only [Oracle.advanceTo]
    omega

theorem rangesOk_initial (store : Store) : RangesOk (initial json store) where
  below r hr := by cases hr
  fresh := .nil

/-- In a run whose batches are written in the order of their ranges, the floor bounds every record
and a restart shows them all; when in addition every crash is clean, no timestamp is handed out
twice. -/
theorem floor_bounds_records (json : JsonFormat SegmentMeta) (as : List Action)
    (hg : Guarded (step json) FloorGuard (initial json empty) as) (n : Node)
    (h : exec (step json) (initial json empty) as = some n) :
    FloorBounds json n.store ∧ VisibleAfterBoot json n.store ∧
      (Guarded (step json) CleanCrash (initial json empty) as → NoReuse n) := by
  have hok : FloorOk json n := by
    refine exec_inv (I := FloorOk json) (fun s a s' hs hga hstep => ?_) floorOk_initial hg h
    exact hs.step hga.2 (effect_of_step hga.1 hstep)
  refine ⟨hok.bounds, fun e he ts hts => ?_, fun hc => ?_⟩
  · have hle := hok.bounds e he ts hts
    have hlt := hok.stamped_lt
    have hst := hok.stamped
    rw [boot_eq hok.bounds]
    refine ⟨mem_entries.mp he, ?_⟩
    simp only [Oracle.now, Oracle.advanceTo]
    omega
  · have hboth : FloorOk json n ∧ RangesOk n := by
      refine exec_inv (I := fun s => FloorOk json s ∧ RangesOk s) (fun s a s' hs hga hstep => ?_)
        ⟨floorOk_initial, rangesOk_initial _⟩ (hg.and hc) h
      have he := effect_of_step hga.1.1 hstep
      exact ⟨hs.1.step hga.1.2 he, hs.2.step hs.1 hga.2 he⟩
    exact hboth.2.fresh

def insertOf (i : BitVec 64) : List RowWrite := [⟨[], some [.int i]⟩]

/-- Two INSERTs whose batches arrive in the other order, a crash, and a third INSERT. -/
def outOfOrder : List Action :=
  [.statement 1, .statement 2, .allocStatement 1 sampleSchema (insertOf 1) noIndex,
   .allocStatement 2 sampleSchema (insertOf 2) noIndex, .write 2, .write 1, .crash, .statement 3,
   .allocStatement 3 sampleSchema (insertOf 3) noIndex]

/-- The floor falls below the second row, which the restart does not show, and the timestamp of
that row is handed out again. -/
theorem out_of_order_lowers_floor : ∃ n,
    exec (step sampleJson) (initial sampleJson empty) outOfOrder = some n ∧
      ¬ FloorBounds sampleJson n.store ∧ ¬ VisibleAfterBoot sampleJson n.store ∧ ¬ NoReuse n :=
  exists_run (by decide +kernel) fun _ _ h => h

def deleteAndRestart : List Action :=
  [.statement 1, .allocStatement 1 sampleSchema [⟨[(samplePk, [.int 1])], none⟩] noIndex, .write 1,
   .crash, .statement 2, .allocStatement 2 sampleSchema [⟨[(samplePk, [.int 1])], none⟩] noIndex]

theorem guarded_deleteAndRestart :
    Guarded (step sampleJson) FloorGuard (initial sampleJson empty) deleteAndRestart ∧
      Guarded (step sampleJson) CleanCrash (initial sampleJson empty)
        deleteAndRestart := by
  have hother : ∀ (n : Node) (a : Action), NoWrap n a → (∀ id, a ≠ .write id) → FloorGuard n a :=
    fun n a hw ha => ⟨hw, fun id _ _ _ h => absurd h (ha id)⟩
  have hclean : ∀ (n : Node) (a : Action), a ≠ .crash → CleanCrash n a :=
    fun n a h h' => absurd h' h
  constructor
  · refine .cons rfl (hother _ _ (by decide) (by simp)) ?_
    refine .cons rfl (hother _ _ (by decide +kernel) (by simp)) ?_
    refine .cons rfl ⟨by decide, fun _ _ _ _ _ _ => ?_⟩ ?_
    · exact Nat.zero_le _
    refine .cons rfl (hother _ _ (by decide) (by simp)) ?_
    refine .cons rfl (hother _ _ (by decide) (by simp)) ?_
    exact ⟨hother _ _ (by decide +kernel) (by simp), fun _ _ => trivial⟩
  · refine .cons rfl (hclean _ _ (by simp)) ?_
    refine .cons rfl (hclean _ _ (by simp)) ?_
    refine .cons rfl (hclean _ _ (by simp)) ?_
    refine .cons rfl (fun _ => by decide +kernel) ?_
    refine .cons rfl (hclean _ _ (by simp)) ?_
    exact ⟨hclean _ _ (by simp), fun _ _ => trivial⟩

theorem floor_bounds_records_deleteAndRestart : ∃ n,
    exec (step sampleJson) (initial sampleJson empty) deleteAndRestart = some n ∧
      FloorBounds sampleJson n.store ∧ VisibleAfterBoot sampleJson n.store ∧ NoReuse n := by
  refine exists_run (P := fun _ => True) (by decide +kernel) fun n hn _ => ?_
  obtain ⟨hg, hc⟩ := guarded_deleteAndRestart
  obtain ⟨hb, hv, hr⟩ := floor_bounds_records sampleJson deleteAndRestart hg n hn
  exact ⟨hb, hv, hr hc⟩

end Rdb.Tx
