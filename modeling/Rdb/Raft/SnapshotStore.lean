import Rdb.Raft.Fsm

/-!
# Saved snapshots

A snapshot is saved in three steps: its data file is staged beside its place and renamed,
the metadata that names the file is recorded, and then every other file of the directory
is deleted. The snapshot builder and the installation of a snapshot save from two tasks.
A crash ends all saves and leaves the files and the metadata as they are.

A file call is one step. The recorded metadata carries the data it was saved with, to
compare the file with.

* `tmpSibling_ne`: no staging file has the name of a snapshot.
-/

namespace Rdb.Raft

open Lib List Option

/-- The metadata of a snapshot as the store reads it. -/
structure Meta where
  lastLogId : Option Nat
  snapshotId : List Char
  deriving DecidableEq

/-- A path-safe file name, derived from the id. -/
def snapshotFileName (m : Meta) : List Char :=
  let ok (c : Char) : Bool := c.isAlphanum || c = '-' || c = '_' || c = '.'
  ['s', 'n', 'a', 'p', '-'] ++ m.snapshotId.map (fun c => if ok c then c else '-') ++
    ['.', 'j', 's', 'o', 'n']

def tmpSibling (path : List Char) : List Char := path ++ ['.', 't', 'm', 'p']

inductive Phase where
  | started | staged | renamed | recorded
  deriving DecidableEq

structure Save where
  info : Meta
  data : Bytes
  phase : Phase

def Save.name (v : Save) : List Char := snapshotFileName v.info

structure Disk where
  files : List Char → Option Bytes := fun _ => none
  durable : Option (Meta × Bytes) := none
  saves : List (Option Save) := []
  /-- The positions of the saves that have returned. -/
  reported : List (Option Nat) := []

def Disk.setFile (s : Disk) (name : List Char) (d : Option Bytes) : Disk :=
  { s with files := fun f => if f = name then d else s.files f }

def Disk.setSave (s : Disk) (i : Nat) (v : Option Save) : Disk :=
  { s with saves := s.saves.set i v }

inductive SaveStep where
  | start (info : Meta) (data : Bytes)
  | stage (i : Nat)
  | rename (i : Nat)
  | record (i : Nat)
  | remove (i : Nat) (file : List Char)
  | finish (i : Nat)
  | fail (i : Nat)
  | crash

def Disk.running (s : Disk) (i : Nat) (phase : Phase) : Option Save :=
  (s.saves[i]?).join.filter fun v => v.phase = phase

def saveStep (s : Disk) : SaveStep → Option Disk
  | .start info data => some { s with saves := s.saves ++ [some ⟨info, data, .started⟩] }
  | .stage i => (s.running i .started).map fun v =>
    (s.setFile (tmpSibling v.name) (some v.data)).setSave i (some { v with phase := .staged })
  | .rename i => do
    let v ← s.running i .staged
    let d ← s.files (tmpSibling v.name)
    return ((s.setFile (tmpSibling v.name) none).setFile v.name (some d)).setSave i
      (some { v with phase := .renamed })
  | .record i => (s.running i .renamed).map fun v =>
    { s with durable := some (v.info, v.data) }.setSave i (some { v with phase := .recorded })
  | .remove i file => do
    let v ← s.running i .recorded
    if file ≠ v.name then some (s.setFile file none) else none
  | .finish i => (s.running i .recorded).map fun v =>
    { s with reported := s.reported ++ [v.info.lastLogId] }.setSave i none
  | .fail i => (s.saves[i]?).join.map fun v =>
    (if v.phase = .staged then s.setFile (tmpSibling v.name) none else s).setSave i none
  | .crash => some { s with saves := [] }

/-! ## The invariant -/

theorem tmpSibling_ne (path : List Char) (m : Meta) : tmpSibling path ≠ snapshotFileName m := by
  intro h
  have hlast := congrArg getLast? h
  rw [tmpSibling, snapshotFileName, getLast?_append, getLast?_append] at hlast
  exact absurd (some.inj hlast) (by decide)

/-- The metadata names a complete file with its data, and is not older than what was reported. -/
structure Sound (s : Disk) : Prop where
  file : ∀ r ∈ s.durable, s.files (snapshotFileName r.1) = some r.2
  newest : ∀ p ∈ s.reported, ∃ r ∈ s.durable, upTo p ≤ upTo r.1.lastLogId

/-- A save may replace what is recorded: it is not older, and a file of the same name has the same
data. -/
def Replaces (s : Disk) (info : Meta) (data : Bytes) : Prop :=
  ∀ r ∈ s.durable, upTo r.1.lastLogId ≤ upTo info.lastLogId ∧
    (snapshotFileName r.1 = snapshotFileName info → r.2 = data)
  deriving Decidable

def Done (s : Disk) (v : Save) : Prop :=
  match v.phase with
  | .started => True
  | .staged => s.files (tmpSibling v.name) = some v.data
  | .renamed => s.files v.name = some v.data
  | .recorded => s.durable = some (v.info, v.data)

structure SaveInv (s : Disk) : Prop extends Sound s where
  alone : ∀ (i j : Nat) v w, s.saves[i]? = some (some v) → s.saves[j]? = some (some w) → i = j
  replaces : ∀ (i : Nat) v, s.saves[i]? = some (some v) → Replaces s v.info v.data
  done : ∀ (i : Nat) v, s.saves[i]? = some (some v) → Done s v

/-- A save starts when no other one is running and may replace what is recorded. -/
def Serial (s : Disk) : SaveStep → Prop
  | .start info data => (∀ v ∈ s.saves, v = none) ∧ Replaces s info data
  | _ => True

instance decidableSerial (s : Disk) (a : SaveStep) : Decidable (Serial s a) := by
  cases a <;> dsimp only [Serial] <;> infer_instance

/-! ## Steps -/

variable {s : Disk}

theorem running_eq_some {i : Nat} {phase : Phase} {v : Save} (h : s.running i phase = some v) :
    s.saves[i]? = some (some v) ∧ v.phase = phase := by
  obtain ⟨hv, hp⟩ := filter_eq_some_iff.mp h
  exact ⟨join_eq_some_iff.mp hv, of_decide_eq_true hp⟩

theorem SaveInv.advance {t : Disk} (h : SaveInv s) {i : Nat} {v : Save}
    (hv : s.saves[i]? = some (some v)) {x : Option Save} (hsaves : t.saves = s.saves.set i x)
    (hsound : Sound t) (hrep : ∀ w ∈ x, Replaces t w.info w.data) (hdone : ∀ w ∈ x, Done t w) :
    SaveInv t := by
  have honly : ∀ (j : Nat) w, t.saves[j]? = some (some w) → j = i ∧ w ∈ x := by
    intro j w hw
    rw [hsaves, getElem?_set] at hw
    split at hw
    · next hij =>
      split at hw
      · exact ⟨hij.symm, some.inj hw⟩
      · cases hw
    · next hij => exact absurd (h.alone i j v w hv hw) hij
  exact { hsound with
    alone := fun j k w w' hw hw' => (honly j w hw).1.trans (honly k w' hw').1.symm
    replaces := fun j w hw => hrep w (honly j w hw).2
    done := fun j w hw => hdone w (honly j w hw).2 }

theorem Sound.setFile (h : Sound s) {name : List Char} {d : Option Bytes}
    (hname : ∀ r ∈ s.durable, snapshotFileName r.1 = name → d = some r.2) :
    Sound (s.setFile name d) := by
  refine ⟨fun r hr => ?_, h.newest⟩
  simp only [Disk.setFile]
  split
  · next he => exact hname r hr he
  · exact h.file r hr

theorem Sound.setSave (h : Sound s) (i : Nat) (x : Option Save) :
    Sound (s.setSave i x) := ⟨h.file, h.newest⟩

theorem SaveInv.step {s' : Disk} {a : SaveStep} (h : SaveInv s) (hg : Serial s a)
    (hs : saveStep s a = some s') : SaveInv s' := by
  cases a with simp only [saveStep, bind_eq_bind, bind_eq_some_iff] at hs
  | start info data =>
    cases hs
    have honly : ∀ (j : Nat) w, (s.saves ++ [some ⟨info, data, .started⟩])[j]? = some (some w) →
        j = s.saves.length ∧ w = ⟨info, data, .started⟩ := by
      intro j w hw
      rw [getElem?_append] at hw
      split at hw
      · exact absurd (hg.1 _ (mem_of_getElem? hw)) nofun
      · obtain ⟨hlt, hw⟩ := List.getElem?_eq_some_iff.mp hw
        rw [length_singleton] at hlt
        refine ⟨by omega, ?_⟩
        rw [getElem_singleton] at hw
        exact (some.inj hw).symm
    exact { h.toSound with
      alone := fun j k w w' hw hw' => (honly j w hw).1.trans (honly k w' hw').1.symm
      replaces := fun j w hw => by
        rw [(honly j w hw).2]
        exact hg.2
      done := fun j w hw => by
        rw [(honly j w hw).2]
        trivial }
  | stage i =>
    obtain ⟨v, hv, rfl⟩ := map_eq_some_iff.mp hs
    obtain ⟨hv, -⟩ := running_eq_some hv
    refine h.advance hv rfl (Sound.setSave (h.toSound.setFile fun r _ he => ?_) i _) ?_ ?_
    · exact absurd he.symm (tmpSibling_ne _ _)
    · rintro w ⟨⟩
      exact h.replaces i v hv
    · rintro w ⟨⟩
      exact if_pos rfl
  | rename i =>
    obtain ⟨v, hv, d, hd, hs⟩ := hs
    cases hs
    obtain ⟨hv, hphase⟩ := running_eq_some hv
    have hdone := h.done i v hv
    rw [Done, hphase] at hdone
    cases hd.symm.trans hdone
    refine h.advance hv rfl (Sound.setSave (Sound.setFile (h.toSound.setFile fun r _ he => ?_)
      fun r hr he => ?_) i _) ?_ ?_
    · exact absurd he.symm (tmpSibling_ne _ _)
    · rw [(h.replaces i v hv r hr).2 he]
    · rintro w ⟨⟩
      exact h.replaces i v hv
    · rintro w ⟨⟩
      exact if_pos rfl
  | record i =>
    obtain ⟨v, hv, rfl⟩ := map_eq_some_iff.mp hs
    obtain ⟨hv, hphase⟩ := running_eq_some hv
    have hdone := h.done i v hv
    rw [Done, hphase] at hdone
    refine h.advance hv rfl ⟨?_, fun p hp => ?_⟩ ?_ ?_
    · rintro r ⟨⟩
      exact hdone
    · obtain ⟨r, hr, hle⟩ := h.newest p hp
      exact ⟨_, rfl, hle.trans (h.replaces i v hv r hr).1⟩
    · rintro w ⟨⟩ r ⟨⟩
      exact ⟨le_rfl, fun _ => rfl⟩
    · rintro w ⟨⟩
      exact rfl
  | remove i file =>
    obtain ⟨v, hv, hs⟩ := hs
    split at hs
    · next hne =>
      cases hs
      obtain ⟨hv, hphase⟩ := running_eq_some hv
      have hdone := h.done i v hv
      rw [Done, hphase] at hdone
      have hself : s.saves = s.saves.set i (some v) := by
        obtain ⟨hlt, hget⟩ := List.getElem?_eq_some_iff.mp hv
        rw [← hget, set_getElem_self]
      refine h.advance hv hself (h.toSound.setFile fun r hr he => ?_) ?_ ?_
      · rw [hdone] at hr
        cases hr
        exact absurd he.symm hne
      · rintro w ⟨⟩
        exact h.replaces i v hv
      · rintro w ⟨⟩
        rw [Done, hphase]
        exact hdone
    · cases hs
  | finish i =>
    obtain ⟨v, hv, rfl⟩ := map_eq_some_iff.mp hs
    obtain ⟨hv, hphase⟩ := running_eq_some hv
    have hdone := h.done i v hv
    rw [Done, hphase] at hdone
    refine h.advance hv rfl ⟨h.file, fun p hp => ?_⟩ nofun nofun
    rcases mem_append.mp hp with hp | hp
    · exact h.newest p hp
    · rw [mem_singleton.mp hp]
      exact ⟨_, hdone, le_rfl⟩
  | fail i =>
    obtain ⟨v, hv, rfl⟩ := map_eq_some_iff.mp hs
    have hv := join_eq_some_iff.mp hv
    split
    · refine h.advance hv rfl (Sound.setSave (h.toSound.setFile fun r _ he => ?_) i _) nofun nofun
      exact absurd he.symm (tmpSibling_ne _ _)
    · exact h.advance hv rfl (h.toSound.setSave i _) nofun nofun
  | crash =>
    cases hs
    exact { h.toSound with alone := nofun, replaces := nofun, done := nofun }

/-- In every run in which saves follow one another, each not older than the one before, the
recorded metadata names its file at every point at which the run may crash, and is never older
than what was reported. -/
theorem saved_snapshot_sound (as : List SaveStep) (s : Disk) (hg : Guarded saveStep Serial {} as)
    (h : exec saveStep {} as = some s) : Sound s := by
  have hinit : SaveInv {} :=
    { file := nofun, newest := nofun, alone := nofun, replaces := nofun, done := nofun }
  exact (exec_inv (fun _ _ _ hinv hc hs => hinv.step hc hs) hinit hg h).toSound

def firstMeta : Meta := ⟨some 5, ['a']⟩
def secondMeta : Meta := ⟨some 6, ['b']⟩

def saveAll (i : Nat) (info : Meta) (data : Bytes) : List SaveStep :=
  [.start info data, .stage i, .rename i, .record i]

theorem saved_snapshot_sound_two : ∃ s, exec saveStep {}
      (saveAll 0 firstMeta [1] ++ [.finish 0] ++ saveAll 1 secondMeta [2] ++
        [.remove 1 (snapshotFileName firstMeta), .crash]) = some s ∧
    s.durable = some (secondMeta, [2]) ∧ Sound s :=
  exists_run (by decide +kernel) fun s hs hh =>
    ⟨hh, saved_snapshot_sound _ s (by decide +kernel) hs⟩

/-- The second save deletes the file of the first one, which then records its metadata. -/
theorem saved_snapshot_lost : ∃ s, exec saveStep {}
      ([.start firstMeta [1], .stage 0, .rename 0] ++ saveAll 1 secondMeta [2] ++
        [.remove 1 (snapshotFileName firstMeta), .finish 1, .record 0, .crash]) = some s ∧
    s.durable = some (firstMeta, [1]) ∧ s.files (snapshotFileName firstMeta) = none ∧
    s.reported = [some 6] ∧ ¬ Sound s := by
  refine exists_run (P := fun s => s.durable = some (firstMeta, [1]) ∧
    s.files (snapshotFileName firstMeta) = none ∧ s.reported = [some 6]) (by decide +kernel)
    fun s _ hh => ⟨hh.1, hh.2.1, hh.2.2, fun hsound => ?_⟩
  have hfile := hsound.file _ hh.1
  rw [hh.2.1] at hfile
  cases hfile

end Rdb.Raft
