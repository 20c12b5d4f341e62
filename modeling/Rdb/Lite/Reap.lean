import Rdb.Lite.Layout

/-!
# The sweep of expired streams

A stream whose family was deleted is queued, and a later sweep deletes the range
between its group records and its pending rows. Keys of one slot and kind are in
the order of name length and then name, so the range also holds the group records
of every later stream of the slot and the pending rows of every earlier one.
-/

namespace Rdb.Lite

open Lib Ds List

/-! ## The sweep -/

/-- The stream is gone, or its deadline has passed. -/
def stale (store : Store) (now : Nat) (pre stream : Bytes) : Bool :=
  match store.get (metaKey pre stream) with
  | none => true
  | some raw => isExpired (decodeEnvelope raw).1 now

def reapStream (store : Store) (now : Nat) (pre stream : Bytes) : Store :=
  if stale store now pre stream then
    store.deleteRange (groupWindow pre stream).1 (groupWindow pre stream).2
  else store

/-- One drain of the queue; a name that was seen is not swept again. `now` is the clock when a
stream is swept. -/
def drainReaps (now : Bytes → Nat) (seen : List Bytes) (store : Store) :
    List (Bytes × Bytes) → Store
  | [] => store
  | (pre, stream) :: queue =>
    if stream ∈ seen then drainReaps now seen store queue
    else drainReaps now (stream :: seen) (reapStream store (now stream) pre stream) queue

inductive StreamRecord (s : StreamName) : Bytes → Prop where
  | «meta» : StreamRecord s (metaKey s.pre s.bytes)
  | entry (id : EntryId) : StreamRecord s (entryKey s.pre s.bytes id)
  | group (g : Bytes) : StreamRecord s (groupKey s.pre s.bytes g)
  | pend (g : Bytes) (id : EntryId) : StreamRecord s (pendKey s.pre s.bytes g id)
  | consumer (g c : Bytes) : StreamRecord s (consumerKey s.pre s.bytes g c)
  | delay (due : Nat) (id : EntryId) :
    StreamRecord s (delayRowKey s.pre due s.bytes (id.ms, id.seq))

/-! ## The key order inside a slot -/

/-- Name length first, then the bytes. -/
def Precedes (a b : Bytes) : Prop := a.length < b.length ∨ a.length = b.length ∧ a < b

/-- How a name stands in its keys. -/
def rank (name : Bytes) : Bytes := beBytes 4 name.length ++ name

theorem dataKey_eq_rank (pre : Bytes) (kind : UInt8) (name : Bytes) :
    dataKey pre kind name = pre ++ kind :: rank name := rfl

variable {a b : Bytes}

theorem rank_append_lt (ha : a.length < 2 ^ 32) (hb : b.length < 2 ^ 32) (h : Precedes a b)
    (x y : Bytes) : rank a ++ x < rank b ++ y := by
  unfold rank
  rw [append_assoc, append_assoc]
  rcases h with hlt | ⟨heq, hlt⟩
  · exact append_lt_append_of_length_eq (by simp)
      ((beBytes_lt_iff (by norm_num at ha ⊢; exact ha) (by norm_num at hb ⊢; exact hb)).mpr hlt) _ _
  · rw [heq, append_lt_append_iff]
    exact append_lt_append_of_length_eq heq hlt x y

theorem precedes_trichotomy (h : a ≠ b) : Precedes a b ∨ Precedes b a := by
  rcases Nat.lt_trichotomy a.length b.length with hl | hl | hl
  · exact .inl (.inl hl)
  · rcases lt_or_gt_of_ne h with hlt | hlt
    · exact .inl (.inr ⟨hl, hlt⟩)
    · exact .inr (.inr ⟨hl.symm, hlt⟩)
  · exact .inr (.inl hl)

theorem rank_append_lt_iff (ha : a.length < 2 ^ 32) (hb : b.length < 2 ^ 32) (h : a ≠ b)
    (x y : Bytes) : rank a ++ x < rank b ++ y ↔ Precedes a b := by
  refine ⟨fun hlt => ?_, fun hp => rank_append_lt ha hb hp x y⟩
  rcases precedes_trichotomy h with hp | hp
  · exact hp
  · exact absurd hlt (lt_asymm (rank_append_lt hb ha hp y x))

/-! ## What lies in the range -/

def InWindow (s : StreamName) (k : Bytes) : Prop :=
  (groupWindow s.pre s.bytes).1 ≤ k ∧ k < (groupWindow s.pre s.bytes).2

variable {s t : StreamName}

theorem inWindow_kind {k : Bytes} (h : InWindow s k) :
    ∃ rest, k = s.pre ++ kindStreamGroup :: rest ∨ k = s.pre ++ kindStreamPend :: rest := by
  obtain ⟨hle, hlt⟩ := h
  have hpre : s.pre <+: k :=
    isPrefix_of_le_of_le ((le_of_isPrefix (prefix_append _ _)).trans hle) hlt.le
      (prefix_append _ _)
  obtain ⟨rest, rfl⟩ := hpre
  simp only [groupWindow, dataKey_eq_rank] at hle hlt
  rw [append_le_append_iff] at hle
  rw [append_lt_append_iff] at hlt
  cases rest with
  | nil => exact absurd hle (not_le.mpr .nil)
  | cons x rest =>
    refine ⟨rest, ?_⟩
    rcases cons_le_iff.mp hle with hx | ⟨rfl, -⟩
    · rcases cons_lt_cons_iff.mp hlt with hx' | ⟨rfl, -⟩
      · -- no kind lies between the two
        have h1 : kindStreamGroup.toNat < x.toNat := hx
        have h2 : x.toNat < kindStreamPend.toNat := hx'
        simp only [kindStreamGroup, kindStreamPend, UInt8.toNat_ofNat] at h1 h2
        omega
      · exact .inr rfl
    · exact .inl rfl

theorem pre_inj {rest rest' : Bytes} (h : s.pre ++ rest = t.pre ++ rest') : s.pre = t.pre :=
  congrArg slotPrefix (slotPrefix_append_inj h).1

theorem not_inWindow_of_slot (hp : s.pre ≠ t.pre) (rest : Bytes) :
    ¬ InWindow s (t.pre ++ rest) := by
  intro h
  obtain ⟨rest', hk | hk⟩ := inWindow_kind h
  · exact hp (pre_inj hk).symm
  · exact hp (pre_inj hk).symm

theorem not_precedes_iff (ha : a.length < 2 ^ 32) (hb : b.length < 2 ^ 32)
    (h : a ≠ b) : ¬ Precedes a b ↔ Precedes b a := by
  refine ⟨(precedes_trichotomy h).resolve_left, fun hba hab => ?_⟩
  exact lt_asymm (rank_append_lt ha hb hab [] []) (rank_append_lt hb ha hba [] [])

theorem inWindow_groupKey (hst : s.bytes ≠ t.bytes) (g : Bytes) :
    InWindow s (groupKey t.pre t.bytes g) ↔ s.pre = t.pre ∧ Precedes s.bytes t.bytes := by
  have hkey : groupKey t.pre t.bytes g = t.pre ++ kindStreamGroup :: (rank t.bytes ++ g) := by
    simp [groupKey, elemKey, dataKey_eq_rank]
  by_cases hp : s.pre = t.pre
  · have hupper : groupKey t.pre t.bytes g < (groupWindow s.pre s.bytes).2 := by
      rw [hkey, ← hp]
      refine (append_lt_append_iff _).mpr (cons_lt_cons_iff.mpr (.inl ?_))
      decide
    have hlower : (groupWindow s.pre s.bytes).1 ≤ groupKey t.pre t.bytes g ↔
        ¬ Precedes t.bytes s.bytes := by
      rw [hkey, ← hp, ← rank_append_lt_iff t.short s.short hst.symm g [], not_lt, append_nil]
      exact (append_le_append_iff _).trans (append_le_append_iff [kindStreamGroup])
    rw [InWindow, hlower, and_iff_left hupper, not_precedes_iff t.short s.short hst.symm,
      and_iff_right hp]
  · rw [hkey]
    exact iff_of_false (not_inWindow_of_slot hp _) fun h => hp h.1

theorem inWindow_pendWindow (hst : s.bytes ≠ t.bytes) (tail : Bytes) :
    InWindow s (dataKey t.pre kindStreamPend t.bytes ++ tail) ↔
      s.pre = t.pre ∧ Precedes t.bytes s.bytes := by
  have hkey : dataKey t.pre kindStreamPend t.bytes ++ tail =
      t.pre ++ kindStreamPend :: (rank t.bytes ++ tail) := by
    simp [dataKey_eq_rank]
  by_cases hp : s.pre = t.pre
  · have hlower : (groupWindow s.pre s.bytes).1 ≤ dataKey t.pre kindStreamPend t.bytes ++ tail := by
      rw [hkey, ← hp]
      refine le_of_lt ((append_lt_append_iff _).mpr (cons_lt_cons_iff.mpr (.inl ?_)))
      decide
    have hupper : dataKey t.pre kindStreamPend t.bytes ++ tail < (groupWindow s.pre s.bytes).2 ↔
        Precedes t.bytes s.bytes := by
      rw [hkey, ← hp, ← rank_append_lt_iff t.short s.short hst.symm tail [], append_nil]
      exact (append_lt_append_iff _).trans (append_lt_append_iff [kindStreamPend])
    rw [InWindow, hupper, and_iff_right hlower, and_iff_right hp]
  · rw [hkey]
    exact iff_of_false (not_inWindow_of_slot hp _) fun h => hp h.1

theorem not_inWindow_of_kind {kind : UInt8} (hg : kind ≠ kindStreamGroup)
    (hp : kind ≠ kindStreamPend) (rest : Bytes) : ¬ InWindow s (t.pre ++ kind :: rest) := by
  intro h
  obtain ⟨rest', hk | hk⟩ := inWindow_kind h
  · rw [pre_inj hk, append_cancel_left_eq, cons.injEq] at hk
    exact hg hk.1
  · rw [pre_inj hk, append_cancel_left_eq, cons.injEq] at hk
    exact hp hk.1

theorem inWindow_own_group (g : Bytes) : InWindow s (groupKey s.pre s.bytes g) := by
  refine ⟨le_of_isPrefix (prefix_append _ _), ?_⟩
  simp only [groupKey, elemKey, dataKey_eq_rank, append_assoc]
  refine (append_lt_append_iff _).mpr (cons_lt_cons_iff.mpr (.inl ?_))
  decide

/-! ## The drain -/

def Sweeps (now : Bytes → Nat) (store : Store) (k : Bytes) (s : StreamName) : Prop :=
  stale store (now s.bytes) s.pre s.bytes ∧ InWindow s k

variable {now : Bytes → Nat} {store : Store} {k : Bytes}

theorem get_reapStream_of_sweeps (h : Sweeps now store k s) :
    (reapStream store (now s.bytes) s.pre s.bytes).get k = none := by
  rw [reapStream, if_pos h.1, SortedMap.get_deleteRange]
  exact if_pos h.2

theorem get_reapStream_of_not_sweeps (h : ¬ Sweeps now store k s) :
    (reapStream store (now s.bytes) s.pre s.bytes).get k = store.get k := by
  unfold reapStream
  split
  · next hst =>
    rw [SortedMap.get_deleteRange]
    exact if_neg fun hw => h ⟨hst, hw⟩
  · rfl

theorem sweeps_reapStream :
    Sweeps now (reapStream store (now s.bytes) s.pre s.bytes) k t ↔ Sweeps now store k t := by
  have hget : (reapStream store (now s.bytes) s.pre s.bytes).get (metaKey t.pre t.bytes) =
      store.get (metaKey t.pre t.bytes) :=
    get_reapStream_of_not_sweeps fun h =>
      not_inWindow_of_kind (by decide) (by decide) _ h.2
  rw [Sweeps, stale, hget, Sweeps, stale]

theorem streamName_ext (h : s.bytes = t.bytes) : s = t := by
  cases t
  cases h
  rfl

theorem get_reapStream_of_none (h : store.get k = none) :
    (reapStream store (now s.bytes) s.pre s.bytes).get k = none := by
  by_cases hw : Sweeps now store k s
  · exact get_reapStream_of_sweeps hw
  · rw [get_reapStream_of_not_sweeps hw, h]

variable {seen : List Bytes} {queue : List StreamName}

theorem get_drainReaps_of_none (h : store.get k = none) :
    (drainReaps now seen store (queue.map fun s => (s.pre, s.bytes))).get k = none := by
  induction queue generalizing seen store with
  | nil => exact h
  | cons s queue ih =>
    rw [map_cons, drainReaps]
    split
    · exact ih h
    · exact ih (get_reapStream_of_none h)

theorem get_drainReaps_of_sweeps (h : ∃ s ∈ queue, s.bytes ∉ seen ∧ Sweeps now store k s) :
    (drainReaps now seen store (queue.map fun s => (s.pre, s.bytes))).get k = none := by
  induction queue generalizing seen store with
  | nil => simp at h
  | cons s queue ih =>
    obtain ⟨t, ht, hseen, hw⟩ := h
    rw [map_cons, drainReaps]
    split
    · next hs =>
      rcases mem_cons.mp ht with rfl | ht
      · exact absurd hs hseen
      · exact ih ⟨t, ht, hseen, hw⟩
    · by_cases hts : t.bytes = s.bytes
      · -- the name is swept here, its later mentions find the key gone
        exact get_drainReaps_of_none (get_reapStream_of_sweeps (streamName_ext hts ▸ hw))
      · refine ih ⟨t, (mem_cons.mp ht).resolve_left fun h => hts (by rw [h]), ?_, ?_⟩
        · simp [hts, hseen]
        · exact sweeps_reapStream.mpr hw

theorem get_drainReaps_of_not_sweeps (h : ∀ s ∈ queue, ¬ Sweeps now store k s) :
    (drainReaps now seen store (queue.map fun s => (s.pre, s.bytes))).get k = store.get k := by
  induction queue generalizing seen store with
  | nil => rfl
  | cons s queue ih =>
    rw [map_cons, drainReaps]
    split
    · exact ih fun t ht => h t (mem_cons_of_mem _ ht)
    · rw [ih fun t ht => sweeps_reapStream.not.mpr (h t (mem_cons_of_mem _ ht))]
      exact get_reapStream_of_not_sweeps (h s mem_cons_self)

structure Spared (now : Bytes → Nat) (store : Store) (queue : List StreamName) (t : StreamName) :
    Prop where
  /-- A stream with group records is not behind a swept stream of its slot. -/
  group : ∀ s ∈ queue, stale store (now s.bytes) s.pre s.bytes → s.pre = t.pre →
    Precedes s.bytes t.bytes → ∀ g, store.get (groupKey t.pre t.bytes g) = none
  /-- A stream with pending or consumer rows is not in front of one. -/
  pend : ∀ s ∈ queue, stale store (now s.bytes) s.pre s.bytes → s.pre = t.pre →
    Precedes t.bytes s.bytes → ∀ g id, store.get (pendKey t.pre t.bytes g id) = none
  consumer : ∀ s ∈ queue, stale store (now s.bytes) s.pre s.bytes → s.pre = t.pre →
    Precedes t.bytes s.bytes → ∀ g c, store.get (consumerKey t.pre t.bytes g c) = none

/-- A drain leaves the records of a stream it was not given unchanged, and no group record of a
stale one it was given, exactly when the stream has no group records and is behind none of the
swept streams of its slot, or has no pending rows and is in front of none. -/
theorem drainReaps_confined_iff (now : Bytes → Nat) (store : Store) (queue : List StreamName)
    (t : StreamName) (ht : ∀ s ∈ queue, s.bytes ≠ t.bytes) :
    ((∀ k, StreamRecord t k →
        (drainReaps now [] store (queue.map fun s => (s.pre, s.bytes))).get k = store.get k) ∧
      ∀ s ∈ queue, stale store (now s.bytes) s.pre s.bytes → ∀ g,
        (drainReaps now [] store (queue.map fun s => (s.pre, s.bytes))).get
          (groupKey s.pre s.bytes g) = none) ↔
    Spared now store queue t := by
  have hkeep : ∀ k, (drainReaps now [] store (queue.map fun s => (s.pre, s.bytes))).get k =
      store.get k ↔ ∀ s ∈ queue, Sweeps now store k s → store.get k = none := by
    intro k
    by_cases hex : ∃ s ∈ queue, Sweeps now store k s
    · obtain ⟨s, hs, hw⟩ := hex
      rw [get_drainReaps_of_sweeps ⟨s, hs, by simp, hw⟩]
      exact ⟨fun h _ _ _ => h.symm, fun h => (h s hs hw).symm⟩
    · have hno : ∀ s ∈ queue, ¬ Sweeps now store k s := fun s hs hw => hex ⟨s, hs, hw⟩
      exact iff_of_true (get_drainReaps_of_not_sweeps hno) fun s hs hw => absurd hw (hno s hs)
  have hgone : ∀ s ∈ queue, stale store (now s.bytes) s.pre s.bytes → ∀ g,
      (drainReaps now [] store (queue.map fun s => (s.pre, s.bytes))).get
        (groupKey s.pre s.bytes g) = none := by
    intro s hs hst g
    exact get_drainReaps_of_sweeps ⟨s, hs, by simp, hst, inWindow_own_group g⟩
  rw [and_iff_left hgone]
  simp only [hkeep]
  constructor
  · intro h
    refine ⟨fun s hs hst hp hlt g => ?_, fun s hs hst hp hlt g id => ?_,
      fun s hs hst hp hlt g c => ?_⟩
    · exact h _ (.group g) s hs ⟨hst, (inWindow_groupKey (ht s hs) g).mpr ⟨hp, hlt⟩⟩
    · refine h _ (.pend g id) s hs ⟨hst, ?_⟩
      rw [pendKey_eq, inWindow_pendWindow (ht s hs)]
      exact ⟨hp, hlt⟩
    · refine h _ (.consumer g c) s hs ⟨hst, ?_⟩
      rw [consumerKey_eq, inWindow_pendWindow (ht s hs)]
      exact ⟨hp, hlt⟩
  · intro h k hk s hs hw
    obtain ⟨hst, hw⟩ := hw
    cases hk with
    | «meta» | delay due id => exact absurd hw (not_inWindow_of_kind (by decide) (by decide) _)
    | entry id =>
      rw [entryKey, elemKey, dataKey_eq_rank, append_assoc] at hw
      exact absurd hw (not_inWindow_of_kind (by decide) (by decide) _)
    | group g =>
      obtain ⟨hp, hlt⟩ := (inWindow_groupKey (ht s hs) g).mp hw
      exact h.group s hs hst hp hlt g
    | pend g id =>
      rw [pendKey_eq, inWindow_pendWindow (ht s hs)] at hw
      exact h.pend s hs hst hw.1 hw.2 g id
    | consumer g c =>
      rw [consumerKey_eq, inWindow_pendWindow (ht s hs)] at hw
      exact h.consumer s hs hst hw.1 hw.2 g c

def sampleLonger : StreamName :=
  ⟨[0x74, 0x2f, 0x71, 0x71], ⟨[0x74], [0x71, 0x71], by decide⟩, by decide⟩

/-- A stream with a meta record and a group `g`, and nothing else. -/
def sampleGrouped (s : StreamName) : Store :=
  .ofList [(metaKey s.pre s.bytes, [0]), (groupKey s.pre s.bytes [0x67], [0])]

theorem sampleGrouped_noPend (s : StreamName) (tail : Bytes) :
    (sampleGrouped s).get (dataKey s.pre kindStreamPend s.bytes ++ tail) = none := by
  rw [← Option.not_isSome_iff_eq_none]
  intro h
  obtain ⟨v, hv⟩ := Option.isSome_iff_exists.mp h
  have hmem := SortedMap.mem_of_get_ofList hv
  simp only [mem_cons, Prod.mk.injEq, not_mem_nil, or_false] at hmem
  rcases hmem with ⟨hk, -⟩ | ⟨hk, -⟩
  · have hk' := dataKey_append_inj.mp (hk.trans (append_nil _).symm)
    exact absurd hk'.1 (by decide)
  · exact absurd (dataKey_append_inj.mp hk).1 (by decide)

/-- Sweeping `t/qq` spares `t/q`, which has a group and no pending row. -/
theorem drainReaps_confined_shorter :
    Spared (fun _ => 0) (sampleGrouped sampleQueue) [sampleLonger] sampleQueue ∧
    (∀ k, StreamRecord sampleQueue k →
      (drainReaps (fun _ => 0) [] (sampleGrouped sampleQueue)
        ([sampleLonger].map fun s => (s.pre, s.bytes))).get k = (sampleGrouped sampleQueue).get k) ∧
    ∀ s ∈ [sampleLonger], stale (sampleGrouped sampleQueue) 0 s.pre s.bytes → ∀ g,
      (drainReaps (fun _ => 0) [] (sampleGrouped sampleQueue)
        ([sampleLonger].map fun s => (s.pre, s.bytes))).get (groupKey s.pre s.bytes g) = none := by
  have hs : Spared (fun _ => 0) (sampleGrouped sampleQueue) [sampleLonger] sampleQueue := by
    refine ⟨fun s hs _ _ hlt => ?_, fun _ _ _ _ _ g id => ?_, fun _ _ _ _ _ g c => ?_⟩
    · rw [mem_singleton.mp hs] at hlt
      rcases hlt with hlt | ⟨hlt, -⟩
      · exact absurd hlt (by decide)
      · exact absurd hlt (by decide)
    · exact sampleGrouped_noPend sampleQueue _
    · exact sampleGrouped_noPend sampleQueue _
  refine ⟨hs, (drainReaps_confined_iff _ _ _ _ fun s hs => ?_).mpr hs⟩
  rw [mem_singleton.mp hs]
  decide

/-- Sweeping `t/q` takes the group of `t/qq`. -/
theorem drainReaps_takes_longer_name :
    ¬ ((∀ k, StreamRecord sampleLonger k →
        (drainReaps (fun _ => 0) [] (sampleGrouped sampleLonger)
          ([sampleQueue].map fun s => (s.pre, s.bytes))).get k =
            (sampleGrouped sampleLonger).get k) ∧
      ∀ s ∈ [sampleQueue], stale (sampleGrouped sampleLonger) 0 s.pre s.bytes → ∀ g,
        (drainReaps (fun _ => 0) [] (sampleGrouped sampleLonger)
          ([sampleQueue].map fun s => (s.pre, s.bytes))).get (groupKey s.pre s.bytes g) =
            none) := by
  intro h
  have hrow := h.1 _ (.group [0x67])
  revert hrow
  decide +kernel

end Rdb.Lite
