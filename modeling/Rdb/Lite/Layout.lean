import Rdb.Lite.Model

/-!
# Key windows of a stream and of a group

The records of a stream stand under `dataKey prefix kind stream`, whose length field
precedes the name; those of a group append the raw group name. Two commands delete
by a range of keys:

* `XGROUP DESTROY` takes every key that starts with the group's pending base, so a
  group whose name goes on where the destroyed one ends loses its rows too
  (`destroy_confined_iff`).
* The sweep of an expired stream takes the keys from its group records to its pending
  rows, and other streams of the slot lie in between (`drainReaps_confined_iff`).
-/

namespace Rdb.Lite

open Lib Ds List SortedMap Option

/-! ## Keys -/

def metaKey (pre stream : Bytes) : Bytes := dataKey pre kindStreamMeta stream

def entryKey (pre stream : Bytes) (id : EntryId) : Bytes :=
  elemKey pre kindStreamEntry stream id.suffix

def groupKey (pre stream group : Bytes) : Bytes := elemKey pre kindStreamGroup stream group

def groupWindow (pre stream : Bytes) : Bytes × Bytes :=
  (dataKey pre kindStreamGroup stream, dataKey pre kindStreamPend stream)

/-- What every pending and consumer row of a group starts with. -/
def pendBase (pre stream group : Bytes) : Bytes := elemKey pre kindStreamPend stream group

def pendKey (pre stream group : Bytes) (id : EntryId) : Bytes :=
  pendBase pre stream group ++ pendTag :: id.suffix

def consumerKey (pre stream group consumer : Bytes) : Bytes :=
  pendBase pre stream group ++ consumerTag :: consumer

/-- The base with its last byte incremented, carries included. -/
def pendRangeEnd (pre stream group : Bytes) : Bytes :=
  (keyUpperBound (pendBase pre stream group)).getD (dataKey pre kindJson stream)

def parseLedgerKey (pk : Bytes) : Option (Bytes × Bytes) :=
  (slotPrefixLen pk).bind fun plen =>
    match pk.drop plen with
    | [] => none
    | kind :: body =>
      if kind ≠ kindStreamOffset ∨ body.length < 4 then none
      else
        let slen := ofBe (body.take 4)
        if (body.drop 4).length < slen then none
        else match splitSlash ((body.drop 4).drop slen) with
          | none => none
          | some (_, group) =>
            if group.isEmpty then none else some ((body.drop 4).take slen, group)

namespace StreamName

def slot (s : StreamName) : Nat := (slotWithPrefix (s.bytes.takeWhile (· != 0x2f))).1

def pre (s : StreamName) : Bytes := slotPrefix s.slot

theorem slot_lt (s : StreamName) : s.slot < 2 ^ 16 :=
  lt_trans (Nat.mod_lt _ (by decide)) (by decide : slotNumber < 2 ^ 16)

end StreamName

/-! ## Comparing keys -/

variable {pre stream : Bytes} {kind kind' : UInt8}

theorem isPrefix_dataKey_append {x y : Bytes} :
    dataKey pre kind stream ++ x <+: dataKey pre kind' stream ++ y ↔ kind = kind' ∧ x <+: y := by
  unfold dataKey
  rw [append_assoc, append_assoc, prefix_append_right_inj, cons_append,
    cons_append, cons_prefix_cons, prefix_append_right_inj]

theorem not_isPrefix_dataKey (hk : kind ≠ kind') (x : Bytes) :
    ¬ dataKey pre kind stream <+: dataKey pre kind' stream ++ x := by
  rw [← append_nil (dataKey pre kind stream), isPrefix_dataKey_append]
  exact fun h => hk h.1

theorem dataKey_append_inj {x y : Bytes} :
    dataKey pre kind stream ++ x = dataKey pre kind' stream ++ y ↔ kind = kind' ∧ x = y := by
  simp [dataKey]

theorem groupKey_inj {g h : Bytes} : groupKey pre stream g = groupKey pre stream h ↔ g = h := by
  simp [groupKey, elemKey]

theorem pendKey_eq (group : Bytes) (id : EntryId) : pendKey pre stream group id =
    dataKey pre kindStreamPend stream ++ (group ++ pendTag :: id.suffix) := by
  simp [pendKey, pendBase, elemKey]

theorem consumerKey_eq (group consumer : Bytes) : consumerKey pre stream group consumer =
    dataKey pre kindStreamPend stream ++ (group ++ consumerTag :: consumer) := by
  simp [consumerKey, pendBase, elemKey]

theorem keyUpperBound_pendBase (group : Bytes) :
    keyUpperBound (pendBase pre stream group) = some (pendRangeEnd pre stream group) := by
  have hsome : ∀ (p t : Bytes), (keyUpperBound (p ++ kindStreamPend :: t)).isSome := by
    intro p t
    induction p with
    | nil =>
      rw [nil_append, keyUpperBound]
      cases keyUpperBound t with
      | some ys => rfl
      | none => rfl
    | cons x p ih =>
      obtain ⟨ys, hys⟩ := isSome_iff_exists.mp ih
      rw [cons_append, keyUpperBound, hys]
      rfl
  have hb : pendBase pre stream group =
      pre ++ kindStreamPend :: (beBytes 4 stream.length ++ stream ++ group) := by
    simp [pendBase, elemKey, dataKey]
  unfold pendRangeEnd
  obtain ⟨u, hu⟩ := isSome_iff_exists.mp (hb ▸ hsome pre _)
  rw [hu]
  rfl

variable {group k : Bytes}

theorem mem_pendRange_iff :
    pendBase pre stream group ≤ k ∧ k < pendRangeEnd pre stream group ↔
      pendBase pre stream group <+: k := by
  constructor
  · rintro ⟨hle, hlt⟩
    refine isPrefix_of_keyUpperBound hle fun upper hu => ?_
    rw [keyUpperBound_pendBase] at hu
    cases hu
    exact hlt
  · intro hp
    exact ⟨le_of_isPrefix hp, lt_of_keyUpperBound hp (keyUpperBound_pendBase group)⟩

theorem parseLedgerKey_ledgerKey {slot : Nat} (hslot : slot < 2 ^ 16)
    (hshort : stream.length < 2 ^ 32) (group : Bytes) :
    parseLedgerKey (ledgerKey (slotPrefix slot) stream group) =
      if group.isEmpty then none else some (stream, group) := by
  have hlen : (beBytes 4 stream.length).length = 4 := by simp
  have hofBe : ofBe (beBytes 4 stream.length) = stream.length :=
    ofBe_beBytes_of_lt (by norm_num at hshort ⊢; exact hshort)
  have hkey : ledgerKey (slotPrefix slot) stream group =
      slotPrefix slot ++ (kindStreamOffset :: (beBytes 4 stream.length ++
        (stream ++ 0x2f :: group))) := by
    simp [ledgerKey, dataKey]
  rw [parseLedgerKey, hkey, slotPrefixLen_slotPrefix hslot, bind_some, drop_left]
  dsimp only
  rw [if_neg (by simp), take_left' hlen, drop_left' hlen, hofBe,
    if_neg (by simp), take_left, drop_left]
  rfl

/-! ## XGROUP DESTROY -/

/-- The committed-offset rows of a group, found by a walk over the stream's rows. -/
def foldGroupLedger (store : Store) (pre stream group : Bytes) : List Bytes :=
  let window := dataKey pre kindStreamOffset stream
  store.forEachFrom window false (fun ks k _ =>
    if window.isPrefixOf k then
      (if parseLedgerKey k = some (stream, group) then ks ++ [k] else ks, true)
    else (ks, false)) []

/-- The store after `XGROUP DESTROY`, and the reply: whether something was there. -/
def destroy (store : Store) (pre stream group : Bytes) : Store × Nat :=
  let existed := (store.get (groupKey pre stream group)).isSome
  let ledgerRows := foldGroupLedger store pre stream group
  if existed || !ledgerRows.isEmpty then
    let folded := store.write (ledgerRows.map .del)
    (if existed then
      (folded.delete (groupKey pre stream group)).deleteRange (pendBase pre stream group)
        (pendRangeEnd pre stream group)
    else folded, 1)
  else (store, 0)

variable {store : Store}

theorem mem_foldGroupLedger :
    k ∈ foldGroupLedger store pre stream group ↔ (store.get k).isSome ∧
      dataKey pre kindStreamOffset stream <+: k ∧ parseLedgerKey k = some (stream, group) := by
  have hrows : foldGroupLedger store pre stream group = (store.entries.filter fun e =>
      decide (dataKey pre kindStreamOffset stream <+: e.1)).filterMap fun e =>
        if parseLedgerKey e.1 = some (stream, group) then some e.1 else none := by
    unfold foldGroupLedger
    refine store.collect_prefix fun ks k _ _ => ?_
    refine if_congr isPrefixOf_iff_prefix ?_ rfl
    split <;> simp
  rw [hrows, mem_filterMap]
  simp only [mem_filter, decide_eq_true_eq, ite_none_right_eq_some, some.injEq]
  constructor
  · rintro ⟨e, ⟨he, hpre⟩, hparse, rfl⟩
    exact ⟨by rw [mem_entries.mp he]; rfl, hpre, hparse⟩
  · rintro ⟨hget, hpre, hparse⟩
    obtain ⟨v, hv⟩ := isSome_iff_exists.mp hget
    exact ⟨(k, v), ⟨mem_entries.mpr hv, hpre⟩, hparse, rfl⟩

def Destroys (store : Store) (pre stream group k : Bytes) : Prop :=
  ((store.get (groupKey pre stream group)).isSome ∧
    (k = groupKey pre stream group ∨ pendBase pre stream group <+: k)) ∨
  (dataKey pre kindStreamOffset stream <+: k ∧ parseLedgerKey k = some (stream, group))

open Classical in
theorem get_destroy (store : Store) (group k : Bytes) :
    (destroy store pre stream group).1.get k =
      if Destroys store pre stream group k then none else store.get k := by
  have hfolded : (store.write ((foldGroupLedger store pre stream group).map .del)).get k =
      if dataKey pre kindStreamOffset stream <+: k ∧ parseLedgerKey k = some (stream, group)
      then none else store.get k := by
    rw [get_write, lastWrite_map_del]
    by_cases hk : k ∈ foldGroupLedger store pre stream group
    · rw [if_pos hk, if_pos (mem_foldGroupLedger.mp hk).2]
      rfl
    · rw [if_neg hk]
      split
      · next h =>
        rw [mem_foldGroupLedger] at hk
        cases hg : store.get k with
        | none => rfl
        | some v => exact absurd ⟨by rw [hg]; rfl, h⟩ hk
      · rfl
  unfold destroy
  dsimp only
  cases hex : (store.get (groupKey pre stream group)).isSome with
  | true =>
    rw [Bool.true_or, if_pos rfl, if_pos rfl, get_deleteRange, get_delete, hfolded]
    simp only [mem_pendRange_iff, Destroys, hex, true_and, eq_comm (a := groupKey pre stream group)]
    split_ifs <;> first | rfl | tauto
  | false =>
    have hkeep : (if Destroys store pre stream group k then none else store.get k) =
        if dataKey pre kindStreamOffset stream <+: k ∧ parseLedgerKey k = some (stream, group)
        then none else store.get k := by
      simp [Destroys, hex]
    rw [hkeep, Bool.false_or]
    split
    · simpa using hfolded
    · next hrows =>
      have hnil : foldGroupLedger store pre stream group = [] := by simpa using hrows
      rw [hnil] at hfolded
      exact hfolded

/-! ## Which records -/

inductive GroupRecord (pre stream group : Bytes) : Bytes → Prop where
  | group : GroupRecord pre stream group (groupKey pre stream group)
  | pend (id : EntryId) : GroupRecord pre stream group (pendKey pre stream group id)
  | consumer (c : Bytes) : GroupRecord pre stream group (consumerKey pre stream group c)
  | ledger : GroupRecord pre stream group (ledgerKey pre stream group)

section destroys

variable {store : Store} {g h : Bytes}

theorem destroys_groupKey : Destroys store pre stream g (groupKey pre stream h) ↔
    (store.get (groupKey pre stream g)).isSome ∧ h = g := by
  have hp : ¬ pendBase pre stream g <+: groupKey pre stream h := fun hp =>
    absurd (isPrefix_dataKey_append.mp hp).1 (by decide)
  have hw : ¬ dataKey pre kindStreamOffset stream <+: groupKey pre stream h :=
    not_isPrefix_dataKey (by decide) h
  simp [Destroys, hp, hw, groupKey_inj]

theorem destroys_pendWindow {tail : Bytes} :
    Destroys store pre stream g (dataKey pre kindStreamPend stream ++ tail) ↔
      (store.get (groupKey pre stream g)).isSome ∧ g <+: tail := by
  have hg : dataKey pre kindStreamPend stream ++ tail ≠ groupKey pre stream g := fun he =>
    absurd (dataKey_append_inj.mp he).1 (by decide)
  have hw : ¬ dataKey pre kindStreamOffset stream <+: dataKey pre kindStreamPend stream ++ tail :=
    not_isPrefix_dataKey (by decide) tail
  have hb : pendBase pre stream g <+: dataKey pre kindStreamPend stream ++ tail ↔ g <+: tail := by
    unfold pendBase elemKey
    rw [isPrefix_dataKey_append, and_iff_right rfl]
  simp [Destroys, hg, hw, hb]

theorem destroys_ledgerKey {s : StreamName} :
    Destroys store s.pre s.bytes g (ledgerKey s.pre s.bytes h) ↔ h = g ∧ g ≠ [] := by
  have hg : ledgerKey s.pre s.bytes h ≠ groupKey s.pre s.bytes g := fun he =>
    absurd (dataKey_append_inj.mp he).1 (by decide)
  have hp : ¬ pendBase s.pre s.bytes g <+: ledgerKey s.pre s.bytes h := fun hp =>
    absurd (isPrefix_dataKey_append.mp hp).1 (by decide)
  have hw : dataKey s.pre kindStreamOffset s.bytes <+: ledgerKey s.pre s.bytes h :=
    prefix_append _ _
  simp only [Destroys, hg, hp, and_false, false_or, hw,
    show parseLedgerKey (ledgerKey s.pre s.bytes h) = _ from
      parseLedgerKey_ledgerKey s.slot_lt s.short h]
  cases h with
  | nil => simp [eq_comm]
  | cons x xs => simp [eq_comm]; rintro rfl; simp

end destroys

/-- When destroying `g` touches nothing of `h` and leaves nothing of `g`. -/
structure Confined (store : Store) (s : StreamName) (g h : Bytes) : Prop where
  /-- No stored row of `h` has a key that goes on with the name `g`. -/
  pend : (store.get (groupKey s.pre s.bytes g)).isSome → ∀ id,
    (store.get (pendKey s.pre s.bytes h id)).isSome → ¬ g <+: h ++ pendTag :: id.suffix
  consumer : (store.get (groupKey s.pre s.bytes g)).isSome → ∀ c,
    (store.get (consumerKey s.pre s.bytes h c)).isSome → ¬ g <+: h ++ consumerTag :: c
  /-- Without a group record the rows of `g` are not looked for. -/
  noPend : store.get (groupKey s.pre s.bytes g) = none →
    ∀ id, store.get (pendKey s.pre s.bytes g id) = none
  noConsumer : store.get (groupKey s.pre s.bytes g) = none →
    ∀ c, store.get (consumerKey s.pre s.bytes g c) = none
  /-- The committed offset of the group without a name does not read back. -/
  ledger : g = [] → store.get (ledgerKey s.pre s.bytes g) = none

theorem get_destroy_eq_iff :
    (destroy store pre stream group).1.get k = store.get k ↔
      ((store.get k).isSome → ¬ Destroys store pre stream group k) := by
  rw [get_destroy]
  cases hk : store.get k with
  | none => simp
  | some v => by_cases hd : Destroys store pre stream group k <;> simp [hd]

theorem get_destroy_eq_none_iff :
    (destroy store pre stream group).1.get k = none ↔
      ((store.get k).isSome → Destroys store pre stream group k) := by
  rw [get_destroy]
  cases hk : store.get k with
  | none => simp
  | some v => by_cases hd : Destroys store pre stream group k <;> simp [hd]

/-- `XGROUP DESTROY` leaves every record of another group unchanged and removes every record of
its own exactly when no row of the other group continues its name, its rows have a group
record, and its committed offset has a group name. -/
theorem destroy_confined_iff (store : Store) (s : StreamName) (g h : Bytes) (hgh : g ≠ h) :
    ((∀ k, GroupRecord s.pre s.bytes h k → (destroy store s.pre s.bytes g).1.get k = store.get k) ∧
      ∀ k, GroupRecord s.pre s.bytes g k → (destroy store s.pre s.bytes g).1.get k = none) ↔
    Confined store s g h := by
  simp only [get_destroy_eq_iff, get_destroy_eq_none_iff]
  constructor
  · rintro ⟨hkeep, hgone⟩
    refine ⟨fun hex id hid hp => ?_, fun hex c hc hp => ?_, fun hno id => ?_, fun hno c => ?_,
      fun hg => ?_⟩
    · refine hkeep _ (.pend id) hid ?_
      rw [pendKey_eq, destroys_pendWindow]
      exact ⟨hex, hp⟩
    · refine hkeep _ (.consumer c) hc ?_
      rw [consumerKey_eq, destroys_pendWindow]
      exact ⟨hex, hp⟩
    · have hd := hgone _ (.pend id)
      rw [pendKey_eq, destroys_pendWindow, hno] at hd
      rw [pendKey_eq, ← not_isSome_iff_eq_none]
      exact fun hs => nomatch (hd hs).1
    · have hd := hgone _ (.consumer c)
      rw [consumerKey_eq, destroys_pendWindow, hno] at hd
      rw [consumerKey_eq, ← not_isSome_iff_eq_none]
      exact fun hs => nomatch (hd hs).1
    · have hd := hgone _ .ledger
      rw [destroys_ledgerKey] at hd
      rw [← not_isSome_iff_eq_none]
      exact fun hs => (hd hs).2 hg
  · intro hc
    constructor
    · intro k hk hs
      cases hk with
      | group => exact fun hd => hgh (destroys_groupKey.mp hd).2.symm
      | pend id =>
        rw [pendKey_eq, destroys_pendWindow]
        exact fun hd => hc.pend hd.1 id hs hd.2
      | consumer c =>
        rw [consumerKey_eq, destroys_pendWindow]
        exact fun hd => hc.consumer hd.1 c hs hd.2
      | ledger => exact fun hd => hgh (destroys_ledgerKey.mp hd).1.symm
    · intro k hk hs
      cases hex : store.get (groupKey s.pre s.bytes g) with
      | none =>
        cases hk with
        | group => rw [hex] at hs; cases hs
        | pend id => rw [hc.noPend hex id] at hs; cases hs
        | consumer c => rw [hc.noConsumer hex c] at hs; cases hs
        | ledger =>
          refine destroys_ledgerKey.mpr ⟨rfl, fun hg => ?_⟩
          rw [hc.ledger hg] at hs
          cases hs
      | some v =>
        cases hk with
        | group => exact destroys_groupKey.mpr ⟨by rw [hex]; rfl, rfl⟩
        | pend id =>
          rw [pendKey_eq, destroys_pendWindow, hex]
          exact ⟨rfl, prefix_append _ _⟩
        | consumer c =>
          rw [consumerKey_eq, destroys_pendWindow, hex]
          exact ⟨rfl, prefix_append _ _⟩
        | ledger =>
          refine destroys_ledgerKey.mpr ⟨rfl, fun hg => ?_⟩
          rw [hc.ledger hg] at hs
          cases hs

def sampleQueue : StreamName :=
  ⟨[0x74, 0x2f, 0x71], ⟨[0x74], [0x71], by decide⟩, by decide⟩

/-- Two groups of `t/q`, each with a pending row and a consumer. -/
def sampleGroups (g h : Bytes) : Store :=
  .ofList [
    (groupKey sampleQueue.pre sampleQueue.bytes g, [0]),
    (pendKey sampleQueue.pre sampleQueue.bytes g ⟨1, 0⟩, [0]),
    (consumerKey sampleQueue.pre sampleQueue.bytes g [0x63], [0]),
    (groupKey sampleQueue.pre sampleQueue.bytes h, [0]),
    (pendKey sampleQueue.pre sampleQueue.bytes h ⟨1, 0⟩, [0]),
    (consumerKey sampleQueue.pre sampleQueue.bytes h [0x63], [0])]

theorem destroy_confined_other_name :
    Confined (sampleGroups [0x67] [0x68]) sampleQueue [0x67] [0x68] ∧
    (∀ k, GroupRecord sampleQueue.pre sampleQueue.bytes [0x68] k →
      (destroy (sampleGroups [0x67] [0x68]) sampleQueue.pre sampleQueue.bytes [0x67]).1.get k =
        (sampleGroups [0x67] [0x68]).get k) ∧
    ∀ k, GroupRecord sampleQueue.pre sampleQueue.bytes [0x67] k →
      (destroy (sampleGroups [0x67] [0x68]) sampleQueue.pre sampleQueue.bytes [0x67]).1.get k =
        none := by
  have hex : (sampleGroups [0x67] [0x68]).get (groupKey sampleQueue.pre sampleQueue.bytes [0x67]) =
      some [0] := by decide +kernel
  have hc : Confined (sampleGroups [0x67] [0x68]) sampleQueue [0x67] [0x68] :=
    ⟨fun _ _ _ => by simp, fun _ _ _ => by simp, fun h => by simp [hex] at h,
      fun h => by simp [hex] at h, fun h => by simp at h⟩
  exact ⟨hc, (destroy_confined_iff _ sampleQueue [0x67] [0x68] (by decide)).mpr hc⟩

/-- Destroying `g` takes the pending row of `g1`. -/
theorem destroy_takes_longer_name :
    ¬ ((∀ k, GroupRecord sampleQueue.pre sampleQueue.bytes [0x67, 0x31] k →
        (destroy (sampleGroups [0x67] [0x67, 0x31]) sampleQueue.pre sampleQueue.bytes
          [0x67]).1.get k = (sampleGroups [0x67] [0x67, 0x31]).get k) ∧
      ∀ k, GroupRecord sampleQueue.pre sampleQueue.bytes [0x67] k →
        (destroy (sampleGroups [0x67] [0x67, 0x31]) sampleQueue.pre sampleQueue.bytes
          [0x67]).1.get k = none) := by
  intro h
  have hrow := h.1 _ (.pend ⟨1, 0⟩)
  revert hrow
  decide +kernel

end Rdb.Lite
