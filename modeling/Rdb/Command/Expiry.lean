import Rdb.Ds.Wipe

/-!
# Purges beside commands

A purge reads a root record, decides that it is due, and later writes a batch that wipes
the family. A detached lazy purge reads the root once more before it writes; an inline
one and the active sampler do not. None of them holds the latch of the key, so a command
can commit between the last read and the batch.

`owed` is the history of what ought to be stored: what the commands of a key wrote, as long
as its root is not due. No purge changes it. `purge_keeps_fresh`: if no command leaves a live
root under a purge that has made its last read, no command gives a record that is not a root
an index entry and no command is on a name that reads as a record, all that is owed is
stored.
-/

namespace Rdb.Command.Expiry

open Lib Ds List Option
open Function (update update_self update_of_ne update_eq_self update_idem)

/-! ## Purges -/

/-- A purge that has decided. It wipes the family of `root`, or (`none`) drops a stale index entry only;
`checked` once it has read the root for the last time. -/
structure Purge where
  root : Option Bytes
  expire : Nat
  batch : List BatchEntry
  checked : Bool
  deriving DecidableEq

/-- The first half of `purge_if_expired` and `purge_if_expired_arc`. -/
def decideLazy (store : Store) (now : Nat) (p : Place) (family : CodecFamily) (detached : Bool) :
    Option Purge :=
  (lazyPurgeBatch store p.pre family p.key.bytes now).map fun x =>
    { root := some (p.data family.1), expire := x.1, batch := x.2, checked := !detached }

def indexKey (pre body : Bytes) (expire : Nat) : Bytes :=
  pre ++ kindExpireIndex :: (beBytes 8 expire ++ body)

/-- The first half of `purge_indexed`, for a due index entry with this deadline and this body. -/
def decideActive (store : Store) (now : Nat) (pre body : Bytes) (expire : Nat) : Option Purge :=
  let stale : Purge :=
    { root := none, expire, batch := [.delete (indexKey pre body expire)], checked := true }
  (body.head?.bind familyOf).bind fun family =>
    let dataKey := pre ++ body
    match store.get dataKey with
    | none => some stale
    | some val =>
      let current := (decodeEnvelope val).1
      if current = expire ∧ isExpired current now then
        (decodeDataKey dataKey pre.length).map fun d =>
          { root := some dataKey, expire, checked := true
            batch := familyDeleteEntries (some store) pre family d.2.1 expire }
      else some stale

def revalidateExpire (expected : Nat) (current : Option Bytes) : Bool :=
  current.any fun val => (decodeEnvelope val).1 == expected

/-- The families that lookups and the typed commands purge. -/
def purgedFamilies : List CodecFamily := metaKinds.filterMap familyOf

/-! ## Commands -/

/-- One write of a command to its key. -/
inductive Edit where
  | put (n : Part) (valid : n.Valid) (v : Bytes)
  | delete (n : Part) (valid : n.Valid)
  /-- The entries of `family_delete_entries`. -/
  | wipe (family : CodecFamily) (mem : family ∈ families) (expire : Nat)
  /-- The entries of `set_ttl_entries` for the record of this kind. -/
  | deadline (kind : UInt8) (old new : Nat)

/-- The records of one key. -/
abbrev Value := Part → Option Bytes

namespace Edit

def entries (store : Store) (p : Place) : Edit → List BatchEntry
  | put n _ v => [.put (p.record n) v]
  | delete n _ => [.delete (p.record n)]
  | wipe family _ expire => familyDeleteEntries (some store) p.pre family p.key.bytes expire
  | deadline kind old new => setTtlEntries p.pre (p.data kind) old new

def apply (val : Value) : Edit → Value
  | put n _ v => update val n (some v)
  | delete n _ => update val n none
  | wipe family _ _ => fun n => if n.InFamily family then none else val n
  | deadline _ _ _ => val

/-- An index entry is one of a root. -/
def Rooted : Edit → Prop
  | deadline kind _ _ => kind ∈ metaKinds
  | _ => True

instance : ∀ e : Edit, Decidable e.Rooted
  | deadline _ _ _ => inferInstanceAs (Decidable (_ ∈ _))
  | put _ _ _ | delete _ _ | wipe _ _ _ => .isTrue trivial

end Edit

def rootKind (kind : UInt8) : UInt8 :=
  (familyOf kind).elim kind fun f => if f = offsetFamily then kindStreamMeta else f.1

/-- The record that carries the deadline of another. A raw string has none; committed offsets and delay
rows go with their stream. -/
def rootOf : Part → Part
  | .raw => .raw
  | .elem kind _ => .elem (rootKind kind) []
  | .row _ _ => .elem kindStreamMeta []

/-- The root is there and not due. -/
def Lives (now : Nat) (val : Value) (n : Part) : Prop :=
  n = .raw ∨ (val (rootOf n)).any (fun v => !isExpired (decodeEnvelope v).1 now)
  deriving Decidable

def live (now : Nat) (val : Value) : Value := fun n => if Lives now val n then val n else none

/-! ## The world -/

structure World where
  store : Store
  now : Nat
  pending : List Purge
  owed : Place → Value

inductive Step where
  | tick (ms : Nat)
  | decideLazy (p : Place) (family : CodecFamily) (detached : Bool)
  /-- The sampler meets an index entry. -/
  | decideActive (slot : Nat) (body : Bytes) (expire : Nat)
  /-- The second read of a detached purge. -/
  | revalidate (i : Nat)
  /-- The batch of a purge. -/
  | land (i : Nat)
  /-- The batch of a latched command. -/
  | command (p : Place) (edits : List Edit)

def commandBatch (store : Store) (p : Place) (edits : List Edit) : List BatchEntry :=
  edits.flatMap (Edit.entries store p)

def step (w : World) : Step → Option World
  | .tick ms => some { w with now := w.now + ms, owed := fun p => live (w.now + ms) (w.owed p) }
  | .decideLazy p family detached =>
    if family ∈ purgedFamilies then
      some { w with pending := w.pending ++ (Expiry.decideLazy w.store w.now p family detached).toList }
    else none
  | .decideActive slot body expire =>
    if isExpired expire w.now ∧ (w.store.get (indexKey (slotPrefix slot) body expire)).isSome then
      some { w with pending := w.pending ++
        (Expiry.decideActive w.store w.now (slotPrefix slot) body expire).toList }
    else none
  | .revalidate i => w.pending[i]?.bind fun p =>
    if p.checked then none
    else if p.root.any fun r => revalidateExpire p.expire (w.store.get r) then
      some { w with pending := w.pending.set i { p with checked := true } }
    else some { w with pending := w.pending.eraseIdx i }
  | .land i => w.pending[i]?.bind fun p =>
    if p.checked then
      some { w with store := batchWrite w.store p.batch, pending := w.pending.eraseIdx i }
    else none
  | .command p edits =>
    some { w with
      store := batchWrite w.store (commandBatch w.store p edits)
      owed := update w.owed p (live w.now (edits.foldl Edit.apply (w.owed p))) }

def Dead (store : Store) (now : Nat) (root : Option Bytes) : Prop :=
  ∀ r ∈ root, ∀ v ∈ store.get r, isExpired (decodeEnvelope v).1 now
  deriving Decidable

/-- A command does not leave a live root under a purge that will not read it again, has a name that
reads as no record, and gives index entries to roots only. -/
def Clear (w : World) : Step → Prop
  | .command p edits =>
    (∀ q ∈ w.pending, q.checked →
      Dead (batchWrite w.store (commandBatch w.store p edits)) w.now q.root) ∧
    p.Plain ∧ ∀ e ∈ edits, e.Rooted
  | _ => True

instance decidableClear (w : World) (a : Step) : Decidable (Clear w a) := by
  cases a <;> dsimp only [Clear] <;> infer_instance

def Kept (store : Store) (owed : Place → Value) : Prop :=
  ∀ p n v, n.Valid → owed p n = some v → store.get (p.record n) = some v

/-! ## What is owed -/

variable {now : Nat} {store : Store} {owed : Place → Value} {p : Place} {n : Part} {v : Bytes}

theorem valid_rootOf (hn : n.Valid) : (rootOf n).Valid ∧ rootOf (rootOf n) = rootOf n := by
  have hkinds : ∀ kind ∈ recordKinds, rootKind kind ∈ recordKinds ∧ rootKind (rootKind kind) = rootKind kind := by
    decide +kernel
  have hstream : (Part.elem kindStreamMeta []).Valid := by
    show kindStreamMeta ∈ recordKinds
    decide
  cases n with
  | raw => exact ⟨trivial, rfl⟩
  | elem kind s => exact ⟨(hkinds kind hn).1, congrArg (Part.elem · []) (hkinds kind hn).2⟩
  | row due locked => exact ⟨hstream, rfl⟩

theorem eq_some_of_live {val : Value} (h : live now val n = some v) :
    val n = some v ∧ Lives now val n := by
  unfold live at h
  split at h
  · next hl => exact ⟨h, hl⟩
  · cases h

theorem Lives.live {val : Value} (hn : n.Valid) (h : Lives now val n) : Lives now (live now val) n := by
  refine h.imp_right fun hroot => ?_
  have hlives : Lives now val (rootOf n) := .inr (by rwa [(valid_rootOf hn).2])
  rwa [Expiry.live, if_pos hlives]

theorem Kept.live (h : Kept store owed) (now : Nat) : Kept store fun p => live now (owed p) :=
  fun p n v hn hv => h p n v hn (eq_some_of_live hv).1

/-! ## Commands keep what is owed -/

/-- Raw strings are owed under plain names only. -/
def Named (owed : Place → Value) : Prop := ∀ p, (owed p .raw).isSome → p.Plain

theorem Named.plain (h : Named owed) (hv : owed p n = some v) (hraw : n = .raw) : p.Plain :=
  h p (by rw [← hraw, hv]; rfl)

theorem get_setTtlEntries {pre key x : Bytes} (hx : ∀ e, expireIndexKey pre e key ≠ x)
    (store : Store) (old new : Nat) :
    (batchWrite store (setTtlEntries pre key old new)).get x = store.get x := by
  have hdel : (batchWrite store (if old ≠ new ∧ 0 < old then
      [.delete (expireIndexKey pre old key)] else [])).get x = store.get x := by
    split
    · exact (SortedMap.get_delete _ _ _).trans (if_neg (hx old))
    · rfl
  unfold setTtlEntries
  rw [batchWrite_append]
  by_cases hnew : 0 < new
  · rw [if_pos hnew]
    exact (SortedMap.get_put _ _ _ _).trans ((if_neg (hx new)).trans hdel)
  · rw [if_neg hnew]
    exact hdel

theorem named_edit (e : Edit) (hn : Named owed) (hp : p.Plain) :
    Named (update owed p (e.apply (owed p))) := by
  intro q hq
  by_cases h : q = p
  · exact h ▸ hp
  · rw [update_of_ne h] at hq
    exact hn q hq

theorem Kept.edit (rows : Store) (e : Edit) (h : Kept store owed) (hnamed : Named owed) (hp : p.Plain) :
    Kept (batchWrite store (e.entries rows p)) (update owed p (e.apply (owed p))) := by
  intro q m v hm hv
  have hplain := (named_edit e hnamed hp).plain hv
  have hother : ∀ n x, p.record n ≠ q.record m → update owed p (update (owed p) n x) q m = some v →
      store.get (q.record m) = some v := by
    intro n x hne hv
    refine h q m v hm ?_
    by_cases hq : q = p
    · subst hq
      rwa [update_self, update_of_ne fun hmn => hne (by rw [hmn])] at hv
    · rwa [update_of_ne hq] at hv
  cases e with
  | put n hn x =>
    refine (SortedMap.get_put _ _ _ _).trans ?_
    by_cases heq : p.record n = q.record m
    · obtain ⟨rfl, rfl⟩ := Place.plain_record_inj hn hm (fun _ => hp) hplain heq
      rw [update_self, Edit.apply, update_self] at hv
      rw [if_pos heq, ← hv]
    · rw [if_neg heq]
      exact hother n _ heq hv
  | delete n hn =>
    refine (SortedMap.get_delete _ _ _).trans ?_
    by_cases heq : p.record n = q.record m
    · obtain ⟨rfl, rfl⟩ := Place.plain_record_inj hn hm (fun _ => hp) hplain heq
      rw [update_self, Edit.apply, update_self] at hv
      cases hv
    · rw [if_neg heq]
      exact hother n _ heq hv
  | wipe family hfam expire =>
    rw [Edit.entries, (deletesOnly_familyDeleteEntries _ _ _ _ _).get]
    by_cases hq : q = p
    · subst hq
      rw [update_self, Edit.apply, ite_none_left_eq_some] at hv
      rw [if_neg fun hdel => hv.1 (inFamily_of_deletes hfam hm hplain hdel).2]
      exact h q m v hm hv.2
    · rw [update_of_ne hq] at hv
      rw [if_neg fun hdel => hq (inFamily_of_deletes hfam hm hplain hdel).1.symm]
      exact h q m v hm hv
  | deadline kind old new =>
    have hne : ∀ e, expireIndexKey p.pre e (p.data kind) ≠ q.record m := fun e heq =>
      Place.plain_record_ne_index hm hplain p.slot _ heq.symm
    rw [Edit.entries, get_setTtlEntries hne]
    rw [Edit.apply, update_eq_self] at hv
    exact h q m v hm hv

theorem Kept.edits (rows : Store) (edits : List Edit) (h : Kept store owed) (hnamed : Named owed)
    (hp : p.Plain) :
    Kept (batchWrite store (commandBatch rows p edits))
        (update owed p (edits.foldl Edit.apply (owed p))) ∧
      Named (update owed p (edits.foldl Edit.apply (owed p))) := by
  induction edits generalizing store owed with
  | nil =>
    rw [foldl_nil, update_eq_self]
    exact ⟨h, hnamed⟩
  | cons e edits ih =>
    have hnext := ih (h.edit rows e hnamed hp) (named_edit e hnamed hp)
    rw [update_self, update_idem] at hnext
    rw [commandBatch, flatMap_cons, batchWrite_append]
    exact hnext

/-! ## Index entries -/

/-- Every stored index entry is one of a root. -/
def IndexRooted (store : Store) : Prop :=
  ∀ slot body expire, (store.get (indexKey (slotPrefix slot) body expire)).isSome →
    ∃ kind ∈ metaKinds, ∃ k : UserKey, body = dataKey [] kind k.bytes

theorem isSome_batchWrite {batch : List BatchEntry} {x : Bytes}
    (h : ((batchWrite store batch).get x).isSome) :
    (store.get x).isSome ∨ ∃ v, BatchEntry.put x v ∈ batch := by
  induction batch generalizing store with
  | nil => exact .inl h
  | cons b batch ih =>
    rcases @ih (b.apply store) h with h | ⟨v, hv⟩
    · cases b with
      | op o =>
        cases o with
        | put y v =>
          rw [show (BatchEntry.put y v).apply store = store.put y v from rfl, SortedMap.get_put] at h
          by_cases hy : y = x
          · exact .inr ⟨v, hy ▸ mem_cons_self⟩
          · rw [if_neg hy] at h
            exact .inl h
        | del y =>
          rw [show (BatchEntry.delete y).apply store = store.delete y from rfl, SortedMap.get_delete] at h
          split at h
          · cases h
          · exact .inl h
      | deleteRange lower upper =>
        rw [show (BatchEntry.deleteRange lower upper).apply store = store.deleteRange lower upper from rfl,
          SortedMap.get_deleteRange] at h
        split at h
        · cases h
        · exact .inl h
    · exact .inr ⟨v, mem_cons_of_mem _ hv⟩

theorem IndexRooted.deletes (h : IndexRooted store) {batch : List BatchEntry} (hb : DeletesOnly batch) :
    IndexRooted (batchWrite store batch) := by
  intro slot body expire hsome
  rcases isSome_batchWrite hsome with hsome | ⟨v, hv⟩
  · exact h slot body expire hsome
  · exact absurd rfl (hb _ hv _ v)

theorem IndexRooted.command (h : IndexRooted store) {rows : Store} {edits : List Edit} (hp : p.Plain)
    (hrooted : ∀ e ∈ edits, e.Rooted) : IndexRooted (batchWrite store (commandBatch rows p edits)) := by
  intro slot body expire hsome
  rcases isSome_batchWrite hsome with hsome | ⟨v, hv⟩
  · exact h slot body expire hsome
  · obtain ⟨e, he, hv⟩ := mem_flatMap.mp hv
    cases e with
    | put n hn x =>
      have hkey := (BatchOp.put.inj (BatchEntry.op.inj (mem_singleton.mp hv))).1
      exact absurd hkey.symm (Place.plain_record_ne_index hn (fun _ => hp) slot _)
    | delete n hn => cases BatchEntry.op.inj (mem_singleton.mp hv)
    | wipe family hfam expire => exact absurd rfl (deletesOnly_familyDeleteEntries _ _ _ _ _ _ hv _ v)
    | deadline kind old new =>
      rcases mem_append.mp hv with hv | hv <;> split at hv
      · cases BatchEntry.op.inj (mem_singleton.mp hv)
      · cases hv
      · have hkey := (BatchOp.put.inj (BatchEntry.op.inj (mem_singleton.mp hv))).1
        rw [show expireIndexKey p.pre new (p.data kind) = p.index new kind from rfl, Place.index_eq] at hkey
        obtain ⟨-, hkey⟩ := slotPrefix_append_inj hkey
        obtain ⟨-, hbody⟩ := append_inj (cons.inj hkey).2 (by rw [length_beBytes, length_beBytes])
        exact ⟨kind, hrooted _ he, p.key, hbody⟩
      · cases hv

/-! ## Runs -/

theorem isExpired_mono {e : Nat} (h : isExpired e now) (ms : Nat) :
    isExpired e (now + ms) := by
  simp only [isExpired, Bool.and_eq_true, decide_eq_true_eq] at h ⊢
  exact ⟨h.1, by omega⟩

theorem Dead.mono {root : Option Bytes} (h : Dead store now root) (ms : Nat) :
    Dead store (now + ms) root := fun r hr v hv => isExpired_mono (h r hr v hv) ms

theorem Dead.write {root : Option Bytes} (h : Dead store now root) {batch : List BatchEntry}
    (hb : DeletesOnly batch) : Dead (batchWrite store batch) now root := by
  intro r hr v hv
  rw [hb.get, mem_def, ite_none_left_eq_some] at hv
  exact h r hr v hv.2

/-- A purge in flight is due and only deletes, of the records of a key those whose root it read; once
it reads no more, that root is gone or due. -/
structure Sane (store : Store) (now : Nat) (q : Purge) : Prop where
  deletes : DeletesOnly q.batch
  takes : ∀ (p : Place) (n : Part), n.Valid → (n = .raw → p.Plain) → (∃ b ∈ q.batch, b.Deletes (p.record n)) →
    n ≠ .raw ∧ q.root = some (p.record (rootOf n))
  due : isExpired q.expire now
  dead : q.checked → Dead store now q.root

theorem mem_families : ∀ family ∈ purgedFamilies, family ∈ families := by decide +kernel

theorem rootOf_inFamily {family : CodecFamily} (hfam : family ∈ purgedFamilies)
    (h : n.InFamily family) : n ≠ .raw ∧ rootOf n = .elem family.1 [] := by
  have hkinds : ∀ family ∈ purgedFamilies, ∀ kind ∈ wipedKinds family,
      rootOf (.elem kind []) = .elem family.1 [] := by decide +kernel
  cases n with
  | raw => cases h
  | elem kind s => exact ⟨nofun, hkinds family hfam kind (of_decide_eq_true h)⟩
  | row due locked =>
    rw [show family = streamFamily from of_decide_eq_true h]
    exact ⟨nofun, rfl⟩

theorem takes_family {family : CodecFamily} (hfam : family ∈ purgedFamilies) {rows : Option Store}
    {e : Nat} {q : Place} (hn : n.Valid) (hplain : n = .raw → q.Plain)
    (h : ∃ b ∈ familyDeleteEntries rows p.pre family p.key.bytes e, b.Deletes (q.record n)) :
    n ≠ .raw ∧ some (p.data family.1) = some (q.record (rootOf n)) := by
  obtain ⟨rfl, hin⟩ := inFamily_of_deletes (mem_families family hfam) hn hplain h
  obtain ⟨hne, hroot⟩ := rootOf_inFamily hfam hin
  exact ⟨hne, by rw [hroot, Place.record_root]⟩

variable {q : Purge}

theorem sane_decideLazy {family : CodecFamily} {detached : Bool} (hfam : family ∈ purgedFamilies)
    (h : decideLazy store now p family detached = some q) : Sane store now q := by
  obtain ⟨⟨e, batch⟩, hb, rfl⟩ := map_eq_some_iff.mp h
  obtain ⟨val, hval, hb⟩ := bind_eq_some_iff.mp hb
  dsimp only at hb
  split at hb
  · next hdue =>
    cases hb
    refine ⟨deletesOnly_familyDeleteEntries _ _ _ _ _, fun _ _ => takes_family hfam, hdue,
      fun _ r hr v hv => ?_⟩
    cases hr
    have hval : store.get (p.data family.1) = some val := hval
    rw [hval] at hv
    cases hv
    exact hdue
  · cases hb

theorem sane_decideActive {slot : Nat} {body : Bytes} {expire : Nat} (hrooted : IndexRooted store)
    (hsome : (store.get (indexKey (slotPrefix slot) body expire)).isSome)
    (hdue : isExpired expire now)
    (h : decideActive store now (slotPrefix slot) body expire = some q) : Sane store now q := by
  have hstale : Sane store now
      { root := none, expire, batch := [.delete (indexKey (slotPrefix slot) body expire)]
        checked := true } := by
    refine ⟨fun b hb k v => ?_, fun p n hn hplain ⟨b, hb, hdel⟩ => ?_, hdue, fun _ => nofun⟩
    · rw [mem_singleton.mp hb]
      nofun
    · obtain rfl := mem_singleton.mp hb
      exact absurd (BatchOp.del.inj hdel).symm (Place.plain_record_ne_index hn hplain slot _)
  obtain ⟨kind, hkind, k, rfl⟩ := hrooted slot body expire hsome
  obtain ⟨last, hfamily, -⟩ := Dump.familyOf_root kind hkind
  have hmem : (kind, last) ∈ purgedFamilies := mem_filterMap.mpr ⟨kind, hkind, hfamily⟩
  obtain ⟨family, hf, h⟩ := bind_eq_some_iff.mp h
  obtain rfl : (kind, last) = family := some.inj (hfamily.symm.trans hf)
  dsimp only at h
  split at h
  · cases h
    exact hstale
  · next val hval =>
    split at h
    · next hcur =>
      obtain ⟨d, hd, rfl⟩ := map_eq_some_iff.mp h
      have hrecord := Dump.carriedKinds_subset kind hkind kind (Dump.kind_mem_carriedKinds kind hkind)
      have hdecode := decodeDataKey_elem (slotPrefix slot) k
        (Part.kind_ne_of_mem_recordKinds kind hrecord).1 (by rw [hfamily]; rfl) []
      rw [show elemKey (slotPrefix slot) kind k.bytes [] = slotPrefix slot ++ dataKey [] kind k.bytes from
        append_nil _, hd] at hdecode
      obtain rfl := some.inj hdecode
      refine ⟨deletesOnly_familyDeleteEntries _ _ _ _ _,
        fun _ _ => takes_family (p := ⟨slot, k⟩) hmem, hdue, fun _ r hr v hv => ?_⟩
      cases hr
      rw [hval] at hv
      cases hv
      exact hcur.2
    · cases h
      exact hstale

theorem Sane.revalidated (h : Sane store now q)
    (hread : (q.root.any fun r => revalidateExpire q.expire (store.get r))) :
    Sane store now { q with checked := true } := by
  refine ⟨h.deletes, h.takes, h.due, fun _ r hr v hv => ?_⟩
  rw [hr, any_some, revalidateExpire, hv, any_some, beq_iff_eq] at hread
  rw [hread]
  exact h.due

structure Inv (w : World) : Prop where
  kept : Kept w.store w.owed
  lives : ∀ p n v, n.Valid → w.owed p n = some v → Lives w.now (w.owed p) n
  named : Named w.owed
  index : IndexRooted w.store
  sane : ∀ q ∈ w.pending, Sane w.store w.now q

/-- What is owed has a stored root that is not due, so no purge may take it. -/
theorem Inv.not_taken {w : World} (h : Inv w) (hq : q ∈ w.pending) (hchecked : q.checked)
    (hn : n.Valid) (hv : w.owed p n = some v) : ¬ ∃ b ∈ q.batch, b.Deletes (p.record n) := by
  intro hdel
  obtain ⟨hne, hroot⟩ := (h.sane q hq).takes p n hn (h.named.plain hv) hdel
  obtain ⟨r, hr, hlive⟩ := (any_eq_true _ _).mp ((h.lives p n v hn hv).resolve_left hne)
  have hstored := h.kept p (rootOf n) r (valid_rootOf hn).1 hr
  rw [(h.sane q hq).dead hchecked _ hroot r hstored] at hlive
  cases hlive

theorem Inv.decide {w : World} (h : Inv w) {found : Option Purge}
    (hfound : ∀ q, found = some q → Sane w.store w.now q) :
    Inv { w with pending := w.pending ++ found.toList } := by
  refine ⟨h.kept, h.lives, h.named, h.index, fun q hq => ?_⟩
  rcases mem_append.mp hq with hq | hq
  · exact h.sane q hq
  · exact hfound q (mem_toList.mp hq)

theorem Inv.step {w w' : World} {a : Step} (h : Inv w) (hok : Clear w a) (hstep : step w a = some w') :
    Inv w' := by
  cases a with
  | tick ms =>
    cases hstep
    refine ⟨h.kept.live _, fun p n v hn hv => (eq_some_of_live hv).2.live hn, fun p hp => ?_, h.index,
      fun q hq => ?_⟩
    · obtain ⟨v, hv⟩ := isSome_iff_exists.mp hp
      have hv : live (w.now + ms) (w.owed p) .raw = some v := hv
      exact h.named.plain (eq_some_of_live hv).1 rfl
    · have hsane := h.sane q hq
      exact ⟨hsane.deletes, hsane.takes, isExpired_mono hsane.due ms, fun hc => (hsane.dead hc).mono ms⟩
  | decideLazy p family detached =>
    obtain ⟨hfam, hstep⟩ := ite_none_right_eq_some.mp hstep
    cases hstep
    exact h.decide fun q => sane_decideLazy hfam
  | decideActive slot body expire =>
    obtain ⟨⟨hdue, hsome⟩, hstep⟩ := ite_none_right_eq_some.mp hstep
    cases hstep
    exact h.decide fun q => sane_decideActive h.index hsome hdue
  | revalidate i =>
    obtain ⟨q, hq, hstep⟩ := bind_eq_some_iff.mp hstep
    have hsane := h.sane q (mem_of_getElem? hq)
    split at hstep
    · cases hstep
    · split at hstep
      · next hread =>
        cases hstep
        refine ⟨h.kept, h.lives, h.named, h.index, fun r hr => ?_⟩
        rcases mem_or_eq_of_mem_set hr with hr | rfl
        · exact h.sane r hr
        · exact hsane.revalidated hread
      · cases hstep
        exact ⟨h.kept, h.lives, h.named, h.index, fun r hr => h.sane r (mem_of_mem_eraseIdx hr)⟩
  | land i =>
    obtain ⟨q, hq, hstep⟩ := bind_eq_some_iff.mp hstep
    have hmem := mem_of_getElem? hq
    have hdeletes := (h.sane q hmem).deletes
    split at hstep
    · next hchecked =>
      cases hstep
      refine ⟨fun p n v hn hv => ?_, h.lives, h.named, h.index.deletes hdeletes, fun r hr => ?_⟩
      · rw [hdeletes.get, if_neg (h.not_taken hmem hchecked hn hv)]
        exact h.kept p n v hn hv
      · have hr := h.sane r (mem_of_mem_eraseIdx hr)
        exact ⟨hr.deletes, hr.takes, hr.due, fun hc => (hr.dead hc).write hdeletes⟩
    · cases hstep
  | command p edits =>
    cases hstep
    obtain ⟨hdead, hplain, hrooted⟩ := hok
    obtain ⟨hkept, hnamed⟩ := h.kept.edits w.store edits h.named hplain
    -- what is left of the new value when its dead part is dropped
    have hsub : ∀ r n v, update w.owed p (live w.now (edits.foldl Edit.apply (w.owed p))) r n =
        some v → update w.owed p (edits.foldl Edit.apply (w.owed p)) r n = some v := by
      intro r n v hv
      by_cases hr : r = p
      · subst hr
        rw [update_self] at hv ⊢
        exact (eq_some_of_live hv).1
      · rwa [update_of_ne hr] at hv ⊢
    refine ⟨fun r n v hn hv => hkept r n v hn (hsub r n v hv), fun r n v hn hv => ?_, fun r hr => ?_,
      h.index.command hplain hrooted,
      fun q hq => ⟨(h.sane q hq).deletes, (h.sane q hq).takes, (h.sane q hq).due, hdead q hq⟩⟩
    · dsimp only at hv ⊢
      by_cases hr : r = p
      · subst hr
        rw [update_self] at hv ⊢
        exact (eq_some_of_live hv).2.live hn
      · rw [update_of_ne hr] at hv ⊢
        exact h.lives r n v hn hv
    · obtain ⟨v, hv⟩ := isSome_iff_exists.mp hr
      exact hnamed.plain (hsub r .raw v hv) rfl

def World.init (now : Nat) : World := { store := .empty, now, pending := [], owed := fun _ _ => none }

theorem inv_init (now : Nat) : Inv (World.init now) :=
  ⟨nofun, nofun, nofun, nofun, nofun⟩

theorem purge_keeps_fresh {now : Nat} {steps : List Step} {w : World}
    (hok : Guarded step Clear (World.init now) steps)
    (hrun : exec step (World.init now) steps = some w) : Kept w.store w.owed :=
  (exec_inv (I := Inv) (fun _ _ _ h hok hstep => h.step hok hstep) (inv_init now) hok hrun).kept

/-! ## A string that is set again -/

def agedKey : Place := UserKey.sample.home

/-- SETEX: the string and the index entry of its deadline. -/
def setex (v : Bytes) (deadline : Nat) : Step :=
  .command agedKey [.delete .raw trivial,
    .put (.elem kindStringTtl []) (by decide +kernel : kindStringTtl ∈ recordKinds) (encodeEnvelope deadline v),
    .deadline kindStringTtl 0 deadline]

/-- At 10 a read finds the key due; it is set again before the purge reads its root, which is
cancelled, and a purge of the new value comes when it is due. -/
def cancelledSteps : List Step :=
  [setex [1] 5, .tick 10, .decideLazy agedKey stringFamily true, setex [2] 20, .revalidate 0,
   .tick 15, .decideLazy agedKey stringFamily true, .revalidate 0, .land 0, setex [3] 30]

theorem purge_keeps_fresh_cancelled :
    ∃ w, exec step (World.init 0) cancelledSteps = some w ∧ Kept w.store w.owed ∧
      w.owed agedKey (.elem kindStringTtl []) = some (encodeEnvelope 30 [3]) := by
  have hok : Guarded step Clear (World.init 0) cancelledSteps := by decide +kernel
  exact exists_run (by decide +kernel) fun w hrun howed => ⟨purge_keeps_fresh hok hrun, howed⟩

/-- The key is set again between the purge's second read and its batch. -/
def lostSteps : List Step :=
  [setex [1] 5, .tick 10, .decideLazy agedKey stringFamily true, .revalidate 0, setex [2] 20, .land 0]

/-- The new value, good until 20, is gone at 10. -/
theorem purge_loses_fresh :
    ∃ w, exec step (World.init 0) lostSteps = some w ∧ ¬ Kept w.store w.owed ∧ w.pending = [] := by
  refine exists_run (P := fun w => w.pending = [] ∧
    w.owed agedKey (.elem kindStringTtl []) = some (encodeEnvelope 20 [2]) ∧
      w.store.get (agedKey.record (.elem kindStringTtl [])) = none)
    (by decide +kernel) fun w _ hend => ⟨fun hk => ?_, hend.1⟩
  have hvalid : (Part.elem kindStringTtl []).Valid := by
    show kindStringTtl ∈ recordKinds
    decide +kernel
  cases hend.2.2.symm.trans (hk _ _ _ hvalid hend.2.1)

end Rdb.Command.Expiry
