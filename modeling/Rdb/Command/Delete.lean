import Rdb.Ds.Wipe

/-!
# DEL beside commands that move a key

DEL looks its key up, waits for the latch and then deletes the layout it found. EXPIRE and
PERSIST move a string between its two layouts and other commands change the type, all
under the latch; what they do between the lookup and the latch is not seen. For a raw
string DEL looks again under the latch, for an enveloped record it does not. RESTORE with
REPLACE leaves two layouts of a key side by side, and a lookup finds one of them.

`gone` is the history bit of a DEL that replied 1, until a command writes the key.
`delete_leaves_nothing`: if a DEL that removes something finds no record of the key outside
the layout it deletes, the key is absent as long as the bit is set.
-/

namespace Rdb.Command.Delete

open Lib Ds List SortedMap Option

/-! ## Layouts of a key -/

/-- The record of the key that a stored name is. -/
def partOf (k : UserKey) (x : Bytes) : Option Part :=
  if x = k.raw then some .raw
  else if ¬ k.pre <+: x then none
  else match decodeDataKey x k.pre.length with
    | some (kind, key, s) => if key = k.bytes then some (.elem kind s) else none
    | none => (decodeDelayRowKey x k.pre.length).bind fun d =>
      if d.2.1 = k.bytes then some (.row d.1 d.2.2) else none

/-- What is deleted with the layout that a lookup found. -/
def InLayout : KeyState → Part → Bool
  | .missing, _ => false
  | .rawString _, n => n = .raw
  | .enveloped kind _ _, n => n.InFamily ((familyOf kind).getD stringFamily)

/-- No record of the key in any layout. -/
def Absent (store : Store) (k : UserKey) : Prop :=
  ∀ n : Part, n.Valid → store.get (k.home.record n) = none

/-! ## The world of one key -/

structure World where
  store : Store
  now : Nat
  /-- What the DELs in flight have found. -/
  dels : List KeyState
  gone : Bool

inductive Step where
  | tick (ms : Nat)
  /-- A DEL looks the key up. -/
  | lookup
  /-- A DEL has the latch and writes. -/
  | delete (i : Nat)
  | expire (newMs : Nat) (flag : TtlFlag)
  | persist
  /-- SET or any other command on the key, under the latch. -/
  | command (batch : List BatchEntry)
  /-- The batch of a purge, at any time, with the delay rows of an earlier store. -/
  | purge (rows : Option Store) (family : CodecFamily) (expire : Nat)

variable (k : UserKey)

/-- The write of a latched command; `none` is no write. -/
def World.commit (w : World) (batch : Option (List BatchEntry)) : World :=
  batch.elim w fun b => { w with store := batchWrite w.store b, gone := false }

def step (w : World) : Step → Option World
  | .tick ms => some { w with now := w.now + ms }
  | .lookup =>
    let state := (resolveWith w.store k.pre k.bytes w.now).1
    -- a missing key is answered with 0
    some (if state.isPresent then { w with dels := w.dels ++ [state] } else w)
  | .delete i => w.dels[i]?.bind fun state =>
    match state with
    | .missing => none
    | .rawString _ =>
      let w := { w with dels := w.dels.eraseIdx i }
      some (if (w.store.get k.raw).isSome then { w with store := w.store.delete k.raw, gone := true } else w)
    | .enveloped _ _ _ =>
      some { w with
        store := batchWrite w.store (deleteBatch (some w.store) k state)
        dels := w.dels.eraseIdx i
        gone := true }
  | .expire newMs flag => some (w.commit (applyTtl w.store k newMs flag w.now))
  | .persist => some (w.commit (persistKey w.store k w.now))
  | .command batch => some (w.commit (some batch))
  | .purge rows family expire =>
    some { w with
      store := batchWrite w.store (familyDeleteEntries rows k.pre family k.bytes expire) }

/-- A DEL that removes something finds the key in the layout it was looked up in, or nowhere. -/
def Settled (w : World) : Step → Prop
  | .delete i => ∀ state ∈ w.dels[i]?, (state.kind?.isSome || (w.store.get k.raw).isSome) →
      ∀ e ∈ w.store.entries, ∀ n ∈ partOf k e.1, InLayout state n
  | _ => True

instance decidableSettled (w : World) (a : Step) : Decidable (Settled k w a) := by
  cases a <;> dsimp only [Settled] <;> infer_instance

/-! ## What a batch leaves -/

variable {k} {store : Store} {state : KeyState}

theorem partOf_record {n : Part} (hn : n.Valid) : partOf k (k.home.record n) = some n := by
  unfold partOf
  have hpre : k.pre <+: k.home.record n := prefix_append _ _
  cases n with
  | raw => exact if_pos rfl
  | elem kind s =>
    have hraw : k.home.record (.elem kind s) ≠ k.raw := fun h =>
      nomatch Place.record_inj (m := .raw) hn trivial h
    rw [if_neg hraw, if_neg (not_not.mpr hpre), Place.record_elem]
    have hdec := decodeDataKey_elem k.pre k (Part.kind_ne_of_mem_recordKinds kind hn).1
      (familyOf_recordKinds kind hn) s
    rw [show k.home.pre = k.pre from rfl, show k.home.key = k from rfl, hdec]
    exact if_pos rfl
  | row due locked =>
    have hraw : k.home.record (.row due locked) ≠ k.raw := fun h =>
      nomatch Place.record_inj (m := .raw) hn trivial h
    have hrow : decodeDelayRowKey (k.home.record (.row due locked)) k.pre.length =
        some (due, k.bytes, locked) :=
      (Dump.decodeDelayRowKey_append k.pre _).trans (Part.decode_row k hn)
    have hdata : decodeDataKey (k.home.record (.row due locked)) k.pre.length = none := by
      unfold decodeDataKey
      rw [show (k.home.record (.row due locked)).drop k.pre.length = _ from drop_left]
      exact if_pos rfl
    rw [if_neg hraw, if_neg (not_not.mpr hpre), hdata, hrow]
    exact if_pos rfl

/-- A delete never brings a record back. -/
theorem Absent.of_deletesOnly (h : Absent store k) {batch : List BatchEntry} (hb : DeletesOnly batch) :
    Absent (batchWrite store batch) k := by
  intro n hn
  rw [hb.get, h n hn, ite_self]

theorem absent_of_inLayout {after : Store}
    (honly : ∀ e ∈ store.entries, ∀ n ∈ partOf k e.1, InLayout state n)
    (hkeep : ∀ n : Part, n.Valid → store.get (k.home.record n) = none → after.get (k.home.record n) = none)
    (hgone : ∀ n : Part, n.Valid → InLayout state n → after.get (k.home.record n) = none) :
    Absent after k := by
  intro n hn
  cases hget : store.get (k.home.record n) with
  | none => exact hkeep n hn hget
  | some v => exact hgone n hn (honly _ (get_eq_some.mp hget) n (partOf_record hn))

theorem absent_deleteRaw {value : Bytes}
    (honly : ∀ e ∈ store.entries, ∀ n ∈ partOf k e.1, InLayout (.rawString value) n) :
    Absent (store.delete k.raw) k := by
  refine absent_of_inLayout honly (fun n _ hget => ?_) (fun n _ hin => ?_)
  · rw [get_delete, hget, ite_self]
  · obtain rfl := of_decide_eq_true hin
    exact (get_delete _ _ _).trans (if_pos rfl)

theorem absent_deleteBatch {kind : UInt8} {e : Nat} {payload : Bytes}
    (honly : ∀ x ∈ store.entries, ∀ n ∈ partOf k x.1, InLayout (.enveloped kind e payload) n) :
    Absent (batchWrite store (deleteBatch (some store) k (.enveloped kind e payload))) k := by
  have hwipe : batchWrite store (deleteBatch (some store) k (.enveloped kind e payload)) =
      wipe store k.home ((familyOf kind).getD stringFamily) e := rfl
  refine absent_of_inLayout honly (fun n _ hget => ?_) (fun n hn hin => ?_)
  · rw [hwipe, wipe, (deletesOnly_familyDeleteEntries _ _ _ _ _).get, hget, ite_self]
  · rw [hwipe]
    exact (get_wipe _ _ _ _ _).trans (if_pos (reads_of_inFamily hn hin))

theorem Absent.lookup (h : Absent store k) (now : Nat) :
    resolveWith store k.pre k.bytes now = (.missing, none) := by
  have hraw : store.get (stringKey k.pre k.bytes) = none := h .raw trivial
  have hroot : ∀ kind ∈ metaKinds, store.get (dataKey k.pre kind k.bytes) = none := by
    intro kind hkind
    have hvalid : kind ∈ recordKinds :=
      Dump.carriedKinds_subset kind hkind kind (Dump.kind_mem_carriedKinds kind hkind)
    rw [← h (.elem kind []) hvalid, Place.record_root]
    rfl
  have hfirst : firstRoot store k.pre k.bytes = none := by
    refine findSome?_eq_none_iff.mpr fun kind hkind => ?_
    rw [hroot kind hkind]
    rfl
  unfold resolveWith
  rw [hraw, hfirst]

/-! ## Runs -/

variable {w w' : World}

theorem commit_gone {batch : Option (List BatchEntry)} (h : w.gone → Absent w.store k)
    (hg : (w.commit batch).gone) : Absent (w.commit batch).store k := by
  cases batch with
  | none => exact h hg
  | some b => cases hg

theorem step_gone {a : Step} (h : w.gone → Absent w.store k) (hok : Settled k w a)
    (hstep : step k w a = some w') : w'.gone → Absent w'.store k := by
  cases a with dsimp only [Delete.step] at hstep
  | tick ms =>
    cases hstep
    exact h
  | lookup =>
    cases hstep
    split <;> exact h
  | delete i =>
    obtain ⟨state, hi, hstep⟩ := bind_eq_some_iff.mp hstep
    cases state with
    | missing => cases hstep
    | rawString value =>
      cases hstep
      split
      · next hraw => exact fun _ => absent_deleteRaw (hok _ hi (by rw [hraw, Bool.or_true]))
      · exact h
    | enveloped kind e payload =>
      cases hstep
      exact fun _ => absent_deleteBatch (hok _ hi rfl)
  | expire newMs flag | persist | command batch =>
    cases hstep
    exact commit_gone h
  | purge rows family e =>
    cases hstep
    exact fun hg => (h hg).of_deletesOnly (deletesOnly_familyDeleteEntries _ _ _ _ _)

def World.init (store : Store) (now : Nat) : World := { store, now, dels := [], gone := false }

theorem delete_leaves_nothing {now : Nat} {steps : List Step}
    (hok : Guarded (step k) (Settled k) (World.init store now) steps)
    (hrun : exec (step k) (World.init store now) steps = some w) (hgone : w.gone) :
    Absent w.store k ∧ resolveWith w.store k.pre k.bytes w.now = (.missing, none) := by
  have habsent : w.gone → Absent w.store k :=
    exec_inv (I := fun w => w.gone → Absent w.store k)
      (fun _ _ _ h hok hstep => step_gone h hok hstep) (fun h => absurd h Bool.false_ne_true) hok hrun
  exact ⟨habsent hgone, (habsent hgone).lookup w.now⟩

def movedKey : UserKey := .sample

/-- EXPIRE comes between the lookup and the delete of a first DEL, which then removes nothing; a second
DEL removes the key. -/
def settledSteps : List Step :=
  [.command (writeStringRecord movedKey [1] 0), .lookup, .expire 100 .none, .delete 0, .lookup,
   .delete 0, .persist, .tick 5]

theorem delete_leaves_nothing_settled :
    ∃ w, exec (step movedKey) (World.init SortedMap.empty 10) settledSteps = some w ∧
      Absent w.store movedKey ∧ w.now = 15 := by
  have hok : Guarded (step movedKey) (Settled movedKey) (World.init empty 10) settledSteps := by
    decide +kernel
  refine exists_run (P := fun w => w.gone ∧ w.now = 15) (by decide +kernel) fun w hrun hend => ?_
  exact ⟨(delete_leaves_nothing hok hrun hend.1).1, hend.2⟩

/-- PERSIST comes between the lookup and the delete. -/
def movedSteps : List Step :=
  [.command (writeStringRecord movedKey [1] 100), .lookup, .persist, .delete 0]

/-- DEL has replied 1, nothing has written the key since, and its raw string is there. -/
theorem delete_misses_moved_string :
    ∃ w, exec (step movedKey) (World.init SortedMap.empty 10) movedSteps = some w ∧ w.gone ∧
      ¬ Absent w.store movedKey := by
  refine exists_run (P := fun w => w.gone ∧ w.store.get movedKey.raw = some [1])
    (by decide +kernel) fun w _ hleft => ⟨hleft.1, fun habsent => ?_⟩
  cases hleft.2.symm.trans (habsent .raw trivial)

end Rdb.Command.Delete
