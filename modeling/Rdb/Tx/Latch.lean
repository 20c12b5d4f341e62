import Mathlib.Data.Finset.Basic
import Rdb.Tx.Session

/-!
# Row latches

Locking reads latch the rows they match, FOR SHARE together with others and FOR UPDATE
alone. A request takes all its keys or none. A key that the owner holds already is passed
over, whatever it is held for: a shared latch asked for exclusively stays shared.

The runs keep a history: which keys were granted exclusively and not released since.
`latches_exclude`: where no owner asks to upgrade, nobody else holds such a key.
-/

namespace Rdb.Tx.Latch

open Lib List Option

abbrev LatchKey := TxnKey

structure LatchEntry where
  holders : Finset Nat := ∅
  exclusive : Bool := false

abbrev LatchMap := SortedMap LatchKey LatchEntry

def lockWait (k : LatchKey) : SqlError :=
  .err .lockWaitTimeout ("Lock wait timeout exceeded; try restarting transaction " ++
    s!"(row latch on table {k.tableId} pk {hex k.pk} held by another transaction)")

/-- Another owner's latch that the request cannot share. -/
def conflicts (m : LatchMap) (owner : Nat) (exclusive : Bool) (k : LatchKey) : Bool :=
  (m.get k).any fun e => !decide (owner ∈ e.holders) && (e.exclusive || exclusive)

def LatchEntry.take (owner : Nat) (exclusive : Bool) (e : LatchEntry) : LatchEntry where
  exclusive := if e.holders = ∅ then exclusive else e.exclusive
  holders := insert owner e.holders

/-- All keys or none. -/
def acquireIn (m : LatchMap) (owner : Nat) (keys : List LatchKey) (exclusive : Bool) :
    Except SqlError Unit × LatchMap :=
  match keys.find? (conflicts m owner exclusive) with
  | some k => (.error (lockWait k), m)
  | none => (.ok (), keys.foldl (fun m k => m.put k (((m.get k).getD {}).take owner exclusive)) m)

/-- An entry without holders is removed. -/
def LatchEntry.drop (owner : Nat) (e : LatchEntry) : Option LatchEntry :=
  if e.holders.erase owner = ∅ then none else some { e with holders := e.holders.erase owner }

def releaseKeysIn (m : LatchMap) (owner : Nat) (keys : List LatchKey) : LatchMap :=
  keys.foldl (fun m k => match m.get k with
    | none => m
    | some e => (e.drop owner).elim (m.delete k) (m.put k)) m

def heldByIn (m : LatchMap) (owner : Nat) : List LatchKey :=
  (m.entries.filter fun e => decide (owner ∈ e.2.holders)).map (·.1)

def releaseOwnerIn (m : LatchMap) (owner : Nat) : LatchMap × Nat :=
  let held := heldByIn m owner
  (releaseKeysIn m owner held, held.length)

/-! ## What the loops leave -/

variable {m : LatchMap} {owner o : Nat} {keys : List LatchKey} {k : LatchKey} {e : LatchEntry}
  {exclusive : Bool}

theorem get_foldl {f : Option LatchEntry → Option LatchEntry} {step : LatchMap → LatchKey → LatchMap}
    (hstep : ∀ m k k', (step m k).get k' = if k' = k then f (m.get k) else m.get k')
    (hf : ∀ e, f (f e) = f e) (m : LatchMap) (keys : List LatchKey) (k : LatchKey) :
    (keys.foldl step m).get k = if k ∈ keys then f (m.get k) else m.get k := by
  induction keys generalizing m with
  | nil => simp
  | cons k' keys ih =>
    rw [foldl_cons, ih, hstep]
    by_cases h : k = k' <;> by_cases hk : k ∈ keys <;> simp_all

theorem take_take (e : LatchEntry) :
    (e.take owner exclusive).take owner exclusive = e.take owner exclusive := by
  simp [LatchEntry.take]

theorem get_acquired : (keys.foldl (fun m k => m.put k (((m.get k).getD {}).take owner exclusive))
    m).get k = if k ∈ keys then some (((m.get k).getD {}).take owner exclusive) else m.get k :=
  get_foldl (f := fun e => some ((e.getD {}).take owner exclusive))
    (fun m k k' => by simp [SortedMap.get_put, eq_comm]) (fun e => by simp [take_take]) m keys k

theorem drop_drop (e : Option LatchEntry) :
    (e.bind (LatchEntry.drop owner)).bind (LatchEntry.drop owner) =
      e.bind (LatchEntry.drop owner) := by
  cases e with
  | none => rfl
  | some e => by_cases h : e.holders.erase owner = ∅ <;> simp [LatchEntry.drop, h]

theorem get_releaseKeysIn : (releaseKeysIn m owner keys).get k =
    if k ∈ keys then (m.get k).bind (LatchEntry.drop owner) else m.get k := by
  refine get_foldl (f := (·.bind (LatchEntry.drop owner))) (fun m k k' => ?_) drop_drop m keys k
  cases h : m.get k with
  | none => by_cases hk : k' = k <;> simp [hk, h]
  | some e =>
    cases hd : e.drop owner <;>
      simp [hd, SortedMap.get_put, SortedMap.get_delete, eq_comm]

/-! ## Runs -/

structure World where
  latches : LatchMap := .empty
  /-- What was granted exclusively and not released since. -/
  granted : List (Nat × LatchKey) := []

inductive Action where
  | acquire (owner : Nat) (keys : List LatchKey) (exclusive : Bool)
  | releaseKeys (owner : Nat) (keys : List LatchKey)
  | releaseOwner (owner : Nat)

def step (w : World) : Action → Option World
  | .acquire owner keys exclusive =>
    let (reply, latches) := acquireIn w.latches owner keys exclusive
    some { w with
      latches
      granted := if reply.isOk && exclusive then keys.map ((owner, ·)) ++ w.granted else w.granted }
  | .releaseKeys owner keys => some {
      latches := releaseKeysIn w.latches owner keys
      granted := w.granted.filter fun g => !(decide (g.1 = owner) && decide (g.2 ∈ keys)) }
  | .releaseOwner owner => some {
      latches := (releaseOwnerIn w.latches owner).1
      granted := w.granted.filter fun g => !decide (g.1 = owner) }

/-- No owner asks exclusively for a key that it holds shared. -/
def Plain (w : World) : Action → Prop
  | .acquire owner keys true =>
    ∀ k ∈ keys, ∀ e ∈ w.latches.get k, owner ∈ e.holders → e.exclusive
  | _ => True

instance decidablePlain (w : World) : ∀ a, Decidable (Plain w a)
  | .acquire owner keys true =>
    inferInstanceAs (Decidable (∀ k ∈ keys, ∀ e ∈ w.latches.get k, owner ∈ e.holders → _))
  | .acquire _ _ false | .releaseKeys _ _ | .releaseOwner _ => .isTrue trivial

/-- There is a holder, and of an exclusive latch no second. -/
def LatchEntry.Ok (e : LatchEntry) : Prop :=
  e.holders ≠ ∅ ∧ (e.exclusive → ∃ o, e.holders = {o})

structure Inv (w : World) : Prop where
  entries : ∀ k e, w.latches.get k = some e → e.Ok
  granted : ∀ g ∈ w.granted, ∃ e, w.latches.get g.2 = some e ∧ e.exclusive ∧ g.1 ∈ e.holders

theorem take_of_not_conflicts (h : e.Ok)
    (hfree : (!decide (owner ∈ e.holders) && (e.exclusive || exclusive)) = false) :
    owner ∈ e.holders ∧ e.take owner exclusive = e ∨ e.exclusive = false ∧ exclusive = false := by
  by_cases ho : owner ∈ e.holders
  · exact .inl ⟨ho, by simp [LatchEntry.take, h.1, ho]⟩
  · simpa [ho] using hfree

theorem Ok.take (h : e.Ok)
    (hfree : (!decide (owner ∈ e.holders) && (e.exclusive || exclusive)) = false) :
    (e.take owner exclusive).Ok := by
  rcases take_of_not_conflicts h hfree with ⟨-, heq⟩ | ⟨he, hx⟩
  · rwa [heq]
  · exact ⟨Finset.insert_ne_empty _ _, by simp [LatchEntry.take, h.1, he]⟩

theorem Ok.drop {e' : LatchEntry} (h : e.Ok) (hd : e.drop owner = some e') : e'.Ok := by
  unfold LatchEntry.drop at hd
  split at hd
  · cases hd
  · next hne =>
    cases hd
    refine ⟨hne, fun hx => ?_⟩
    obtain ⟨o, ho⟩ := h.2 hx
    have hnot : owner ∉ e.holders := fun hmem => by
      rw [ho, Finset.mem_singleton] at hmem
      simp [ho, hmem] at hne
    exact ⟨o, (Finset.erase_eq_of_notMem hnot).trans ho⟩

variable {w w' : World}

theorem Inv.acquired (h : Inv w) (hc : Plain w (.acquire owner keys exclusive))
    (hfree : ∀ k ∈ keys, conflicts w.latches owner exclusive k = false) {latches : LatchMap}
    (hl : ∀ k, latches.get k = if k ∈ keys then
      some (((w.latches.get k).getD {}).take owner exclusive) else w.latches.get k) :
    Inv ⟨latches, if exclusive then keys.map ((owner, ·)) ++ w.granted else w.granted⟩ := by
  have hold : ∀ g ∈ w.granted, ∃ e, latches.get g.2 = some e ∧ e.exclusive ∧
      g.1 ∈ e.holders := by
    intro g hg
    obtain ⟨e, he, hx, hmem⟩ := h.granted g hg
    refine ⟨e, ?_, hx, hmem⟩
    rw [hl, he]
    split
    · next hk =>
      have hf := hfree _ hk
      rw [conflicts, he] at hf
      obtain ⟨-, heq⟩ | ⟨hno, -⟩ := take_of_not_conflicts (h.entries _ e he) hf
      · rw [getD_some, heq]
      · rw [hx] at hno
        cases hno
    · rfl
  refine ⟨fun k e he => ?_, fun g hg => ?_⟩
  · rw [hl] at he
    split at he
    · next hk =>
      cases he
      cases hget : w.latches.get k with
      | none => exact ⟨Finset.insert_ne_empty _ _, fun _ => ⟨owner, rfl⟩⟩
      | some e =>
        have hf := hfree k hk
        rw [conflicts, hget] at hf
        exact Ok.take (h.entries k e hget) hf
    · exact h.entries k e he
  · cases exclusive with
    | false => exact hold g hg
    | true =>
      rcases mem_append.mp hg with hg | hg
      · obtain ⟨k, hk, rfl⟩ := mem_map.mp hg
        refine ⟨_, (hl k).trans (if_pos hk), ?_, Finset.mem_insert_self _ _⟩
        cases hget : w.latches.get k with
        | none => rfl
        | some e =>
          have hf := hfree k hk
          rw [conflicts, hget] at hf
          obtain ⟨ho, heq⟩ | ⟨-, hno⟩ := take_of_not_conflicts (h.entries k e hget) hf
          · rw [getD_some, heq]
            exact hc k hk e hget ho
          · cases hno
      · exact hold g hg

theorem Inv.released (h : Inv w) {granted : List (Nat × LatchKey)}
    (hg : ∀ g ∈ granted, g ∈ w.granted ∧ (g.2 ∈ keys → g.1 ≠ owner)) :
    Inv ⟨releaseKeysIn w.latches owner keys, granted⟩ := by
  refine ⟨fun k e he => ?_, fun g hmem => ?_⟩
  · rw [get_releaseKeysIn] at he
    split at he
    · obtain ⟨e₀, he₀, hd⟩ := bind_eq_some_iff.mp he
      exact Ok.drop (h.entries k e₀ he₀) hd
    · exact h.entries k e he
  · obtain ⟨hold, hother⟩ := hg g hmem
    obtain ⟨e, he, hx, ho⟩ := h.granted g hold
    rw [get_releaseKeysIn, he]
    split
    · next hk =>
      have hin : g.1 ∈ e.holders.erase owner := Finset.mem_erase.mpr ⟨hother hk, ho⟩
      refine ⟨{ e with holders := e.holders.erase owner }, ?_, hx, hin⟩
      rw [bind_some, LatchEntry.drop, if_neg (Finset.ne_empty_of_mem hin)]
    · exact ⟨e, rfl, hx, ho⟩

theorem Inv.step {a : Action} (h : Inv w) (hc : Plain w a) (hs : step w a = some w') : Inv w' := by
  cases a with cases hs
  | acquire owner keys exclusive =>
    cases hfind : keys.find? (conflicts w.latches owner exclusive) with
    | some k => exact ⟨h.entries, h.granted⟩
    | none =>
      refine h.acquired hc (fun k hk => ?_) fun k => get_acquired
      simpa using find?_eq_none.mp hfind k hk
  | releaseKeys owner keys =>
    refine h.released fun g hg => ?_
    obtain ⟨hmem, hg⟩ := mem_filter.mp hg
    exact ⟨hmem, fun hk ho => by simp [hk, ho] at hg⟩
  | releaseOwner owner =>
    refine h.released fun g hg => ?_
    obtain ⟨hmem, hg⟩ := mem_filter.mp hg
    exact ⟨hmem, fun _ ho => by simp [ho] at hg⟩

/-- Nobody else holds a key that was granted exclusively and not released since. -/
def Excludes (w : World) : Prop :=
  ∀ g ∈ w.granted, ∀ e ∈ w.latches.get g.2, ∀ o ∈ e.holders, o = g.1
  deriving Decidable

/-- A request that fails leaves the registry as it was, and in every run without upgrades exclusive
latches exclude. -/
theorem latches_exclude {as : List Action} (hg : Guarded step Plain {} as)
    (h : exec step {} as = some w) :
    Excludes w ∧ ∀ m owner keys exclusive e, (acquireIn m owner keys exclusive).1 = .error e →
      (acquireIn m owner keys exclusive).2 = m := by
  have hinv : Inv w := exec_inv (fun _ _ _ => Inv.step) ⟨by simp, by simp⟩ hg h
  refine ⟨fun g hmem e he o ho => ?_, fun m owner keys exclusive e herr => ?_⟩
  · obtain ⟨e', he', hx, hg⟩ := hinv.granted g hmem
    cases he.symm.trans he'
    obtain ⟨o', heq⟩ := (hinv.entries _ e he').2 hx
    rw [heq, Finset.mem_singleton] at ho hg
    rw [ho, hg]
  · unfold acquireIn at herr ⊢
    split at herr
    · rfl
    · cases herr

def sampleLatch : LatchKey := toLex (7, [1])

/-- A second request fails until the first owner has gone. -/
theorem latches_exclude_handover : ∃ w, exec step {}
      [.acquire 1 [sampleLatch] true, .acquire 2 [sampleLatch] true, .releaseOwner 1,
        .acquire 2 [sampleLatch] true] = some w ∧
    w.granted = [(2, sampleLatch)] ∧ Excludes w := by
  have hg : Guarded step Plain {} [.acquire 1 [sampleLatch] true, .acquire 2 [sampleLatch] true,
      .releaseOwner 1, .acquire 2 [sampleLatch] true] := by decide
  exact ⟨_, rfl, by decide, (latches_exclude hg rfl).1⟩

/-- The only holder of a shared latch asks for it exclusively and is told that it has it; the next
reader still shares it. -/
theorem upgrade_is_shared : ∃ w, exec step {}
      [.acquire 1 [sampleLatch] false, .acquire 1 [sampleLatch] true,
        .acquire 2 [sampleLatch] false] = some w ∧
    w.granted = [(1, sampleLatch)] ∧ heldByIn w.latches 2 = [sampleLatch] ∧ ¬ Excludes w :=
  ⟨_, rfl, by decide, by decide, by decide⟩

end Rdb.Tx.Latch
