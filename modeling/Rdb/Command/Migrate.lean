import Mathlib.Algebra.Group.Int.Defs
import Mathlib.Data.Fintype.Basic
import Rdb.Lib.Run

/-!
# Moving a key under load

One key of a MIGRATING slot. A command checks at the source that the key is there, waits for
the latch of the key and then runs its handler. MIGRATE holds the latch while it dumps the
key, has the target restore the payload and deletes the key; it gives up when the target
does not answer in time, and the RESTORE it sent may then still run. The value of a key is
its records by name, and RESTORE writes those of the payload over what is there.

`written` is the key's value after all acknowledged writes, in their order, and `moved` says
that a MIGRATE has deleted the key. Deadlines are part of the value and do not pass here.

* `migrated_key_keeps_writes`: when the target ends with every acknowledged write.
-/

namespace Rdb.Command.Migrate

open Lib

variable {V R A : Type}

/-- The records of a key. -/
abbrev Value (R A : Type) := R → Option A

/-- What a handler makes of the value it finds; `none` is an answer without a write. -/
abbrev Handler (V : Type) := Option V → Option (Option V)

inductive Holder (V : Type) where
  | command (handler : Handler V)
  | dumped (payload : V) (replace : Bool)
  | restored (payload : V)

structure World (V : Type) where
  source : Option V
  target : Option V
  latch : Option (Holder V)
  /-- Commands past the redirect check that wait for the latch. -/
  admitted : List (Handler V)
  /-- RESTOREs whose MIGRATE has given up. -/
  late : List (V × Bool)
  written : Option V
  moved : Bool

def start (value target : Option V) : World V := ⟨value, target, none, [], [], value, false⟩

inductive Step (V : Type) where
  | request (handler : Handler V)
  | lock (i : Nat)
  | handle (committed : Bool)
  | migrate (replace : Bool)
  | restore
  | giveUp (sent : Bool)
  | delete (committed : Bool)
  | lateRestore (i : Nat)

/-- RESTORE at the target. With REPLACE, too, no record that is there is deleted. -/
def restoreTarget (target : Option (Value R A)) (payload : Value R A) (replace : Bool) :
    Option (Value R A) :=
  if target.isSome && !replace then none
  else some fun r => (payload r).or (target.bind (· r))

def step (w : World (Value R A)) : Step (Value R A) → Option (World (Value R A))
  | .request handler =>
    -- a key that is not here is answered ASK
    if w.source.isSome then some { w with admitted := w.admitted ++ [handler] } else some w
  | .lock i =>
    match w.latch, w.admitted[i]? with
    | none, some handler =>
      some { w with latch := some (.command handler), admitted := w.admitted.eraseIdx i }
    | _, _ => none
  | .handle committed =>
    match w.latch with
    | some (.command handler) =>
      match handler w.source with
      | some value =>
        if committed then
          some { w with
            source := value, latch := none, written := (handler w.written).getD w.written }
        else some { w with latch := none }
      | none => some { w with latch := none }
    | _ => none
  | .migrate replace =>
    match w.latch with
    | none =>
      match w.source with
      | some payload => some { w with latch := some (.dumped payload replace) }
      | none => some w
    | some _ => none
  | .restore =>
    match w.latch with
    | some (.dumped payload replace) =>
      match restoreTarget w.target payload replace with
      | some value => some { w with target := some value, latch := some (.restored payload) }
      | none => some { w with latch := none }
    | _ => none
  | .giveUp sent =>
    match w.latch with
    | some (.dumped payload replace) =>
      some { w with latch := none, late := if sent then (payload, replace) :: w.late else w.late }
    | some (.restored _) => some { w with latch := none }
    | _ => none
  | .delete committed =>
    match w.latch with
    | some (.restored _) =>
      if committed then some { w with source := none, latch := none, moved := true }
      else some { w with latch := none }
    | _ => none
  | .lateRestore i =>
    match w.late[i]? with
    | some (payload, replace) =>
      some { w with
        target := (restoreTarget w.target payload replace).or w.target
        late := w.late.eraseIdx i }
    | none => none

def Covers (payload old : Value R A) : Prop := ∀ r, (old r).isSome → (payload r).isSome

instance [Fintype R] (payload old : Value R A) : Decidable (Covers payload old) :=
  inferInstanceAs (Decidable (∀ _, _))

/-- What a RESTORE with REPLACE is about to write. -/
def replacing : Option (Holder V) → Option V
  | some (.dumped payload true) => some payload
  | _ => none

/-- A command gets the latch before the key has moved, a RESTORE with REPLACE finds no record at the
target that it does not write, and a RESTORE that was given up runs before that of a later MIGRATE. -/
def Timely (w : World (Value R A)) : Step (Value R A) → Prop
  | .lock _ => w.moved = false
  | .restore => ∀ old ∈ w.target, ∀ payload ∈ replacing w.latch, Covers payload old
  | .lateRestore _ => w.moved = false ∧ ¬ (w.latch matches some (.restored _))
  | _ => True

instance decidableTimely [Fintype R] (w : World (Value R A)) (a : Step (Value R A)) :
    Decidable (Timely w a) := by
  cases a <;> dsimp only [Timely] <;> infer_instance

def Kept (w : World V) : Prop := w.moved → w.source = none ∧ w.target = w.written

structure Inv (w : World V) : Prop where
  here : w.moved = false → w.source = w.written
  kept : Kept w
  gone : w.moved → w.latch = none
  dumped : ∀ v r, w.latch = some (.dumped v r) → w.source = some v
  restored : ∀ v, w.latch = some (.restored v) → w.source = some v ∧ w.target = some v

theorem Inv.unlocked {w w' : World V} (h : Inv w) (hlatch : w'.latch = none)
    (hmoved : w'.moved = w.moved) (hsource : w'.source = w.source)
    (htarget : w.moved → w'.target = w.target) (hwritten : w'.written = w.written) :
    Inv w' := by
  refine ⟨fun hm => ?_, fun hm => ?_, fun _ => hlatch, fun v r hl => ?_, fun v hl => ?_⟩
  · rw [hsource, hwritten]
    exact h.here (hmoved ▸ hm)
  · rw [hmoved] at hm
    rw [hsource, htarget hm, hwritten]
    exact h.kept hm
  · rw [hlatch] at hl
    cases hl
  · rw [hlatch] at hl
    cases hl

theorem restoreTarget_eq_some {target : Option (Value R A)} {payload value : Value R A} {replace : Bool}
    (hcover : ∀ old ∈ target, replace → Covers payload old)
    (h : restoreTarget target payload replace = some value) : value = payload := by
  unfold restoreTarget at h
  split at h
  · cases h
  · next hfree =>
    obtain rfl := Option.some.inj h
    funext r
    cases target with
    | none => exact Option.or_none
    | some old =>
      have hreplace : replace = true := by simpa using hfree
      cases hr : payload r with
      | some a => rfl
      | none =>
        have hold := mt (hcover old rfl hreplace r) (by rw [hr]; nofun)
        exact Option.not_isSome_iff_eq_none.mp hold

theorem Inv.step {w w' : World (Value R A)} {a : Step (Value R A)} (h : Inv w) (hok : Timely w a)
    (hs : step w a = some w') : Inv w' := by
  -- while the latch is held the key has not moved
  have hheld : ∀ {l}, w.latch = some l → w.moved = false := fun hl =>
    Bool.eq_false_iff.mpr fun hm => by rw [h.gone hm] at hl; cases hl
  cases a with dsimp only [Migrate.step] at hs
  | request handler =>
    split at hs <;> cases hs
    · exact ⟨h.here, h.kept, h.gone, h.dumped, h.restored⟩
    · exact h
  | lock i =>
    have hmoved : w.moved = false := hok
    split at hs <;> cases hs
    exact ⟨h.here, h.kept, fun hm => absurd (hmoved ▸ hm) Bool.false_ne_true, nofun, nofun⟩
  | handle committed =>
    split at hs
    · rename_i handler hlatch
      have hmoved := hheld hlatch
      have hfree : Inv { w with latch := none } := h.unlocked rfl rfl rfl (fun _ => rfl) rfl
      split at hs
      · rename_i value hvalue
        split at hs <;> cases hs
        · refine ⟨fun _ => ?_, fun hm => ?_, fun _ => rfl, nofun, nofun⟩
          · rw [← h.here hmoved, hvalue]
            rfl
          · exact absurd (hmoved ▸ hm) Bool.false_ne_true
        · exact hfree
      · cases hs
        exact hfree
    · cases hs
  | migrate replace =>
    split at hs
    · split at hs <;> cases hs
      · rename_i payload hsource
        refine ⟨h.here, h.kept, fun hm => ?_, fun v r hl => ?_, nofun⟩
        · rw [(h.kept hm).1] at hsource
          cases hsource
        · cases hl
          exact hsource
      · exact h
    · cases hs
  | restore =>
    split at hs
    · rename_i payload replace hlatch
      have hsource := h.dumped payload replace hlatch
      have hmoved := Bool.eq_false_iff.mp (hheld hlatch)
      split at hs <;> cases hs
      · rename_i value hvalue
        have hpayload : value = payload := by
          refine restoreTarget_eq_some (fun old hold hr => hok old hold payload ?_) hvalue
          rw [hlatch, hr]
          rfl
        refine ⟨h.here, fun hm => absurd hm hmoved, fun hm => absurd hm hmoved, nofun,
          fun v hl => ?_⟩
        cases hl
        exact ⟨hsource, congrArg some hpayload⟩
      · exact h.unlocked rfl rfl rfl (fun _ => rfl) rfl
    · cases hs
  | giveUp sent =>
    split at hs <;> cases hs <;> exact h.unlocked rfl rfl rfl (fun _ => rfl) rfl
  | delete committed =>
    split at hs
    · rename_i payload hlatch
      obtain ⟨hsource, htarget⟩ := h.restored payload hlatch
      have hmoved := hheld hlatch
      split at hs <;> cases hs
      · exact ⟨nofun, fun _ => ⟨rfl, by rw [htarget, ← h.here hmoved, hsource]⟩, fun _ => rfl,
          nofun, nofun⟩
      · exact h.unlocked rfl rfl rfl (fun _ => rfl) rfl
    · cases hs
  | lateRestore i =>
    obtain ⟨hmoved, hlatch⟩ := hok
    split at hs <;> cases hs
    refine ⟨h.here, fun hm => absurd (hmoved ▸ hm) Bool.false_ne_true, h.gone, h.dumped,
      fun v hl => ?_⟩
    rw [hl] at hlatch
    exact absurd rfl hlatch

theorem inv_start (value target : Option V) : Inv (start value target) :=
  ⟨fun _ => rfl, fun hm => absurd hm Bool.false_ne_true, fun hm => absurd hm Bool.false_ne_true, nofun,
    nofun⟩

/-- An integer string has one record. -/
def intString (n : Int) : Value Unit Int := fun _ => some n

/-- INCRBY on an integer string; `none` on overflow. -/
def addInt (delta : Int) : Handler (Value Unit Int) := fun value =>
  let new := (value.bind (· ())).getD 0 + delta
  if -2 ^ 63 ≤ new ∧ new < 2 ^ 63 then some (some (intString new)) else none

/-- The first MIGRATE is given up when the target has restored the key, the second replaces it. -/
def incrThenMigrate : List (Step (Value Unit Int)) :=
  [.migrate false, .restore, .giveUp false, .request (addInt 1), .lock 0, .handle true,
   .migrate true, .restore, .delete true]

def migrateThenIncr : List (Step (Value Unit Int)) :=
  [.request (addInt 1), .migrate false, .restore, .delete true, .lock 0, .handle true]

end Rdb.Command.Migrate
