import Rdb.Tx.Global

/-!
# The write frontier

Before a commit in a cluster the node makes sure that its block serves timestamps above
the read point: it folds in the cursor, drops a block that does not cover the request and
leases another one. The check of the block compares with `≥`, and an allocation that is
served from the block does not look at the read point at all.

* `allocAbove_served`, `allocAbove_fallback`: where an allocation starts.
* `frontier_above_iff`: when it starts above the read point, in terms of the state, the
  cursor and the lease that the reserve starts from.
-/

namespace Rdb.Tx

open Lib

def tsAuthorityUnreachable : String :=
  "sql ts: ts authority unreachable, no block above the write frontier " ++
    "(distributed commits fail fast; retry)"

/-- What a node does to its allocation state, with the 64-bit values it is given. -/
inductive TsOp where
  | noteCursor (cursor : Fin (2 ^ 64))
  | observeFloor (hi : Fin (2 ^ 64))
  | allocN (n : Fin (2 ^ 64))
  | allocAbove (n floor : Fin (2 ^ 64))
  | carveAboveFloor (n floor : Fin (2 ^ 64))
  | installBlock (lo hi : Fin (2 ^ 64))
  | discardTail
  | recover

namespace TsState

def apply (st : TsState) : TsOp → TsState
  | .noteCursor cursor => st.noteCursor cursor
  | .observeFloor hi => st.observeFloor hi
  | .allocN n => (st.allocN n).1
  | .allocAbove n floor => (st.allocAbove n floor).1
  | .carveAboveFloor n floor => (st.carveAboveFloor n floor).1
  | .installBlock lo hi => (st.installBlock lo hi).1
  | .discardTail => st.discardTail
  | .recover => { st with degraded := false }

/-- The state of a node after some operations. -/
def after (ops : List TsOp) : TsState := ops.foldl apply {}

/-- The newest timestamp the node knows of. -/
def now (st : TsState) : Nat := max st.globalHi (st.lastCursor - 1)

/-- A lease that was fetched is adopted when it lies above everything granted. -/
def adopt (st : TsState) : Option (Fin (2 ^ 64) × Fin (2 ^ 64)) → TsState
  | none => st
  | some (lo, hi) => match st.installBlock lo hi with
    | (st, true) => { st with degraded := false }
    | (st, false) => st

/-- `reserve_write_frontier` on an active node, with no other task of the node between its steps:
`cursor` is what the node has applied and `fetch` the lease the authority answers with, if any. -/
def reserveWriteFrontier (st : TsState) (cursor : Fin (2 ^ 64)) (floor want : Nat) (strict : Bool)
    (fetch : Option (Fin (2 ^ 64) × Fin (2 ^ 64))) : Except String TsState :=
  let st := st.noteCursor cursor
  let floor := max floor ((st.observedFloor + 1) % 2 ^ 64)
  let st := if st.tailCovers floor want then st else st.discardTail.adopt fetch
  if strict && !st.tailCovers floor want then .error tsAuthorityUnreachable else .ok st

/-- The fallback has a timestamp left above `floor`. -/
def hasRoom (globalHi lastCursor floor : Nat) : Bool :=
  max (max globalHi floor) ((lastCursor + tsFallbackGap) % 2 ^ 64) != 2 ^ 64 - 1

/-- A lease that the node adopts. -/
def accepted (st : TsState) (fetch : Option (Fin (2 ^ 64) × Fin (2 ^ 64))) :
    Option (Fin (2 ^ 64) × Fin (2 ^ 64)) :=
  fetch.filter fun r => st.globalHi < r.1 && r.1 < r.2

/-- A block that covers the request starts above the read point and the observed commits; a lease
that is adopted and long enough starts above the read point; else there are timestamps left. -/
def clears (st : TsState) (cursor : Fin (2 ^ 64)) (readTs want : Nat)
    (fetch : Option (Fin (2 ^ 64) × Fin (2 ^ 64))) : Bool :=
  if st.tailCovers (max readTs ((st.observedFloor + 1) % 2 ^ 64)) want then
    max readTs st.observedFloor < st.blockLo
  else match st.accepted fetch with
    | some (lo, hi) =>
      if want ≤ hi.val - lo.val then readTs < lo
      else hasRoom (max st.globalHi (hi - 1)) (max (max st.lastCursor cursor) hi) readTs
    | none => hasRoom st.globalHi (max st.lastCursor cursor) readTs

section

variable {t : TsState} {n floor : Nat}

theorem allocAbove_served (hn : 1 ≤ n) (h : t.observedFloor < t.blockLo ∧ n ≤ t.remaining) :
    floor < (t.allocAbove n floor).2.1.start ↔ floor < t.blockLo := by
  rw [allocAbove, carve, if_neg (by omega), if_neg (by omega), if_neg (by omega)]

theorem allocAbove_fallback (hn : 1 ≤ n) (hhi : t.globalHi < 2 ^ 64) (hfloor : floor < 2 ^ 64)
    (h : ¬ (t.observedFloor < t.blockLo ∧ n ≤ t.remaining)) :
    floor < (t.allocAbove n floor).2.1.start ↔ hasRoom t.globalHi t.lastCursor floor := by
  -- the fallback adds one to the largest timestamp the node knows of
  have hfall : floor < (max (max t.globalHi floor) ((t.lastCursor + tsFallbackGap) % 2 ^ 64) + 1)
      % 2 ^ 64 ↔ hasRoom t.globalHi t.lastCursor floor := by
    rw [hasRoom, bne_iff_ne]
    omega
  rw [allocAbove, carve, if_neg (by omega)]
  by_cases hlow : t.blockLo ≤ t.observedFloor
  · rw [if_pos hlow]
    exact hfall
  · rw [if_neg hlow, if_pos (by omega)]
    exact hfall

end

/-! ## Reachable states -/

structure Wf (st : TsState) : Prop where
  floor : st.observedFloor ≤ st.globalHi
  hi : st.globalHi < 2 ^ 64
  cursor : st.lastCursor < 2 ^ 64
  block : st.blockHi ≤ st.globalHi + 1

variable {st : TsState} {n : Nat}

theorem Wf.carve (h : st.Wf) : (st.carve n).1.Wf := by
  obtain ⟨hfloor, hhi, hcursor, hblock⟩ := h
  unfold TsState.carve remaining
  split
  · exact ⟨hfloor, hhi, hcursor, hblock⟩
  · split
    · exact ⟨hfloor, hhi, hcursor, hblock⟩
    · split
      · exact ⟨hfloor, hhi, hcursor, hblock⟩
      · constructor <;> dsimp only <;> omega

theorem Wf.fallbackRange (h : st.Wf) : (st.fallbackRange n).1.Wf := by
  obtain ⟨hfloor, hhi, hcursor, hblock⟩ := h
  unfold TsState.fallbackRange
  constructor <;> dsimp only <;> omega

theorem Wf.allocAbove (h : st.Wf) (floor : Fin (2 ^ 64)) : (st.allocAbove n floor).1.Wf := by
  have hfloor := floor.isLt
  have hcarve := h.carve (n := n)
  unfold TsState.allocAbove
  split
  · next st' r hc =>
    rw [hc] at hcarve
    exact hcarve
  · next st' hc =>
    rw [hc] at hcarve
    obtain ⟨hfloor, hhi, hcursor, hblock⟩ := hcarve
    refine Wf.fallbackRange ?_
    constructor <;> dsimp only at * <;> omega

theorem Wf.apply (h : st.Wf) (op : TsOp) : (st.apply op).Wf := by
  have hcarve := fun n => h.carve (n := n)
  obtain ⟨hfloor, hhi, hcursor, hblock⟩ := id h
  cases op with
  | noteCursor cursor =>
    exact ⟨hfloor, hhi, max_lt hcursor cursor.isLt, hblock⟩
  | observeFloor hi =>
    have := hi.isLt
    constructor <;> dsimp only [TsState.apply, observeFloor] <;> omega
  | allocN n =>
    have hcarve := hcarve n
    unfold TsState.apply allocN
    dsimp only
    split
    · next st' r hc =>
      rw [hc] at hcarve
      exact hcarve
    · next st' hc =>
      rw [hc] at hcarve
      exact hcarve.fallbackRange
  | allocAbove n floor => exact h.allocAbove floor
  | carveAboveFloor n floor =>
    unfold TsState.apply carveAboveFloor
    dsimp only
    split
    · exact hcarve n
    · exact h
  | installBlock lo hi =>
    have := hi.isLt
    unfold TsState.apply installBlock
    dsimp only
    split
    · exact h
    · constructor <;> dsimp only <;> omega
  | discardTail | recover => exact ⟨hfloor, hhi, hcursor, hblock⟩

theorem wf_after (ops : List TsOp) : (after ops).Wf := by
  have hrun : ∀ (ops : List TsOp) (st : TsState), st.Wf → (ops.foldl TsState.apply st).Wf := by
    intro ops
    induction ops with
    | nil => exact fun _ h => h
    | cons op ops ih => exact fun st h => ih _ (h.apply op)
  exact hrun ops {} ⟨le_rfl, by decide, by decide, by decide⟩

theorem Wf.now_lt (h : st.Wf) : st.now < 2 ^ 64 := max_lt h.hi (by have := h.cursor; omega)

theorem adopt_eq (st : TsState) (fetch : Option (Fin (2 ^ 64) × Fin (2 ^ 64))) :
    st.adopt fetch = match st.accepted fetch with
      | some (lo, hi) =>
        { st with blockLo := lo, blockHi := hi, globalHi := max st.globalHi (hi - 1)
                  lastCursor := max st.lastCursor hi, degraded := false }
      | none => st := by
  cases fetch with
  | none => rfl
  | some r =>
    obtain ⟨lo, hi⟩ := r
    rw [adopt, installBlock, accepted, Option.filter_some]
    by_cases hr : hi.val ≤ lo.val ∨ lo.val ≤ st.globalHi
    · rw [if_pos hr, if_neg (by simp; omega)]
    · rw [if_neg hr, if_pos (by simp; omega)]

/-- A reserve keeps a block that covers the request and else leaves the lease or nothing. -/
theorem Wf.reserve_clears_iff (h : st.Wf) {st' : TsState} {cursor : Fin (2 ^ 64)}
    {readTs want : Nat} {strict : Bool} {fetch : Option (Fin (2 ^ 64) × Fin (2 ^ 64))}
    (hwant : 1 ≤ want) (hread : readTs < 2 ^ 64)
    (hok : st.reserveWriteFrontier cursor readTs want strict fetch = .ok st') :
    readTs < (st'.allocAbove want readTs).2.1.start ↔ st.clears cursor readTs want fetch := by
  obtain ⟨hfloor, hhi, hcursor, hblock⟩ := h
  have hlast : ∀ {t : TsState} {c : Bool},
      (if c then Except.error tsAuthorityUnreachable else .ok t) = .ok st' → st' = t := by
    intro t c h
    cases c <;> cases h
    rfl
  rw [hlast hok]
  have hkeep : (st.noteCursor cursor).tailCovers = st.tailCovers := rfl
  rw [hkeep, clears, show (st.noteCursor cursor).observedFloor = st.observedFloor from rfl]
  split
  · next hcovers =>
    rw [tailCovers, Bool.and_eq_true, decide_eq_true_iff, decide_eq_true_iff] at hcovers
    rw [decide_eq_true_iff]
    by_cases hobs : st.observedFloor < st.blockLo
    · refine (allocAbove_served (t := st.noteCursor cursor) hwant ⟨hobs, hcovers.2⟩).trans ?_
      exact ⟨fun hlt => max_lt hlt hobs, fun hlt => (le_max_left _ _).trans_lt hlt⟩
    · -- the observed commit is the last timestamp there is
      refine (allocAbove_fallback (t := st.noteCursor cursor) hwant hhi hread fun hs =>
        hobs hs.1).trans ?_
      rw [remaining] at hcovers
      rw [hasRoom, bne_iff_ne]
      dsimp only [noteCursor]
      omega
  · rw [adopt_eq, show (st.noteCursor cursor).discardTail.accepted = st.accepted from rfl]
    cases hlease : st.accepted fetch with
    | none =>
      refine allocAbove_fallback (t := (st.noteCursor cursor).discardTail) hwant hhi hread fun hs => ?_
      have hempty : (st.noteCursor cursor).discardTail.remaining = 0 := Nat.sub_self _
      omega
    | some r =>
      obtain ⟨lo, hi⟩ := r
      obtain ⟨-, hr⟩ := Option.filter_eq_some_iff.mp hlease
      obtain ⟨hlo, hlt⟩ : st.globalHi < lo.val ∧ lo.val < hi.val := by simpa using hr
      let t : TsState := ⟨lo, hi, max st.globalHi (hi - 1), st.observedFloor,
        max (max st.lastCursor cursor) hi, false⟩
      by_cases hlong : want ≤ hi.val - lo.val
      · refine (allocAbove_served (t := t) hwant ⟨hfloor.trans_lt hlo, hlong⟩).trans ?_
        simp only [hlong, if_true, decide_eq_true_iff, t]
      · refine (allocAbove_fallback (t := t) hwant (max_lt hhi (by omega)) hread fun hs =>
          hlong hs.2).trans ?_
        simp only [hlong, if_false, t]

end TsState

theorem eq_ok_of_toOption {ε α : Type} {x : Except ε α} {a : α} (h : x.toOption = some a) :
    x = .ok a := by
  cases x <;> cases h
  rfl

end Rdb.Tx
