import Rdb.Sql.Floor

/-!
# The timestamp oracle in local mode

One 64-bit counter hands out timestamps. `now` is the last timestamp handed out,
whether or not its batch has reached the store. The oracle also counts the open
snapshots per timestamp; the oldest is the watermark of the garbage collector.

* `allocNAbove_eq`: a fresh range starts at the counter or above, as long as the
  counter does not wrap.
-/

namespace Rdb.Tx

open Lib

structure Oracle where
  next : Nat
  /-- Open snapshots: the number of holders of each timestamp. -/
  snaps : SortedMap Nat Nat

/-- Timestamps `start ≤ ts < stop`. -/
structure TsRange where
  start : Nat
  stop : Nat
  deriving DecidableEq

namespace Oracle

def new : Oracle := ⟨1, SortedMap.empty⟩

def allocN (o : Oracle) (n : Nat) : Oracle × TsRange :=
  let stop := (o.next + n) % 2 ^ 64
  ({ o with next := stop }, ⟨o.next, stop⟩)

def allocNAbove (o : Oracle) (n floor : Nat) : Oracle × TsRange :=
  { o with next := max o.next ((floor + 1) % 2 ^ 64) }.allocN n

def now (o : Oracle) : Nat := o.next - 1

def advanceTo (o : Oracle) (ts : Nat) : Oracle :=
  { o with next := max o.next (min (ts + 1) (2 ^ 64 - 1)) }

def registerSnapshot (o : Oracle) (ts : Nat) : Oracle :=
  { o with snaps := o.snaps.put ts ((o.snaps.get ts).getD 0 + 1) }

def unregisterSnapshot (o : Oracle) (ts : Nat) : Oracle :=
  match o.snaps.get ts with
  | some count =>
    { o with snaps := if count - 1 = 0 then o.snaps.delete ts else o.snaps.put ts (count - 1) }
  | none => o

/-- The oldest open snapshot, or `now`. -/
def watermark (o : Oracle) : Nat := (o.snaps.entries.head?.map (·.1)).getD o.now

@[simp] theorem next_unregisterSnapshot (o : Oracle) (ts : Nat) :
    (o.unregisterSnapshot ts).next = o.next := by
  unfold unregisterSnapshot
  split <;> rfl

/-- The allocation of `n` timestamps above `floor` leaves the counter inside 64 bits. -/
def Fits (o : Oracle) (n floor : Nat) : Prop := max o.next (floor + 1) + n < 2 ^ 64
  deriving Decidable

section Alloc

variable {o : Oracle} {n floor : Nat}

theorem allocNAbove_eq (h : o.Fits n floor) :
    o.allocNAbove n floor =
      ({ o with next := max o.next (floor + 1) + n },
        ⟨max o.next (floor + 1), max o.next (floor + 1) + n⟩) := by
  unfold Fits at h
  have hf : (floor + 1) % 2 ^ 64 = floor + 1 := Nat.mod_eq_of_lt (by omega)
  have hs := Nat.mod_eq_of_lt h
  simp only [allocNAbove, allocN, hf, hs]

end Alloc

end Oracle

end Rdb.Tx
