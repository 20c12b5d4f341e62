import Rdb.Command.ListCmd
import Rdb.Ds.ZsetDs

/-!
# Sorted-set commands that write

ZADD, ZINCRBY, ZREM, ZPOPMIN, ZPOPMAX and the three ZREMRANGE commands. Each one resolves
its key, collects its writes and commits them with the new root in one batch, under the
latch of the key. Arguments come parsed; the sum of two scores is a parameter.
-/

namespace Rdb.Command

open Lib Ds ZsetDs

/-- A score in a reply is printed in its shortest form. -/
inductive ZsetReply where
  | int (n : Int)
  | null
  | score (s : Score)
  | scored (l : List (Bytes × Score))
  | error (msg : String)

/-! ## The state of a key -/

inductive ZSetState where
  | missing
  | wrongType
  | zset (expireMs count : Nat)

def zsetState (store : Store) (k : UserKey) (now : Nat) : ZSetState × Store :=
  match resolve store k.pre k.bytes now with
  | (.missing, store) => (.missing, store)
  | (.rawString _, store) => (.wrongType, store)
  | (.enveloped kind expireMs payload, store) =>
    if kind ≠ kindZsetMeta then (.wrongType, store)
    else (.zset expireMs (decodeCount payload), store)

/-- Deadline and count for a write; a missing key has neither. -/
def writeMetaOf (store : Store) (k : UserKey) (now : Nat) : Option (Nat × Nat) × Store :=
  match zsetState store k now with
  | (.zset expireMs count, store) => (some (expireMs, count), store)
  | (.missing, store) => (some (0, 0), store)
  | (.wrongType, store) => (none, store)

/-- The records of a command and the new root, or the wipe of the family. -/
def commitZset (store : Store) (k : UserKey) (expireMs count : Nat) (batch : List WriteOp) : Store :=
  batchWrite store (batch.map .op ++
    if count = 0 then deleteFamily k expireMs else [writeMeta k expireMs count])

/-! ## Bounds -/

/-- An inclusive zero bound seeks from the lower one of the zeros. -/
def seekFromSortable (min : Score) (incl : Bool) : Nat :=
  if incl && min.eq posZero then scoreSortable negZero else scoreSortable min

def inclSortable (score : Score) : Nat :=
  if score.eq posZero then scoreSortable posZero else scoreSortable score

def scoreBelowMin (score min : Score) (minIncl : Bool) : Bool :=
  if minIncl then inclSortable score < inclSortable min else scoreSortable score ≤ scoreSortable min

def scorePastMax (score max : Score) (maxIncl : Bool) : Bool :=
  if maxIncl then inclSortable max < inclSortable score else scoreSortable max ≤ scoreSortable score

/-- `<=` on floats. -/
def scoreLe (a b : Score) : Bool := !a.isNan && !b.isNan && decide (inclSortable a ≤ inclSortable b)

inductive LexBound where
  | negInf
  | posInf
  | incl (b : Bytes)
  | excl (b : Bytes)

def lexWithin (member : Bytes) (min max : LexBound) : Bool :=
  let aboveMin := match min with
    | .negInf => true
    | .posInf => false
    | .incl b => decide (b ≤ member)
    | .excl b => decide (b < member)
  let belowMax := match max with
    | .negInf => false
    | .posInf => true
    | .incl b => decide (member ≤ b)
    | .excl b => decide (member < b)
  aboveMin && belowMax

/-! ## ZADD and ZINCRBY -/

structure ZaddFlags where
  nx : Bool := false
  xx : Bool := false
  gt : Bool := false
  lt : Bool := false
  ch : Bool := false
  incr : Bool := false

def effectiveScore (store : Store) (k : UserKey) (pending : SortedMap Bytes Score) (member : Bytes) :
    Option Score :=
  (pending.get member).or (memberScore store k member)

/-- GT and LT keep a member unless its score gets strictly better. -/
def notBetter (flags : ZaddFlags) (score prev : Score) : Bool :=
  flags.gt && scoreLe score prev || flags.lt && scoreLe prev score

def skips (flags : ZaddFlags) (old : Option Score) (score : Score) : Bool :=
  flags.nx && old.isSome || flags.xx && old.isNone || old.any (notBetter flags score)

structure Staged where
  batch : List WriteOp
  pending : SortedMap Bytes Score
  count : Nat
  added : Nat
  changed : Nat

def zaddPair (flags : ZaddFlags) (store : Store) (k : UserKey) (st : Staged) (pair : Score × Bytes) :
    Staged :=
  let (score, member) := pair
  let old := effectiveScore store k st.pending member
  if skips flags old score then st
  else match old with
    | some prev =>
      -- equal as numbers: the records stay, and so do the bits they hold
      if prev.eq score then { st with pending := st.pending.put member score }
      else
        { st with
          batch := st.batch ++ [delScored k prev member, putMember k member score,
            putScored k score member]
          pending := st.pending.put member score
          changed := st.changed + 1 }
    | none =>
      { batch := st.batch ++ [putMember k member score, putScored k score member]
        pending := st.pending.put member score
        count := st.count + 1
        added := st.added + 1
        changed := st.changed + 1 }

section

variable (add : Score → Score → Score)

def rescore (store : Store) (k : UserKey) (expireMs base : Nat) (member : Bytes) (old : Option Score)
    (result : Score) : Store :=
  commitZset store k expireMs (base + if old.isNone then 1 else 0)
    (old.toList.map (delScored k · member) ++ [putMember k member result, putScored k result member])

/-- A missing member takes the increment as it is. -/
def incremented (old : Option Score) (delta : Score) : Score := old.elim delta (add · delta)

def zaddIncr (flags : ZaddFlags) (store : Store) (k : UserKey) (expireMs base : Nat)
    (pair : Score × Bytes) : ZsetReply × Store :=
  let (delta, member) := pair
  let old := memberScore store k member
  if flags.nx && old.isSome || flags.xx && old.isNone then (.null, store)
  else
    let result := incremented add old delta
    if result.isNan then (.error "ERR resulting score is not a number", store)
    else if old.any (notBetter flags result) then (.null, store)
    else (.score result, rescore store k expireMs base member old result)

def zadd (store : Store) (now : Nat) (k : UserKey) (flags : ZaddFlags) (pairs : List (Score × Bytes)) :
    ZsetReply × Store :=
  if pairs.isEmpty then (.error (arity "zadd"), store)
  else if flags.nx && flags.xx then
    (.error "ERR XX and NX options at the same time are not compatible", store)
  else if flags.nx && (flags.gt || flags.lt) || flags.gt && flags.lt then
    (.error "ERR GT, LT, and/or NX options at the same time are not compatible", store)
  else if flags.incr && decide (pairs.length ≠ 1) then
    (.error "ERR INCR option supports a single increment-element pair", store)
  else match writeMetaOf store k now with
    | (none, store) => (.error wrongtype, store)
    | (some (expireMs, base), store) =>
      match flags.incr, pairs with
      | true, pair :: _ => zaddIncr add flags store k expireMs base pair
      | _, pairs =>
        let st := pairs.foldl (zaddPair flags store k)
          { batch := [], pending := SortedMap.empty, count := base, added := 0, changed := 0 }
        if st.added + st.changed = 0 then (.int 0, store)
        else (.int (if flags.ch then st.changed else st.added),
          commitZset store k expireMs st.count st.batch)

def zincrby (store : Store) (now : Nat) (k : UserKey) (delta : Score) (member : Bytes) :
    ZsetReply × Store :=
  match writeMetaOf store k now with
  | (none, store) => (.error wrongtype, store)
  | (some (expireMs, base), store) =>
    let old := memberScore store k member
    let result := incremented add old delta
    if result.isNan then (.error "ERR resulting score is not a number", store)
    else (.score result, rescore store k expireMs base member old result)

end

/-! ## Removals -/

def dropScored (k : UserKey) (window : List (Bytes × Score)) : List WriteOp :=
  window.flatMap fun e => [delMember k e.1, delScored k e.2 e.1]

/-- Duplicate arguments count once. -/
def distinctMembers (members : List Bytes) : List Bytes :=
  members.foldl (fun out m => if out.contains m then out else out ++ [m]) []

def zrem (store : Store) (now : Nat) (k : UserKey) (members : List Bytes) : ZsetReply × Store :=
  if members.isEmpty then (.error (arity "zrem"), store)
  else match writeMetaOf store k now with
    | (none, store) => (.error wrongtype, store)
    | (some (expireMs, base), store) =>
      if base = 0 then (.int 0, store)
      else
        let found := (distinctMembers members).filterMap fun m =>
          (memberScore store k m).map fun s => (m, s)
        if found.length = 0 then (.int 0, store)
        else (.int found.length,
          commitZset store k expireMs (base - found.length) (dropScored k found))

/-- MIN takes the first `n` of the index, MAX keeps the last `n`. -/
def popWindow (store : Store) (k : UserKey) (max : Bool) (n : Nat) : List (Bytes × Score) :=
  forEachScored store k [] false (fun window member score =>
    let window := window ++ [(member, score)]
    if max then (if n < window.length then window.tail else window, true)
    else (window, decide (window.length < n))) []

def zpop (store : Store) (now : Nat) (k : UserKey) (max : Bool) (count : Option Int) :
    ZsetReply × Store :=
  if count.any (· < 0) then (.error "ERR value is out of range, must be positive", store)
  else if count = some 0 then (.scored [], store)
  else match zsetState store k now with
    | (.missing, store) => (.scored [], store)
    | (.wrongType, store) => (.error wrongtype, store)
    | (.zset expireMs base, store) =>
      if base = 0 then (.scored [], store)
      else
        let window := popWindow store k max ((count.getD 1).toNat)
        (.scored (if max then window.reverse else window),
          commitZset store k expireMs (base - window.length) (dropScored k window))

def removeWindow (store : Store) (k : UserKey) (expireMs base : Nat) (window : List (Bytes × Score)) :
    ZsetReply × Store :=
  if window.isEmpty then (.int 0, store)
  else (.int window.length,
    commitZset store k expireMs (base - window.length) (dropScored k window))

/-- What the three ZREMRANGE commands share; they differ in what they collect. -/
def removeRange (store : Store) (now : Nat) (k : UserKey)
    (collect : Store → Nat → List (Bytes × Score)) : ZsetReply × Store :=
  match writeMetaOf store k now with
  | (none, store) => (.error wrongtype, store)
  | (some (expireMs, base), store) =>
    if base = 0 then (.int 0, store)
    else removeWindow store k expireMs base (collect store base)

def rankWindow (k : UserKey) (start stop : Int) (store : Store) (base : Nat) : List (Bytes × Score) :=
  match clampRange start stop base with
  | none => []
  | some (lo, hi) =>
    (forEachScored store k [] false (fun (s : List (Bytes × Score) × Nat) member score =>
      if hi < s.2 then (s, false)
      else ((if lo ≤ s.2 then s.1 ++ [(member, score)] else s.1, s.2 + 1), true)) ([], 0)).1

def zremrangebyrank (store : Store) (now : Nat) (k : UserKey) (start stop : Int) : ZsetReply × Store :=
  removeRange store now k (rankWindow k start stop)

def scoreWindow (k : UserKey) (min max : Score × Bool) (store : Store) (_base : Nat) :
    List (Bytes × Score) :=
  forEachScored store k (beBytes 8 (seekFromSortable min.1 min.2)) (!min.2)
    (fun window member score =>
      if scoreBelowMin score min.1 min.2 then (window, true)
      else if scorePastMax score max.1 max.2 then (window, false)
      else (window ++ [(member, score)], true)) []

def zremrangebyscore (store : Store) (now : Nat) (k : UserKey) (min max : Score × Bool) :
    ZsetReply × Store :=
  removeRange store now k (scoreWindow k min max)

def collectScored (store : Store) (k : UserKey) : List (Bytes × Score) :=
  forEachScored store k [] false (fun items member score => (items ++ [(member, score)], true)) []

def lexWindow (k : UserKey) (min max : LexBound) (store : Store) (_base : Nat) : List (Bytes × Score) :=
  (collectScored store k).filter fun e => lexWithin e.1 min max

def zremrangebylex (store : Store) (now : Nat) (k : UserKey) (min max : LexBound) : ZsetReply × Store :=
  removeRange store now k (lexWindow k min max)

end Rdb.Command
