import Rdb.Command.KeysCore
import Rdb.Ds.ListDs

/-!
# List commands

Every command resolves its key, plans its writes on the root it read and commits them
with the new root in one batch; a list left empty is deleted with its family. Arguments
come parsed. A latch is held over each command that writes, so a run of commands is a
sequence of these steps.
-/

namespace Rdb.Command

open Lib Ds ListDs

/-! ## Replies and states -/

inductive Reply where
  | int (n : Int)
  | bulk (b : Bytes)
  | null
  | array (elems : List Bytes)
  | ok
  | error (msg : String)
  deriving DecidableEq

def wrongtype : String := "WRONGTYPE Operation against a key holding the wrong kind of value"

def crossslotError : String := "ERR CROSSSLOT Keys in request don't hash to the same slot"

def arity (cmd : String) : String := "ERR wrong number of arguments for '" ++ cmd ++ "' command"

def blankMeta : ListMeta := { expireMs := 0, lCount := 0, lNext := 0, rCount := 0, rNext := 0 }

inductive ListState where
  | missing
  | list (expireMs : Nat) (m : ListMeta)
  | wrongType

def listState (store : Store) (k : UserKey) (now : Nat) : ListState × Store :=
  match resolve store k.pre k.bytes now with
  | (.missing, store) => (.missing, store)
  | (.rawString _, store) => (.wrongType, store)
  | (.enveloped kind expireMs payload, store) =>
    if kind ≠ kindListMeta then (.wrongType, store)
    else (.list expireMs (decodeMetaPayload expireMs payload), store)

/-- The entries of a command and the new root, or the wipe of the family. -/
def commitList (store : Store) (k : UserKey) (expireMs : Nat) (m : Option ListMeta)
    (batch : List WriteOp) : Store :=
  batchWrite store (batch.map .op ++ match m with
    | none => deleteFamily k expireMs
    | some m => setTtlEntries k.pre (metaKey k) expireMs expireMs ++ [writeMeta k m])

/-! ## Pushes -/

/-- The root after `n` entries came on top of a side. -/
def pushed (m : ListMeta) (left : Bool) (n : Nat) : ListMeta :=
  if left then { m with lNext := m.lNext + n, lCount := m.lCount + n }
  else { m with rNext := m.rNext + n, rCount := m.rCount + n }

/-- LPUSH, RPUSH and, without `create`, LPUSHX and RPUSHX. -/
def pushVariant (left create : Bool) (cmd : String) (store : Store) (now : Nat) (k : UserKey)
    (elems : List Bytes) : Reply × Store :=
  if elems.isEmpty then (.error (arity cmd), store)
  else
    let push := fun (store : Store) (m : ListMeta) =>
      let batch := (indexed (m.next left) elems).map fun e => putSide left k e.1 e.2
      let m := pushed m left elems.length
      (Reply.int m.len, commitList store k m.expireMs (some m) batch)
    match listState store k now with
    | (.list _ m, store) => push store m
    | (.missing, store) => if create then push store blankMeta else (.int 0, store)
    | (.wrongType, store) => (.error wrongtype, store)

def lpush := pushVariant true true "lpush"
def rpush := pushVariant false true "rpush"
def lpushx := pushVariant true false "lpushx"
def rpushx := pushVariant false false "rpushx"

/-! ## Reads -/

def llen (store : Store) (now : Nat) (k : UserKey) : Reply × Store :=
  match listState store k now with
  | (.list _ m, store) => (.int m.len, store)
  | (.missing, store) => (.int 0, store)
  | (.wrongType, store) => (.error wrongtype, store)

def clampRange (start stop : Int) (len : Nat) : Option (Nat × Nat) :=
  let lenI : Int := if len < 2 ^ 63 then len else 2 ^ 63 - 1
  let s := if start < 0 then max (lenI + start) 0 else min start lenI
  let e := if stop < 0 then lenI + stop else stop
  if e < 0 ∨ e < s ∨ lenI ≤ s then none else some (s.toNat, (min e (lenI - 1)).toNat)

def lrange (store : Store) (now : Nat) (k : UserKey) (start stop : Int) : Reply × Store :=
  match listState store k now with
  | (.list _ m, store) =>
    let elems := match clampRange start stop m.len with
      | none => []
      | some (lo, hi) => collectRange store k m lo hi
    (.array elems, store)
  | (.missing, store) => (.array [], store)
  | (.wrongType, store) => (.error wrongtype, store)

def lindex (store : Store) (now : Nat) (k : UserKey) (index : Int) : Reply × Store :=
  match listState store k now with
  | (.list _ m, store) =>
    match positionOf m index with
    | none => (.null, store)
    | some p => match getSide store (locate m p).1 k (locate m p).2 with
      | some elem => (.bulk elem, store)
      | none => (.null, store)
  | (.missing, store) => (.null, store)
  | (.wrongType, store) => (.error wrongtype, store)

/-! ## One element -/

def lset (store : Store) (now : Nat) (k : UserKey) (index : Int) (elem : Bytes) : Reply × Store :=
  match listState store k now with
  | (.list expireMs m, store) =>
    match positionOf m index with
    | none => (.error "ERR index out of range", store)
    | some p =>
      let (isLeft, idx) := locate m p
      (.ok, commitList store k expireMs (some m) [putSide isLeft k idx elem])
  | (.missing, store) => (.error "ERR no such key", store)
  | (.wrongType, store) => (.error wrongtype, store)

/-- The root after one entry went: at the top `next` shrinks with the count, at the bottom the base
moves up. -/
def popped (m : ListMeta) (isLeft : Bool) (idx : Nat) : ListMeta :=
  if isLeft then
    { m with
      lCount := m.lCount - 1
      lNext := if idx = m.lNext - 1 then m.lNext - 1 else m.lNext }
  else
    { m with
      rCount := m.rCount - 1
      rNext := if idx = m.rNext - 1 then m.rNext - 1 else m.rNext }

def popOne (store : Store) (k : UserKey) (m : ListMeta) (left : Bool) : Bytes × ListMeta :=
  let (isLeft, idx) := if left then popLeftTarget m else popRightTarget m
  ((getSide store isLeft k idx).getD [], popped m isLeft idx)

def popCore (store : Store) (now : Nat) (k : UserKey) (left : Bool) (count : Option Nat) :
    Except String (List Bytes) × Store :=
  match listState store k now with
  | (.missing, store) => (.ok [], store)
  | (.wrongType, store) => (.error wrongtype, store)
  | (.list expireMs m, store) =>
    let len := m.len
    if len = 0 ∨ count = some 0 then (.ok [], store)
    else
      let n := count.elim 1 fun c => min c len
      let elems := if n = 1 then [(popOne store k m left).1]
        else
          let (a, b) := if left then (0, n - 1) else (len - n, len - 1)
          let v := collectRange store k m a b
          if left then v else v.reverse
      if left then
        -- the left side from the top, then the right side from the bottom
        let takeL := min n m.lCount
        let takeR := n - takeL
        let batch := (List.range takeL).map (fun i => delSide true k (m.lNext - 1 - i)) ++
          (List.range takeR).map (fun i => delSide false k (m.rBase + i))
        let after := { m with
          lNext := m.lNext - takeL, lCount := m.lCount - takeL, rCount := m.rCount - takeR }
        (.ok elems, commitList store k expireMs (if after.isEmpty then none else some after) batch)
      else
        let takeR := min n m.rCount
        let takeL := n - takeR
        let batch := (List.range takeR).map (fun i => delSide false k (m.rNext - 1 - i)) ++
          (List.range takeL).map (fun i => delSide true k (m.lBase + i))
        let after := { m with
          rNext := m.rNext - takeR, rCount := m.rCount - takeR, lCount := m.lCount - takeL }
        (.ok elems, commitList store k expireMs (if after.isEmpty then none else some after) batch)

def pop (left : Bool) (store : Store) (now : Nat) (k : UserKey) (count : Option Int) :
    Reply × Store :=
  if count.any (· < 0) then (.error "ERR value is out of range, must be positive", store)
  else match popCore store now k left (count.map Int.toNat) with
    | (.error e, store) => (.error e, store)
    | (.ok elems, store) => match count with
      | none => (elems.head?.elim .null .bulk, store)
      | some _ => (.array elems, store)

def lpop := pop true
def rpop := pop false

/-! ## Rewrites -/

/-- The writes that close the gaps of one side after the entries of `kill` went, and the number of
entries left: deletes first, so that no entry is lost on its way. -/
def compactSide (k : UserKey) (live : List (Nat × Bytes)) (kill : List Nat) (left : Bool) :
    List WriteOp × Nat :=
  match (if left then live.head? else live.getLast?) with
  | none => ([], 0)
  | some (i, _) =>
    let next := i + 1
    let kept := live.filter fun e => !kill.contains e.1
    let count := kept.length
    let target := fun j : Nat => if left then next - 1 - j else next - count + j
    (kill.map (delSide left k) ++
      (kept.zipIdx.filterMap fun (e, j) => if e.1 ≠ target j then some (delSide left k e.1) else none) ++
      kept.zipIdx.map (fun (e, j) => putSide left k (target j) e.2), count)

/-- The entries of both sides, in the order of the list. -/
def visitOf (lside rside : List (Nat × Bytes)) : List (Bool × Nat × Bytes) :=
  lside.map (fun e => (true, e.1, e.2)) ++ rside.map fun e => (false, e.1, e.2)

/-- The entries to drop, up to a budget, in the order they are visited. -/
def lremKills (elem : Bytes) : Nat → List (Bool × Nat × Bytes) → List (Bool × Nat)
  | _, [] => []
  | 0, _ => []
  | budget + 1, (isLeft, idx, e) :: visit =>
    if e = elem then (isLeft, idx) :: lremKills elem budget visit
    else lremKills elem (budget + 1) visit

/-- The end of LREM and LTRIM: each side that loses entries is compacted. -/
def commitKills (store : Store) (k : UserKey) (expireMs : Nat) (m : ListMeta)
    (lside rside : List (Nat × Bytes)) (killL killR : List Nat) : Store :=
  let (batchL, lCount) := if killL.isEmpty then ([], m.lCount) else compactSide k lside killL true
  let (batchR, rCount) := if killR.isEmpty then ([], m.rCount) else compactSide k rside killR false
  let after := { m with lCount, rCount }
  commitList store k expireMs (if after.isEmpty then none else some after) (batchL ++ batchR)

def lrem (store : Store) (now : Nat) (k : UserKey) (cnt : Int) (elem : Bytes) : Reply × Store :=
  match listState store k now with
  | (.list expireMs m, store) =>
    let lside := collectSide store k m true
    let rside := collectSide store k m false
    let budget := if cnt = 0 then 2 ^ 64 - 1 else cnt.natAbs
    let visit := visitOf lside rside
    let kills := lremKills elem budget (if cnt < 0 then visit.reverse else visit)
    let killL := (kills.filter fun x => x.1).map (·.2)
    let killR := (kills.filter fun x => !x.1).map (·.2)
    (.int (killL.length + killR.length : Nat), commitKills store k expireMs m lside rside killL killR)
  | (.missing, store) => (.int 0, store)
  | (.wrongType, store) => (.error wrongtype, store)

def ltrim (store : Store) (now : Nat) (k : UserKey) (start stop : Int) : Reply × Store :=
  match listState store k now with
  | (.list expireMs m, store) =>
    match clampRange start stop m.len with
    | none => (.ok, commitList store k expireMs none [])
    | some (lo, hi) =>
      let lside := collectSide store k m true
      let rside := collectSide store k m false
      let out := fun p : Nat => decide (p < lo) || decide (hi < p)
      let killL := (lside.filter fun e => out (m.lBase + m.lCount - 1 - e.1)).map (·.1)
      let killR := (rside.filter fun e => out (m.lCount + (e.1 - m.rBase))).map (·.1)
      (.ok, commitKills store k expireMs m lside rside killL killR)
  | (.missing, store) => (.ok, store)
  | (.wrongType, store) => (.error wrongtype, store)

/-! ## Inserts and moves -/

def linsert (store : Store) (now : Nat) (k : UserKey) (before : Bool) (pivot elem : Bytes) :
    Reply × Store :=
  match listState store k now with
  | (.list expireMs m, store) =>
    let lside := collectSide store k m true
    let rside := collectSide store k m false
    let seq := lside.map (·.2) ++ rside.map (·.2)
    match seq.idxOf? pivot with
    | none => (.int (-1), store)
    | some p =>
      let place := p + (if before then 0 else 1)
      if place < lside.length then
        -- the entries in front of the place move one slot towards the head
        let batch := (lside.take place).map (fun e => delSide true k e.1) ++
          (lside.take place).reverse.map (fun e => putSide true k (e.1 + 1) e.2) ++
          [putSide true k (m.lNext - place) elem]
        let after := pushed m true 1
        (.int after.len, commitList store k expireMs (some after) batch)
      else
        let take := place - lside.length
        let batch := (rside.drop take).map (fun e => delSide false k e.1) ++
          (rside.drop take).reverse.map (fun e => putSide false k (e.1 + 1) e.2) ++
          [putSide false k (m.rBase + take) elem]
        let after := pushed m false 1
        (.int after.len, commitList store k expireMs (some after) batch)
  | (.missing, store) => (.int 0, store)
  | (.wrongType, store) => (.error wrongtype, store)

/-- The body of LMOVE and RPOPLPUSH: one batch for both keys. -/
def moveElem (store : Store) (now : Nat) (src dst : UserKey) (popLeft pushLeft : Bool) :
    Reply × Store :=
  if src.slot ≠ dst.slot then (.error crossslotError, store)
  else match listState store src now with
    | (.missing, store) => (.null, store)
    | (.wrongType, store) => (.error wrongtype, store)
    | (.list srcExpire srcMeta, store) =>
      if srcMeta.isEmpty then (.null, store)
      else
        let move := fun (store : Store) (dstExpire : Nat) (dstMeta : ListMeta) =>
          let (elem, srcAfter) := popOne store src srcMeta popLeft
          let (popIsLeft, popIdx) :=
            if popLeft then popLeftTarget srcMeta else popRightTarget srcMeta
          -- one root for a move on one key, two for a move between keys
          let srcBatch := if src = dst then []
            else if srcAfter.isEmpty then deleteFamily src srcExpire
            else setTtlEntries src.pre (metaKey src) srcExpire srcExpire ++ [writeMeta src srcAfter]
          let dstBefore := if src = dst then srcAfter else dstMeta
          let batch := [BatchEntry.op (delSide popIsLeft src popIdx)] ++ srcBatch ++
            [BatchEntry.op (putSide pushLeft dst (dstBefore.next pushLeft) elem)] ++
            setTtlEntries dst.pre (metaKey dst) dstExpire dstExpire ++
            [writeMeta dst (pushed dstBefore pushLeft 1)]
          (Reply.bulk elem, batchWrite store batch)
        match listState store dst now with
        | (.list dstExpire dstMeta, store) => move store dstExpire dstMeta
        | (.missing, store) => move store 0 blankMeta
        | (.wrongType, store) => (.error wrongtype, store)

def lmove := moveElem

def rpoplpush (store : Store) (now : Nat) (src dst : UserKey) : Reply × Store :=
  moveElem store now src dst false true

end Rdb.Command
