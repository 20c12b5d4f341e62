import Rdb.Lib.Ownership
import Rdb.Tx.Oracle

/-!
# Cluster timestamps

In a cluster every node allocates from blocks of timestamps. The leader takes a
block by writing the end of it, the cursor, through the replicated log before it
serves the block; followers lease parts of the leader's block. The cursor a fetch
starts from is the one in the node's own applied state.

The log is a list of committed cursor values of which every node has applied a
prefix. A fetch is a task of its node: it takes a snapshot of the leadership, waits
for the node's fetch lock, reads the cursor, proposes its entry, and has its block
when the entry commits. A block belongs to one holder at a time: a fetch, a node or
an allocation.

* `carve_spec`: a carved range and the rest of the block split the block.
-/

namespace Rdb.Tx

open Lib List Option

/-! ## The allocation state of a node -/

def tsBlock : Nat := 4096
def tsFallbackGap : Nat := 4 * 2 ^ 20
def maxRemoteBlock : Nat := 2 ^ 20
def refillLowWater : Nat := tsBlock / 2

structure TsState where
  /-- The block that can be served is `blockLo ≤ ts < blockHi`. -/
  blockLo : Nat := 0
  blockHi : Nat := 0
  globalHi : Nat := 0
  /-- The highest timestamp known to be committed elsewhere. -/
  observedFloor : Nat := 0
  lastCursor : Nat := 0
  degraded : Bool := false
  deriving DecidableEq

namespace TsState

variable (st : TsState)

def block : TsRange := ⟨st.blockLo, st.blockHi⟩

def remaining : Nat := st.blockHi - st.blockLo

/-- Take `n` timestamps from the block. A block at or below an observed commit is discarded. -/
def carve (n : Nat) : TsState × Option TsRange :=
  if n = 0 then (st, some ⟨st.blockLo, st.blockLo⟩)
  else if st.blockLo ≤ st.observedFloor then ({ st with blockLo := st.blockHi }, none)
  else if st.remaining < n then (st, none)
  else
    ({ st with blockLo := st.blockLo + n, globalHi := max st.globalHi (st.blockLo + n - 1) },
      some ⟨st.blockLo, st.blockLo + n⟩)

def carveAboveFloor (n floor : Nat) : TsState × Option TsRange :=
  if floor ≤ st.blockLo then st.carve n else (st, none)

def tailCovers (floor want : Nat) : Bool := floor ≤ st.blockLo && want ≤ st.remaining

/-- The degraded fallback: a range made up above everything the node knows of. -/
def fallbackRange (n : Nat) : TsState × TsRange :=
  let lo := (max st.globalHi ((st.lastCursor + tsFallbackGap) % 2 ^ 64) + 1) % 2 ^ 64
  let stop := (lo + n) % 2 ^ 64
  ({ st with globalHi := max st.globalHi (stop - 1), degraded := true }, ⟨lo, stop⟩)

def installBlock (lo hi : Nat) : TsState × Bool :=
  if hi ≤ lo ∨ lo ≤ st.globalHi then (st, false)
  else
    ({ st with blockLo := lo, blockHi := hi, globalHi := max st.globalHi (hi - 1),
               lastCursor := max st.lastCursor hi }, true)

/-- Allocate `n` timestamps; the flag says that they come from the block. -/
def allocN (n : Nat) : TsState × TsRange × Bool :=
  match st.carve n with
  | (st', some r) => (st', r, true)
  | (st', none) => ((st'.fallbackRange n).1, (st'.fallbackRange n).2, false)

/-- Allocate for a statement that has read up to `floor`. -/
def allocAbove (n floor : Nat) : TsState × TsRange × Bool :=
  match st.carve n with
  | (st', some r) => (st', r, true)
  | (st', none) =>
    let st'' := { st' with blockLo := st'.blockHi, globalHi := max st'.globalHi floor }
    ((st''.fallbackRange n).1, (st''.fallbackRange n).2, false)

/-- Fold the applied cursor into the state. -/
def noteCursor (cursor : Nat) : TsState := { st with lastCursor := max st.lastCursor cursor }

def observeFloor (hi : Nat) : TsState :=
  { st with globalHi := max st.globalHi hi, observedFloor := max st.observedFloor hi }

def discardTail : TsState := { st with blockLo := st.blockHi }

end TsState

def nextBlockLo (cursor floor : Nat) : Nat := max (max cursor floor) 1

/-- `want` clamped to the size of a block. -/
def blockSize (want : Nat) : Nat := max tsBlock (min want maxRemoteBlock)

/-! ## The cluster -/

inductive Purpose where
  | refill
  | reserve
  /-- A lease of `n` timestamps for a fetch of a follower. -/
  | lease (n client : Nat)

inductive Stage where
  | starting (want floor : Nat)
  /-- With the snapshot of the leadership, before the fetch lock. -/
  | queued (leader : Bool) (want floor : Nat)
  /-- With the cursor of the applied state. -/
  | read (cursor want floor : Nat)
  | proposed (cursor want floor : Nat)
  /-- A follower about to send its request. -/
  | asking (want floor : Nat)
  | waiting
  | fetched (lo hi : Nat)
  deriving DecidableEq

def Stage.holdsMux : Stage → Bool
  | .read .. | .proposed .. | .asking .. | .waiting => true
  | _ => false

/-- The larger of the cursor a proposing fetch has read and its floor. -/
def Stage.base : Stage → Option Nat
  | .proposed cursor _ floor => some (max cursor floor)
  | _ => none

def Stage.proposal : Stage → Option Nat
  | .proposed cursor want floor => some ((nextBlockLo cursor floor + blockSize want) % 2 ^ 64)
  | _ => none

structure Fetch where
  node : Nat
  purpose : Purpose
  stage : Stage

structure TsCluster where
  /-- The committed cursor values, in order. -/
  log : List Nat := []
  applied : Nat → Nat := fun _ => 0
  /-- The node takes itself for the leader. -/
  isLeader : Nat → Bool := fun _ => false
  ts : Nat → TsState := fun _ => {}
  fetches : Nat → Option Fetch := fun _ => none
  nextId : Nat := 0
  /-- Proposed cursor values whose fetch has given up. -/
  orphans : List Nat := []
  /-- The ranges allocations got from blocks, oldest first. -/
  granted : List TsRange := []

inductive TsAction where
  | lead (i : Nat) (b : Bool)
  | apply (i : Nat)
  | restart (i : Nat)
  | sync (i : Nat)
  | observe (i hi : Nat)
  | alloc (i n : Nat)
  | allocAbove (i n floor : Nat)
  | refill (i : Nat)
  | reserve (i floor want : Nat)
  | snapshot (f : Nat)
  | lock (f : Nat)
  | propose (f : Nat)
  | commit (f : Nat)
  | commitOrphan (k : Nat)
  | ask (f j : Nat)
  | finish (f : Nat)
  | fail (f : Nat)

namespace TsCluster

variable (s : TsCluster)

def setTs (i : Nat) (st : TsState) : TsCluster :=
  { s with ts := fun j => if j = i then st else s.ts j }

def setFetch (f : Nat) (fetch : Option Fetch) : TsCluster :=
  { s with fetches := fun g => if g = f then fetch else s.fetches g }

def setStage (f : Nat) (fetch : Fetch) (stage : Stage) : TsCluster :=
  s.setFetch f (some { fetch with stage })

def spawn (fetch : Fetch) : TsCluster :=
  { s.setFetch s.nextId (some fetch) with nextId := s.nextId + 1 }

/-- The cursor in the applied state of a node; none reads as 0. -/
def cursor (i : Nat) : Nat := (s.log.take (s.applied i)).getLast?.getD 0

def muxFree (i : Nat) : Bool :=
  (List.range s.nextId).all fun g =>
    (s.fetches g).all fun fetch => fetch.node != i || !fetch.stage.holdsMux

/-- Record an allocation; a fallback range is not one from a block. -/
def grant (i : Nat) (r : TsState × TsRange × Bool) : TsCluster :=
  let s := s.setTs i r.1
  if r.2.2 then { s with granted := s.granted ++ [r.2.1] } else s

/-- The `/sql/ts` request of fetch `f` at node `j`. -/
def carveRemote (f : Nat) (fetch : Fetch) (j want floor : Nat) : TsCluster :=
  let n := max 1 (min want maxRemoteBlock)
  let floor := max floor (((s.ts j).observedFloor + 1) % 2 ^ 64)
  match (s.ts j).carveAboveFloor n floor with
  | (st, some r) => (s.setTs j st).setStage f fetch (.fetched r.start r.stop)
  | (st, none) =>
    ((s.setTs j st).setStage f fetch .waiting).spawn
      ⟨j, .lease n f, .starting (max n tsBlock) floor⟩

/-- Adopt the fetched block and, for a lease, carve the client's range from it. -/
def finish (f : Nat) (fetch : Fetch) (lo hi : Nat) : TsCluster :=
  match (s.ts fetch.node).installBlock lo hi with
  | (_, false) => s.setFetch f none
  | (st, true) =>
    let s := (s.setFetch f none).setTs fetch.node { st with degraded := false }
    match fetch.purpose with
    | .lease n client => match (s.ts fetch.node).carve n with
      | (st, some r) =>
        let s := s.setTs fetch.node st
        match s.fetches client with
        | some c => if c.stage = .waiting then s.setStage client c (.fetched r.start r.stop) else s
        | none => s
      | (st, none) => s.setTs fetch.node st
    | _ => s

end TsCluster

def tsStep (s : TsCluster) : TsAction → Option TsCluster
  | .lead i b => some { s with isLeader := fun j => if j = i then b else s.isLeader j }
  | .apply i =>
    if s.applied i < s.log.length then
      some { s with applied := fun j => if j = i then s.applied i + 1 else s.applied j }
    else none
  | .restart i =>
    some { s.setTs i {} with
      applied := fun j => if j = i then 0 else s.applied j
      fetches := fun f => (s.fetches f).filter fun fetch => fetch.node != i
      orphans := ((List.range s.nextId).filterMap fun f => (s.fetches f).bind fun fetch =>
        if fetch.node = i then fetch.stage.proposal else none) ++ s.orphans }
  | .sync i => some (s.setTs i ((s.ts i).noteCursor (s.cursor i)))
  | .observe i hi => some (s.setTs i ((s.ts i).observeFloor hi))
  | .alloc i n => some (s.grant i ((s.ts i).allocN n))
  | .allocAbove i n floor => some (s.grant i ((s.ts i).allocAbove n floor))
  | .refill i =>
    let st := (s.ts i).noteCursor (s.cursor i)
    if st.remaining < refillLowWater then
      some ((s.setTs i st).spawn ⟨i, .refill, .starting tsBlock ((st.globalHi + 1) % 2 ^ 64)⟩)
    else some (s.setTs i { st with degraded := false })
  | .reserve i floor want =>
    let st := (s.ts i).noteCursor (s.cursor i)
    let floor := max floor ((st.observedFloor + 1) % 2 ^ 64)
    if st.tailCovers floor want then some (s.setTs i st)
    else
      some ((s.setTs i st.discardTail).spawn ⟨i, .reserve, .starting (max want tsBlock) floor⟩)
  | .snapshot f => do
    let fetch ← s.fetches f
    match fetch.stage with
    | .starting want floor =>
      some (s.setStage f fetch (.queued (s.isLeader fetch.node) want floor))
    | _ => none
  | .lock f => do
    let fetch ← s.fetches f
    match fetch.stage with
    | .queued leader want floor =>
      if s.muxFree fetch.node then
        some (s.setStage f fetch
          (if leader then .read (s.cursor fetch.node) want floor else .asking want floor))
      else none
    | _ => none
  | .propose f => do
    let fetch ← s.fetches f
    match fetch.stage with
    | .read cursor want floor =>
      if s.isLeader fetch.node then some (s.setStage f fetch (.proposed cursor want floor))
      else some (s.setFetch f none)
    | _ => none
  | .commit f => do
    let fetch ← s.fetches f
    match fetch.stage with
    | .proposed cursor want floor =>
      let lo := nextBlockLo cursor floor
      let hi := (lo + blockSize want) % 2 ^ 64
      -- the proposer answers after it has applied the entry
      some { s.setStage f fetch (.fetched lo hi) with
        log := s.log ++ [hi]
        applied := fun j => if j = fetch.node then s.log.length + 1 else s.applied j }
    | _ => none
  | .commitOrphan k => do
    let hi ← s.orphans[k]?
    some { s with log := s.log ++ [hi], orphans := s.orphans.eraseIdx k }
  | .ask f j => do
    let fetch ← s.fetches f
    match fetch.stage with
    | .asking want floor =>
      if s.isLeader j then some (s.carveRemote f fetch j want floor)
      else some (s.setFetch f none)
    | _ => none
  | .finish f => do
    let fetch ← s.fetches f
    match fetch.stage with
    | .fetched lo hi => some (s.finish f fetch lo hi)
    | _ => none
  | .fail f => do
    let fetch ← s.fetches f
    some { s.setFetch f none with orphans := fetch.stage.proposal.toList ++ s.orphans }

/-! ## Holders of timestamps -/

def TsRange.Mem (r : TsRange) (t : Nat) : Prop := r.start ≤ t ∧ t < r.stop

variable {st st' : TsState} {n : Nat} {r : TsRange}

theorem TsState.carve_spec (h : st.carve n = (st', some r)) (t : Nat) :
    (r.Mem t → st.block.Mem t ∧ ¬ st'.block.Mem t) ∧ (st'.block.Mem t → st.block.Mem t) := by
  unfold TsState.carve TsState.remaining at h
  simp only [TsRange.Mem, TsState.block]
  split at h
  · cases h
    dsimp only
    omega
  · split at h
    · cases h
    · split at h
      · cases h
      · cases h
        dsimp only
        omega

theorem TsState.carve_none (h : st.carve n = (st', none)) (t : Nat)
    (ht : st'.block.Mem t) : st.block.Mem t := by
  unfold TsState.carve at h
  simp only [TsRange.Mem, TsState.block] at ht ⊢
  split at h
  · cases h
  · split at h
    · cases h
      dsimp only at ht
      omega
    · split at h
      · cases h
        exact ht
      · cases h

variable {lo hi : Nat}

theorem TsState.installBlock_block
    (h : st.installBlock lo hi = (st', true)) : st'.block = ⟨lo, hi⟩ := by
  unfold TsState.installBlock at h
  split at h
  · cases h
  · cases h
    rfl

inductive Holder where
  | node (i : Nat)
  | fetch (f : Nat)
  | grant (k : Nat)
  deriving DecidableEq

def Fetch.range (fetch : Fetch) : TsRange :=
  match fetch.stage with
  | .fetched lo hi => ⟨lo, hi⟩
  | _ => ⟨0, 0⟩

def TsCluster.holding (s : TsCluster) : Holder → TsRange
  | .node i => (s.ts i).block
  | .fetch f => ((s.fetches f).map Fetch.range).getD ⟨0, 0⟩
  | .grant k => s.granted[k]?.getD ⟨0, 0⟩

def TsCluster.own (s : TsCluster) (h : Holder) (t : Nat) : Prop := (s.holding h).Mem t

open TsCluster TsState

section

variable (s : TsCluster)

@[simp] theorem holding_setTs (i : Nat) (st : TsState) (h : Holder) :
    (s.setTs i st).holding h = if h = .node i then st.block else s.holding h := by
  cases h with
  | node j =>
    by_cases hj : j = i
    · simp [holding, TsCluster.setTs, hj]
    · simp [holding, TsCluster.setTs, hj]
  | fetch f => rfl
  | grant k => rfl

@[simp] theorem holding_setFetch (f : Nat) (fetch : Option Fetch) (h : Holder) :
    (s.setFetch f fetch).holding h =
      if h = .fetch f then (fetch.map Fetch.range).getD ⟨0, 0⟩ else s.holding h := by
  cases h with
  | node j => rfl
  | fetch g =>
    by_cases hg : g = f
    · simp [holding, TsCluster.setFetch, hg]
    · simp [holding, TsCluster.setFetch, hg]
  | grant k => rfl

theorem holding_grant (r : TsRange) (h : Holder) :
    { s with granted := s.granted ++ [r] }.holding h =
      if h = .grant s.granted.length then r else s.holding h := by
  cases h with
  | node j => rfl
  | fetch g => rfl
  | grant k =>
    simp only [holding, getElem?_append]
    by_cases hk : k = s.granted.length
    · simp [hk]
    · by_cases hlt : k < s.granted.length
      · simp [hk, hlt]
      · have hnone : [r][k - s.granted.length]? = none :=
          getElem?_eq_none (by rw [length_singleton]; omega)
        simp [hk, hlt, hnone]

end

/-! ## The invariant -/

/-- No timestamp has two holders, and every timestamp held is below a committed cursor. -/
structure TsOk (s : TsCluster) : Prop where
  excl : Exclusive s.own
  below : ∀ h t, s.own h t → ∃ c ∈ s.log, t < c

variable {s s' : TsCluster}

theorem not_mem_empty (t : Nat) : ¬ (⟨0, 0⟩ : TsRange).Mem t := by
  simp only [TsRange.Mem]
  omega

theorem TsOk.shrink (h : TsOk s) (hown : ∀ a t, s'.own a t → s.own a t)
    (hlog : ∀ c ∈ s.log, c ∈ s'.log) : TsOk s' where
  excl := h.excl.drop hown
  below a t ht := by
    obtain ⟨c, hc, hlt⟩ := h.below a t (hown a t ht)
    exact ⟨c, hlog c hc, hlt⟩

theorem TsOk.pass {a b : Holder} (h : TsOk s)
    (hrest : ∀ c t, c ≠ b → s'.own c t → s.own c t)
    (htake : ∀ t, s'.own b t → s.own a t ∧ ¬ s'.own a t) (hlog : s'.log = s.log) : TsOk s' where
  excl := h.excl.move hrest (fun t ht => (htake t ht).1) fun t ht => (htake t ht).2
  below c t ht := by
    rw [hlog]
    by_cases hc : c = b
    · exact h.below a t (htake t (hc ▸ ht)).1
    · exact h.below c t (hrest c t hc ht)

variable {i : Nat}

theorem TsOk.setTs (h : TsOk s)
    (hsub : ∀ t, st.block.Mem t → (s.ts i).block.Mem t) : TsOk (s.setTs i st) := by
  refine h.shrink (fun a t ht => ?_) fun c hc => hc
  rw [own, holding_setTs] at ht
  split at ht
  · next ha => exact ha ▸ hsub t ht
  · exact ht

variable {f : Nat}

theorem TsOk.setFetch (h : TsOk s) {fetch : Option Fetch}
    (hempty : (fetch.map Fetch.range).getD ⟨0, 0⟩ = ⟨0, 0⟩) : TsOk (s.setFetch f fetch) := by
  refine h.shrink (fun a t ht => ?_) fun c hc => hc
  rw [own, holding_setFetch] at ht
  split at ht
  · rw [hempty] at ht
    exact absurd ht (not_mem_empty t)
  · exact ht

variable {fetch : Fetch}

theorem TsOk.spawn (h : TsOk s) (hempty : fetch.range = ⟨0, 0⟩) : TsOk (s.spawn fetch) := by
  have hset : TsOk (s.setFetch s.nextId (some fetch)) := h.setFetch hempty
  exact ⟨hset.excl, hset.below⟩

theorem TsOk.carved (h : TsOk s) (hc : (s.ts i).carve n = (st, some r)) :
    TsOk { s.setTs i st with granted := s.granted ++ [r] } := by
  have hspec := carve_spec hc
  have hold : ∀ a, { s.setTs i st with granted := s.granted ++ [r] }.holding a =
      if a = .grant s.granted.length then r else if a = .node i then st.block else s.holding a :=
    fun a => (holding_grant (s.setTs i st) r a).trans (by rw [holding_setTs]; rfl)
  refine h.pass (a := .node i) (b := .grant s.granted.length) (fun c t hcb ht => ?_)
    (fun t ht => ?_) rfl
  · rw [own, hold, if_neg hcb] at ht
    split at ht
    · next hci => exact hci ▸ (hspec t).2 ht
    · exact ht
  · rw [own, hold, if_pos rfl] at ht
    rw [own, own, hold, if_pos rfl]
    exact (hspec t).1 ht

theorem TsOk.lend (h : TsOk s) (hc : (s.ts i).carve n = (st, some r)) :
    TsOk ((s.setTs i st).setStage f fetch (.fetched r.start r.stop)) := by
  have hspec := carve_spec hc
  refine h.pass (a := .node i) (b := .fetch f) (fun c t hcb ht => ?_) (fun t ht => ?_) rfl
  · rw [own, setStage, holding_setFetch, if_neg hcb, holding_setTs] at ht
    split at ht
    · next hci => exact hci ▸ (hspec t).2 ht
    · exact ht
  · rw [own, setStage, holding_setFetch, if_pos rfl] at ht
    rw [own, own, setStage, holding_setFetch, holding_setTs, if_pos rfl]
    exact (hspec t).1 ht

theorem TsOk.install (h : TsOk s)
    (hblock : st.block = s.holding (.fetch f)) : TsOk ((s.setFetch f none).setTs i st) := by
  refine h.pass (a := .fetch f) (b := .node i) (fun c t hcb ht => ?_) (fun t ht => ?_) rfl
  · rw [own, holding_setTs, if_neg hcb, holding_setFetch] at ht
    split at ht
    · exact absurd ht (not_mem_empty t)
    · exact ht
  · rw [own, holding_setTs, if_pos rfl, hblock] at ht
    refine ⟨ht, ?_⟩
    rw [own, holding_setTs, holding_setFetch, if_pos rfl]
    exact not_mem_empty t

theorem TsOk.commit (h : TsOk s) {applied : Nat → Nat} (habove : ∀ c ∈ s.log, c ≤ lo) :
    TsOk { s.setStage f fetch (.fetched lo hi) with log := s.log ++ [hi], applied } := by
  have hold : ∀ a, { s.setStage f fetch (.fetched lo hi) with
      log := s.log ++ [hi], applied }.holding a =
      if a = .fetch f then ⟨lo, hi⟩ else s.holding a :=
    fun a => holding_setFetch s f (some { fetch with stage := .fetched lo hi }) a
  have hrest : ∀ a t, a ≠ .fetch f → { s.setStage f fetch (.fetched lo hi) with
      log := s.log ++ [hi], applied }.own a t → s.own a t := fun a t ha ht => by
    rwa [own, hold, if_neg ha] at ht
  have hmine : ∀ t, { s.setStage f fetch (.fetched lo hi) with
      log := s.log ++ [hi], applied }.own (.fetch f) t → lo ≤ t ∧ t < hi := fun t ht => by
    rwa [own, hold, if_pos rfl] at ht
  constructor
  · refine h.excl.fresh hrest fun a t ht ha => ?_
    obtain ⟨c, hc, hlt⟩ := h.below a t ha
    have := habove c hc
    have := hmine t ht
    omega
  · intro a t ht
    by_cases ha : a = .fetch f
    · subst ha
      exact ⟨hi, mem_append_right _ mem_cons_self, (hmine t ht).2⟩
    · obtain ⟨c, hc, hlt⟩ := h.below a t (hrest a t ha ht)
      exact ⟨c, mem_append_left _ hc, hlt⟩

/-! ## The steps -/

/-- The entry of a fetch commits while no committed cursor is above both the cursor it has read
and its floor. -/
def TsGuard (s : TsCluster) : TsAction → Prop
  | .commit f => ∀ fetch ∈ s.fetches f, ∀ base ∈ fetch.stage.base, ∀ c ∈ s.log, c ≤ base
  | _ => True

instance decidableTsGuard (s : TsCluster) (a : TsAction) : Decidable (TsGuard s a) := by
  cases a <;> dsimp only [TsGuard] <;> infer_instance

theorem TsOk.alloc (h : TsOk s) : TsOk (s.grant i ((s.ts i).allocN n)) := by
  unfold TsState.allocN
  cases hc : (s.ts i).carve n with
  | mk st r => cases r with
    | some r => exact h.carved hc
    | none => exact h.setTs fun t ht => carve_none hc t ht

theorem TsOk.allocAbove (h : TsOk s) {floor : Nat} :
    TsOk (s.grant i ((s.ts i).allocAbove n floor)) := by
  unfold TsState.allocAbove
  cases hc : (s.ts i).carve n with
  | mk st r => cases r with
    | some r => exact h.carved hc
    | none =>
      refine h.setTs fun t ht => ?_
      -- the tail has been emptied
      exact absurd ht.2 (Nat.not_lt.mpr ht.1)

theorem TsOk.carveRemote (h : TsOk s) {j want floor : Nat} :
    TsOk (s.carveRemote f fetch j want floor) := by
  unfold TsCluster.carveRemote TsState.carveAboveFloor
  dsimp only
  split
  · next st r hc =>
    split at hc
    · exact h.lend hc
    · cases hc
  · next st hc =>
    have hset : TsOk (s.setTs j st) := by
      split at hc
      · exact h.setTs fun t ht => carve_none hc t ht
      · cases hc
        exact h.setTs fun t ht => ht
    exact (hset.setFetch rfl).spawn rfl

theorem TsOk.finish (h : TsOk s) (hf : s.fetches f = some fetch)
    (hstage : fetch.stage = .fetched lo hi) : TsOk (s.finish f fetch lo hi) := by
  have hhold : s.holding (.fetch f) = ⟨lo, hi⟩ := by
    rw [holding, hf]
    simp only [map_some, getD_some, Fetch.range, hstage]
  unfold TsCluster.finish
  split
  · exact h.setFetch rfl
  · next st hinst =>
    have hok : TsOk ((s.setFetch f none).setTs fetch.node { st with degraded := false }) :=
      h.install ((installBlock_block hinst).trans hhold.symm)
    dsimp only
    split
    · split
      · next st' r hc =>
        have hdrop := hok.setTs fun t ht => ((carve_spec hc) t).2 ht
        split
        · split
          · exact hok.lend hc
          · exact hdrop
        · exact hdrop
      · next st' hc => exact hok.setTs fun t ht => carve_none hc t ht
    · exact hok

theorem TsOk.step {a : TsAction} (h : TsOk s) (hg : TsGuard s a) (hstep : tsStep s a = some s') :
    TsOk s' := by
  cases a with simp only [tsStep] at hstep
  | lead i b =>
    cases hstep
    exact ⟨h.excl, h.below⟩
  | apply i =>
    split at hstep
    · cases hstep
      exact ⟨h.excl, h.below⟩
    · cases hstep
  | restart i =>
    cases hstep
    have hset : TsOk (s.setTs i {}) := h.setTs fun t ht => absurd ht (not_mem_empty t)
    refine hset.shrink (fun a t ht => ?_) fun c hc => hc
    cases a with
    | node j | grant k => exact ht
    | fetch f =>
      change (((s.fetches f).map Fetch.range).getD ⟨0, 0⟩).Mem t
      change ((((s.fetches f).filter fun fetch => fetch.node != i).map Fetch.range).getD
        ⟨0, 0⟩).Mem t at ht
      cases hf : s.fetches f with
      | none =>
        rw [hf] at ht
        exact ht
      | some fetch =>
        rw [hf, filter_some] at ht
        split at ht
        · exact ht
        · exact absurd ht (not_mem_empty t)
  | sync i | observe i hi =>
    cases hstep
    exact h.setTs fun t ht => ht
  | alloc i n =>
    cases hstep
    exact h.alloc
  | allocAbove i n floor =>
    cases hstep
    exact h.allocAbove
  | refill i =>
    split at hstep
    · cases hstep
      have hset : TsOk (s.setTs i ((s.ts i).noteCursor (s.cursor i))) := h.setTs fun t ht => ht
      exact hset.spawn rfl
    · cases hstep
      exact h.setTs fun t ht => ht
  | reserve i floor want =>
    split at hstep
    · cases hstep
      exact h.setTs fun t ht => ht
    · cases hstep
      have hset : TsOk (s.setTs i ((s.ts i).noteCursor (s.cursor i)).discardTail) :=
        h.setTs fun t ht => absurd ht.2 (Nat.not_lt.mpr ht.1)
      exact hset.spawn rfl
  | snapshot f =>
    obtain ⟨fetch, hf, hstep⟩ := bind_eq_some_iff.mp hstep
    split at hstep
    · cases hstep
      exact h.setFetch rfl
    · cases hstep
  | lock f =>
    obtain ⟨fetch, hf, hstep⟩ := bind_eq_some_iff.mp hstep
    split at hstep
    · next leader want floor _ =>
      split at hstep
      · cases hstep
        cases leader with
        | true | false => exact h.setFetch rfl
      · cases hstep
    · cases hstep
  | propose f =>
    obtain ⟨fetch, hf, hstep⟩ := bind_eq_some_iff.mp hstep
    split at hstep
    · split at hstep
      · cases hstep
        exact h.setFetch rfl
      · cases hstep
        exact h.setFetch rfl
    · cases hstep
  | commit f =>
    obtain ⟨fetch, hf, hstep⟩ := bind_eq_some_iff.mp hstep
    split at hstep
    · next cursor want floor hstage =>
      cases hstep
      have hbase : fetch.stage.base = some (max cursor floor) := by rw [hstage]; rfl
      exact h.commit fun c hc => (hg fetch hf _ hbase c hc).trans (le_max_left _ _)
    · cases hstep
  | commitOrphan k =>
    obtain ⟨hi, -, hstep⟩ := bind_eq_some_iff.mp hstep
    cases hstep
    exact h.shrink (fun a t ht => ht) fun c hc => mem_append_left _ hc
  | ask f j =>
    obtain ⟨fetch, hf, hstep⟩ := bind_eq_some_iff.mp hstep
    split at hstep
    · split at hstep
      · cases hstep
        exact h.carveRemote
      · cases hstep
        exact h.setFetch rfl
    · cases hstep
  | finish f =>
    obtain ⟨fetch, hf, hstep⟩ := bind_eq_some_iff.mp hstep
    split at hstep
    · next lo hi hstage =>
      cases hstep
      exact h.finish hf hstage
    · cases hstep
  | fail f =>
    obtain ⟨fetch, hf, hstep⟩ := bind_eq_some_iff.mp hstep
    cases hstep
    have hset : TsOk (s.setFetch f none) := h.setFetch rfl
    exact ⟨hset.excl, hset.below⟩

/-! ## Runs -/

def TsRange.Disjoint (r r' : TsRange) : Prop := ∀ t, ¬ (r.Mem t ∧ r'.Mem t)

theorem TsOk.granted_disjoint (h : TsOk s) : s.granted.Pairwise TsRange.Disjoint := by
  refine pairwise_iff_getElem.mpr fun k l hk hl hkl t ht => ?_
  have hown : ∀ (m : Nat) (hm : m < s.granted.length), s.granted[m].Mem t → s.own (.grant m) t := by
    intro m hm hmem
    rw [own, holding, getElem?_eq_getElem hm]
    exact hmem
  cases h.excl _ _ t (hown k hk ht.1) (hown l hl ht.2)
  exact absurd hkl (Nat.lt_irrefl k)

theorem TsOk.initial : TsOk {} where
  excl a b t ha := by
    cases a with
    | node i | fetch f | grant k => exact absurd ha (not_mem_empty t)
  below a t ha := by
    cases a with
    | node i | fetch f | grant k => exact absurd ha (not_mem_empty t)

/-- When every entry commits against the current cursor, no two allocations of the cluster share
a timestamp. -/
theorem grants_disjoint (as : List TsAction) (s : TsCluster)
    (hg : Guarded tsStep TsGuard {} as) (h : exec tsStep {} as = some s) :
    s.granted.Pairwise TsRange.Disjoint :=
  (exec_inv (fun _ _ _ hok hg hs => hok.step hg hs) TsOk.initial hg h).granted_disjoint

/-- A node fills its empty block through the log. -/
def refillOf (i f : Nat) : List TsAction :=
  [.refill i, .snapshot f, .lock f, .propose f, .commit f, .finish f]

/-- Node 0 leads and allocates; node 1 leases a block from it and allocates; node 1 takes over,
has applied the entries of its predecessor and fetches a block of its own. -/
def handover : List TsAction :=
  ([.lead 0 true] : List TsAction) ++ refillOf 0 0 ++ ([.alloc 0 3, .refill 1, .snapshot 1,
    .lock 1, .ask 1 0, .snapshot 2, .lock 2, .propose 2, .commit 2, .finish 2, .finish 1,
    .alloc 1 2, .lead 0 false, .lead 1 true, .apply 1, .apply 1, .reserve 1 10 5000, .snapshot 3,
    .lock 3, .propose 3, .commit 3, .finish 3, .alloc 1 2] : List TsAction)

theorem grants_disjoint_handover : ∃ s, exec tsStep {} handover = some s ∧
    s.granted = [⟨1, 4⟩, ⟨4097, 4099⟩, ⟨8193, 8195⟩] ∧ s.granted.Pairwise TsRange.Disjoint :=
  exists_run (by decide +kernel) fun s hs hh =>
    ⟨hh, grants_disjoint handover s (by decide +kernel) hs⟩

/-- The new leader has not applied its predecessor's entry: it serves the same block again. -/
theorem new_leader_reuses_block : ∃ s, exec tsStep {}
      ([.lead 0 true] ++ refillOf 0 0 ++ [.alloc 0 1, .lead 0 false, .lead 1 true] ++
        refillOf 1 1 ++ [.alloc 1 1]) = some s ∧
    s.granted = [⟨1, 2⟩, ⟨1, 2⟩] ∧ ¬ s.granted.Pairwise TsRange.Disjoint := by
  refine exists_run (by decide +kernel) fun s _ hh => ⟨hh, fun hd => ?_⟩
  rw [hh, pairwise_pair] at hd
  exact hd 1 (by simp [TsRange.Mem])

end Rdb.Tx
