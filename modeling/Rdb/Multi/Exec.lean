import Rdb.Multi.Watch

/-!
# WATCH, MULTI and EXEC

Connections interleave at every latch and every batch. EXEC takes the latches of the keys
its queued commands name, compares the fingerprints of the watched keys, and replays. The
latches of watched keys that no queued command names are not taken, so such a key can
change between the comparison and the end of the replay.

Each watch carries a history bit that says whether its key has been changed by anyone else
since. `exec_undisturbed`: under conditions on what is watched and who writes how, no EXEC
that replies with results has a watch with that bit set.
-/

namespace Rdb.Multi

open Lib Ds List Function
open Function (update)
open SortedMap (get_put empty)

/-! ## Connections -/

/-- A watched key and its hash; `touched` is the history bit. -/
structure WatchEntry where
  pre : Bytes
  key : UserKey
  hash : Fingerprint
  touched : Bool := false

/-- An open transaction. Of a queued command only the keys matter here. -/
structure MultiState where
  slot : Nat := 0
  slotBound : Bool := false
  queued : List (List UserKey) := []
  dirty : Bool := false

/-- Where an EXEC is: it takes its latches one by one, then compares, then replays. -/
inductive ExecPhase where
  | idle
  | latching (todo held : List Bytes)
  | replaying (held : List Bytes)
  deriving DecidableEq

structure ConnState where
  multi : Option MultiState := none
  watches : List WatchEntry := []
  phase : ExecPhase := .idle

namespace MultiState

def queuedKeys (m : MultiState) : List UserKey := m.queued.flatten

/-- The first key binds the slot; a key of another slot makes the transaction dirty. -/
def bind (m : MultiState) : List UserKey → MultiState × Bool
  | [] => (m, true)
  | key :: rest =>
    let m := if m.slotBound then m else { m with slot := key.slot, slotBound := true }
    if key.slot ≠ m.slot then ({ m with dirty := true }, false) else bind m rest

def queue (m : MultiState) (keys : List UserKey) : MultiState :=
  match m.bind keys with
  | (m, true) => { m with queued := m.queued ++ [keys] }
  | (m, false) => m

/-- The latches of an EXEC, in the order of their names, each once. -/
def latchKeys (m : MultiState) : List Bytes :=
  ((m.queuedKeys.map fun k => stringKey (slotPrefix m.slot) k.bytes).dedup).insertionSort (· ≤ ·)

end MultiState

namespace ExecPhase

def held : ExecPhase → List Bytes
  | .idle => []
  | .latching _ held => held
  | .replaying held => held

def isReplaying : ExecPhase → Bool
  | .replaying _ => true
  | _ => false

end ExecPhase

/-! ## The world -/

/-- `replied` is the history of the EXECs that answered with results, with what they watched. -/
structure World (n : Nat) where
  store : Store
  latch : SortedMap Bytes (Fin n)
  conn : Fin n → ConnState
  replied : List (List WatchEntry)

inductive Step (n : Nat) where
  /-- One key of a WATCH; `pre` is the prefix of the call's first key. -/
  | watch (c : Fin n) (pre : Bytes) (key : UserKey)
  | unwatch (c : Fin n)
  | multi (c : Fin n)
  | queue (c : Fin n) (keys : List UserKey)
  /-- Any other command that is refused while it is queued. -/
  | reject (c : Fin n)
  | discard (c : Fin n)
  | exec (c : Fin n)
  | latch (c : Fin n)
  | check (c : Fin n)
  /-- A batch of a replayed command. -/
  | replay (c : Fin n) (batch : List BatchEntry)
  | finish (c : Fin n)
  /-- A batch of a command outside a transaction, under the latches of `keys`. -/
  | command (c : Fin n) (keys : List UserKey) (batch : List BatchEntry)
  /-- A batch that no latch covers: a purge, a sweep, FLUSHDB. -/
  | stray (batch : List BatchEntry)

namespace World

variable {n : Nat}

def set (w : World n) (c : Fin n) (s : ConnState) : World n :=
  { w with conn := update w.conn c s }

/-- A batch is written; the watches of everyone but `actor` see it. -/
def write (w : World n) (actor : Option (Fin n)) (batch : List BatchEntry) : World n :=
  let store := batchWrite w.store batch
  { w with
    store
    conn := fun c =>
      if actor = some c then w.conn c
      else
        { w.conn c with
          watches := (w.conn c).watches.map fun e =>
            { e with touched := e.touched || changed e.key w.store store } } }

/-- An EXEC ends: latches, watches and queue go. -/
def release (w : World n) (c : Fin n) : World n :=
  { w.set c {} with latch := (w.conn c).phase.held.foldl (fun l k => l.delete k) w.latch }

def conflicted (w : World n) (c : Fin n) : Bool :=
  (w.conn c).watches.any fun e => valueHash w.store e.pre e.key.bytes ≠ e.hash

end World

/-- One step; `none` where it cannot be taken yet. -/
def step {n : Nat} (w : World n) : Step n → Option (World n)
  | .watch c pre key =>
    let s := w.conn c
    if s.phase ≠ .idle then none
    else match s.multi with
      | some m => some (w.set c { s with multi := some { m with dirty := true } })
      | none =>
        if (w.latch.get (stringKey pre key.bytes)).isSome then none
        else some (w.set c { s with
          watches := s.watches ++ [{ pre, key, hash := valueHash w.store pre key.bytes }] })
  | .unwatch c =>
    if (w.conn c).phase ≠ .idle then none else some (w.set c { w.conn c with watches := [] })
  | .multi c =>
    let s := w.conn c
    if s.phase ≠ .idle then none
    else match s.multi with
      | some m => some (w.set c { s with multi := some { m with dirty := true } })
      | none => some (w.set c { s with multi := some {} })
  | .queue c keys =>
    let s := w.conn c
    if s.phase ≠ .idle then none
    else s.multi.map fun m => w.set c { s with multi := some (m.queue keys) }
  | .reject c =>
    let s := w.conn c
    if s.phase ≠ .idle then none
    else s.multi.map fun m => w.set c { s with multi := some { m with dirty := true } }
  | .discard c =>
    let s := w.conn c
    if s.phase ≠ .idle then none
    else s.multi.map fun _ => w.set c { s with multi := none, watches := [] }
  | .exec c =>
    let s := w.conn c
    if s.phase ≠ .idle then none
    else s.multi.map fun m =>
      if m.dirty then w.set c { s with multi := none, watches := [] }
      else if m.queued = [] then
        -- the watches are not compared
        { w.set c { s with multi := none, watches := [] } with replied := w.replied ++ [s.watches] }
      else w.set c { s with multi := none, phase := .latching m.latchKeys [] }
  | .latch c =>
    match (w.conn c).phase with
    | .latching (k :: todo) held =>
      if (w.latch.get k).isSome then none
      else some { w.set c { w.conn c with phase := .latching todo (k :: held) } with
        latch := w.latch.put k c }
    | _ => none
  | .check c =>
    match (w.conn c).phase with
    | .latching [] held =>
      if w.conflicted c then some (w.release c)
      else some (w.set c { w.conn c with phase := .replaying held })
    | _ => none
  | .replay c batch =>
    if (w.conn c).phase.isReplaying then some (w.write (some c) batch) else none
  | .finish c =>
    if (w.conn c).phase.isReplaying then
      some { w.release c with replied := w.replied ++ [(w.conn c).watches] }
    else none
  | .command c keys batch =>
    if (w.conn c).phase ≠ .idle ∨ (w.conn c).multi.isSome ∨
        keys.any fun k => (w.latch.get k.raw).isSome then none
    else if batch = [] then some w
    -- a write outside a transaction drops the watches
    else some ((w.set c { w.conn c with watches := [] }).write (some c) batch)
  | .stray batch => some (w.write none batch)

/-! ## Conditions -/

section

variable {n : Nat}

/-- A batch of `actor` under the latches of the keys that `covers`: where it changes a key that someone
else watches, it leaves the key's hashed records other than WATCH found them, and if that transaction is
being replayed the batch is covered. -/
def Heeds (w : World n) (actor : Option (Fin n)) (covers : UserKey → Prop) (batch : List BatchEntry) :
    Prop :=
  ∀ c, actor ≠ some c → ∀ e ∈ (w.conn c).watches,
    changed e.key w.store (batchWrite w.store batch) →
      valueHash (batchWrite w.store batch) e.key.pre e.key.bytes ≠ e.hash ∧
        ((w.conn c).phase.isReplaying → covers e.key)

instance decidableHeeds (w : World n) (actor : Option (Fin n)) (covers : UserKey → Prop)
    [DecidablePred covers] (batch : List BatchEntry) : Decidable (Heeds w actor covers batch) := by
  unfold Heeds
  infer_instance

def Watchful (w : World n) : Step n → Prop
  | .watch _ pre key => pre = key.pre
  | .exec c => ∀ m ∈ (w.conn c).multi, m.dirty = false →
      ∀ e ∈ (w.conn c).watches, e.key ∈ m.queuedKeys
  | .replay c batch => Heeds w (some c) (fun k => k.raw ∈ (w.conn c).phase.held) batch
  | .command c keys batch => Heeds w (some c) (· ∈ keys) batch
  | .stray batch => Heeds w none (fun _ => False) batch
  | _ => True

instance decidableWatchful (w : World n) (a : Step n) : Decidable (Watchful w a) := by
  cases a <;> dsimp only [Watchful] <;> infer_instance

/-! ## Invariant -/

/-- No key watched by an EXEC that replied with results was changed by anyone else. -/
def Undisturbed (w : World n) : Prop := ∀ entries ∈ w.replied, ∀ e ∈ entries, e.touched = false

def SlotsBound (m : MultiState) : Prop := ∀ k ∈ m.queuedKeys, m.slotBound ∧ k.slot = m.slot

/-- What holds of one connection: the watches are of the right slot, a watched key that was changed
shows it until the comparison, and from the comparison on none was changed and all are latched. -/
structure Sane (store : Store) (latch : SortedMap Bytes (Fin n)) (c : Fin n) (s : ConnState) : Prop where
  prefixes : ∀ e ∈ s.watches, e.pre = e.key.pre
  told : ∀ e ∈ s.watches, e.touched = false ∨
    s.phase.isReplaying = false ∧ valueHash store e.key.pre e.key.bytes ≠ e.hash
  slots : ∀ m ∈ s.multi, SlotsBound m
  latched : match s.phase with
    | .idle => True
    | .latching todo held => ∀ e ∈ s.watches, e.key.raw ∈ todo ∨ e.key.raw ∈ held
    | .replaying held => ∀ e ∈ s.watches, e.key.raw ∈ held
  owned : ∀ k ∈ s.phase.held, latch.get k = some c

structure Inv (w : World n) : Prop where
  undisturbed : Undisturbed w
  sane : ∀ c, Sane w.store w.latch c (w.conn c)

/-! ### Queues and latches -/

theorem MultiState.bind_spec (m : MultiState) (keys : List UserKey) :
    (m.bind keys).1.queued = m.queued ∧
    (m.slotBound → (m.bind keys).1.slotBound ∧ (m.bind keys).1.slot = m.slot) ∧
    ((m.bind keys).2 →
      ∀ k ∈ keys, (m.bind keys).1.slotBound ∧ k.slot = (m.bind keys).1.slot) := by
  induction keys generalizing m with
  | nil => exact ⟨rfl, fun h => ⟨h, rfl⟩, nofun⟩
  | cons key rest ih =>
    unfold MultiState.bind
    generalize hm' : (if m.slotBound then m else { m with slot := key.slot, slotBound := true }) = m'
    have hqueued : m'.queued = m.queued := by
      subst hm'
      split <;> rfl
    have hbound : m'.slotBound := by
      subst hm'
      split
      · assumption
      · rfl
    have hslot : m.slotBound → m'.slot = m.slot := by
      intro h
      rw [← hm', if_pos h]
    dsimp only
    split
    · exact ⟨hqueued, fun h => ⟨hbound, hslot h⟩, nofun⟩
    · next heq =>
      rw [not_not] at heq
      obtain ⟨hq, hkeep, hall⟩ := ih m'
      refine ⟨hq.trans hqueued, fun h => ⟨(hkeep hbound).1, (hkeep hbound).2.trans (hslot h)⟩, ?_⟩
      intro hok k hk
      rcases mem_cons.mp hk with rfl | hk
      · exact ⟨(hkeep hbound).1, heq.trans (hkeep hbound).2.symm⟩
      · exact hall hok k hk

variable {m : MultiState}

theorem SlotsBound.queue (h : SlotsBound m) (keys : List UserKey) : SlotsBound (m.queue keys) := by
  obtain ⟨hqueued, hkeep, hall⟩ := m.bind_spec keys
  have hold : ∀ k ∈ m.queuedKeys, (m.bind keys).1.slotBound ∧ k.slot = (m.bind keys).1.slot := by
    intro k hk
    obtain ⟨hb, hs⟩ := h k hk
    exact ⟨(hkeep hb).1, hs.trans (hkeep hb).2.symm⟩
  unfold MultiState.queue
  split
  · next m' heq =>
    rw [heq] at hqueued hall hold
    intro k hk
    have hk : k ∈ (m'.queued ++ [keys]).flatten := hk
    rw [hqueued, flatten_append, flatten_singleton, mem_append] at hk
    rcases hk with hk | hk
    · exact hold k hk
    · exact hall rfl k hk
  · next m' heq =>
    rw [heq] at hqueued hold
    intro k hk
    rw [MultiState.queuedKeys, hqueued] at hk
    exact hold k hk

theorem SlotsBound.raw_mem_latchKeys (h : SlotsBound m) {k : UserKey}
    (hk : k ∈ m.queuedKeys) : k.raw ∈ m.latchKeys := by
  unfold MultiState.latchKeys
  rw [mem_insertionSort, mem_dedup, mem_map]
  refine ⟨k, hk, ?_⟩
  rw [← (h k hk).2]
  rfl

theorem get_foldl_delete (ks : List Bytes) (l : SortedMap Bytes (Fin n)) (k : Bytes) :
    (ks.foldl (fun l k => l.delete k) l).get k = if k ∈ ks then none else l.get k := by
  induction ks generalizing l with
  | nil => rw [foldl_nil, if_neg not_mem_nil]
  | cons k' ks ih =>
    rw [foldl_cons, ih, SortedMap.get_delete]
    by_cases hk : k ∈ ks
    · rw [if_pos hk, if_pos (mem_cons_of_mem _ hk)]
    · by_cases he : k' = k
      · rw [if_neg hk, if_pos he, if_pos (by rw [he]; exact mem_cons_self)]
      · rw [if_neg hk, if_neg he, if_neg]
        intro hmem
        rcases mem_cons.mp hmem with rfl | hmem
        · exact he rfl
        · exact hk hmem

/-! ### Steps of one connection -/

variable {w : World n} {c : Fin n} {s : ConnState} {store : Store} {l : SortedMap Bytes (Fin n)}

theorem Inv.set (h : Inv w) (hs : Sane w.store w.latch c s) : Inv (w.set c s) where
  undisturbed := h.undisturbed
  sane c' := by
    show Sane w.store w.latch c' (update w.conn c s c')
    by_cases hc : c' = c
    · subst hc
      rw [update_self]
      exact hs
    · rw [update_of_ne hc]
      exact h.sane c'

variable (h : Sane store l c s)
include h

theorem Sane.clear : Sane store l c { s with watches := [] } where
  prefixes := nofun
  told := nofun
  slots := h.slots
  latched := by
    split
    · trivial
    · nofun
    · nofun
  owned := h.owned

theorem Sane.multi {m : Option MultiState} (hm : ∀ m' ∈ m, SlotsBound m') :
    Sane store l c { s with multi := m } :=
  { h with slots := hm }

theorem Sane.watch (hidle : s.phase = .idle) (key : UserKey) :
    Sane store l c { s with
      watches := s.watches ++ [{ pre := key.pre, key, hash := valueHash store key.pre key.bytes }] } where
  prefixes e he := by
    rcases mem_append.mp he with he | he
    · exact h.prefixes e he
    · rw [mem_singleton.mp he]
  told e he := by
    rcases mem_append.mp he with he | he
    · exact h.told e he
    · rw [mem_singleton.mp he]
      exact .inl rfl
  slots := h.slots
  latched := by
    rw [hidle]
    trivial
  owned := h.owned

theorem Sane.exec (hm : s.multi = some m) (hidle : s.phase = .idle)
    (hkeys : ∀ e ∈ s.watches, e.key ∈ m.queuedKeys) :
    Sane store l c { s with multi := none, phase := .latching m.latchKeys [] } where
  prefixes := h.prefixes
  told e he := by
    have := h.told e he
    rw [hidle] at this
    exact this
  slots := nofun
  latched e he := .inl ((h.slots m hm).raw_mem_latchKeys (hkeys e he))
  owned := nofun

omit h

variable {k : Bytes}

theorem Sane.put (h : Sane store l c s) (hfree : l.get k = none) (c' : Fin n) :
    Sane store (l.put k c') c s :=
  { h with
    owned := fun k' hk' => by
      have hget := h.owned k' hk'
      rw [get_put, if_neg, hget]
      rintro rfl
      rw [hfree] at hget
      cases hget }

variable {held todo : List Bytes}

theorem Sane.latch (h : Sane store l c s) (hphase : s.phase = .latching (k :: todo) held)
    (hfree : l.get k = none) :
    Sane store (l.put k c) c { s with phase := .latching todo (k :: held) } where
  prefixes := h.prefixes
  told e he := by
    have := h.told e he
    rw [hphase] at this
    exact this
  slots := h.slots
  latched e he := by
    have hl := h.latched
    rw [hphase] at hl
    rcases hl e he with hk | hk
    · rcases mem_cons.mp hk with hk | hk
      · exact .inr (hk ▸ mem_cons_self)
      · exact .inl hk
    · exact .inr (mem_cons_of_mem _ hk)
  owned k' hk' := by
    rcases mem_cons.mp hk' with rfl | hk'
    · rw [get_put, if_pos rfl]
    · exact (h.put hfree c).owned k' (by rw [hphase]; exact hk')

variable {e : WatchEntry}

theorem Sane.untouched (h : Sane store l c s) (he : e ∈ s.watches)
    (heq : valueHash store e.pre e.key.bytes = e.hash) : e.touched = false := by
  rcases h.told e he with ht | ⟨-, hne⟩
  · exact ht
  · rw [h.prefixes e he] at heq
    exact absurd heq hne

theorem Sane.check (h : Sane store l c s) (hphase : s.phase = .latching [] held)
    (hclean : ∀ e ∈ s.watches, valueHash store e.pre e.key.bytes = e.hash) :
    Sane store l c { s with phase := .replaying held } where
  prefixes := h.prefixes
  told e he := .inl (h.untouched he (hclean e he))
  slots := h.slots
  latched e he := by
    have hl := h.latched
    rw [hphase] at hl
    exact (hl e he).resolve_left not_mem_nil
  owned k hk := h.owned k (by rw [hphase]; exact hk)

theorem Inv.release (h : Inv w) (c : Fin n) : Inv (w.release c) where
  undisturbed := h.undisturbed
  sane c' := by
    show Sane w.store _ c' (update w.conn c {} c')
    by_cases hc : c' = c
    · subst hc
      rw [update_self]
      exact ⟨nofun, nofun, nofun, trivial, nofun⟩
    · rw [update_of_ne hc]
      have hs := h.sane c'
      refine { hs with owned := fun k hk => ?_ }
      refine (get_foldl_delete _ _ _).trans ?_
      rw [if_neg, hs.owned k hk]
      intro hmem
      have := (h.sane c).owned k hmem
      rw [hs.owned k hk] at this
      exact hc (Option.some.inj this)

theorem Sane.owns_watched (h : Sane store l c s) (hr : s.phase.isReplaying)
    (he : e ∈ s.watches) : l.get e.key.raw = some c := by
  have hl := h.latched
  have ho := h.owned
  cases hp : s.phase with
  | idle | latching todo held => rw [hp] at hr; cases hr
  | replaying held =>
    rw [hp] at hl ho
    exact ho _ (hl e he)

/-! ### Writes -/

variable {batch : List BatchEntry}

theorem Inv.write (h : Inv w) {actor : Option (Fin n)} (covers : UserKey → Prop)
    (hheeds : Heeds w actor covers batch)
    (hown : ∀ c, actor = some c → (w.conn c).watches = [] ∨ (w.conn c).phase.isReplaying)
    (hcovers : ∀ c key, actor ≠ some c → covers key → w.latch.get key.raw ≠ some c) :
    Inv (w.write actor batch) where
  undisturbed := h.undisturbed
  sane c := by
    have hs := h.sane c
    show Sane (batchWrite w.store batch) w.latch c (if actor = some c then _ else _)
    by_cases hc : actor = some c
    · rw [if_pos hc]
      refine { hs with told := fun e he => ?_ }
      rcases hown c hc with hnil | hr
      · rw [hnil] at he
        cases he
      · exact .inl ((hs.told e he).resolve_right fun hf => by rw [hr] at hf; cases hf.1)
    · rw [if_neg hc]
      refine ⟨fun e he => ?_, fun e he => ?_, hs.slots, ?_, hs.owned⟩
      · obtain ⟨e, hmem, rfl⟩ := mem_map.mp he
        exact hs.prefixes e hmem
      · obtain ⟨e, hmem, rfl⟩ := mem_map.mp he
        cases hch : changed e.key w.store (batchWrite w.store batch) with
        | true =>
          obtain ⟨hne, hcov⟩ := hheeds c hc e hmem hch
          refine .inr ⟨?_, hne⟩
          rw [Bool.eq_false_iff]
          exact fun hr => hcovers c e.key hc (hcov hr) (hs.owns_watched hr hmem)
        | false =>
          rw [Bool.or_false, ← valueHash_congr hch]
          exact hs.told e hmem
      · have hl := hs.latched
        dsimp only
        split at hl
        · trivial
        · exact forall_mem_map.mpr hl
        · exact forall_mem_map.mpr hl

theorem Inv.command (h : Inv w) {keys : List UserKey} (hheeds : Heeds w (some c) (· ∈ keys) batch)
    (hfree : ∀ key ∈ keys, w.latch.get key.raw = none) :
    Inv ((w.set c { w.conn c with watches := [] }).write (some c) batch) := by
  refine (h.set (h.sane c).clear).write (· ∈ keys) ?_ ?_ ?_
  · intro c' hc' e he hch
    have hne : c' ≠ c := by
      rintro rfl
      exact hc' rfl
    have hconn : (w.set c { w.conn c with watches := [] }).conn c' = w.conn c' :=
      update_of_ne hne _ _
    rw [hconn] at he ⊢
    exact hheeds c' hc' e he hch
  · intro c' hc'
    cases hc'
    refine .inl ?_
    show (update w.conn c _ c).watches = []
    rw [update_self]
  · intro c' key _ hkey hget
    have hget : w.latch.get key.raw = some c' := hget
    rw [hfree key hkey] at hget
    cases hget

/-! ### Steps of an EXEC -/

variable {w' : World n}

theorem Inv.reply (h : Inv w) (h' : Inv w') {entries : List WatchEntry}
    (hclean : ∀ e ∈ entries, e.touched = false) :
    Inv { w' with replied := w.replied ++ [entries] } where
  undisturbed es hes := by
    rcases mem_append.mp hes with hes | hes
    · exact h.undisturbed es hes
    · rw [mem_singleton.mp hes]
      exact hclean
  sane := h'.sane

theorem Inv.latch (h : Inv w) (hphase : (w.conn c).phase = .latching (k :: todo) held)
    (hfree : w.latch.get k = none) :
    Inv { w.set c { w.conn c with phase := .latching todo (k :: held) } with
      latch := w.latch.put k c } where
  undisturbed := h.undisturbed
  sane c' := by
    show Sane w.store (w.latch.put k c) c' (update w.conn c _ c')
    by_cases hc : c' = c
    · subst hc
      rw [update_self]
      exact (h.sane c').latch hphase hfree
    · rw [update_of_ne hc]
      exact (h.sane c').put hfree c

theorem Inv.close (h : Inv w) (c : Fin n) :
    Inv (w.set c { w.conn c with multi := none, watches := [] }) :=
  h.set ((h.sane c).clear.multi (m := none) nofun)

theorem Inv.requeue (h : Inv w) (hm : SlotsBound m) :
    Inv (w.set c { w.conn c with multi := some m }) := by
  refine h.set ((h.sane c).multi fun m' hm' => ?_)
  cases hm'
  exact hm

/-! ## Runs -/

theorem Inv.step {a : Step n} (h : Inv w) (hok : Watchful w a)
    (hstep : step w a = some w') : Inv w' := by
  cases a with dsimp only [Multi.step] at hstep
  | watch c pre key =>
    split at hstep
    · cases hstep
    · next hidle =>
      split at hstep
      · next m hm =>
        cases hstep
        exact h.requeue ((h.sane c).slots m hm)
      · split at hstep
        · cases hstep
        · cases hstep
          cases hok
          exact h.set ((h.sane c).watch (not_not.mp hidle) key)
  | unwatch c =>
    split at hstep
    · cases hstep
    · cases hstep
      exact h.set (h.sane c).clear
  | multi c =>
    split at hstep
    · cases hstep
    · split at hstep
      · next m hm =>
        cases hstep
        exact h.requeue ((h.sane c).slots m hm)
      · cases hstep
        refine h.requeue fun k hk => ?_
        cases hk
  | queue c keys =>
    split at hstep
    · cases hstep
    · obtain ⟨m, hm, rfl⟩ := Option.map_eq_some_iff.mp hstep
      exact h.requeue (((h.sane c).slots m hm).queue keys)
  | reject c =>
    split at hstep
    · cases hstep
    · obtain ⟨m, hm, rfl⟩ := Option.map_eq_some_iff.mp hstep
      exact h.requeue ((h.sane c).slots m hm)
  | discard c =>
    split at hstep
    · cases hstep
    · obtain ⟨m, hm, rfl⟩ := Option.map_eq_some_iff.mp hstep
      exact h.close c
  | exec c =>
    split at hstep
    · cases hstep
    · next hidle =>
      obtain ⟨m, hm, hstep⟩ := Option.map_eq_some_iff.mp hstep
      split at hstep
      · subst hstep
        exact h.close c
      · next hclean =>
        have hkeys := hok m hm (by simpa using hclean)
        split at hstep
        · next hempty =>
          subst hstep
          refine h.reply (h.close c) fun e he => ?_
          -- no queued command names a key, so nothing is watched
          have hmem := hkeys e he
          rw [MultiState.queuedKeys, hempty] at hmem
          cases hmem
        · subst hstep
          exact h.set ((h.sane c).exec hm (not_not.mp hidle) hkeys)
  | latch c =>
    split at hstep
    · next k todo held hphase =>
      split at hstep
      · cases hstep
      · next hfree =>
        cases hstep
        exact h.latch hphase (by simpa using hfree)
    · cases hstep
  | check c =>
    split at hstep
    · next held hphase =>
      split at hstep
      · cases hstep
        exact h.release c
      · next hclean =>
        cases hstep
        refine h.set ((h.sane c).check hphase fun e he => ?_)
        by_contra hne
        exact hclean (any_eq_true.mpr ⟨e, he, by simpa using hne⟩)
    · cases hstep
  | replay c batch =>
    split at hstep
    · next hr =>
      cases hstep
      refine h.write (fun k => k.raw ∈ (w.conn c).phase.held) hok (fun c' hc' => ?_)
        fun c' key hc' hcov hget => ?_
      · cases hc'
        exact .inr hr
      · rw [(h.sane c).owned _ hcov] at hget
        exact hc' hget
    · cases hstep
  | finish c =>
    split at hstep
    · next hr =>
      cases hstep
      refine h.reply (h.release c) fun e he => ?_
      exact ((h.sane c).told e he).resolve_right fun hf => by rw [hr] at hf; cases hf.1
    · cases hstep
  | command c keys batch =>
    split at hstep
    · cases hstep
    · next hbusy =>
      split at hstep
      · cases hstep
        exact h
      · cases hstep
        refine h.command hok fun key hkey => ?_
        rw [← Option.not_isSome_iff_eq_none]
        exact fun hsome => hbusy (.inr (.inr (any_eq_true.mpr ⟨key, hkey, hsome⟩)))
  | stray batch =>
    cases hstep
    exact h.write (fun _ => False) hok nofun fun _ _ _ hcov => hcov.elim

def World.init (n : Nat) (store : Store) : World n where
  store
  latch := empty
  conn := fun _ => {}
  replied := []

theorem inv_init (store : Store) : Inv (World.init n store) where
  undisturbed := nofun
  sane _ := ⟨nofun, nofun, nofun, trivial, nofun⟩

end

def keyA : UserKey := .sample

def keyB : UserKey := ⟨[0x62], by decide⟩

/-- Two transactions that name what they watch: the first goes through, the second one's key is changed
under it. -/
def namedSteps : List (Step 2) :=
  [.watch 0 keyA.pre keyA, .multi 0, .queue 0 [keyA, keyA], .command 1 [keyB] [.put keyB.raw [1]],
   .exec 0, .latch 0, .check 0, .command 1 [keyB] [.put keyB.raw [2]], .replay 0 [.put keyA.raw [1]],
   .finish 0, .watch 1 keyA.pre keyA, .command 0 [keyA] [.put keyA.raw [2]], .multi 1,
   .queue 1 [keyA], .exec 1, .latch 1, .check 1]

/-- One transaction watches `a` and writes `b`, the other one watches `b` and writes `a`. -/
def skewSteps : List (Step 2) :=
  [.watch 0 keyA.pre keyA, .multi 0, .queue 0 [keyB], .watch 1 keyB.pre keyB, .multi 1,
   .queue 1 [keyA], .exec 0, .latch 0, .exec 1, .latch 1, .check 0, .check 1,
   .replay 0 [.put keyB.raw [1]], .replay 1 [.put keyA.raw [1]], .finish 0, .finish 1]

end Rdb.Multi
