import Rdb.Lite.Model
import Mathlib.Logic.Function.Basic

/-!
# Streams as records

The commands of a stream are stated over its decoded records: the meta record
with its deadline, the entries by id, the staged rows of delayed messages, and for
each group the group record, the pending rows and the consumers. A batch is a list
of writes and is applied as a whole; a command reads the records and not its own
open batch. What a batch does to one record or one map is read off the writes that
name it (`metas_write`, `entries_write`, `pend_write`, ...).
-/

namespace Rdb.Lite

open Lib List

structure MetaRecord where
  payload : MetaPayload
  expire : Nat := 0
  deriving DecidableEq

/-- The key of a staged row. A slot's rows lie in the order of their due times, then by the
stream's length and name. -/
structure DelayKey where
  slot : Nat
  due : Nat
  stream : Bytes
  id : EntryId

def DelayKey.rank (k : DelayKey) : Nat ×ₗ Nat ×ₗ Nat ×ₗ Bytes ×ₗ EntryId :=
  toLex (k.slot, toLex (k.due, toLex (k.stream.length, toLex (k.stream, k.id))))

theorem DelayKey.rank_injective : Function.Injective DelayKey.rank := by
  intro a b h
  cases a
  simp only [DelayKey.rank, EmbeddingLike.apply_eq_iff_eq, Prod.mk.injEq] at h
  simp [h]

instance : LinearOrder DelayKey :=
  LinearOrder.lift' _ DelayKey.rank_injective

/-- The pending rows and the consumers of a stream's groups as they lie in the store, by what follows
the stream in their key: the group, a tag, and an id or a name. A group's name has any bytes. -/
abbrev Window := SortedMap Bytes (PendState ⊕ ConsumerState)

/-- The store as the stream commands see it. `window` has the rows of `pend` and `consumers` under
their keys. `ledger` says that a Kafka consumer group has committed an offset on the stream. -/
structure Records where
  metas : Bytes → Option MetaRecord := fun _ => none
  entries : Bytes → SortedMap EntryId Fields := fun _ => .empty
  delays : SortedMap DelayKey Fields := .empty
  groups : Bytes → Bytes → Option GroupPayload := fun _ _ => none
  pend : Bytes → Bytes → SortedMap EntryId PendState := fun _ _ => .empty
  consumers : Bytes → Bytes → SortedMap Bytes ConsumerState := fun _ _ => .empty
  window : Bytes → Window := fun _ => .empty
  ledger : Bytes → Bool := fun _ => false

inductive Write where
  | head (stream : Bytes) (m : MetaRecord)
  | entry (stream : Bytes) (op : BatchOp EntryId Fields)
  | delay (op : BatchOp DelayKey Fields)
  | group (stream group : Bytes) (p : GroupPayload)
  | pend (stream group : Bytes) (op : BatchOp EntryId PendState)
  | consumer (stream group : Bytes) (op : BatchOp Bytes ConsumerState)
  deriving DecidableEq

def update₂ {β : Type} (f : Bytes → Bytes → β) (s g : Bytes) (x : β) : Bytes → Bytes → β :=
  Function.update f s (Function.update (f s) g x)

theorem update₂_apply {β : Type} (f : Bytes → Bytes → β) (s g : Bytes) (x : β) (s' g' : Bytes) :
    update₂ f s g x s' g' = if s = s' ∧ g = g' then x else f s' g' := by
  unfold update₂
  by_cases hs : s = s'
  · subst hs
    by_cases hg : g = g'
    · subst hg
      simp
    · simp [hg, Ne.symm hg]
  · simp [hs, Ne.symm hs]

theorem update₂_self {β : Type} (f : Bytes → Bytes → β) (s g : Bytes) :
    update₂ f s g (f s g) = f := by
  rw [update₂, Function.update_eq_self, Function.update_eq_self]

namespace Records

def apply (r : Records) : Write → Records
  | .head s m => { r with metas := Function.update r.metas s (some m) }
  | .entry s op => { r with entries := Function.update r.entries s ((r.entries s).apply op) }
  | .delay op => { r with delays := r.delays.apply op }
  | .group s g p => { r with groups := update₂ r.groups s g (some p) }
  | .pend s g op => { r with
      pend := update₂ r.pend s g ((r.pend s g).apply op)
      window := Function.update r.window s
        ((r.window s).apply (op.map (g ++ pendTag :: ·.suffix) .inl)) }
  | .consumer s g op => { r with
      consumers := update₂ r.consumers s g ((r.consumers s g).apply op)
      window := Function.update r.window s
        ((r.window s).apply (op.map (g ++ consumerTag :: ·) .inr)) }

def write (r : Records) (ws : List Write) : Records := ws.foldl apply r

@[simp] theorem write_nil (r : Records) : r.write [] = r := rfl

theorem write_append (r : Records) (ws ws' : List Write) :
    r.write (ws ++ ws') = (r.write ws).write ws' := foldl_append

end Records

/-! ## What a batch does to one record -/

namespace Write

def toMeta (s : Bytes) : Write → Option MetaRecord
  | .head s' m => if s' = s then some m else none
  | _ => none

def toEntry (s : Bytes) : Write → Option (BatchOp EntryId Fields)
  | .entry s' op => if s' = s then some op else none
  | _ => none

def toDelay : Write → Option (BatchOp DelayKey Fields)
  | .delay op => some op
  | _ => none

def toGroup (s g : Bytes) : Write → Option GroupPayload
  | .group s' g' p => if s' = s ∧ g' = g then some p else none
  | _ => none

def toPend (s g : Bytes) : Write → Option (BatchOp EntryId PendState)
  | .pend s' g' op => if s' = s ∧ g' = g then some op else none
  | _ => none

def OfStream : Write → Prop
  | .head .. | .entry .. | .delay _ => True
  | .group .. | .pend .. | .consumer .. => False

variable {s s' g g' : Bytes}

@[simp] theorem toMeta_head (s : Bytes) (m : MetaRecord) : (head s m).toMeta s = some m := if_pos rfl

theorem toMeta_head_ne (h : s' ≠ s) (m : MetaRecord) : (head s m).toMeta s' = none :=
  if_neg (Ne.symm h)

@[simp] theorem toEntry_entry (s : Bytes) (op : BatchOp EntryId Fields) :
    (entry s op).toEntry s = some op := if_pos rfl

theorem toEntry_entry_ne (h : s' ≠ s) (op : BatchOp EntryId Fields) :
    (entry s op).toEntry s' = none := if_neg (Ne.symm h)

@[simp] theorem toPend_pend (s g : Bytes) (op : BatchOp EntryId PendState) :
    (pend s g op).toPend s g = some op := if_pos ⟨rfl, rfl⟩

theorem of_toGroup_group {p p' : GroupPayload} (h : (group s g p).toGroup s' g' = some p') :
    s = s' ∧ g = g' ∧ p = p' := by
  rw [toGroup, Option.ite_none_right_eq_some] at h
  exact ⟨h.1.1, h.1.2, Option.some.inj h.2⟩

end Write

namespace Records

variable (r : Records) (ws : List Write) (s g : Bytes)

theorem foldl_last {σ ω β : Type*} {f : σ → ω → σ} {p : σ → Option β} {h : ω → Option β}
    (hf : ∀ s w, p (f s w) = (h w).or (p s)) (s : σ) (ws : List ω) :
    p (ws.foldl f s) = (ws.filterMap h).getLast?.or (p s) := by
  induction ws generalizing s with
  | nil => rfl
  | cons w ws ih =>
    rw [foldl_cons, ih, hf, filterMap_cons]
    cases h w with
    | none => rfl
    | some b =>
      rw [getLast?_cons]
      cases (ws.filterMap h).getLast? <;> rfl

theorem metas_write :
    (r.write ws).metas s = (ws.filterMap (Write.toMeta s)).getLast?.or (r.metas s) :=
  foldl_last (p := fun r => r.metas s) (fun r w => by
    cases w with
    | head s' m =>
      by_cases h : s' = s
      · simp [apply, Write.toMeta, h]
      · simp [apply, Write.toMeta, h, Ne.symm h]
    | entry | delay | group | pend | consumer => rfl) r ws

theorem entries_write :
    (r.write ws).entries s = (r.entries s).write (ws.filterMap (Write.toEntry s)) :=
  SortedMap.write_filterMap (p := fun r : Records => r.entries s) (fun r w => by
    cases w with
    | entry s' op =>
      by_cases h : s' = s
      · subst h
        simp [apply, Write.toEntry]
      · simp [apply, Write.toEntry, h, Ne.symm h]
    | head | delay | group | pend | consumer => rfl) r ws

theorem delays_write : (r.write ws).delays = r.delays.write (ws.filterMap Write.toDelay) :=
  SortedMap.write_filterMap (p := delays) (fun r w => by cases w <;> rfl) r ws

theorem groups_write :
    (r.write ws).groups s g = (ws.filterMap (Write.toGroup s g)).getLast?.or (r.groups s g) :=
  foldl_last (p := fun r => r.groups s g) (fun r w => by
    cases w with
    | group s' g' p => by_cases h : s' = s ∧ g' = g <;> simp [apply, Write.toGroup, update₂_apply, h]
    | head | entry | delay | pend | consumer => rfl) r ws

theorem pend_write : (r.write ws).pend s g = (r.pend s g).write (ws.filterMap (Write.toPend s g)) :=
  SortedMap.write_filterMap (p := fun r : Records => r.pend s g) (fun r w => by
    cases w with
    | pend s' g' op => by_cases h : s' = s ∧ g' = g <;> simp [apply, Write.toPend, update₂_apply, h]
    | head | entry | delay | group | consumer => rfl) r ws

theorem write_untouched (r : Records) {ws : List Write} {s : Bytes}
    (h : ws.filterMap (Write.toMeta s) = [] ∧ ws.filterMap (Write.toEntry s) = []) :
    (r.write ws).metas s = r.metas s ∧ (r.write ws).entries s = r.entries s := by
  rw [metas_write, entries_write, h.1, h.2]
  exact ⟨rfl, rfl⟩

theorem write_ofStream (h : ∀ w ∈ ws, w.OfStream) :
    (r.write ws).pend s g = r.pend s g ∧ (r.write ws).groups s g = r.groups s g := by
  have hpend : ws.filterMap (Write.toPend s g) = [] := filterMap_eq_nil_iff.mpr fun w hw => by
    have := h w hw
    cases w <;> first | rfl | exact this.elim
  have hgroup : ws.filterMap (Write.toGroup s g) = [] := filterMap_eq_nil_iff.mpr fun w hw => by
    have := h w hw
    cases w <;> first | rfl | exact this.elim
  rw [pend_write, groups_write, hpend, hgroup]
  exact ⟨rfl, rfl⟩

end Records

/-! ## Reading the meta record -/

inductive MetaRead where
  | live (m : MetaPayload)
  | purged
  | missing
  deriving DecidableEq

def isExpired (expire now : Nat) : Bool := expire ≠ 0 && expire ≤ now

/-- A stream past its deadline is purged on sight. -/
def readMeta (r : Records) (now : Nat) (s : Bytes) : MetaRead :=
  match r.metas s with
  | none => .missing
  | some m => if isExpired m.expire now then .purged else .live m.payload

def MetaRead.live? : MetaRead → Option MetaPayload
  | .live m => some m
  | .purged | .missing => none

/-- A family delete: every record of the stream, the staged rows and the committed offsets
included. -/
def purge (r : Records) (s : Bytes) : Records where
  metas := Function.update r.metas s none
  entries := Function.update r.entries s .empty
  delays := ⟨r.delays.entries.filter fun e => e.1.stream ≠ s, r.delays.sorted.filter _⟩
  groups := Function.update r.groups s fun _ => none
  pend := Function.update r.pend s fun _ => .empty
  consumers := Function.update r.consumers s fun _ => .empty
  window := Function.update r.window s .empty
  ledger := Function.update r.ledger s false

/-- The records as a command goes on with them after it read the meta record. -/
def reap (r : Records) (now : Nat) (s : Bytes) : Records :=
  if readMeta r now s = .purged then purge r s else r

end Rdb.Lite
