import Rdb.Ds.Codec
import Mathlib.Data.Prod.Lex

/-!
# Stream names, entry ids and the records of a stream

A stream is named `parent/child`; its slot is that of the parent. Entries carry
ids `<ms>-<seq>` in lexicographic order. The records are the meta record of the
stream, its entries, and for each consumer group the group record, the pending
rows and the consumer rows.
-/

namespace Rdb.Lite

open Lib Ds

def u64Max : Nat := 2 ^ 64 - 1

/-! ## Entry ids -/

/-- An entry id; both halves are unsigned 64-bit numbers. -/
structure EntryId where
  ms : Nat
  seq : Nat

namespace EntryId

theorem toLex_injective : Function.Injective fun i : EntryId => toLex (i.ms, i.seq) := by
  intro a b h
  cases a
  cases b
  simpa using h

instance : LinearOrder EntryId :=
  LinearOrder.lift' _ toLex_injective

instance lawfulBEq : LawfulBEq EntryId := inferInstance

theorem lt_iff {a b : EntryId} : a < b ↔ a.ms < b.ms ∨ a.ms = b.ms ∧ a.seq < b.seq :=
  Prod.Lex.toLex_lt_toLex

/-- The 16 bytes an id contributes to a key. -/
def suffix (id : EntryId) : Bytes := beBytes 8 id.ms ++ beBytes 8 id.seq

def ofSuffix (b : Bytes) : Option EntryId :=
  if b.length = 16 then some ⟨ofBe (b.take 8), ofBe (b.drop 8)⟩ else none

theorem of_ofSuffix {b : Bytes} {id : EntryId} (h : ofSuffix b = some id) :
    b = id.suffix ∧ id.ms < 256 ^ 8 ∧ id.seq < 256 ^ 8 := by
  unfold ofSuffix at h
  split at h
  · next hlen =>
    cases h
    have htake : (b.take 8).length = 8 := by simp [hlen]
    have hdrop : (b.drop 8).length = 8 := by simp [hlen]
    refine ⟨?_, (ofBe_lt _).trans_eq (by rw [htake]), (ofBe_lt _).trans_eq (by rw [hdrop])⟩
    rw [suffix, beBytes_ofBe htake, beBytes_ofBe hdrop, List.take_append_drop]
  · cases h

theorem suffix_lt {a b : EntryId} (hms : b.ms < 256 ^ 8) (hseq : b.seq < 256 ^ 8) (h : a < b) :
    a.suffix < b.suffix := by
  rcases lt_iff.mp h with hlt | ⟨heq, hlt⟩
  · exact append_lt_append_of_length_eq (by simp)
      ((beBytes_lt_iff (hlt.trans hms) hms).mpr hlt) _ _
  · rw [suffix, suffix, heq, append_lt_append_iff]
    exact (beBytes_lt_iff (hlt.trans hseq) hseq).mpr hlt

end EntryId

def minId : EntryId := ⟨0, 0⟩
def maxId : EntryId := ⟨u64Max, u64Max⟩

def autoId (last : Option EntryId) (nowMs : Nat) : Option EntryId :=
  match last with
  | some l =>
    if nowMs ≤ l.ms then if l.seq = u64Max then none else some ⟨l.ms, l.seq + 1⟩
    else some ⟨nowMs, 0⟩
  | none => some ⟨nowMs, 0⟩

def succId (id : EntryId) : Option EntryId :=
  if id.seq < u64Max then some ⟨id.ms, id.seq + 1⟩
  else if id.ms < u64Max then some ⟨id.ms + 1, 0⟩
  else none

theorem lt_of_autoId {l id : EntryId} {now : Nat} (h : autoId (some l) now = some id) : l < id := by
  unfold autoId at h
  dsimp only at h
  rw [EntryId.lt_iff]
  split at h
  · split at h
    · cases h
    · cases h
      exact .inr ⟨rfl, Nat.lt_succ_self _⟩
  · cases h
    exact .inl (Nat.lt_of_not_le ‹_›)

/-! ## Names -/

def maxPart : Nat := 64

def isNameByte (b : UInt8) : Bool :=
  (0x30 ≤ b && b ≤ 0x39) || (0x41 ≤ b && b ≤ 0x5a) || (0x61 ≤ b && b ≤ 0x7a) ||
    b == 0x5f || b == 0x2d || b == 0x2e

/-- One part of a name: `[A-Za-z0-9._-]{1,64}`. -/
def validPart (p : Bytes) : Bool :=
  !p.isEmpty && p.length ≤ maxPart && p.all isNameByte

inductive TopicName where
  | parent (p : Bytes)
  | stream (parent child : Bytes)
  deriving DecidableEq

inductive NameError where
  | invalidTopic
  | invalidStream
  deriving DecidableEq

/-- The child may itself have `/`-separated parts, each of them valid. -/
def parseTopicName (name : Bytes) : Except NameError TopicName :=
  match splitSlash name with
  | none => if validPart name then .ok (.parent name) else .error .invalidTopic
  | some (parent, child) =>
    if validPart parent && (child.splitOn 0x2f).all validPart then .ok (.stream parent child)
    else .error .invalidStream

def slotWithPrefix (key : Bytes) : Nat × Bytes :=
  let slot := (crc16 key).toNat % slotNumber
  (slot, slotPrefix slot)

def streamPrefix (stream : Bytes) : Option Bytes :=
  match splitSlash stream with
  | none => none
  | some (parent, child) =>
    if parent.isEmpty || child.isEmpty then none else some (slotWithPrefix parent).2

/-- A name that a command accepts for a stream. A RESP argument has at most 512 MiB, so its
length fits the 32-bit field of a key. -/
structure StreamName where
  bytes : Bytes
  valid : ∃ parent child, parseTopicName bytes = .ok (.stream parent child)
  short : bytes.length < 2 ^ 32

/-! ## Records -/

abbrev Fields := List (Bytes × Bytes)

structure MetaPayload where
  createdMs : Nat := 0
  lastMs : Nat := 0
  lastSeq : Nat := 0
  len : Nat := 0
  idleMs : Nat := 0
  deriving DecidableEq

def MetaPayload.lastId (m : MetaPayload) : EntryId := ⟨m.lastMs, m.lastSeq⟩

structure GroupPayload where
  createdMs : Nat
  delivered : EntryId
  committed : EntryId
  ordered : Bool := false
  inflightMax : Nat := 0
  maxdelivery : Nat := 0
  dlq : Bytes := []
  deriving DecidableEq

/-- A pending row: who holds it, since when, how often it was handed out. -/
structure PendState where
  consumer : Bytes
  deliveredMs : Nat
  timesDelivered : Nat
  epoch : Nat := 0
  deriving DecidableEq

structure ConsumerState where
  createdMs : Nat
  seenMs : Nat := 0
  deriving DecidableEq

def pendTag : UInt8 := 0x00
def consumerTag : UInt8 := 0x01

def normalizeInflight (ordered : Bool) (inflightMax : Nat) : Nat :=
  if ordered then max inflightMax 1 else 0

end Rdb.Lite
