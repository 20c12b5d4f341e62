import Rdb.Ds.Keys

/-!
# The records of a key under any slot

A dump moves a key from one slot prefix and name to another, so the slot of a key is not
always that of its name. A `Place` is a slot and a name; a `Part` says which record of the
key is meant: the raw string, a typed record with its suffix, or a staged delay row. Parts
of one place are stored apart (`Place.record_inj`), and apart from the index entries of
deadlines.
-/

namespace Rdb.Ds

open Lib List

/-! ## Places and parts -/

structure Place where
  slot : Nat
  key : UserKey
  deriving DecidableEq

/-- Where the commands keep a key: under the slot of its tag. -/
def UserKey.home (k : UserKey) : Place := ⟨k.slot, k⟩

inductive Part where
  | raw
  | elem (kind : UInt8) (suffix : Bytes)
  | row (dueMs : Nat) (locked : Nat × Nat)
  deriving DecidableEq

/-- The kinds of records under a length and a name: the families, and committed offsets. -/
def recordKinds : List UInt8 :=
  (List.range kindSearchNumval.toNat).map (fun i => UInt8.ofNat (i + 1)) ++ [kindStreamOffset]

namespace Part

/-- The parts that the layout has a record for. -/
def Valid : Part → Prop
  | .raw => True
  | .elem kind _ => kind ∈ recordKinds
  | .row dueMs locked => dueMs < 2 ^ 64 ∧ locked.1 < 2 ^ 64 ∧ locked.2 < 2 ^ 64

def body (key : Bytes) : Part → Bytes
  | .raw => key
  | .elem kind suffix => elemKey [] kind key suffix
  | .row dueMs locked => delayRowKey [] dueMs key locked

theorem kind_ne_of_mem_recordKinds : ∀ kind ∈ recordKinds,
    kind ≠ kindStreamDelay ∧ kind ≠ kindExpireIndex ∧ kind ≠ kindString := by decide +kernel

theorem decode_row (k : UserKey) {due : Nat} {locked : Nat × Nat}
    (h : (Part.row due locked).Valid) :
    decodeDelayRowKey ((Part.row due locked).body k.bytes) 0 = some (due, k.bytes, locked) := by
  obtain ⟨hdue, hfst, hsnd⟩ := h
  have hval : ∀ {n : Nat}, n < 2 ^ 64 → ofBe (beBytes 8 n) = n := fun hn =>
    ofBe_beBytes_of_lt (by simpa using hn)
  have hlen : ofBe (beBytes 4 k.bytes.length) = k.bytes.length :=
    ofBe_beBytes_of_lt (by simpa using k.short)
  have htake : ∀ w n, (beBytes w n).take w = beBytes w n := fun w n =>
    take_of_length_le (by rw [length_beBytes])
  have hdrop : ∀ w n i, w ≤ i → (beBytes w n).drop i = [] := fun w n i h =>
    drop_eq_nil_of_le (by rwa [length_beBytes])
  simp only [decodeDelayRowKey, body, delayRowKey]
  simp [drop_append, List.take_append, htake, hdrop, hlen]
  rw [hval hdue, hval hfst, drop_eq_nil_of_le (by omega), take_nil, nil_append, hval hsnd]
  exact ⟨by omega, rfl, rfl⟩

theorem length_lt_body {key : Bytes} {n : Part} (h : n ≠ .raw) :
    key.length < (n.body key).length := by
  cases n with
  | raw => exact absurd rfl h
  | elem kind s =>
    simp only [body, elemKey, dataKey, length_append, length_cons]
    omega
  | row due locked =>
    simp only [body, delayRowKey, length_append, length_cons]
    omega

theorem body_inj {k : UserKey} {n m : Part} (hn : n.Valid) (hm : m.Valid)
    (h : n.body k.bytes = m.body k.bytes) : n = m := by
  have hlen := congrArg length h
  cases n with
  | raw =>
    by_contra hne
    exact hlen.not_lt (length_lt_body (Ne.symm hne))
  | elem kind s =>
    cases m with
    | raw => exact (hlen.not_gt (length_lt_body nofun)).elim
    | elem kind' s' =>
      obtain ⟨rfl, htail⟩ := cons.inj h
      rw [append_cancel_left htail]
    | row due locked => exact absurd (cons.inj h).1 (kind_ne_of_mem_recordKinds kind hn).1
  | row due locked =>
    cases m with
    | raw => exact (hlen.not_gt (length_lt_body nofun)).elim
    | elem kind s => exact absurd (cons.inj h).1.symm (kind_ne_of_mem_recordKinds kind hm).1
    | row due' locked' =>
      have hdecode := decode_row k hn
      rw [h, decode_row k hm] at hdecode
      cases hdecode
      rfl

end Part

namespace Place

variable (p : Place)

def pre : Bytes := slotPrefix p.slot

def record (n : Part) : Bytes := p.pre ++ n.body p.key.bytes

def data (kind : UInt8) : Bytes := dataKey p.pre kind p.key.bytes

def index (expireMs : Nat) (kind : UInt8) : Bytes := expireIndexKey p.pre expireMs (p.data kind)

theorem record_elem (kind : UInt8) (s : Bytes) :
    p.record (.elem kind s) = elemKey p.pre kind p.key.bytes s := by
  simp [record, Part.body, elemKey, dataKey]

theorem record_root (kind : UInt8) : p.record (.elem kind []) = p.data kind := by
  rw [record_elem, elemKey, append_nil]
  rfl

theorem record_row (due : Nat) (locked : Nat × Nat) :
    p.record (.row due locked) = delayRowKey p.pre due p.key.bytes locked := by
  simp [record, Part.body, delayRowKey]

variable {p}

theorem record_inj {n m : Part} (hn : n.Valid) (hm : m.Valid) (h : p.record n = p.record m) : n = m :=
  Part.body_inj hn hm (append_cancel_left h)

theorem drop_data (kind : UInt8) :
    (p.data kind).drop p.pre.length = kind :: (beBytes 4 p.key.bytes.length ++ p.key.bytes) :=
  drop_left

theorem index_eq (d : Nat) (kind : UInt8) :
    p.index d kind = p.pre ++ kindExpireIndex :: (beBytes 8 d ++
      kind :: (beBytes 4 p.key.bytes.length ++ p.key.bytes)) := by
  rw [index, expireIndexKey, drop_data]

theorem index_ne_record {n : Part} (hn : n.Valid) (d : Nat) (kind : UInt8) :
    p.index d kind ≠ p.record n := by
  rw [index_eq]
  intro h
  have hbody := append_cancel_left h
  cases n with
  | raw =>
    have hlen := congrArg length hbody
    simp only [Part.body, length_append, length_cons] at hlen
    omega
  | elem kind' s =>
    exact (Part.kind_ne_of_mem_recordKinds kind' hn).2.1 (cons.inj hbody).1.symm
  | row due locked => exact absurd (cons.inj hbody).1 (by decide)

theorem index_inj {d d' : Nat} {kind kind' : UInt8} (hd : d < 2 ^ 64) (hd' : d' < 2 ^ 64)
    (h : p.index d kind = p.index d' kind') : d = d' ∧ kind = kind' := by
  rw [index_eq, index_eq] at h
  obtain ⟨-, htail⟩ := cons.inj (append_cancel_left h)
  obtain ⟨hv, htail⟩ := beBytes_append_inj hd hd' htail
  exact ⟨hv, (cons.inj htail).1⟩

theorem data_isPrefix_iff {kind : UInt8} {x : Bytes} :
    p.data kind <+: x ↔ ∃ s, x = p.record (.elem kind s) := by
  simp only [record_elem]
  exact ⟨fun ⟨s, hs⟩ => ⟨s, hs.symm⟩, fun ⟨s, hs⟩ => ⟨s, hs.symm⟩⟩

end Place

end Rdb.Ds
