import Rdb.Lib.Run
import Rdb.Store

/-!
# The raft log

A log entry lies under the big-endian form of its index. The read of a range is one chain
over an iterator, and the check that ends it at the end of the range also ends it at the
first value that does not decode: a damaged entry cuts the log (`damaged_entry_cuts_log`).
`log_reads_exact`: after any calls a read returns the log where its entries decode, and
fewer entries where one does not.
-/

namespace Rdb.Raft

open Lib List SortedMap

abbrev U64 := Fin (256 ^ 8)

structure LogId where
  leader : Nat
  index : U64

structure Entry (P : Type) where
  logId : LogId
  payload : P

inductive Bound where
  | included (x : U64)
  | excluded (x : U64)
  | unbounded

structure Range where
  lower : Bound
  upper : Bound

def Bound.above (id : U64) : Bound → Bool
  | .included x => x ≤ id
  | .excluded x => x < id
  | .unbounded => true

def Bound.below (id : U64) : Bound → Bool
  | .included x => id ≤ x
  | .excluded x => id < x
  | .unbounded => true

def Range.contains (r : Range) (id : U64) : Bool := r.lower.above id && r.upper.below id

structure LogStore where
  logs : Store := SortedMap.empty
  lastPurged : Option LogId := none

structure LogState where
  lastPurgedLogId : Option LogId
  lastLogId : Option LogId

def idToBin (id : U64) : Bytes := beBytes 8 id

def binToId (b : Bytes) : U64 := Fin.ofNat _ (ofBe b)

def u64Max : U64 := ⟨2 ^ 64 - 1, by decide⟩

/-- The calls that write, and the damage of a stored value. -/
inductive LogCall (P : Type) where
  | append (entries : List (Entry P))
  | truncate (logId : LogId)
  | purge (logId : LogId)
  | damage (index : U64) (bytes : Bytes)

section

variable {P : Type} (encode : Entry P → Bytes) (decode : Bytes → Option (Entry P))

namespace LogStore

variable (s : LogStore)

def put (index : U64) (value : Bytes) : LogStore :=
  { s with logs := s.logs.put (idToBin index) value }

def append (entries : List (Entry P)) : LogStore :=
  entries.foldl (fun s e => s.put e.logId.index (encode e)) s

def truncate (logId : LogId) : LogStore :=
  { s with logs := s.logs.deleteRange (idToBin logId.index) (idToBin u64Max) }

def purge (logId : LogId) : LogStore :=
  ⟨s.logs.deleteRange (idToBin 0) (idToBin (logId.index + 1)), some logId⟩

def start : Bound → Bytes
  | .included x => idToBin x
  | .excluded x => idToBin (x + 1)
  | .unbounded => idToBin 0

def readLog (row : Bytes × Bytes) : Except String (U64 × Entry P) :=
  match decode row.2 with
  | none => .error "read logs"
  | some entry => .ok (binToId row.1, entry)

def tryGetLogEntries (r : Range) : Except String (List (Entry P)) :=
  let read := (s.logs.entries.filter (start r.lower ≤ ·.1)).map (readLog decode)
  let taken := read.takeWhile fun
    | .ok (id, _) => r.contains id
    | .error _ => false
  taken.mapM fun res => res.map (·.2)

def getLogState : Except String LogState :=
  match s.logs.entries.getLast? with
  | none => .ok ⟨s.lastPurged, s.lastPurged⟩
  | some row => (readLog decode row).map fun e => ⟨s.lastPurged, some e.2.logId⟩

def step : LogCall P → LogStore
  | .append entries => s.append encode entries
  | .truncate logId => s.truncate logId
  | .purge logId => s.purge logId
  | .damage index bytes => if (s.logs.get (idToBin index)).isSome then s.put index bytes else s

end LogStore

structure Log where
  rows : SortedMap U64 Bytes := SortedMap.empty
  purged : Option LogId := none

namespace Log

variable (log : Log)

def put (index : U64) (value : Bytes) : Log := { log with rows := log.rows.put index value }

def keep (p : U64 → Bool) : SortedMap U64 Bytes :=
  ⟨log.rows.entries.filter fun e => p e.1, log.rows.sorted.filter _⟩

def step : LogCall P → Log
  | .append entries => entries.foldl (fun log e => log.put e.logId.index (encode e)) log
  | .truncate logId => { log with rows := log.keep (· < logId.index) }
  | .purge logId => ⟨log.keep (logId.index < ·), some logId⟩
  | .damage index bytes => if (log.rows.get index).isSome then log.put index bytes else log

end Log

def LogCall.indices : LogCall P → List U64
  | .append entries => entries.map (·.logId.index)
  | .truncate logId | .purge logId => [logId.index]
  | .damage index _ => [index]

/-! ## The keys of the log -/

variable {s : LogStore} {log : Log} {i j : U64} {encode decode}

theorem idToBin_strictMono : StrictMono idToBin := fun i j h =>
  (beBytes_lt_iff (w := 8) i.isLt j.isLt).mpr h

theorem binToId_idToBin : binToId (idToBin i) = i := by
  rw [binToId, idToBin, ofBe_beBytes_of_lt (w := 8) i.isLt]
  exact Fin.ext (Nat.mod_eq_of_lt i.isLt)

theorem le_u64Max : i ≤ u64Max := Fin.le_def.mpr (Nat.le_pred_of_lt i.isLt)

theorem lt_add_one (hi : i < u64Max) : j < i + 1 ↔ j ≤ i := by
  have hval : (i + 1).val = i.val + 1 := Fin.val_add_one_of_lt' (Nat.succ_lt_of_lt_pred hi)
  rw [Fin.lt_def, hval, Nat.lt_succ_iff, Fin.le_def]

structure Holds (s : LogStore) (log : Log) : Prop where
  get : ∀ i, s.logs.get (idToBin i) = log.rows.get i
  key : ∀ k v, s.logs.get k = some v → ∃ i, k = idToBin i
  purged : s.lastPurged = log.purged
  top : log.rows.get u64Max = none

theorem Holds.put (h : Holds s log) (hi : u64Max ≠ i) (v : Bytes) :
    Holds (s.put i v) (log.put i v) where
  get j := by
    simp only [LogStore.put, Log.put, get_put, idToBin_strictMono.injective.eq_iff, h.get]
  key k w hw := by
    rw [LogStore.put, get_put] at hw
    split_ifs at hw with hk
    · exact ⟨i, hk.symm⟩
    · exact h.key k w hw
  purged := h.purged
  top := by rw [Log.put, get_put, if_neg hi.symm, h.top]

theorem Log.get_keep (p : U64 → Bool) (i : U64) :
    (log.keep p).get i = if p i then log.rows.get i else none :=
  lookupL_filter ..

theorem Holds.delete (h : Holds s log) {lower upper : U64} {p : U64 → Bool}
    (hp : ∀ i < u64Max, p i ↔ ¬ (lower ≤ i ∧ i < upper)) {a b : Option LogId} (hab : a = b) :
    Holds ⟨s.logs.deleteRange (idToBin lower) (idToBin upper), a⟩ ⟨log.keep p, b⟩ where
  get i := by
    simp only [get_deleteRange, idToBin_strictMono.le_iff_le, idToBin_strictMono.lt_iff_lt, h.get,
      log.get_keep]
    by_cases hi : u64Max = i
    · subst hi
      simp only [h.top, ite_self]
    · simp only [hp i (le_u64Max.lt_of_ne' hi), ite_not]
  key k v hv := by
    rw [get_deleteRange] at hv
    split_ifs at hv
    exact h.key k v hv
  purged := hab
  top := by rw [log.get_keep, h.top, ite_self]

theorem Holds.step (h : Holds s log) {c : LogCall P} (hc : u64Max ∉ c.indices) :
    Holds (s.step encode c) (log.step encode c) := by
  cases c with
  | append entries =>
    unfold LogStore.step LogStore.append Log.step
    induction entries generalizing s log with
    | nil => exact h
    | cons e es ih =>
      obtain ⟨he, hes⟩ := not_or.mp (mt mem_cons.mpr hc)
      exact ih (h.put he _) hes
  | truncate logId => exact h.delete (fun i hi => by simp [hi]) h.purged
  | purge logId =>
    have hid := le_u64Max.lt_of_ne' (ne_of_not_mem_cons hc)
    exact h.delete (fun i _ => by simp [lt_add_one hid]) rfl
  | damage index bytes =>
    simp only [LogStore.step, Log.step, h.get]
    split_ifs
    · exact h.put (ne_of_not_mem_cons hc) bytes
    · exact h

theorem Holds.run (h : Holds s log) {cs : List (LogCall P)} (hcs : ∀ c ∈ cs, u64Max ∉ c.indices) :
    Holds (cs.foldl (·.step encode) s) (cs.foldl (·.step encode) log) := by
  induction cs generalizing s log with
  | nil => exact h
  | cons c cs ih =>
    exact ih (h.step (hcs c mem_cons_self)) fun c hc => hcs c (mem_cons_of_mem _ hc)

/-! ## Reads -/

theorem Holds.entries (h : Holds s log) :
    s.logs.entries = log.rows.entries.map fun e => (idToBin e.1, e.2) := by
  refine eq_of_mem_iff s.logs.sorted ?_ fun row => ?_
  · rw [pairwise_map]
    exact log.rows.sorted.imp fun hab => idToBin_strictMono hab
  · rw [mem_entries, mem_map]
    constructor
    · intro hrow
      obtain ⟨i, hi⟩ := h.key _ _ hrow
      rw [hi, h.get] at hrow
      exact ⟨_, get_eq_some.mp hrow, Prod.ext hi.symm rfl⟩
    · rintro ⟨e, he, rfl⟩
      rw [h.get, mem_entries.mp he]

theorem start_le {b : Bound} (hb : b.above j) :
    LogStore.start b ≤ idToBin i ↔ b.above i := by
  cases b with
  | included x | unbounded => simp [LogStore.start, Bound.above, idToBin_strictMono.le_iff_le]
  | excluded x =>
    have hx : x < u64Max := (of_decide_eq_true hb : x < j).trans_le le_u64Max
    rw [LogStore.start, idToBin_strictMono.le_iff_le, ← not_lt, lt_add_one hx, not_le]
    exact (decide_eq_true_iff).symm

theorem Bound.below_mono {b : Bound} (hij : i < j) (h : b.below j) : b.below i := by
  cases b with
  | included x => exact decide_eq_true (hij.le.trans (of_decide_eq_true h))
  | excluded x => exact decide_eq_true (hij.trans (of_decide_eq_true h))
  | unbounded => rfl

theorem takeWhile_rows (log : Log) (r : Range) (d : U64 × Bytes → Bool) :
    (log.rows.entries.filter (LogStore.start r.lower ≤ idToBin ·.1)).takeWhile
        (fun e => r.contains e.1 && d e) =
      (log.rows.entries.filter (r.contains ·.1)).takeWhile d := by
  refine takeWhile_and_filter (fun e _ hq => ?_) (log.rows.sorted.imp fun {a b} hab hp hq => ?_)
  · have hlow := (Bool.and_eq_true_iff.mp hq).1
    exact decide_eq_true ((start_le hlow).mpr hlow)
  · -- a row of the range further on would put this one into the range
    by_contra hb
    obtain ⟨hlow, hup⟩ := Bool.and_eq_true_iff.mp (Bool.of_not_eq_false hb)
    have hle := (start_le hlow).mp (of_decide_eq_true hp)
    simp [Range.contains, hle, Bound.below_mono hab hup] at hq

theorem readLog_idToBin (decode : Bytes → Option (Entry P)) (e : U64 × Bytes) :
    LogStore.readLog decode (idToBin e.1, e.2) =
      (decode e.2).elim (.error "read logs") fun entry => .ok (e.1, entry) := by
  cases hd : decode e.2 <;> simp [LogStore.readLog, hd, binToId_idToBin]

/-- A read ends in front of the first entry of the range that does not decode. -/
theorem Holds.tryGetLogEntries (h : Holds s log) (decode : Bytes → Option (Entry P)) (r : Range) :
    s.tryGetLogEntries decode r = .ok (((log.rows.entries.filter (r.contains ·.1)).takeWhile
      fun e => (decode e.2).isSome).filterMap (decode ·.2)) := by
  have hpred : ∀ e : U64 × Bytes, (match (decode e.2).elim (.error "read logs") fun entry =>
      Except.ok (e.1, entry) with
    | .ok (id, _) => r.contains id
    | .error _ => false) = (r.contains e.1 && (decode e.2).isSome) := fun e => by
    cases decode e.2 <;> simp
  have hdec : ∀ e ∈ (log.rows.entries.filter (r.contains ·.1)).takeWhile
      fun e => (decode e.2).isSome, (decode e.2).isSome := fun e => mem_takeWhile_imp
  unfold LogStore.tryGetLogEntries
  simp only [h.entries, filter_map, map_map, takeWhile_map, Function.comp_def, readLog_idToBin, hpred,
    takeWhile_rows log r fun e => (decode e.2).isSome]
  generalize (log.rows.entries.filter (r.contains ·.1)).takeWhile _ = read at hdec ⊢
  induction read with
  | nil => rfl
  | cons e es ih =>
    obtain ⟨entry, he⟩ := Option.isSome_iff_exists.mp (hdec e mem_cons_self)
    rw [map_cons, mapM_cons, ih fun e he => hdec e (mem_cons_of_mem _ he), filterMap_cons, he]
    rfl

theorem log_reads_exact (encode : Entry P → Bytes) (decode : Bytes → Option (Entry P))
    (calls : List (LogCall P)) (hcalls : ∀ c ∈ calls, u64Max ∉ c.indices) (r : Range) :
    let s := calls.foldl (·.step encode) ({} : LogStore)
    let log := calls.foldl (·.step encode) ({} : Log)
    let stored := log.rows.entries.filter (r.contains ·.1)
    ((∀ e ∈ stored, (decode e.2).isSome) →
      s.tryGetLogEntries decode r = .ok (stored.filterMap (decode ·.2))) ∧
    ((∃ e ∈ stored, decode e.2 = none) →
      ∃ read, s.tryGetLogEntries decode r = .ok read ∧ read.length < stored.length) ∧
    s.getLogState decode = match log.rows.entries.getLast? with
      | none => .ok ⟨log.purged, log.purged⟩
      | some e => (decode e.2).elim (.error "read logs") fun entry =>
        .ok ⟨log.purged, some entry.logId⟩ := by
  intro s log stored
  have hempty : Holds {} {} := ⟨fun _ => rfl, nofun, rfl, rfl⟩
  have h : Holds s log := hempty.run hcalls
  refine ⟨fun hdec => ?_, fun ⟨e, he, hnone⟩ => ⟨_, h.tryGetLogEntries decode r, ?_⟩, ?_⟩
  · rw [h.tryGetLogEntries, takeWhile_eq_self_iff.mpr hdec]
  · refine (length_filterMap_le _ _).trans_lt ?_
    refine lt_of_le_of_ne (IsPrefix.length_le <| takeWhile_prefix _) fun hlen => ?_
    have hall := takeWhile_eq_self_iff.mp (IsPrefix.eq_of_length ( takeWhile_prefix _) hlen) e he
    rw [hnone] at hall
    cases hall
  · unfold LogStore.getLogState
    rw [h.entries, getLast?_map, h.purged]
    cases log.rows.entries.getLast? with
    | none => rfl
    | some e => cases hd : decode e.2 <;> simp [readLog_idToBin, hd, Except.map]

end

/-! A log of three entries of one byte; the second loses it. -/

def sampleEncode (e : Entry Unit) : Bytes := [UInt8.ofNat e.logId.index]

def sampleDecode : Bytes → Option (Entry Unit)
  | [index] => some ⟨⟨1, Fin.ofNat _ index.toNat⟩, ()⟩
  | _ => none

def sampleCalls (c : LogCall Unit) : List (LogCall Unit) :=
  [.append ([1, 2, 3].map fun i => ⟨⟨1, i⟩, ()⟩), c]

theorem log_reads_exact_purged :
    let s := (sampleCalls (.purge ⟨1, 1⟩)).foldl (·.step sampleEncode) ({} : LogStore)
    s.tryGetLogEntries sampleDecode ⟨.unbounded, .excluded 3⟩ = .ok [⟨⟨1, 2⟩, ()⟩] :=
  (log_reads_exact sampleEncode sampleDecode (sampleCalls (.purge ⟨1, 1⟩)) (by decide)
    ⟨.unbounded, .excluded 3⟩).1 (by decide +kernel)

theorem damaged_entry_cuts_log :
    let s := (sampleCalls (.damage 2 [])).foldl (·.step sampleEncode) ({} : LogStore)
    s.tryGetLogEntries sampleDecode ⟨.unbounded, .unbounded⟩ = .ok [⟨⟨1, 1⟩, ()⟩] :=
  rfl

end Rdb.Raft
