import Rdb.Ds.Keys

/-!
# What a user key is

A command first looks its key up in both shapes: a raw string under the bare name, else
the first root record in the order of `metaKinds`. A root record that is due is purged
and the key reads as missing.

The raw string is looked up first and its name is taken as it comes, so any record that
sits under the prefix and the name answers, whatever wrote it.
-/

namespace Rdb.Command

open Lib Ds

inductive KeyState where
  | missing
  | rawString (value : Bytes)
  | enveloped (kind : UInt8) (expireMs : Nat) (payload : Bytes)
  deriving DecidableEq

namespace KeyState

def isPresent : KeyState → Bool
  | .missing => false
  | _ => true

def kind? : KeyState → Option UInt8
  | .enveloped kind _ _ => some kind
  | _ => none

/-- The deadline; `0` is none, and raw strings have none. -/
def expireMs : KeyState → Nat
  | .enveloped _ expireMs _ => expireMs
  | _ => 0

end KeyState

/-! ## The lazy purge -/

/-- The deadline of a root that is due, and the batch that wipes its family. -/
def lazyPurgeBatch (store : Store) (pre : Bytes) (family : CodecFamily) (key : Bytes) (now : Nat) :
    Option (Nat × List BatchEntry) :=
  (store.get (dataKey pre family.1 key)).bind fun val =>
    let expire := (decodeEnvelope val).1
    if isExpired expire now then
      some (expire, familyDeleteEntries (some store) pre family key expire)
    else none

/-- The purge of a caller that writes in line. -/
def purgeIfExpired (store : Store) (pre : Bytes) (family : CodecFamily) (key : Bytes) (now : Nat) :
    Store :=
  (lazyPurgeBatch store pre family key now).elim store fun p => batchWrite store p.2

/-! ## Resolving a key -/

def firstRoot (store : Store) (pre key : Bytes) : Option (UInt8 × Nat × Bytes) :=
  metaKinds.findSome? fun kind =>
    (store.get (dataKey pre kind key)).map fun v => (kind, decodeEnvelope v)

def resolveWith (store : Store) (pre key : Bytes) (now : Nat) : KeyState × Option CodecFamily :=
  match store.get (stringKey pre key) with
  | some value => (.rawString value, none)
  | none => match firstRoot store pre key with
    | none => (.missing, none)
    | some (kind, expire, payload) =>
      if isExpired expire now then (.missing, familyOf kind)
      else (.enveloped kind expire payload, none)

/-- The lookup of the data types: a purge is written in line. -/
def resolve (store : Store) (pre key : Bytes) (now : Nat) : KeyState × Store :=
  let r := resolveWith store pre key now
  (r.1, r.2.elim store fun family => purgeIfExpired store pre family key now)

/-! ## Batches on a whole key -/

/-- The deletes of what a lookup found, and `clear_key_family` without the rows of streams. -/
def deleteBatch (rows : Option Store) (k : UserKey) : KeyState → List BatchEntry
  | .missing => []
  | .rawString _ => [.delete k.raw]
  | .enveloped kind expireMs _ =>
    familyDeleteEntries rows k.pre ((familyOf kind).getD stringFamily) k.bytes expireMs

def writeStringRecord (k : UserKey) (val : Bytes) (deadline : Nat) : List BatchEntry :=
  if 0 < deadline then
    .put (k.data kindStringTtl) (encodeEnvelope deadline val) ::
      setTtlEntries k.pre (k.data kindStringTtl) 0 deadline
  else [.put k.raw val]

/-! ## Deadlines -/

inductive TtlFlag where
  | none
  | nx
  | xx
  | gt
  | lt

/-- A key without a deadline counts as one that never ends. -/
def flagAllows (flag : TtlFlag) (old new : Nat) : Bool :=
  match flag with
  | .none => true
  | .nx => old == 0
  | .xx => 0 < old
  | .gt => 0 < old && old < new
  | .lt => 0 < old && new < old

/-- EXPIRE and its relatives, on the store they find under the latch: the batch, or `none` where they
answer 0. A raw string moves to an enveloped record. -/
def applyTtl (store : Store) (k : UserKey) (newMs : Nat) (flag : TtlFlag) (now : Nat) :
    Option (List BatchEntry) :=
  let state := (resolveWith store k.pre k.bytes now).1
  if !state.isPresent then none
  else if !flagAllows flag state.expireMs newMs then none
  else if newMs ≤ now then some (deleteBatch (some store) k state)
  else match state with
    | .rawString value =>
      some (.put (k.data kindStringTtl) (encodeEnvelope newMs value) :: .delete k.raw ::
        setTtlEntries k.pre (k.data kindStringTtl) 0 newMs)
    | .enveloped kind expireMs payload =>
      some (.put (k.data kind) (encodeEnvelope newMs payload) ::
        setTtlEntries k.pre (k.data kind) expireMs newMs)
    | .missing => none

/-- PERSIST: an enveloped string moves back to the bare record. -/
def persistKey (store : Store) (k : UserKey) (now : Nat) : Option (List BatchEntry) :=
  match (resolveWith store k.pre k.bytes now).1 with
  | .missing => none
  | .rawString _ => none
  | .enveloped kind expireMs payload =>
    if expireMs = 0 then none
    else if kind = kindStringTtl then
      some (.put k.raw payload :: .delete (k.data kind) ::
        setTtlEntries k.pre (k.data kind) expireMs 0)
    else
      some (.put (k.data kind) (encodeEnvelope 0 payload) ::
        setTtlEntries k.pre (k.data kind) expireMs 0)

theorem firstRoot_of_only {store : Store} {pre key : Bytes} {kind : UInt8} (hkind : kind ∈ metaKinds)
    (honly : ∀ kind' ∈ metaKinds, kind' ≠ kind → store.get (dataKey pre kind' key) = none) :
    firstRoot store pre key =
      (store.get (dataKey pre kind key)).map fun v => (kind, decodeEnvelope v) :=
  findSome?_of_only hkind fun kind' hmem hne => by rw [honly kind' hmem hne]; rfl

end Rdb.Command
