import Rdb.Command.Expiry
import Rdb.Command.Keyspace
import Rdb.Ddl.Catalog
import Rdb.Ds.Restore

/-!
# RESTORE with REPLACE

RESTORE looks the key up, refuses one that is there unless REPLACE is given, and writes
the batch of the payload. REPLACE only lifts the refusal: nothing of the old value is
deleted, so a record of it that the payload does not write stays, in whatever layout. Only
an old value that is due is deleted, by the purge that the lookup spawns; it runs beside
the command, and its batch can come before that of RESTORE, after it, or not at all.

`restore_replaces_iff`: after RESTORE with REPLACE the key is the payload if and only if
every record of the old value is one that the payload writes or the purge takes, and the
purge does not come late for records of the payload.
-/

namespace Rdb.Command.Restore

open Lib Ds Dump Option
open SortedMap (empty)

/-! ## The command -/

def replaceOption : Bytes := [0x52, 0x45, 0x50, 0x4c, 0x41, 0x43, 0x45]

def absttlOption : Bytes := [0x41, 0x42, 0x53, 0x54, 0x54, 0x4c]

/-- A deadline in ms, or `0`. -/
def parseTtl (arg : Bytes) : Option Nat :=
  (Ddl.parseI64 arg).bind fun t => if 0 ≤ t then some t.toNat else none

/-- Whether REPLACE is among the options; `none` if there is an unknown one. -/
def parseOptions (options : List Bytes) : Option Bool :=
  if options.all fun a => eqIgnoreCase a replaceOption || eqIgnoreCase a absttlOption then
    some (options.any (eqIgnoreCase · replaceOption))
  else none

/-- When the purge of a due old value reads its root again and when it writes, as seen from the batch of
RESTORE. -/
inductive Race where
  | pending
  | before
  | across
  | after
  deriving DecidableEq

/-- The family of an old value that is due. -/
def dueFamily (store : Store) (k : UserKey) (now : Nat) : Option CodecFamily :=
  (resolveWith store k.pre k.bytes now).2

/-- The detached purge that the lookup starts. -/
def spawned (store : Store) (k : UserKey) (now : Nat) : Option Expiry.Purge :=
  (dueFamily store k now).bind fun family => Expiry.decideLazy store now k.home family true

def purge (purge : Option Expiry.Purge) (store : Store) : Store :=
  purge.elim store fun p => batchWrite store p.batch

def stillDue (purge : Option Expiry.Purge) (store : Store) : Bool :=
  purge.any fun p => p.root.any fun r => Expiry.revalidateExpire p.expire (store.get r)

/-- The batch of RESTORE and the purge. Before that batch the root is as the purge has read it first. -/
def commit (race : Race) (store : Store) (k : UserKey) (now : Nat) (batch : List BatchEntry) : Store :=
  let written := batchWrite store batch
  match race with
  | .pending => written
  | .before => batchWrite (purge (spawned store k now) store) batch
  | .across => purge (spawned store k now) written
  | .after => if stillDue (spawned store k now) written then purge (spawned store k now) written else written

/-- The handler of RESTORE; `args` are those behind the key. -/
def restore (store : Store) (k : UserKey) (now : Nat) (race : Race) (args : List Bytes) :
    Except String Store :=
  match args with
  | ttlArg :: payload :: options =>
    match parseTtl ttlArg with
    | none => .error "ERR Invalid TTL value, must be >= 0"
    | some ttl => match parseOptions options with
      | none => .error "ERR syntax error"
      | some replace =>
        if (resolveWith store k.pre k.bytes now).1.isPresent && !replace then
          .error "BUSYKEY Target key name already exists."
        else (restoreKey k.pre k.bytes payload ttl).map fun r => commit race store k now r.2
  | _ => .error "ERR wrong number of arguments for 'restore' command"

/-! ## What a key holds afterwards -/

/-- The records of a payload, as a store without anything else has them. -/
def content (k : UserKey) (ttlArg payload : Bytes) : Store :=
  match (parseTtl ttlArg).map (restoreKey k.pre k.bytes payload) with
  | some (.ok r) => batchWrite .empty r.2
  | _ => .empty

/-- The records of the key are those of the payload, and an index entry of the old value does not
make the sweeper delete it. -/
structure Replaced (k : UserKey) (payload before after : Store) : Prop where
  part : ∀ n : Part, n.Valid → after.get (k.home.record n) = payload.get (k.home.record n)
  index : ∀ kind ∈ recordKinds, ∀ d < 2 ^ 64, (before.get (k.home.index d kind)).isSome →
    payload.get (k.home.index d kind) = none → ∀ now purge,
      Expiry.decideActive after now k.pre (k.home.data kind |>.drop k.pre.length) d = some purge →
        purge.root = none

/-- The root of the due value has the same deadline when the payload is written. -/
def SameDeadline (k : UserKey) (now : Nat) (payload before : Store) : Prop :=
  ∃ family ∈ dueFamily before k now, ∃ old ∈ before.get (k.data family.1),
    ∃ new ∈ (payload.get (k.data family.1)).or (some old), (decodeEnvelope new).1 = (decodeEnvelope old).1

/-- The purge of a due value is written: it is revalidated before the payload is there, or against it. -/
def Lands (race : Race) (k : UserKey) (now : Nat) (payload before : Store) : Prop :=
  race = .before ∨ race = .across ∨ race = .after ∧ SameDeadline k now payload before

/-- Every record of the old value that the purge leaves has the name of a record of the payload, and a
purge that comes after the payload has none of its records to take. -/
structure Covered (race : Race) (k : UserKey) (now : Nat) (payload before : Store) : Prop where
  old : ∀ n : Part, n.Valid → (before.get (k.home.record n)).isSome →
    (Lands race k now payload before → ∀ family ∈ dueFamily before k now, n.InFamily family = false) →
      (payload.get (k.home.record n)).isSome
  new : Lands race k now payload before → race ≠ .before → ∀ family ∈ dueFamily before k now,
    ∀ n : Part, n.Valid → n.Taken before k.home family → payload.get (k.home.record n) = none

/-! ## Batches of a payload -/

/-- A batch of puts, in which every root with a deadline has its index entry. -/
structure Indexed (q : Place) (ops : List WriteOp) : Prop where
  puts : ∀ op ∈ ops, op.val.isSome
  index : ∀ kind ∈ recordKinds, ∀ v, .put (q.data kind) v ∈ ops → 0 < (decodeEnvelope v).1 →
    .put (q.index (decodeEnvelope v).1 kind) [] ∈ ops

theorem Indexed.nil (q : Place) : Indexed q [] := ⟨nofun, nofun⟩

variable {ops : List WriteOp}

theorem Indexed.append {q : Place} {ops' : List WriteOp} (h : Indexed q ops) (h' : Indexed q ops') :
    Indexed q (ops ++ ops') where
  puts op hop := (List.mem_append.mp hop).elim (h.puts op) (h'.puts op)
  index kind hkind v hput hpos := by
    rcases List.mem_append.mp hput with hput | hput
    · exact List.mem_append_left _ (h.index kind hkind v hput hpos)
    · exact List.mem_append_right _ (h'.index kind hkind v hput hpos)

variable {q : Place} {ttl : Nat}

theorem encodable_deadlineOf (h : ttl < 2 ^ 63) (value : Bytes) : Encodable (deadlineOf ttl value) := by
  unfold deadlineOf
  split
  · exact .inl h
  · exact encodable_decodeEnvelope value

theorem indexed_root {d : Nat} (hd : Encodable d) (kind : UInt8) (payload : Bytes) :
    Indexed q (.put (q.data kind) (encodeEnvelope d payload) ::
      if 0 < d then [.put (q.index d kind) []] else []) where
  puts op hop := by
    rcases List.mem_cons.mp hop with rfl | hop
    · rfl
    · split at hop
      · obtain rfl := List.mem_singleton.mp hop
        rfl
      · cases hop
  index kind' hkind' v hput hpos := by
    rcases List.mem_cons.mp hput with hput | hput
    · obtain ⟨hkey, rfl⟩ := BatchOp.put.inj hput
      obtain rfl : kind' = kind := (List.cons.inj (List.append_cancel_left hkey)).1
      rw [decodeEnvelope_of_encodable hd] at hpos ⊢
      rw [if_pos hpos]
      exact List.mem_cons_of_mem _ (List.mem_singleton_self _)
    · split at hput
      · have hkey := (BatchOp.put.inj (List.mem_singleton.mp hput)).1
        rw [← q.record_root] at hkey
        exact absurd hkey.symm (Place.index_ne_record (n := .elem kind' []) hkind' d kind)
      · cases hput

theorem length_data (kind : UInt8) : (q.data kind).length = q.pre.length + 5 + q.key.bytes.length := by
  simp only [Place.data, dataKey, List.length_append, List.length_cons, length_beBytes]
  omega

theorem indexed_single {x : Bytes} (h : x.length ≠ q.pre.length + 5 + q.key.bytes.length) (v : Bytes) :
    Indexed q [.put x v] where
  puts op hop := by
    obtain rfl := List.mem_singleton.mp hop
    rfl
  index kind _ v' hput _ := by
    have hkey := (BatchOp.put.inj (List.mem_singleton.mp hput)).1
    rw [← hkey] at h
    exact absurd (length_data kind) h

variable {kind : UInt8} {batch : List BatchEntry}

theorem indexed_restoreRecord (httl : ttl < 2 ^ 63) {fam : CodecFamily} {first : Bool} {r : Record}
    (h : restoreRecord q.pre q.key.bytes ttl kind fam first r = .ok batch) :
    ∃ ops, batch = ops.map BatchEntry.op ∧ Indexed q ops := by
  unfold restoreRecord at h
  split at h
  · cases h
  · next k rest hbody =>
    split at h
    · split at h
      · next due _ locked hdecode =>
        cases h
        refine ⟨[.put (delayRowKey q.pre due q.key.bytes locked) r.value], rfl, indexed_single ?_ _⟩
        simp only [delayRowKey, List.length_append, List.length_cons, length_beBytes]
        omega
      · cases h
    · split at h
      · cases h
      · next olen tail hlen =>
        split at h
        · cases h
        · by_cases hs : tail.drop olen = []
          · rw [if_pos hs, hs, ← q.record_elem, q.record_root, restoreRoot_eq] at h
            cases h
            refine ⟨_, rfl, ?_⟩
            rw [partPuts, q.record_root]
            exact indexed_root (encodable_deadlineOf httl r.value) k _
          · rw [if_neg hs] at h
            cases h
            refine ⟨[.put (elemKey q.pre k q.key.bytes (tail.drop olen)) r.value], rfl,
              indexed_single ?_ _⟩
            have hpos := List.length_pos_of_ne_nil hs
            simp only [elemKey, dataKey, List.length_append, List.length_cons, length_beBytes]
            omega

theorem indexed_restoreRecords (httl : ttl < 2 ^ 63) {fam : CodecFamily} {records : List Record}
    {first : Bool} (h : restoreRecords q.pre q.key.bytes ttl kind fam first records = .ok batch) :
    ∃ ops, batch = ops.map BatchEntry.op ∧ Indexed q ops := by
  induction records generalizing first batch with
  | nil =>
    cases h
    exact ⟨[], rfl, .nil q⟩
  | cons r rs ih =>
    obtain ⟨b, hr, h⟩ := bind_eq_ok.mp h
    obtain ⟨bs, hrs, h⟩ := bind_eq_ok.mp h
    cases h
    obtain ⟨ops, rfl, hops⟩ := indexed_restoreRecord httl hr
    obtain ⟨ops', rfl, hops'⟩ := ih hrs
    exact ⟨ops ++ ops', by rw [List.map_append], hops.append hops'⟩

theorem indexed_restoreKey (httl : ttl < 2 ^ 63) {data : Bytes}
    (h : restoreKey q.pre q.key.bytes data ttl = .ok (kind, batch)) :
    ∃ ops, batch = ops.map BatchEntry.op ∧ Indexed q ops := by
  obtain ⟨⟨kind', records⟩, -, h⟩ := bind_eq_ok.mp h
  replace h : (if kind' = kindString then _ else _) = Except.ok (kind, batch) := h
  split at h
  · split at h
    · cases h
    · next r _ =>
      split at h
      · next hpos =>
        cases h
        refine ⟨_, ?_, indexed_root (.inl httl) kindStringTtl r.value⟩
        rw [setTtlEntries_new, if_pos hpos, if_pos hpos]
        rfl
      · cases h
        refine ⟨[.put (stringKey q.pre q.key.bytes) r.value], rfl, indexed_single ?_ _⟩
        simp only [stringKey, List.length_append]
        omega
  · split at h
    · cases h
    · next fam _ =>
      obtain ⟨b, hrs, h⟩ := bind_eq_ok.mp h
      cases h
      exact indexed_restoreRecords httl hrs

theorem Indexed.get_isSome (h : Indexed q ops) (store : Store) {x v : Bytes}
    (hput : .put x v ∈ ops) : ((store.write ops).get x).isSome := by
  rw [SortedMap.get_write]
  cases hl : lastWrite x ops with
  | none => exact absurd rfl (lastWrite_eq_none.mp hl _ hput)
  | some r =>
    obtain ⟨op, hop, -, rfl⟩ := exists_of_lastWrite hl
    exact h.puts op hop

theorem Indexed.get_write (h : Indexed q ops) (store : Store) (x : Bytes) :
    (store.write ops).get x = ((empty.write ops : Store).get x).or (store.get x) := by
  rw [SortedMap.get_write, SortedMap.get_write]
  cases hl : lastWrite x ops with
  | none => rfl
  | some r =>
    obtain ⟨op, hop, -, rfl⟩ := exists_of_lastWrite hl
    obtain ⟨v, hv⟩ := isSome_iff_exists.mp (h.puts op hop)
    rw [hv]
    rfl

theorem parseDec_lt {bound n : Nat} {b : Bytes} (h : parseDec bound b = some n) : n < bound := by
  unfold parseDec at h
  dsimp only at h
  generalize (if b.head? = some 0x2b then b.tail else b) = ds at h
  split at h
  · next hc => exact some.inj h ▸ hc.2.2
  · cases h

theorem parseTtl_lt {arg : Bytes} {t : Nat} (h : parseTtl arg = some t) : t < 2 ^ 63 := by
  obtain ⟨z, hz, ht⟩ := bind_eq_some_iff.mp h
  split at ht
  · have hlt : z < 2 ^ 63 := by
      unfold Ddl.parseI64 at hz
      split at hz
      · split at hz
        · cases hz
        · obtain ⟨n, -, rfl⟩ := map_eq_some_iff.mp hz
          omega
      · obtain ⟨n, hn, rfl⟩ := map_eq_some_iff.mp hz
        have := parseDec_lt hn
        show (n : Int) < 2 ^ 63
        omega
    have hnat := some.inj ht
    omega
  · cases ht

variable {k : UserKey}

theorem restore_eq_ok {store after : Store} {now : Nat} {race : Race} {ttlArg payload : Bytes}
    {options : List Bytes} (h : restore store k now race (ttlArg :: payload :: options) = .ok after) :
    ∃ ops : List WriteOp, Indexed k.home ops ∧ after = commit race store k now (ops.map .op) ∧
      content k ttlArg payload = empty.write ops := by
  rw [restore] at h
  cases httl : parseTtl ttlArg with
  | none =>
    rw [httl] at h
    cases h
  | some ttl =>
    rw [httl] at h
    cases hopt : parseOptions options with
    | none =>
      rw [hopt] at h
      cases h
    | some replace =>
      rw [hopt] at h
      dsimp only at h
      split at h
      · cases h
      · cases hkey : restoreKey k.pre k.bytes payload ttl with
        | error e =>
          rw [hkey] at h
          cases h
        | ok r =>
          obtain ⟨kind, batch⟩ := r
          rw [hkey] at h
          obtain ⟨ops, rfl, hops⟩ := indexed_restoreKey (q := k.home) (parseTtl_lt httl) hkey
          refine ⟨ops, hops, (Except.ok.inj h).symm, ?_⟩
          rw [content, httl, map_some, hkey]
          exact batchWrite_ops .empty ops

theorem Indexed.purge_stale (h : Indexed k.home ops) {after : Store} (hkind : kind ∈ recordKinds)
    (hroot : after.get (k.home.data kind) =
      (empty.write ops : Store).get (k.home.data kind)) {d now : Nat}
    (hindex : (empty.write ops : Store).get (k.home.index d kind) = none)
    {purge : Expiry.Purge} (hpurge : Expiry.decideActive after now k.pre
      ((k.home.data kind).drop k.pre.length) d = some purge) : purge.root = none := by
  have hdata : k.pre ++ (k.home.data kind).drop k.pre.length = k.home.data kind := by
    rw [show k.pre = k.home.pre from rfl, Place.drop_data]
    rfl
  obtain ⟨family, -, hdecide⟩ := bind_eq_some_iff.mp hpurge
  dsimp only at hdecide
  rw [hdata] at hdecide
  cases hget : after.get (k.home.data kind) with rw [hget] at hdecide
  | none =>
    exact some.inj hdecide ▸ rfl
  | some v =>
    dsimp only at hdecide
    split at hdecide
    · next hdue =>
      obtain ⟨rfl, hexp⟩ := hdue
      have hpos : 0 < (decodeEnvelope v).1 := by
        rw [isExpired, Bool.and_eq_true, decide_eq_true_iff] at hexp
        exact Nat.pos_of_ne_zero hexp.1
      rw [hget, SortedMap.get_write] at hroot
      cases hl : lastWrite (k.home.data kind) ops with rw [hl] at hroot
      | none =>
        cases hroot
      | some r =>
        obtain ⟨op, hop, hkey, hval⟩ := exists_of_lastWrite hl
        cases op with
        | del x =>
          rw [← hval] at hroot
          cases hroot
        | put x w =>
          obtain rfl : x = k.home.data kind := hkey
          obtain rfl : v = w := some.inj (hroot.trans hval.symm)
          have := h.get_isSome .empty (h.index kind hkind v hop hpos)
          rw [hindex] at this
          cases this
    · exact some.inj hdecide ▸ rfl

/-! ## The purge of a due value -/

theorem dueFamily_spec {store : Store} {now : Nat} {family : CodecFamily}
    (h : dueFamily store k now = some family) :
    family ∈ families ∧ ∃ old, store.get (k.data family.1) = some old ∧
      spawned store k now = some
        { root := some (k.data family.1), expire := (decodeEnvelope old).1, checked := false
          batch := familyDeleteEntries (some store) k.pre family k.bytes (decodeEnvelope old).1 } := by
  have hdue := h
  unfold dueFamily resolveWith at h
  cases hraw : store.get (stringKey k.pre k.bytes) with
  | some value =>
    rw [hraw] at h
    cases h
  | none =>
    rw [hraw] at h
    cases hfirst : firstRoot store k.pre k.bytes with
    | none =>
      rw [hfirst] at h
      cases h
    | some root =>
      obtain ⟨kind, e, payload⟩ := root
      rw [hfirst] at h
      dsimp only at h
      split at h
      · next hexp =>
        obtain ⟨kind', hkind, hmap⟩ := List.exists_of_findSome?_eq_some hfirst
        obtain ⟨old, hold, heq⟩ := map_eq_some_iff.mp hmap
        obtain ⟨rfl, henv⟩ := Prod.mk.inj heq
        obtain ⟨last, hfam, -⟩ := familyOf_root kind' hkind
        obtain rfl : (kind', last) = family := some.inj (hfam.symm.trans h)
        refine ⟨Expiry.mem_families _ (List.mem_filterMap.mpr ⟨kind', hkind, hfam⟩), old, hold, ?_⟩
        have hlazy : lazyPurgeBatch store k.pre (kind', last) k.bytes now = _ :=
          congrArg (Option.bind · _) hold
        rw [spawned, hdue, bind_some, Expiry.decideLazy, show k.home.pre = k.pre from rfl,
          show k.home.key = k from rfl, hlazy]
        dsimp only [bind_some]
        rw [if_pos (by rw [henv]; exact hexp)]
        rfl
      · cases h

variable {store : Store} {now : Nat} {race : Race}

theorem get_purge_none (h : dueFamily store k now = none) (s : Store) :
    purge (spawned store k now) s = s ∧ stillDue (spawned store k now) s = false := by
  rw [spawned, h]
  exact ⟨rfl, rfl⟩

open Classical in
/-- What the records of the key are in the end, by what lands and when. -/
theorem get_commit (hops : Indexed k.home ops) {n : Part} (hn : n.Valid) :
    (commit race store k now (ops.map .op)).get (k.home.record n) =
      if Lands race k now (empty.write ops) store ∧ race ≠ .before ∧
          ∃ family ∈ dueFamily store k now, n.Taken store k.home family then none
      else ((empty.write ops : Store).get (k.home.record n)).or
        (if Lands race k now (empty.write ops) store ∧
          ∃ family ∈ dueFamily store k now, n.Taken store k.home family then none
        else store.get (k.home.record n)) := by
  have hwrite : ∀ s x, (batchWrite s (ops.map .op)).get x =
      ((empty.write ops : Store).get x).or (s.get x) := fun s x => by
    rw [batchWrite_ops, hops.get_write]
  cases hdue : dueFamily store k now with
  | none =>
    have hsame : (commit race store k now (ops.map .op)) = batchWrite store (ops.map .op) := by
      cases race <;> simp [commit, get_purge_none hdue]
    simp [hsame, hwrite]
  | some family =>
    obtain ⟨hfam, old, hold, hspawn⟩ := dueFamily_spec hdue
    have hpurge : ∀ s, (purge (spawned store k now) s).get (k.home.record n) =
        if n.Taken store k.home family then none else s.get (k.home.record n) := by
      intro s
      rw [hspawn]
      refine ((deletesOnly_familyDeleteEntries _ _ _ _ _).get s _).trans ?_
      exact if_congr (deletes_own_iff (p := k.home) hfam hn) rfl rfl
    have hmem : (∃ f ∈ some family, n.Taken store k.home f) ↔ n.Taken store k.home family := by simp
    simp only [hmem]
    cases race with
    | pending => simp [commit, Lands, hwrite]
    | before => simp [commit, Lands, hwrite, hpurge]
    | across => by_cases ht : n.Taken store k.home family <;> simp [commit, Lands, hwrite, hpurge, ht]
    | after =>
      have hstill : stillDue (spawned store k now) (batchWrite store (ops.map .op)) ↔
          SameDeadline k now (empty.write ops) store := by
        rw [hspawn, SameDeadline, hdue]
        simp only [stillDue, Option.any_some, Expiry.revalidateExpire, hwrite, hold, mem_def, some.injEq,
          exists_eq_left', any_eq_true, beq_iff_eq]
      by_cases hs : SameDeadline k now (empty.write ops) store
      · by_cases ht : n.Taken store k.home family <;>
          simp [commit, Lands, hwrite, hpurge, hstill, hs, ht]
      · simp [commit, Lands, hwrite, hstill, hs]

theorem restore_replaces_iff {store after : Store} {k : UserKey} {now : Nat} {race : Race}
    {ttlArg payload : Bytes} {options : List Bytes}
    (h : restore store k now race (ttlArg :: payload :: options) = .ok after) :
    Replaced k (content k ttlArg payload) store after ↔
      Covered race k now (content k ttlArg payload) store := by
  obtain ⟨ops, hops, rfl, hcontent⟩ := restore_eq_ok h
  rw [hcontent]
  constructor
  · intro hrep
    refine ⟨fun n hn hold hleft => ?_, fun hlands hrace family hdue n hn htaken => ?_⟩
    · have hpart := hrep.part n hn
      have hstay : ¬ (Lands race k now (empty.write ops) store ∧
          ∃ family ∈ dueFamily store k now, n.Taken store k.home family) := by
        rintro ⟨hlands, family, hdue, htaken⟩
        cases htaken.1.symm.trans (hleft hlands family hdue)
      rw [get_commit hops hn, if_neg fun hc => hstay ⟨hc.1, hc.2.2⟩, if_neg hstay] at hpart
      cases hnew : (empty.write ops : Store).get (k.home.record n) with
      | some v => rfl
      | none =>
        rw [hnew, none_or] at hpart
        rw [hpart] at hold
        cases hold
    · have hpart := hrep.part n hn
      rw [get_commit hops hn, if_pos ⟨hlands, hrace, family, hdue, htaken⟩] at hpart
      exact hpart.symm
  · intro hcov
    have hpart : ∀ n : Part, n.Valid → (commit race store k now (ops.map .op)).get (k.home.record n) =
        (empty.write ops : Store).get (k.home.record n) := by
      intro n hn
      rw [get_commit hops hn]
      split
      · next hlate =>
        obtain ⟨hlands, hrace, family, hdue, htaken⟩ := hlate
        exact (hcov.new hlands hrace family hdue n hn htaken).symm
      · cases hnew : (empty.write ops : Store).get (k.home.record n) with
        | some v => rfl
        | none =>
          rw [none_or]
          split
          · rfl
          · next hstay =>
            by_contra hne
            have hold := isSome_iff_ne_none.mpr hne
            have := hcov.old n hn hold fun hlands family hdue => by
              by_contra hin
              exact hstay ⟨hlands, family, hdue, Bool.eq_true_of_not_eq_false hin, fun _ _ _ => hold⟩
            rw [hnew] at this
            cases this
    refine ⟨hpart, fun kind hkind d hd _ hindex now purge hpurge => ?_⟩
    have hroot := hpart (.elem kind []) hkind
    rw [Place.record_root] at hroot
    exact hops.purge_stale hkind hroot hindex hpurge

def heldKey : UserKey := ⟨[0x6b], by decide⟩

/-- A hash without a deadline and with one field. -/
def sampleRecords (fld value : Bytes) : List (Bytes × Bytes) :=
  [(heldKey.data kindHashMeta, encodeEnvelope 0 (encodeCount 1)),
    (heldKey.elem kindHashFld fld, value)]

def samplePayload : Bytes :=
  encodeDump kindHashMeta ((sampleRecords [0x66] [0x32]).map fun e => ⟨e.1.drop heldKey.pre.length, e.2⟩)

/-- A string with the deadline 5, at 10. -/
def sampleDue : Store := batchWrite .empty (writeStringRecord heldKey [0x76] 5)

/-- The purge of the string that is due comes before the payload. -/
theorem restore_replaces_due_string :
    ∃ after, restore sampleDue heldKey 10 .before [[0x30], samplePayload, replaceOption] = .ok after ∧
      Replaced heldKey (content heldKey [0x30] samplePayload) sampleDue after := by
  refine exists_ok (P := fun _ => True) (by decide +kernel) fun after h _ =>
    (restore_replaces_iff h).mpr ⟨fun n hn hold hleft => ?_, fun _ hne => absurd rfl hne⟩
  have hdue : dueFamily sampleDue heldKey 10 = some stringFamily := by decide +kernel
  have hentries : sampleDue.entries = [(heldKey.home.record (.elem kindStringTtl []), encodeEnvelope 5 [0x76]),
      (heldKey.home.index 5 kindStringTtl, [])] := by decide +kernel
  obtain ⟨v, hv⟩ := isSome_iff_exists.mp hold
  have hmem := SortedMap.get_eq_some.mp hv
  rw [hentries] at hmem
  have hvalid : (Part.elem kindStringTtl []).Valid := (by decide : kindStringTtl ∈ recordKinds)
  rcases List.mem_cons.mp hmem with heq | hmem
  · -- the string itself is of the family that is purged
    obtain rfl := Place.record_inj hn hvalid (Prod.mk.inj heq).1
    cases hleft (.inl rfl) stringFamily hdue
  · exact absurd (Prod.mk.inj (List.mem_singleton.mp hmem)).1.symm (Place.index_ne_record hn 5 kindStringTtl)

/-- A raw string stays, and the key still reads as it. -/
theorem restore_keeps_raw_string :
    ∃ after, restore (.ofList [(heldKey.raw, [0x76])]) heldKey 0 .pending
        [[0x30], samplePayload, replaceOption] = .ok after ∧
      ¬ Replaced heldKey (content heldKey [0x30] samplePayload)
        (.ofList [(heldKey.raw, [0x76])]) after := by
  refine exists_ok (P := fun after => after.get heldKey.raw = some [0x76]) (by decide +kernel)
    fun after _ hraw hrep => ?_
  have hpart := hrep.part .raw trivial
  rw [show after.get (heldKey.home.record .raw) = some [0x76] from hraw] at hpart
  cases hpart

end Rdb.Command.Restore
