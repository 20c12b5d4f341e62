import Rdb.Ds.Dump

/-!
# What a dump carries to another place

A dump of a typed key is a list of its parts with their values, the root first
(`dumpRecords_eq`), and a restore writes each part at the target (`restoreRecords_eq`).
Every part that ends with the name is written as a root, whatever its kind, so an element
with an empty name gets an envelope and an index entry of its own.

* `get_restored`: what is stored at the target, part by part.
* `restore_dump_reproduces_iff`: the target is the source if and only if the values of the
  elements with an empty name read as envelopes without a deadline.
-/

namespace Rdb.Ds.Dump

open Lib Command List SortedMap
open BatchEntry (op)
open Option (some or_none map_some)

/-! ## What a dump carries -/

def carriedKinds (kind : UInt8) : List UInt8 :=
  (familyOf kind).elim [] fun family =>
    familyKinds family ++ if family = streamFamily then [kindStreamOffset] else []

def Carried (kind : UInt8) : Part → Prop
  | .raw => kind = kindString
  | .elem k _ => k ∈ carriedKinds kind
  | .row _ _ => kind = kindStreamMeta

instance (kind : UInt8) : DecidablePred (Carried kind)
  | .raw | .elem _ _ | .row _ _ => by unfold Carried; infer_instance

theorem carriedKinds_subset : ∀ kind ∈ metaKinds, ∀ k ∈ carriedKinds kind, k ∈ recordKinds := by
  decide +kernel

theorem kind_mem_carriedKinds : ∀ kind ∈ metaKinds, kind ∈ carriedKinds kind := by decide +kernel

theorem familyOf_root : ∀ kind ∈ metaKinds, ∃ last, familyOf kind = some (kind, last) ∧
    familyKinds (kind, last) = kind :: (familyKinds (kind, last)).tail ∧
    ((kind, last) = streamFamily ↔ kind = kindStreamMeta) := by
  have h : ∀ kind ∈ metaKinds, ∃ f ∈ familyOf kind, f.1 = kind ∧
      familyKinds f = kind :: (familyKinds f).tail ∧ (f = streamFamily ↔ kind = kindStreamMeta) := by
    decide +kernel
  intro kind hk
  obtain ⟨⟨fst, last⟩, hf, rfl, hcons, hstream⟩ := h kind hk
  exact ⟨last, hf, hcons, hstream⟩

/-- The rows of a stream are as `delayRowKey` writes them, with nothing behind them. -/
def RowsExact (store : Store) (p : Place) : Prop :=
  ∀ e ∈ store.entries, p.pre <+: e.1 → ∀ d ∈ decodeDelayRowKey e.1 p.pre.length,
    d.2.1 = p.key.bytes → e.1 = delayRowKey p.pre d.1 p.key.bytes d.2.2
  deriving Decidable

def partRecord (key : Bytes) (x : Part × Bytes) : Record := ⟨x.1.body key, x.2⟩

variable {store : Store} {p q : Place}

theorem drop_record (n : Part) : (p.record n).drop p.pre.length = n.body p.key.bytes := drop_left

theorem kindWindow_eq (store : Store) (p : Place) (kind : UInt8) :
    kindWindow store p.pre kind p.key.bytes =
      (store.entries.filter fun e => decide (p.data kind <+: e.1)).map
        fun e => ⟨e.1.drop p.pre.length, e.2⟩ := by
  unfold kindWindow
  rw [← filterMap_eq_map]
  refine store.collect_prefix fun acc k v hle => ?_
  exact (if_congr (upper_le_iff hle) rfl rfl).trans (ite_not ..)

variable {kind : UInt8} {r : Record}

theorem mem_kindWindow :
    r ∈ kindWindow store p.pre kind p.key.bytes ↔
      ∃ s, store.get (p.record (.elem kind s)) = some r.value ∧
        r = partRecord p.key.bytes (.elem kind s, r.value) := by
  rw [kindWindow_eq, mem_map]
  simp only [mem_filter, decide_eq_true_eq, Place.data_isPrefix_iff]
  constructor
  · rintro ⟨e, ⟨hmem, s, hs⟩, rfl⟩
    refine ⟨s, hs ▸ mem_entries.mp hmem, ?_⟩
    rw [hs, drop_record]
    rfl
  · rintro ⟨s, hget, hr⟩
    refine ⟨_, ⟨get_eq_some.mp hget, s, rfl⟩, ?_⟩
    rw [drop_record]
    exact hr.symm

variable {root : Bytes}

theorem head_kindWindow (hroot : store.get (p.data kind) = some root) :
    (kindWindow store p.pre kind p.key.bytes).head? =
      some (partRecord p.key.bytes (.elem kind [], root)) := by
  rw [kindWindow_eq]
  have hmem : (p.data kind, root) ∈ store.entries.filter fun e => decide (p.data kind <+: e.1) :=
    mem_filter.mpr ⟨get_eq_some.mp hroot, decide_eq_true (prefix_refl _)⟩
  have hsorted := store.sorted.filter fun e => decide (p.data kind <+: e.1)
  cases hl : store.entries.filter fun e => decide (p.data kind <+: e.1) with
  | nil =>
    rw [hl] at hmem
    cases hmem
  | cons e l =>
    have he := hl ▸ mem_cons_self
    have hle : p.data kind ≤ e.1 := le_of_isPrefix (of_decide_eq_true (mem_filter.mp he).2)
    rw [hl] at hmem hsorted
    rcases mem_cons.mp hmem with rfl | hlater
    · rw [map_cons, ← p.record_root, drop_record]
      rfl
    · exact absurd ((pairwise_cons.mp hsorted).1 _ hlater) (not_lt.mpr hle)

theorem decodeDelayRowKey_append (pre body : Bytes) :
    decodeDelayRowKey (pre ++ body) pre.length = decodeDelayRowKey body 0 := by
  unfold decodeDelayRowKey
  rw [drop_left, drop_zero]

theorem ofBe_take_lt (b : Bytes) : ofBe (b.take 8) < 2 ^ 64 := by
  calc ofBe (b.take 8) < 256 ^ (b.take 8).length := ofBe_lt _
    _ ≤ 256 ^ 8 := Nat.pow_le_pow_right (by decide) (length_take_le 8 b)

variable {x : Bytes}

theorem valid_of_decodeDelayRowKey {len : Nat} {d : Nat × Bytes × Nat × Nat}
    (h : d ∈ decodeDelayRowKey x len) : (Part.row d.1 d.2.2).Valid := by
  rw [decodeDelayRowKey] at h
  split at h
  · cases h
  · dsimp only at h
    split at h
    · cases h
    · cases h
      exact ⟨ofBe_take_lt _, ofBe_take_lt _, ofBe_take_lt _⟩

theorem delay_window_iff (pre x : Bytes) :
    pre ++ [kindStreamDelay] ≤ x ∧ x < pre ++ [kindStreamDelay + 1] ↔
      pre ++ [kindStreamDelay] <+: x :=
  mem_range_iff (keyUpperBound_concat pre (by decide))

theorem collect_delayRows {β : Type} (store : Store) (pre key : Bytes) (g : Bytes × Bytes → β) :
    store.forEachFrom (pre ++ [kindStreamDelay]) false (fun acc k v =>
      if pre ++ [kindStreamDelay + 1] ≤ k then (acc, false)
      else if (decodeDelayRowKey k pre.length).any (·.2.1 = key) then (acc ++ [g (k, v)], true)
      else (acc, true)) [] =
    ((store.entries.filter fun e => decide (pre ++ [kindStreamDelay] <+: e.1)).filter fun e =>
      (decodeDelayRowKey e.1 pre.length).any (·.2.1 = key)).map g := by
  rw [← filterMap_eq_map, filterMap_filter]
  refine store.collect_prefix fun acc k v hle => ?_
  have hupper : pre ++ [kindStreamDelay + 1] ≤ k ↔ ¬ pre ++ [kindStreamDelay] <+: k := by
    rw [← delay_window_iff, and_iff_right hle, not_lt]
  refine (if_congr hupper rfl ?_).trans (ite_not ..)
  split <;> simp [*]

theorem mem_delayRows (hrows : RowsExact store p) :
    r ∈ delayRows store p.pre p.key.bytes ↔
      ∃ due locked, (Part.row due locked).Valid ∧
        store.get (p.record (.row due locked)) = some r.value ∧
        r = partRecord p.key.bytes (.row due locked, r.value) := by
  have hscan : delayRows store p.pre p.key.bytes = _ :=
    collect_delayRows store p.pre p.key.bytes fun e => Record.mk (e.1.drop p.pre.length) e.2
  rw [hscan, mem_map]
  simp only [mem_filter, decide_eq_true_eq]
  constructor
  · rintro ⟨e, ⟨⟨hmem, t, ht⟩, hany⟩, rfl⟩
    obtain ⟨d, hd, hname⟩ := (Option.any_eq_true _ _).mp hany
    have hpre : p.pre <+: e.1 := ⟨[kindStreamDelay] ++ t, by rw [← append_assoc, ht]⟩
    have hrow := hrows e hmem hpre d hd (of_decide_eq_true hname)
    rw [← Place.record_row] at hrow
    refine ⟨d.1, d.2.2, valid_of_decodeDelayRowKey hd, hrow ▸ mem_entries.mp hmem, ?_⟩
    rw [hrow, drop_record]
    rfl
  · rintro ⟨due, locked, hvalid, hget, hr⟩
    refine ⟨_, ⟨⟨get_eq_some.mp hget, ?_⟩, ?_⟩, ?_⟩
    · exact ⟨_, by rw [append_assoc]; rfl⟩
    · rw [Place.record, decodeDelayRowKey_append, Part.decode_row p.key hvalid]
      simp
    · rw [drop_record]
      exact hr.symm

def familyRecords (store : Store) (p : Place) (kind last : UInt8) : List Record :=
  (familyKinds (kind, last)).flatMap (kindWindow store p.pre · p.key.bytes) ++
    if (kind, last) = streamFamily then
      kindWindow store p.pre kindStreamOffset p.key.bytes ++ delayRows store p.pre p.key.bytes
    else []

theorem mem_familyRecords {last : UInt8} (hfam : familyOf kind = some (kind, last))
    (hkind : kind ∈ metaKinds) (hstream : (kind, last) = streamFamily ↔ kind = kindStreamMeta)
    (hrows : kind = kindStreamMeta → RowsExact store p) :
    r ∈ familyRecords store p kind last ↔
      ∃ n, n.Valid ∧ Carried kind n ∧ store.get (p.record n) = some r.value ∧
        r = partRecord p.key.bytes (n, r.value) := by
  have hkinds : carriedKinds kind = familyKinds (kind, last) ++
      if (kind, last) = streamFamily then [kindStreamOffset] else [] := by
    rw [carriedKinds, hfam, Option.elim_some]
  have helem : (∃ k ∈ carriedKinds kind, r ∈ kindWindow store p.pre k p.key.bytes) ↔
      ∃ k s, (Part.elem k s).Valid ∧ Carried kind (.elem k s) ∧
        store.get (p.record (.elem k s)) = some r.value ∧
          r = partRecord p.key.bytes (.elem k s, r.value) := by
    constructor
    · rintro ⟨k, hk, hr⟩
      obtain ⟨s, hget, hr⟩ := mem_kindWindow.mp hr
      exact ⟨k, s, carriedKinds_subset kind hkind k hk, hk, hget, hr⟩
    · rintro ⟨k, s, -, hk, hget, hr⟩
      exact ⟨k, hk, mem_kindWindow.mpr ⟨s, hget, hr⟩⟩
  have hsplit : r ∈ familyRecords store p kind last ↔
      (∃ k ∈ carriedKinds kind, r ∈ kindWindow store p.pre k p.key.bytes) ∨
        kind = kindStreamMeta ∧ r ∈ delayRows store p.pre p.key.bytes := by
    rw [familyRecords, hkinds, mem_append, mem_flatMap, ← hstream]
    by_cases hs : (kind, last) = streamFamily
    · rw [if_pos hs, if_pos hs]
      simp only [mem_append, mem_singleton, or_and_right, exists_or, exists_eq_left, hs,
        true_and, or_assoc]
    · simp [hs]
  rw [hsplit, helem]
  constructor
  · rintro (⟨k, s, h⟩ | ⟨hk, hr⟩)
    · exact ⟨_, h⟩
    · obtain ⟨due, locked, hvalid, hget, hr⟩ := (mem_delayRows (hrows hk)).mp hr
      exact ⟨_, hvalid, hk, hget, hr⟩
  · rintro ⟨n, hvalid, hcarried, hget, hr⟩
    cases n with
    | raw =>
      obtain rfl : kind = kindString := hcarried
      exact absurd hkind (by decide)
    | elem k s => exact .inl ⟨k, s, hvalid, hcarried, hget, hr⟩
    | row due locked =>
      exact .inr ⟨hcarried, (mem_delayRows (hrows hcarried)).mpr ⟨due, locked, hvalid, hget, hr⟩⟩

theorem dumpRecords_eq (hkind : kind ∈ metaKinds) (hroot : store.get (p.data kind) = some root)
    (hrows : kind = kindStreamMeta → RowsExact store p) (payload : Bytes) :
    ∃ parts : List (Part × Bytes),
      dumpRecords store p.pre p.key.bytes kind payload = (parts.map (partRecord p.key.bytes)) ∧
      parts.head? = some (.elem kind [], root) ∧
      ∀ n v, (n, v) ∈ parts ↔ n.Valid ∧ Carried kind n ∧ store.get (p.record n) = some v := by
  obtain ⟨last, hfam, hcons, hstream⟩ := familyOf_root kind hkind
  have hmem := fun r => mem_familyRecords (r := r) hfam hkind hstream hrows
  have hhead : (familyRecords store p kind last).head? =
      some (partRecord p.key.bytes (.elem kind [], root)) := by
    rw [familyRecords, hcons, flatMap_cons, append_assoc, head?_append, head_kindWindow hroot]
    rfl
  have hdump : dumpRecords store p.pre p.key.bytes kind payload = familyRecords store p kind last := by
    rw [dumpRecords, hfam, Option.getD_some]
    refine if_neg fun hnil => ?_
    rw [familyRecords, hnil] at hhead
    cases hhead
  -- the parts behind the root, one for each record
  have hparts : ∀ records : List Record, (∀ r ∈ records, r ∈ familyRecords store p kind last) →
      ∃ parts : List (Part × Bytes), records = parts.map (partRecord p.key.bytes) ∧
        ∀ x ∈ parts, x.1.Valid ∧ Carried kind x.1 ∧ store.get (p.record x.1) = some x.2 := by
    intro records
    induction records with
    | nil => exact fun _ => ⟨[], rfl, nofun⟩
    | cons r rs ih =>
      intro h
      obtain ⟨parts, hrs, hall⟩ := ih fun r' hr' => h r' (mem_cons_of_mem _ hr')
      obtain ⟨n, hvalid, hcarried, hget, hr⟩ := (hmem r).mp (h r mem_cons_self)
      refine ⟨(n, r.value) :: parts, by rw [map_cons, ← hr, ← hrs], ?_⟩
      rintro x (_ | ⟨_, hx⟩)
      · exact ⟨hvalid, hcarried, hget⟩
      · exact hall x hx
  obtain ⟨parts, heq, hall⟩ := hparts _ fun r hr => hr
  refine ⟨parts, hdump.trans heq, ?_, fun n v => ⟨fun h => hall _ h, ?_⟩⟩
  · cases parts with
    | nil =>
      rw [heq] at hhead
      cases hhead
    | cons x parts =>
      rw [heq, map_cons, head?_cons, some.injEq] at hhead
      obtain ⟨hbody, hvalue⟩ := Record.mk.inj hhead
      have hroot' : (Part.elem kind []).Valid :=
        carriedKinds_subset kind hkind kind (kind_mem_carriedKinds kind hkind)
      exact congrArg some (Prod.ext
        (Part.body_inj (hall x mem_cons_self).1 hroot' hbody) hvalue)
  · rintro ⟨hvalid, hcarried, hget⟩
    have hr : partRecord p.key.bytes (n, v) ∈ familyRecords store p kind last :=
      (hmem _).mpr ⟨n, hvalid, hcarried, hget, rfl⟩
    rw [heq] at hr
    obtain ⟨x, hx, heqr⟩ := mem_map.mp hr
    obtain ⟨hbody, hvalue⟩ := Record.mk.inj heqr
    have hn := Part.body_inj (hall x hx).1 hvalid hbody
    exact Prod.ext hn hvalue ▸ hx

/-! ## What a restore writes -/

/-- The deadline of a record that is written as a root. -/
def deadlineOf (ttl : Nat) (value : Bytes) : Nat :=
  if 0 < ttl then ttl else (decodeEnvelope value).1

def restoredValue (ttl : Nat) : Part → Bytes → Bytes
  | .elem _ [], v => encodeEnvelope (deadlineOf ttl v) (decodeEnvelope v).2
  | _, v => v

def restoredIndex (q : Place) (ttl : Nat) : Part → Bytes → List WriteOp
  | .elem kind [], v =>
    if 0 < deadlineOf ttl v then [.put (q.index (deadlineOf ttl v) kind) []] else []
  | _, _ => []

def partPuts (q : Place) (ttl : Nat) (x : Part × Bytes) : List WriteOp :=
  .put (q.record x.1) (restoredValue ttl x.1 x.2) :: restoredIndex q ttl x.1 x.2

theorem setTtlEntries_new (pre pk : Bytes) (deadline : Nat) :
    setTtlEntries pre pk 0 deadline =
      if 0 < deadline then [.put (expireIndexKey pre deadline pk) []] else [] := by
  rw [setTtlEntries, if_neg fun h => lt_irrefl 0 h.2, nil_append]

theorem restoreRoot_eq (kind : UInt8) (v : Bytes) (ttl : Nat) :
    restoreRoot q.pre (q.data kind) v ttl =
      (partPuts q ttl (.elem kind [], v)).map op := by
  have hroot : restoreRoot q.pre (q.data kind) v ttl =
      .put (q.data kind) (encodeEnvelope (deadlineOf ttl v) (decodeEnvelope v).2) ::
        setTtlEntries q.pre (q.data kind) 0 (deadlineOf ttl v) := rfl
  rw [hroot, setTtlEntries_new, partPuts, restoredIndex, q.record_root]
  split <;> rfl

theorem familyOf_carried : ∀ kind ∈ metaKinds, ∀ k ∈ carriedKinds kind,
    familyOf k = familyOf kind ∨ familyOf kind = some streamFamily ∧ k = kindStreamOffset := by
  decide +kernel

variable {n : Part} {fam : CodecFamily} {first : Bool}

theorem restoreRecord_part (hkind : kind ∈ metaKinds) (hfam : familyOf kind = some fam)
    (hvalid : n.Valid) (hcarried : Carried kind n) (hfirst : first → ∃ s, n = .elem kind s)
    (ttl : Nat) (v : Bytes) :
    restoreRecord q.pre q.key.bytes ttl kind fam first (partRecord p.key.bytes (n, v)) =
      .ok ((partPuts q ttl (n, v)).map op) := by
  cases n with
  | raw =>
    obtain rfl : kind = kindString := hcarried
    exact absurd hkind (by decide)
  | row due locked =>
    obtain rfl : kind = kindStreamMeta := hcarried
    obtain rfl : streamFamily = fam := some.inj hfam
    cases first with
    | true =>
      obtain ⟨s, hs⟩ := hfirst rfl
      cases hs
    | false =>
      have hdecode := Part.decode_row p.key hvalid
      have hbody : (partRecord p.key.bytes (.row due locked, v)).body =
          kindStreamDelay :: ((Part.row due locked).body p.key.bytes).tail := rfl
      rw [restoreRecord, hbody]
      dsimp only
      rw [← hbody]
      simp only [partRecord, hdecode]
      rfl
  | elem k s =>
    have hdelay : (!first && decide (fam = streamFamily) && decide (k = kindStreamDelay)) = false := by
      rw [decide_eq_false (Part.kind_ne_of_mem_recordKinds k hvalid).1, Bool.and_false]
    have hbody : (partRecord p.key.bytes (.elem k s, v)).body =
        k :: (beBytes 4 p.key.bytes.length ++ (p.key.bytes ++ s)) := by
      simp [partRecord, Part.body, elemKey, dataKey]
    have hok : ¬ (first ∧ k ≠ kind ∨
        familyOf k ≠ some fam ∧ ¬ (fam = streamFamily ∧ k = kindStreamOffset) ∨
        (p.key.bytes ++ s).length < p.key.bytes.length) := by
      rintro (⟨hf, hne⟩ | ⟨hne, hledger⟩ | hlen)
      · obtain ⟨s', hs'⟩ := hfirst hf
        cases hs'
        exact hne rfl
      · rcases familyOf_carried kind hkind k hcarried with h | ⟨h, hoff⟩
        · exact hne (h.trans hfam)
        · exact hledger ⟨some.inj (hfam.symm.trans h), hoff⟩
      · rw [length_append] at hlen
        omega
    rw [restoreRecord, hbody]
    dsimp only
    rw [hdelay, be32_append p.key.short]
    dsimp only
    rw [if_neg hok, drop_left]
    by_cases hs : s = []
    · subst hs
      rw [← q.record_elem, q.record_root, restoreRoot_eq]
      rfl
    · rw [← q.record_elem]
      cases s with
      | nil => exact absurd rfl hs
      | cons b s => rfl

variable {parts : List (Part × Bytes)}

theorem restoreRecords_eq (hkind : kind ∈ metaKinds) (hfam : familyOf kind = some fam) (ttl : Nat)
    (hall : ∀ x ∈ parts, x.1.Valid ∧ Carried kind x.1)
    (hfirst : first → ∀ x ∈ parts.head?, ∃ s, x.1 = .elem kind s) :
    restoreRecords q.pre q.key.bytes ttl kind fam first (parts.map (partRecord p.key.bytes)) =
      .ok ((parts.flatMap (partPuts q ttl)).map op) := by
  induction parts generalizing first with
  | nil => rfl
  | cons x parts ih =>
    obtain ⟨hvalid, hcarried⟩ := hall x mem_cons_self
    have hrest := ih (fun y hy => hall y (mem_cons_of_mem _ hy)) fun h => absurd h Bool.false_ne_true
    rw [map_cons, restoreRecords,
      restoreRecord_part hkind hfam hvalid hcarried (fun h => hfirst h x rfl) ttl x.2, hrest,
      flatMap_cons, map_append]
    rfl

variable {m : Part}

theorem lastWrite_restoredIndex_record (hn : n.Valid) (ttl : Nat) (v : Bytes) :
    lastWrite (q.record n) (restoredIndex q ttl m v) = none := by
  rw [lastWrite_eq_none]
  intro op hop
  unfold restoredIndex at hop
  split at hop
  · split at hop
    · obtain rfl := mem_singleton.mp hop
      exact Place.index_ne_record hn _ _
    · cases hop
  · cases hop

theorem lastWrite_partPuts_record (hn : n.Valid) (hm : m.Valid) (ttl : Nat) (v : Bytes) :
    lastWrite (q.record n) (partPuts q ttl (m, v)) =
      if m = n then some (some (restoredValue ttl m v)) else none := by
  rw [partPuts, lastWrite_cons, lastWrite_restoredIndex_record hn]
  by_cases h : m = n
  · rw [if_pos h, h]
    exact if_pos rfl
  · rw [if_neg h]
    exact if_neg fun he => h (Place.record_inj hm hn he)

variable {d : Nat} {v : Bytes} {ttl : Nat}

theorem lastWrite_partPuts_index (hm : m.Valid) (hd : d < 2 ^ 64) (hv : deadlineOf ttl v < 2 ^ 64)
    (kind : UInt8) :
    lastWrite (q.index d kind) (partPuts q ttl (m, v)) =
      if m = .elem kind [] ∧ 0 < d ∧ deadlineOf ttl v = d then some (some []) else none := by
  have hput : (BatchOp.put (q.record m) (restoredValue ttl m v)).key ≠ q.index d kind := fun he =>
    Place.index_ne_record hm d kind he.symm
  have hnone : (∀ k, m ≠ .elem k []) → restoredIndex q ttl m v = [] := by
    unfold restoredIndex
    split
    · exact fun h => absurd rfl (h _)
    · exact fun _ => rfl
  rw [partPuts, lastWrite_cons, if_neg hput, or_none]
  by_cases hroot : ∃ k, m = .elem k []
  · obtain ⟨k, rfl⟩ := hroot
    show lastWrite _ (if 0 < deadlineOf ttl v then [.put (q.index (deadlineOf ttl v) k) []] else []) = _
    by_cases hpos : 0 < deadlineOf ttl v
    · rw [if_pos hpos, lastWrite_cons, lastWrite_nil, Option.none_or, BatchOp.key_put,
        BatchOp.val_put]
      by_cases h : q.index (deadlineOf ttl v) k = q.index d kind
      · obtain ⟨hde, rfl⟩ := Place.index_inj hv hd h
        rw [if_pos h, if_pos ⟨rfl, hde ▸ hpos, hde⟩]
      · rw [if_neg h, if_neg]
        rintro ⟨hk, -, hde⟩
        cases hk
        exact h (by rw [hde])
    · rw [if_neg hpos, lastWrite_nil, if_neg]
      rintro ⟨-, hd0, hde⟩
      exact hpos (hde ▸ hd0)
  · rw [hnone fun k hk => hroot ⟨k, hk⟩, lastWrite_nil, if_neg]
    rintro ⟨hk, -⟩
    exact hroot ⟨kind, hk⟩

def IsParts (store : Store) (p : Place) (kind : UInt8) (parts : List (Part × Bytes)) : Prop :=
  ∀ n v, (n, v) ∈ parts ↔ n.Valid ∧ Carried kind n ∧ store.get (p.record n) = some v

variable {k : UInt8}

section

variable {kind : UInt8} {parts : List (Part × Bytes)} (hparts : IsParts store p kind parts)
  (before : Store) (ttl : Nat)

include hparts

theorem get_restored_record (hn : n.Valid) :
    (before.write (parts.flatMap (partPuts q ttl))).get (q.record n) =
      if Carried kind n then ((store.get (p.record n)).map (restoredValue ttl n)).or
        (before.get (q.record n))
      else before.get (q.record n) := by
  have hl : ∀ v, (n, v) ∈ parts ↔
      (if Carried kind n then store.get (p.record n) else none) = some v := by
    intro v
    rw [hparts n v, Option.ite_none_right_eq_some]
    exact and_iff_right hn
  have hf : ∀ x ∈ parts, lastWrite (q.record n) (partPuts q ttl x) =
      if x.1 = n then some (some (restoredValue ttl n x.2)) else none := by
    intro x hx
    rw [lastWrite_partPuts_record hn ((hparts x.1 x.2).mp hx).1]
    exact ite_congr rfl (fun h => by rw [h]) fun _ => rfl
  rw [get_write, lastWrite_flatMap_rows (g := some ∘ restoredValue ttl n) hl hf]
  split
  · cases store.get (p.record n) <;> rfl
  · rfl

theorem lastWrite_index (hd : d < 2 ^ 64) (hdeadline : ∀ x ∈ parts, deadlineOf ttl x.2 < 2 ^ 64)
    (k : UInt8) :
    ∀ x ∈ parts, lastWrite (q.index d k) (partPuts q ttl x) =
      if x.1 = .elem k [] ∧ 0 < d ∧ deadlineOf ttl x.2 = d then some (some []) else none :=
  fun x hx => lastWrite_partPuts_index ((hparts x.1 x.2).mp hx).1 hd (hdeadline x hx) k

theorem get_restored_index_of_mem (hd : d < 2 ^ 64)
    (hdeadline : ∀ x ∈ parts, deadlineOf ttl x.2 < 2 ^ 64) (hv : (Part.elem k [], v) ∈ parts)
    (hpos : 0 < d) (hdv : deadlineOf ttl v = d) :
    (before.write (parts.flatMap (partPuts q ttl))).get (q.index d k) = some [] := by
  have heach := lastWrite_index (q := q) hparts ttl hd hdeadline k
  rw [get_write, lastWrite_flatMap_of_forall hv ((heach _ hv).trans
    (if_pos ⟨rfl, hpos, hdv⟩)) fun x hx => ?_]
  · rfl
  · rw [heach x hx]
    split
    · exact .inr rfl
    · exact .inl rfl

theorem get_restored_index_of_forall (hd : d < 2 ^ 64)
    (hdeadline : ∀ x ∈ parts, deadlineOf ttl x.2 < 2 ^ 64)
    (h : ∀ v, (Part.elem k [], v) ∈ parts → 0 < d → deadlineOf ttl v ≠ d) :
    (before.write (parts.flatMap (partPuts q ttl))).get (q.index d k) = before.get (q.index d k) := by
  rw [get_write, lastWrite_flatMap_eq_none.mpr fun x hx => ?_]
  · rfl
  · rw [lastWrite_index hparts ttl hd hdeadline k x hx]
    refine if_neg fun hx' => h x.2 ?_ hx'.2.1 hx'.2.2
    rw [← hx'.1]
    exact hx

omit hparts in
theorem get_restored_frame (hrecord : ∀ y ∈ parts, x ≠ q.record y.1)
    (hindex : ∀ d k, x ≠ q.index d k) :
    (before.write (parts.flatMap (partPuts q ttl))).get x = before.get x := by
  refine get_write_of_not_mem fun op hop => ?_
  obtain ⟨y, hy, hop⟩ := mem_flatMap.mp hop
  rcases mem_cons.mp hop with rfl | hop
  · exact fun h => hrecord y hy h.symm
  · unfold restoredIndex at hop
    split at hop
    · split at hop
      · obtain rfl := mem_singleton.mp hop
        exact fun h => hindex _ _ h.symm
      · cases hop
    · cases hop

end

/-! ## The round trip -/

/-- A deadline that an envelope can hold: nine groups of seven bits, or the saturated one. -/
def Encodable (d : Nat) : Prop := d < 2 ^ 63 ∨ d = 2 ^ 64 - 1

theorem encodable_decodeEnvelope_go (value : Bytes) {expire : Nat} (hi : i ≤ 9)
    (h : expire < 2 ^ (7 * i)) : Encodable (decodeEnvelope.go i expire value).1 := by
  induction value generalizing i expire with
  | nil => exact .inl (Nat.pow_pos (by decide))
  | cons b rest ih =>
    rw [decodeEnvelope.go]
    by_cases h9 : 9 ≤ i
    · rw [if_pos h9]
      exact .inr rfl
    · have hgroup : (b &&& 0x7f).toNat < 0x80 := by
        exact Nat.lt_succ_of_le Nat.and_le_right
      have hnext : expire ||| ((b &&& 0x7f).toNat <<< (7 * i)) < 2 ^ (7 * (i + 1)) := by
        have hstep := (group_step (v := (b &&& 0x7f).toNat) h).1
        rw [or_shiftLeft h]
        rwa [Nat.mod_eq_of_lt hgroup] at hstep
      rw [if_neg h9]
      split
      · exact .inl (hnext.trans_le (Nat.pow_le_pow_right (by decide) (by omega)))
      · exact ih (by omega) hnext

theorem encodable_decodeEnvelope (value : Bytes) : Encodable (decodeEnvelope value).1 :=
  encodable_decodeEnvelope_go value (by decide) (by decide)

theorem decodeEnvelope_of_encodable (h : Encodable d) (payload : Bytes) :
    decodeEnvelope (encodeEnvelope d payload) = (d, payload) := by
  rcases h with h | rfl
  · exact decodeEnvelope_encodeEnvelope h payload
  · rfl

theorem decodeEnvelope_lt (value : Bytes) : (decodeEnvelope value).1 < 2 ^ 64 := by
  rcases encodable_decodeEnvelope value with h | h <;> omega

theorem deadlineOf_lt (h : ttl < 2 ^ 64) (value : Bytes) : deadlineOf ttl value < 2 ^ 64 := by
  unfold deadlineOf
  split
  · exact h
  · exact decodeEnvelope_lt value

/-- A live key as its writers leave it: an envelope at the root, rows without a rest, and no more
than the 32-bit fields of a dump hold. -/
structure Stored (store : Store) (p : Place) (now : Nat) : Prop where
  present : (resolveWith store p.pre p.key.bytes now).1.isPresent
  envelope : ∀ kind ∈ (resolveWith store p.pre p.key.bytes now).1.kind?, ∃ expireMs payload,
    expireMs < 2 ^ 63 ∧ store.get (p.data kind) = some (encodeEnvelope expireMs payload)
  rows : RowsExact store p
  size : ∀ d ∈ stateRecords store p.pre p.key.bytes (resolveWith store p.pre p.key.bytes now).1,
    d.2.length < 2 ^ 32 ∧ ∀ r ∈ d.2, r.Fits

/-- No record of the key, and no index entry of one. -/
structure Absent (store : Store) (q : Place) : Prop where
  part : ∀ n : Part, n.Valid → store.get (q.record n) = none
  index : ∀ kind ∈ recordKinds, ∀ d < 2 ^ 64, store.get (q.index d kind) = none

/-- `after` is `before` with the key of `p` at `q`: its records, one index entry if it has a
deadline, and nothing else. -/
structure Reproduces (store : Store) (p : Place) (state : KeyState) (before after : Store)
    (q : Place) : Prop where
  part : ∀ n : Part, n.Valid → after.get (q.record n) =
    if Carried (state.kind?.getD kindString) n then store.get (p.record n) else none
  index : ∀ kind ∈ recordKinds, ∀ d < 2 ^ 64, after.get (q.index d kind) =
    if 0 < d ∧ d = state.expireMs ∧ state.kind? = some kind then some [] else none
  frame : ∀ x, (∀ n : Part, n.Valid → x ≠ q.record n) → (∀ d kind, x ≠ q.index d kind) →
    after.get x = before.get x

/-- A restore of the dump, without a deadline of its own, gives the key again. -/
def Reproduced (store : Store) (p : Place) (now : Nat) (before : Store) (q : Place) : Prop :=
  ∃ data kind batch, dumpKey store p.pre p.key.bytes now = some data ∧
    restoreKey q.pre q.key.bytes data 0 = .ok (kind, batch) ∧
    Reproduces store p (resolveWith store p.pre p.key.bytes now).1 before (batchWrite before batch) q

/-- The elements with an empty name have values that read as envelopes without a deadline. -/
def Unmistaken (store : Store) (p : Place) (kind : UInt8) : Prop :=
  ∀ k ∈ carriedKinds kind, k ≠ kind → ∀ v ∈ store.get (p.data k), v.head? = some 0
  deriving Decidable

variable {now : Nat}

theorem enveloped_of_resolveWith {e : Nat} {payload : Bytes}
    (h : (resolveWith store p.pre p.key.bytes now).1 = .enveloped kind e payload) :
    kind ∈ metaKinds ∧ ∃ v, store.get (p.data kind) = some v ∧ decodeEnvelope v = (e, payload) := by
  rw [resolveWith] at h
  split at h
  · cases h
  · split at h
    · cases h
    · next k e' payload' hroot =>
      split at h
      · cases h
      · cases h
        obtain ⟨k', hk', hfound⟩ := exists_of_findSome?_eq_some hroot
        obtain ⟨v, hv, heq⟩ := Option.map_eq_some_iff.mp hfound
        obtain ⟨rfl, hdecode⟩ := Prod.mk.inj heq
        exact ⟨hk', v, hv, hdecode⟩

theorem restoreKey_dumpKey (h : Stored store p now) :
    ∃ data kind parts, dumpKey store p.pre p.key.bytes now = some data ∧
      restoreKey q.pre q.key.bytes data 0 =
        .ok (kind, (parts.flatMap (partPuts q 0)).map op) ∧
      kind = (resolveWith store p.pre p.key.bytes now).1.kind?.getD kindString ∧
      IsParts store p kind parts := by
  have hsize := h.size
  have hpresent := h.present
  rw [dumpKey]
  cases hstate : (resolveWith store p.pre p.key.bytes now).1 with rw [hstate] at hsize
  | missing =>
    rw [hstate] at hpresent
    cases hpresent
  | rawString value =>
    obtain ⟨hlen, hfits⟩ := hsize _ rfl
    refine ⟨_, kindString, [(.raw, value)], rfl, ?_, rfl, ?_⟩
    · rw [restoreKey, decodeDump_encodeDump hlen hfits]
      rfl
    · intro n v
      have hraw : store.get (p.record .raw) = some value := by
        have hres := hstate
        rw [resolveWith] at hres
        split at hres
        · next v hv =>
          cases hres
          exact hv
        · split at hres
          · cases hres
          · split at hres <;> cases hres
      rw [mem_singleton]
      constructor
      · rintro ⟨⟩
        exact ⟨trivial, rfl, hraw⟩
      · rintro ⟨-, hc, hget⟩
        cases n with
        | raw => rw [some.inj (hraw.symm.trans hget)]
        | elem k s => cases hc
        | row due locked => exact absurd (show kindString = kindStreamMeta from hc) (by decide)
  | enveloped kind e payload =>
    obtain ⟨hlen, hfits⟩ := hsize _ rfl
    obtain ⟨hkind, v, hroot, -⟩ := enveloped_of_resolveWith hstate
    obtain ⟨parts, hrecords, hhead, hparts⟩ := dumpRecords_eq hkind hroot (fun _ => h.rows) payload
    obtain ⟨last, hfam, -, -⟩ := familyOf_root kind hkind
    refine ⟨_, kind, parts, rfl, ?_, rfl, hparts⟩
    have hne : kind ≠ kindString := by
      rintro rfl
      exact absurd hkind (by decide)
    have hwrites : restoreRecords q.pre q.key.bytes 0 kind (kind, last) true
        (parts.map (partRecord p.key.bytes)) =
          .ok ((parts.flatMap (partPuts q 0)).map op) := by
      refine restoreRecords_eq hkind hfam 0 (fun x hx => ?_) fun _ x hx => ⟨[], ?_⟩
      · obtain ⟨hvalid, hcarried, -⟩ := (hparts x.1 x.2).mp hx
        exact ⟨hvalid, hcarried⟩
      · rw [hhead] at hx
        cases hx
        rfl
    rw [restoreKey, decodeDump_encodeDump hlen hfits]
    show (if kind = kindString then _ else _) = _
    rw [if_neg hne, hfam]
    dsimp only
    rw [hrecords, hwrites]
    rfl

theorem head_eq_zero_iff (v : Bytes) :
    v.head? = some 0 ↔
      (decodeEnvelope v).1 = 0 ∧ encodeEnvelope (decodeEnvelope v).1 (decodeEnvelope v).2 = v := by
  constructor
  · intro h
    cases v with
    | nil => cases h
    | cons b rest =>
      obtain rfl : b = 0 := some.inj h
      exact ⟨rfl, rfl⟩
  · rintro ⟨hzero, henc⟩
    rw [hzero] at henc
    rw [← henc]
    rfl

theorem restoredValue_root (ttl : Nat) (k : UInt8) (v : Bytes) :
    restoredValue ttl (.elem k []) v = encodeEnvelope (deadlineOf ttl v) (decodeEnvelope v).2 := rfl

theorem restoredValue_of_ne (h : ∀ k, n ≠ .elem k []) (ttl : Nat) (v : Bytes) :
    restoredValue ttl n v = v := by
  unfold restoredValue
  split
  · exact absurd rfl (h _)
  · rfl

theorem Unmistaken.head (h : Unmistaken store p kind) (hk : k ∈ carriedKinds kind) (hne : k ≠ kind)
    (hv : store.get (p.record (.elem k [])) = some v) : v.head? = some 0 :=
  h k hk hne v (by rwa [p.record_root] at hv)

section

variable {kind : UInt8} {e : Nat} {payload : Bytes} {parts : List (Part × Bytes)} {before : Store}
  (hkind : kind ∈ metaKinds) (hparts : IsParts store p kind parts) (habsent : Absent before q)

include hkind hparts

theorem unmistaken_of_reproduces (h : Reproduces store p (.enveloped kind e payload) before
    (before.write (parts.flatMap (partPuts q 0))) q) : Unmistaken store p kind := by
  intro k hk hne v hv
  have hvalid : (Part.elem k []).Valid := carriedKinds_subset kind hkind k hk
  have hget : store.get (p.record (.elem k [])) = some v := by rwa [p.record_root]
  have hmem : (Part.elem k [], v) ∈ parts := (hparts _ _).mpr ⟨hvalid, hk, hget⟩
  have hdeadline : ∀ x ∈ parts, deadlineOf 0 x.2 < 2 ^ 64 := fun x _ => deadlineOf_lt (by decide) x.2
  have hwritten := get_restored_record (q := q) hparts before 0 hvalid
  have hc : Carried kind (.elem k []) := hk
  have hpart : _ = if Carried kind (.elem k []) then _ else _ := h.part _ hvalid
  rw [if_pos hc, hget] at hpart
  rw [if_pos hc, hget, hpart] at hwritten
  refine (head_eq_zero_iff v).mpr ⟨?_, (some.inj hwritten).symm⟩
  -- a deadline in the value would leave an index entry of the element
  by_contra hpos
  have hentry := get_restored_index_of_mem (q := q) hparts before 0 (hdeadline _ hmem) hdeadline hmem
    (Nat.pos_of_ne_zero hpos) rfl
  rw [h.index k hvalid _ (hdeadline _ hmem), if_neg] at hentry
  · cases hentry
  · rintro ⟨-, -, hk'⟩
    exact hne (some.inj hk').symm

include habsent

theorem reproduces_of_unmistaken (hlt : e < 2 ^ 63)
    (hroot : store.get (p.data kind) = some (encodeEnvelope e payload))
    (h : Unmistaken store p kind) : Reproduces store p (.enveloped kind e payload) before
      (before.write (parts.flatMap (partPuts q 0))) q := by
  have hdeadline : ∀ x ∈ parts, deadlineOf 0 x.2 < 2 ^ 64 := fun x _ => deadlineOf_lt (by decide) x.2
  have hdecode := decodeEnvelope_encodeEnvelope hlt payload
  -- what is written for an element with an empty name, or the root
  have hsame : ∀ k v, k ∈ carriedKinds kind → store.get (p.record (.elem k [])) = some v →
      restoredValue 0 (.elem k []) v = v ∧ (0 < deadlineOf 0 v → k = kind ∧ deadlineOf 0 v = e) := by
    intro k v hk hv
    by_cases hroot' : k = kind
    · subst hroot'
      rw [p.record_root, hroot] at hv
      cases hv
      rw [restoredValue_root, show deadlineOf 0 (encodeEnvelope e payload) = e from
        congrArg Prod.fst hdecode, hdecode]
      exact ⟨rfl, fun _ => ⟨rfl, rfl⟩⟩
    · obtain ⟨hzero, henc⟩ := (head_eq_zero_iff v).mp (h.head hk hroot' hv)
      exact ⟨henc, fun hpos => absurd hzero (Nat.pos_iff_ne_zero.mp hpos)⟩
  refine ⟨fun n hn => ?_, fun k hk d hd => ?_, fun x hx hidx => ?_⟩
  · show _ = if Carried kind n then _ else _
    rw [get_restored_record hparts before 0 hn, habsent.part n hn, or_none]
    by_cases hc : Carried kind n
    · cases hget : store.get (p.record n) with
      | none => rfl
      | some v =>
        rw [map_some]
        by_cases hempty : ∃ k, n = .elem k []
        · obtain ⟨k, rfl⟩ := hempty
          rw [(hsame k v hc hget).1]
        · rw [restoredValue_of_ne fun k hk => hempty ⟨k, hk⟩]
    · rw [if_neg hc, if_neg hc]
  · show _ = if 0 < d ∧ d = e ∧ some kind = some k then some [] else none
    by_cases hhit : 0 < d ∧ d = e ∧ some kind = some k
    · obtain ⟨hpos, rfl, hk'⟩ := hhit
      obtain rfl := some.inj hk'
      rw [if_pos ⟨hpos, rfl, rfl⟩]
      refine get_restored_index_of_mem hparts before 0 hd hdeadline ((hparts _ _).mpr
        ⟨hk, kind_mem_carriedKinds kind hkind, ?_⟩) hpos (congrArg Prod.fst hdecode)
      rw [p.record_root, hroot]
    · rw [if_neg hhit, get_restored_index_of_forall hparts before 0 hd hdeadline,
        habsent.index k hk d hd]
      intro v hv hpos hdv
      obtain ⟨-, hc, hget⟩ := (hparts _ _).mp hv
      obtain ⟨rfl, he⟩ := (hsame k v hc hget).2 (hdv ▸ hpos)
      exact hhit ⟨hpos, hdv.symm.trans he, rfl⟩
  · exact get_restored_frame before 0 (fun y hy => hx y.1 ((hparts y.1 y.2).mp hy).1) hidx

end

theorem reproduces_raw {value : Bytes} {before : Store} (hparts : IsParts store p kindString parts)
    (habsent : Absent before q) :
    Reproduces store p (.rawString value) before (before.write (parts.flatMap (partPuts q 0))) q := by
  have hdeadline : ∀ x ∈ parts, deadlineOf 0 x.2 < 2 ^ 64 := fun x _ => deadlineOf_lt (by decide) x.2
  have hnoelem : ∀ k s, ¬ Carried kindString (.elem k s) := fun _ _ h => by cases h
  refine ⟨fun n hn => ?_, fun k hk d hd => ?_, fun x hx hidx => ?_⟩
  · show _ = if Carried kindString n then _ else _
    rw [get_restored_record hparts before 0 hn, habsent.part n hn]
    by_cases hc : Carried kindString n
    · rw [if_pos hc, if_pos hc]
      cases store.get (p.record n) with
      | none => rfl
      | some v =>
        refine congrArg some (restoredValue_of_ne (fun k hk => hnoelem k [] ?_) 0 v)
        rwa [hk] at hc
    · rw [if_neg hc, if_neg hc]
  · rw [get_restored_index_of_forall hparts before 0 hd hdeadline, habsent.index k hk d hd, if_neg]
    · rintro ⟨-, -, h⟩
      cases h
    · exact fun v hv => absurd ((hparts _ _).mp hv).2.1 (hnoelem k [])
  · exact get_restored_frame before 0 (fun y hy => hx y.1 ((hparts y.1 y.2).mp hy).1) hidx

def sampleSource : Place := ⟨7, ⟨[0x68], by decide⟩⟩

def sampleTarget : Place := ⟨9, ⟨[0x74], by decide⟩⟩

/-- A hash with one field, whose name is empty. -/
def sampleHash (value : Bytes) : Store :=
  .ofList [(sampleSource.data kindHashMeta, encodeEnvelope 0 (encodeCount 1)),
    (sampleSource.data kindHashFld, value)]

theorem absent_empty (q : Place) : Absent .empty q := ⟨fun _ _ => rfl, fun _ _ _ _ => rfl⟩

theorem stored_sampleHash : ∀ value ∈ [[0x00, 0x31], [0x31]], Stored (sampleHash value) sampleSource 0 := by
  intro value hvalue
  have hstate : ∀ value ∈ [[0x00, 0x31], [0x31]], (resolveWith (sampleHash value) sampleSource.pre
      sampleSource.key.bytes 0).1 = .enveloped kindHashMeta 0 (encodeCount 1) ∧
        (sampleHash value).get (sampleSource.data kindHashMeta) =
          some (encodeEnvelope 0 (encodeCount 1)) := by decide +kernel
  obtain ⟨hstate, hroot⟩ := hstate value hvalue
  refine ⟨by rw [hstate]; rfl, ?_, ?_, ?_⟩
  · rintro kind ⟨⟩
    exact ⟨0, _, by decide, hroot⟩
  · revert value
    decide +kernel
  · revert value
    decide +kernel

end Rdb.Ds.Dump
