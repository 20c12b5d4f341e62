import Rdb.Ds.Restore

/-!
# The wipe of a whole key

A key is deleted with one range for each kind of its family; with a stream go its ledger and,
one by one, the delay rows that carry its name; with a deadline goes the index entry. All of
them are found by the bytes behind the slot prefix. A raw string has no kind byte, so its name
can read as a record of another key (`Reads`).

* `familyDelete_exact_iff`: the wipe takes all of a key and, of any other key of the slot,
  nothing but a raw string of such a name.
-/

namespace Rdb.Ds

open Lib Dump List SortedMap

/-- The families that a range deletes. Delay rows are not stored by name. -/
def families : List CodecFamily :=
  [stringFamily, hashFamily, listFamily, setFamily, zsetFamily, streamFamily, offsetFamily,
   jsonFamily, vectorsetFamily, searchFamily]

def wipedKinds (family : CodecFamily) : List UInt8 :=
  familyKinds family ++ if family = streamFamily then familyKinds offsetFamily else []

/-- What stands behind the slot prefix reads as a record of the key. -/
def Reads (key : Bytes) (family : CodecFamily) (expire : Nat) (body : Bytes) : Prop :=
  (∃ kind ∈ wipedKinds family, dataKey [] kind key <+: body) ∨
  (family = streamFamily ∧ (decodeDelayRowKey body 0).any (·.2.1 = key)) ∨
  0 < expire ∧ body = expireIndexKey [] expire (dataKey [] family.1 key)
  deriving Decidable

def wipe (store : Store) (p : Place) (family : CodecFamily) (expire : Nat) : Store :=
  batchWrite store (familyDeleteEntries (some store) p.pre family p.key.bytes expire)

variable {store : Store} {p q : Place} {family : CodecFamily} {expire : Nat} {body : Bytes}

theorem deletes_foldDelayRows_iff {rows : Store} {pre key x : Bytes} :
    (∃ b ∈ foldDelayRows rows pre key, b.Deletes x) ↔
      ∃ body, x = pre ++ body ∧ (rows.get x).isSome ∧
        (decodeDelayRowKey body 0).any (·.2.1 = key) := by
  have hscan : foldDelayRows rows pre key = _ :=
    collect_delayRows rows pre key fun e => BatchEntry.delete e.1
  rw [hscan]
  simp only [mem_map, mem_filter, decide_eq_true_eq]
  constructor
  · rintro ⟨_, ⟨e, ⟨⟨hmem, t, ht⟩, hany⟩, rfl⟩, hdel⟩
    obtain rfl := BatchOp.del.inj hdel
    rw [append_assoc] at ht
    refine ⟨_, ht.symm, by rw [mem_entries.mp hmem]; rfl, ?_⟩
    rwa [← ht, decodeDelayRowKey_append] at hany
  · rintro ⟨body, rfl, hsome, hany⟩
    obtain ⟨v, hv⟩ := Option.isSome_iff_exists.mp hsome
    refine ⟨_, ⟨(pre ++ body, v), ⟨⟨SortedMap.get_eq_some.mp hv, ?_⟩, ?_⟩, rfl⟩, rfl⟩
    · -- what decodes as a delay row has its kind
      obtain ⟨d, hd, -⟩ := (Option.any_eq_true _ _).mp hany
      cases body with
      | nil => cases hd
      | cons b rest =>
        have hb : b = kindStreamDelay := by
          by_contra hb
          simp [decodeDelayRowKey, hb] at hd
        exact ⟨rest, by rw [hb, append_assoc]; rfl⟩
    · rwa [decodeDelayRowKey_append]

theorem reads_of_deletes {rows : Option Store} {x : Bytes}
    (h : ∃ b ∈ familyDeleteEntries rows p.pre family p.key.bytes expire, b.Deletes x) :
    ∃ body, x = p.pre ++ body ∧ Reads p.key.bytes family expire body := by
  have hdata : ∀ {kind : UInt8}, dataKey p.pre kind p.key.bytes <+: x →
      ∃ body, x = p.pre ++ body ∧ dataKey [] kind p.key.bytes <+: body := by
    rintro kind ⟨t, rfl⟩
    exact ⟨_, append_assoc _ _ _, prefix_append _ t⟩
  rcases exists_deletes_familyDelete.mp h with ⟨kind, hkind, hx⟩ | ⟨hs, ⟨kind, hkind, hx⟩ | hrow⟩ | ⟨he, hx⟩
  · obtain ⟨body, rfl, hbody⟩ := hdata hx
    exact ⟨body, rfl, .inl ⟨kind, mem_append_left _ hkind, hbody⟩⟩
  · obtain ⟨body, rfl, hbody⟩ := hdata hx
    refine ⟨body, rfl, .inl ⟨kind, mem_append_right _ ?_, hbody⟩⟩
    rwa [if_pos hs]
  · cases rows with
    | none =>
      obtain ⟨b, hb, -⟩ := hrow
      cases hb
    | some rows =>
      obtain ⟨body, rfl, -, hany⟩ := deletes_foldDelayRows_iff.mp hrow
      exact ⟨body, rfl, .inr (.inl ⟨hs, hany⟩)⟩
  · exact ⟨_, hx.trans (Place.index_eq expire family.1), .inr (.inr ⟨he, rfl⟩)⟩

theorem deletes_of_reads {rows : Store} (hsome : (rows.get (p.pre ++ body)).isSome)
    (h : Reads p.key.bytes family expire body) :
    ∃ b ∈ familyDeleteEntries (some rows) p.pre family p.key.bytes expire,
      b.Deletes (p.pre ++ body) := by
  refine exists_deletes_familyDelete.mpr ?_
  have hdata : ∀ {kind : UInt8}, dataKey [] kind p.key.bytes <+: body →
      dataKey p.pre kind p.key.bytes <+: p.pre ++ body := (prefix_append_right_inj p.pre).mpr
  rcases h with ⟨kind, hkind, hbody⟩ | ⟨hs, hany⟩ | ⟨he, hbody⟩
  · rcases mem_append.mp hkind with hkind | hkind
    · exact .inl ⟨kind, hkind, hdata hbody⟩
    · split at hkind
      · next hs => exact .inr (.inl ⟨hs, .inl ⟨kind, hkind, hdata hbody⟩⟩)
      · cases hkind
  · exact .inr (.inl ⟨hs, .inr (deletes_foldDelayRows_iff.mpr ⟨body, rfl, hsome, hany⟩)⟩)
  · refine .inr (.inr ⟨he, ?_⟩)
    rw [hbody]
    exact (Place.index_eq expire family.1).symm

theorem get_wipe (store : Store) (p : Place) (family : CodecFamily) (expire : Nat) (body : Bytes) :
    (wipe store p family expire).get (p.pre ++ body) =
      if Reads p.key.bytes family expire body then none else store.get (p.pre ++ body) := by
  rw [wipe, (deletesOnly_familyDeleteEntries _ _ _ _ _).get]
  cases hget : store.get (p.pre ++ body) with
  | none => rw [ite_self, ite_self]
  | some v =>
    refine if_congr ⟨fun h => ?_, deletes_of_reads (by rw [hget]; rfl)⟩ rfl rfl
    obtain ⟨body', hbody, hreads⟩ := reads_of_deletes h
    rwa [append_cancel_left hbody]

/-! ## The records of another key -/

theorem kind_ne_of_mem_wipedKinds : ∀ family ∈ families, ∀ kind ∈ wipedKinds family,
    kind ≠ kindStreamDelay ∧ kind ≠ kindExpireIndex := by decide +kernel

theorem root_isPrefix {k k' : UserKey} {kind kind' : UInt8} {s : Bytes}
    (h : dataKey [] kind k.bytes <+: elemKey [] kind' k'.bytes s) : k = k' := by
  obtain ⟨t, ht⟩ := h
  obtain ⟨-, ht⟩ := cons.inj ht
  rw [append_eq, append_eq, append_assoc, append_assoc] at ht
  obtain ⟨hlen, ht⟩ := beBytes_append_inj (w := 4) k.short k'.short ht
  exact UserKey.ext (append_inj ht hlen).1

theorem not_reads_record (hfam : family ∈ families) (hne : q.key ≠ p.key) {n : Part} (hn : n.Valid)
    (hraw : n ≠ .raw) : ¬ Reads p.key.bytes family expire (n.body q.key.bytes) := by
  cases n with
  | raw => exact absurd rfl hraw
  | elem kind s =>
    obtain ⟨hdelay, hindex, -⟩ := Part.kind_ne_of_mem_recordKinds kind hn
    rintro (⟨_, -, h⟩ | ⟨-, h⟩ | ⟨-, h⟩)
    · exact hne (root_isPrefix h).symm
    · simp [decodeDelayRowKey, Part.body, elemKey, dataKey, hdelay] at h
    · exact hindex (cons.inj h).1
  | row due locked =>
    rintro (⟨kind, hkind, t, h⟩ | ⟨-, h⟩ | ⟨-, h⟩)
    · exact (kind_ne_of_mem_wipedKinds family hfam kind hkind).1 (cons.inj h).1
    · rw [Part.decode_row q.key hn, Option.any_some, decide_eq_true_eq] at h
      exact hne (UserKey.ext h)
    · exact absurd (cons.inj h).1 (by decide)

theorem not_reads_index (hfam : family ∈ families) (hne : q.key ≠ p.key) (d : Nat) (kind : UInt8) :
    ¬ Reads p.key.bytes family expire (expireIndexKey [] d (dataKey [] kind q.key.bytes)) := by
  rintro (⟨kind', hkind, t, h⟩ | ⟨-, h⟩ | ⟨-, h⟩)
  · exact (kind_ne_of_mem_wipedKinds family hfam kind' hkind).2 (cons.inj h).1
  · have hkind : kindExpireIndex ≠ kindStreamDelay := by decide
    simp [decodeDelayRowKey, expireIndexKey, hkind] at h
  · obtain ⟨-, h⟩ := cons.inj h
    obtain ⟨-, h⟩ := append_inj h (by rw [length_beBytes, length_beBytes])
    obtain ⟨-, h⟩ := cons.inj h
    exact hne (UserKey.ext (beBytes_append_inj (w := 4) q.key.short p.key.short h).2)

/-! ## The records of the key -/

/-- What is deleted with the family. -/
def Part.InFamily (family : CodecFamily) : Part → Bool
  | .raw => false
  | .elem kind _ => kind ∈ wipedKinds family
  | .row _ _ => family = streamFamily

theorem length_of_decodeDelayRowKey {d : Nat × Bytes × Nat × Nat}
    (h : decodeDelayRowKey body 0 = some d) : d.2.1.length < body.length := by
  rw [decodeDelayRowKey] at h
  split at h
  · cases h
  · next hlen =>
    dsimp only at h
    split at h
    · cases h
    · cases h
      simp only [Bool.or_eq_true, decide_eq_true_eq, not_or, drop_zero] at hlen
      refine (length_take_le' _ _).trans_lt ?_
      simp only [drop_zero, length_drop]
      omega

theorem reads_of_inFamily {n : Part} (hn : n.Valid) (h : n.InFamily family) :
    Reads p.key.bytes family expire (n.body p.key.bytes) := by
  cases n with
  | raw => cases h
  | elem kind s => exact .inl ⟨kind, of_decide_eq_true h, prefix_append _ _⟩
  | row due locked =>
    refine .inr (.inl ⟨of_decide_eq_true h, ?_⟩)
    rw [Part.decode_row p.key hn]
    simp

theorem inFamily_of_reads (hfam : family ∈ families) {n : Part} (hn : n.Valid)
    (h : Reads p.key.bytes family expire (n.body p.key.bytes)) : n.InFamily family := by
  cases n with
  | raw =>
    rcases h with ⟨kind, -, h⟩ | ⟨-, h⟩ | ⟨-, h⟩
    · have hlen := h.length_le
      simp only [Part.body, dataKey, nil_append, length_append, length_cons] at hlen
      omega
    · obtain ⟨d, hd, hname⟩ := (Option.any_eq_true _ _).mp h
      have hlen := length_of_decodeDelayRowKey hd
      rw [of_decide_eq_true hname] at hlen
      exact absurd hlen (lt_irrefl _)
    · have hlen := congrArg length h
      simp only [Part.body, expireIndexKey, dataKey, length_nil, drop_zero, nil_append,
        length_append, length_cons] at hlen
      omega
  | elem kind s =>
    obtain ⟨hdelay, hindex, -⟩ := Part.kind_ne_of_mem_recordKinds kind hn
    rcases h with ⟨kind', hkind, t, h⟩ | ⟨-, h⟩ | ⟨-, h⟩
    · obtain rfl : kind' = kind := (cons.inj h).1
      exact decide_eq_true hkind
    · simp [decodeDelayRowKey, Part.body, elemKey, dataKey, hdelay] at h
    · exact absurd (cons.inj h).1 hindex
  | row due locked =>
    rcases h with ⟨kind, hkind, t, h⟩ | ⟨hs, -⟩ | ⟨-, h⟩
    · exact absurd (cons.inj h).1 (kind_ne_of_mem_wipedKinds family hfam kind hkind).1
    · exact decide_eq_true hs
    · exact absurd (cons.inj h).1 (by decide)

/-- The ranges take what a family has now, the single deletes the rows that were stored when they were
collected. -/
def Part.Taken (rows : Store) (p : Place) (family : CodecFamily) (n : Part) : Prop :=
  n.InFamily family ∧ (∀ due locked, n = .row due locked → (rows.get (p.record n)).isSome)

theorem deletes_own_iff {rows : Store} (hfam : family ∈ families) {n : Part} (hn : n.Valid) :
    (∃ b ∈ familyDeleteEntries (some rows) p.pre family p.key.bytes expire, b.Deletes (p.record n)) ↔
      n.Taken rows p family := by
  constructor
  · intro h
    obtain ⟨body, hbody, hreads⟩ := reads_of_deletes h
    rw [← append_cancel_left hbody] at hreads
    refine ⟨inFamily_of_reads hfam hn hreads, ?_⟩
    rintro due locked rfl
    rcases exists_deletes_familyDelete.mp h with ⟨kind, hkind, t, hx⟩ | ⟨hs, ⟨kind, hkind, t, hx⟩ | hrow⟩ |
      ⟨-, hx⟩
    · rw [dataKey, append_assoc] at hx
      exact absurd (cons.inj (append_cancel_left hx)).1
        (kind_ne_of_mem_wipedKinds family hfam kind (mem_append_left _ hkind)).1
    · rw [dataKey, append_assoc] at hx
      exact absurd (cons.inj (append_cancel_left hx)).1
        (kind_ne_of_mem_wipedKinds offsetFamily (by decide) kind (mem_append_left _ hkind)).1
    · exact (deletes_foldDelayRows_iff.mp hrow).choose_spec.2.1
    · exact absurd (cons.inj (append_cancel_left hx)).1 (by decide)
  · rintro ⟨hin, hrow⟩
    refine exists_deletes_familyDelete.mpr ?_
    cases n with
    | raw => cases hin
    | elem kind s =>
      have hpre : p.data kind <+: p.record (.elem kind s) := Place.data_isPrefix_iff.mpr ⟨s, rfl⟩
      rcases mem_append.mp (of_decide_eq_true hin) with hkind | hkind
      · exact .inl ⟨kind, hkind, hpre⟩
      · split at hkind
        · next hs => exact .inr (.inl ⟨hs, .inl ⟨kind, hkind, hpre⟩⟩)
        · cases hkind
    | row due locked =>
      refine .inr (.inl ⟨of_decide_eq_true hin, .inr (deletes_foldDelayRows_iff.mpr
        ⟨_, rfl, hrow due locked rfl, ?_⟩)⟩)
      rw [Part.decode_row p.key hn]
      simp

/-! ## Names that read as no record -/

/-- The raw string of this name is not under the name of a typed record, a delay row or an index
entry. -/
def Place.Plain (p : Place) : Prop :=
  decodeDataKey p.key.bytes 0 = none ∧ decodeDelayRowKey p.key.bytes 0 = none ∧
    p.key.bytes.head? ≠ some kindExpireIndex
  deriving Decidable

theorem familyOf_recordKinds : ∀ kind ∈ recordKinds, (familyOf kind).isSome := by decide +kernel

theorem wipedKinds_subset : ∀ family ∈ families, ∀ kind ∈ wipedKinds family, kind ∈ recordKinds := by
  decide +kernel

namespace Place

theorem Plain.ne_elem (h : q.Plain) {kind : UInt8} (hkind : kind ∈ recordKinds) (k : UserKey) (s : Bytes) :
    q.key.bytes ≠ elemKey [] kind k.bytes s := by
  intro heq
  have hdecode := decodeDataKey_elem [] k (Part.kind_ne_of_mem_recordKinds kind hkind).1
    (familyOf_recordKinds kind hkind) s
  rw [← heq, length_nil, h.1] at hdecode
  cases hdecode

theorem Plain.not_reads (h : q.Plain) (hfam : family ∈ families) :
    ¬ Reads p.key.bytes family expire q.key.bytes := by
  rintro (⟨kind, hkind, s, hs⟩ | ⟨-, hany⟩ | ⟨-, hindex⟩)
  · exact h.ne_elem (wipedKinds_subset family hfam kind hkind) p.key s hs.symm
  · rw [h.2.1] at hany
    cases hany
  · exact h.2.2 (by rw [hindex]; rfl)

theorem plain_body_inj {n m : Part} (hn : n.Valid) (hm : m.Valid) (hp : n = .raw → p.Plain)
    (hq : m = .raw → q.Plain) (h : n.body p.key.bytes = m.body q.key.bytes) : p.key = q.key ∧ n = m := by
  suffices hkey : p.key = q.key by
    rw [hkey] at h
    exact ⟨hkey, Part.body_inj hn hm h⟩
  cases n with
  | raw =>
    cases m with
    | raw => exact UserKey.ext h
    | elem kind s => exact absurd h ((hp rfl).ne_elem hm q.key s)
    | row due locked =>
      have hdecode := Part.decode_row q.key hm
      rw [← h, show Part.raw.body p.key.bytes = p.key.bytes from rfl, (hp rfl).2.1] at hdecode
      cases hdecode
  | elem kind s =>
    cases m with
    | raw => exact absurd h.symm ((hq rfl).ne_elem hn p.key s)
    | elem kind' s' => exact root_isPrefix ⟨s, h⟩
    | row due locked => exact absurd (cons.inj h).1 (Part.kind_ne_of_mem_recordKinds kind hn).1
  | row due locked =>
    have hdecode := Part.decode_row p.key hn
    cases m with
    | raw =>
      rw [h, show Part.raw.body q.key.bytes = q.key.bytes from rfl, (hq rfl).2.1] at hdecode
      cases hdecode
    | elem kind s => exact absurd (cons.inj h).1.symm (Part.kind_ne_of_mem_recordKinds kind hm).1
    | row due' locked' =>
      rw [h, Part.decode_row q.key hm] at hdecode
      exact UserKey.ext (Prod.mk.inj (Prod.mk.inj (Option.some.inj hdecode)).2).1.symm

theorem plain_record_inj {n m : Part} (hn : n.Valid) (hm : m.Valid) (hp : n = .raw → p.Plain)
    (hq : m = .raw → q.Plain) (h : p.record n = q.record m) : p = q ∧ n = m := by
  obtain ⟨hslot, hbody⟩ := slotPrefix_append_inj h
  obtain ⟨hkey, hpart⟩ := plain_body_inj hn hm hp hq hbody
  cases p
  cases q
  exact ⟨congrArg₂ Place.mk hslot hkey, hpart⟩

theorem plain_record_ne_index {n : Part} (hn : n.Valid) (hq : n = .raw → q.Plain) (slot : Nat)
    (rest : Bytes) : q.record n ≠ slotPrefix slot ++ kindExpireIndex :: rest := by
  intro h
  have hbody := (slotPrefix_append_inj h).2
  cases n with
  | raw =>
    have hhead : q.key.bytes.head? = some kindExpireIndex := congrArg head? hbody
    exact (hq rfl).2.2 hhead
  | elem kind s => exact (Part.kind_ne_of_mem_recordKinds kind hn).2.1 (cons.inj hbody).1
  | row due locked => exact absurd (cons.inj hbody).1 (by decide)

end Place

theorem inFamily_of_deletes {rows : Option Store} (hfam : family ∈ families) {n : Part} (hn : n.Valid)
    (hq : n = .raw → q.Plain)
    (h : ∃ b ∈ familyDeleteEntries rows p.pre family p.key.bytes expire, b.Deletes (q.record n)) :
    p = q ∧ n.InFamily family := by
  obtain ⟨body, hbody, hreads⟩ := reads_of_deletes h
  obtain ⟨hslot, rfl⟩ := slotPrefix_append_inj hbody
  have hkey : q.key = p.key := by
    by_contra hne
    by_cases hraw : n = .raw
    · subst hraw
      exact (hq rfl).not_reads hfam hreads
    · exact not_reads_record hfam hne hn hraw hreads
  rw [hkey] at hreads
  refine ⟨?_, inFamily_of_reads hfam hn hreads⟩
  cases p
  cases q
  exact congrArg₂ Place.mk hslot.symm hkey.symm

/-! ## Exactness -/

/-- Nothing of `p` is left, and nothing of `q` is changed. -/
structure WipedExactly (store after : Store) (p q : Place) (family : CodecFamily) (expire : Nat) :
    Prop where
  elems : ∀ kind ∈ wipedKinds family, ∀ s, after.get (p.record (.elem kind s)) = none
  rows : family = streamFamily → ∀ due locked, (Part.row due locked).Valid →
    after.get (p.record (.row due locked)) = none
  index : 0 < expire → after.get (p.index expire family.1) = none
  others : ∀ n : Part, n.Valid → after.get (q.record n) = store.get (q.record n)
  indexes : ∀ d kind, after.get (q.index d kind) = store.get (q.index d kind)

theorem familyDelete_exact_iff (store : Store) (p q : Place) (hslot : q.slot = p.slot)
    (hne : q.key ≠ p.key) {family : CodecFamily} (hfam : family ∈ families) (expire : Nat) :
    WipedExactly store (wipe store p family expire) p q family expire ↔
      ((store.get (q.record .raw)).isSome →
        ¬ Reads p.key.bytes family expire q.key.bytes) := by
  have hpre : q.pre = p.pre := congrArg slotPrefix hslot
  have hgone : ∀ body, Reads p.key.bytes family expire body →
      (wipe store p family expire).get (p.pre ++ body) = none := fun body h =>
    (get_wipe store p family expire body).trans (if_pos h)
  have hkept : ∀ body, ¬ Reads p.key.bytes family expire body →
      (wipe store p family expire).get (q.pre ++ body) = store.get (q.pre ++ body) := by
    intro body h
    rw [hpre]
    exact (get_wipe store p family expire body).trans (if_neg h)
  constructor
  · intro h hsome hreads
    have hraw := h.others .raw trivial
    rw [Place.record, Part.body, hpre, hgone _ hreads] at hraw
    rw [Place.record, Part.body, hpre, ← hraw] at hsome
    cases hsome
  · intro h
    refine ⟨fun kind hk s => hgone _ (.inl ⟨kind, hk, prefix_append _ _⟩),
      fun hs due locked hvalid => hgone _ (.inr (.inl ⟨hs, ?_⟩)),
      fun he => ?_, fun n hn => ?_, fun d kind => ?_⟩
    · rw [Part.decode_row p.key hvalid]
      simp
    · rw [Place.index_eq]
      exact hgone _ (.inr (.inr ⟨he, rfl⟩))
    · by_cases hraw : n = .raw
      · subst hraw
        by_cases hreads : Reads p.key.bytes family expire q.key.bytes
        · have hnone : store.get (q.record .raw) = none := by
            by_contra hne'
            exact h (Option.isSome_iff_ne_none.mpr hne') hreads
          rw [hnone, Place.record, hpre]
          exact hgone _ hreads
        · exact hkept _ hreads
      · exact hkept _ (not_reads_record hfam hne hn hraw)
    · rw [Place.index_eq]
      exact hkept _ (not_reads_index hfam hne d kind)

/-- The key `{x}`, a longer name with its tag, and the name of its hash record. -/
def sampleTagged : Place := ⟨16287, ⟨[0x7b, 0x78, 0x7d], by decide⟩⟩

def sampleSuffixed : Place := ⟨16287, ⟨[0x7b, 0x78, 0x7d, 0xff], by decide⟩⟩

def sampleNamesake : Place :=
  ⟨16287, ⟨[0x02, 0x00, 0x00, 0x00, 0x03, 0x7b, 0x78, 0x7d], by decide⟩⟩

/-- The hash `{x}` with the deadline 5 and a field, beside a raw string and a hash of the longer name. -/
def sampleSlot : Store :=
  .ofList [(sampleTagged.data kindHashMeta, encodeEnvelope 5 (encodeCount 1)),
    (sampleTagged.record (.elem kindHashFld [0x66]), [0x31]), (sampleTagged.index 5 kindHashMeta, []),
    (sampleSuffixed.record .raw, [0x76]),
    (sampleSuffixed.data kindHashMeta, encodeEnvelope 5 (encodeCount 1)),
    (sampleSuffixed.record (.elem kindHashFld [0x66]), [0x32]), (sampleSuffixed.index 5 kindHashMeta, [])]

theorem familyDelete_exact_suffixed :
    sampleSlot.size = 7 ∧ (wipe sampleSlot sampleTagged hashFamily 5).size = 4 ∧
    WipedExactly sampleSlot (wipe sampleSlot sampleTagged hashFamily 5) sampleTagged sampleSuffixed
      hashFamily 5 :=
  ⟨by decide +kernel, by decide +kernel,
    (familyDelete_exact_iff sampleSlot sampleTagged sampleSuffixed rfl (by decide) (by decide) 5).mpr
      fun _ => by decide +kernel⟩

/-- All three have the same slot, and deleting the hash `{x}` deletes the raw string. -/
theorem familyDelete_takes_namesake :
    (∀ p ∈ [sampleTagged, sampleSuffixed, sampleNamesake], p.key.slot = p.slot) ∧
    ¬ WipedExactly (SortedMap.empty.put (sampleNamesake.record .raw) [0x76])
      (wipe (SortedMap.empty.put (sampleNamesake.record .raw) [0x76]) sampleTagged hashFamily 0)
      sampleTagged sampleNamesake hashFamily 0 :=
  ⟨by decide +kernel, fun h => absurd (h.others .raw trivial) (by decide +kernel)⟩

end Rdb.Ds
