import Rdb.Ds.Codec

/-!
# The records of a user key

A user key has its slot from its hash tag. A raw string sits under the slot prefix and
the bare name; every typed record sits under the prefix, a kind byte, the length of the
name, the name and a suffix. Typed records of different keys, kinds or suffixes are
different (`UserKey.elem_inj`); a raw string may have the name of a typed record.

A batch puts, deletes and deletes ranges; the ranges of a family are, kind by kind, the
records that start with the key's own bytes.
-/

namespace Rdb.Ds

open Lib List

/-! ## User keys -/

/-- The bytes between the first `{` and the first `}` behind it, if there are any; else the whole
key. -/
def hashTag (key : Bytes) : Bytes :=
  let rest := (key.dropWhile (· != 0x7b)).drop 1
  let tag := rest.takeWhile (· != 0x7d)
  if key.contains 0x7b && rest.contains 0x7d && !tag.isEmpty then tag else key

/-- A key that a request can name. A RESP argument has at most 512 MiB, so its length fits the
32-bit field of a record key. -/
structure UserKey where
  bytes : Bytes
  short : bytes.length < 2 ^ 32
  deriving DecidableEq

variable {k k' : UserKey}

namespace UserKey

def sample : UserKey := ⟨[0x61], by decide⟩

@[ext] theorem ext (h : k.bytes = k'.bytes) : k = k' := by
  cases k'
  cases h
  rfl

def slot (k : UserKey) : Nat := (crc16 (hashTag k.bytes)).toNat % slotNumber

def pre (k : UserKey) : Bytes := slotPrefix k.slot

def raw (k : UserKey) : Bytes := stringKey k.pre k.bytes

def data (k : UserKey) (kind : UInt8) : Bytes := dataKey k.pre kind k.bytes

def elem (k : UserKey) (kind : UInt8) (suffix : Bytes) : Bytes := elemKey k.pre kind k.bytes suffix

theorem elem_nil (k : UserKey) (kind : UInt8) : k.elem kind [] = k.data kind := append_nil _

theorem data_isPrefix_elem (k : UserKey) (kind : UInt8) (suffix : Bytes) :
    k.data kind <+: k.elem kind suffix := prefix_append _ _

end UserKey

variable {x : Bytes} {kind kind' : UInt8} {s s' : Bytes}

theorem elemKey_inj {a b : Nat} {y : Bytes} (hx : x.length < 2 ^ 32) (hy : y.length < 2 ^ 32)
    (h : elemKey (slotPrefix a) kind x s = elemKey (slotPrefix b) kind' y s') :
    x = y ∧ kind = kind' ∧ s = s' := by
  unfold elemKey dataKey at h
  rw [append_assoc, append_assoc] at h
  obtain ⟨-, hbody⟩ := slotPrefix_append_inj h
  rw [cons_append, cons_append, cons.injEq] at hbody
  obtain ⟨hkind, hbody⟩ := hbody
  obtain ⟨hlen, hname⟩ := beBytes_append_inj (w := 4) hx hy hbody
  obtain ⟨hb, hs⟩ := append_inj hname hlen
  exact ⟨hb, hkind, hs⟩

namespace UserKey

theorem elem_inj (h : k.elem kind s = k'.elem kind' s') : k = k' ∧ kind = kind' ∧ s = s' := by
  obtain ⟨hb, hrest⟩ := elemKey_inj k.short k'.short h
  exact ⟨UserKey.ext hb, hrest⟩

theorem elem_ne_of_kind (h : kind ≠ kind') :
    k.elem kind s ≠ k'.elem kind' s' := fun he => h (elem_inj he).2.1

theorem elem_ne_of_key (h : k ≠ k') :
    k.elem kind s ≠ k'.elem kind' s' := fun he => h (elem_inj he).1

theorem eq_of_data_isPrefix (h : k.data kind <+: k'.elem kind' s) : k = k' ∧ kind = kind' := by
  obtain ⟨t, ht⟩ := h
  obtain ⟨hk, hkind, -⟩ := elem_inj (s := t) ht
  exact ⟨hk, hkind⟩

theorem raw_ne_elem (k : UserKey) (kind : UInt8) (s : Bytes) : k.raw ≠ k.elem kind s := by
  intro h
  have hl := congrArg length h
  simp only [raw, stringKey, elem, elemKey, dataKey, length_append, length_cons] at hl
  omega

end UserKey

theorem decodeDataKey_elem (pre : Bytes) (k : UserKey)
    (hkind : kind ≠ kindStreamDelay) (hfam : (familyOf kind).isSome) (s : Bytes) :
    decodeDataKey (elemKey pre kind k.bytes s) pre.length = some (kind, k.bytes, s) := by
  have hdrop : (elemKey pre kind k.bytes s).drop pre.length =
      kind :: (beBytes 4 k.bytes.length ++ (k.bytes ++ s)) := by
    rw [elemKey, dataKey, append_assoc, drop_left, cons_append, append_assoc]
  have hlen : ofBe ((beBytes 4 k.bytes.length ++ (k.bytes ++ s)).take 4) = k.bytes.length := by
    rw [take_left' (length_beBytes 4 _), ofBe_beBytes_of_lt k.short]
  unfold decodeDataKey
  rw [hdrop]
  dsimp only
  rw [if_neg hkind, if_neg (by rw [Option.isNone_iff_eq_none, ← Option.not_isSome_iff_eq_none]; simp [hfam]),
    if_neg (by rw [length_append, length_beBytes]; omega), hlen,
    drop_left' (length_beBytes 4 _), if_neg (by rw [length_append]; omega), take_left,
    drop_left]

/-! ## Batches -/

inductive BatchEntry where
  | op (o : WriteOp)
  | deleteRange (lower upper : Bytes)
  deriving DecidableEq

namespace BatchEntry

abbrev put (k v : Bytes) : BatchEntry := .op (.put k v)

abbrev delete (k : Bytes) : BatchEntry := .op (.del k)

def apply (store : Store) : BatchEntry → Store
  | .op o => store.apply o
  | .deleteRange lower upper => store.deleteRange lower upper

def Deletes (x : Bytes) : BatchEntry → Prop
  | .op o => o = .del x
  | .deleteRange lower upper => lower ≤ x ∧ x < upper

instance (x : Bytes) : (b : BatchEntry) → Decidable (b.Deletes x)
  | .op _ => inferInstanceAs (Decidable (_ = _))
  | .deleteRange .. => inferInstanceAs (Decidable (_ ∧ _))

end BatchEntry

def batchWrite (store : Store) (batch : List BatchEntry) : Store := batch.foldl BatchEntry.apply store

theorem batchWrite_append (store : Store) (b b' : List BatchEntry) :
    batchWrite store (b ++ b') = batchWrite (batchWrite store b) b' := foldl_append

theorem batchWrite_ops (store : Store) (ops : List WriteOp) :
    batchWrite store (ops.map .op) = store.write ops := by
  unfold batchWrite
  rw [foldl_map]
  rfl

def DeletesOnly (batch : List BatchEntry) : Prop := ∀ b ∈ batch, ∀ k v, b ≠ .put k v

theorem DeletesOnly.get {batch : List BatchEntry} (h : DeletesOnly batch) (store : Store) (x : Bytes) :
    (batchWrite store batch).get x = if ∃ b ∈ batch, b.Deletes x then none else store.get x := by
  induction batch generalizing store with
  | nil => simp [batchWrite]
  | cons b batch ih =>
    have hb : (b.apply store).get x = if b.Deletes x then none else store.get x := by
      cases b with
      | op o =>
        cases o with
        | put k v => exact absurd rfl (h _ mem_cons_self k v)
        | del k =>
          refine (SortedMap.get_delete store k x).trans ?_
          by_cases hx : k = x
          · exact (if_pos hx).trans (if_pos (congrArg BatchOp.del hx)).symm
          · exact (if_neg hx).trans (if_neg fun he => hx (BatchOp.del.inj he)).symm
      | deleteRange lower upper =>
        refine (SortedMap.get_deleteRange store lower upper x).trans ?_
        by_cases hx : lower ≤ x ∧ x < upper
        · exact (if_pos hx).trans (if_pos hx).symm
        · exact (if_neg hx).trans (if_neg hx).symm
    refine (ih (fun b' hb' => h b' (mem_cons_of_mem _ hb')) (b.apply store)).trans ?_
    rw [hb]
    by_cases hx : b.Deletes x <;> simp [hx]

theorem DeletesOnly.append {b b' : List BatchEntry} (h : DeletesOnly b) (h' : DeletesOnly b') :
    DeletesOnly (b ++ b') := fun x hx => (mem_append.mp hx).elim (h x) (h' x)

theorem deletesOnly_ranges (ranges : List (Bytes × Bytes)) :
    DeletesOnly (ranges.map fun r => .deleteRange r.1 r.2) := by
  intro b hb k v
  obtain ⟨r, -, rfl⟩ := mem_map.mp hb
  nofun

def familyKinds (family : CodecFamily) : List UInt8 :=
  (List.range (family.2.toNat + 1 - family.1.toNat)).map fun i => UInt8.ofNat (family.1.toNat + i)

def familyDeleteRanges (pre : Bytes) (family : CodecFamily) (key : Bytes) : List (Bytes × Bytes) :=
  (familyKinds family).map fun kind =>
    let lower := dataKey pre kind key
    (lower, (keyUpperBound lower).getD [])

/-- Due time, stream and locked id of a delay row. -/
def decodeDelayRowKey (physical : Bytes) (prefixLen : Nat) : Option (Nat × Bytes × Nat × Nat) :=
  let body := physical.drop prefixLen
  if body.head? ≠ some kindStreamDelay || body.length < 13 then none
  else
    let len := ofBe ((body.drop 9).take 4)
    let tail := body.drop 13
    if tail.length < len + 16 then none
    else some (ofBe ((body.drop 1).take 8), tail.take len, ofBe ((tail.drop len).take 8),
      ofBe ((tail.drop (len + 8)).take 8))

def foldDelayRows (store : Store) (pre stream : Bytes) : List BatchEntry :=
  store.forEachFrom (pre ++ [kindStreamDelay]) false (fun acc k _ =>
    if pre ++ [kindStreamDelay + 1] ≤ k then (acc, false)
    else if (decodeDelayRowKey k pre.length).any (·.2.1 = stream) then (acc ++ [.delete k], true)
    else (acc, true)) []

/-- The deletes of a whole key: a range for each kind of its family, the ledger and the delay rows
of a stream, and the index entry of its deadline. -/
def familyDeleteEntries (store : Option Store) (pre : Bytes) (family : CodecFamily) (key : Bytes)
    (expire : Nat) : List BatchEntry :=
  (familyDeleteRanges pre family key).map (fun r => .deleteRange r.1 r.2) ++
  (if family = streamFamily then
    (familyDeleteRanges pre offsetFamily key).map (fun r => .deleteRange r.1 r.2) ++
      store.elim [] (foldDelayRows · pre key)
  else []) ++
  (if 0 < expire then [.delete (expireIndexKey pre expire (dataKey pre family.1 key))] else [])

theorem deletesOnly_foldDelayRows (store : Store) (pre stream : Bytes) :
    DeletesOnly (foldDelayRows store pre stream) := by
  refine foldUntil_inv (I := DeletesOnly) nofun fun acc e _ hacc => ?_
  dsimp only
  split
  · exact hacc
  · split
    · intro b hb k v
      rcases mem_append.mp hb with hb | hb
      · exact hacc b hb k v
      · rw [mem_singleton.mp hb]
        nofun
    · exact hacc

theorem deletesOnly_familyDeleteEntries (store : Option Store) (pre : Bytes) (family : CodecFamily)
    (key : Bytes) (expire : Nat) : DeletesOnly (familyDeleteEntries store pre family key expire) := by
  refine ((deletesOnly_ranges _).append ?_).append ?_
  · split
    · refine (deletesOnly_ranges _).append ?_
      cases store with
      | none => nofun
      | some store => exact deletesOnly_foldDelayRows store pre key
    · nofun
  · split
    · intro b hb k v
      rw [mem_singleton.mp hb]
      nofun
    · nofun

/-- The index entry moves with the deadline. -/
def setTtlEntries (pre dataKey : Bytes) (oldExpire newExpire : Nat) : List BatchEntry :=
  (if oldExpire ≠ newExpire ∧ 0 < oldExpire then [.delete (expireIndexKey pre oldExpire dataKey)]
    else []) ++
  (if 0 < newExpire then [.put (expireIndexKey pre newExpire dataKey) []] else [])

theorem keyUpperBound_isSome {b : Bytes} (h : ∃ x ∈ b, x + 1 ≠ 0) :
    (keyUpperBound b).isSome := by
  induction b with
  | nil =>
    obtain ⟨x, hx, -⟩ := h
    cases hx
  | cons y b ih =>
    unfold keyUpperBound
    cases hb : keyUpperBound b with
    | some ys => rfl
    | none =>
      obtain ⟨x, hx, hne⟩ := h
      rcases mem_cons.mp hx with rfl | hx
      · rw [if_pos hne]
        rfl
      · have := ih ⟨x, hx, hne⟩
        rw [hb] at this
        cases this

variable {slot : Nat} {key : Bytes}

theorem mem_range_dataKey :
    dataKey (slotPrefix slot) kind key ≤ x ∧
      x < (keyUpperBound (dataKey (slotPrefix slot) kind key)).getD [] ↔
        dataKey (slotPrefix slot) kind key <+: x := by
  have hsome : (keyUpperBound (dataKey (slotPrefix slot) kind key)).isSome := by
    refine keyUpperBound_isSome ⟨0x2f, ?_, by decide⟩
    simp [dataKey, slotPrefix]
  obtain ⟨upper, hu⟩ := Option.isSome_iff_exists.mp hsome
  rw [hu]
  exact mem_range_iff hu

theorem upper_le_iff (hle : dataKey (slotPrefix slot) kind key ≤ x) :
    (keyUpperBound (dataKey (slotPrefix slot) kind key)).getD [] ≤ x ↔
      ¬ dataKey (slotPrefix slot) kind key <+: x := by
  rw [← mem_range_dataKey, and_iff_right hle, not_lt]

variable {family : CodecFamily}

theorem exists_deletes_ranges :
    (∃ b ∈ (familyDeleteRanges (slotPrefix slot) family key).map fun r =>
      BatchEntry.deleteRange r.1 r.2, b.Deletes x) ↔
        ∃ kind ∈ familyKinds family, dataKey (slotPrefix slot) kind key <+: x := by
  simp only [familyDeleteRanges, map_map, mem_map, Function.comp_apply,
    exists_exists_and_eq_and, BatchEntry.Deletes, mem_range_dataKey]

theorem exists_deletes_familyDelete {rows : Option Store} {expire : Nat} :
    (∃ b ∈ familyDeleteEntries rows (slotPrefix slot) family key expire, b.Deletes x) ↔
      (∃ kind ∈ familyKinds family, dataKey (slotPrefix slot) kind key <+: x) ∨
      (family = streamFamily ∧
        ((∃ kind ∈ familyKinds offsetFamily, dataKey (slotPrefix slot) kind key <+: x) ∨
          ∃ b ∈ rows.elim [] (foldDelayRows · (slotPrefix slot) key), b.Deletes x)) ∨
      0 < expire ∧
        x = expireIndexKey (slotPrefix slot) expire (dataKey (slotPrefix slot) family.1 key) := by
  unfold familyDeleteEntries
  simp only [mem_append, or_and_right, exists_or, exists_deletes_ranges, or_assoc]
  refine or_congr_right (or_congr ?_ ?_)
  · by_cases hs : family = streamFamily
    · rw [if_pos hs, and_iff_right hs]
      simp only [mem_append, or_and_right, exists_or, exists_deletes_ranges]
    · simp [hs]
  · by_cases he : 0 < expire
    · simp [he, BatchEntry.Deletes, eq_comm]
    · simp [he]

theorem get_familyDeleteEntries (store : Store) (rows : Option Store) (k : UserKey)
    (hfam : family ≠ streamFamily) (expire : Nat) (x : Bytes) :
    (batchWrite store (familyDeleteEntries rows k.pre family k.bytes expire)).get x =
      if (∃ kind ∈ familyKinds family, k.data kind <+: x) ∨
          0 < expire ∧ x = expireIndexKey k.pre expire (k.data family.1) then none
      else store.get x := by
  rw [(deletesOnly_familyDeleteEntries _ _ _ _ _).get]
  exact if_congr (exists_deletes_familyDelete.trans
    (or_congr_right (or_iff_right fun h => hfam h.1))) rfl rfl

/-! ## Values -/

/-- A number in groups of seven bits, the lowest first; at most ten bytes. -/
def varuint : Nat → Nat → Bytes
  | 0, v => [UInt8.ofNat v]
  | n + 1, v =>
    if v < 0x80 then [UInt8.ofNat v] else UInt8.ofNat (v % 0x80 + 0x80) :: varuint n (v / 0x80)

def encodeCount (count : Nat) : Bytes := varuint 9 count

def encodeEnvelope (expireMs : Nat) (payload : Bytes) : Bytes := varuint 9 expireMs ++ payload

/-- The first number of a payload, in 64 bits, and what follows it. -/
def nextVarint (bytes : Bytes) : Nat × Bytes := go 0 0 bytes
where
  go (v shift : Nat) : Bytes → Nat × Bytes
    | [] => (v, [])
    | b :: rest =>
      let v := if shift < 64 then v ||| (((b &&& 0x7f).toNat <<< shift) % 2 ^ 64) else v
      if b &&& 0x80 = 0 then (v, rest) else go v (shift + 7) rest

def decodeCount (payload : Bytes) : Nat := (nextVarint payload).1

variable {v : Nat}

theorem last_byte (h : v < 0x80) :
    (UInt8.ofNat v &&& 0x7f).toNat = v ∧ UInt8.ofNat v &&& 0x80 = 0 := by
  have hall : ∀ v : Fin 0x80, (UInt8.ofNat v &&& 0x7f).toNat = v ∧ UInt8.ofNat v &&& 0x80 = 0 := by
    decide +kernel
  exact hall ⟨v, h⟩

theorem more_byte (v : Nat) :
    (UInt8.ofNat (v % 0x80 + 0x80) &&& 0x7f).toNat = v % 0x80 ∧
      UInt8.ofNat (v % 0x80 + 0x80) &&& 0x80 ≠ 0 := by
  have hall : ∀ v : Fin 0x80, (UInt8.ofNat (v + 0x80) &&& 0x7f).toNat = v ∧
      UInt8.ofNat (v + 0x80) &&& 0x80 ≠ 0 := by
    decide +kernel
  exact hall ⟨v % 0x80, Nat.mod_lt _ (by decide)⟩

variable {acc shift : Nat}

theorem or_shiftLeft (hacc : acc < 2 ^ shift) (d : Nat) :
    acc ||| (d <<< shift) = acc + d * 2 ^ shift := by
  rw [Nat.or_comm, ← Nat.shiftLeft_add_eq_or_of_lt hacc, Nat.shiftLeft_eq, Nat.add_comm]

theorem group_step (hacc : acc < 2 ^ shift) :
    acc + v % 0x80 * 2 ^ shift < 2 ^ (shift + 7) ∧
      acc + v % 0x80 * 2 ^ shift + v / 0x80 * 2 ^ (shift + 7) = acc + v * 2 ^ shift := by
  have hmod : v % 0x80 < 0x80 := Nat.mod_lt _ (by decide)
  have hpow : 2 ^ (shift + 7) = 0x80 * 2 ^ shift := by rw [Nat.pow_add, Nat.mul_comm]
  constructor
  · calc acc + v % 0x80 * 2 ^ shift < 2 ^ shift + v % 0x80 * 2 ^ shift := by omega
      _ = (v % 0x80 + 1) * 2 ^ shift := by ring
      _ ≤ 0x80 * 2 ^ shift := Nat.mul_le_mul_right _ hmod
      _ = 2 ^ (shift + 7) := hpow.symm
  · rw [hpow]
    calc acc + v % 0x80 * 2 ^ shift + v / 0x80 * (0x80 * 2 ^ shift)
        = acc + (v % 0x80 + 0x80 * (v / 0x80)) * 2 ^ shift := by ring
      _ = acc + v * 2 ^ shift := by rw [Nat.mod_add_div]

theorem place_lt {bound : Nat} (h : 0x80 ≤ v) (hv : v * 2 ^ shift < 2 ^ bound) :
    shift + 7 < bound := by
  refine (Nat.pow_lt_pow_iff_right (a := 2) (by decide)).mp ?_
  calc 2 ^ (shift + 7) = 0x80 * 2 ^ shift := by rw [Nat.pow_add, Nat.mul_comm]
    _ ≤ v * 2 ^ shift := Nat.mul_le_mul_right _ h
    _ < 2 ^ bound := hv

theorem div_lt_pow {n : Nat} (h : v < 0x80 ^ (n + 2)) : v / 0x80 < 0x80 ^ (n + 1) := by
  rw [Nat.div_lt_iff_lt_mul (by decide)]
  rwa [Nat.pow_succ] at h

theorem nextVarint_go_last (h : v < 0x80) (hshift : shift < 64) (hacc : acc < 2 ^ shift)
    (hv : acc + v * 2 ^ shift < 2 ^ 64) (rest : Bytes) :
    nextVarint.go acc shift ([UInt8.ofNat v] ++ rest) = (acc + v * 2 ^ shift, rest) := by
  rw [singleton_append, nextVarint.go, if_pos hshift, (last_byte h).1, if_pos (last_byte h).2,
    Nat.mod_eq_of_lt (by rw [Nat.shiftLeft_eq]; omega), or_shiftLeft hacc]

theorem nextVarint_go_varuint (n : Nat) (hn : v < 0x80 ^ (n + 1)) (hshift : shift < 64)
    (hacc : acc < 2 ^ shift) (hv : acc + v * 2 ^ shift < 2 ^ 64) (rest : Bytes) :
    nextVarint.go acc shift (varuint n v ++ rest) = (acc + v * 2 ^ shift, rest) := by
  induction n generalizing v acc shift with
  | zero => exact nextVarint_go_last hn hshift hacc hv rest
  | succ n ih =>
    rw [varuint]
    split
    · next h => exact nextVarint_go_last h hshift hacc hv rest
    · obtain ⟨hlt, hsum⟩ := group_step (v := v) hacc
      have hplace : shift + 7 < 64 := place_lt (v := v) (by omega) (by omega)
      rw [cons_append, nextVarint.go, if_pos hshift, (more_byte v).1, if_neg (more_byte v).2,
        Nat.mod_eq_of_lt (by rw [Nat.shiftLeft_eq]; omega), or_shiftLeft hacc,
        ih (div_lt_pow hn) hplace hlt (by rw [hsum]; exact hv), hsum]

theorem nextVarint_encodeCount (h : v < 2 ^ 64) (rest : Bytes) :
    nextVarint (encodeCount v ++ rest) = (v, rest) := by
  have hgo : nextVarint.go 0 0 (varuint 9 v ++ rest) = (0 + v * 2 ^ 0, rest) :=
    nextVarint_go_varuint 9 (by omega) (by decide) (by decide) (by omega) rest
  rwa [Nat.pow_zero, Nat.mul_one, Nat.zero_add] at hgo

theorem decodeCount_encodeCount (h : v < 2 ^ 64) : decodeCount (encodeCount v) = v := by
  have hnext := nextVarint_encodeCount h []
  rw [append_nil] at hnext
  rw [decodeCount, hnext]

theorem decodeEnvelope_go_last {i : Nat} (h : v < 0x80) (hi : i < 9) (hacc : acc < 2 ^ (7 * i))
    (rest : Bytes) :
    decodeEnvelope.go i acc ([UInt8.ofNat v] ++ rest) = (acc + v * 2 ^ (7 * i), rest) := by
  rw [singleton_append, decodeEnvelope.go, if_neg (by omega), (last_byte h).1,
    if_pos (last_byte h).2, or_shiftLeft hacc]

theorem decodeEnvelope_go_varuint (n : Nat) {i : Nat} (hn : v < 0x80 ^ (n + 1)) (hi : i < 9)
    (hacc : acc < 2 ^ (7 * i)) (hv : acc + v * 2 ^ (7 * i) < 2 ^ 63) (rest : Bytes) :
    decodeEnvelope.go i acc (varuint n v ++ rest) = (acc + v * 2 ^ (7 * i), rest) := by
  induction n generalizing v acc i with
  | zero => exact decodeEnvelope_go_last hn hi hacc rest
  | succ n ih =>
    rw [varuint]
    split
    · next h => exact decodeEnvelope_go_last h hi hacc rest
    · obtain ⟨hlt, hsum⟩ := group_step (v := v) hacc
      have hplace : 7 * i + 7 < 63 := place_lt (v := v) (by omega) (by omega)
      have hnext : 7 * (i + 1) = 7 * i + 7 := by omega
      rw [cons_append, decodeEnvelope.go, if_neg (by omega), (more_byte v).1,
        if_neg (more_byte v).2, or_shiftLeft hacc,
        ih (div_lt_pow hn) (by omega) (by rw [hnext]; exact hlt) (by rw [hnext, hsum]; exact hv),
        hnext, hsum]

theorem decodeEnvelope_encodeEnvelope {expireMs : Nat} (h : expireMs < 2 ^ 63) (payload : Bytes) :
    decodeEnvelope (encodeEnvelope expireMs payload) = (expireMs, payload) := by
  have hgo : decodeEnvelope.go 0 0 (varuint 9 expireMs ++ payload) =
      (0 + expireMs * 2 ^ (7 * 0), payload) :=
    decodeEnvelope_go_varuint 9 (by omega) (by decide) (by decide) (by omega) payload
  rwa [Nat.pow_zero, Nat.mul_one, Nat.zero_add] at hgo

end Rdb.Ds
