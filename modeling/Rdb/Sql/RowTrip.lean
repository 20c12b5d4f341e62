import Rdb.Dist.Commit
import Rdb.Sql.RowCodec

/-!
# What a row value keeps

A row is taken when it has a value for each column, NULL or of the column's type, and its
bytes are read back by the decoder. Two things of the layout are narrower than that: the
length of a text is written in four bytes, and a prepared row is told from a prepared
tombstone by the byte of its null bitmap.

* `encodeRow_eq_ok_iff`: the rows that are taken.
* `short_of_go`: a row that is read back has no text of more than four bytes of length.
-/

namespace Rdb.Sql

open Lib Rdb.Dist List Value

variable {ty : SqlType} {v : Value}

def TakesRow (columns : List ColumnDef) (values : List Value) : Prop :=
  List.Forall₂ (fun v (col : ColumnDef) => v = .null ∨ v.isOf col.sqlType) values columns

variable {columns : List ColumnDef} {values : List Value}

theorem fitsRow_of_takesRow (h : TakesRow columns values)
    (hs : ∀ v ∈ values, v.short) : FitsRow columns values := by
  induction h with
  | nil => exact .nil
  | @cons v col values columns hv _ ih =>
    refine .cons (hv.imp_right fun ht => ?_) (ih fun w hw => hs w (mem_cons_of_mem _ hw))
    exact Bool.and_eq_true_iff.mpr ⟨ht, hs v mem_cons_self⟩

/-! ## The rows that are taken -/

theorem encodePayload_eq_ok_iff : (∃ p, encodePayload ty v = .ok p) ↔ v.isOf ty := by
  cases ty <;> cases v <;> simp [encodePayload, isOf]
  split <;> simp_all

theorem encodePayloads_eq_ok_iff (hlen : values.length = columns.length) :
    (∃ payload, encodePayloads (values.zip columns) = .ok payload) ↔ TakesRow columns values := by
  induction values generalizing columns with
  | nil =>
    obtain rfl := length_eq_zero_iff.mp hlen.symm
    exact iff_of_true ⟨[], rfl⟩ .nil
  | cons v values ih =>
    cases columns with
    | nil => cases hlen
    | cons col columns =>
      have hih := ih (Nat.succ.inj hlen)
      rw [TakesRow, forall₂_cons, ← TakesRow, ← hih, zip_cons_cons, encodePayloads]
      by_cases hv : v = .null
      · rw [if_pos hv]
        exact ⟨fun h => ⟨.inl hv, h⟩, fun h => h.2⟩
      · rw [if_neg hv, or_iff_right hv, ← encodePayload_eq_ok_iff]
        cases encodePayload col.sqlType v <;> cases encodePayloads (values.zip columns) <;>
          simp [bind, Except.bind, pure, Except.pure]

theorem encodeRow_eq_ok_iff {schema : TableSchema} :
    (∃ raw, encodeRow schema values = .ok raw) ↔ TakesRow schema.columns values := by
  by_cases hlen : values.length = schema.columns.length
  · rw [← encodePayloads_eq_ok_iff hlen, encodeRow, if_neg (not_not.mpr hlen)]
    cases encodePayloads (values.zip schema.columns) <;>
      simp [bind, Except.bind, pure, Except.pure]
  · rw [encodeRow, if_pos hlen]
    refine iff_of_false ?_ fun h => hlen h.length_eq
    rintro ⟨raw, hraw⟩
    cases hraw

/-! ## What is read back -/

theorem utf8_of_ofUtf8 {b : Bytes} {s : String} (h : ofUtf8 b = some s) : utf8 s = b := by
  rw [ofUtf8, String.fromUTF8?] at h
  split at h
  · cases h
    rfl
  · cases h

theorem length_of_varLen {b rest : Bytes} {r : Bytes × Bytes}
    (h : decodePayload.varLen (beBytes 4 b.length ++ b ++ rest) = .ok r) :
    r.1.length = b.length % 2 ^ 32 := by
  change orText (splitAtChecked (ofBe (beBytes 4 b.length)) (b ++ rest)) _ = _ at h
  rw [splitAtChecked] at h
  split at h
  · next hle =>
    cases h
    rw [length_take_of_le hle, ofBe_beBytes, show 256 ^ 4 = 2 ^ 32 by decide]
  · cases h

theorem short_of_decodePayload {p rest rest' : Bytes} (hp : encodePayload ty v = .ok p)
    (h : decodePayload (p ++ rest) ty = .ok (v, rest')) :
    v.short := by
  have hshort : ∀ {b raw : Bytes}, raw.length = b.length % 2 ^ 32 → raw = b → b.length < 2 ^ 32 := by
    rintro b raw hlen rfl
    rw [hlen]
    exact Nat.mod_lt _ (by decide)
  cases v with
  | str s =>
    cases ty <;> cases hp
    rw [decodePayload, bind_eq_ok] at h
    obtain ⟨r, hr, h⟩ := h
    obtain ⟨t, ht, h⟩ := bind_eq_ok.mp h
    cases h
    cases hs : ofUtf8 r.1 with rw [← ofUtf8, hs] at ht
    | none =>
      cases ht
    | some t =>
      cases ht
      exact decide_eq_true (hshort (length_of_varLen hr) (utf8_of_ofUtf8 hs).symm)
  | bytes b =>
    cases ty <;> cases hp
    rw [decodePayload, bind_eq_ok] at h
    obtain ⟨r, hr, h⟩ := h
    cases h
    exact decide_eq_true (hshort (length_of_varLen hr) rfl)
  | _ => rfl

theorem short_of_go (bitmap : Bytes) (hlen : values.length = columns.length) (k : Nat)
    (hbits : ∀ i v, values[i]? = some v →
      (((bitmap.getD ((k + i) / 8) 0).toNat / 2 ^ ((k + i) % 8)) % 2 = 1 ↔ v = .null))
    {payload : Bytes} (henc : encodePayloads (values.zip columns) = .ok payload)
    (hdec : decodeRow.go bitmap (columns.zipIdx k) payload = .ok values) :
    ∀ v ∈ values, v.short := by
  induction values generalizing columns k payload with
  | nil => nofun
  | cons v values ih =>
    cases columns with
    | nil => cases hlen
    | cons col columns =>
      have hbit := hbits 0 v rfl
      have hrest : ∀ {payload : Bytes}, encodePayloads (values.zip columns) = .ok payload →
          decodeRow.go bitmap (columns.zipIdx (k + 1)) payload = .ok values →
          ∀ w ∈ values, w.short :=
        ih (Nat.succ.inj hlen) (k + 1) fun i w hi => by
          have := hbits (i + 1) w hi
          rwa [Nat.add_comm i 1, ← Nat.add_assoc] at this
      rw [zip_cons_cons, encodePayloads] at henc
      rw [zipIdx_cons, decodeRow.go] at hdec
      rw [Nat.add_zero] at hbit
      refine forall_mem_cons.mpr ?_
      by_cases hv : v = .null
      · rw [if_pos (hbit.mpr hv), bind_eq_ok] at hdec
        obtain ⟨vs, hgo, hdec⟩ := hdec
        cases hdec
        exact ⟨rfl, hrest henc hgo⟩
      · rw [if_neg hv, bind_eq_ok] at henc
        obtain ⟨p, hp, henc⟩ := henc
        obtain ⟨ps, hps, henc⟩ := bind_eq_ok.mp henc
        cases henc
        rw [if_neg (mt hbit.mp hv), bind_eq_ok] at hdec
        obtain ⟨⟨w, r⟩, hd, hdec⟩ := hdec
        obtain ⟨vs, hgo, hdec⟩ := bind_eq_ok.mp hdec
        cases hdec
        -- a short value leaves exactly the payloads of the others
        have hshort := short_of_decodePayload hp hd
        obtain ⟨p', hp', hread⟩ := decodePayload_encodePayload
          (Bool.and_eq_true_iff.mpr ⟨encodePayload_eq_ok_iff.mp ⟨p, hp⟩, hshort⟩)
        cases hp.symm.trans hp'
        cases hd.symm.trans (hread ps)
        exact ⟨hshort, hrest hps hgo⟩

/-! ## Round trips -/

theorem publish_preparedValue (header : UInt8) (payload : Bytes) :
    publish (preparedValue (header :: payload)) =
      (if payload = [] then headerTombstone else headerLive) :: payload := by
  cases payload <;> rfl

theorem short_of_decodeVersion {schema : TableSchema} {raw : Bytes}
    (henc : encodeRow schema values = .ok raw)
    (hdec : decodeVersion schema raw = .ok (headerLive, values)) : ∀ v ∈ values, v.short := by
  have hlen := (encodeRow_eq_ok_iff.mp ⟨raw, henc⟩).length_eq
  rw [encodeRow, if_neg (not_not.mpr hlen), bind_eq_ok] at henc
  obtain ⟨payload, hp, henc⟩ := henc
  cases henc
  have hbitmap : (nullBitmap values).length = (schema.columns.length + 7) / 8 := by
    rw [length_nullBitmap, hlen]
  rw [decodeVersion, if_neg (by decide), if_neg (by decide), bind_eq_ok] at hdec
  obtain ⟨vs, hgo, hdec⟩ := hdec
  cases hdec
  rw [decodeRow, splitAtChecked_append hbitmap] at hgo
  refine short_of_go (nullBitmap values) hlen 0 (fun i v hi => ?_) hp hgo
  rw [Nat.zero_add]
  exact bit_nullBitmap hi

/-- A row that is taken is read back, a row that does not match its table is refused, and rows
and tombstones are the same bytes after they were prepared and committed. -/
structure RoundTrips (schema : TableSchema) (values : List Value) : Prop where
  decoded : ∀ raw, encodeRow schema values = .ok raw →
    decodeVersion schema raw = .ok (headerLive, values)
  refused : ¬ TakesRow schema.columns values → ∃ e, encodeRow schema values = .error e
  flipped : ∀ raw, encodeRow schema values = .ok raw → publish (preparedValue raw) = raw
  tombstone : publish (preparedValue encodeTombstone) = encodeTombstone

/-- Nothing of a row is lost exactly when it is refused, or its table has a column and the length
of each of its texts fits four bytes. -/
theorem roundTrips_iff (schema : TableSchema) (values : List Value) :
    RoundTrips schema values ↔
      (TakesRow schema.columns values → schema.columns ≠ [] ∧ ∀ v ∈ values, v.short) := by
  constructor
  · intro h htakes
    obtain ⟨raw, henc⟩ := encodeRow_eq_ok_iff.mpr htakes
    refine ⟨fun hc => ?_, short_of_decodeVersion henc (h.decoded raw henc)⟩
    -- without a column the row is the header alone
    have hv : values = [] := length_eq_zero_iff.mp (by rw [htakes.length_eq, hc]; rfl)
    have hraw : encodeRow schema values = .ok [headerLive] := by
      rw [encodeRow, hv, hc]
      rfl
    exact absurd (h.flipped _ hraw) (by decide)
  · intro h
    refine ⟨fun raw henc => ?_, fun hno => ?_, fun raw henc => ?_, by decide⟩
    · obtain ⟨-, hs⟩ := h (encodeRow_eq_ok_iff.mp ⟨raw, henc⟩)
      obtain ⟨raw', henc', hdec⟩ := decodeVersion_encodeRow
        (fitsRow_of_takesRow (encodeRow_eq_ok_iff.mp ⟨raw, henc⟩) hs)
      cases henc.symm.trans henc'
      exact hdec
    · cases henc : encodeRow schema values with
      | error e => exact ⟨e, rfl⟩
      | ok raw => exact absurd (encodeRow_eq_ok_iff.mp ⟨raw, henc⟩) hno
    · obtain ⟨hc, -⟩ := h (encodeRow_eq_ok_iff.mp ⟨raw, henc⟩)
      obtain ⟨payload, rfl, hne⟩ := encodeRow_eq_ok henc hc
      rw [publish_preparedValue, if_neg hne]

/-- A table with a key and a text column. -/
def noteTable : TableSchema where
  id := 1
  name := "note"
  engine := .row
  columns := [⟨"id", .int, false⟩, ⟨"body", .varChar, true⟩]
  pk := ["id"]

theorem length_utf8_replicate (n : Nat) :
    (utf8 (String.ofList (List.replicate n 'a'))).length = n := by
  simp [utf8, List.utf8Encode, show 'a'.utf8Size = 1 from rfl]

/-- A text of `2 ^ 32` bytes is taken, with the length 0, and not read back. -/
theorem roundTrips_long_text : ∃ s : String, (utf8 s).length = 2 ^ 32 ∧
    TakesRow noteTable.columns [.int 1, .str s] ∧ ¬ RoundTrips noteTable [.int 1, .str s] := by
  have hlen := length_utf8_replicate (2 ^ 32)
  generalize String.ofList (List.replicate (2 ^ 32) 'a') = s at hlen
  have htakes : TakesRow noteTable.columns [.int 1, .str s] :=
    .cons (.inr rfl) (.cons (.inr rfl) .nil)
  refine ⟨s, hlen, htakes, fun h => ?_⟩
  obtain ⟨raw, henc⟩ := encodeRow_eq_ok_iff.mpr htakes
  have hshort := short_of_decodeVersion henc (h.decoded raw henc) (.str s) (by simp)
  rw [Value.short, decide_eq_true_iff] at hshort
  omega

end Rdb.Sql
