import Rdb.Lib.KeyOrder
import Rdb.Sql.RowCodec

/-!
# The order of keys

A key is the concatenation of the encoded values of some columns: fixed-width numbers with
the sign bit flipped, and escaped strings. Bytes compare as the values do, column by
column, and the decoder of each column stops where its value ends.

* `embeds_encodeKey`: the bytes of a value keep its order in front of anything that does
  not start with `FF`.
* `decodeKey_encodeKey`: what the decoder of a column reads back.
-/

namespace Rdb.Sql

open Lib List Option
open Except (ok)
open Value (int double date str)
open BitVec (ofNat intMin isLt)

/-! ## Decoding -/

def maxDecimalScale : UInt8 := 38

inductive KeyError where
  | text (msg : String)
  | tag (t : UInt8) (ty : SqlType)

def fixedKey (w : Nat) (what : String) (rest : Bytes) : Except KeyError (Nat × Bytes) :=
  match splitAtChecked w rest with
  | some (raw, r) => .ok (ofBe raw, r)
  | none => .error (.text (what ++ " key truncated"))

/-- The bytes of a variable-length field. -/
def varKey (rest : Bytes) : Except KeyError (Bytes × Bytes) :=
  match unescape rest with
  | some r => .ok r
  | none => .error (.text "varlen key missing terminator")

def decodeKey (bytes : Bytes) (ty : SqlType) : Except KeyError (Value × Bytes) :=
  match bytes with
  | [] => .error (.text "empty key value")
  | t :: rest => match ty with
    | .bool =>
      if t = 0x01 then match rest with
        | [] => .error (.text "bool key truncated")
        | b :: r => .ok (.bool (b ≠ 0), r)
      else .error (.tag t ty)
    | .int =>
      if t = 0x02 then do
        let (n, r) ← fixedKey 8 "int" rest
        return (.int (ofNat 64 n ^^^ intMin 64), r)
      else .error (.tag t ty)
    | .decimal _ scale =>
      if t = 0x08 then
        if scale > maxDecimalScale then
          .error (.text s!"decimal scale {scale.toNat} exceeds maximum")
        else do
          let (n, r) ← fixedKey 16 "decimal" rest
          return (.decimal (ofNat 128 n ^^^ intMin 128) scale, r)
      else .error (.tag t ty)
    | .date =>
      if t = 0x06 then do
        let (n, r) ← fixedKey 8 "date" rest
        return (.date (ofNat 64 n ^^^ intMin 64), r)
      else .error (.tag t ty)
    | .dateTime =>
      if t = 0x07 then do
        let (n, r) ← fixedKey 8 "datetime" rest
        return (.dateTime (ofNat 64 n ^^^ intMin 64), r)
      else .error (.tag t ty)
    | .double =>
      if t = 0x03 then do
        let (n, r) ← fixedKey 8 "double" rest
        let ordered := ofNat 64 n
        let bits := if ordered &&& intMin 64 ≠ 0 then ordered &&& ~~~ intMin 64
          else ~~~ordered
        return (.double bits, r)
      else .error (.tag t ty)
    | .varChar =>
      if t = 0x04 then do
        let (raw, r) ← varKey rest
        match ofUtf8 raw with
        | some s => return (.str s, r)
        | none => .error (.text "invalid utf8 key")
      else .error (.tag t ty)
    | .blob =>
      if t = 0x05 then do
        let (raw, r) ← varKey rest
        return (.bytes raw, r)
      else .error (.tag t ty)

/-- The values of some columns, one behind the other. -/
def decodeKeys : List SqlType → Bytes → Except KeyError (List Value × Bytes)
  | [], rest => .ok ([], rest)
  | ty :: tys, rest => do
    let (v, rest) ← decodeKey rest ty
    let (vs, rest) ← decodeKeys tys rest
    return (v :: vs, rest)

/-- The types of the primary key; `none` is the panic on a missing column. -/
def TableSchema.pkTypes (schema : TableSchema) : Option (List SqlType) := do
  let is ← schema.pkIndices
  is.mapM fun i => (schema.columns[i]?).map (·.sqlType)

inductive PkError where
  | column (name : String) (e : KeyError)
  | trailing

def pkDecodeColumns : List (String × SqlType) → Bytes → Except PkError (List Value)
  | [], rest => if rest = [] then .ok [] else .error .trailing
  | (name, ty) :: cols, rest =>
    match decodeKey rest ty with
    | .error e => .error (.column name e)
    | .ok (v, rest) => (pkDecodeColumns cols rest).map (v :: ·)

def pkDecodeRow (bytes : Bytes) (schema : TableSchema) : Option (Except PkError (List Value)) :=
  schema.pkTypes.map fun tys => pkDecodeColumns (schema.pk.zip tys) bytes

/-! ## Values of a type and their order -/

def Value.WithinScale : Value → Prop
  | .decimal _ s => s ≤ maxDecimalScale
  | _ => True

def SqlType.Has (ty : SqlType) (v : Value) : Prop := v.isOf ty ∧ v.WithinScale

/-- Where a double stands in the total order: the bits of the positive ones, and the negative ones
below them by their magnitude. -/
def f64Total (bits : BitVec 64) : Int :=
  if bits.msb then -((bits.toNat : Int) - 2 ^ 63) - 1 else bits.toNat

def Value.lt : Value → Value → Prop
  | .bool a, .bool b => a = false ∧ b
  | .int a, .int b => a.toInt < b.toInt
  | .double a, .double b => f64Total a < f64Total b
  | .decimal a _, .decimal b _ => a.toInt < b.toInt
  | .date a, .date b => a.toInt < b.toInt
  | .dateTime a, .dateTime b => a.toInt < b.toInt
  | .str a, .str b => utf8 a < utf8 b
  | .bytes a, .bytes b => a < b
  | _, _ => False

instance : DecidableRel Value.lt := fun a b => by
  cases a <;> cases b <;> unfold Value.lt <;> infer_instance

/-! ## Numbers -/

variable {n : Nat}

theorem xor_two_pow {k : Nat} (h : n < 2 ^ k) : n ^^^ 2 ^ k = n + 2 ^ k := by
  refine Nat.eq_of_testBit_eq fun i => ?_
  rw [Nat.testBit_xor, testBit_add_two_pow h]
  by_cases hi : k = i
  · subst hi
    rw [Nat.testBit_lt_two_pow h]
    simp
  · simp [hi]

variable {w : Nat}

theorem toNat_xor_intMin (i : BitVec (w + 1)) :
    ((i ^^^ intMin (w + 1)).toNat : Int) = i.toInt + 2 ^ w := by
  have hmin : (intMin (w + 1)).toNat = 2 ^ w := by
    rw [BitVec.toNat_intMin_of_pos (Nat.succ_pos w), Nat.succ_sub_one]
  have hpow : (2 : Nat) ^ (w + 1) = 2 ^ w + 2 ^ w := by rw [pow_succ]; omega
  rw [BitVec.toNat_xor, hmin, BitVec.toInt_eq_toNat_cond]
  by_cases hneg : 2 * i.toNat < 2 ^ (w + 1)
  · rw [if_pos hneg, xor_two_pow (by omega)]
    rfl
  · have hrest : i.toNat - 2 ^ w < 2 ^ w := by omega
    have hflip : i.toNat ^^^ 2 ^ w = i.toNat - 2 ^ w := by
      have hsum : i.toNat = i.toNat - 2 ^ w + 2 ^ w := by omega
      calc i.toNat ^^^ 2 ^ w = (i.toNat - 2 ^ w + 2 ^ w) ^^^ 2 ^ w := by rw [← hsum]
        _ = ((i.toNat - 2 ^ w) ^^^ 2 ^ w) ^^^ 2 ^ w := by rw [xor_two_pow hrest]
        _ = i.toNat - 2 ^ w := by rw [Nat.xor_assoc, Nat.xor_self, Nat.xor_zero]
    rw [if_neg hneg, hflip, Nat.cast_sub (by omega)]
    push_cast
    ring

theorem embeds_signed (ok : Bytes → Prop) (hw : 256 ^ w = 2 ^ (n + 1)) :
    Embeds ok (fun a b : BitVec (n + 1) => a.toInt < b.toInt)
      (fun i => beBytes w (i ^^^ intMin (n + 1)).toNat) fun _ => True := by
  refine (embeds_beBytes ok w).comap (fun i _ => by rw [hw]; exact isLt _) ?_ ?_
  · intro a b _ _ h
    exact (BitVec.xor_left_inj _).mp (BitVec.eq_of_toNat_eq h)
  · intro a b _ _
    have ha := toNat_xor_intMin a
    have hb := toNat_xor_intMin b
    omega

theorem toNat_orderedBits (bits : BitVec 64) :
    ((orderedBits bits).toNat : Int) = f64Total bits + 2 ^ 63 := by
  have hmsb : bits.msb ↔ 2 ^ 63 ≤ bits.toNat := by
    rw [BitVec.msb_eq_decide, decide_eq_true_iff]
  unfold orderedBits f64Total
  simp only [ne_eq, and_intMin_eq_zero_iff, Bool.not_eq_false]
  by_cases h : bits.msb
  · rw [if_pos h, if_pos h, BitVec.toNat_not]
    omega
  · -- no bit of a positive double meets the sign bit
    have hpos : bits.toNat < 2 ^ 63 := by
      by_contra hle
      exact h (hmsb.mpr (Nat.le_of_not_lt hle))
    have hor : bits.toNat ||| 2 ^ 63 = bits.toNat + 2 ^ 63 := by
      rw [Nat.or_comm, Nat.add_comm]
      exact (Nat.two_pow_add_eq_or_of_lt hpos 1).symm
    rw [if_neg h, if_neg h, BitVec.toNat_or, BitVec.toNat_intMin_of_pos (by decide), hor]
    rfl

theorem embeds_double (ok : Bytes → Prop) :
    Embeds ok (fun a b => f64Total a < f64Total b) (fun bits => beBytes 8 (orderedBits bits).toNat)
      fun _ => True := by
  refine (embeds_beBytes ok 8).comap (fun i _ => isLt _) ?_ ?_
  · intro a b _ _ h
    exact orderedBits_inj (BitVec.eq_of_toNat_eq h)
  · intro a b _ _
    have ha := toNat_orderedBits a
    have hb := toNat_orderedBits b
    omega

inductive SqlType.Shape : SqlType → Value → Prop
  | bool (b : Bool) : Shape .bool (.bool b)
  | int (i : BitVec 64) : Shape .int (.int i)
  | double (bits : BitVec 64) : Shape .double (.double bits)
  | decimal {precision scale : UInt8} (m : BitVec 128) :
    Shape (.decimal precision scale) (.decimal m scale)
  | date (i : BitVec 64) : Shape .date (.date i)
  | dateTime (i : BitVec 64) : Shape .dateTime (.dateTime i)
  | varChar (s : String) : Shape .varChar (.str s)
  | blob (b : Bytes) : Shape .blob (.bytes b)

theorem SqlType.Has.shape {ty : SqlType} {v : Value} (h : ty.Has v) : ty.Shape v := by
  cases ty <;> cases v <;> first | constructor | cases h.1 | skip
  rw [of_decide_eq_true h.1]
  constructor

/-! ## Components -/

theorem keyBytes_eq (tag : UInt8) (b : Bytes) : keyBytes tag b = tag :: (escape b ++ [0x00]) := rfl

theorem embeds_encodeKey (ty : SqlType) : Embeds Tame Value.lt encodeKey ty.Has := by
  have hint : ∀ tag, Embeds Tame (fun a b : BitVec 64 => a.toInt < b.toInt) (keyInt tag) fun _ => True :=
    fun tag => (embeds_signed Tame (w := 8) (n := 63) (by decide)).cons tag
  have hdec := (embeds_signed Tame (w := 16) (n := 127) (by decide)).cons 0x08
  have hdouble := (embeds_double Tame).cons 0x03
  have hbytes : ∀ tag, Embeds Tame (· < ·) (keyBytes tag) fun _ => True := fun tag =>
    embeds_escape.cons tag
  intro a b ha hb x y hx hy
  cases ha.shape with
  | bool a =>
    cases hb.shape with
    | bool b => cases a <;> cases b <;> simp [encodeKey, Value.lt, cons_lt_cons_iff]
  | int a =>
    cases hb.shape with
    | int b =>
      rw [int.injEq]
      exact hint 0x02 a b trivial trivial x y hx hy
  | double a =>
    cases hb.shape with
    | double b =>
      rw [double.injEq]
      exact hdouble a b trivial trivial x y hx hy
  | decimal a =>
    cases hb.shape with
    | decimal b =>
      rw [Value.decimal.injEq, and_iff_left rfl]
      exact hdec a b trivial trivial x y hx hy
  | date a =>
    cases hb.shape with
    | date b =>
      rw [date.injEq]
      exact hint 0x06 a b trivial trivial x y hx hy
  | dateTime a =>
    cases hb.shape with
    | dateTime b =>
      rw [Value.dateTime.injEq]
      exact hint 0x07 a b trivial trivial x y hx hy
  | varChar a =>
    cases hb.shape with
    | varChar b =>
      rw [str.injEq, show a = b ↔ utf8 a = utf8 b from ⟨congrArg utf8, utf8_inj⟩]
      exact hbytes 0x04 (utf8 a) (utf8 b) trivial trivial x y hx hy
  | blob a =>
    cases hb.shape with
    | blob b =>
      rw [Value.bytes.injEq]
      exact hbytes 0x05 a b trivial trivial x y hx hy

theorem tame_encodeKey (v : Value) (x : Bytes) : Tame (encodeKey v ++ x) := by
  have htag : v.tag ≠ 0xff := by cases v <;> exact of_decide_eq_true rfl
  rw [Tame, head?_append, head?_encodeKey]
  exact fun h => htag (some.inj h)

theorem encodeKey_ne_nil (v : Value) : encodeKey v ≠ [] := fun h => by
  have := head?_encodeKey v
  rw [h] at this
  cases this

variable {ty : SqlType} {v : Value}

theorem SqlType.Has.ne_null (h : ty.Has v) : v ≠ .null := by
  rintro rfl
  cases ty <;> cases h.1

/-! ## Decoding what was encoded -/

theorem fixedKey_beBytes (hn : n < 256 ^ w) (what : String) (x : Bytes) :
    fixedKey w what (beBytes w n ++ x) = .ok (n, x) := by
  rw [fixedKey, splitAtChecked_append (length_beBytes w n)]
  simp only [ofBe_beBytes, Nat.mod_eq_of_lt hn]

theorem varKey_escape (b : Bytes) {x : Bytes} (hx : Tame x) :
    varKey (escape b ++ [0x00] ++ x) = .ok (b, x) := by
  rw [varKey, append_assoc, singleton_append, unescape_escape b hx]

theorem xor_intMin_xor (i : BitVec w) :
    ofNat w (i ^^^ intMin w).toNat ^^^ intMin w = i := by
  rw [BitVec.ofNat_toNat, BitVec.setWidth_eq, BitVec.xor_assoc, BitVec.xor_self, BitVec.xor_zero]

theorem bits_orderedBits (bits : BitVec 64) :
    (if orderedBits bits &&& intMin 64 ≠ 0 then orderedBits bits &&& ~~~ intMin 64
      else ~~~orderedBits bits) = bits := by
  simp only [ne_eq, and_intMin_eq_zero_iff, msb_orderedBits, Bool.not_eq_false', Bool.not_eq_true]
  by_cases h : bits.msb
  · have hneg : orderedBits bits = ~~~bits := by
      rw [orderedBits, if_pos]
      rw [ne_eq, and_intMin_eq_zero_iff, h]
      decide
    rw [if_neg (by rw [h]; decide), hneg, BitVec.not_not]
  · have hz : bits.msb = false := Bool.eq_false_of_not_eq_true h
    have hpos : orderedBits bits = bits ||| intMin 64 := by
      rw [orderedBits, if_neg (not_not.mpr ((and_intMin_eq_zero_iff bits).mpr hz))]
    rw [if_pos hz, hpos]
    refine BitVec.eq_of_getLsbD_eq fun i hi => ?_
    by_cases h63 : i = 63
    · subst h63
      rw [BitVec.msb_eq_getLsbD_last] at hz
      rw [hz, BitVec.getLsbD_and, BitVec.getLsbD_not, BitVec.getLsbD_intMin]
      simp
    · rw [BitVec.getLsbD_and, BitVec.getLsbD_or, BitVec.getLsbD_not, BitVec.getLsbD_intMin]
      simp [show i + 1 ≠ 64 by omega, hi]

theorem decodeKey_encodeKey (h : ty.Has v) {x : Bytes} (hx : Tame x) :
    decodeKey (encodeKey v ++ x) ty = .ok (v, x) := by
  have hint : ∀ (i : BitVec 64) (what : String),
      fixedKey 8 what (beBytes 8 (i ^^^ intMin 64).toNat ++ x)
        = .ok ((i ^^^ intMin 64).toNat, x) :=
    fun i what => fixedKey_beBytes (isLt _) what x
  cases h.shape with
  | bool b =>
    cases b <;> rfl
  | int i =>
    simp only [encodeKey, keyInt, cons_append, decodeKey, hint]
    exact congrArg (fun v => ok (int v, x)) (xor_intMin_xor i)
  | double bits =>
    have hfix := fixedKey_beBytes (w := 8) (orderedBits bits).isLt "double" x
    have henc : encodeKey (.double bits) = 0x03 :: beBytes 8 (orderedBits bits).toNat := rfl
    simp only [henc, cons_append, decodeKey, hfix]
    refine congrArg (fun v => ok (double v, x)) ?_
    rw [BitVec.ofNat_toNat]
    exact bits_orderedBits bits
  | @decimal precision s m =>
    have hs : s ≤ maxDecimalScale := h.2
    have hfix := fixedKey_beBytes (w := 16) (m ^^^ intMin 128).isLt "decimal" x
    simp only [encodeKey, keyDecimal, cons_append, decodeKey, not_lt.mpr hs, hfix]
    exact congrArg (fun v => ok (Value.decimal v s, x)) (xor_intMin_xor m)
  | date i =>
    simp only [encodeKey, keyInt, cons_append, decodeKey, hint]
    exact congrArg (fun v => ok (date v, x)) (xor_intMin_xor i)
  | dateTime i =>
    simp only [encodeKey, keyInt, cons_append, decodeKey, hint]
    exact congrArg (fun v => ok (Value.dateTime v, x)) (xor_intMin_xor i)
  | varChar s =>
    simp only [encodeKey, keyBytes_eq, cons_append, decodeKey, varKey_escape _ hx]
    change (match ofUtf8 (utf8 s) with
      | some s => ok (str s, x)
      | none => .error (KeyError.text "invalid utf8 key")) = .ok (.str s, x)
    rw [ofUtf8_utf8]
  | blob b =>
    simp only [encodeKey, keyBytes_eq, cons_append, decodeKey, varKey_escape b hx]
    rfl

theorem SqlType.Has.eq_of_encodeKey {w : Value} (hv : ty.Has v) (hw : ty.Has w)
    (h : encodeKey v = encodeKey w) : v = w := by
  have hnil : Tame [] := nofun
  have hr := decodeKey_encodeKey hv hnil
  rw [h, decodeKey_encodeKey hw hnil] at hr
  injection hr with hr
  exact (Prod.mk.inj hr).1.symm

/-! ## Tuples and primary keys -/

variable {tys : List SqlType} {vs : List Value}

theorem decodeKeys_encodeKeys (h : List.Forall₂ SqlType.Has tys vs) {tail : Bytes}
    (ht : Tame tail) :
    decodeKeys tys (vs.flatMap encodeKey ++ tail) = .ok (vs, tail) := by
  induction h with
  | nil => rfl
  | @cons ty v tys vs hv _ ih =>
    have hrest : Tame (vs.flatMap encodeKey ++ tail) := by
      cases vs with
      | nil => exact ht
      | cons w ws =>
        rw [flatMap_cons, append_assoc]
        exact tame_encodeKey w _
    rw [flatMap_cons, append_assoc, decodeKeys, decodeKey_encodeKey hv hrest]
    change (decodeKeys tys (vs.flatMap encodeKey ++ tail) >>= fun r => _) = _
    rw [ih]
    rfl

theorem pkDecodeColumns_of_decodeKeys {names : List String} (hlen : names.length = tys.length)
    {bytes : Bytes}
    (h : decodeKeys tys bytes = .ok (vs, [])) : pkDecodeColumns (names.zip tys) bytes = .ok vs := by
  induction tys generalizing names bytes vs with
  | nil =>
    cases h
    rw [zip_nil_right]
    exact if_pos rfl
  | cons ty tys ih =>
    cases names with
    | nil => cases hlen
    | cons name names =>
      obtain ⟨⟨v, rest⟩, hv, h⟩ := bind_eq_ok.mp h
      obtain ⟨⟨ws, rest'⟩, hvs, h⟩ := bind_eq_ok.mp h
      cases h
      rw [zip_cons_cons, pkDecodeColumns, hv]
      simp only [ih (Nat.succ.inj hlen) hvs]
      rfl

def TableSchema.pkValues (schema : TableSchema) (values : List Value) : Option (List Value) := do
  let is ← schema.pkIndices
  is.mapM fun i => values[i]?

theorem pkEncodeRow_of_pkValues {schema : TableSchema} {values : List Value}
    (h : schema.pkValues values = some vs) :
    pkEncodeRow schema values = some (vs.flatMap encodeKey) := by
  rw [TableSchema.pkValues, bind_eq_bind, bind_eq_some_iff] at h
  obtain ⟨is, his, hvs⟩ := h
  rw [pkEncodeRow, his]
  simp only [bind_eq_bind, bind_some, hvs]
  rfl

theorem length_of_mapM_some {α β : Type} {f : α → Option β} {l : List α} {r : List β}
    (h : l.mapM f = some r) : l.length = r.length := by
  induction l generalizing r with
  | nil =>
    cases h
    rfl
  | cons a l ih =>
    rw [mapM_cons] at h
    simp only [bind_eq_bind, bind_eq_some_iff] at h
    obtain ⟨b, -, bs, hbs, hr⟩ := h
    cases hr
    rw [length_cons, length_cons, ih hbs]

theorem length_pkTypes {schema : TableSchema}
    (h : schema.pkTypes = some tys) : schema.pk.length = tys.length := by
  rw [TableSchema.pkTypes, bind_eq_bind, bind_eq_some_iff] at h
  obtain ⟨is, his, htys⟩ := h
  exact (length_of_mapM_some his).trans (length_of_mapM_some htys)

/-- The bytes of two tuples of the same types compare as the tuples do, the tuple and what
follows it are read back, and so is a primary key. -/
theorem encodeKeys_order {tys : List SqlType} {vs ws : List Value}
    (hv : List.Forall₂ SqlType.Has tys vs) (hw : List.Forall₂ SqlType.Has tys ws) :
    (vs.flatMap encodeKey < ws.flatMap encodeKey ↔ List.Lex Value.lt vs ws) ∧
    (vs.flatMap encodeKey = ws.flatMap encodeKey ↔ vs = ws) ∧
    (∀ tail : Bytes, tail.head? ≠ some 0xff →
      decodeKeys tys (vs.flatMap encodeKey ++ tail) = .ok (vs, tail)) ∧
    ∀ (schema : TableSchema) (values : List Value),
      schema.pkTypes = some tys → schema.pkValues values = some vs →
        (pkEncodeRow schema values).bind (pkDecodeRow · schema) = some (.ok vs) := by
  have htame : Tame [] := nofun
  have hdecode : ∀ {us : List Value}, Forall₂ SqlType.Has tys us →
      decodeKeys tys (us.flatMap encodeKey) = .ok (us, []) := fun {us} hus => by
    have := decodeKeys_encodeKeys hus htame
    rwa [append_nil] at this
  refine ⟨?_, ⟨fun h => ?_, fun h => h ▸ rfl⟩, fun tail ht => decodeKeys_encodeKeys hv ht, ?_⟩
  · have h := Embeds.flatMap embeds_encodeKey tame_encodeKey hv hw htame htame
    rw [append_nil, append_nil] at h
    rw [h]
    simp
  · have := (hdecode hv).symm.trans (h ▸ hdecode hw)
    injection this with this
    exact (Prod.mk.inj this).1
  · intro schema values htys hvs
    rw [pkEncodeRow_of_pkValues hvs, bind_some, pkDecodeRow, htys, map_some,
      pkDecodeColumns_of_decodeKeys (length_pkTypes htys) (hdecode hv)]

/-- Texts with an embedded NUL in front of a number. -/
theorem encodeKeys_order_embedded_nul :
    let tys := [SqlType.varChar, SqlType.int]
    let vs := [str "a", int 7#64]
    let ws := [str "a\x00", int (-1#64)]
    vs.flatMap encodeKey < ws.flatMap encodeKey ∧
      decodeKeys tys (ws.flatMap encodeKey ++ [0x00]) = .ok (ws, [0x00]) := by
  have hv : Forall₂ SqlType.Has [.varChar, .int] [.str "a", .int 7#64] :=
    .cons ⟨rfl, trivial⟩ (.cons ⟨rfl, trivial⟩ .nil)
  have hw : Forall₂ SqlType.Has [.varChar, .int] [.str "a\x00", .int (-1#64)] :=
    .cons ⟨rfl, trivial⟩ (.cons ⟨rfl, trivial⟩ .nil)
  refine ⟨(encodeKeys_order hv hw).1.mpr (.rel ?_), (encodeKeys_order hw hw).2.2.1 [0x00] (by decide)⟩
  exact (by decide : utf8 "a" < utf8 "a\x00")

end Rdb.Sql
