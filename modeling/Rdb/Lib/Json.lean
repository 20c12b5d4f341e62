import Rdb.Lib.Bytes
import Rdb.Lib.SortedMap

/-!
# Compact JSON text

`JsonFormat` is a serialisation with its reader: what was written reads back.
`JsonCodec` is one that can stand inside a longer text. The text it writes ends
where the next byte is no digit, so the codecs compose: numbers, strings,
arrays, `null`, objects with fixed fields and objects that are maps.
-/

namespace Rdb.Lib

open List Option
open Option (bind_some map_some)

universe u v

/-- A serialisation whose reader accepts what it writes. -/
structure JsonFormat (α : Type u) where
  toVec : α → Bytes
  fromSlice : Bytes → Option α
  fromSlice_toVec : ∀ a, fromSlice (toVec a) = some a

/-- A text after which a codec may stop. -/
def Delim (rest : Bytes) : Prop := ∀ x, rest.head? = some x → isDigit x = false

structure JsonCodec (α : Type u) where
  enc : α → Bytes
  dec : Bytes → Option (α × Bytes)
  dec_enc : ∀ a rest, Delim rest → dec (enc a ++ rest) = some (a, rest)
  /-- No text starts like the end of an array or an object. -/
  head_ne : ∀ a, ∃ x xs, enc a = x :: xs ∧ x ≠ 0x5d ∧ x ≠ 0x7d

theorem delim_cons {x : UInt8} (h : isDigit x = false) (rest : Bytes) : Delim (x :: rest) := by
  rintro y hy
  cases hy
  exact h

namespace JsonCodec

variable {α : Type u} {β : Type v}

def toFormat (c : JsonCodec α) : JsonFormat α where
  toVec := c.enc
  fromSlice b := match c.dec b with
    | some (a, []) => some a
    | _ => none
  fromSlice_toVec a := by
    have h := c.dec_enc a [] (by rintro x ⟨⟩)
    rw [List.append_nil] at h
    simp [h]

/-! ## Scalars -/

def nat : JsonCodec Nat where
  enc := decimal
  dec b := if b.takeWhile isDigit = [] then none
    else some (decVal (b.takeWhile isDigit), b.dropWhile isDigit)
  dec_enc n rest h := by
    have hd : ∀ x ∈ decimal n, isDigit x := fun _ => isDigit_of_mem_decimal
    have ht : rest.takeWhile isDigit = [] ∧ rest.dropWhile isDigit = rest := by
      cases rest with
      | nil => exact ⟨rfl, rfl⟩
      | cons x rest => simp [h x rfl]
    rw [List.takeWhile_append_of_pos hd, List.dropWhile_append_of_pos hd, ht.1, ht.2,
      List.append_nil, if_neg (decimal_ne_nil n), decVal_decimal]
  head_ne n := by
    obtain ⟨x, xs, h⟩ := List.exists_cons_of_ne_nil (decimal_ne_nil n)
    have hx : isDigit x = true := isDigit_of_mem_decimal (n := n) (by rw [h]; simp)
    refine ⟨x, xs, h, ?_, ?_⟩ <;> (rintro rfl; revert hx; decide)

/-- Reading `c` and converting what was read. -/
def iso (c : JsonCodec α) (fwd : β → α) (bwd : α → Option β) (h : ∀ b, bwd (fwd b) = some b) :
    JsonCodec β where
  enc b := c.enc (fwd b)
  dec t := (c.dec t).bind fun p => (bwd p.1).map (·, p.2)
  dec_enc b rest hr := by simp [c.dec_enc (fwd b) rest hr, h b]
  head_ne b := c.head_ne (fwd b)

def byte : JsonCodec UInt8 :=
  nat.iso UInt8.toNat (fun n => if n < 256 then some (UInt8.ofNat n) else none) fun b => by
    rw [if_pos b.toNat_lt, UInt8.ofNat_toNat]

def bool : JsonCodec Bool where
  enc b := if b then [0x74, 0x72, 0x75, 0x65] else [0x66, 0x61, 0x6c, 0x73, 0x65]
  dec
    | 0x74 :: 0x72 :: 0x75 :: 0x65 :: rest => some (true, rest)
    | 0x66 :: 0x61 :: 0x6c :: 0x73 :: 0x65 :: rest => some (false, rest)
    | _ => none
  dec_enc b rest _ := by cases b <;> rfl
  head_ne b := by cases b <;> exact ⟨_, _, rfl, by decide, by decide⟩

/-! ## Strings -/

def hexDigit (n : UInt8) : UInt8 := if n < 10 then 0x30 + n else 0x57 + n

def unhex (x : UInt8) : UInt8 := if x < 0x3a then x - 0x30 else x - 0x57

/-- One byte of a string: quotes, backslashes and control characters are escaped. -/
def escByte (b : UInt8) : Bytes :=
  if b = 0x22 then [0x5c, 0x22]
  else if b = 0x5c then [0x5c, 0x5c]
  else if b = 0x08 then [0x5c, 0x62]
  else if b = 0x09 then [0x5c, 0x74]
  else if b = 0x0a then [0x5c, 0x6e]
  else if b = 0x0c then [0x5c, 0x66]
  else if b = 0x0d then [0x5c, 0x72]
  else if b < 0x20 then [0x5c, 0x75, 0x30, 0x30, hexDigit (b / 16), hexDigit (b % 16)]
  else [b]

/-- The byte a short escape stands for. -/
def unescChar (c : UInt8) : Option UInt8 :=
  if c = 0x22 ∨ c = 0x5c then some c
  else if c = 0x62 then some 0x08
  else if c = 0x74 then some 0x09
  else if c = 0x6e then some 0x0a
  else if c = 0x66 then some 0x0c
  else if c = 0x72 then some 0x0d
  else none

/-- The rest of a string after its opening quote. -/
def unescape : Bytes → Option (Bytes × Bytes)
  | [] => none
  | c :: t =>
    if c = 0x22 then some ([], t)
    else if c = 0x5c then
      match t with
      | 0x75 :: 0x30 :: 0x30 :: h :: l :: r =>
        (unescape r).map fun p => ((unhex h * 16 + unhex l) :: p.1, p.2)
      | e :: r => (unescape r).bind fun p => (unescChar e).map fun x => (x :: p.1, p.2)
      | [] => none
    else (unescape t).map fun p => (c :: p.1, p.2)

theorem unhex_hexDigit {b : UInt8} (h : b < 0x20) :
    unhex (hexDigit (b / 16)) * 16 + unhex (hexDigit (b % 16)) = b := by
  have hall : ∀ n < 32, unhex (hexDigit (UInt8.ofNat n / 16)) * 16 +
      unhex (hexDigit (UInt8.ofNat n % 16)) = UInt8.ofNat n := by decide
  have := hall b.toNat (UInt8.lt_iff_toNat_lt.mp h)
  rwa [UInt8.ofNat_toNat] at this

theorem unescape_quote (t : Bytes) : unescape (0x22 :: t) = some ([], t) := unescape.eq_def _

theorem unescape_plain {c : UInt8} (h : c ≠ 0x22) (h' : c ≠ 0x5c) (t : Bytes) :
    unescape (c :: t) = (unescape t).map fun p => (c :: p.1, p.2) := by
  rw [unescape.eq_def]
  simp only [h, h', if_false]

theorem unescape_hex (h l : UInt8) (t : Bytes) :
    unescape (0x5c :: 0x75 :: 0x30 :: 0x30 :: h :: l :: t) =
      (unescape t).map fun p => ((unhex h * 16 + unhex l) :: p.1, p.2) := unescape.eq_def _

theorem unescape_short {e x : UInt8} (h : unescChar e = some x) (he : e ≠ 0x75) (t : Bytes) :
    unescape (0x5c :: e :: t) = (unescape t).map fun p => (x :: p.1, p.2) := by
  rw [unescape.eq_def]
  simp only [if_neg (show (0x5c : UInt8) ≠ 0x22 by decide), if_true]
  split
  · next heq => exact absurd (cons.inj heq).1 he
  · next heq =>
    cases heq
    rw [h]
    cases unescape t <;> rfl
  · next heq => cases heq

theorem unescape_escByte (b : UInt8) (t : Bytes) :
    unescape (escByte b ++ t) = (unescape t).map fun p => (b :: p.1, p.2) := by
  unfold escByte
  split_ifs with h22 h5c h08 h09 h0a h0c h0d hctl
  · rw [h22]; exact unescape_short rfl (by decide) t
  · rw [h5c]; exact unescape_short rfl (by decide) t
  · rw [h08]; exact unescape_short rfl (by decide) t
  · rw [h09]; exact unescape_short rfl (by decide) t
  · rw [h0a]; exact unescape_short rfl (by decide) t
  · rw [h0c]; exact unescape_short rfl (by decide) t
  · rw [h0d]; exact unescape_short rfl (by decide) t
  · have h := unescape_hex (hexDigit (b / 16)) (hexDigit (b % 16)) t
    rwa [unhex_hexDigit hctl] at h
  · exact unescape_plain h22 h5c t

theorem unescape_flatMap (s rest : Bytes) :
    unescape (s.flatMap escByte ++ 0x22 :: rest) = some (s, rest) := by
  induction s with
  | nil => exact unescape_quote rest
  | cons b s ih => rw [flatMap_cons, append_assoc, unescape_escByte, ih, map_some]

def string : JsonCodec Bytes where
  enc s := 0x22 :: (s.flatMap escByte ++ [0x22])
  dec
    | 0x22 :: t => unescape t
    | _ => none
  dec_enc s rest _ := by
    rw [List.cons_append, List.append_assoc, List.singleton_append]
    exact unescape_flatMap s rest
  head_ne s := ⟨_, _, rfl, by decide, by decide⟩

/-! ## Composite texts -/

def expect (s b : Bytes) : Option Bytes := if s <+: b then some (b.drop s.length) else none

theorem expect_append (s rest : Bytes) : expect s (s ++ rest) = some rest := by
  rw [expect, if_pos (prefix_append s rest), drop_left]

def after (lit : Bytes) (hl : ∃ x xs, lit = x :: xs ∧ x ≠ 0x5d ∧ x ≠ 0x7d) (c : JsonCodec α) :
    JsonCodec α where
  enc a := lit ++ c.enc a
  dec t := (expect lit t).bind c.dec
  dec_enc a rest h := by rw [List.append_assoc, expect_append, bind_some, c.dec_enc a rest h]
  head_ne a := by
    obtain ⟨x, xs, rfl, hx⟩ := hl
    exact ⟨x, xs ++ c.enc a, rfl, hx⟩

def closed (z : UInt8) (hz : isDigit z = false) (c : JsonCodec α) : JsonCodec α where
  enc a := c.enc a ++ [z]
  dec t := (c.dec t).bind fun p => (expect [z] p.2).map (p.1, ·)
  dec_enc a rest _ := by
    have h := c.dec_enc a ([z] ++ rest) (delim_cons hz rest)
    rw [List.append_assoc, h, bind_some, expect_append, map_some]
  head_ne a := by
    obtain ⟨x, xs, h, hx⟩ := c.head_ne a
    exact ⟨x, xs ++ [z], by rw [h]; rfl, hx⟩

def seq (z : UInt8) (hz : isDigit z = false) (a : JsonCodec α) (b : JsonCodec β) :
    JsonCodec (α × β) where
  enc p := a.enc p.1 ++ ([z] ++ b.enc p.2)
  dec t := (a.dec t).bind fun p => (expect [z] p.2).bind fun r =>
    (b.dec r).map fun q => ((p.1, q.1), q.2)
  dec_enc p rest h := by
    have ha := a.dec_enc p.1 ([z] ++ (b.enc p.2 ++ rest)) (delim_cons hz _)
    rw [List.append_assoc, List.append_assoc, ha, bind_some, expect_append,
      bind_some, b.dec_enc p.2 rest h, map_some]
  head_ne p := by
    obtain ⟨x, xs, h, hx⟩ := a.head_ne p.1
    exact ⟨x, xs ++ ([z] ++ b.enc p.2), by rw [h]; rfl, hx⟩

/-- `null` or a text that does not start like it. -/
def nullable (c : JsonCodec α) (hc : ∀ a, (c.enc a).head? ≠ some 0x6e) : JsonCodec (Option α) where
  enc
    | none => [0x6e, 0x75, 0x6c, 0x6c]
    | some a => c.enc a
  dec t := match expect [0x6e, 0x75, 0x6c, 0x6c] t with
    | some r => some (none, r)
    | none => (c.dec t).map fun p => (some p.1, p.2)
  dec_enc o rest h := by
    cases o with
    | none => rw [expect_append]
    | some a =>
      have hn : expect [0x6e, 0x75, 0x6c, 0x6c] (c.enc a ++ rest) = none := by
        rw [expect, if_neg]
        rintro ⟨t, ht⟩
        obtain ⟨x, xs, hx, -⟩ := c.head_ne a
        refine hc a ?_
        rw [hx] at ht ⊢
        exact congrArg some (List.cons.inj ht).1.symm
      simp only [hn, c.dec_enc a rest h, map_some]
  head_ne
    | none => ⟨_, _, rfl, by decide, by decide⟩
    | some a => c.head_ne a

/-- One of two texts, told apart by the byte the first one starts with. -/
def choice (q : UInt8) (a : JsonCodec α) (b : JsonCodec β) (ha : ∀ x, (a.enc x).head? = some q)
    (hb : ∀ y, (b.enc y).head? ≠ some q) : JsonCodec (α ⊕ β) where
  enc
    | .inl x => a.enc x
    | .inr y => b.enc y
  dec t :=
    if t.head? = some q then (a.dec t).map fun p => (.inl p.1, p.2)
    else (b.dec t).map fun p => (.inr p.1, p.2)
  dec_enc o rest h := by
    cases o with
    | inl x =>
      have hq : (a.enc x ++ rest).head? = some q := by rw [List.head?_append, ha x]; rfl
      simp only [hq, if_true, a.dec_enc x rest h, map_some]
    | inr y =>
      have hq : (b.enc y ++ rest).head? ≠ some q := by
        obtain ⟨x, xs, hx, -⟩ := b.head_ne y
        have hy := hb y
        rw [hx] at hy ⊢
        exact hy
      simp only [hq, if_false, b.dec_enc y rest h, map_some]
  head_ne
    | .inl x => a.head_ne x
    | .inr y => b.head_ne y

/-! ## Arrays and objects -/

def encItems (c : JsonCodec α) : List α → Bytes
  | [] => []
  | [a] => c.enc a
  | a :: b :: l => c.enc a ++ 0x2c :: encItems c (b :: l)

/-- The items up to the closing byte `z`. -/
def decItems (c : JsonCodec α) (z : UInt8) : Nat → Bytes → Option (List α × Bytes)
  | 0, _ => none
  | n + 1, t => (c.dec t).bind fun p =>
    match expect [0x2c] p.2 with
    | some r => (decItems c z n r).map fun q => (p.1 :: q.1, q.2)
    | none => (expect [z] p.2).map ([p.1], ·)

theorem length_le_encItems (c : JsonCodec α) (l : List α) : l.length ≤ (encItems c l).length := by
  induction l with
  | nil => simp
  | cons a l ih =>
    obtain ⟨x, xs, h, -⟩ := c.head_ne a
    cases l with
    | nil => simp [encItems, h]
    | cons b l =>
      simp only [encItems, length_append, length_cons] at ih ⊢
      omega

theorem decItems_encItems (c : JsonCodec α) {z : UInt8} (hz : isDigit z = false) (hc : z ≠ 0x2c)
    (a : α) (l : List α) (rest : Bytes) {n : Nat} (hn : l.length < n) :
    decItems c z n (encItems c (a :: l) ++ z :: rest) = some (a :: l, rest) := by
  induction l generalizing a n with
  | nil =>
    obtain ⟨n, rfl⟩ := Nat.exists_eq_succ_of_ne_zero (by omega : n ≠ 0)
    have hno : expect [0x2c] (z :: rest) = none := by
      rw [expect, if_neg]
      rintro ⟨t, ht⟩
      exact hc (cons.inj ht).1.symm
    have hyes : expect [z] (z :: rest) = some rest := expect_append [z] rest
    simp only [decItems, encItems, c.dec_enc a _ (delim_cons hz rest), bind_some, hno, hyes,
      map_some]
  | cons b l ih =>
    obtain ⟨n, rfl⟩ := Nat.exists_eq_succ_of_ne_zero (by omega : n ≠ 0)
    have hd : Delim (0x2c :: (encItems c (b :: l) ++ z :: rest)) := delim_cons (by decide) _
    have hcomma : expect [0x2c] (0x2c :: (encItems c (b :: l) ++ z :: rest)) =
        some (encItems c (b :: l) ++ z :: rest) := expect_append [0x2c] _
    have hl : l.length < n := by simpa using hn
    simp only [decItems, encItems, append_assoc, cons_append, c.dec_enc a _ hd,
      bind_some, hcomma, ih b hl, map_some]

def items (o z : UInt8) (ho : o ≠ 0x5d ∧ o ≠ 0x7d) (hz : z = 0x5d ∨ z = 0x7d) (c : JsonCodec α) :
    JsonCodec (List α) where
  enc l := o :: (encItems c l ++ [z])
  dec t := (expect [o] t).bind fun r => match expect [z] r with
    | some r => some ([], r)
    | none => decItems c z r.length r
  dec_enc l rest _ := by
    have hopen : expect [o] (o :: (encItems c l ++ z :: rest)) = some (encItems c l ++ z :: rest) :=
      expect_append [o] _
    rw [List.cons_append, List.append_assoc, List.singleton_append, hopen, bind_some]
    cases l with
    | nil =>
      have hclose : expect [z] (encItems c [] ++ z :: rest) = some rest := expect_append [z] rest
      rw [hclose]
    | cons a l =>
      have hno : expect [z] (encItems c (a :: l) ++ z :: rest) = none := by
        rw [expect, if_neg]
        rintro ⟨t, ht⟩
        obtain ⟨x, xs, hx, h5, h7⟩ := c.head_ne a
        have hxz : z = x := by
          cases l <;> (simp only [encItems, hx] at ht; exact (List.cons.inj ht).1)
        rcases hz with rfl | rfl
        · exact h5 hxz.symm
        · exact h7 hxz.symm
      have hlen := length_le_encItems c (a :: l)
      simp only [hno]
      refine decItems_encItems c ?_ ?_ a l rest ?_
      · rcases hz with rfl | rfl <;> decide
      · rcases hz with rfl | rfl <;> decide
      · rw [List.length_append, List.length_cons]
        rw [List.length_cons] at hlen
        omega
  head_ne l := ⟨_, _, rfl, ho⟩

def array (c : JsonCodec α) : JsonCodec (List α) := items 0x5b 0x5d (by decide) (.inl rfl) c

def pair (a : JsonCodec α) (b : JsonCodec β) : JsonCodec (α × β) :=
  after [0x5b] ⟨_, _, rfl, by decide⟩ (closed 0x5d (by decide) (seq 0x2c (by decide) a b))

def field (name : Bytes) (c : JsonCodec α) : JsonCodec α :=
  after (0x22 :: (name ++ [0x22, 0x3a])) ⟨_, _, rfl, by decide⟩ c

def fields (a : JsonCodec α) (b : JsonCodec β) : JsonCodec (α × β) := seq 0x2c (by decide) a b

def object (c : JsonCodec α) : JsonCodec α :=
  after [0x7b] ⟨_, _, rfl, by decide⟩ (closed 0x7d (by decide) c)

/-- An object with arbitrary keys, in key order. -/
def map (c : JsonCodec α) : JsonCodec (SortedMap Bytes α) :=
  (items 0x7b 0x7d (by decide) (.inr rfl) (seq 0x3a (by decide) string c)).iso
    SortedMap.entries (fun l => some (SortedMap.ofList l)) fun m => by rw [SortedMap.ofList_entries]

end JsonCodec

end Rdb.Lib
