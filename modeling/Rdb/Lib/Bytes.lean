import Mathlib.Data.List.Lex
import Mathlib.Data.List.Basic
import Mathlib.Data.UInt
import Mathlib.Tactic.Linarith
import Mathlib.Tactic.Ring

/-!
# Byte strings

Byte strings are ordered lexicographically. `beBytes w n` is the big-endian
form of `n` in `w` bytes, `ofBe` reads one back; on numbers that fit the width
the byte order is the numeric order (`beBytes_lt_iff`). `decimal n` is the
ASCII decimal form of `n`, and `parseDec` reads what a decimal parser of an
unsigned type accepts (one optional `+`, at least one digit, bounded value).
-/

namespace Rdb.Lib

open List

abbrev Bytes := List UInt8

/-- By name, so that every membership test over bytes and byte strings carries the same proof. -/
instance lawfulBEqByte : LawfulBEq UInt8 := inferInstance

instance lawfulBEqBytes : LawfulBEq Bytes := inferInstance

instance byteOrder : LinearOrder UInt8 where
  le_refl a := UInt8.le_refl a
  le_trans _ _ _ := UInt8.le_trans
  le_antisymm _ _ := UInt8.le_antisymm
  le_total := UInt8.le_total
  lt_iff_le_not_ge a b := by simp only [UInt8.lt_iff_toNat_lt, UInt8.le_iff_toNat_le]; omega
  toDecidableLE := inferInstance
  toDecidableLT := inferInstance
  toDecidableEq := inferInstance

/-- Over the bytes of the list, and not over all bytes. -/
instance (priority := high) decidableForallByte (p : UInt8 → Prop) [DecidablePred p]
    (l : Bytes) : Decidable (∀ x ∈ l, p x) := List.decidableBAll p l

/-! ## Lexicographic order -/

section Lex

variable {α : Type*} [LinearOrder α] {a b : List α}

theorem append_lt_append_iff (p : List α) : p ++ a < p ++ b ↔ a < b := by
  induction p with
  | nil => rfl
  | cons x p ih => simp [ih]

theorem append_le_append_iff (p : List α) : p ++ a ≤ p ++ b ↔ a ≤ b := by
  rw [← not_lt, append_lt_append_iff, not_lt]

theorem cons_le_iff {x y : α} : x :: a ≤ y :: b ↔ x < y ∨ (x = y ∧ a ≤ b) := by
  rw [← not_lt, cons_lt_cons_iff, ← not_lt]
  constructor
  · intro h
    rcases lt_trichotomy x y with hxy | rfl | hxy
    · exact .inl hxy
    · exact .inr ⟨rfl, fun hlt => h (.inr ⟨rfl, hlt⟩)⟩
    · exact absurd (.inl hxy) h
  · rintro (hxy | ⟨rfl, h⟩) (hyx | ⟨hyx, h'⟩)
    · exact lt_asymm hxy hyx
    · exact hxy.ne' hyx
    · exact lt_irrefl _ hyx
    · exact h h'

theorem le_of_isPrefix (h : a <+: b) : a ≤ b := by
  obtain ⟨t, rfl⟩ := h
  have ht : ([] : List α) ≤ t := by
    cases t with
    | nil => exact le_refl _
    | cons _ _ => exact le_of_lt .nil
  simpa using (append_le_append_iff a).mpr ht

theorem append_lt_append_of_length_eq (hl : a.length = b.length) (h : a < b)
    (x y : List α) : a ++ x < b ++ y := by
  induction a generalizing b with
  | nil => rw [length_eq_zero_iff.mp hl.symm] at h; exact absurd h (lt_irrefl _)
  | cons u a ih =>
    cases b with
    | nil => cases hl
    | cons v b =>
      rcases cons_lt_cons_iff.mp h with huv | ⟨rfl, hab⟩
      · exact cons_lt_cons_iff.mpr (.inl huv)
      · exact cons_lt_cons_iff.mpr (.inr ⟨rfl, ih (Nat.succ.inj hl) hab⟩)

theorem isPrefix_of_le_of_le {p : List α} (hpa : p ≤ a) (hab : a ≤ b) (hpb : p <+: b) :
    p <+: a := by
  induction p generalizing a b with
  | nil => exact nil_prefix
  | cons x p ih =>
    cases b with
    | nil => simp at hpb
    | cons z b =>
      obtain ⟨rfl, htl⟩ := cons_prefix_cons.mp hpb
      cases a with
      | nil => exact absurd hpa (not_le.mpr .nil)
      | cons y a =>
        rcases cons_le_iff.mp hab with hlt | ⟨rfl, hle⟩
        · rcases cons_le_iff.mp hpa with hlt' | ⟨rfl, -⟩
          · exact absurd (lt_trans hlt hlt') (lt_irrefl _)
          · exact absurd hlt (lt_irrefl _)
        · rcases cons_le_iff.mp hpa with hlt' | ⟨-, hpa⟩
          · exact absurd hlt' (lt_irrefl _)
          · exact cons_prefix_cons.mpr ⟨rfl, ih hpa hle htl⟩

end Lex

/-! ## Big-endian numbers -/

def beBytes : Nat → Nat → Bytes
  | 0, _ => []
  | w + 1, n => UInt8.ofNat (n / 256 ^ w) :: beBytes w n

def ofBe (b : Bytes) : Nat := b.foldl (fun a x => a * 256 + x.toNat) 0

@[simp] theorem length_beBytes (w n : Nat) : (beBytes w n).length = w := by
  induction w with
  | zero => rfl
  | succ w ih => simp [beBytes, ih]

theorem ofBe_foldl (b : Bytes) (a : Nat) :
    b.foldl (fun a x => a * 256 + x.toNat) a = a * 256 ^ b.length + ofBe b := by
  unfold ofBe
  induction b generalizing a with
  | nil => simp
  | cons x b ih =>
    rw [foldl_cons, foldl_cons, ih, ih (0 * 256 + x.toNat), length_cons]
    ring

theorem ofBe_cons (x : UInt8) (b : Bytes) : ofBe (x :: b) = x.toNat * 256 ^ b.length + ofBe b := by
  have := ofBe_foldl b (0 * 256 + x.toNat)
  simpa [ofBe] using this

theorem ofBe_lt (b : Bytes) : ofBe b < 256 ^ b.length := by
  induction b with
  | nil => simp [ofBe]
  | cons x b ih =>
    rw [ofBe_cons, length_cons, pow_succ]
    have hx : x.toNat + 1 ≤ 256 := x.toNat_lt
    nlinarith

theorem ofBe_beBytes (w n : Nat) : ofBe (beBytes w n) = n % 256 ^ w := by
  induction w with
  | zero => simp [beBytes, ofBe, Nat.mod_one]
  | succ w ih =>
    rw [beBytes, ofBe_cons, ih, length_beBytes, UInt8.toNat_ofNat', pow_succ 256 w,
      Nat.mod_mul (x := n)]
    ring

variable {w n : Nat}

theorem ofBe_beBytes_of_lt (h : n < 256 ^ w) : ofBe (beBytes w n) = n := by
  rw [ofBe_beBytes, Nat.mod_eq_of_lt h]

theorem beBytes_append_inj {m : Nat} (hn : n < 256 ^ w) (hm : m < 256 ^ w) {x y : Bytes}
    (h : beBytes w n ++ x = beBytes w m ++ y) : n = m ∧ x = y := by
  obtain ⟨hb, hx⟩ := append_inj h (by rw [length_beBytes, length_beBytes])
  have hv := congrArg ofBe hb
  rw [ofBe_beBytes_of_lt hn, ofBe_beBytes_of_lt hm] at hv
  exact ⟨hv, hx⟩

variable {b : Bytes}

theorem ofBe_lt_iff {a : Bytes} (hl : a.length = b.length) : ofBe a < ofBe b ↔ a < b := by
  induction a generalizing b with
  | nil =>
    cases b with
    | nil => simp [ofBe]
    | cons _ _ => cases hl
  | cons x a ih =>
    cases b with
    | nil => cases hl
    | cons y b =>
      have hl' : a.length = b.length := by simpa using hl
      rw [ofBe_cons, ofBe_cons, cons_lt_cons_iff, ← ih hl', hl', UInt8.lt_iff_toNat_lt]
      have ha := ofBe_lt a
      have hb := ofBe_lt b
      rw [hl'] at ha
      rcases Nat.lt_trichotomy x.toNat y.toNat with h | h | h
      · simp only [h, true_or, iff_true]
        nlinarith
      · have hxy : x = y := UInt8.toNat_inj.mp h
        subst hxy
        simp
      · have hne : x ≠ y := fun e => absurd (e ▸ h) (lt_irrefl _)
        simp only [not_lt.mpr h.le, hne, false_and, or_self, iff_false]
        nlinarith

theorem ofBe_inj {a : Bytes} (hl : a.length = b.length) (h : ofBe a = ofBe b) : a = b := by
  have h1 := (ofBe_lt_iff hl).not.mp (by omega)
  have h2 := (ofBe_lt_iff hl.symm).not.mp (by omega)
  exact le_antisymm (not_lt.mp h2) (not_lt.mp h1)

theorem beBytes_ofBe (h : b.length = w) : beBytes w (ofBe b) = b := by
  subst h
  exact ofBe_inj (by simp) (ofBe_beBytes_of_lt (ofBe_lt b))

theorem beBytes_lt_iff {m : Nat} (hn : n < 256 ^ w) (hm : m < 256 ^ w) :
    beBytes w n < beBytes w m ↔ n < m := by
  rw [← ofBe_lt_iff (by simp), ofBe_beBytes_of_lt hn, ofBe_beBytes_of_lt hm]

/-! ## Decimal numbers -/

def isDigit (b : UInt8) : Bool := 0x30 ≤ b && b ≤ 0x39

def decimal (n : Nat) : Bytes := (Nat.toDigits 10 n).map fun c => UInt8.ofNat c.toNat

/-- The number a string of digits denotes. -/
def decVal (b : Bytes) : Nat := b.foldl (fun a x => 10 * a + (x.toNat - 48)) 0

def parseDec (bound : Nat) (b : Bytes) : Option Nat :=
  let ds := if b.head? = some 0x2b then b.tail else b
  if ds ≠ [] ∧ ds.all isDigit ∧ decVal ds < bound then some (decVal ds) else none

theorem decimal_ne_nil (n : Nat) : decimal n ≠ [] := by
  simp [decimal]

theorem toNat_ofNat_digit {c : Char} (h : c.isDigit) :
    (UInt8.ofNat c.toNat).toNat = c.toNat := by
  have : c.toNat ≤ 57 := by
    simp only [Char.isDigit, Bool.and_eq_true, decide_eq_true_eq] at h
    exact UInt32.le_iff_toNat_le.mp h.2
  rw [UInt8.toNat_ofNat']
  omega

theorem isDigit_of_mem_decimal {b : UInt8} (h : b ∈ decimal n) : isDigit b := by
  obtain ⟨c, hc, rfl⟩ := mem_map.mp h
  have hd := Nat.isDigit_of_mem_toDigits (by decide) (by decide) hc
  have ht := toNat_ofNat_digit hd
  simp only [Char.isDigit, Bool.and_eq_true, decide_eq_true_eq] at hd
  simp only [isDigit, Bool.and_eq_true, decide_eq_true_eq, UInt8.le_iff_toNat_le, ht]
  exact ⟨UInt32.le_iff_toNat_le.mp hd.1, UInt32.le_iff_toNat_le.mp hd.2⟩

theorem decVal_decimal (n : Nat) : decVal (decimal n) = n := by
  have h : ∀ (l : List Char) (a : Nat), (∀ c ∈ l, c.isDigit) →
      (l.map fun c => UInt8.ofNat c.toNat).foldl (fun a x => 10 * a + (x.toNat - 48)) a =
        Nat.ofDigitChars 10 l a := by
    intro l
    induction l with
    | nil => intro a _; simp [Nat.ofDigitChars]
    | cons c l ih =>
      intro a hl
      rw [map_cons, foldl_cons, toNat_ofNat_digit (hl c (by simp))]
      exact ih _ fun c hc => hl c (mem_cons_of_mem _ hc)
  rw [decVal, decimal, h _ _ fun c hc => Nat.isDigit_of_mem_toDigits (by decide) (by decide) hc]
  exact Nat.ofDigitChars_ten_toDigits

variable {bound : Nat}

theorem parseDec_decimal (h : n < bound) : parseDec bound (decimal n) = some n := by
  have hplus : (decimal n).head? ≠ some 0x2b := fun e => by
    have := isDigit_of_mem_decimal (n := n) (mem_of_mem_head? e)
    revert this
    decide
  have hall : (decimal n).all isDigit :=
    all_eq_true.mpr fun _ hb => isDigit_of_mem_decimal hb
  simp only [parseDec, hplus, if_false]
  rw [if_pos ⟨decimal_ne_nil n, hall, by rwa [decVal_decimal]⟩, decVal_decimal]

theorem parseDec_of_lt {bound' : Nat} (h : parseDec bound b = some n) (hn : n < bound') :
    parseDec bound' b = some n := by
  unfold parseDec at h ⊢
  generalize (if b.head? = some 0x2b then b.tail else b) = ds at h ⊢
  dsimp only at h ⊢
  split at h
  · next hc =>
    rw [Option.some.injEq] at h
    rw [if_pos ⟨hc.1, hc.2.1, by omega⟩, h]
  · cases h

theorem head_of_parseDec (h : parseDec bound b = some n) :
    ∃ x, b.head? = some x ∧ (x = 0x2b ∨ isDigit x) := by
  cases b with
  | nil => simp [parseDec] at h
  | cons x b =>
    refine ⟨x, rfl, ?_⟩
    by_cases hx : x = 0x2b
    · exact .inl hx
    · simp only [parseDec, head?_cons, Option.some.injEq, hx, if_false] at h
      split at h
      · next hc => exact .inr (all_eq_true.mp hc.2.1 x (by simp))
      · cases h

/-! ## Trimming -/

/-- ASCII white space. -/
def isWhite (b : UInt8) : Bool := b == 0x20 || (0x09 ≤ b && b ≤ 0x0d)

def trim (b : Bytes) : Bytes := ((b.dropWhile isWhite).reverse.dropWhile isWhite).reverse

theorem trim_line {x z : UInt8} (hx : isWhite x = false) (hz : isWhite z = false) (mid : Bytes) :
    trim (x :: (mid ++ [z, 0x0a])) = x :: (mid ++ [z]) := by
  have hnl : isWhite 0x0a := by decide
  simp [trim, hx, hz, hnl]

end Rdb.Lib
