import Rdb.Lib.Bytes

/-!
# Encodings that keep an order

A key is made of components, one behind the other. `Embeds ok lt enc` says that the bytes
of a component decide by `lt` whatever follows them, and that between equal values what
follows decides; `ok` is what may follow. Components of one width embed the order of
numbers (`embeds_beBytes`), escaped strings that of their bytes (`embeds_escape`). The end
of an escaped string is found again, whatever follows it (`unescape_escape`).
-/

namespace Rdb.Lib

open List

section Embeds

variable {α β γ : Type*} [LinearOrder α]

/-- The encoding keeps the order `lt` in front of anything that may follow. -/
def Embeds (ok : List α → Prop) (lt : β → β → Prop) (enc : β → List α) (S : β → Prop) : Prop :=
  ∀ a b, S a → S b → ∀ x y, ok x → ok y → (enc a ++ x < enc b ++ y ↔ lt a b ∨ a = b ∧ x < y)

variable {ok : List α → Prop} {lt : β → β → Prop} {enc : β → List α} {S : β → Prop}

theorem Embeds.cons (h : Embeds ok lt enc S) (t : α) : Embeds ok lt (fun b => t :: enc b) S := by
  intro a b ha hb x y hx hy
  rw [cons_append, cons_append, cons_lt_cons_iff, h a b ha hb x y hx hy]
  simp

theorem Embeds.comap {lt' : γ → γ → Prop} {f : γ → β} {S' : γ → Prop} (h : Embeds ok lt enc S)
    (hS : ∀ c, S' c → S (f c)) (hinj : ∀ a b, S' a → S' b → f a = f b → a = b)
    (hlt : ∀ a b, S' a → S' b → (lt' a b ↔ lt (f a) (f b))) :
    Embeds ok lt' (fun c => enc (f c)) S' := by
  intro a b ha hb x y hx hy
  rw [h _ _ (hS a ha) (hS b hb) x y hx hy, hlt a b ha hb]
  refine or_congr_right (and_congr_left fun _ => ⟨hinj a b ha hb, congrArg f⟩)

theorem Embeds.flatMap {τ : Type*} {has : τ → β → Prop} (h : ∀ t, Embeds ok lt enc (has t))
    (hok : ∀ b x, ok (enc b ++ x)) {ts : List τ} {as bs : List β} (ha : List.Forall₂ has ts as)
    (hb : List.Forall₂ has ts bs) {x y : List α} (hx : ok x) (hy : ok y) :
    as.flatMap enc ++ x < bs.flatMap enc ++ y ↔ List.Lex lt as bs ∨ as = bs ∧ x < y := by
  induction ha generalizing bs with
  | nil =>
    cases hb
    simp
  | @cons t a ts as hta _ ih =>
    cases hb with
    | @cons _ b _ bs htb hbs =>
      have hrest : ∀ (cs : List β) {z : List α}, ok z → ok (cs.flatMap enc ++ z) := by
        intro cs z hz
        cases cs with
        | nil => exact hz
        | cons c cs =>
          rw [flatMap_cons, append_assoc]
          exact hok c _
      rw [flatMap_cons, flatMap_cons, append_assoc, append_assoc,
        h t a b hta htb _ _ (hrest as hx) (hrest bs hy), ih hbs, cons_lex_cons_iff, cons.injEq]
      tauto

end Embeds

theorem beBytes_append_lt_iff {w n m : Nat} (hn : n < 256 ^ w) (hm : m < 256 ^ w) (x y : Bytes) :
    beBytes w n ++ x < beBytes w m ++ y ↔ n < m ∨ n = m ∧ x < y := by
  have hl : ∀ k, (beBytes w k).length = w := length_beBytes w
  rcases Nat.lt_trichotomy n m with h | rfl | h
  · exact iff_of_true (append_lt_append_of_length_eq (by rw [hl, hl]) ((beBytes_lt_iff hn hm).mpr h) x y)
      (.inl h)
  · rw [append_lt_append_iff]
    exact ⟨fun h => .inr ⟨rfl, h⟩, fun h => (h.resolve_left (lt_irrefl n)).2⟩
  · refine iff_of_false (fun hlt => ?_) (by omega)
    exact lt_asymm hlt
      (append_lt_append_of_length_eq (by rw [hl, hl]) ((beBytes_lt_iff hm hn).mpr h) y x)

theorem embeds_beBytes (ok : Bytes → Prop) (w : Nat) :
    Embeds ok (· < ·) (beBytes w) (· < 256 ^ w) :=
  fun _ _ hn hm x y _ _ => beBytes_append_lt_iff hn hm x y

/-! ## Escaped strings -/

/-- `00` is escaped as `00 FF`. -/
def escape (b : Bytes) : Bytes := b.flatMap fun x => if x = 0x00 then [0x00, 0xff] else [x]

theorem escape_cons_zero (b : Bytes) : escape (0x00 :: b) = 0x00 :: 0xff :: escape b := rfl

theorem escape_cons {x : UInt8} (h : x ≠ 0x00) (b : Bytes) : escape (x :: b) = x :: escape b := by
  simp [escape, h]

/-- What may stand behind the end of an escaped string. -/
def Tame (b : Bytes) : Prop := b.head? ≠ some 0xff

theorem Tame.lt {b : Bytes} (h : Tame b) (t : Bytes) : b < 0xff :: t := by
  cases b with
  | nil => exact .nil
  | cons x b =>
    refine cons_lt_cons_iff.mpr (.inl (lt_of_le_of_ne (UInt8.le_iff_toNat_le.mpr ?_) ?_))
    · exact Nat.le_of_lt_succ x.toNat_lt
    · rintro rfl
      exact h rfl

theorem embeds_escape : Embeds Tame (· < ·) (fun b => escape b ++ [0x00]) fun _ => True := by
  intro a b _ _ x y hx hy
  beta_reduce
  induction a generalizing b with
  | nil =>
    cases b with
    | nil => simp [escape]
    | cons v b =>
      refine iff_of_true ?_ (.inl .nil)
      by_cases hv : v = 0
      · subst hv
        exact cons_lt_cons_iff.mpr (.inr ⟨rfl, hx.lt _⟩)
      · rw [escape_cons hv]
        refine cons_lt_cons_iff.mpr (.inl (UInt8.lt_iff_toNat_lt.mpr (Nat.pos_of_ne_zero ?_)))
        exact fun h0 => hv (UInt8.toNat_inj.mp h0)
  | cons u a ih =>
    cases b with
    | nil =>
      refine iff_of_false (fun hlt => ?_) (by simp)
      by_cases hu : u = 0
      · subst hu
        rcases cons_lt_cons_iff.mp hlt with h0 | ⟨-, h⟩
        · exact lt_irrefl _ h0
        · exact lt_asymm h (hy.lt _)
      · rw [escape_cons hu] at hlt
        rcases cons_lt_cons_iff.mp hlt with h0 | ⟨h0, -⟩
        · exact absurd (UInt8.lt_iff_toNat_lt.mp h0) (Nat.not_lt_zero _)
        · exact hu h0
    | cons v b =>
      by_cases huv : u = v
      · subst huv
        have hih := ih b
        by_cases hu : u = 0
        · subst hu
          rw [escape_cons_zero, escape_cons_zero]
          simpa [cons_lt_cons_iff] using hih
        · rw [escape_cons hu, escape_cons hu]
          simpa [cons_lt_cons_iff] using hih
      · -- an escaped byte starts with itself
        have hhead : ∀ (z : UInt8) (c : Bytes), ∃ t, escape (z :: c) = z :: t := fun z c => by
          by_cases hz : z = 0
          · subst hz
            exact ⟨_, rfl⟩
          · exact ⟨_, escape_cons hz c⟩
        obtain ⟨t, ht⟩ := hhead u a
        obtain ⟨t', ht'⟩ := hhead v b
        rw [ht, ht']
        simp [cons_lt_cons_iff, huv]

/-- The string up to the first `00` that no `FF` follows, and what stands behind it. -/
def unescape : Bytes → Option (Bytes × Bytes)
  | [] => none
  | [x] => if x = 0x00 then some ([], []) else none
  | x :: y :: rest =>
    if x ≠ 0x00 then (unescape (y :: rest)).map fun r => (x :: r.1, r.2)
    else if y = 0xff then (unescape rest).map fun r => (0x00 :: r.1, r.2)
    else some ([], y :: rest)

theorem unescape_cons {x : UInt8} (hx : x ≠ 0x00) (rest : Bytes) :
    unescape (x :: rest) = (unescape rest).map fun r => (x :: r.1, r.2) := by
  cases rest with
  | nil => exact if_neg hx
  | cons y rest => rw [unescape, if_pos hx]

theorem unescape_pair (rest : Bytes) :
    unescape (0x00 :: 0xff :: rest) = (unescape rest).map fun r => (0x00 :: r.1, r.2) := by
  rw [unescape, if_neg (not_not.mpr rfl), if_pos rfl]

theorem unescape_end {tail : Bytes} (h : Tame tail) : unescape (0x00 :: tail) = some ([], tail) := by
  cases tail with
  | nil => rfl
  | cons y rest => rw [unescape, if_neg (not_not.mpr rfl), if_neg fun hy => h (by rw [hy]; rfl)]

theorem unescape_escape (b : Bytes) {tail : Bytes} (h : Tame tail) :
    unescape (escape b ++ 0x00 :: tail) = some (b, tail) := by
  induction b with
  | nil => exact unescape_end h
  | cons x b ih =>
    by_cases hx : x = 0
    · subst hx
      rw [escape_cons_zero, cons_append, cons_append, unescape_pair, ih]
      rfl
    · rw [escape_cons hx, cons_append, unescape_cons hx, ih]
      rfl

end Rdb.Lib
