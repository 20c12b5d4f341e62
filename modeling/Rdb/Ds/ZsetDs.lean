import Rdb.Ds.Keys

/-!
# Sorted sets in two records a member

A member has a record with its score and an empty record in the index, whose name is the
score in an order-preserving form and then the member. The root record holds the number
of members.

Scores are the bits of an `f64`. Their sortable form is a bijection of the 64-bit
patterns, so the two zeros, which are equal as numbers, have different index records.
-/

namespace Rdb.Ds

open Lib UserKey

/-! ## Scores -/

/-- The bits of an `f64`. -/
structure Score where
  bits : Fin (2 ^ 64)
  deriving DecidableEq

namespace Score

def signBit : Nat := 2 ^ 63

def magnitude (s : Score) : Nat := s.bits % signBit

def isZero (s : Score) : Bool := s.magnitude = 0

def isNan (s : Score) : Bool := 0x7ff0000000000000 < s.magnitude

/-- `==` on floats. -/
def eq (a b : Score) : Bool := !a.isNan && !b.isNan && (a = b || a.isZero && b.isZero)

end Score

open Score

def posZero : Score := ⟨0⟩

def negZero : Score := ⟨⟨2 ^ 63, by decide⟩⟩

/-- All bits of a negative score flip; the others get the sign bit. -/
def scoreSortable (s : Score) : Nat :=
  if signBit ≤ s.bits then 2 ^ 64 - 1 - s.bits else s.bits + signBit

def sortableScore (n : Nat) : Score :=
  ⟨Fin.ofNat _ (if signBit ≤ n then n - signBit else 2 ^ 64 - 1 - n)⟩

theorem scoreSortable_lt (s : Score) : scoreSortable s < 2 ^ 64 := by
  have hsign : signBit = 2 ^ 63 := rfl
  unfold scoreSortable
  by_cases h : signBit ≤ s.bits
  · rw [if_pos h]
    omega
  · rw [if_neg h]
    omega

theorem sortableScore_scoreSortable (s : Score) : sortableScore (scoreSortable s) = s := by
  obtain ⟨⟨b, hb⟩⟩ := s
  have hsign : signBit = 2 ^ 63 := rfl
  unfold sortableScore scoreSortable
  simp only [Score.mk.injEq, Fin.ext_iff, Fin.ofNat]
  by_cases h : signBit ≤ b
  · rw [if_pos h, if_neg (by omega)]
    omega
  · rw [if_neg h, if_pos (by omega)]
    omega

variable {n : Nat}

theorem scoreSortable_sortableScore (hn : n < 2 ^ 64) : scoreSortable (sortableScore n) = n := by
  have hsign : signBit = 2 ^ 63 := rfl
  unfold sortableScore scoreSortable
  simp only [Fin.ofNat]
  by_cases h : signBit ≤ n
  · rw [if_pos h, if_neg (by omega)]
    omega
  · rw [if_neg h, if_pos (by omega)]
    omega

variable {a b : Score}

theorem Score.isZero_of_eq (h : a.eq b) (hne : a ≠ b) :
    a.isZero ∧ b.isZero := by
  simp only [Score.eq, Bool.and_eq_true, Bool.or_eq_true, decide_eq_true_eq] at h
  exact h.2.resolve_left hne

theorem Score.eq_of_isZero (ha : a.isZero) (hb : b.isZero) : a.eq b := by
  have hnan : ∀ s : Score, s.isZero → s.isNan = false := by
    intro s hs
    simp only [Score.isZero, Score.isNan, decide_eq_true_eq, decide_eq_false_iff_not] at hs ⊢
    omega
  simp only [Score.eq, hnan a ha, hnan b hb, ha, hb, Bool.not_false, Bool.and_self, Bool.or_true]

/-! ## Records -/

namespace ZsetDs

def metaKey (k : UserKey) : Bytes := k.data kindZsetMeta

def writeMeta (k : UserKey) (expireMs count : Nat) : BatchEntry :=
  .put (metaKey k) (encodeEnvelope expireMs (encodeCount count))

def deleteFamily (k : UserKey) (expireMs : Nat) : List BatchEntry :=
  familyDeleteEntries none k.pre zsetFamily k.bytes expireMs

def memberKey (k : UserKey) (member : Bytes) : Bytes := k.elem kindZsetMember member

def scoreSuffix (score : Score) (member : Bytes) : Bytes :=
  beBytes 8 (scoreSortable score) ++ member

def scoreKeyFromSuffix (k : UserKey) (suffix : Bytes) : Bytes := k.elem kindZsetScore suffix

def scoreKey (k : UserKey) (score : Score) (member : Bytes) : Bytes :=
  scoreKeyFromSuffix k (scoreSuffix score member)

/-- The score of a member; a record that is too short reads as none. -/
def memberScore (store : Store) (k : UserKey) (member : Bytes) : Option Score :=
  (store.get (memberKey k member)).bind fun v =>
    if v.length < 8 then none else some (sortableScore (ofBe (v.take 8)))

def putMember (k : UserKey) (member : Bytes) (score : Score) : WriteOp :=
  .put (memberKey k member) (beBytes 8 (scoreSortable score))

def putScored (k : UserKey) (score : Score) (member : Bytes) : WriteOp :=
  .put (scoreKey k score member) []

def delMember (k : UserKey) (member : Bytes) : WriteOp := .del (memberKey k member)

def delScored (k : UserKey) (score : Score) (member : Bytes) : WriteOp :=
  .del (scoreKey k score member)

def isScoreRecord (physical : Bytes) (prefixLen : Nat) (key : Bytes) : Option Bytes :=
  match decodeDataKey physical prefixLen with
  | none => none
  | some (kind, userKey, suffix) =>
    if kind ≠ kindZsetScore ∨ userKey ≠ key ∨ suffix.length < 8 then none else some suffix

def scoredOf (suffix : Bytes) : Bytes × Score :=
  (suffix.drop 8, sortableScore (ofBe (suffix.take 8)))

/-- Ordered scan of the index; it ends with the first record that is not decoded as one. -/
def forEachScored {σ : Type} (store : Store) (k : UserKey) (fromSuffix : Bytes) (exclFrom : Bool)
    (f : σ → Bytes → Score → σ × Bool) (init : σ) : σ :=
  store.forEachFrom (scoreKeyFromSuffix k fromSuffix) exclFrom (fun s key _ =>
    match isScoreRecord key k.pre.length k.bytes with
    | none => (s, false)
    | some suffix => f s (scoredOf suffix).1 (scoredOf suffix).2) init

/-! ## Different records have different names -/

variable {s s' : Score} {m m' : Bytes}

theorem scoreSuffix_inj (h : scoreSuffix s m = scoreSuffix s' m') : s = s' ∧ m = m' := by
  obtain ⟨hv, hm⟩ := beBytes_append_inj (scoreSortable_lt s) (scoreSortable_lt s') h
  refine ⟨?_, hm⟩
  rw [← sortableScore_scoreSortable s, hv, sortableScore_scoreSortable]

theorem length_scoreSuffix (s : Score) (m : Bytes) : 8 ≤ (scoreSuffix s m).length := by
  rw [scoreSuffix, List.length_append, length_beBytes]
  omega

variable {suffix : Bytes}

theorem scoreSuffix_scoredOf (h : 8 ≤ suffix.length) :
    scoreSuffix (scoredOf suffix).2 (scoredOf suffix).1 = suffix := by
  have hlen : (suffix.take 8).length = 8 := by
    rw [List.length_take]
    omega
  have hlt : ofBe (suffix.take 8) < 2 ^ 64 := by
    have := ofBe_lt (suffix.take 8)
    rw [hlen] at this
    exact this
  unfold scoredOf scoreSuffix
  rw [scoreSortable_sortableScore hlt, beBytes_ofBe hlen, List.take_append_drop]

variable {k : UserKey}

@[simp] theorem memberKey_inj : memberKey k m = memberKey k m' ↔ m = m' :=
  ⟨fun h => (elem_inj h).2.2, fun h => h ▸ rfl⟩

@[simp] theorem scoreKey_inj : scoreKey k s m = scoreKey k s' m' ↔ s = s' ∧ m = m' :=
  ⟨fun h => scoreSuffix_inj (elem_inj h).2.2, by rintro ⟨rfl, rfl⟩; rfl⟩

@[simp] theorem memberKey_ne_scoreKeyFromSuffix (k : UserKey) (m suffix : Bytes) :
    memberKey k m ≠ scoreKeyFromSuffix k suffix := elem_ne_of_kind (by decide)

@[simp] theorem memberKey_ne_scoreKey (k : UserKey) (m : Bytes) (s : Score) (m' : Bytes) :
    memberKey k m ≠ scoreKey k s m' := elem_ne_of_kind (by decide)

@[simp] theorem scoreKey_ne_memberKey (k : UserKey) (m : Bytes) (s : Score) (m' : Bytes) :
    scoreKey k s m' ≠ memberKey k m := elem_ne_of_kind (by decide)

/-! ## Decoding -/

variable {kind : UInt8}

theorem isScoreRecord_elem (k : UserKey) (hkind : kind ≠ kindStreamDelay)
    (hfam : (familyOf kind).isSome) (s : Bytes) :
    isScoreRecord (k.elem kind s) k.pre.length k.bytes =
      if kind = kindZsetScore ∧ 8 ≤ s.length then some s else none := by
  unfold isScoreRecord
  rw [elem, decodeDataKey_elem k.pre k hkind hfam]
  by_cases h : kind = kindZsetScore ∧ 8 ≤ s.length
  · rw [if_pos h]
    dsimp only
    rw [if_neg (by rintro (h' | h' | h') <;> [exact h' h.1; exact h' rfl; omega])]
  · rw [if_neg h]
    dsimp only
    rw [if_pos]
    by_cases hk : kind = kindZsetScore
    · exact .inr (.inr (not_le.mp fun h' => h ⟨hk, h'⟩))
    · exact .inl hk

theorem length_of_isScoreRecord {physical key : Bytes}
    (h : isScoreRecord physical n key = some suffix) : 8 ≤ suffix.length := by
  unfold isScoreRecord at h
  split at h
  · cases h
  · split at h
    · cases h
    · next hc =>
      cases h
      exact not_lt.mp fun h' => hc (.inr (.inr h'))

end ZsetDs

end Rdb.Ds
