import Mathlib.Logic.Basic

/-!
# Atomic commitment

The two-phase commit of one transaction, seen from outside. A member answers its
prepare at most once and is in doubt while it holds its slice staged. A decision
is known once something in the system acts on it or may act on it: a message, a
record, a member that has applied it. An abort may also come from a member that
waited too long.

`Step` is what one step of a protocol may do to this view; `Inv` is kept by it
and says that never both decisions are known.
-/

namespace Rdb.Lib.Commitment

universe u

variable {P : Type u}

structure View (P : Type u) where
  member : P → Prop
  /-- The coordinator's decision. -/
  verdict : Option Bool
  /-- The member has answered its prepare. -/
  asked : P → Prop
  /-- The member holds its slice. -/
  staged : P → Prop
  known : Bool → Prop

structure Step (v w : View P) : Prop where
  member : ∀ p, v.member p → w.member p
  asked : ∀ p, v.asked p → w.asked p
  /-- A slice is staged by the answer to a prepare. -/
  staged : ∀ p, w.staged p → v.staged p ∨ ¬ v.asked p
  /-- The coordinator decides once, and commit only while every member holds its slice. -/
  verdict : w.verdict = v.verdict ∨
    v.verdict = none ∧ (w.verdict = some true → ∀ p, w.member p → v.staged p)
  /-- A decision comes from the coordinator, or it is the abort of a member that gives up its slice
  while the coordinator has not decided to commit. -/
  known : ∀ b, w.known b → v.known b ∨ w.verdict = some b ∨
    b = false ∧ w.verdict = v.verdict ∧ v.verdict ≠ some true ∧
      ∃ p, v.member p ∧ v.asked p ∧ ¬ w.staged p

structure Inv (v : View P) : Prop where
  commit : v.verdict = some true → ¬ v.known false
  abort : v.verdict ≠ some true → ¬ v.known true
  /-- Before the coordinator has decided, an abort is known because some member gave up. -/
  lost : v.verdict = none → v.known false → ∃ p, v.member p ∧ v.asked p ∧ ¬ v.staged p

theorem Inv.agree {v : View P} (h : Inv v) : ¬ (v.known true ∧ v.known false) := by
  rintro ⟨ht, hf⟩
  by_cases hv : v.verdict = some true
  · exact h.commit hv hf
  · exact h.abort hv ht

theorem Inv.step {v w : View P} (h : Inv v) (hs : Step v w) : Inv w where
  commit hw hf := by
    rcases hs.verdict with heq | ⟨hnone, hall⟩
    · rcases hs.known false hf with hk | hk | ⟨-, -, hne, -⟩
      · exact h.commit (heq ▸ hw) hk
      · rw [hw] at hk
        cases hk
      · exact hne (heq ▸ hw)
    · rcases hs.known false hf with hk | hk | ⟨-, heq, -⟩
      · obtain ⟨p, hp, -, hst⟩ := h.lost hnone hk
        exact hst (hall hw p (hs.member p hp))
      · rw [hw] at hk
        cases hk
      · rw [hw, hnone] at heq
        cases heq
  abort hw ht := by
    rcases hs.known true ht with hk | hk | ⟨hb, -⟩
    · have hv : v.verdict = some true := not_not.mp fun hne => h.abort hne hk
      rcases hs.verdict with heq | ⟨hnone, -⟩
      · exact hw (heq.trans hv)
      · rw [hv] at hnone
        cases hnone
    · exact hw hk
    · cases hb
  lost hw hf := by
    have hv : v.verdict = none := by
      rcases hs.verdict with heq | ⟨hnone, -⟩
      · exact heq ▸ hw
      · exact hnone
    rcases hs.known false hf with hk | hk | ⟨-, -, -, p, hp, ha, hst⟩
    · obtain ⟨p, hp, ha, hst⟩ := h.lost hv hk
      exact ⟨p, hs.member p hp, hs.asked p ha, fun h' => (hs.staged p h').elim hst fun hn => hn ha⟩
    · rw [hw] at hk
      cases hk
    · exact ⟨p, hs.member p hp, hs.asked p ha, hst⟩

theorem inv_of_unknown {v : View P} (h : ∀ b, ¬ v.known b) : Inv v :=
  ⟨fun _ => h false, fun _ => h true, fun _ hk => absurd hk (h false)⟩

end Rdb.Lib.Commitment
