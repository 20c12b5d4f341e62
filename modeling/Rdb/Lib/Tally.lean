import Mathlib.Data.List.Nodup
import Mathlib.Data.List.Basic

/-!
# Tallies

An association list whose entries add up: the first entry of a key takes what is counted
for the key, and a new key goes to the end.

* `lookup_tally`: what a count changes.
* `lookup_foldl_tally`: counting one list of distinct keys into another.
-/

namespace Rdb.Lib

open List

variable {κ ν μ : Type*} [BEq κ]

def tally [Add ν] (k : κ) (x : ν) : List (κ × ν) → List (κ × ν)
  | [] => [(k, x)]
  | (k', y) :: l => if k' == k then (k', y + x) :: l else (k', y) :: tally k x l

variable [LawfulBEq κ] {k : κ} {l : List (κ × ν)}

theorem isSome_lookup : (l.lookup k).isSome ↔ k ∈ l.map (·.1) := by
  rw [lookup_isSome_iff, mem_map]
  simp only [beq_iff_eq, @eq_comm _ k]

section Add

variable [Add ν]

theorem lookup_tally (k k' : κ) (x : ν) (l : List (κ × ν)) :
    (tally k x l).lookup k' =
      if k == k' then some ((l.lookup k).elim x (· + x)) else l.lookup k' := by
  induction l with
  | nil =>
    by_cases h : k = k'
    · simp [tally, h]
    · simp [tally, h, lookup_cons, beq_eq_false_iff_ne.mpr (Ne.symm h)]
  | cons e l ih =>
    obtain ⟨k₁, y⟩ := e
    rw [tally]
    by_cases he : k₁ = k
    · subst he
      by_cases h : k₁ = k'
      · simp [h]
      · simp [lookup_cons, h, beq_eq_false_iff_ne.mpr (Ne.symm h)]
    · rw [if_neg (mt eq_of_beq he), lookup_cons, lookup_cons, lookup_cons, ih]
      by_cases h : k = k'
      · subst h
        simp [beq_eq_false_iff_ne.mpr (Ne.symm he)]
      · simp [h]

variable {x : ν}

theorem mem_keys_tally {k' : κ} : k' ∈ (tally k x l).map (·.1) ↔ k = k' ∨ k' ∈ l.map (·.1) := by
  rw [← isSome_lookup, lookup_tally]
  by_cases h : k = k' <;> simp [h]

theorem nodup_tally (h : (l.map (·.1)).Nodup) : ((tally k x l).map (·.1)).Nodup := by
  induction l with
  | nil => simp [tally]
  | cons e l ih =>
    obtain ⟨hnew, hl⟩ := nodup_cons.mp h
    rw [tally]
    split
    · exact h
    · rename_i he
      refine nodup_cons.mpr ⟨fun hmem => ?_, ih hl⟩
      rcases mem_keys_tally.mp hmem with heq | hold
      · exact he (beq_iff_eq.mpr heq.symm)
      · exact hnew hold

theorem nodup_foldl_tally {α : Type*} {f : α → κ} {g : α → ν} {ts : List α}
    (h : (l.map (·.1)).Nodup) :
    ((ts.foldl (fun l t => tally (f t) (g t) l) l).map (·.1)).Nodup := by
  induction ts generalizing l with
  | nil => exact h
  | cons t ts ih => exact ih (nodup_tally h)

theorem mem_keys_foldl_tally {α : Type*} {f : α → κ} {g : α → ν} {ts : List α} :
    k ∈ (ts.foldl (fun l t => tally (f t) (g t) l) l).map (·.1) ↔
      (∃ t ∈ ts, f t = k) ∨ k ∈ l.map (·.1) := by
  induction ts generalizing l with
  | nil => simp
  | cons t ts ih =>
    rw [foldl_cons, ih, mem_keys_tally]
    simp [or_assoc, or_left_comm]

theorem lookup_foldl_tally (g : μ → ν) {ts : List (κ × μ)} (hts : (ts.map (·.1)).Nodup)
    (l : List (κ × ν)) (k : κ) :
    (ts.foldl (fun l t => tally t.1 (g t.2) l) l).lookup k =
      match ts.lookup k with
      | none => l.lookup k
      | some m => some ((l.lookup k).elim (g m) (· + g m)) := by
  induction ts generalizing l with
  | nil => rfl
  | cons t ts ih =>
    obtain ⟨hnew, hrest⟩ := nodup_cons.mp hts
    rw [foldl_cons, ih hrest, lookup_tally, lookup_cons]
    by_cases h : t.1 = k
    · have hnone : ts.lookup k = none := by
        rw [← Option.not_isSome_iff_eq_none, isSome_lookup]
        exact h ▸ hnew
      simp [h, hnone]
    · simp [h, beq_eq_false_iff_ne.mpr (Ne.symm h)]

end Add

theorem getD_lookup_count {α : Type*} (f : α → κ) (ts : List α) (l : List (κ × Nat)) (k : κ) :
    ((ts.foldl (fun l t => tally (f t) 1 l) l).lookup k).getD 0 =
      (l.lookup k).getD 0 + ts.countP (f · == k) := by
  induction ts generalizing l with
  | nil => rfl
  | cons t ts ih =>
    rw [foldl_cons, ih, lookup_tally, countP_cons]
    by_cases h : f t = k
    · subst h
      cases l.lookup (f t) <;> simp <;> omega
    · simp [h]

end Rdb.Lib
