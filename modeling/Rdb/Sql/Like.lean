import Mathlib.Data.List.Forall2
import Mathlib.Data.List.Induction

/-!
# LIKE

A pattern is read from left to right as a sequence of tokens, and it matches a string
that falls into one part for each token (`Denotes`). The matcher fills one row of a table
for each character of the string: column `j` says whether the first `j` characters of the
pattern match what has been read. An escape pair takes two columns, the first of which no
string reaches.

`like_match_iff`: the last column of the last row is the meaning of the pattern.
-/

namespace Rdb.Sql

open List

/-! ## The matcher -/

/-- Marks the character behind each opening backslash. -/
def escaped : List Char → List Bool
  | [] => []
  | [_] => [false]
  | x :: y :: rest => if x = '\\' then false :: true :: escaped rest else false :: escaped (y :: rest)

/-- The row of the empty string, behind a column. -/
def firstRow (last : Bool) : List (Char × Bool) → List Bool
  | [] => []
  | (x, esc) :: cols =>
    let b := !esc && x == '%' && last
    b :: firstRow b cols

def nextRow (c : Char) (before : Bool) (prev : List Bool) (cur : Bool) :
    List (Char × Bool) → List Bool
  | [] => []
  | (x, esc) :: cols =>
    let here := prev.headD false
    let b := if esc then before && c == x
      else if x = '%' then cur || prev.tail.headD false
      else if x = '_' then here
      else if x = '\\' ∧ cols ≠ [] then false
      else here && c == x
    b :: nextRow c here prev.tail b cols

def likeMatch (s pattern : String) : Bool :=
  let cols := pattern.toList.zip (escaped pattern.toList)
  let row := s.toList.foldl (fun prev c => false :: nextRow c false prev false cols)
    (true :: firstRow true cols)
  row.getLastD false

/-! ## Patterns -/

inductive LikeToken where
  | lit (c : Char)
  | one
  | any

def likeToken (c : Char) : LikeToken :=
  if c = '%' then .any else if c = '_' then .one else .lit c

/-- A backslash makes the next character a literal; one at the end is itself. -/
def likeTokens : List Char → List LikeToken
  | [] => []
  | [x] => [likeToken x]
  | x :: y :: rest =>
    if x = '\\' then .lit y :: likeTokens rest else likeToken x :: likeTokens (y :: rest)

def LikeToken.Matches : LikeToken → List Char → Prop
  | .lit c, w => w = [c]
  | .one, w => w.length = 1
  | .any, _ => True

/-- The string falls into parts that the tokens match one by one. -/
def Denotes : List LikeToken → List Char → Prop
  | [], s => s = []
  | t :: ts, s => ∃ w u, t.Matches w ∧ Denotes ts u ∧ w ++ u = s

variable {ts : List LikeToken} {s : List Char} {c x : Char} {b before cur here : Bool}
  {prev row : List Bool}

theorem denotes_concat {t : LikeToken} :
    Denotes (ts ++ [t]) s ↔ ∃ u w, Denotes ts u ∧ t.Matches w ∧ u ++ w = s := by
  induction ts generalizing s with
  | nil => simp [Denotes]
  | cons a ts ih =>
    simp only [cons_append, Denotes, ih]
    constructor
    · rintro ⟨v, -, ha, ⟨u, w, hu, hw, rfl⟩, rfl⟩
      exact ⟨v ++ u, w, ⟨v, u, ha, hu, rfl⟩, hw, append_assoc ..⟩
    · rintro ⟨-, w, ⟨v, u, ha, hu, rfl⟩, hw, rfl⟩
      exact ⟨v, u ++ w, ha, ⟨u, w, hu, hw, rfl⟩, (append_assoc ..).symm⟩

theorem denotes_lit : Denotes (ts ++ [.lit x]) (s ++ [c]) ↔ Denotes ts s ∧ c = x := by
  rw [denotes_concat]
  constructor
  · rintro ⟨u, w, hu, rfl, h⟩
    obtain ⟨rfl, h⟩ := append_inj' h rfl
    exact ⟨hu, by simpa using h.symm⟩
  · rintro ⟨hs, rfl⟩
    exact ⟨s, [c], hs, rfl, rfl⟩

theorem denotes_one : Denotes (ts ++ [.one]) (s ++ [c]) ↔ Denotes ts s := by
  rw [denotes_concat]
  constructor
  · rintro ⟨u, w, hu, hw, h⟩
    obtain ⟨rfl, -⟩ := append_inj' h hw
    exact hu
  · exact fun hs => ⟨s, [c], hs, rfl, rfl⟩

theorem denotes_any :
    Denotes (ts ++ [.any]) (s ++ [c]) ↔ Denotes ts (s ++ [c]) ∨ Denotes (ts ++ [.any]) s := by
  simp only [denotes_concat]
  constructor
  · rintro ⟨u, w, hu, -, h⟩
    rcases w.eq_nil_or_concat' with rfl | ⟨w, d, rfl⟩
    · rw [append_nil] at h
      exact .inl (h ▸ hu)
    · rw [← append_assoc] at h
      exact .inr ⟨u, w, hu, trivial, (append_inj' h rfl).1⟩
  · rintro (h | ⟨u, w, hu, -, rfl⟩)
    · exact ⟨s ++ [c], [], h, trivial, append_nil _⟩
    · exact ⟨u, w ++ [c], hu, trivial, (append_assoc ..).symm⟩

theorem denotes_likeToken : Denotes (ts ++ [likeToken x]) (s ++ [c]) ↔
    if x = '%' then Denotes ts (s ++ [c]) ∨ Denotes (ts ++ [likeToken x]) s
    else Denotes ts s ∧ (x = '_' ∨ c = x) := by
  unfold likeToken
  split_ifs
  · exact denotes_any
  · simp [denotes_one, *]
  · simp [denotes_lit, *]

theorem denotes_likeToken_nil : Denotes (ts ++ [likeToken x]) [] ↔ x = '%' ∧ Denotes ts [] := by
  rw [denotes_concat]
  unfold likeToken
  split_ifs with h <;> simp [LikeToken.Matches, h]

/-! ## Rows -/

def columns (ts : List LikeToken) (s : List Char) : List Char → List Prop
  | [] => []
  | [x] => [Denotes (ts ++ [likeToken x]) s]
  | x :: y :: rest =>
    if x = '\\' then
      False :: Denotes (ts ++ [.lit y]) s :: columns (ts ++ [.lit y]) s rest
    else Denotes (ts ++ [likeToken x]) s :: columns (ts ++ [likeToken x]) s (y :: rest)

abbrev Reads (row : List Bool) (ps : List Prop) : Prop :=
  List.Forall₂ (fun (b : Bool) p => b ↔ p) row ps

theorem reads_firstRow (p : List Char) (h : b ↔ Denotes ts []) :
    Reads (firstRow b (p.zip (escaped p))) (columns ts [] p) := by
  fun_induction columns ts [] p generalizing b with
  | case1 => exact .nil
  | case2 ts x => exact .cons (by simp [denotes_likeToken_nil, ← h]) .nil
  | case3 ts y rest ih =>
    have hlit : ¬ Denotes (ts ++ [.lit y]) [] := by simp [denotes_concat, LikeToken.Matches]
    exact .cons (by simp) (.cons (by simp [hlit]) (ih (by simp [hlit])))
  | case4 ts x y rest hx ih =>
    have hb : (!false && x == '%' && b) ↔ Denotes (ts ++ [likeToken x]) [] := by
      simp [denotes_likeToken_nil, ← h]
    rw [escaped, if_neg hx]
    exact .cons hb (ih hb)

theorem cell_iff (cols : List (Char × Bool)) (hopen : ¬ (x = '\\' ∧ cols ≠ []))
    (hcur : cur ↔ Denotes ts (s ++ [c])) (hhere : here ↔ Denotes ts s)
    (hb : b ↔ Denotes (ts ++ [likeToken x]) s) :
    (if x = '%' then cur || b else if x = '_' then here
      else if x = '\\' ∧ cols ≠ [] then false else here && c == x) ↔
      Denotes (ts ++ [likeToken x]) (s ++ [c]) := by
  rw [denotes_likeToken]
  by_cases h1 : x = '%'
  · rw [if_pos h1, if_pos h1, Bool.or_eq_true, hcur, hb]
  · by_cases h2 : x = '_' <;> simp [h1, h2, hopen, ← hhere]

theorem reads_nextRow (p : List Char) (hcur : cur ↔ Denotes ts (s ++ [c]))
    (hhere : here ↔ Denotes ts s) (hprev : Reads prev (columns ts s p)) :
    Reads (nextRow c before (here :: prev) cur (p.zip (escaped p))) (columns ts (s ++ [c]) p) := by
  fun_induction columns ts (s ++ [c]) p generalizing before prev cur here with
  | case1 => exact .nil
  | case2 ts x =>
    cases hprev with
    | cons hb _ => exact .cons (cell_iff [] (by simp) hcur hhere hb) .nil
  | case3 ts y rest ih =>
    cases hprev with
    | cons _ hprev =>
      cases hprev with
      | cons hb hprev =>
        -- the column behind the pair looks two back, past its opener
        have hlit : (here && c == y) ↔ Denotes (ts ++ [.lit y]) (s ++ [c]) := by
          simp [denotes_lit, hhere]
        exact .cons (by simp) (.cons hlit (ih hlit hb hprev))
  | case4 ts x y rest hx ih =>
    rw [columns, if_neg hx] at hprev
    cases hprev with
    | cons hb hprev =>
      rw [escaped, if_neg hx]
      have hcell := cell_iff ((y :: rest).zip (escaped (y :: rest))) (by simp [hx]) hcur hhere hb
      exact .cons hcell (ih hcell hb hprev)

theorem getLast?_columns (ts : List LikeToken) (p : List Char) :
    (Denotes ts s :: columns ts s p).getLast? = some (Denotes (ts ++ likeTokens p) s) := by
  fun_induction columns ts s p with
  | case1 ts => simp [likeTokens]
  | case2 ts x => simp [likeTokens]
  | case3 ts y rest ih =>
    rw [getLast?_cons_cons, getLast?_cons_cons, ih]
    simp [likeTokens]
  | case4 ts x y rest hx ih =>
    rw [getLast?_cons_cons, ih]
    simp [likeTokens, hx]

theorem Reads.getLastD {ps : List Prop} {P : Prop} (h : Reads row ps)
    (hlast : ps.getLast? = some P) : row.getLastD false ↔ P := by
  induction h with
  | nil => cases hlast
  | cons hb hs ih =>
    cases hs with
    | nil =>
      cases hlast
      exact hb
    | cons => exact ih (by rwa [getLast?_cons_cons] at hlast)

/-- `%` is any run, `_` one character, a backslash takes the next character literally. -/
theorem like_match_iff (s pattern : String) :
    likeMatch s pattern ↔ Denotes (likeTokens pattern.toList) s.toList := by
  unfold likeMatch
  generalize pattern.toList = p
  refine Reads.getLastD ?_ (getLast?_columns [] p)
  induction s.toList using reverseRecOn with
  | nil => exact .cons (by simp [Denotes]) (reads_firstRow p (by simp [Denotes]))
  | append_singleton l c ih =>
    rw [foldl_append, foldl_cons]
    generalize l.foldl _ _ = prev at ih ⊢
    cases ih with
    | cons hhere hprev =>
      exact .cons (by simp [Denotes]) (reads_nextRow p (by simp [Denotes]) hhere hprev)

example : likeMatch "50%!" "5_\\%_" ∧ likeMatch "50x!" "5_\\%_" = false := by decide

end Rdb.Sql
