import Mathlib.Algebra.GroupWithZero.Nat
import Mathlib.Data.Finset.Card
import Mathlib.Data.List.Sort
import Mathlib.Order.Defs.LinearOrder

/-!
# Finite maps as sorted association lists

`SortedMap κ ν` is a list of pairs whose keys strictly increase; the list is
the order in which an iterator visits the map. `get` is the map it denotes and
`ext` says that the denotation determines the list. A `write` applies a batch
of puts and deletes in order: `lastWrite` is the last operation of a batch on
a key, and `get_write` computes a key after a batch from it alone.
-/

namespace Rdb.Lib

open List Option

universe u v w

structure SortedMap (κ : Type u) (ν : Type v) [LinearOrder κ] where
  entries : List (κ × ν)
  sorted : entries.Pairwise (fun a b => a.1 < b.1)

inductive BatchOp (κ : Type u) (ν : Type v) where
  | put (k : κ) (v : ν)
  | del (k : κ)
  deriving DecidableEq

namespace BatchOp

variable {κ : Type u} {ν : Type v}

def key : BatchOp κ ν → κ
  | put k _ => k
  | del k => k

def map {κ' ν' : Type*} (f : κ → κ') (g : ν → ν') : BatchOp κ ν → BatchOp κ' ν'
  | put k v => put (f k) (g v)
  | del k => del (f k)

def val : BatchOp κ ν → Option ν
  | put _ v => some v
  | del _ => none

@[simp] theorem key_put (k : κ) (v : ν) : (put k v).key = k := rfl
@[simp] theorem key_del (k : κ) : (del k : BatchOp κ ν).key = k := rfl
@[simp] theorem val_put (k : κ) (v : ν) : (put k v).val = some v := rfl
@[simp] theorem val_del (k : κ) : (del k : BatchOp κ ν).val = none := rfl

end BatchOp

namespace SortedMap

variable {κ : Type u} {ν : Type v} [LinearOrder κ]

/-! ## Lookup -/

def lookupL (k : κ) : List (κ × ν) → Option ν
  | [] => none
  | e :: es => if e.1 = k then some e.2 else lookupL k es

def get (m : SortedMap κ ν) (k : κ) : Option ν := lookupL k m.entries

def empty : SortedMap κ ν := ⟨[], .nil⟩

instance [DecidableEq ν] : DecidableEq (SortedMap κ ν) := fun a b =>
  decidable_of_iff (a.entries = b.entries) (by cases a; cases b; simp)

@[simp] theorem get_empty (k : κ) : (empty : SortedMap κ ν).get k = none := rfl

variable {l : List (κ × ν)} {k : κ}

theorem lookupL_eq_none : lookupL k l = none ↔ ∀ e ∈ l, e.1 ≠ k := by
  induction l with
  | nil => simp [lookupL]
  | cons e es ih =>
    by_cases h : e.1 = k
    · simp [lookupL, h]
    · simp [lookupL, h, ih]

theorem mem_of_lookupL {x : ν} (h : lookupL k l = some x) : (k, x) ∈ l := by
  induction l with
  | nil => cases h
  | cons e es ih =>
    simp only [lookupL] at h
    split at h
    · next he => cases h; subst he; exact mem_cons_self
    · exact mem_cons_of_mem _ (ih h)

theorem lookupL_of_mem {x : ν} (hs : l.Pairwise (fun a b => a.1 < b.1)) (h : (k, x) ∈ l) :
    lookupL k l = some x := by
  induction l with
  | nil => cases h
  | cons e es ih =>
    obtain ⟨hlt, hs⟩ := pairwise_cons.mp hs
    rcases mem_cons.mp h with rfl | h
    · simp [lookupL]
    · have hne : e.1 ≠ k := ne_of_lt (hlt _ h)
      simp only [lookupL, hne]
      exact ih hs h

variable {m : SortedMap κ ν}

theorem get_eq_some {x : ν} : m.get k = some x ↔ (k, x) ∈ m.entries :=
  ⟨mem_of_lookupL, lookupL_of_mem m.sorted⟩

theorem get_eq_none : m.get k = none ↔ ∀ e ∈ m.entries, e.1 ≠ k :=
  lookupL_eq_none

theorem mem_entries {e : κ × ν} : e ∈ m.entries ↔ m.get e.1 = some e.2 :=
  get_eq_some.symm

theorem eq_of_mem_iff {l' : List (κ × ν)} (hl : l.Pairwise fun a b => a.1 < b.1)
    (hl' : l'.Pairwise fun a b => a.1 < b.1) (h : ∀ e, e ∈ l ↔ e ∈ l') : l = l' := by
  have hnodup : ∀ {l : List (κ × ν)}, l.Pairwise (fun a b => a.1 < b.1) → l.Nodup := fun hl =>
    hl.imp fun h e => absurd (congrArg Prod.fst e) (ne_of_lt h)
  exact ((perm_ext_iff_of_nodup (hnodup hl) (hnodup hl')).mpr h).eq_of_pairwise
    (fun a b _ _ h1 h2 => absurd h1 (lt_asymm h2)) hl hl'

theorem ext {m' : SortedMap κ ν} (h : ∀ k, m.get k = m'.get k) : m = m' := by
  have he := eq_of_mem_iff m.sorted m'.sorted fun e => by rw [mem_entries, mem_entries, h]
  cases m; cases m'; subst he; rfl

theorem filter_entries_eq {p : κ × ν → Bool} (hl : l.Pairwise fun a b => a.1 < b.1)
    (h : ∀ e, e ∈ l ↔ m.get e.1 = some e.2 ∧ p e) : m.entries.filter p = l :=
  eq_of_mem_iff (m.sorted.filter _) hl fun e => by rw [mem_filter, mem_entries, h]

/-! ## Updates -/

def putL (k : κ) (x : ν) : List (κ × ν) → List (κ × ν)
  | [] => [(k, x)]
  | e :: es =>
    if k < e.1 then (k, x) :: e :: es
    else if k = e.1 then (k, x) :: es
    else e :: putL k x es

theorem fst_of_mem_putL {x : ν} {e : κ × ν} (h : e ∈ putL k x l) : e.1 = k ∨ e ∈ l := by
  induction l with
  | nil => simp only [putL, mem_singleton] at h; exact .inl (by rw [h])
  | cons a l ih =>
    simp only [putL] at h
    split at h
    · rcases mem_cons.mp h with rfl | h
      · exact .inl rfl
      · exact .inr h
    · split at h
      · rcases mem_cons.mp h with rfl | h
        · exact .inl rfl
        · exact .inr (mem_cons_of_mem _ h)
      · rcases mem_cons.mp h with rfl | h
        · exact .inr mem_cons_self
        · exact (ih h).imp_right (mem_cons_of_mem _)

theorem putL_sorted (k : κ) (x : ν) (hs : l.Pairwise (fun a b => a.1 < b.1)) :
    (putL k x l).Pairwise (fun a b => a.1 < b.1) := by
  induction l with
  | nil => simp [putL]
  | cons a l ih =>
    obtain ⟨hlt, hs⟩ := pairwise_cons.mp hs
    simp only [putL]
    split
    · next h =>
      refine pairwise_cons.mpr ⟨fun e he => ?_, pairwise_cons.mpr ⟨hlt, hs⟩⟩
      rcases mem_cons.mp he with rfl | he
      · exact h
      · exact lt_trans h (hlt e he)
    · next h =>
      split
      · next hk => exact pairwise_cons.mpr ⟨fun e he => hk ▸ hlt e he, hs⟩
      · next hk =>
        refine pairwise_cons.mpr ⟨fun e he => ?_, ih hs⟩
        rcases fst_of_mem_putL he with hek | he
        · exact hek ▸ lt_of_le_of_ne (not_lt.mp h) (Ne.symm hk)
        · exact hlt e he

theorem lookupL_putL (k : κ) (x : ν) (l : List (κ × ν)) (k' : κ) :
    lookupL k' (putL k x l) = if k = k' then some x else lookupL k' l := by
  induction l with
  | nil => simp [putL, lookupL]
  | cons a l ih =>
    simp only [putL]
    split
    · simp [lookupL]
    · split
      · next h =>
        by_cases hk : k = k'
        · simp [lookupL, hk]
        · simp [lookupL, hk, ← h]
      · next h =>
        by_cases ha : a.1 = k'
        · have hk : k ≠ k' := fun e => h (e.trans ha.symm)
          simp [lookupL, ha, hk]
        · simp [lookupL, ha, ih]

def put (m : SortedMap κ ν) (k : κ) (x : ν) : SortedMap κ ν :=
  ⟨putL k x m.entries, putL_sorted k x m.sorted⟩

def delete (m : SortedMap κ ν) (k : κ) : SortedMap κ ν :=
  ⟨m.entries.filter (fun e => e.1 ≠ k), m.sorted.filter _⟩

theorem get_put (m : SortedMap κ ν) (k : κ) (x : ν) (k' : κ) :
    (m.put k x).get k' = if k = k' then some x else m.get k' := lookupL_putL k x m.entries k'

theorem get_delete (m : SortedMap κ ν) (k k' : κ) :
    (m.delete k).get k' = if k = k' then none else m.get k' := by
  by_cases h : k = k'
  · subst h
    rw [if_pos rfl, get_eq_none]
    intro e he
    simpa using (mem_filter.mp he).2
  · rw [if_neg h]
    refine Option.ext fun x => ?_
    rw [get_eq_some, get_eq_some]
    simp [delete, Ne.symm h]

theorem lookupL_filter (p : κ → Bool) (k : κ) (l : List (κ × ν)) :
    lookupL k (l.filter fun e => p e.1) = if p k then lookupL k l else none := by
  induction l with
  | nil => simp [lookupL]
  | cons e es ih =>
    by_cases hp : p e.1
    · rw [filter_cons_of_pos (by exact hp), lookupL, lookupL, ih]
      by_cases he : e.1 = k
      · rw [if_pos he, if_pos (he ▸ hp), if_pos he]
      · rw [if_neg he, if_neg he]
    · rw [filter_cons_of_neg (by exact hp), ih, lookupL]
      by_cases he : e.1 = k
      · rw [if_neg (he ▸ hp), if_neg (he ▸ hp)]
      · rw [if_neg he]

def filterVal (p : ν → Bool) (m : SortedMap κ ν) : SortedMap κ ν :=
  ⟨m.entries.filter fun e => p e.2, m.sorted.filter _⟩

theorem get_filterVal (p : ν → Bool) (m : SortedMap κ ν) (k : κ) :
    (m.filterVal p).get k = (m.get k).filter p := by
  refine Option.ext fun x => ?_
  rw [get_eq_some, filter_eq_some_iff, get_eq_some]
  exact mem_filter

/-- Drop the keys from `lower` up to, and without, `upper`. -/
def deleteRange (m : SortedMap κ ν) (lower upper : κ) : SortedMap κ ν :=
  ⟨m.entries.filter fun e => ¬ (lower ≤ e.1 ∧ e.1 < upper), m.sorted.filter _⟩

theorem get_deleteRange (m : SortedMap κ ν) (lower upper k : κ) :
    (m.deleteRange lower upper).get k = if lower ≤ k ∧ k < upper then none else m.get k := by
  have h := lookupL_filter (fun k => decide ¬ (lower ≤ k ∧ k < upper)) k m.entries
  refine h.trans ?_
  by_cases hk : lower ≤ k ∧ k < upper
  · rw [if_pos hk, if_neg (by simp [hk])]
  · rw [if_neg hk, if_pos (decide_eq_true hk)]
    rfl

/-! ## Batches -/

def apply (m : SortedMap κ ν) : BatchOp κ ν → SortedMap κ ν
  | .put k x => m.put k x
  | .del k => m.delete k

theorem get_apply (m : SortedMap κ ν) (op : BatchOp κ ν) (k : κ) :
    (m.apply op).get k = if op.key = k then op.val else m.get k := by
  cases op with
  | put k' x => exact get_put m k' x k
  | del k' => exact get_delete m k' k

/-- An atomic batch: its operations in order. -/
def write (m : SortedMap κ ν) (ops : List (BatchOp κ ν)) : SortedMap κ ν := ops.foldl apply m

@[simp] theorem write_nil (m : SortedMap κ ν) : m.write [] = m := rfl

@[simp] theorem write_cons (m : SortedMap κ ν) (op : BatchOp κ ν) (ops : List (BatchOp κ ν)) :
    m.write (op :: ops) = (m.apply op).write ops := rfl

theorem write_filterMap {σ : Type*} {ω : Type*} {f : σ → ω → σ} {p : σ → SortedMap κ ν}
    {g : ω → Option (BatchOp κ ν)} (hf : ∀ s w, p (f s w) = (g w).elim (p s) (p s).apply) (s : σ)
    (ws : List ω) : p (ws.foldl f s) = (p s).write (ws.filterMap g) := by
  induction ws generalizing s with
  | nil => rfl
  | cons w ws ih =>
    rw [foldl_cons, ih, hf, filterMap_cons]
    cases g w <;> rfl

theorem write_append (m : SortedMap κ ν) (ops ops' : List (BatchOp κ ν)) :
    m.write (ops ++ ops') = (m.write ops).write ops' :=
  foldl_append

end SortedMap

/-- What the last operation of a batch on `k` leaves there; `none` when no
operation names `k`. -/
def lastWrite {κ : Type u} {ν : Type v} [LinearOrder κ] (k : κ) :
    List (BatchOp κ ν) → Option (Option ν)
  | [] => none
  | op :: ops => match lastWrite k ops with
    | some r => some r
    | none => if op.key = k then some op.val else none

section lastWrite

variable {κ : Type u} {ν : Type v} [LinearOrder κ] {k : κ}

@[simp] theorem lastWrite_nil : lastWrite k ([] : List (BatchOp κ ν)) = none := rfl

theorem lastWrite_cons (op : BatchOp κ ν) (ops : List (BatchOp κ ν)) :
    lastWrite k (op :: ops) = (lastWrite k ops).or (if op.key = k then some op.val else none) := by
  rw [lastWrite]
  cases lastWrite k ops <;> rfl

theorem lastWrite_append (ops ops' : List (BatchOp κ ν)) :
    lastWrite k (ops ++ ops') = (lastWrite k ops').or (lastWrite k ops) := by
  induction ops with
  | nil => simp
  | cons op ops ih => rw [cons_append, lastWrite_cons, lastWrite_cons, ih, Option.or_assoc]

variable {ops : List (BatchOp κ ν)}

theorem lastWrite_eq_none : lastWrite k ops = none ↔ ∀ op ∈ ops, op.key ≠ k := by
  induction ops with
  | nil => simp
  | cons op ops ih =>
    rw [lastWrite_cons, or_eq_none_iff, ih]
    by_cases h : op.key = k
    · simp [h]
    · simp [h]

theorem exists_of_lastWrite {r : Option ν} (h : lastWrite k ops = some r) :
    ∃ op ∈ ops, op.key = k ∧ op.val = r := by
  induction ops with
  | nil => cases h
  | cons op ops ih =>
    rw [lastWrite_cons] at h
    cases hl : lastWrite k ops with
    | some r' =>
      rw [hl] at h
      cases h
      obtain ⟨op', hm, h'⟩ := ih hl
      exact ⟨op', mem_cons_of_mem _ hm, h'⟩
    | none =>
      rw [hl] at h
      split at h
      · next hk => cases h; exact ⟨op, mem_cons_self, hk, rfl⟩
      · cases h

theorem lastWrite_of_forall {r : Option ν} {op : BatchOp κ ν} (hm : op ∈ ops) (hk : op.key = k)
    (h : ∀ o ∈ ops, o.key = k → o.val = r) : lastWrite k ops = some r := by
  cases hl : lastWrite k ops with
  | none => exact absurd hk (lastWrite_eq_none.mp hl op hm)
  | some r' =>
    obtain ⟨o, ho, hok, rfl⟩ := exists_of_lastWrite hl
    rw [h o ho hok]

section flatMap

variable {α : Type*} {f : α → List (BatchOp κ ν)} {l : List α}

theorem lastWrite_flatMap_eq_none :
    lastWrite k (l.flatMap f) = none ↔ ∀ a ∈ l, lastWrite k (f a) = none := by
  induction l with
  | nil => simp
  | cons a l ih =>
    rw [flatMap_cons, lastWrite_append, or_eq_none_iff, ih, forall_mem_cons, and_comm]

theorem lastWrite_flatMap_eq_some {r : Option ν} :
    lastWrite k (l.flatMap f) = some r ↔ ∃ before a after, l = before ++ a :: after ∧
      lastWrite k (f a) = some r ∧ ∀ b ∈ after, lastWrite k (f b) = none := by
  constructor
  · intro h
    induction l with
    | nil => cases h
    | cons a l ih =>
      rw [flatMap_cons, lastWrite_append] at h
      cases hl : lastWrite k (l.flatMap f) with
      | some r' =>
        rw [hl] at h
        obtain ⟨before, b, after, rfl, hb, hafter⟩ := ih (hl.trans h)
        exact ⟨a :: before, b, after, rfl, hb, hafter⟩
      | none =>
        rw [hl] at h
        exact ⟨[], a, l, rfl, h, lastWrite_flatMap_eq_none.mp hl⟩
  · rintro ⟨before, a, after, rfl, ha, hafter⟩
    rw [flatMap_append, flatMap_cons, lastWrite_append, lastWrite_append,
      lastWrite_flatMap_eq_none.mpr hafter, ha, none_or, some_or]

theorem lastWrite_flatMap_of_forall {r : Option (Option ν)} {a : α} (ha : a ∈ l)
    (hr : lastWrite k (f a) = r) (h : ∀ b ∈ l, lastWrite k (f b) = none ∨ lastWrite k (f b) = r) :
    lastWrite k (l.flatMap f) = r := by
  cases hl : lastWrite k (l.flatMap f) with
  | none => rw [← hr, lastWrite_flatMap_eq_none.mp hl a ha]
  | some x =>
    obtain ⟨before, b, after, rfl, hb, -⟩ := lastWrite_flatMap_eq_some.mp hl
    rcases h b (by simp) with h' | h'
    · rw [hb] at h'
      cases h'
    · rw [← hb, h']

theorem lastWrite_flatMap_rows {β γ : Type*} [DecidableEq β] {f : β × γ → List (BatchOp κ ν)}
    {l : List (β × γ)} {m : Option γ} {x : β} {g : γ → Option ν}
    (hl : ∀ v, (x, v) ∈ l ↔ m = some v)
    (hf : ∀ e ∈ l, lastWrite k (f e) = if e.1 = x then some (g e.2) else none) :
    lastWrite k (l.flatMap f) = m.map g := by
  have hrow : ∀ e ∈ l, e.1 = x → m = some e.2 := by
    rintro ⟨_, v⟩ he rfl
    exact (hl v).mp he
  cases m with
  | none =>
    refine lastWrite_flatMap_eq_none.mpr fun e he => ?_
    exact (hf e he).trans (if_neg fun h => by cases hrow e he h)
  | some v =>
    have hv := (hl v).mpr rfl
    refine lastWrite_flatMap_of_forall hv ((hf _ hv).trans (if_pos rfl)) fun e he => ?_
    rw [hf e he]
    split
    · next h => exact .inr (congrArg (Option.map g) (hrow e he h)).symm
    · exact .inl rfl

end flatMap

def PutsLast (k : κ) (ops : List (BatchOp κ ν)) : Prop :=
  ops.Pairwise fun a b => a.key = k → b.key = k → a.val.isSome → b.val.isSome

theorem lastWrite_of_putsLast {v : ν} (hlast : PutsLast k ops)
    (hval : ∀ o ∈ ops, o.key = k → ∀ w, o.val = some w → w = v) {op : BatchOp κ ν} (hm : op ∈ ops)
    (hk : op.key = k) (hop : op.val = some v) : lastWrite k ops = some (some v) := by
  induction ops generalizing op with
  | nil => cases hm
  | cons o ops ih =>
    obtain ⟨hhead, htail⟩ := pairwise_cons.mp hlast
    have hval' := fun o' ho' => hval o' (mem_cons_of_mem _ ho')
    rw [lastWrite_cons]
    cases hl : lastWrite k ops with
    | some r =>
      -- the later operation on `k` is a put, by the order or because `op` is behind `o`
      obtain ⟨o', ho', hk', rfl⟩ := exists_of_lastWrite hl
      rcases mem_cons.mp hm with rfl | hm
      · obtain ⟨w, hw⟩ := isSome_iff_exists.mp
          (hhead o' ho' hk hk' (by rw [hop]; rfl))
        rw [hw, hval' o' ho' hk' w hw]
        rfl
      · rw [← hl, ih htail hval' hm hk hop]
        rfl
    | none =>
      rcases mem_cons.mp hm with rfl | hm
      · rw [if_pos hk, hop]
        rfl
      · exact absurd hk (lastWrite_eq_none.mp hl op hm)

theorem lastWrite_append_of_not_mem {ops' : List (BatchOp κ ν)} (h : ∀ op ∈ ops', op.key ≠ k) :
    lastWrite k (ops ++ ops') = lastWrite k ops := by
  rw [lastWrite_append, lastWrite_eq_none.mpr h, none_or]

theorem lastWrite_map_del (ks : List κ) :
    lastWrite k (ks.map (.del : κ → BatchOp κ ν)) = if k ∈ ks then some none else none := by
  induction ks with
  | nil => simp
  | cons k' ks ih =>
    rw [map_cons, lastWrite_cons, ih]
    by_cases h : k ∈ ks
    · simp [h]
    · by_cases hk : k' = k
      · simp [h, hk]
      · simp [hk, Ne.symm hk]

end lastWrite

namespace SortedMap

variable {κ : Type u} {ν : Type v} [LinearOrder κ]

theorem get_write (m : SortedMap κ ν) (ops : List (BatchOp κ ν)) (k : κ) :
    (m.write ops).get k = (lastWrite k ops).getD (m.get k) := by
  induction ops generalizing m with
  | nil => rfl
  | cons op ops ih =>
    rw [write_cons, ih, lastWrite_cons, get_apply]
    cases lastWrite k ops with
    | some r => rfl
    | none => by_cases h : op.key = k <;> simp [h]

variable {m : SortedMap κ ν} {ops : List (BatchOp κ ν)} {k : κ}

theorem get_write_of_not_mem (h : ∀ op ∈ ops, op.key ≠ k) : (m.write ops).get k = m.get k := by
  rw [get_write, lastWrite_eq_none.mpr h]
  rfl

theorem entries_write_del (m : SortedMap κ ν) (ks : List κ) :
    (m.write (ks.map .del)).entries = m.entries.filter (fun e => e.1 ∉ ks) := by
  induction ks generalizing m with
  | nil => simp
  | cons k ks ih =>
    rw [map_cons, write_cons, ih]
    simp only [apply, delete]
    simp [Bool.and_comm]

theorem filterMap_filter_eq_iff {α β : Type*} {p : α → Bool} {g : α → Option β} {l : List α} :
    (l.filter p).filterMap g = l.filterMap g ↔ ∀ a ∈ l, p a = false → g a = none := by
  induction l with
  | nil => simp
  | cons a l ih =>
    rw [forall_mem_cons, ← ih]
    have hle : ((l.filter p).filterMap g).length ≤ (l.filterMap g).length :=
      (filter_sublist.filterMap g).length_le
    cases hp : p a with
    | true =>
      rw [filter_cons_of_pos hp]
      cases hg : g a with
      | none => simp [filterMap_cons_none hg]
      | some b => simp [filterMap_cons_some hg]
    | false =>
      rw [filter_cons_of_neg (by simp [hp])]
      cases hg : g a with
      | none => simp [filterMap_cons_none hg]
      | some b =>
        -- the element dropped makes the list on the right longer
        rw [filterMap_cons_some hg]
        refine ⟨fun h => ?_, fun h => nomatch h.1 rfl⟩
        rw [h, length_cons] at hle
        omega

theorem filterMap_entries_write_del {β : Type*} (m : SortedMap κ ν) (ks : List κ)
    (g : κ × ν → Option β) :
    (m.write (ks.map .del)).entries.filterMap g = m.entries.filterMap g ↔
      ∀ k ∈ ks, ∀ x, m.get k = some x → g (k, x) = none := by
  rw [entries_write_del, filterMap_filter_eq_iff]
  exact ⟨fun h k hk x hx => h (k, x) (mem_entries.mpr hx) (by simpa using hk),
    fun h e he hk => h e.1 (by simpa using hk) e.2 (mem_entries.mp he)⟩

theorem filter_entries_congr {m' : SortedMap κ ν} {p : κ → Bool}
    (h : ∀ k, p k → m.get k = m'.get k) :
    m.entries.filter (fun e => p e.1) = m'.entries.filter fun e => p e.1 := by
  refine eq_of_mem_iff (m.sorted.filter _) (m'.sorted.filter _) fun e => ?_
  rw [mem_filter, mem_filter, mem_entries, mem_entries]
  exact and_congr_left fun hp => by rw [h e.1 hp]

/-- The map of a list of entries; a later entry replaces an earlier one. -/
def ofList (l : List (κ × ν)) : SortedMap κ ν := empty.write (l.map fun e => .put e.1 e.2)

theorem mem_of_get_ofList {l : List (κ × ν)} {x : ν} (h : (ofList l).get k = some x) :
    (k, x) ∈ l := by
  rw [ofList, get_write] at h
  cases hl : lastWrite k (l.map fun e => (.put e.1 e.2 : BatchOp κ ν)) with
  | none => rw [hl] at h; cases h
  | some r =>
    obtain ⟨op, hop, hk, hv⟩ := exists_of_lastWrite hl
    obtain ⟨e, he, rfl⟩ := List.mem_map.mp hop
    rw [hl, getD_some, ← hv, BatchOp.val_put, some.injEq] at h
    rw [← hk, ← h]
    exact he

theorem mem_entries_write {e : κ × ν} (h : e ∈ (m.write ops).entries) :
    (∃ op ∈ ops, op.key = e.1 ∧ op.val = some e.2) ∨ e ∈ m.entries := by
  rw [mem_entries, get_write] at h
  cases hl : lastWrite e.1 ops with
  | none =>
    rw [hl] at h
    exact .inr (mem_entries.mpr h)
  | some r =>
    obtain ⟨op, hop, hk, hv⟩ := exists_of_lastWrite hl
    rw [hl] at h
    exact .inl ⟨op, hop, hk, hv.trans h⟩

theorem get_write_entries (m m' : SortedMap κ ν) (k : κ) :
    (m.write (m'.entries.map fun e => .put e.1 e.2)).get k = (m'.get k).or (m.get k) := by
  rw [get_write]
  cases hg : m'.get k with
  | none =>
    rw [lastWrite_eq_none.mpr]
    · rfl
    · intro op hop
      obtain ⟨e, he, rfl⟩ := List.mem_map.mp hop
      exact get_eq_none.mp hg e he
  | some x =>
    have hmem : (.put k x : BatchOp κ ν) ∈ m'.entries.map fun e => .put e.1 e.2 :=
      List.mem_map.mpr ⟨(k, x), get_eq_some.mp hg, rfl⟩
    have hlast := lastWrite_of_forall (r := some x) hmem rfl fun op hop hk => by
      obtain ⟨e, he, rfl⟩ := List.mem_map.mp hop
      have he' := mem_entries.mp he
      rw [show e.1 = k from hk, hg] at he'
      exact he'.symm
    rw [BatchOp.key_put] at hlast
    rw [hlast]
    rfl

theorem ofList_entries (m : SortedMap κ ν) : ofList m.entries = m :=
  ext fun k => by rw [ofList, get_write_entries, get_empty, or_none]

/-! ## Keys and values -/

theorem nodup_keys (m : SortedMap κ ν) : (m.entries.map (·.1)).Nodup :=
  nodup_iff_pairwise_ne.mpr (pairwise_map.mpr (m.sorted.imp fun h => ne_of_lt h))

def keys (m : SortedMap κ ν) : Finset κ := (m.entries.map (·.1)).toFinset

theorem mem_keys : k ∈ m.keys ↔ (m.get k).isSome := by
  rw [keys, List.mem_toFinset, List.mem_map, isSome_iff_exists]
  constructor
  · rintro ⟨e, he, rfl⟩
    exact ⟨e.2, mem_entries.mp he⟩
  · rintro ⟨x, hx⟩
    exact ⟨(k, x), get_eq_some.mp hx, rfl⟩

def size (m : SortedMap κ ν) : Nat := m.entries.length

theorem size_eq_card (m : SortedMap κ ν) : m.size = m.keys.card := by
  rw [keys, toFinset_card_of_nodup m.nodup_keys, length_map, size]

@[simp] theorem keys_empty : (empty : SortedMap κ ν).keys = ∅ := rfl

theorem keys_put (m : SortedMap κ ν) (k : κ) (x : ν) : (m.put k x).keys = insert k m.keys := by
  ext k'
  rw [mem_keys, get_put, Finset.mem_insert, mem_keys]
  by_cases h : k = k'
  · simp [h]
  · simp [h, Ne.symm h]

theorem keys_delete (m : SortedMap κ ν) (k : κ) : (m.delete k).keys = m.keys.erase k := by
  ext k'
  rw [mem_keys, get_delete, Finset.mem_erase, mem_keys]
  by_cases h : k = k'
  · simp [h]
  · simp [h, Ne.symm h]

theorem keys_write_put (m : SortedMap κ ν) (l : List (κ × ν)) :
    (m.write (l.map fun e => .put e.1 e.2)).keys = m.keys ∪ (l.map (·.1)).toFinset := by
  induction l generalizing m with
  | nil => simp
  | cons e l ih =>
    rw [map_cons, write_cons, ih, apply, keys_put, map_cons, toFinset_cons,
      Finset.insert_union, Finset.union_insert]

theorem keys_write_del (m : SortedMap κ ν) (ks : List κ) :
    (m.write (ks.map .del)).keys = m.keys \ ks.toFinset := by
  induction ks generalizing m with
  | nil => simp
  | cons k ks ih =>
    rw [map_cons, write_cons, ih, apply, keys_delete, toFinset_cons,
      ← Finset.sdiff_singleton_eq_erase, sdiff_sdiff]
    rfl

/-- What the values weigh together. -/
def total (w : ν → Nat) (m : SortedMap κ ν) : Nat := (m.entries.map fun e => w e.2).sum

theorem total_put (w : ν → Nat) (m : SortedMap κ ν) (k : κ) (x : ν) :
    (m.put k x).total w = w x + (m.delete k).total w := by
  have hperm : (m.put k x).entries.Perm ((k, x) :: (m.delete k).entries) := by
    have hnew : (k, x) ∉ (m.delete k).entries := fun h => by
      rw [mem_entries, get_delete, if_pos rfl] at h
      cases h
    have hnodup (m : SortedMap κ ν) : m.entries.Nodup := m.nodup_keys.of_map
    refine (perm_ext_iff_of_nodup (hnodup _) (nodup_cons.mpr ⟨hnew, hnodup _⟩)).mpr fun e => ?_
    rw [List.mem_cons, mem_entries, mem_entries, get_put, get_delete, Prod.ext_iff]
    by_cases hk : k = e.1
    · simp [hk, eq_comm]
    · simp [hk, Ne.symm hk]
  exact (hperm.map _).sum_nat

theorem total_delete (w : ν → Nat) (m : SortedMap κ ν) (k : κ) :
    m.total w = (m.get k).elim 0 w + (m.delete k).total w := by
  cases hk : m.get k with
  | none =>
    have hsame : m.delete k = m := ext fun k' => by
      rw [get_delete]
      split
      · next h => rw [← h, hk]
      · rfl
    rw [hsame, elim_none, Nat.zero_add]
  | some x =>
    have hsame : m.put k x = m := ext fun k' => by
      rw [get_put]
      split
      · next h => rw [← h, hk]
      · rfl
    rw [elim_some, ← total_put, hsame]

theorem size_eq_total (m : SortedMap κ ν) : m.size = m.total fun _ => 1 := by
  simp [size, total]

theorem size_put (m : SortedMap κ ν) (k : κ) (x : ν) :
    (m.put k x).size = m.size + if (m.get k).isNone then 1 else 0 := by
  rw [size_eq_total, size_eq_total, total_put, total_delete _ m k]
  cases m.get k <;> simp [Nat.add_comm]

theorem size_delete (h : (m.get k).isSome) : (m.delete k).size + 1 = m.size := by
  obtain ⟨x, hx⟩ := isSome_iff_exists.mp h
  rw [size_eq_total, size_eq_total, total_delete _ m k, hx, elim_some, Nat.add_comm]

def mapVal {μ : Type w} (f : ν → μ) (m : SortedMap κ ν) : SortedMap κ μ :=
  ⟨m.entries.map fun e => (e.1, f e.2), List.pairwise_map.mpr m.sorted⟩

theorem get_mapVal {μ : Type w} (f : ν → μ) (m : SortedMap κ ν) (k : κ) :
    (m.mapVal f).get k = (m.get k).map f := by
  refine Option.ext fun y => ?_
  rw [get_eq_some, map_eq_some_iff, mapVal, List.mem_map]
  constructor
  · rintro ⟨e, he, heq⟩
    cases heq
    exact ⟨e.2, mem_entries.mp he, rfl⟩
  · rintro ⟨x, hx, rfl⟩
    exact ⟨(k, x), get_eq_some.mp hx, rfl⟩

end SortedMap

end Rdb.Lib
