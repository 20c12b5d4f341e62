import Mathlib.Data.List.Basic
import Mathlib.Data.List.Nodup

/-!
# Streams of versions and their garbage collection

A multi-version store keeps the versions of many keys in one list, the versions
of each key newest first. A read at `r` takes the first version of its key at or
below `r` that is not hidden; a tombstone there means that there is no row.

A streaming collector at a watermark `wm` removes versions it decides on with
nothing but the version in front of it: a version at or below `wm` is doomed
when it is a tombstone or stands directly behind a version of its own key that
is at or below `wm`. The versions of one key need not be contiguous, and the
collector may stop after `n` removals.

* `liveRead_sweep_iff`: without hidden versions, exactly when a capped sweep
  keeps every read at or above the watermark.
* `liveRead_sweep_all_iff`: with hidden versions, the same for a sweep without
  a cap.
-/

namespace Rdb.Lib

open List

universe u v

/-- How the elements of a list are read as versions. -/
structure VersionView (α : Type u) (G : Type v) where
  group : α → G
  ts : α → Nat
  tomb : α → Bool
  hidden : α → Bool

namespace VersionView

variable {α : Type u} {G : Type v} [DecidableEq G] (V : VersionView α G)

def NewestFirst (l : List α) : Prop :=
  l.Pairwise fun x y => V.group x = V.group y → V.ts y < V.ts x

/-- What a read of key `g` at `r` may select. -/
def visible (g : G) (r : Nat) (x : α) : Bool :=
  decide (V.group x = g) && decide (V.ts x ≤ r) && !V.hidden x

def read (l : List α) (g : G) (r : Nat) : Option α := l.find? (V.visible g r)

/-- The row a read resolves to; a tombstone is no row. -/
def liveRead (l : List α) (g : G) (r : Nat) : Option α := (V.read l g r).filter fun x => !V.tomb x

/-- `x` stands directly behind a version of its own key at or below `wm`. -/
def shadowed (wm : Nat) (prev : Option α) (x : α) : Bool :=
  prev.any fun y => decide (V.group y = V.group x) && decide (V.ts y ≤ wm)

def isDoomed (wm : Nat) (prev : Option α) (x : α) : Bool :=
  decide (V.ts x ≤ wm) && (V.tomb x || V.shadowed wm prev x)

def doomedFrom (wm : Nat) : Option α → List α → List α
  | _, [] => []
  | prev, x :: l =>
    if V.isDoomed wm prev x then x :: doomedFrom wm (some x) l else doomedFrom wm (some x) l

def kept [DecidableEq α] (wm n : Nat) (l : List α) (x : α) : Bool :=
  decide (x ∉ (V.doomedFrom wm none l).take n)

/-- What is left after the first `n` doomed versions are removed. -/
def sweep [DecidableEq α] (wm n : Nat) (l : List α) : List α := l.filter (V.kept wm n l)

/-! ## Which versions a sweep removes -/

variable {V} {wm n r : Nat} {g : G} {l : List α} {x : α}

theorem visible_iff : V.visible g r x ↔ V.group x = g ∧ V.ts x ≤ r ∧ V.hidden x = false := by
  simp [visible, and_assoc]

variable {prev : Option α}

theorem shadowed_iff :
    V.shadowed wm prev x ↔ ∃ y, prev = some y ∧ V.group y = V.group x ∧ V.ts y ≤ wm := by
  simp [shadowed, Option.any_eq_true]

theorem isDoomed_iff :
    V.isDoomed wm prev x ↔
      V.ts x ≤ wm ∧ (V.tomb x ∨ V.shadowed wm prev x) := by
  simp [isDoomed]

theorem read_eq_some_iff :
    V.read l g r = some x ↔ V.visible g r x ∧
      ∃ a b, l = a ++ x :: b ∧ ∀ y ∈ a, V.visible g r y = false := by
  simp [read, find?_eq_some_iff_append]

omit [DecidableEq G] in
theorem NewestFirst.nodup (h : V.NewestFirst l) : l.Nodup :=
  h.imp fun hxy e => absurd (hxy (congrArg V.group e)) (by rw [e]; exact Nat.lt_irrefl _)

variable {a b : List α} {y : α}

omit [DecidableEq G] in
theorem NewestFirst.ts_lt (h : V.NewestFirst (a ++ x :: b)) (hy : y ∈ b)
    (hg : V.group x = V.group y) : V.ts y < V.ts x :=
  (pairwise_cons.mp (pairwise_append.mp h).2.1).1 y hy hg

omit [DecidableEq G] in
theorem NewestFirst.eq_of_ts_eq (h : V.NewestFirst l) (hx : x ∈ l) (hy : y ∈ l)
    (hg : V.group x = V.group y) (ht : V.ts x = V.ts y) : x = y := by
  obtain ⟨a, b, rfl⟩ := append_of_mem hx
  rcases mem_append.mp hy with hy | hy
  · have := (pairwise_append.mp h).2.2 y hy x (by simp) hg.symm
    omega
  · rcases mem_cons.mp hy with rfl | hy
    · rfl
    · have := h.ts_lt hy hg
      omega

omit [DecidableEq G] in
theorem NewestFirst.not_mem (h : V.NewestFirst (a ++ x :: b)) : x ∉ a ∧ x ∉ b := by
  have hn := h.nodup
  rw [nodup_append] at hn
  exact ⟨fun hx => hn.2.2 x hx x (by simp) rfl, (nodup_cons.mp hn.2.1).1⟩

theorem NewestFirst.read_eq_newest_iff (h : V.NewestFirst l) :
    V.read l g r = some x ↔
      x ∈ l ∧ V.visible g r x ∧ ∀ y ∈ l, V.visible g r y → V.ts y ≤ V.ts x := by
  have hnewest : ∀ z, V.read l g r = some z →
      z ∈ l ∧ V.visible g r z ∧ ∀ y ∈ l, V.visible g r y → V.ts y ≤ V.ts z := by
    intro z hz
    obtain ⟨hvis, a, b, rfl, ha⟩ := VersionView.read_eq_some_iff.mp hz
    refine ⟨by simp, hvis, fun y hy hyv => ?_⟩
    rcases mem_append.mp hy with hy | hy
    · rw [ha y hy] at hyv
      cases hyv
    · rcases mem_cons.mp hy with rfl | hy
      · exact Nat.le_refl _
      · exact Nat.le_of_lt (h.ts_lt hy ((visible_iff.mp hvis).1.trans (visible_iff.mp hyv).1.symm))
  refine ⟨hnewest x, fun ⟨hx, hvis, hmax⟩ => ?_⟩
  cases hz : V.read l g r with
  | none => exact absurd hvis (find?_eq_none.mp hz x hx)
  | some z =>
    obtain ⟨hzl, hzv, hzmax⟩ := hnewest z hz
    rw [h.eq_of_ts_eq hzl hx ((visible_iff.mp hzv).1.trans (visible_iff.mp hvis).1.symm)
      (Nat.le_antisymm (hmax z hzl hzv) (hzmax x hx hvis))]

theorem doomedFrom_append (prev : Option α) (a b : List α) :
    V.doomedFrom wm prev (a ++ b) =
      V.doomedFrom wm prev a ++ V.doomedFrom wm (a.getLast?.or prev) b := by
  induction a generalizing prev with
  | nil => simp [doomedFrom]
  | cons x a ih =>
    have hl : ((x :: a).getLast?.or prev) = (a.getLast?.or (some x)) := by
      rw [getLast?_cons]
      cases a.getLast? <;> rfl
    rw [hl, cons_append]
    simp only [doomedFrom]
    split <;> simp [ih]

theorem mem_of_mem_doomedFrom (h : x ∈ V.doomedFrom wm prev l) : x ∈ l := by
  induction l generalizing prev with
  | nil => cases h
  | cons y l ih =>
    rw [doomedFrom] at h
    split at h
    · rcases mem_cons.mp h with rfl | h
      · simp
      · exact mem_cons_of_mem _ (ih h)
    · exact mem_cons_of_mem _ (ih h)

theorem length_doomedFrom_le (prev : Option α) : (V.doomedFrom wm prev l).length ≤ l.length := by
  induction l generalizing prev with
  | nil => simp [doomedFrom]
  | cons x l ih =>
    rw [doomedFrom]
    split
    · simpa using ih (some x)
    · exact Nat.le_trans (ih (some x)) (by simp)

theorem mem_take_doomed_iff (h : V.NewestFirst (a ++ x :: b)) :
    x ∈ (V.doomedFrom wm none (a ++ x :: b)).take n ↔
      V.isDoomed wm a.getLast? x ∧ (V.doomedFrom wm none a).length < n := by
  obtain ⟨hxa, hxb⟩ := h.not_mem
  have hA : x ∉ V.doomedFrom wm none a := fun hx => hxa (mem_of_mem_doomedFrom hx)
  rw [doomedFrom_append, List.take_append, mem_append, Option.or_none]
  have hA' : x ∉ (V.doomedFrom wm none a).take n := fun hx => hA (mem_of_mem_take hx)
  rw [doomedFrom]
  split
  · next hd =>
    cases hk : n - (V.doomedFrom wm none a).length with
    | zero =>
      simp only [hA', take_zero, not_mem_nil, or_self, false_iff]
      omega
    | succ k =>
      simp only [take_succ_cons, mem_cons, true_or, or_true, hd, true_and, true_iff]
      omega
  · next hd =>
    refine iff_of_false ?_ fun hx => hd hx.1
    rintro (hx | hx)
    · exact hA' hx
    · exact hxb (mem_of_mem_doomedFrom (mem_of_mem_take hx))

/-! ## Reads of what is left -/

section Filter

variable {keep : α → Bool}

theorem read_filter_of_keep (h : V.read l g r = some x) (hx : keep x) :
    V.read (l.filter keep) g r = some x := by
  obtain ⟨hv, a, b, rfl, ha⟩ := read_eq_some_iff.mp h
  refine read_eq_some_iff.mpr ⟨hv, a.filter keep, b.filter keep, ?_, ?_⟩
  · rw [filter_append, filter_cons_of_pos hx]
  · exact fun y hy => ha y (mem_filter.mp hy).1

theorem read_filter_eq_none (h : V.read l g r = none) : V.read (l.filter keep) g r = none :=
  find?_eq_none.mpr fun x hx => find?_eq_none.mp h x (mem_filter.mp hx).1

theorem split_of_read_filter (h : V.read (l.filter keep) g r = some x) :
    V.visible g r x ∧ keep x ∧
      ∃ a b, l = a ++ x :: b ∧ ∀ y ∈ a, V.visible g r y → keep y = false := by
  rw [read, find?_filter, find?_eq_some_iff_append] at h
  obtain ⟨hx, a, b, rfl, ha⟩ := h
  simp only [decide_eq_true_eq] at hx
  refine ⟨hx.2, hx.1, a, b, rfl, fun y hy hv => ?_⟩
  have := ha y hy
  simpa [hv] using this

theorem read_filter_of_hidden (h : ∀ x ∈ l, keep x = false → V.hidden x) :
    V.read (l.filter keep) g r = V.read l g r := by
  cases hr : V.read l g r with
  | none => exact read_filter_eq_none hr
  | some x =>
    refine read_filter_of_keep hr ?_
    have hx : x ∈ l := mem_of_find?_eq_some hr
    have hv := visible_iff.mp (read_eq_some_iff.mp hr).1
    by_contra hk
    simp [h x hx (by simpa using hk)] at hv

end Filter

theorem tomb_of_doomed_of_first (hh : ∀ y ∈ a, V.hidden y = false) (hwm : wm ≤ r)
    (hfirst : ∀ y ∈ a, V.visible (V.group x) r y = false)
    (hd : V.isDoomed wm a.getLast? x) : V.ts x ≤ wm ∧ V.tomb x := by
  obtain ⟨hts, hd⟩ := isDoomed_iff.mp hd
  refine ⟨hts, hd.resolve_right fun hs => ?_⟩
  obtain ⟨y, hy, hg, hyw⟩ := shadowed_iff.mp hs
  have hmem : y ∈ a := mem_of_getLast? hy
  have hv := visible_iff.mpr ⟨hg, Nat.le_trans hyw hwm, hh y hmem⟩
  simp [hfirst y hmem] at hv

theorem exists_last_split {p : α → Prop} {l : List α} (h : ∃ x ∈ l, p x) :
    ∃ a u b, l = a ++ u :: b ∧ p u ∧ ∀ y ∈ b, ¬ p y := by
  induction l with
  | nil => simp at h
  | cons x l ih =>
    by_cases hl : ∃ y ∈ l, p y
    · obtain ⟨a, u, b, rfl, hu, hb⟩ := ih hl
      exact ⟨x :: a, u, b, rfl, hu, hb⟩
    · obtain ⟨y, hy, hp⟩ := h
      rcases mem_cons.mp hy with rfl | hy
      · exact ⟨[], y, l, rfl, hp, fun z hz hpz => hl ⟨z, hz, hpz⟩⟩
      · exact absurd ⟨y, hy, hp⟩ hl

theorem NewestFirst.ts_lt_of_read (hl : V.NewestFirst l) (h : V.read l g r = some x) (hy : y ∈ l)
    (hv : V.visible g r y) (hne : y ≠ x) : V.ts y < V.ts x := by
  obtain ⟨hx, a, b, rfl, ha⟩ := read_eq_some_iff.mp h
  rcases mem_append.mp hy with hy | hy
  · simp [ha y hy] at hv
  · have hyb := (mem_cons.mp hy).resolve_left hne
    exact hl.ts_lt hyb ((visible_iff.mp hx).1.trans (visible_iff.mp hv).1.symm)

theorem read_of_ts_le (h : V.read l g r = some x) (hx : V.ts x ≤ wm) (hwm : wm ≤ r) :
    V.read l g wm = some x := by
  obtain ⟨hv, a, b, rfl, ha⟩ := read_eq_some_iff.mp h
  obtain ⟨hg, -, hh⟩ := visible_iff.mp hv
  refine read_eq_some_iff.mpr ⟨visible_iff.mpr ⟨hg, hx, hh⟩, a, b, rfl, fun y hy => ?_⟩
  by_contra hc
  obtain ⟨hyg, hyw, hyh⟩ := visible_iff.mp (by simpa using hc)
  exact absurd (visible_iff.mpr ⟨hyg, Nat.le_trans hyw hwm, hyh⟩) (by simp [ha y hy])

theorem length_doomedFrom_concat_le (a : List α) (x : α) :
    (V.doomedFrom wm none (a ++ [x])).length ≤ (V.doomedFrom wm none a).length + 1 := by
  rw [doomedFrom_append, length_append]
  exact Nat.add_le_add_left (length_doomedFrom_le _) _

omit [DecidableEq G] in
theorem NewestFirst.mem_left {a' b' : List α} (hl : V.NewestFirst (a ++ x :: b))
    (h : a ++ x :: b = a' ++ y :: b') (hg : V.group x = V.group y) (hlt : V.ts y < V.ts x) :
    x ∈ a' := by
  have hx : x ∈ a' ++ y :: b' := by rw [← h]; simp
  rcases mem_append.mp hx with hx | hx
  · exact hx
  · rcases mem_cons.mp hx with rfl | hx
    · exact absurd hlt (Nat.lt_irrefl _)
    · rw [h] at hl
      exact absurd (hl.ts_lt hx hg.symm) (Nat.lt_asymm hlt)

/-! ## The capped sweep -/

variable [DecidableEq α]

theorem kept_eq_false (h : V.NewestFirst (a ++ x :: b)) :
    V.kept wm n (a ++ x :: b) x = false ↔
      V.isDoomed wm a.getLast? x ∧ (V.doomedFrom wm none a).length < n := by
  rw [kept, decide_eq_false_iff_not, not_not, mem_take_doomed_iff h]

/-- A sweep at `wm` with `n` removals uncovers a dead row: `x` is a live version whose key is
deleted at `wm`, the next newer version `u` of the key is reached by the sweep, and `x` is not
removed with it, either since another key's version stands between them or since `u` is the
sweep's last removal. -/
def Uncovers (V : VersionView α G) (wm n : Nat) (l : List α) : Prop :=
  ∃ a u b x c, l = a ++ u :: (b ++ x :: c) ∧
    V.group u = V.group x ∧ (∀ y ∈ b, V.group y ≠ V.group x) ∧
    V.tomb x = false ∧ V.ts u ≤ wm ∧
    (∃ t, V.read l (V.group x) wm = some t ∧ V.tomb t) ∧
    (V.doomedFrom wm none a).length < n ∧
    (b ≠ [] ∨ (V.doomedFrom wm none (a ++ [u])).length = n)

theorem uncovers_of_read {v : α} (hl : V.NewestFirst l) (hh : ∀ y ∈ l, V.hidden y = false)
    (hwm : wm ≤ r) (hr : V.read l g r = some v) (hv : V.ts v ≤ wm) (htv : V.tomb v)
    (hx : V.read (V.sweep wm n l) g r = some x) (htx : V.tomb x = false) : V.Uncovers wm n l := by
  obtain ⟨hvis, hkeep, a', b', hl', ha'⟩ := split_of_read_filter hx
  obtain ⟨hgx, hxr, -⟩ := visible_iff.mp hvis
  obtain ⟨hvisv, a, b, rfl, ha⟩ := read_eq_some_iff.mp hr
  have hgv : V.group v = g := (visible_iff.mp hvisv).1
  have hxv : V.ts x < V.ts v :=
    hl.ts_lt_of_read hr (by rw [hl']; simp) hvis (by rintro rfl; simp [htx] at htv)
  have hva : v ∈ a' := hl.mem_left hl' (hgv.trans hgx.symm) hxv
  -- the next newer version of the key is the last one in front of `x`
  obtain ⟨a₂, u, b₂, rfl, hgu, hb₂⟩ := exists_last_split (p := fun y => V.group y = g) ⟨v, hva, hgv⟩
  have hsplit : a ++ v :: b = a₂ ++ u :: (b₂ ++ x :: b') := by rw [hl']; simp
  rw [hsplit] at hl hh hr ⊢
  have huv : V.ts u ≤ V.ts v := by
    rcases mem_append.mp hva with hva | hva
    · obtain ⟨p, q, rfl⟩ := append_of_mem hva
      have hu : u ∈ q ++ u :: (b₂ ++ x :: b') := by simp
      rw [append_assoc] at hl
      exact Nat.le_of_lt (hl.ts_lt hu (hgv.trans hgu.symm))
    · rcases mem_cons.mp hva with rfl | hva
      · exact Nat.le_refl _
      · exact absurd hgv (hb₂ v hva)
  have huw : V.ts u ≤ wm := Nat.le_trans huv hv
  have hukept := ha' u (by simp)
    (visible_iff.mpr ⟨hgu, Nat.le_trans huw hwm, hh u (by simp)⟩)
  rw [hsplit] at hukept hkeep
  obtain ⟨-, hlen⟩ := (kept_eq_false hl).mp hukept
  refine ⟨a₂, u, b₂, x, b', rfl, hgu.trans hgx.symm, fun y hy => by rw [hgx]; exact hb₂ y hy, htx,
    huw, ⟨v, by rw [hgx]; exact read_of_ts_le hr hv hwm, htv⟩, hlen, ?_⟩
  by_cases hb : b₂ = []
  · subst hb
    refine .inr (Nat.le_antisymm (Nat.le_trans (length_doomedFrom_concat_le a₂ u) hlen) ?_)
    have hs : a₂ ++ u :: ([] ++ x :: b') = (a₂ ++ [u]) ++ x :: b' := by simp
    rw [hs] at hl hkeep
    by_contra hlt
    have hd : V.isDoomed wm (a₂ ++ [u]).getLast? x :=
      isDoomed_iff.mpr ⟨by omega, .inr (shadowed_iff.mpr ⟨u, by simp, hgu.trans hgx.symm, huw⟩)⟩
    rw [(kept_eq_false hl).mpr ⟨hd, Nat.lt_of_not_le hlt⟩] at hkeep
    cases hkeep
  · exact .inl hb

variable {c : List α} {u : α}

theorem kept_of_uncovered (hl : V.NewestFirst (a ++ u :: (b ++ x :: c)))
    (hb : ∀ y ∈ b, V.group y ≠ V.group x) (htx : V.tomb x = false)
    (hlast : b ≠ [] ∨ (V.doomedFrom wm none (a ++ [u])).length = n) :
    V.kept wm n (a ++ u :: (b ++ x :: c)) x := by
  have hs : a ++ u :: (b ++ x :: c) = (a ++ u :: b) ++ x :: c := by simp
  rw [hs] at hl ⊢
  by_contra hk
  obtain ⟨hd, hlen⟩ := (kept_eq_false hl).mp (by simpa using hk)
  obtain ⟨y, hy, hg, -⟩ := shadowed_iff.mp ((isDoomed_iff.mp hd).2.resolve_left (by simp [htx]))
  rcases eq_nil_or_concat b with rfl | ⟨b, z, rfl⟩
  · rcases hlast with h | h
    · exact h rfl
    · omega
  · have hz : (a ++ u :: (b ++ [z])).getLast? = some z := by
      rw [← cons_append, ← append_assoc, getLast?_concat]
    rw [concat_eq_append, hz] at hy
    cases hy
    exact hb y (by simp) hg

theorem tomb_eq_false_of_kept {d : List α} {w : α} (hl : V.NewestFirst (a ++ d)) (hw : w ∈ a)
    (hts : V.ts w ≤ wm) (hlen : (V.doomedFrom wm none a).length ≤ n)
    (hk : V.kept wm n (a ++ d) w) : V.tomb w = false := by
  obtain ⟨a₁, a₂, rfl⟩ := append_of_mem hw
  by_contra ht
  have hd : V.isDoomed wm a₁.getLast? w = true := isDoomed_iff.mpr ⟨hts, .inl (by simpa using ht)⟩
  have hpre : (V.doomedFrom wm none a₁).length + 1 ≤
      (V.doomedFrom wm none (a₁ ++ w :: a₂)).length := by
    rw [doomedFrom_append, Option.or_none, doomedFrom, if_pos hd]
    simp
  rw [append_assoc, cons_append] at hl hk
  rw [(kept_eq_false hl).mpr ⟨hd, by omega⟩] at hk
  cases hk

theorem liveRead_sweep_ne (hl : V.NewestFirst (a ++ u :: (b ++ x :: c)))
    (hh : ∀ y ∈ a ++ u :: (b ++ x :: c), V.hidden y = false) (hgu : V.group u = V.group x)
    (hb : ∀ y ∈ b, V.group y ≠ V.group x) (htx : V.tomb x = false) (hu : V.ts u ≤ wm)
    (hlen : (V.doomedFrom wm none a).length < n)
    (hlast : b ≠ [] ∨ (V.doomedFrom wm none (a ++ [u])).length = n) :
    V.liveRead (V.sweep wm n (a ++ u :: (b ++ x :: c))) (V.group x) wm ≠ none := by
  have hxk := kept_of_uncovered hl hb htx hlast
  have hxu : V.ts x < V.ts u := hl.ts_lt (by simp) hgu
  have hxv : V.visible (V.group x) wm x = true := visible_iff.mpr ⟨rfl, by omega, hh x (by simp)⟩
  cases hw : V.read (V.sweep wm n (a ++ u :: (b ++ x :: c))) (V.group x) wm with
  | none =>
    have := find?_eq_none.mp hw x (mem_filter.mpr ⟨by simp, hxk⟩)
    exact absurd hxv this
  | some w =>
    suffices ht : V.tomb w = false by simp [liveRead, hw, ht]
    obtain ⟨hwv, hwk, a', b', hs, ha'⟩ := split_of_read_filter hw
    obtain ⟨hwg, hww, -⟩ := visible_iff.mp hwv
    by_cases hwx : w = x
    · rw [hwx]; exact htx
    have hs' : a ++ u :: (b ++ x :: c) = (a ++ u :: b) ++ x :: c := by simp
    have hmem : w ∈ a ++ u :: b := by
      have hxa' : x ∉ a' := fun h => by
        have := ha' x h hxv
        rw [hxk] at this
        cases this
      rw [hs'] at hs hl
      rcases Nat.lt_trichotomy (V.ts w) (V.ts x) with h | h | h
      · exact absurd (hl.mem_left hs hwg.symm h) hxa'
      · exact absurd (hl.eq_of_ts_eq (by rw [hs]; simp) (by simp) hwg h) hwx
      · rw [hs] at hl
        exact hl.mem_left hs.symm hwg h
    have hwau : w ∈ a ++ [u] := by
      rw [← singleton_append, ← append_assoc, mem_append] at hmem
      exact hmem.resolve_right fun h => hb w h hwg
    rw [← singleton_append, ← append_assoc] at hl hwk
    exact tomb_eq_false_of_kept hl hwau hww
      (Nat.le_trans (length_doomedFrom_concat_le a u) hlen) hwk

theorem liveRead_sweep_eq (h : ∀ v, V.read l g r = some v → V.kept wm n l v = false →
      V.tomb v ∧ ∀ x, V.read (V.sweep wm n l) g r = some x → V.tomb x) :
    V.liveRead (V.sweep wm n l) g r = V.liveRead l g r := by
  cases hr : V.read l g r with
  | none => rw [liveRead, liveRead, sweep, read_filter_eq_none hr, hr]
  | some v =>
    by_cases hk : V.kept wm n l v
    · rw [liveRead, liveRead, sweep, read_filter_of_keep hr hk, hr]
    · obtain ⟨htomb, hbehind⟩ := h v hr (by simpa using hk)
      cases hx : V.read (V.sweep wm n l) g r with
      | none => simp [liveRead, Option.filter, hx, hr, htomb]
      | some x => simp [liveRead, Option.filter, hx, hr, htomb, hbehind x hx]

theorem liveRead_sweep_iff (hl : V.NewestFirst l) (hh : ∀ x ∈ l, V.hidden x = false) :
    (∀ g r, wm ≤ r → V.liveRead (V.sweep wm n l) g r = V.liveRead l g r) ↔ ¬ V.Uncovers wm n l := by
  constructor
  · rintro h ⟨a, u, b, x, c, rfl, hgu, hb, htx, hu, ⟨t, ht, htt⟩, hlen, hlast⟩
    refine liveRead_sweep_ne hl hh hgu hb htx hu hlen hlast ?_
    rw [h _ _ (Nat.le_refl _)]
    simp [liveRead, ht, htt]
  · intro hsafe g r hwm
    refine liveRead_sweep_eq fun v hr hk => ?_
    obtain ⟨hv, a, b, rfl, ha⟩ := read_eq_some_iff.mp hr
    obtain ⟨hd, -⟩ := (kept_eq_false hl).mp hk
    obtain ⟨hts, htomb⟩ := tomb_of_doomed_of_first (fun y hy => hh y (by simp [hy])) hwm
      (by rw [(visible_iff.mp hv).1]; exact ha) hd
    refine ⟨htomb, fun x hx => ?_⟩
    by_contra htx
    exact hsafe (uncovers_of_read hl hh hwm hr hts htomb hx (by simpa using htx))

/-! ## The sweep without a cap, with hidden versions -/

/-- A sweep at `wm` changes no row: a live version that is its key's row at `wm` stands behind no
version of the key at or below `wm`, and one whose key is deleted at `wm` stands behind one. -/
def Settled (V : VersionView α G) (wm : Nat) (l : List α) : Prop :=
  ∀ a x b, l = a ++ x :: b → V.tomb x = false → V.hidden x = false → V.ts x ≤ wm →
    (V.read l (V.group x) wm = some x → V.shadowed wm a.getLast? x = false) ∧
    (∀ t, V.read l (V.group x) wm = some t → V.tomb t → V.shadowed wm a.getLast? x)

theorem kept_eq_false_of_le (h : V.NewestFirst (a ++ x :: b)) (hn : (a ++ x :: b).length ≤ n) :
    V.kept wm n (a ++ x :: b) x = false ↔ V.isDoomed wm a.getLast? x := by
  rw [kept_eq_false h]
  refine and_iff_left ?_
  have : (V.doomedFrom wm none a).length ≤ a.length := length_doomedFrom_le none
  rw [length_append, length_cons] at hn
  omega

theorem settled_of_liveRead (hl : V.NewestFirst l) (hn : l.length ≤ n)
    (h : ∀ g r, wm ≤ r → V.liveRead (V.sweep wm n l) g r = V.liveRead l g r) :
    V.Settled wm l := by
  intro a x b hs htx hhx hx
  have hwm := h (V.group x) wm (Nat.le_refl _)
  have hkept : ∀ {a b y}, l = a ++ y :: b →
      (V.kept wm n l y = false ↔ V.isDoomed wm a.getLast? y) := by
    rintro a b y rfl
    exact kept_eq_false_of_le hl hn
  refine ⟨fun hr => ?_, fun t ht htt => ?_⟩
  · by_contra hsh
    have hk := (hkept hs).mpr (isDoomed_iff.mpr ⟨hx, .inr (by simpa using hsh)⟩)
    have hlive : V.liveRead (V.sweep wm n l) (V.group x) wm = some x := by
      rw [hwm]
      simp [liveRead, hr, htx]
    have hmem := mem_of_find?_eq_some (Option.filter_eq_some_iff.mp hlive).1
    rw [(mem_filter.mp hmem).2] at hk
    cases hk
  · by_contra hsh
    have hk : V.kept wm n l x := by
      by_contra hc
      have hd := isDoomed_iff.mp ((hkept hs).mp (by simpa using hc))
      simp [htx, hsh] at hd
    have hnone : V.liveRead (V.sweep wm n l) (V.group x) wm = none := by
      rw [hwm]
      simp [liveRead, ht, htt]
    cases hw : V.read (V.sweep wm n l) (V.group x) wm with
    | none =>
      have := find?_eq_none.mp hw x (mem_filter.mpr ⟨by rw [hs]; simp, hk⟩)
      exact this (visible_iff.mpr ⟨rfl, hx, hhx⟩)
    | some w =>
      have htw : V.tomb w = true := by simpa [liveRead, hw] using hnone
      obtain ⟨hv, hwk, a', b', hs', -⟩ := split_of_read_filter hw
      rw [(hkept hs').mpr (isDoomed_iff.mpr ⟨(visible_iff.mp hv).2.1, .inl htw⟩)] at hwk
      cases hwk

theorem liveRead_of_settled (hl : V.NewestFirst l) (hn : l.length ≤ n) (hset : V.Settled wm l)
    (hwm : wm ≤ r) : V.liveRead (V.sweep wm n l) g r = V.liveRead l g r := by
  refine liveRead_sweep_eq fun v hr hk => ?_
  obtain ⟨hv, a, b, rfl, ha⟩ := read_eq_some_iff.mp hr
  obtain ⟨hgv, -, hhv⟩ := visible_iff.mp hv
  obtain ⟨hts, hd⟩ := isDoomed_iff.mp ((kept_eq_false_of_le hl hn).mp hk)
  have hrw : V.read (a ++ v :: b) (V.group v) wm = some v := by
    rw [hgv]
    exact read_of_ts_le hr hts hwm
  have htomb : V.tomb v := by
    by_contra htv
    have := (hset a v b rfl (by simpa using htv) hhv hts).1 hrw
    simp [this, htv] at hd
  refine ⟨htomb, fun x hx => ?_⟩
  by_contra htx
  obtain ⟨hvx, hkx, a', b', hs, ha'⟩ := split_of_read_filter hx
  obtain ⟨hgx, hxr, hhx⟩ := visible_iff.mp hvx
  have hxv : V.ts x < V.ts v :=
    hl.ts_lt_of_read hr (by rw [hs]; simp) hvx (by rintro rfl; exact htx htomb)
  have hxw : V.ts x ≤ wm := by omega
  have hsh := (hset a' x b' hs (by simpa using htx) hhx hxw).2 v (by rw [hgx, ← hgv]; exact hrw)
    htomb
  rw [hs] at hl hn hkx
  rw [(kept_eq_false_of_le hl hn).mpr (isDoomed_iff.mpr ⟨hxw, .inr hsh⟩)] at hkx
  cases hkx

theorem liveRead_sweep_all_iff (hl : V.NewestFirst l) (hn : l.length ≤ n) :
    (∀ g r, wm ≤ r → V.liveRead (V.sweep wm n l) g r = V.liveRead l g r) ↔ V.Settled wm l :=
  ⟨settled_of_liveRead hl hn, fun h _ _ hwm => liveRead_of_settled hl hn h hwm⟩

end VersionView

end Rdb.Lib
