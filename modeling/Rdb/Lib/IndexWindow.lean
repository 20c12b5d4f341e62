import Rdb.Lib.SortedMap

/-!
# Windows of consecutive indices

A list kept under the indices `base, base + 1, …` of a map, as a function of the
index. `written` is what a batch of deletes and puts leaves of such a map, and
`written_eq` reduces the effect of a batch to three pointwise facts: what is put, what
is deleted and not put, and what is left alone.
-/

namespace Rdb.Lib

open List

variable {α : Type*}

def window (base : Nat) (w : List α) (i : Nat) : Option α := if base ≤ i then w[i - base]? else none

theorem window_add (base : Nat) (w : List α) (j : Nat) : window base w (base + j) = w[j]? := by
  rw [window, if_pos (Nat.le_add_right _ _), Nat.add_sub_cancel_left]

theorem window_nil (base i : Nat) : window base ([] : List α) i = none := by
  unfold window
  split <;> rfl

variable {base i : Nat} {w : List α}

theorem window_eq_none : window base w i = none ↔ i < base ∨ base + w.length ≤ i := by
  unfold window
  split
  · rw [List.getElem?_eq_none_iff]
    omega
  · exact ⟨fun _ => .inl (by omega), fun _ => rfl⟩

variable {x : α}

theorem window_eq_some : window base w i = some x ↔ ∃ j, i = base + j ∧ w[j]? = some x := by
  constructor
  · intro h
    unfold window at h
    split at h
    · exact ⟨i - base, by omega, h⟩
    · cases h
  · rintro ⟨j, rfl, h⟩
    rw [window_add, h]

theorem lt_of_window (h : window base w i = some x) : base ≤ i ∧ i < base + w.length := by
  obtain ⟨j, rfl, hj⟩ := window_eq_some.mp h
  have := (List.getElem?_eq_some_iff.mp hj).1
  omega

theorem window_append (base : Nat) (w w' : List α) (i : Nat) :
    window base (w ++ w') i =
      if i < base + w.length then window base w i else window (base + w.length) w' i := by
  unfold window
  split
  · split
    · rw [getElem?_append_left (by omega)]
    · rw [if_pos (by omega), getElem?_append_right (by omega)]
      congr 1
      omega
  · rw [if_pos (by omega)]

theorem window_take (base : Nat) (w : List α) (n i : Nat) :
    window base (w.take n) i = if i < base + n then window base w i else none := by
  unfold window
  split
  · rw [getElem?_take]
    exact if_congr (by omega) rfl rfl
  · split <;> rfl

theorem window_drop (base : Nat) (w : List α) (n i : Nat) :
    window (base + n) (w.drop n) i = if base + n ≤ i then window base w i else none := by
  unfold window
  split
  · rw [if_pos (by omega), getElem?_drop]
    congr 1
    omega
  · rfl

def indexed (base : Nat) (w : List α) : List (Nat × α) := (w.zipIdx base).map fun e => (e.2, e.1)

variable {e : Nat × α}

theorem mem_indexed : e ∈ indexed base w ↔ window base w e.1 = some e.2 := by
  unfold indexed
  rw [mem_map, window_eq_some]
  constructor
  · rintro ⟨⟨x, i⟩, hmem, rfl⟩
    obtain ⟨hle, hget⟩ := mem_zipIdx_iff_le_and_getElem?_sub.mp hmem
    exact ⟨i - base, by dsimp only; omega, hget⟩
  · rintro ⟨j, he, hget⟩
    refine ⟨(e.2, e.1), mem_zipIdx_iff_le_and_getElem?_sub.mpr ⟨by dsimp only; omega, ?_⟩, rfl⟩
    rw [he, Nat.add_sub_cancel_left]
    exact hget

theorem map_fst_indexed (base : Nat) (w : List α) :
    (indexed base w).map (·.1) = List.range' base w.length := by
  unfold indexed
  rw [map_map, ← zipIdx_map_snd base w]
  rfl

theorem map_snd_indexed (base : Nat) (w : List α) : (indexed base w).map (·.2) = w := by
  unfold indexed
  rw [map_map]
  exact zipIdx_map_fst base w

theorem indexed_sorted (base : Nat) (w : List α) :
    (indexed base w).Pairwise fun a b => a.1 < b.1 := by
  have h : ((indexed base w).map (·.1)).Pairwise (· < ·) := by
    rw [map_fst_indexed]
    exact pairwise_lt_range'
  exact pairwise_map.mp h

variable {lo : Nat}

theorem mem_indexed_cut {hi : Nat} (hlo : base ≤ lo) :
    e ∈ indexed lo ((w.drop (lo - base)).take (hi + 1 - lo)) ↔
      window base w e.1 = some e.2 ∧ lo ≤ e.1 ∧ e.1 ≤ hi := by
  obtain ⟨n, rfl⟩ : ∃ n, lo = base + n := ⟨lo - base, by omega⟩
  rw [mem_indexed, Nat.add_sub_cancel_left, window_take, window_drop]
  split
  · split
    · next h' => exact ⟨fun hw => ⟨hw, h', by omega⟩, And.left⟩
    · next h' => exact ⟨nofun, fun hw => absurd hw.2.1 h'⟩
  · next h => exact ⟨nofun, fun hw => absurd hw.2.2 (by omega)⟩

theorem filter_indexed (hi : Nat) (w : List α) (hlo : base ≤ lo) :
    (indexed base w).filter (fun e => decide (lo ≤ e.1) && decide (e.1 ≤ hi)) =
      indexed lo ((w.drop (lo - base)).take (hi + 1 - lo)) := by
  refine SortedMap.eq_of_mem_iff ((indexed_sorted base w).filter _) (indexed_sorted _ _) fun e => ?_
  rw [mem_indexed_cut hlo, mem_filter, mem_indexed, Bool.and_eq_true, decide_eq_true_eq,
    decide_eq_true_eq]

theorem indexed_append (base : Nat) (w w' : List α) :
    indexed base (w ++ w') = indexed base w ++ indexed (base + w.length) w' := by
  unfold indexed
  rw [zipIdx_append, map_append]

theorem length_indexed (base : Nat) (w : List α) : (indexed base w).length = w.length := by
  unfold indexed
  rw [length_map, length_zipIdx]

variable {n : Nat}

theorem drop_indexed (base : Nat) (w : List α) (hn : n ≤ w.length) :
    (indexed base w).drop n = indexed (base + n) (w.drop n) := by
  have hlen : (w.take n).length = n := length_take_of_le hn
  have hsplit := indexed_append base (w.take n) (w.drop n)
  rw [take_append_drop, hlen] at hsplit
  rw [hsplit, drop_left' (by rw [length_indexed, hlen])]

theorem indexed_cons (base : Nat) (x : α) (w : List α) :
    indexed base (x :: w) = (base, x) :: indexed (base + 1) w := rfl

theorem map_indexed_sub (base c : Nat) (w : List α) :
    (indexed base w).map (fun e => (c + (e.1 - base), e.2)) = indexed c w := by
  induction w generalizing base c with
  | nil => rfl
  | cons x w ih =>
    rw [indexed_cons, indexed_cons, map_cons, Nat.sub_self, ← ih (base + 1) (c + 1)]
    refine congrArg _ (map_congr_left fun e he => ?_)
    have := lt_of_window (mem_indexed.mp he)
    refine Prod.ext ?_ rfl
    omega

theorem map_reverse_indexed (base c : Nat) (w : List α) :
    (indexed base w).reverse.map (fun e => (c + (base + w.length - 1 - e.1), e.2)) =
      indexed c w.reverse := by
  induction w using reverseRecOn generalizing c with
  | nil => rfl
  | append_singleton w x ih =>
    rw [indexed_append, reverse_append, reverse_append, length_append]
    show _ :: map _ (indexed base w).reverse = (c, x) :: indexed (c + 1) w.reverse
    rw [← ih (c + 1)]
    refine congrArg₂ _ (Prod.ext ?_ rfl) (map_congr_left fun e he => Prod.ext ?_ rfl)
    · dsimp only [length_singleton]
      omega
    · have := lt_of_window (mem_indexed.mp (mem_reverse.mp he))
      dsimp only [length_singleton]
      omega

/-! ## Batches -/

def written (ops : List (BatchOp Nat α)) (m : Nat → Option α) (i : Nat) : Option α :=
  (lastWrite i ops).getD (m i)

def replaceOps (dels : List Nat) (puts : List (Nat × α)) : List (BatchOp Nat α) :=
  dels.map .del ++ puts.map fun e => .put e.1 e.2

variable {dels : List Nat} {puts : List (Nat × α)}

theorem written_eq {m m' : Nat → Option α} (hput : ∀ e ∈ puts, m' e.1 = some e.2)
    (hdel : ∀ i ∈ dels, i ∉ puts.map (·.1) → m' i = none)
    (hkeep : ∀ i, i ∉ dels → i ∉ puts.map (·.1) → m' i = m i) (i : Nat) :
    written (replaceOps dels puts) m i = m' i := by
  unfold written replaceOps
  rw [lastWrite_append, lastWrite_map_del]
  by_cases hi : i ∈ puts.map (·.1)
  · obtain ⟨e, he, rfl⟩ := mem_map.mp hi
    have hlast : lastWrite e.1 (puts.map fun e => BatchOp.put e.1 e.2) = some (some e.2) := by
      refine lastWrite_of_forall (mem_map_of_mem he) rfl fun op hop hk => ?_
      obtain ⟨e', he', rfl⟩ := mem_map.mp hop
      have hk : e'.1 = e.1 := hk
      have hsame := hput e' he'
      rw [hk, hput e he] at hsame
      exact hsame.symm
    rw [hlast, hput e he]
    rfl
  · have hnone : lastWrite i (puts.map fun e => BatchOp.put e.1 e.2) = none := by
      refine lastWrite_eq_none.mpr fun op hop hk => hi ?_
      obtain ⟨e, he, rfl⟩ := mem_map.mp hop
      exact hk ▸ mem_map_of_mem he
    rw [hnone]
    split
    · next hmem => exact (hdel i hmem hi).symm
    · next hmem => exact (hkeep i hmem hi).symm

theorem written_tail (xs : List α) (hn : n ≤ w.length)
    (hputs : ∀ e, e ∈ puts ↔ e ∈ indexed (base + n) xs)
    (hdels : ∀ i, (i ∈ dels → base + n ≤ i) ∧
      (base + n ≤ i → i < base + w.length → i ∈ dels)) (i : Nat) :
    written (replaceOps dels puts) (window base w) i = window base (w.take n ++ xs) i := by
  have hout : ∀ i, i ∉ puts.map (·.1) → window (base + n) xs i = none := by
    intro i hi
    cases hw : window (base + n) xs i with
    | none => rfl
    | some x => exact absurd (mem_map_of_mem ((hputs (i, x)).mpr (mem_indexed.mpr hw))) hi
  have happ := fun i => window_append base (w.take n) xs i
  rw [length_take_of_le hn] at happ
  refine written_eq (fun e he => ?_) (fun i hi hnot => ?_) (fun i hi hnot => ?_) i
  · have hw := mem_indexed.mp ((hputs e).mp he)
    rw [happ, if_neg (by have := lt_of_window hw; omega), hw]
  · rw [happ, if_neg (by have := (hdels i).1 hi; omega), hout i hnot]
  · rw [happ, window_take, hout i hnot]
    split
    · rfl
    · next hge =>
      have hend := not_lt.mp fun h => hi ((hdels i).2 (not_lt.mp hge) h)
      exact (window_eq_none.mpr (.inr hend)).symm

theorem written_push (base : Nat) (w xs : List α) (i : Nat) :
    written (replaceOps [] (indexed (base + w.length) xs)) (window base w) i =
      window base (w ++ xs) i := by
  refine (written_tail xs (le_refl w.length) (fun e => Iff.rfl) (fun i => ⟨?_, ?_⟩) i).trans ?_
  · nofun
  · omega
  · rw [take_length]

theorem written_del_top (base : Nat) (w : List α) (hn : n ≤ w.length) (i : Nat) :
    written (replaceOps ((List.range n).map (base + w.length - 1 - ·)) []) (window base w) i =
      window base (w.take (w.length - n)) i := by
  refine (written_tail [] (Nat.sub_le w.length n) (fun e => Iff.rfl)
    (fun i => ⟨fun hi => ?_, fun h h' => ?_⟩) i).trans (by rw [append_nil])
  · obtain ⟨j, hj, rfl⟩ := mem_map.mp hi
    rw [mem_range] at hj
    omega
  · exact mem_map.mpr ⟨base + w.length - 1 - i, mem_range.mpr (by omega), by omega⟩

theorem written_del_bottom (base : Nat) (w : List α) (n i : Nat) :
    written (replaceOps ((List.range n).map (base + ·)) []) (window base w) i =
      window (base + n) (w.drop n) i := by
  have hmem : ∀ i, i ∈ (range n).map (base + ·) ↔ base ≤ i ∧ i < base + n := by
    intro i
    rw [mem_map]
    constructor
    · rintro ⟨j, hj, rfl⟩
      rw [mem_range] at hj
      omega
    · rintro ⟨h, h'⟩
      exact ⟨i - base, mem_range.mpr (by omega), by omega⟩
  refine written_eq ?_ (fun i hi _ => ?_) (fun i hi _ => ?_) i
  · nofun
  · rw [window_drop, if_neg (by have := (hmem i).mp hi; omega)]
  · rw [window_drop]
    split
    · rfl
    · exact (window_eq_none.mpr (by have := mt (hmem i).mpr hi; omega)).symm

theorem written_set (base : Nat) (w : List α) {j : Nat} (hj : j < w.length) (x : α) (i : Nat) :
    written (replaceOps [] [(base + j, x)]) (window base w) i = window base (w.set j x) i := by
  refine written_eq (fun e he => ?_) ?_ (fun i _ hi => ?_) i
  · rw [mem_singleton.mp he, window_add, getElem?_set_self hj]
  · nofun
  · have hne : i ≠ base + j := fun h => hi (by simp [h])
    unfold window
    split
    · rw [getElem?_set_ne (by omega)]
    · rfl

theorem written_insert (base : Nat) (w : List α) (p : Nat) (x : α) (hp : p ≤ w.length)
    {moved : List (Nat × α)}
    (hmoved : ∀ e, e ∈ moved ↔ base + p ≤ e.1 ∧ window base w e.1 = some e.2)
    {shifted : List (Nat × α)} (hshifted : ∀ e, e ∈ shifted ↔ e ∈ moved) (i : Nat) :
    written (replaceOps (moved.map (·.1)) (shifted.map (fun e => (e.1 + 1, e.2)) ++ [(base + p, x)]))
      (window base w) i = window base (w.take p ++ x :: w.drop p) i := by
  have hrows : ∀ e, e ∈ shifted ↔ e ∈ indexed (base + p) (w.drop p) := fun e => by
    rw [hshifted, hmoved, mem_indexed, window_drop, Option.ite_none_right_eq_some]
  have hup : (indexed (base + p) (w.drop p)).map (fun e => (e.1 + 1, e.2)) =
      indexed (base + p + 1) (w.drop p) := by
    unfold indexed
    rw [zipIdx_succ, map_map, map_map]
    rfl
  refine written_tail _ hp (fun e => ?_) (fun i => ⟨fun hi => ?_, fun h h' => ?_⟩) i
  · rw [indexed_cons, ← hup, mem_append, mem_singleton, or_comm, mem_cons, mem_map, mem_map]
    simp only [hrows]
  · obtain ⟨e, he, rfl⟩ := mem_map.mp hi
    exact ((hmoved e).mp he).1
  · obtain ⟨y, hy⟩ := Option.ne_none_iff_exists'.mp
      (show window base w i ≠ none from fun hw => by have := window_eq_none.mp hw; omega)
    exact mem_map_of_mem (f := (·.1)) ((hmoved (i, y)).mpr ⟨h, hy⟩)

variable {base' : Nat} {w' : List α}

theorem written_rewrite (hputs : ∀ e, e ∈ puts ↔ window base' w' e.1 = some e.2)
    (hdels : ∀ i x, window base w i = some x → window base' w' i = none → i ∈ dels) (i : Nat) :
    written (replaceOps dels puts) (window base w) i = window base' w' i := by
  have hout : ∀ i, i ∉ puts.map (·.1) → window base' w' i = none := by
    intro i hi
    cases hw : window base' w' i with
    | none => rfl
    | some x => exact absurd (mem_map_of_mem (f := (·.1)) ((hputs (i, x)).mpr hw)) hi
  refine written_eq (fun e he => (hputs e).mp he) (fun i _ hi => hout i hi) (fun i hi hnot => ?_) i
  rw [hout i hnot]
  cases hw : window base w i with
  | none => rfl
  | some x => exact absurd (hdels i x hw (hout i hnot)) hi

end Rdb.Lib
