import Rdb.Lib.SortedMap
import Rdb.Lib.Bytes
import Rdb.Lib.Run

/-!
# The key-value store and the slot keyspace

The RocksDB handle is a map from byte strings to byte strings in key order. A
`WriteBatch` is a list of puts and deletes applied in order and as a whole; an
ordered scan is a fold that may stop. Store I/O does not fail here: a failed
write leaves the store as it was, a failed read ends the request.

Data keys start with a slot prefix, the slot number in decimal and `/`.
`lt_upper_of_slotPrefix_le` is what bounds a walk over the slot space.
-/

namespace Rdb

open Lib List

abbrev Store := SortedMap Bytes Bytes
abbrev WriteOp := BatchOp Bytes Bytes

/-! ## Hashing -/

/-- Entry `i` of the CRC-16/XMODEM table (polynomial `0x1021`). -/
def crc16Tab (i : UInt8) : UInt16 :=
  let round (crc : UInt16) : UInt16 :=
    if crc &&& 0x8000 ≠ 0 then (crc <<< 1) ^^^ 0x1021 else crc <<< 1
  round (round (round (round (round (round (round (round (i.toUInt16 <<< 8))))))))

def crc16 (key : Bytes) : UInt16 :=
  key.foldl (fun crc b => (crc <<< 8) ^^^ crc16Tab ((crc >>> 8).toUInt8 ^^^ b)) 0

def slotNumber : Nat := 16384

/-! ## Scans -/

namespace Store

/-- Ordered scan from `start`; the callback says whether to go on. -/
def forEachFrom {σ : Type} (store : Store) (start : Bytes) (exclFrom : Bool)
    (f : σ → Bytes → Bytes → σ × Bool) (init : σ) : σ :=
  foldUntil (fun s e => f s e.1 e.2) init
    (store.entries.filter fun e => if exclFrom then start < e.1 else start ≤ e.1)

end Store

def keyUpperBound : Bytes → Option Bytes
  | [] => none
  | x :: xs => match keyUpperBound xs with
    | some ys => some (x :: ys)
    | none => if x + 1 ≠ 0 then some [x + 1] else none

/-- Up to `limit` pairs under `pre`; `0` is no limit. -/
def Store.prefixIterCollect (store : Store) (pre : Bytes) (limit : Nat) : List (Bytes × Bytes) :=
  let found := store.entries.filter fun e =>
    decide (pre ≤ e.1) && match keyUpperBound pre with
      | some upper => decide (e.1 < upper)
      | none => true
  if limit = 0 then found else found.take limit

theorem keyUpperBound_concat (b : Bytes) {x : UInt8} (hx : x + 1 ≠ 0) :
    keyUpperBound (b ++ [x]) = some (b ++ [x + 1]) := by
  induction b with
  | nil => simp [keyUpperBound, hx]
  | cons y b ih => simp [keyUpperBound, ih]

theorem isPrefix_of_keyUpperBound {pre k : Bytes} (hle : pre ≤ k)
    (hlt : ∀ upper, keyUpperBound pre = some upper → k < upper) : pre <+: k := by
  induction pre generalizing k with
  | nil => exact nil_prefix
  | cons x xs ih =>
    cases k with
    | nil => exact absurd hle (not_le.mpr .nil)
    | cons y k =>
      rcases cons_le_iff.mp hle with hxy | ⟨rfl, htl⟩
      · exfalso
        have hxy' : x.toNat < y.toNat := hxy
        rw [keyUpperBound] at hlt
        cases hu : keyUpperBound xs with rw [hu] at hlt
        | some ys =>
          exact lt_asymm (hlt _ rfl) (.rel hxy)
        | none =>
          have hx : x + 1 ≠ 0 := fun h => by
            have := congrArg UInt8.toNat h
            have := y.toNat_lt
            simp only [UInt8.toNat_add, UInt8.toNat_ofNat] at *
            omega
          rw [if_pos hx] at hlt
          have hx1 : (x + 1).toNat = x.toNat + 1 := by
            have := y.toNat_lt
            simp only [UInt8.toNat_add, UInt8.toNat_ofNat]
            omega
          rcases cons_le_iff.mp (le_of_lt (hlt _ rfl)) with h | ⟨rfl, h⟩
          · have : y.toNat < (x + 1).toNat := h
            omega
          · have := hlt _ rfl
            cases this with
            | cons h => cases h
            | rel h => exact lt_irrefl _ h
      · refine cons_prefix_cons.mpr ⟨rfl, ih htl fun upper hu => ?_⟩
        have := hlt (x :: upper) (by rw [keyUpperBound, hu])
        exact (append_lt_append_iff [x]).mp this

theorem lt_of_keyUpperBound {pre k upper : Bytes} (hp : pre <+: k)
    (hu : keyUpperBound pre = some upper) : k < upper := by
  induction pre generalizing k upper with
  | nil => cases hu
  | cons x xs ih =>
    obtain ⟨t, rfl⟩ := hp
    rw [keyUpperBound] at hu
    cases hx : keyUpperBound xs with
    | some ys =>
      rw [hx] at hu
      cases hu
      exact (append_lt_append_iff [x]).mpr (ih ⟨t, rfl⟩ hx)
    | none =>
      rw [hx] at hu
      dsimp only at hu
      split at hu
      · next h1 =>
        cases hu
        refine .rel ?_
        show x.toNat < (x + 1).toNat
        have h1' : (x + 1).toNat ≠ 0 := fun h => h1 (UInt8.toNat_inj.mp h)
        have := x.toNat_lt
        simp only [UInt8.toNat_add, UInt8.toNat_ofNat] at h1' ⊢
        omega
      · cases hu

theorem mem_range_iff {lower upper k : Bytes} (hu : keyUpperBound lower = some upper) :
    lower ≤ k ∧ k < upper ↔ lower <+: k := by
  constructor
  · rintro ⟨hle, hlt⟩
    refine isPrefix_of_keyUpperBound hle fun u hu' => ?_
    rw [hu] at hu'
    cases hu'
    exact hlt
  · intro h
    exact ⟨le_of_isPrefix h, lt_of_keyUpperBound h hu⟩

namespace Store

theorem outside_stays {l : List (Bytes × Bytes)} (hl : l.Pairwise fun a b => a.1 < b.1)
    {pre : Bytes} (hle : ∀ e ∈ l, pre ≤ e.1) :
    l.Pairwise fun a b => ¬ pre <+: a.1 → ¬ pre <+: b.1 :=
  hl.imp_of_mem fun {a _} ha _ hlt hno hpre => hno (isPrefix_of_le_of_le (hle a ha) hlt.le hpre)

theorem filter_under (pre : Bytes) (l : List (Bytes × Bytes)) :
    (l.filter fun e => decide (pre ≤ e.1)).filter (fun e => decide (pre <+: e.1)) =
      l.filter fun e => decide (pre <+: e.1) := by
  rw [filter_filter]
  refine filter_congr fun e _ => ?_
  by_cases he : pre <+: e.1
  · simp [le_of_isPrefix he]
  · simp [he]

theorem forEachFrom_guard {σ : Type} (store : Store) {pre : Bytes}
    {f : σ → Bytes → Bytes → σ × Bool} {g : σ → Bytes × Bytes → σ × Bool}
    (hf : ∀ s k v, pre ≤ k → f s k v = if pre <+: k then g s (k, v) else (s, false)) (init : σ) :
    store.forEachFrom pre false f init =
      foldUntil g init (store.entries.filter fun e => decide (pre <+: e.1)) := by
  have hle : ∀ e ∈ store.entries.filter fun e => decide (pre ≤ e.1), pre ≤ e.1 :=
    fun e he => of_decide_eq_true (mem_filter.mp he).2
  rw [← filter_under]
  refine (foldUntil_congr (fun s e he => ?_) init).trans (foldUntil_guard ?_ init)
  · simp only [hf s e.1 e.2 (hle e he), decide_eq_true_eq]
  · exact (outside_stays (store.sorted.filter _) hle).imp fun hab ha =>
      decide_eq_false (hab (of_decide_eq_false ha))

theorem collect_prefix {β : Type} (store : Store) {pre : Bytes}
    {f : List β → Bytes → Bytes → List β × Bool} {g : Bytes × Bytes → Option β}
    (hf : ∀ out k v, pre ≤ k →
      f out k v = if pre <+: k then (out ++ (g (k, v)).toList, true) else (out, false)) :
    store.forEachFrom pre false f [] =
      (store.entries.filter fun e => decide (pre <+: e.1)).filterMap g :=
  (store.forEachFrom_guard hf []).trans (foldUntil_collectSome g [] _)

end Store

theorem Store.mem_prefixIterCollect {store : Store} {pre : Bytes} {limit : Nat}
    {e : Bytes × Bytes} (h : e ∈ store.prefixIterCollect pre limit) :
    store.get e.1 = some e.2 ∧ pre <+: e.1 := by
  have hmem : e ∈ store.entries.filter fun e =>
      decide (pre ≤ e.1) && match keyUpperBound pre with
        | some upper => decide (e.1 < upper)
        | none => true := by
    unfold Store.prefixIterCollect at h
    dsimp only at h
    split at h
    · exact h
    · exact mem_of_mem_take h
  obtain ⟨he, hb⟩ := mem_filter.mp hmem
  obtain ⟨hle, hlt⟩ := Bool.and_eq_true_iff.mp hb
  refine ⟨SortedMap.mem_entries.mp he,
    isPrefix_of_keyUpperBound (by simpa using hle) fun u hu => ?_⟩
  rw [hu] at hlt
  simpa using hlt

/-! ## The slot keyspace -/

/-- The prefix of a slot's keys, `<slot>/`. -/
def slotPrefix (slot : Nat) : Bytes := decimal slot ++ [0x2f]

/-- A key cut at its first `/`. -/
def splitSlash (key : Bytes) : Option (Bytes × Bytes) :=
  match key.dropWhile (· != 0x2f) with
  | [] => none
  | _ :: rest => some (key.takeWhile (· != 0x2f), rest)

def slotOfKey (key : Bytes) : Option Nat :=
  (splitSlash key).bind fun p => parseDec (2 ^ 16) p.1

theorem splitSlash_append {h : Bytes} (hh : ∀ b ∈ h, b ≠ 0x2f) (rest : Bytes) :
    splitSlash (h ++ 0x2f :: rest) = some (h, rest) := by
  have hp : ∀ b ∈ h, (b != 0x2f) = true := fun b hb => by simpa using hh b hb
  have hd : (h ++ 0x2f :: rest).dropWhile (· != 0x2f) = 0x2f :: rest := by
    rw [dropWhile_append_of_pos hp]
    rfl
  have ht : (h ++ 0x2f :: rest).takeWhile (· != 0x2f) = h := by
    rw [takeWhile_append_of_pos hp]
    simp
  rw [splitSlash, hd, ht]

theorem eq_of_splitSlash {key h rest : Bytes} (hs : splitSlash key = some (h, rest)) :
    key = h ++ 0x2f :: rest := by
  unfold splitSlash at hs
  split at hs
  · cases hs
  · next x r hd =>
    cases hs
    have hx : x = 0x2f := by
      have := head?_dropWhile_not (· != 0x2f) key
      rw [hd] at this
      simpa using this
    calc key = key.takeWhile (· != 0x2f) ++ key.dropWhile (· != 0x2f) :=
          takeWhile_append_dropWhile.symm
      _ = _ := by rw [hd, hx]

theorem digit_ge {b : UInt8} (h : isDigit b) : 0x30 ≤ b := by
  simp only [isDigit, Bool.and_eq_true, decide_eq_true_eq] at h
  exact h.1

theorem digit_ne_slash {b : UInt8} (h : isDigit b) : b ≠ 0x2f := by
  rintro rfl
  revert h
  decide

theorem splitSlash_slotPrefix (slot : Nat) (rest : Bytes) :
    splitSlash (slotPrefix slot ++ rest) = some (decimal slot, rest) := by
  rw [slotPrefix, append_assoc]
  exact splitSlash_append (fun _ hb => digit_ne_slash (isDigit_of_mem_decimal hb)) rest

theorem slotPrefix_append_inj {a b : Nat} {x y : Bytes}
    (h : slotPrefix a ++ x = slotPrefix b ++ y) : a = b ∧ x = y := by
  have hs := congrArg splitSlash h
  rw [splitSlash_slotPrefix, splitSlash_slotPrefix] at hs
  obtain ⟨hd, hx⟩ := Prod.mk.inj (Option.some.inj hs)
  refine ⟨?_, hx⟩
  rw [← decVal_decimal a, hd, decVal_decimal]

theorem append_slash_lt {ds ls : Bytes} (hd : ∀ b ∈ ds, 0x30 ≤ b) (hl : ∀ b ∈ ls, 0x30 ≤ b)
    (h : ds ++ [0x2f] ≤ ls ++ [0x2f]) (rest : Bytes) : ds ++ 0x2f :: rest < ls ++ [0x30] := by
  induction ds generalizing ls with
  | nil =>
    cases ls with
    | nil => exact cons_lt_cons_iff.mpr (.inl (by decide))
    | cons l ls =>
      refine cons_lt_cons_iff.mpr (.inl ?_)
      exact lt_of_lt_of_le (by decide) (hl l (by simp))
  | cons d ds ih =>
    cases ls with
    | nil =>
      have hlt : ([0x2f] : Bytes) < d :: ds ++ [0x2f] :=
        cons_lt_cons_iff.mpr (.inl (lt_of_lt_of_le (by decide) (hd d (by simp))))
      exact absurd h (not_le.mpr hlt)
    | cons l ls =>
      refine cons_lt_cons_iff.mpr ?_
      rcases cons_le_iff.mp h with h | ⟨hdl, h⟩
      · exact .inl h
      · exact .inr ⟨hdl, ih (fun b hb => hd b (by simp [hb])) (fun b hb => hl b (by simp [hb])) h⟩

theorem lt_upper_of_slotPrefix_le {a b : Nat} (h : slotPrefix a ≤ slotPrefix b) (rest : Bytes) :
    ∃ upper, keyUpperBound (slotPrefix b) = some upper ∧ slotPrefix a ++ rest < upper := by
  refine ⟨decimal b ++ [0x30], keyUpperBound_concat _ (by decide), ?_⟩
  rw [slotPrefix, append_assoc]
  exact append_slash_lt (fun _ hb => digit_ge (isDigit_of_mem_decimal hb))
    (fun _ hb => digit_ge (isDigit_of_mem_decimal hb)) h rest

theorem zeroSlash_le_slotPrefix (slot : Nat) (rest : Bytes) :
    [0x30, 0x2f] ≤ slotPrefix slot ++ rest := by
  have hdig : ∀ b ∈ decimal slot, 0x30 ≤ b := fun _ hb => digit_ge (isDigit_of_mem_decimal hb)
  have hne := decimal_ne_nil slot
  rw [slotPrefix]
  revert hdig hne
  generalize decimal slot = ds
  intro hdig hne
  match ds, hne with
  | [d], _ =>
    rcases (hdig d (by simp)).lt_or_eq with h | rfl
    · exact cons_le_iff.mpr (.inl h)
    · exact cons_le_iff.mpr
        (.inr ⟨rfl, cons_le_iff.mpr (.inr ⟨rfl, le_of_isPrefix nil_prefix⟩)⟩)
  | d :: e :: ds, _ =>
    rcases (hdig d (by simp)).lt_or_eq with h | rfl
    · exact cons_le_iff.mpr (.inl h)
    · refine cons_le_iff.mpr (.inr ⟨rfl, cons_le_iff.mpr (.inl ?_)⟩)
      exact lt_of_lt_of_le (by decide) (hdig e (by simp))

end Rdb
