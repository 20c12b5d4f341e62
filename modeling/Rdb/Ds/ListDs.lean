import Rdb.Lib.IndexWindow
import Rdb.Ds.Keys

/-!
# Lists in two windows

A list is kept as two windows of indices that both grow at the top. The left side is read
from its top down, and its suffixes are complemented so that this is the order of the
store; the right side is read from its bottom up. The root record holds the number of
live entries and the next free index of each side.

* `Side`: the records of one side are a window.
* `Side.scan`: a bounded scan reads the indices it is given, in the order of the list.
-/

namespace Rdb.Ds

open Lib List

/-! ## The root record -/

structure ListMeta where
  expireMs : Nat
  lCount : Nat
  lNext : Nat
  rCount : Nat
  rNext : Nat

namespace ListMeta

def len (m : ListMeta) : Nat := m.lCount + m.rCount

def isEmpty (m : ListMeta) : Bool := m.len == 0

def lBase (m : ListMeta) : Nat := m.lNext - m.lCount

def rBase (m : ListMeta) : Nat := m.rNext - m.rCount

def count (m : ListMeta) (left : Bool) : Nat := if left then m.lCount else m.rCount

def next (m : ListMeta) (left : Bool) : Nat := if left then m.lNext else m.rNext

def base (m : ListMeta) (left : Bool) : Nat := m.next left - m.count left

end ListMeta

def encodeMetaPayload (m : ListMeta) : Bytes :=
  encodeCount m.lCount ++ (encodeCount m.lNext ++ (encodeCount m.rCount ++ encodeCount m.rNext))

def decodeMetaPayload (expireMs : Nat) (payload : Bytes) : ListMeta :=
  let (lCount, rest) := nextVarint payload
  let (lNext, rest) := nextVarint rest
  let (rCount, rest) := nextVarint rest
  let (rNext, _) := nextVarint rest
  { expireMs, lCount, lNext, rCount, rNext }

namespace ListDs

def metaKey (k : UserKey) : Bytes := k.data kindListMeta

def writeMeta (k : UserKey) (m : ListMeta) : BatchEntry :=
  .put (metaKey k) (encodeEnvelope m.expireMs (encodeMetaPayload m))

def deleteFamily (k : UserKey) (expireMs : Nat) : List BatchEntry :=
  familyDeleteEntries none k.pre listFamily k.bytes expireMs

/-! ## The entries of a side -/

def suffixLen : Nat := 8

def u64Max : Nat := 2 ^ 64 - 1

def lSuffix (l : Nat) : Bytes := beBytes suffixLen (u64Max - l)

def rSuffix (r : Nat) : Bytes := beBytes suffixLen r

def lKey (k : UserKey) (l : Nat) : Bytes := k.elem kindListL (lSuffix l)

def rKey (k : UserKey) (r : Nat) : Bytes := k.elem kindListR (rSuffix r)

def sideKind (left : Bool) : UInt8 := if left then kindListL else kindListR

def sideKey (left : Bool) (k : UserKey) (i : Nat) : Bytes := if left then lKey k i else rKey k i

/-- `put_l` and `put_r`. -/
def putSide (left : Bool) (k : UserKey) (i : Nat) (elem : Bytes) : WriteOp := .put (sideKey left k i) elem

/-- `del_l` and `del_r`. -/
def delSide (left : Bool) (k : UserKey) (i : Nat) : WriteOp := .del (sideKey left k i)

/-- `get_l` and `get_r`. -/
def getSide (store : Store) (left : Bool) (k : UserKey) (i : Nat) : Option Bytes :=
  store.get (sideKey left k i)

def suffixIndex (key : Bytes) : Option Nat :=
  if key.length < suffixLen then none else some (ofBe (key.drop (key.length - suffixLen)))

def forEachSide {σ : Type} (store : Store) (k : UserKey) (left : Bool) (lo hi : Nat)
    (f : σ → Nat → Bytes → σ × Bool) (init : σ) : σ :=
  let start := if left then lKey k hi else rKey k lo
  let base := k.data (if left then kindListL else kindListR)
  store.forEachFrom start false (fun s key v =>
    if !base.isPrefixOf key then (s, false)
    else match suffixIndex key with
      | none => (s, false)
      | some raw =>
        let idx := if left then u64Max - raw else raw
        if (left && decide (idx < lo)) || (!left && decide (hi < idx)) then (s, false)
        else f s idx v) init

/-! ## Positions -/

/-- The position an index names; negative ones count from the back. -/
def positionOf (m : ListMeta) (pos : Int) : Option Nat :=
  let len : Int := if m.len < 2 ^ 63 then m.len else 2 ^ 63 - 1
  let p := if pos < 0 then len + pos else pos
  if 0 ≤ p then (if p.toNat < m.len then some p.toNat else none) else none

def locate (m : ListMeta) (p : Nat) : Bool × Nat :=
  if p < m.lCount then (true, m.lBase + m.lCount - 1 - p) else (false, m.rBase + p - m.lCount)

def popLeftTarget (m : ListMeta) : Bool × Nat :=
  if 0 < m.lCount then (true, m.lNext - 1) else (false, m.rBase)

def popRightTarget (m : ListMeta) : Bool × Nat :=
  if 0 < m.rCount then (false, m.rNext - 1) else (true, m.lBase)

/-- The elements at the positions `start` to `stop`, in the order of the list. -/
def collectRange (store : Store) (k : UserKey) (m : ListMeta) (start stop : Nat) : List Bytes :=
  let len := m.len
  if len ≤ start || stop < start then []
  else
    let stop := min stop (len - 1)
    let push := fun (out : List Bytes) (_ : Nat) (elem : Bytes) => (out ++ [elem], true)
    let out := if start < m.lCount then
        let lHi := m.lBase + m.lCount - 1 - start
        let lLo := m.lBase + (m.lCount - 1 - min stop (m.lCount - 1))
        forEachSide store k true lLo lHi push []
      else []
    if m.lCount ≤ stop then
      let p0 := max start m.lCount
      let rLo := m.rBase + p0 - m.lCount
      let rHi := m.rBase + stop - m.lCount
      forEachSide store k false rLo rHi push out
    else out

def collectSide (store : Store) (k : UserKey) (m : ListMeta) (left : Bool) : List (Nat × Bytes) :=
  if left && m.lCount == 0 || !left && m.rCount == 0 then []
  else
    let (lo, hi) := if left then (m.lBase, m.lNext - 1) else (m.rBase, m.rNext - 1)
    forEachSide store k left lo hi (fun out idx elem => (out ++ [(idx, elem)], true)) []

/-! ## One side -/

def sideSuffix (left : Bool) (i : Nat) : Bytes := if left then lSuffix i else rSuffix i

def sideIndex (left : Bool) (s : Bytes) : Nat := if left then u64Max - ofBe s else ofBe s

theorem sideKey_eq (left : Bool) (k : UserKey) (i : Nat) :
    sideKey left k i = k.elem (sideKind left) (sideSuffix left i) := by
  cases left <;> rfl

theorem length_sideSuffix (left : Bool) (i : Nat) : (sideSuffix left i).length = suffixLen := by
  cases left
  · exact length_beBytes _ _
  · exact length_beBytes _ _

variable {s : Bytes}

theorem ofBe_lt_of_suffix (hs : s.length = suffixLen) : ofBe s < 2 ^ 64 := by
  have hlt := ofBe_lt s
  rw [hs] at hlt
  exact hlt

variable {left : Bool}

theorem sideIndex_lt (hs : s.length = suffixLen) : sideIndex left s < 2 ^ 64 := by
  have hlt := ofBe_lt_of_suffix hs
  cases left
  · exact hlt
  · show u64Max - ofBe s < 2 ^ 64
    unfold u64Max
    omega

variable {i : Nat}

theorem sideIndex_sideSuffix (hi : i < 2 ^ 64) : sideIndex left (sideSuffix left i) = i := by
  cases left
  · exact ofBe_beBytes_of_lt hi
  · show u64Max - ofBe (beBytes suffixLen (u64Max - i)) = i
    unfold u64Max suffixLen
    rw [ofBe_beBytes_of_lt (by omega)]
    omega

theorem sideSuffix_sideIndex (hs : s.length = suffixLen) :
    sideSuffix left (sideIndex left s) = s := by
  have hlt := ofBe_lt_of_suffix hs
  cases left
  · exact beBytes_ofBe hs
  · show beBytes suffixLen (u64Max - (u64Max - ofBe s)) = s
    have hsub : u64Max - (u64Max - ofBe s) = ofBe s := by
      unfold u64Max
      omega
    rw [hsub, beBytes_ofBe hs]

theorem sideKey_lt_iff (left : Bool) (k : UserKey) {j : Nat} (hi : i < 2 ^ 64) (hj : j < 2 ^ 64) :
    sideKey left k i < sideKey left k j ↔ if left then j < i else i < j := by
  cases left
  · exact (append_lt_append_iff _).trans (beBytes_lt_iff hi hj)
  · refine (append_lt_append_iff _).trans ((beBytes_lt_iff ?_ ?_).trans ?_)
    · unfold u64Max suffixLen
      omega
    · unfold u64Max suffixLen
      omega
    · unfold u64Max
      simp only [if_true]
      omega

/-- What a window has under a suffix. -/
def sideGet (left : Bool) (base : Nat) (w : List Bytes) (s : Bytes) : Option Bytes :=
  if s.length = suffixLen then window base w (sideIndex left s) else none

def Side (store : Store) (k : UserKey) (left : Bool) (base : Nat) (w : List Bytes) : Prop :=
  ∀ s, store.get (k.elem (sideKind left) s) = sideGet left base w s

variable {base : Nat} {w : List Bytes}

theorem sideGet_sideSuffix (hi : i < 2 ^ 64) :
    sideGet left base w (sideSuffix left i) = window base w i := by
  rw [sideGet, if_pos (length_sideSuffix left i), sideIndex_sideSuffix hi]

variable {store : Store} {k : UserKey}

theorem Side.getSide (h : Side store k left base w) (hi : i < 2 ^ 64) :
    getSide store left k i = window base w i := by
  rw [ListDs.getSide, sideKey_eq, h, sideGet_sideSuffix hi]

theorem Side.exists_of_get {v : Bytes} (h : Side store k left base w)
    (hget : store.get (k.elem (sideKind left) s) = some v) :
    ∃ i < 2 ^ 64, s = sideSuffix left i ∧ window base w i = some v := by
  rw [h, sideGet] at hget
  split at hget
  · next hs => exact ⟨sideIndex left s, sideIndex_lt hs, (sideSuffix_sideIndex hs).symm, hget⟩
  · cases hget

def inOrder (left : Bool) (es : List (Nat × Bytes)) : List (Nat × Bytes) :=
  if left then es.reverse else es

theorem mem_inOrder {es : List (Nat × Bytes)} {e : Nat × Bytes} : e ∈ inOrder left es ↔ e ∈ es := by
  cases left
  · exact Iff.rfl
  · exact mem_reverse

/-- Whether a scan of the indices `lo` to `hi` goes on at an index. -/
def inBounds (left : Bool) (lo hi i : Nat) : Bool := if left then decide (lo ≤ i) else decide (i ≤ hi)

def scanned (k : UserKey) (left : Bool) (lo hi : Nat) (e : Bytes × Bytes) : Bool :=
  (k.data (sideKind left)).isPrefixOf e.1 &&
    (suffixIndex e.1).any fun raw => inBounds left lo hi (if left then u64Max - raw else raw)

def scannedIndex (left : Bool) (key : Bytes) : Nat :=
  if left then u64Max - (suffixIndex key).getD 0 else (suffixIndex key).getD 0

theorem suffixIndex_sideKey (left : Bool) (k : UserKey) (i : Nat) :
    suffixIndex (sideKey left k i) = some (ofBe (sideSuffix left i)) := by
  have hlen := length_sideSuffix left i
  rw [sideKey_eq, UserKey.elem, elemKey, suffixIndex, length_append, hlen,
    if_neg (by omega), Nat.add_sub_cancel, drop_left]

theorem scannedIndex_sideKey (k : UserKey) (hi : i < 2 ^ 64) :
    scannedIndex left (sideKey left k i) = i := by
  rw [scannedIndex, suffixIndex_sideKey]
  exact sideIndex_sideSuffix hi

theorem scanned_sideKey (k : UserKey) (hi : i < 2 ^ 64) (lo hi' : Nat)
    (v : Bytes) : scanned k left lo hi' (sideKey left k i, v) = inBounds left lo hi' i := by
  have hpre : (k.data (sideKind left)).isPrefixOf (sideKey left k i) := by
    rw [List.isPrefixOf_iff_prefix, sideKey_eq]
    exact k.data_isPrefix_elem _ _
  have hidx : (if left then u64Max - ofBe (sideSuffix left i) else ofBe (sideSuffix left i)) = i :=
    sideIndex_sideSuffix hi
  rw [scanned, hpre, Bool.true_and, suffixIndex_sideKey, Option.any_some, hidx]

theorem forEachSide_eq {σ : Type} (store : Store) (k : UserKey) (left : Bool) (lo hi : Nat)
    (f : σ → Nat → Bytes → σ × Bool) (init : σ) :
    forEachSide store k left lo hi f init =
      foldUntil (fun s e => if scanned k left lo hi e then f s (scannedIndex left e.1) e.2
        else (s, false)) init
        (store.entries.filter fun e => decide (sideKey left k (if left then hi else lo) ≤ e.1)) := by
  have hstart : (if left then lKey k hi else rKey k lo) = sideKey left k (if left then hi else lo) := by
    cases left <;> rfl
  unfold forEachSide Store.forEachFrom
  rw [hstart]
  refine congrFun (congrFun (congrArg foldUntil (funext fun s => funext fun e => ?_)) init) _
  unfold scanned scannedIndex sideKind
  dsimp only
  generalize (k.data (if left then kindListL else kindListR)).isPrefixOf e.1 = inside
  generalize suffixIndex e.1 = suffix
  cases inside with
  | false => rfl
  | true =>
    cases suffix with
    | none => rfl
    | some raw =>
      cases left
      · by_cases h : hi < raw
        · simp [inBounds, not_le.mpr h]
        · simp [inBounds, not_lt.mp h]
      · by_cases h : u64Max - raw < lo
        · simp [inBounds, not_le.mpr h]
        · simp [inBounds, not_lt.mp h]

theorem inOrder_sorted (k : UserKey) (hb : base + w.length ≤ 2 ^ 64) :
    ((inOrder left (indexed base w)).map fun e => (sideKey left k e.1, e.2)).Pairwise
      fun a b => a.1 < b.1 := by
  have hlt : ∀ e ∈ indexed base w, e.1 < 2 ^ 64 := fun e he => by
    have := lt_of_window (mem_indexed.mp he)
    omega
  rw [pairwise_map]
  cases left
  · exact (indexed_sorted base w).imp_of_mem fun {a b} ha hb' h =>
      (sideKey_lt_iff false k (hlt a ha) (hlt b hb')).mpr h
  · exact pairwise_reverse.mpr ((indexed_sorted base w).imp_of_mem fun {a b} ha hb' h =>
      (sideKey_lt_iff true k (hlt b hb') (hlt a ha)).mpr h)

variable {lo hi : Nat}

theorem start_le_sideKey_iff (left : Bool) (k : UserKey) (hlo : lo < 2 ^ 64) (hhi : hi < 2 ^ 64)
    (hi64 : i < 2 ^ 64) :
    sideKey left k (if left then hi else lo) ≤ sideKey left k i ∧ inBounds left lo hi i ↔
      lo ≤ i ∧ i ≤ hi := by
  cases left
  · show sideKey false k lo ≤ sideKey false k i ∧ _ ↔ _
    rw [← not_lt, sideKey_lt_iff false k hi64 hlo]
    simp [inBounds]
  · show sideKey true k hi ≤ sideKey true k i ∧ _ ↔ _
    rw [← not_lt, sideKey_lt_iff true k hi64 hhi]
    simp [inBounds, and_comm]

theorem Side.exists_of_scanned (h : Side store k left base w) {key v : Bytes}
    (hget : store.get key = some v) (hpre : k.data (sideKind left) <+: key) :
    ∃ i < 2 ^ 64, key = sideKey left k i ∧ window base w i = some v := by
  obtain ⟨s, rfl⟩ := hpre
  obtain ⟨i, hi, rfl, hw⟩ := h.exists_of_get hget
  exact ⟨i, hi, (sideKey_eq left k i).symm, hw⟩

theorem isPrefix_of_scanned {e : Bytes × Bytes}
    (h : scanned k left lo hi e) : k.data (sideKind left) <+: e.1 := by
  rw [scanned, Bool.and_eq_true] at h
  exact isPrefixOf_iff_prefix.mp h.1

theorem Side.scanned_closed (h : Side store k left base w) (lo hi : Nat) :
    (store.entries.filter fun e => decide (sideKey left k (if left then hi else lo) ≤ e.1)).Pairwise
      fun a b => scanned k left lo hi a = false → scanned k left lo hi b = false := by
  refine (store.sorted.filter _).imp_of_mem fun {a b} ha hb hab hna => ?_
  rw [mem_filter, decide_eq_true_eq] at ha hb
  rw [Bool.eq_false_iff]
  intro hpb
  have hbpre := isPrefix_of_scanned hpb
  have hstart : k.data (sideKind left) ≤ a.1 := by
    refine le_trans (le_of_isPrefix ?_) ha.2
    rw [sideKey_eq]
    exact k.data_isPrefix_elem _ _
  have hapre := isPrefix_of_le_of_le hstart (le_of_lt hab) hbpre
  obtain ⟨i, hi64, hki, -⟩ := h.exists_of_scanned (SortedMap.mem_entries.mp ha.1) hapre
  obtain ⟨j, hj64, hkj, -⟩ := h.exists_of_scanned (SortedMap.mem_entries.mp hb.1) hbpre
  have hka : a = (sideKey left k i, a.2) := Prod.ext hki rfl
  have hkb : b = (sideKey left k j, b.2) := Prod.ext hkj rfl
  rw [hka, scanned_sideKey k hi64] at hna
  rw [hkb, scanned_sideKey k hj64] at hpb
  rw [hka, hkb] at hab
  have hij := (sideKey_lt_iff left k hi64 hj64).mp hab
  cases left
  · simp only [inBounds, Bool.false_eq_true, if_false, decide_eq_true_eq, decide_eq_false_iff_not] at *
    omega
  · simp only [inBounds, if_true, decide_eq_true_eq, decide_eq_false_iff_not] at *
    omega

theorem Side.scan {σ : Type} (h : Side store k left base w) (hlo : base ≤ lo) (hlo64 : lo < 2 ^ 64)
    (hhi64 : hi < 2 ^ 64) (f : σ → Nat → Bytes → σ × Bool) (init : σ) :
    forEachSide store k left lo hi f init =
      foldUntil (fun s e => f s e.1 e.2) init
        (inOrder left (indexed lo ((w.drop (lo - base)).take (hi + 1 - lo)))) := by
  have hlt : ∀ e ∈ inOrder left (indexed lo ((w.drop (lo - base)).take (hi + 1 - lo))),
      e.1 < 2 ^ 64 := fun e he => by
    have := ((mem_indexed_cut hlo).mp (mem_inOrder.mp he)).2.2
    omega
  rw [forEachSide_eq, foldUntil_guard (h.scanned_closed lo hi), filter_filter,
    SortedMap.filter_entries_eq (l := (inOrder left (indexed lo
      ((w.drop (lo - base)).take (hi + 1 - lo)))).map fun e => (sideKey left k e.1, e.2))]
  · refine foldUntil_map (fun s e he => ?_) init
    rw [scannedIndex_sideKey k (hlt e he)]
  · refine inOrder_sorted k ?_
    rw [length_take]
    omega
  · intro e
    rw [mem_map, Bool.and_eq_true, decide_eq_true_eq]
    constructor
    · rintro ⟨e, he, rfl⟩
      have he64 := hlt e he
      obtain ⟨hw, hbounds⟩ := (mem_indexed_cut hlo).mp (mem_inOrder.mp he)
      obtain ⟨hstart, hin⟩ := (start_le_sideKey_iff left k hlo64 hhi64 he64).mpr hbounds
      exact ⟨(h.getSide he64).trans hw, (scanned_sideKey k he64 lo hi e.2).trans hin, hstart⟩
    · rintro ⟨hget, hscan, hstart⟩
      obtain ⟨i, hi64, hki, hw⟩ := h.exists_of_scanned hget (isPrefix_of_scanned hscan)
      have hke : e = (sideKey left k i, e.2) := Prod.ext hki rfl
      rw [hke, scanned_sideKey k hi64] at hscan
      rw [hki] at hstart
      have hbounds := (start_le_sideKey_iff left k hlo64 hhi64 hi64).mp ⟨hstart, hscan⟩
      exact ⟨(i, e.2), mem_inOrder.mpr ((mem_indexed_cut hlo).mpr ⟨hw, hbounds⟩), hke.symm⟩

end ListDs

end Rdb.Ds
