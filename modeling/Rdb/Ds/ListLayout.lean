import Rdb.Ds.ListDs

/-!
# The layout of a list

A root and the two windows it describes hold a sequence: the left window backwards, then
the right one. A batch takes each side from one window to another (`Moves`), and the
reads of the data type return what the sequence has (`Laid.getSide_locate`,
`Laid.collectSide`, `Laid.collectRange`).
-/

namespace Rdb.Ds

open List

namespace ListDs

open Lib

/-! ## What a batch does to a side -/

/-- A batch takes one side from a window to another. -/
def Moves (ops : List WriteOp) (k : UserKey) (left : Bool) (base : Nat) (w : List Bytes)
    (base' : Nat) (w' : List Bytes) : Prop :=
  ∀ s, (lastWrite (k.elem (sideKind left) s) ops).getD (sideGet left base w s) = sideGet left base' w' s

variable {store : Store}

section

variable {k : UserKey} {left : Bool} {base base₁ base' : Nat} {w w₁ w' : List Bytes}
  {ops ops' : List WriteOp}

theorem Moves.side (h : Moves ops k left base w base' w')
    (hs : Side store k left base w) : Side (store.write ops) k left base' w' := by
  intro s
  rw [SortedMap.get_write, hs, h]

theorem Moves.append (h : Moves ops k left base w base₁ w₁) (h' : Moves ops' k left base₁ w₁ base' w') :
    Moves (ops ++ ops') k left base w base' w' := by
  intro s
  rw [lastWrite_append, ← h' s, ← h s]
  cases lastWrite (k.elem (sideKind left) s) ops' <;> rfl

theorem Moves.other (h : ∀ op ∈ ops, ∀ s, op.key ≠ k.elem (sideKind left) s) :
    Moves ops k left base w base w := by
  intro s
  rw [lastWrite_eq_none.mpr fun op hop => h op hop s]
  rfl

end

def sideOp (left : Bool) (k : UserKey) : BatchOp Nat Bytes → WriteOp
  | .put i v => putSide left k i v
  | .del i => delSide left k i

theorem key_sideOp (left : Bool) (k : UserKey) (op : BatchOp Nat Bytes) :
    (sideOp left k op).key = sideKey left k op.key := by
  cases op <;> rfl

theorem val_sideOp (left : Bool) (k : UserKey) (op : BatchOp Nat Bytes) :
    (sideOp left k op).val = op.val := by
  cases op <;> rfl

variable {left : Bool} {k : UserKey}

theorem lastWrite_map_sideOp {ops : List (BatchOp Nat Bytes)} (hlt : ∀ op ∈ ops, op.key < 2 ^ 64)
    {s : Bytes} (hs : s.length = suffixLen) :
    lastWrite (k.elem (sideKind left) s) (ops.map (sideOp left k)) =
      lastWrite (sideIndex left s) ops := by
  induction ops with
  | nil => rfl
  | cons op ops ih =>
    have hop := hlt op mem_cons_self
    have hkey : (sideOp left k op).key = k.elem (sideKind left) s ↔ op.key = sideIndex left s := by
      rw [key_sideOp, sideKey_eq]
      constructor
      · intro h
        rw [← (UserKey.elem_inj h).2.2, sideIndex_sideSuffix hop]
      · intro h
        rw [h, sideSuffix_sideIndex hs]
    rw [map_cons, lastWrite_cons, lastWrite_cons, val_sideOp,
      ih fun op hm => hlt op (mem_cons_of_mem _ hm)]
    by_cases hk : op.key = sideIndex left s
    · rw [if_pos hk, if_pos (hkey.mpr hk)]
    · rw [if_neg hk, if_neg (mt hkey.mp hk)]

theorem sideOp_other {kind : UInt8} (hkind : kind ≠ sideKind left) (ops : List (BatchOp Nat Bytes))
    (k' : UserKey) (s : Bytes) :
    ∀ op ∈ ops.map (sideOp left k), op.key ≠ k'.elem kind s := by
  intro op hop
  obtain ⟨op, -, rfl⟩ := mem_map.mp hop
  rw [key_sideOp, sideKey_eq]
  exact UserKey.elem_ne_of_kind (Ne.symm hkind)

theorem moves_of_written {base base' : Nat} {w w' : List Bytes} {ops : List (BatchOp Nat Bytes)}
    (hlt : ∀ op ∈ ops, op.key < 2 ^ 64)
    (h : ∀ i, written ops (window base w) i = window base' w' i) :
    Moves (ops.map (sideOp left k)) k left base w base' w' := by
  intro s
  unfold sideGet
  split
  · next hs =>
    rw [lastWrite_map_sideOp hlt hs]
    exact h _
  · next hs =>
    have hnone : lastWrite (k.elem (sideKind left) s) (ops.map (sideOp left k)) = none := by
      refine lastWrite_eq_none.mpr fun op hop hkey => hs ?_
      obtain ⟨op, -, rfl⟩ := mem_map.mp hop
      rw [key_sideOp, sideKey_eq] at hkey
      rw [← (UserKey.elem_inj hkey).2.2]
      exact length_sideSuffix _ _
    rw [hnone]
    rfl

theorem sideKind_not (left : Bool) : sideKind (!left) ≠ sideKind left := by cases left <;> decide

theorem moves_not (left : Bool) (k : UserKey) (base : Nat) (w : List Bytes)
    (ops : List (BatchOp Nat Bytes)) :
    Moves (ops.map (sideOp left k)) k (!left) base w base w :=
  .other fun op hop s => sideOp_other (sideKind_not left) ops k s op hop

/-! ## A root and its two sides -/

def seq (w : Bool → List Bytes) : List Bytes := (w true).reverse ++ w false

/-- The counters of a root describe two windows, with room for the encoding of an index. -/
structure Fits (m : ListMeta) (w : Bool → List Bytes) : Prop where
  expire : m.expireMs = 0
  count : ∀ left, m.count left = (w left).length
  le : ∀ left, (w left).length ≤ m.next left
  room : ∀ left, m.next left < 2 ^ 62

/-- The root of a key is stored, and its records are the two windows it describes. -/
structure Laid (store : Store) (k : UserKey) (m : ListMeta) (w : Bool → List Bytes) : Prop
    extends Fits m w where
  root : store.get (metaKey k) = some (encodeEnvelope m.expireMs (encodeMetaPayload m))
  side : ∀ left, Side store k left (m.base left) (w left)

variable {m : ListMeta} {w : Bool → List Bytes}

variable (h : Fits m w)
include h

theorem Fits.lCount : m.lCount = (w true).length := h.count true

theorem Fits.rCount : m.rCount = (w false).length := h.count false

theorem Fits.len : m.len = (seq w).length := by
  rw [ListMeta.len, h.lCount, h.rCount, seq, length_append, length_reverse]

theorem Fits.base (left : Bool) : m.base left + (w left).length = m.next left := by
  have := h.le left
  rw [ListMeta.base, h.count left]
  omega

theorem Fits.len_lt : (seq w).length < 2 ^ 63 := by
  have hl := h.le true
  have hr := h.le false
  have hlr := h.room true
  have hrr := h.room false
  rw [seq, length_append, length_reverse]
  omega

theorem Fits.decode : decodeMetaPayload m.expireMs (encodeMetaPayload m) = m := by
  have hl := h.le true
  have hr := h.le false
  have hlr : m.lNext < 2 ^ 62 := h.room true
  have hrr : m.rNext < 2 ^ 62 := h.room false
  have hlc := h.lCount
  have hrc := h.rCount
  have hln : m.next true = m.lNext := rfl
  have hrn : m.next false = m.rNext := rfl
  have hend := nextVarint_encodeCount (v := m.rNext) (by omega) []
  rw [append_nil] at hend
  unfold decodeMetaPayload encodeMetaPayload
  rw [nextVarint_encodeCount (by omega)]
  dsimp only
  rw [nextVarint_encodeCount (by omega)]
  rw [nextVarint_encodeCount (by omega)]
  rw [hend]

omit h

theorem Laid.getSide_locate (h : Laid store k m w) {p : Nat} (hp : p < (seq w).length) :
    getSide store (locate m p).1 k (locate m p).2 = (seq w)[p]? := by
  have hlen : (seq w).length = (w true).length + (w false).length := by
    rw [seq, length_append, length_reverse]
  have hlb := h.base true
  have hrb := h.base false
  have hlr := h.room true
  have hrr := h.room false
  have hlc := h.lCount
  unfold locate
  split
  · have hidx : m.lBase + m.lCount - 1 - p = m.base true + ((w true).length - 1 - p) := by
      show m.base true + m.lCount - 1 - p = _
      omega
    rw [(h.side true).getSide (by rw [hidx]; omega), hidx, window_add, seq,
      getElem?_append_left (by rw [length_reverse]; omega), getElem?_reverse (by omega)]
  · have hidx : m.rBase + p - m.lCount = m.base false + (p - (w true).length) := by
      show m.base false + p - m.lCount = _
      omega
    rw [(h.side false).getSide (by rw [hidx]; omega), hidx, window_add, seq,
      getElem?_append_right (by rw [length_reverse]; omega), length_reverse]

theorem Laid.collectSide (h : Laid store k m w) (left : Bool) :
    collectSide store k m left = inOrder left (indexed (m.base left) (w left)) := by
  have hcount := h.count left
  have hbase := h.base left
  have hroom := h.room left
  have hempty : (left && m.lCount == 0 || !left && m.rCount == 0) = (m.count left == 0) := by
    cases left
    · simp [ListMeta.count]
    · simp [ListMeta.count]
  have hbounds : (if left then (m.lBase, m.lNext - 1) else (m.rBase, m.rNext - 1)) =
      (m.base left, m.next left - 1) := by
    cases left <;> rfl
  rw [ListDs.collectSide, hempty, hbounds]
  split
  · next hz =>
    have hnil : w left = [] := length_eq_zero_iff.mp (by rw [← hcount]; simpa using hz)
    rw [hnil]
    cases left <;> rfl
  · dsimp only
    rw [(h.side left).scan (le_refl _) (by omega) (by omega), Nat.sub_self, drop_zero,
      take_of_length_le (by omega)]
    exact (foldUntil_collect (g := id) (fun _ _ => rfl) [] _).trans (map_id _)

theorem reverse_cut {xs : List Bytes} {a b : Nat} (hab : a ≤ b) (hb : b < xs.length) :
    ((xs.drop (xs.length - 1 - b)).take (b + 1 - a)).reverse =
      (xs.reverse.drop a).take (b + 1 - a) := by
  rw [drop_reverse, take_reverse, drop_take, length_take]
  have h₁ : min (xs.length - a) xs.length - (b + 1 - a) = xs.length - 1 - b := by omega
  have h₂ : xs.length - a - (xs.length - 1 - b) = b + 1 - a := by omega
  rw [h₁, h₂]

theorem Laid.collect (h : Laid store k m w) (left : Bool) {a b : Nat} (hab : a ≤ b)
    (hb : b < (w left).length) (out : List Bytes) :
    forEachSide store k left (m.base left + a) (m.base left + b)
      (fun (out : List Bytes) (_ : Nat) (elem : Bytes) => (out ++ [elem], true)) out =
      out ++ (inOrder left (indexed (m.base left + a) (((w left).drop a).take (b + 1 - a)))).map (·.2) := by
  have hbase := h.base left
  have hroom := h.room left
  have hn : m.base left + b + 1 - (m.base left + a) = b + 1 - a := by omega
  rw [(h.side left).scan (by omega) (by omega) (by omega), Nat.add_sub_cancel_left, hn]
  exact foldUntil_collect (g := fun e : Nat × Bytes => e.2) (fun _ _ => rfl) out _

variable {start stop : Nat}

theorem Laid.collectLeft (h : Laid store k m w) (hle : start ≤ stop) (hstart : start < m.lCount) :
    forEachSide store k true (m.lBase + (m.lCount - 1 - min stop (m.lCount - 1)))
      (m.lBase + m.lCount - 1 - start)
      (fun (out : List Bytes) (_ : Nat) (elem : Bytes) => (out ++ [elem], true)) [] =
      ((w true).reverse.drop start).take (min stop (m.lCount - 1) + 1 - start) := by
  have hlc := h.lCount
  have hhi : m.lBase + m.lCount - 1 - start = m.base true + (m.lCount - 1 - start) := by
    show m.base true + m.lCount - 1 - start = _
    omega
  have hn : m.lCount - 1 - start + 1 - (m.lCount - 1 - min stop (m.lCount - 1)) =
      min stop (m.lCount - 1) + 1 - start := by omega
  rw [hhi]
  refine (h.collect true (by omega) (by omega) []).trans ?_
  rw [hn, hlc]
  show ((indexed _ _).reverse).map _ = _
  rw [map_reverse, map_snd_indexed, reverse_cut (by omega) (by omega)]

theorem Laid.collectRight (h : Laid store k m w) (hle : start ≤ stop)
    (hstop : stop < (seq w).length) (hright : m.lCount ≤ stop) (out : List Bytes) :
    forEachSide store k false (m.rBase + max start m.lCount - m.lCount) (m.rBase + stop - m.lCount)
      (fun (out : List Bytes) (_ : Nat) (elem : Bytes) => (out ++ [elem], true)) out =
      out ++ ((w false).drop (start - m.lCount)).take (stop + 1 - max start m.lCount) := by
  have hlc := h.lCount
  have hlen : (seq w).length = (w true).length + (w false).length := by
    rw [seq, length_append, length_reverse]
  have hlo : m.rBase + max start m.lCount - m.lCount = m.base false + (start - m.lCount) := by
    show m.base false + _ - _ = _
    omega
  have hhi : m.rBase + stop - m.lCount = m.base false + (stop - m.lCount) := by
    omega
  have hn : stop - m.lCount + 1 - (start - m.lCount) = stop + 1 - max start m.lCount := by omega
  rw [hlo, hhi, h.collect false (by omega) (by omega), hn]
  show out ++ (indexed _ _).map _ = _
  rw [map_snd_indexed]

theorem Laid.collectRange (h : Laid store k m w) (hle : start ≤ stop)
    (hstop : stop < (seq w).length) :
    collectRange store k m start stop = ((seq w).drop start).take (stop + 1 - start) := by
  have hlc := h.lCount
  have hlen := h.len
  have hmin : min stop (m.len - 1) = stop := by omega
  have hin : ¬(decide (m.len ≤ start) || decide (stop < start)) := by
    simp only [Bool.or_eq_true, decide_eq_true_eq]
    omega
  unfold ListDs.collectRange
  rw [if_neg hin]
  dsimp only
  rw [hmin, seq, drop_append, List.take_append, length_drop, length_reverse, ← hlc]
  by_cases hstart : start < m.lCount
  · rw [if_pos hstart, h.collectLeft hle hstart]
    by_cases hright : m.lCount ≤ stop
    · have h₁ : min stop (m.lCount - 1) + 1 - start = m.lCount - start := by omega
      have h₂ : stop + 1 - max start m.lCount = stop + 1 - start - (m.lCount - start) := by omega
      have hall : ∀ n, m.lCount - start ≤ n →
          ((w true).reverse.drop start).take n = (w true).reverse.drop start := fun n hn =>
        take_of_length_le (by rw [length_drop, length_reverse]; omega)
      rw [if_pos hright, h.collectRight hle hstop hright, h₁, h₂, hall _ (le_refl _),
        hall _ (by omega)]
    · have h₁ : min stop (m.lCount - 1) + 1 - start = stop + 1 - start := by omega
      have h₂ : stop + 1 - start - (m.lCount - start) = 0 := by omega
      rw [if_neg hright, h₁, h₂, take_zero, append_nil]
  · have h₁ : (w true).reverse.drop start = [] := drop_eq_nil_of_le (by rw [length_reverse]; omega)
    have h₂ : stop + 1 - max start m.lCount = stop + 1 - start - (m.lCount - start) := by omega
    rw [if_neg hstart, if_pos (by omega), h.collectRight hle hstop (by omega), h₁, h₂, take_nil]

end ListDs

end Rdb.Ds
