import Rdb.Command.ListSpec

/-!
# The list commands refine the sequences

Each command, from a store that refines, answers what the sequence answers and leaves a
store that refines.
-/

namespace Rdb.Command

open Lib Ds ListDs List Function

/-- A command and its counterpart on sequences give the same reply and related states. -/
structure Agrees (r : Reply × Store) (r' : Reply × Lists) : Prop where
  reply : r.1 = r'.1
  refines : Refines r.2 r'.2

/-- What a key holds, with the windows of a key that is missing empty. -/
structure Open (store : Store) (k : UserKey) (m : ListMeta) (w : Bool → List Bytes) : Prop
    extends Fits m w where
  side : ∀ left, Side store k left (m.base left) (w left)

variable {m : ListMeta} {w : Bool → List Bytes}

theorem Open.of_laid {store : Store} {k : UserKey}
    (h : Laid store k m w) : Open store k m w := { h with }

section

variable {store : Store} {lists : Lists} {k : UserKey}

theorem Refines.cases (h : Refines store lists) (k : UserKey) :
    (lists k = [] ∧ store.get (metaKey k) = none ∧ Open store k blankMeta fun _ => []) ∨
      ∃ m w, Laid store k m w ∧ lists k = seq w ∧ seq w ≠ [] := by
  have hk := h.holds k
  generalize lists k = xs at hk
  cases hk with
  | missing root side =>
    refine .inl ⟨rfl, root, { expire := rfl, count := ?_, le := ?_, room := ?_, side := ?_ }⟩
    · intro left
      cases left <;> rfl
    · exact fun _ => Nat.zero_le _
    · intro left
      cases left <;> decide
    · intro left
      cases left
      · exact side false
      · exact side true
  | list m w laid ne => exact .inr ⟨m, w, laid, rfl, ne⟩

variable {r : Reply} {f : List Bytes → Reply × List Bytes}

theorem Agrees.same (h : Refines store lists)
    (hf : f (lists k) = (r, lists k)) : Agrees (r, store) (Spec.on lists k f) := by
  unfold Spec.on
  rw [hf, update_eq_self]
  exact ⟨rfl, h⟩

variable {xs : List Bytes}

theorem Agrees.new {store' : Store} (hf : f (lists k) = (r, xs))
    (h : Refines store' (Function.update lists k xs)) :
    Agrees (r, store') (Spec.on lists k f) := by
  unfold Spec.on
  rw [hf]
  exact ⟨rfl, h⟩

/-! ## Writes to one side -/

theorem seq_update_true (w : Bool → List Bytes) (ys : List Bytes) :
    seq (Function.update w true ys) = ys.reverse ++ w false := by
  rw [seq, update_self, update_of_ne (by decide)]

theorem seq_update_false (w : Bool → List Bytes) (ys : List Bytes) :
    seq (Function.update w false ys) = (w true).reverse ++ ys := by
  rw [seq, update_self, update_of_ne (by decide)]

variable {m' : ListMeta} {left : Bool} {ys : List Bytes} {ops : List (BatchOp Nat Bytes)}

theorem Open.write (h : Open store k m w) (hlt : ∀ op ∈ ops, op.key < 2 ^ 64)
    (hw : ∀ i, written ops (window (m.base left) (w left)) i = window (m'.base left) ys i)
    (hother : m'.base (!left) = m.base (!left)) (l : Bool) :
    Side (store.write (ops.map (sideOp left k))) k l (m'.base l) (Function.update w left ys l) := by
  by_cases hl : l = left
  · subst hl
    rw [update_self]
    exact (moves_of_written hlt hw).side (h.side l)
  · have hl' : l = !left := by
      cases l <;> cases left <;> simp_all
    rw [update_of_ne hl, hl', hother]
    exact (moves_not left k _ _ ops).side (h.side (!left))

theorem Refines.commit_side (h : Refines store lists) (ho : Open store k m w)
    (hfits : Fits m' (Function.update w left ys)) (hlt : ∀ op ∈ ops, op.key < 2 ^ 64)
    (hw : ∀ i, written ops (window (m.base left) (w left)) i = window (m'.base left) ys i)
    (hother : m'.base (!left) = m.base (!left)) (hne : seq (Function.update w left ys) ≠ []) :
    Refines (commitList store k 0 (some m') (ops.map (sideOp left k)))
      (Function.update lists k (seq (Function.update w left ys))) :=
  h.commit_some (onSides_map left k ops) hfits (ho.write hlt hw hother) hne

/-! ## Pushes -/

theorem count_pushed (m : ListMeta) (left : Bool) (n : Nat) (l : Bool) :
    (pushed m left n).count l = if l = left then m.count l + n else m.count l := by
  cases left <;> cases l <;> rfl

theorem next_pushed (m : ListMeta) (left : Bool) (n : Nat) (l : Bool) :
    (pushed m left n).next l = if l = left then m.next l + n else m.next l := by
  cases left <;> cases l <;> rfl

theorem base_pushed (m : ListMeta) (left : Bool) (n : Nat) (l : Bool) :
    (pushed m left n).base l = m.base l := by
  rw [ListMeta.base, count_pushed, next_pushed]
  split
  · exact Nat.add_sub_add_right _ n _
  · rfl

variable {n : Nat}

theorem fits_pushed (h : Fits m w) (hys : ys.length = (w left).length + n)
    (hroom : m.next left + n < 2 ^ 62) :
    Fits (pushed m left n) (Function.update w left ys) where
  expire := by cases left <;> exact h.expire
  count l := by
    rw [count_pushed, h.count l]
    by_cases hl : l = left
    · rw [if_pos hl, hl, update_self, hys]
    · rw [if_neg hl, update_of_ne hl]
  le l := by
    have hle := h.le l
    rw [next_pushed]
    by_cases hl : l = left
    · rw [if_pos hl, hl, update_self, hys, ← hl]
      exact Nat.add_le_add_right hle n
    · rw [if_neg hl, update_of_ne hl]
      exact hle
  room l := by
    rw [next_pushed]
    by_cases hl : l = left
    · rw [if_pos hl, hl]
      exact hroom
    · rw [if_neg hl]
      exact h.room l

def rootMeta (store : Store) (k : UserKey) : ListMeta :=
  match store.get (metaKey k) with
  | none => blankMeta
  | some v => decodeMetaPayload (decodeEnvelope v).1 (decodeEnvelope v).2

/-- The indices of a key leave room for `n` more entries on either side. -/
def Room (store : Store) (k : UserKey) (n : Nat) : Prop :=
  ∀ left, (rootMeta store k).next left + n < 2 ^ 62
  deriving Decidable

theorem rootMeta_of_laid (h : Laid store k m w) : rootMeta store k = m := by
  have hdec := h.decode
  have henv : decodeEnvelope (encodeEnvelope 0 (encodeMetaPayload m)) = (0, encodeMetaPayload m) :=
    decodeEnvelope_encodeEnvelope (by decide) _
  rw [rootMeta, h.root]
  rw [h.expire] at hdec ⊢
  simp only [henv, hdec]

theorem rootMeta_of_missing (h : store.get (metaKey k) = none) : rootMeta store k = blankMeta := by
  rw [rootMeta, h]

theorem seq_push (w : Bool → List Bytes) (left : Bool) (elems : List Bytes) :
    seq (Function.update w left (w left ++ elems)) =
      if left then elems.reverse ++ seq w else seq w ++ elems := by
  cases left
  · rw [seq_update_false, ← append_assoc]
    rfl
  · rw [seq_update_true, reverse_append, append_assoc]
    rfl

theorem onSides_push (k : UserKey) (left : Bool) (n : Nat) (elems : List Bytes) :
    OnSides k ((indexed n elems).map fun e => putSide left k e.1 e.2) := by
  intro op hop
  obtain ⟨e, -, rfl⟩ := mem_map.mp hop
  exact ⟨left, e.1, rfl⟩

variable {elems : List Bytes}

theorem Open.push (h : Open store k m w) (left : Bool)
    (hroom : m.next left + elems.length < 2 ^ 62) :
    Open (store.write ((indexed (m.next left) elems).map fun e => putSide left k e.1 e.2)) k
      (pushed m left elems.length) (Function.update w left (w left ++ elems)) := by
  have hbatch : ((indexed (m.next left) elems).map fun e => putSide left k e.1 e.2) =
      (replaceOps [] (indexed (m.next left) elems)).map (sideOp left k) := by
    rw [replaceOps, map_nil, nil_append, map_map]
    rfl
  have hlt : ∀ op ∈ replaceOps [] (indexed (m.next left) elems), op.key < 2 ^ 64 := by
    intro op hop
    obtain ⟨e, he, rfl⟩ := mem_map.mp hop
    have := lt_of_window (mem_indexed.mp he)
    show e.1 < 2 ^ 64
    omega
  have hw : ∀ i, written (replaceOps [] (indexed (m.next left) elems)) (window (m.base left) (w left)) i =
      window ((pushed m left elems.length).base left) (w left ++ elems) i := by
    intro i
    rw [base_pushed, ← h.base left]
    exact written_push _ _ _ i
  rw [hbatch]
  exact { fits_pushed h.toFits length_append hroom with
    side := h.write hlt hw (base_pushed m left _ _) }

theorem push_agrees (h : Refines store lists) (ho : Open store k m w) (left : Bool)
    (hne : elems ≠ []) (hroom : m.next left + elems.length < 2 ^ 62) :
    (pushed m left elems.length).len =
        (if left then elems.reverse ++ seq w else seq w ++ elems).length ∧
      Refines (commitList store k (pushed m left elems.length).expireMs
          (some (pushed m left elems.length))
          ((indexed (m.next left) elems).map fun e => putSide left k e.1 e.2))
        (Function.update lists k (if left then elems.reverse ++ seq w else seq w ++ elems)) := by
  have hopen := ho.push left hroom
  have hseqne : seq (Function.update w left (w left ++ elems)) ≠ [] := by
    rw [seq_push]
    cases left
    · simp [hne]
    · simp [hne]
  rw [← seq_push, hopen.expire]
  exact ⟨hopen.len, h.commit_some (onSides_push k left _ elems) hopen.toFits hopen.side hseqne⟩

theorem pushVariant_agrees (h : Refines store lists) (hraw : store.get k.raw = none)
    (left create : Bool) (cmd : String) (now : Nat) (hroom : Room store k elems.length) :
    Agrees (pushVariant left create cmd store now k elems)
      (Spec.on lists k (Spec.push left create cmd elems)) := by
  unfold pushVariant
  by_cases hnil : elems = []
  · subst hnil
    exact .same h (if_pos rfl)
  rw [if_neg (by simpa using hnil)]
  rcases h.cases k with ⟨hk, hroot, ho⟩ | ⟨m, w, hl, hk, hne⟩
  · rw [h.listState_missing hraw hroot]
    cases create with
    | false => exact .same h (by rw [Spec.push, if_neg hnil, if_pos ⟨hk, rfl⟩])
    | true =>
      have hr := hroom left
      rw [rootMeta_of_missing hroot] at hr
      obtain ⟨hlen, href⟩ := push_agrees h ho left hnil hr
      refine .new ?_ href
      rw [Spec.push, if_neg hnil, hk]
      exact Prod.ext (congrArg (fun n : Nat => Reply.int n) hlen.symm) rfl
  · have hr := hroom left
    rw [rootMeta_of_laid hl] at hr
    obtain ⟨hlen, href⟩ := push_agrees h (.of_laid hl) left hnil hr
    rw [h.listState_list hraw hl]
    refine .new ?_ href
    rw [Spec.push, if_neg hnil, if_neg (by rw [hk]; exact fun hx => hne hx.1), hk]
    exact Prod.ext (congrArg (fun n : Nat => Reply.int n) hlen.symm) rfl

/-! ## Reads -/

theorem positionOf_eq (h : Fits m w) (i : Int) : positionOf m i = elemAt (seq w) i := by
  have hlen := h.len
  have hlt := h.len_lt
  unfold ListDs.positionOf elemAt fromEnd
  rw [hlen, if_pos hlt]
  dsimp only
  generalize (if i < 0 then ((seq w).length : Int) + i else i) = p
  by_cases hp : 0 ≤ p
  · rw [if_pos hp]
    by_cases hp' : p < (seq w).length
    · rw [if_pos (by omega), if_pos ⟨hp, hp'⟩]
    · rw [if_neg (by omega), if_neg (fun h => hp' h.2)]
  · rw [if_neg hp, if_neg (fun h => hp h.1)]

variable {p : Nat}

theorem lt_of_elemAt {i : Int} (h : elemAt xs i = some p) : p < xs.length := by
  unfold elemAt at h
  rw [Option.ite_none_right_eq_some] at h
  obtain ⟨hb, hp⟩ := h
  cases hp
  omega

theorem elemAt_nil (i : Int) : elemAt [] i = none := by
  refine if_neg fun h => ?_
  have h1 := h.1
  have h2 := h.2
  rw [length_nil] at h1 h2
  omega

theorem clampRange_eq {len : Nat} (hlen : len < 2 ^ 63) (start stop : Int) :
    clampRange start stop len =
      if fromEnd len stop < (fromEnd len start).toNat ∨ len ≤ (fromEnd len start).toNat then none
      else some ((fromEnd len start).toNat, (min (fromEnd len stop) (len - 1)).toNat) := by
  unfold clampRange
  rw [if_pos hlen]
  dsimp only
  have hstop : (if stop < 0 then (len : Int) + stop else stop) = fromEnd len stop := rfl
  rw [hstop]
  generalize fromEnd len stop = e
  by_cases hstart : start < 0
  · rw [if_pos hstart, fromEnd, if_pos hstart]
    by_cases hout : e < ((len : Int) + start).toNat ∨ len ≤ ((len : Int) + start).toNat
    · rw [if_pos hout, if_pos (by omega)]
    · rw [if_neg hout, if_neg (by omega)]
      congr 2
      omega
  · rw [if_neg hstart, fromEnd, if_neg hstart]
    by_cases hout : e < start.toNat ∨ len ≤ start.toNat
    · rw [if_pos hout, if_pos (by omega)]
    · rw [if_neg hout, if_neg (by omega)]
      congr 2
      omega

variable {start stop : Int}

theorem between_of_clampRange_none (hlen : xs.length < 2 ^ 63)
    (h : clampRange start stop xs.length = none) : between xs start stop = [] := by
  rw [clampRange_eq hlen, ite_eq_left_iff] at h
  have hout := not_imp_comm.mp h (by simp)
  unfold between
  dsimp only
  rcases hout with hout | hout
  · exact take_eq_nil_iff.mpr (.inl (by omega))
  · rw [drop_eq_nil_of_le hout, take_nil]

theorem between_of_clampRange_some (hlen : xs.length < 2 ^ 63) {lo hi : Nat}
    (h : clampRange start stop xs.length = some (lo, hi)) :
    lo ≤ hi ∧ hi < xs.length ∧ between xs start stop = (xs.drop lo).take (hi + 1 - lo) := by
  rw [clampRange_eq hlen, Option.ite_none_left_eq_some] at h
  obtain ⟨hin, hpair⟩ := h
  obtain ⟨hlo, hhi⟩ := Prod.mk.inj (Option.some.inj hpair)
  refine ⟨by omega, by omega, ?_⟩
  unfold between
  dsimp only
  rw [hlo]
  by_cases hlast : fromEnd xs.length stop < xs.length
  · congr 1
    omega
  · rw [take_of_length_le (by rw [length_drop]; omega),
      take_of_length_le (by rw [length_drop]; omega)]

theorem between_nil (start stop : Int) : between [] start stop = [] := by
  rw [between, drop_nil, take_nil]

theorem llen_agrees (h : Refines store lists) (hraw : store.get k.raw = none) (now : Nat) :
    Agrees (llen store now k) (Spec.on lists k Spec.llen) := by
  unfold llen
  rcases h.cases k with ⟨hk, hroot, -⟩ | ⟨m, w, hl, hk, -⟩
  · rw [h.listState_missing hraw hroot]
    exact .same h (by rw [hk]; rfl)
  · rw [h.listState_list hraw hl]
    exact .same h (by rw [Spec.llen, hk, hl.len])

theorem lrange_agrees (h : Refines store lists) (hraw : store.get k.raw = none) (now : Nat)
    (start stop : Int) :
    Agrees (lrange store now k start stop) (Spec.on lists k (Spec.lrange start stop)) := by
  unfold lrange
  rcases h.cases k with ⟨hk, hroot, -⟩ | ⟨m, w, hl, hk, -⟩
  · rw [h.listState_missing hraw hroot]
    exact .same h (by rw [Spec.lrange, hk, between_nil])
  · rw [h.listState_list hraw hl]
    refine .same h ?_
    rw [Spec.lrange, hk, hl.len]
    cases hc : clampRange start stop (seq w).length with
    | none => rw [between_of_clampRange_none hl.len_lt hc]
    | some r =>
      obtain ⟨hle, hlt, hbetween⟩ := between_of_clampRange_some hl.len_lt hc
      rw [hbetween]
      exact congrArg (fun l => (Reply.array l, seq w)) (hl.collectRange hle hlt).symm

theorem lindex_agrees (h : Refines store lists) (hraw : store.get k.raw = none) (now : Nat)
    (index : Int) : Agrees (lindex store now k index) (Spec.on lists k (Spec.lindex index)) := by
  unfold lindex
  rcases h.cases k with ⟨hk, hroot, -⟩ | ⟨m, w, hl, hk, -⟩
  · rw [h.listState_missing hraw hroot]
    exact .same h (by rw [Spec.lindex, hk, elemAt_nil]; rfl)
  · rw [h.listState_list hraw hl]
    dsimp only
    rw [positionOf_eq hl.toFits]
    cases hp : elemAt (seq w) index with
    | none => exact .same h (by rw [Spec.lindex, hk, hp]; rfl)
    | some p =>
      dsimp only
      rw [hl.getSide_locate (lt_of_elemAt hp), getElem?_eq_getElem (lt_of_elemAt hp)]
      refine .same h ?_
      rw [Spec.lindex, hk, hp, Option.bind_some, getElem?_eq_getElem (lt_of_elemAt hp)]
      rfl

/-! ## One element -/

theorem reverse_set (hp : p < xs.length) (e : Bytes) :
    (xs.set (xs.length - 1 - p) e).reverse = xs.reverse.set p e := by
  have h₁ : xs.length - 1 - p + 1 = xs.length - p := by omega
  have h₂ : xs.length - (p + 1) = xs.length - 1 - p := by omega
  rw [set_eq_take_append_cons_drop, set_eq_take_append_cons_drop, if_pos (by omega),
    if_pos (by rwa [length_reverse]), reverse_append, reverse_cons, append_assoc,
    take_reverse, drop_reverse, h₁, h₂]
  rfl

theorem locate_spec (h : Fits m w) (hp : p < (seq w).length) :
    ∃ j, (locate m p).2 = m.base (locate m p).1 + j ∧ j < (w (locate m p).1).length ∧
      ∀ e, seq (Function.update w (locate m p).1 ((w (locate m p).1).set j e)) = (seq w).set p e := by
  have hlc := h.lCount
  have hlen : (seq w).length = (w true).length + (w false).length := by
    rw [seq, length_append, length_reverse]
  unfold ListDs.locate
  split
  · dsimp only
    refine ⟨(w true).length - 1 - p, ?_, by omega, fun e => ?_⟩
    · show m.base true + m.lCount - 1 - p = _
      omega
    · rw [seq_update_true, reverse_set (by omega), seq, set_append,
        if_pos (by rw [length_reverse]; omega)]
  · dsimp only
    refine ⟨p - (w true).length, ?_, by omega, fun e => ?_⟩
    · show m.base false + p - m.lCount = _
      omega
    · rw [seq_update_false, seq, set_append, if_neg (by rw [length_reverse]; omega), length_reverse]

theorem fits_of_length (h : Fits m w)
    (hys : ys.length = (w left).length) : Fits m (Function.update w left ys) := by
  have hlen : ∀ l, (Function.update w left ys l).length = (w l).length := by
    intro l
    by_cases hl : l = left
    · rw [hl, update_self, hys]
    · rw [update_of_ne hl]
  exact ⟨h.expire, fun l => (h.count l).trans (hlen l).symm, fun l => (hlen l).trans_le (h.le l), h.room⟩

theorem lset_agrees (h : Refines store lists) (hraw : store.get k.raw = none) (now : Nat)
    (index : Int) (elem : Bytes) :
    Agrees (lset store now k index elem) (Spec.on lists k (Spec.lset index elem)) := by
  unfold lset
  rcases h.cases k with ⟨hk, hroot, -⟩ | ⟨m, w, hl, hk, hne⟩
  · rw [h.listState_missing hraw hroot]
    exact .same h (by rw [Spec.lset, if_pos hk])
  · rw [h.listState_list hraw hl]
    dsimp only
    rw [positionOf_eq hl.toFits]
    cases hp : elemAt (seq w) index with
    | none => exact .same h (by rw [Spec.lset, hk, if_neg hne, hp])
    | some p =>
      obtain ⟨j, hidx, hj, hseq⟩ := locate_spec hl.toFits (lt_of_elemAt hp)
      dsimp only
      rw [hidx]
      generalize (ListDs.locate m p).1 = left at hidx hj hseq
      have hbase := hl.base left
      have hroom := hl.room left
      have href : Refines (commitList store k 0 (some m)
          ((replaceOps [] [(m.base left + j, elem)]).map (sideOp left k)))
          (Function.update lists k (seq (Function.update w left ((w left).set j elem)))) := by
        refine h.commit_side (.of_laid hl) (fits_of_length hl.toFits length_set) ?_
          (written_set _ _ hj elem) rfl ?_
        · intro op hop
          rw [mem_singleton.mp hop]
          show m.base left + j < 2 ^ 64
          omega
        · rw [hseq]
          exact fun hnil => hne (by simpa using hnil)
      rw [hseq] at href
      exact .new (by rw [Spec.lset, hk, if_neg hne, hp]) href

/-! ## Pops -/

/-- The sequence read from one of its ends. -/
def seqFrom (left : Bool) (w : Bool → List Bytes) : List Bytes := (w left).reverse ++ w (!left)

theorem seqFrom_eq (left : Bool) (w : Bool → List Bytes) :
    seqFrom left w = if left then seq w else (seq w).reverse := by
  cases left
  · show (w false).reverse ++ w true = ((w true).reverse ++ w false).reverse
    rw [reverse_append, reverse_reverse]
  · rfl

theorem length_seqFrom (left : Bool) (w : Bool → List Bytes) :
    (seqFrom left w).length = (seq w).length := by
  rw [seqFrom_eq]
  split
  · rfl
  · exact length_reverse

/-- The windows after the top of one side and the bottom of the other one went. -/
def cut (near : Bool) (tn tf : Nat) (w : Bool → List Bytes) (l : Bool) : List Bytes :=
  if l = near then (w l).take ((w l).length - tn) else (w l).drop tf

theorem seqFrom_cut (near : Bool) (w : Bool → List Bytes) (n : Nat) :
    seqFrom near (cut near (min n (w near).length) (n - min n (w near).length) w) =
      (seqFrom near w).drop n := by
  unfold seqFrom cut
  rw [if_pos rfl, if_neg (by cases near <;> decide), drop_append, length_reverse, ← drop_reverse]
  by_cases hn : n ≤ (w near).length
  · rw [Nat.min_eq_left hn, Nat.sub_self, Nat.sub_eq_zero_of_le hn]
  · have hnil : ∀ j, (w near).length ≤ j → (w near).reverse.drop j = [] := fun j hj =>
      drop_eq_nil_of_le (by rwa [length_reverse])
    rw [Nat.min_eq_right (by omega), hnil _ (le_refl _), hnil n (by omega)]

variable {w' : Bool → List Bytes}

theorem seq_of_seqFrom_drop (h : seqFrom left w' = (seqFrom left w).drop n) :
    seq w' = if left then (seq w).drop n else (seq w).take ((seq w).length - n) := by
  rw [seqFrom_eq, seqFrom_eq] at h
  cases left
  · rw [← reverse_reverse (seq w')]
    refine (congrArg reverse h).trans ?_
    rw [if_neg (by decide), drop_reverse, reverse_reverse]
    rfl
  · exact h

theorem Open.write_both (h : Open store k m w) (near : Bool)
    {opsNear opsFar : List (BatchOp Nat Bytes)} (hnear : ∀ op ∈ opsNear, op.key < 2 ^ 64)
    (hfar : ∀ op ∈ opsFar, op.key < 2 ^ 64)
    (hwn : ∀ i, written opsNear (window (m.base near) (w near)) i = window (m'.base near) (w' near) i)
    (hwf : ∀ i, written opsFar (window (m.base (!near)) (w (!near))) i =
      window (m'.base (!near)) (w' (!near)) i) (l : Bool) :
    Side (store.write (opsNear.map (sideOp near k) ++ opsFar.map (sideOp (!near) k))) k l (m'.base l)
      (w' l) := by
  have hl : l = near ∨ l = !near := by
    cases l <;> cases near <;> simp
  rcases hl with rfl | rfl
  · have hnot := moves_not (!l) k (m'.base l) (w' l) opsFar
    rw [Bool.not_not] at hnot
    exact ((moves_of_written hnear hwn).append hnot).side (h.side l)
  · exact ((moves_not near k _ _ opsNear).append (moves_of_written hfar hwf)).side (h.side (!near))

/-- The deletes of a pop: the top of the near side, then the bottom of the far one. -/
def popOps (k : UserKey) (m : ListMeta) (near : Bool) (tn tf : Nat) : List WriteOp :=
  (List.range tn).map (fun i => delSide near k (m.next near - 1 - i)) ++
    (List.range tf).map fun i => delSide (!near) k (m.base (!near) + i)

theorem onSides_popOps (k : UserKey) (m : ListMeta) (near : Bool) (tn tf : Nat) :
    OnSides k (popOps k m near tn tf) := by
  intro op hop
  rcases mem_append.mp hop with hop | hop
  · obtain ⟨i, -, rfl⟩ := mem_map.mp hop
    exact ⟨near, _, rfl⟩
  · obtain ⟨i, -, rfl⟩ := mem_map.mp hop
    exact ⟨!near, _, rfl⟩

theorem Open.pop (h : Open store k m w) (m' : ListMeta) (near : Bool) (tn tf : Nat)
    (htn : tn ≤ (w near).length) (htf : tf ≤ (w (!near)).length) (hexp : m'.expireMs = m.expireMs)
    (hnn : m'.next near = m.next near - tn) (hcn : m'.count near = m.count near - tn)
    (hnf : m'.next (!near) = m.next (!near)) (hcf : m'.count (!near) = m.count (!near) - tf) :
    Open (store.write (popOps k m near tn tf)) k m' (cut near tn tf w) := by
  have hside : ∀ l, l = near ∨ l = !near := by
    intro l
    cases l <;> cases near <;> simp
  have hbn := h.base near
  have hbf := h.base (!near)
  have hrn := h.room near
  have hrf := h.room (!near)
  have hcn' := h.count near
  have hcf' := h.count (!near)
  have hwn : cut near tn tf w near = (w near).take ((w near).length - tn) := if_pos rfl
  have hwf : cut near tn tf w (!near) = (w (!near)).drop tf := if_neg (by cases near <;> decide)
  have hlenn : (cut near tn tf w near).length = (w near).length - tn := by
    rw [hwn, length_take]
    omega
  have hlenf : (cut near tn tf w (!near)).length = (w (!near)).length - tf := by
    rw [hwf, length_drop]
  have hfits : Fits m' (cut near tn tf w) := by
    refine ⟨hexp.trans h.expire, fun l => ?_, fun l => ?_, fun l => ?_⟩ <;>
      rcases hside l with rfl | rfl <;> omega
  have hbatch : popOps k m near tn tf =
      (replaceOps ((range tn).map (m.base near + (w near).length - 1 - ·)) []).map (sideOp near k) ++
        (replaceOps ((range tf).map (m.base (!near) + ·)) []).map (sideOp (!near) k) := by
    simp only [replaceOps, map_nil, append_nil, map_map, hbn]
    rfl
  have hbase : m'.base near = m.base near ∧ m'.base (!near) = m.base (!near) + tf := by
    unfold ListMeta.base
    omega
  rw [hbatch]
  refine { hfits with side := h.write_both near ?_ ?_ (fun i => ?_) (fun i => ?_) }
  · simp only [replaceOps, map_nil, append_nil, forall_mem_map]
    intro j hj
    show m.base near + (w near).length - 1 - j < 2 ^ 64
    omega
  · simp only [replaceOps, map_nil, append_nil, forall_mem_map, mem_range]
    intro j hj
    show m.base (!near) + j < 2 ^ 64
    omega
  · rw [hbase.1, hwn]
    exact written_del_top _ _ htn i
  · rw [hbase.2, hwf]
    exact written_del_bottom _ _ _ i

theorem popTarget_eq (m : ListMeta) (left : Bool) :
    (if left then popLeftTarget m else popRightTarget m) =
      if 0 < m.count left then (left, m.next left - 1) else (!left, m.base (!left)) := by
  cases left <;> rfl

theorem getSide_popTarget (hl : Laid store k m w) (left : Bool) :
    getSide store (if left then popLeftTarget m else popRightTarget m).1 k
      (if left then popLeftTarget m else popRightTarget m).2 = (seqFrom left w).head? := by
  have hcount := hl.count left
  have hbase := hl.base left
  have hroom := hl.room left
  have hfar := hl.base (!left)
  have hfarRoom := hl.room (!left)
  rw [popTarget_eq, seqFrom]
  split
  · have hidx : m.next left - 1 = m.base left + ((w left).length - 1) := by omega
    have hne : (w left).reverse ≠ [] := ne_nil_of_length_pos (by rw [length_reverse]; omega)
    rw [(hl.side left).getSide (by omega), hidx, window_add, head?_append_of_ne_nil _ hne,
      head?_reverse, getLast?_eq_getElem?]
  · have hnil : w left = [] := length_eq_zero_iff.mp (by omega)
    rw [hnil, (hl.side (!left)).getSide (by omega)]
    exact (window_add _ _ 0).trans head?_eq_getElem?.symm

theorem fst_popOne (hl : Laid store k m w) (left : Bool) :
    (popOne store k m left).1 = (seqFrom left w).head?.getD [] :=
  congrArg (·.getD []) (getSide_popTarget hl left)

theorem popped_elems (hl : Laid store k m w) (left : Bool) (hn : 0 < n) (hle : n ≤ (seq w).length) :
    (if n = 1 then [(popOne store k m left).1]
      else if left then collectRange store k m 0 (n - 1)
      else (collectRange store k m (m.len - n) (m.len - 1)).reverse) = (seqFrom left w).take n := by
  have hlen := hl.len
  by_cases h1 : n = 1
  · subst h1
    have hne : seqFrom left w ≠ [] := ne_nil_of_length_pos (by rwa [length_seqFrom])
    obtain ⟨x, xs, hx⟩ := exists_cons_of_ne_nil hne
    rw [fst_popOne hl, hx]
    rfl
  · rw [if_neg h1, seqFrom_eq]
    cases left
    · have hcut : m.len - 1 + 1 - (m.len - n) = n := by omega
      rw [if_neg (by decide), if_neg (by decide), hl.collectRange (by omega) (by omega), hlen,
        take_reverse, take_of_length_le (by rw [length_drop]; omega)]
    · have hcut : n - 1 + 1 - 0 = n := by omega
      rw [if_pos rfl, if_pos rfl, hl.collectRange (by omega) (by omega), hcut, drop_zero]

variable (h : Refines store lists) (hraw : store.get k.raw = none)
include h hraw

theorem popCore_list (now : Nat) (hl : Laid store k m w) (hne : seq w ≠ []) (left : Bool)
    (count : Option Nat) (hcount : count ≠ some 0) :
    let n := count.elim 1 fun c => min c (seq w).length
    (popCore store now k left count).1 = .ok ((seqFrom left w).take n) ∧
      Refines (popCore store now k left count).2
        (Function.update lists k
          (if left then (seq w).drop n else (seq w).take ((seq w).length - n))) := by
  have hpos : 0 < (seq w).length := length_pos_of_ne_nil hne
  have hlen := hl.len
  have hlc := hl.lCount
  have hrc := hl.rCount
  have hsum : (seq w).length = (w true).length + (w false).length := by
    rw [seq, length_append, length_reverse]
  intro n
  have hn : 0 < n ∧ n ≤ (seq w).length := by
    cases count with
    | none => exact ⟨Nat.one_pos, hpos⟩
    | some c =>
      have hc : c ≠ 0 := fun hc => hcount (by rw [hc])
      show 0 < min c _ ∧ min c _ ≤ _
      omega
  have hn' : (count.elim 1 fun c => min c m.len) = n := by rw [hlen]
  unfold popCore
  rw [h.listState_list hraw hl]
  dsimp only
  rw [if_neg (by rw [hlen]; rintro (h0 | h0); exacts [absurd h0 (by omega), hcount h0]), hn',
    ← seq_of_seqFrom_drop (seqFrom_cut left w n)]
  have hpopped := popped_elems hl left hn.1 hn.2
  cases left
  · rw [← hrc]
    have hopen := (Open.of_laid hl).pop { m with
      rNext := m.rNext - min n m.rCount, rCount := m.rCount - min n m.rCount
      lCount := m.lCount - (n - min n m.rCount) } false (min n m.rCount) (n - min n m.rCount)
      (by omega) (by rw [Bool.not_false]; omega) rfl rfl rfl rfl rfl
    exact ⟨congrArg Except.ok hpopped, h.commit (onSides_popOps _ _ _ _ _) hopen.toFits hopen.side⟩
  · rw [← hlc]
    have hopen := (Open.of_laid hl).pop { m with
      lNext := m.lNext - min n m.lCount, lCount := m.lCount - min n m.lCount
      rCount := m.rCount - (n - min n m.lCount) } true (min n m.lCount) (n - min n m.lCount)
      (by omega) (by rw [Bool.not_true]; omega) rfl rfl rfl rfl rfl
    exact ⟨congrArg Except.ok hpopped, h.commit (onSides_popOps _ _ _ _ _) hopen.toFits hopen.side⟩

theorem popCore_missing (hroot : store.get (metaKey k) = none) (now : Nat) (left : Bool)
    (count : Option Nat) : popCore store now k left count = (.ok [], store) := by
  unfold popCore
  rw [h.listState_missing hraw hroot]

theorem popCore_zero (now : Nat) (hl : Laid store k m w) (left : Bool) :
    popCore store now k left (some 0) = (.ok [], store) := by
  unfold popCore
  rw [h.listState_list hraw hl]
  exact if_pos (.inr rfl)

theorem pop_agrees (left : Bool) (now : Nat) (count : Option Int) :
    Agrees (pop left store now k count) (Spec.on lists k (Spec.pop left count)) := by
  unfold pop
  by_cases hneg : count.any (· < 0)
  · rw [if_pos hneg]
    cases count with
    | none => cases hneg
    | some c => exact .same h (if_pos (by simpa using hneg))
  rw [if_neg hneg]
  rcases h.cases k with ⟨hk, hroot, -⟩ | ⟨m, w, hl, hk, hne⟩
  · rw [popCore_missing h hraw hroot]
    cases count with
    | none => exact .same h (by cases left <;> rw [hk] <;> rfl)
    | some c =>
      refine .same h ?_
      rw [Spec.pop, if_neg (by simpa using hneg), hk]
      cases left
      · simp
      · simp
  · cases count with
    | none =>
      obtain ⟨hans, href⟩ := popCore_list h hraw now hl hne left none nofun
      rw [Option.map_none]
      generalize popCore store now k left none = r at hans href
      obtain ⟨elems, store'⟩ := r
      cases hans
      refine .new ?_ href
      rw [Spec.pop, hk]
      cases left
      · simp [seqFrom_eq, dropLast_eq_take, head?_take]
      · simp [seqFrom_eq, head?_take]
    | some c =>
      have hc : ¬c < 0 := by simpa using hneg
      rw [Option.map_some]
      by_cases hz : c.toNat = 0
      · rw [hz, popCore_zero h hraw now hl]
        refine .same h ?_
        rw [Spec.pop, if_neg hc, hz]
        cases left
        · simp
        · simp
      · obtain ⟨hans, href⟩ := popCore_list h hraw now hl hne left (some c.toNat)
          (by simpa using hz)
        generalize popCore store now k left (some c.toNat) = r at hans href
        obtain ⟨elems, store'⟩ := r
        cases hans
        refine .new ?_ href
        rw [Spec.pop, if_neg hc, hk]
        have htake : (seqFrom left w).take (min c.toNat (seq w).length) =
            (seqFrom left w).take c.toNat :=
          take_eq_take_iff.mpr (by rw [length_seqFrom]; omega)
        cases left
        · have hlast : (seq w).length - min c.toNat (seq w).length = (seq w).length - c.toNat := by
            omega
          simp only [Option.elim_some, seqFrom_eq, Bool.false_eq_true, if_false, hlast] at htake ⊢
          rw [htake]
        · have hdrop : (seq w).drop (min c.toNat (seq w).length) = (seq w).drop c.toNat :=
            drop_eq_drop_iff.mpr (by omega)
          simp only [Option.elim_some, seqFrom_eq, if_true, hdrop] at htake ⊢
          rw [htake]

end

end Rdb.Command
