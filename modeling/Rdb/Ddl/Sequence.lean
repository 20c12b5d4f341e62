import Rdb.Ddl.Catalog

/-!
# AUTO_INCREMENT ids

A statement walks its rows over the counter: NULL and 0 take the next id, an explicit id
at or above the counter raises it, one below it is kept. Without overflow the id that is
free after some rows has a closed form (`freeId`), the largest of the counter and the
explicit ids, each moved by the rows that took an id since.

An allocated id is above every id before it, so the ids of one statement and of statements
one after the other differ. An explicit id may still repeat one that an earlier row has got
(`auto_ids_unique_iff`).
-/

namespace Rdb.Ddl

open Lib Sql List Option

section

variable (ai : Nat)

def given (row : List Value) : Value := row[ai]?.getD .null

def isAuto (row : List Value) : Bool := needsAuto (given ai row)

/-- The id a row brings. -/
def explicitId (row : List Value) : Option Int :=
  match given ai row with
  | .int n => if n = 0 then none else some n.toInt
  | _ => none

def explicitValues (rows : List (List Value)) : List Value :=
  (rows.map (given ai)).filter (!needsAuto ·)

/-- The next id after some rows: the counter or an explicit id plus one, and the number of ids
taken since. -/
def freeId (next : Int) (before : List (List Value)) : Int :=
  (before.tails.filterMap fun rows => (rows.head?.bind (explicitId ai)).map fun (id : Int) =>
    id + 1 + (rows.countP (isAuto ai) : Int)).foldl max (next + before.countP (isAuto ai))

/-- The rows have the column and no addition of the walk or of the reserve overflows. -/
def Fits (floor : Int) (rows : List (List Value)) : Prop :=
  (∀ row ∈ rows, ai < row.length) ∧ freeId ai (max floor 1) rows < 2 ^ 63 ∧
    max floor 1 + reserveBatch < 2 ^ 63
  deriving Decidable

/-- No row brings the id that is free when an earlier row takes one. -/
def NoRepeat (floor : Int) (rows : List (List Value)) : Prop :=
  ∀ i < rows.length, rows[i]?.any (isAuto ai) →
    freeId ai (max floor 1) (rows.take i) ∉ (rows.drop (i + 1)).filterMap (explicitId ai)

instance (floor : Int) (rows : List (List Value)) : Decidable (NoRepeat ai floor rows) :=
  inferInstanceAs (Decidable (∀ i < rows.length, _))

end

/-! ## The closed form -/

variable {ai : Nat} {row : List Value} {rows : List (List Value)} {next : Int}

/-- The id that is free after one more row. -/
def raise (ai : Nat) (next : Int) (row : List Value) : Int :=
  if isAuto ai row then next + 1 else ((explicitId ai row).map fun n => max next (n + 1)).getD next

@[simp] theorem freeId_nil (ai : Nat) (next : Int) : freeId ai next [] = next := by
  simp [freeId]

theorem explicitId_of_isAuto (h : isAuto ai row) : explicitId ai row = none := by
  unfold isAuto needsAuto at h
  unfold explicitId
  rcases Bool.or_eq_true_iff.mp h with h | h
  · rw [beq_iff_eq.mp h]
  · rw [beq_iff_eq.mp h]
    rfl

theorem explicitId_eq_some {k : Int} (h : explicitId ai row = some k) :
    ∃ n : BitVec 64, row[ai]? = some (.int n) ∧ n.toInt = k := by
  unfold explicitId given at h
  split at h
  · next n hn =>
    split at h
    · cases h
    · cases h
      cases hr : row[ai]? with
      | none => rw [hr] at hn; cases hn
      | some v => rw [hr] at hn; exact ⟨n, congrArg some hn, rfl⟩
  · cases h

theorem freeId_cons (next : Int) (row : List Value) (rows : List (List Value)) :
    freeId ai next (row :: rows) = freeId ai (raise ai next row) rows := by
  unfold freeId raise
  rw [tails_cons, filterMap_cons, countP_cons]
  by_cases hauto : isAuto ai row
  · simp only [head?_cons, bind_some, explicitId_of_isAuto hauto, hauto, map_none, if_true]
    congr 1
    omega
  · cases he : explicitId ai row with
    | none => simp [he, hauto]
    | some n =>
      simp only [head?_cons, bind_some, he, map_some, hauto, foldl_cons, getD_some]
      congr 1
      simp

theorem le_raise (ai : Nat) (next : Int) (row : List Value) : next ≤ raise ai next row := by
  unfold raise
  split
  · omega
  · cases explicitId ai row with
    | none => exact le_rfl
    | some n => exact le_max_left _ _

theorem lt_raise {n : Int} (h : explicitId ai row = some n) : n < raise ai next row := by
  have hauto : isAuto ai row ≠ true := fun hauto => by
    rw [explicitId_of_isAuto hauto] at h
    cases h
  rw [raise, if_neg hauto, h, map_some, getD_some]
  omega

theorem le_freeId (ai : Nat) (next : Int) (rows : List (List Value)) :
    next ≤ freeId ai next rows := by
  induction rows generalizing next with
  | nil => simp
  | cons row rows ih =>
    rw [freeId_cons]
    exact (le_raise ai next row).trans (ih _)

/-! ## What a walk allocates -/

/-- The ids that rows with the column take. -/
def idsFrom (ai : Nat) : Int → List (List Value) → List Int
  | _, [] => []
  | next, row :: rows =>
    (if isAuto ai row ∧ ai < row.length then [next] else []) ++ idsFrom ai (raise ai next row) rows

theorem mem_idsFrom {k : Int} (h : k ∈ idsFrom ai next rows) :
    next ≤ k ∧ k < freeId ai next rows := by
  induction rows generalizing next with
  | nil => cases h
  | cons row rows ih =>
    rw [freeId_cons]
    rcases mem_append.mp h with h | h
    · split at h
      · next ht =>
        obtain rfl := mem_singleton.mp h
        have := le_freeId ai (raise ai k row) rows
        rw [raise, if_pos ht.1] at this ⊢
        omega
      · cases h
    · have := le_raise ai next row
      have := ih h
      omega

theorem idsFrom_pairwise (ai : Nat) (next : Int) (rows : List (List Value)) :
    (idsFrom ai next rows).Pairwise (· < ·) := by
  induction rows generalizing next with
  | nil => exact .nil
  | cons row rows ih =>
    rw [idsFrom]
    split
    · next ht =>
      refine pairwise_cons.mpr ⟨fun k hk => ?_, ih _⟩
      have := (mem_idsFrom hk).1
      rw [raise, if_pos ht.1] at this
      omega
    · exact ih _

theorem idsFrom_repeat_iff (hwide : ∀ row ∈ rows, ai < row.length) :
    (∀ k ∈ idsFrom ai next rows, k ∉ rows.filterMap (explicitId ai)) ↔
      ∀ i < rows.length, rows[i]?.any (isAuto ai) →
        freeId ai next (rows.take i) ∉ (rows.drop (i + 1)).filterMap (explicitId ai) := by
  induction rows generalizing next with
  | nil => simp [idsFrom]
  | cons row rows ih =>
    rw [length_cons, Nat.forall_lt_succ_left']
    have ih := @ih (raise ai next row) fun r hr => hwide r (mem_cons_of_mem _ hr)
    simp only [getElem?_cons_succ, take_succ_cons, drop_succ_cons, freeId_cons, ← ih]
    rw [idsFrom, filterMap_cons]
    by_cases hauto : isAuto ai row
    · simp [hauto, hwide row mem_cons_self, explicitId_of_isAuto hauto]
    · cases he : explicitId ai row with
      | none => simp [hauto]
      | some n =>
        -- the ids after an explicit one are above it
        have hne : ∀ k ∈ idsFrom ai (raise ai next row) rows, k ≠ n := fun k hk => by
          have := (mem_idsFrom hk).1
          have : n < raise ai next row := lt_raise he
          omega
        simp +contextual [hauto, hne]

theorem wrapI64_eq {x : Int} (h0 : 0 ≤ x) (h : x < 2 ^ 63) : wrapI64 x = x := by
  rw [wrapI64, Int.bmod_eq_of_le_mul_two]
  · omega
  · omega

theorem ofInt_inj {a b : Int} (ha : 0 ≤ a) (ha' : a < 2 ^ 63) (hb : 0 ≤ b) (hb' : b < 2 ^ 63)
    (h : BitVec.ofInt 64 a = BitVec.ofInt 64 b) : a = b := by
  have := congrArg BitVec.toInt h
  rw [BitVec.toInt_ofInt, BitVec.toInt_ofInt] at this
  rwa [show (a.bmod (2 ^ 64)) = a from wrapI64_eq ha ha',
    show (b.bmod (2 ^ 64)) = b from wrapI64_eq hb hb'] at this

def idValue (k : Int) : Value := .int (BitVec.ofInt 64 k)

theorem autoIds_cons (ai : Nat) (row out : List Value) (rows outs : List (List Value)) :
    autoIds ai (row :: rows) (out :: outs) =
      (if isAuto ai row then out[ai]?.toList else []) ++ autoIds ai rows outs := by
  rw [autoIds, zip_cons_cons, filterMap_cons]
  split
  · next h => split at h <;> simp_all [autoIds, isAuto, given]
  · next h => split at h <;> simp_all [autoIds, isAuto, given]

/-- One row of the walk. -/
theorem assignFrom_cons {w : Walk} (hpos : 0 ≤ w.next) (hfit : raise ai w.next row < 2 ^ 63) :
    ∃ row' firstAuto, assignFrom ai w (row :: rows) =
        (row' :: (assignFrom ai ⟨raise ai w.next row, firstAuto⟩ rows).1,
          (assignFrom ai ⟨raise ai w.next row, firstAuto⟩ rows).2) ∧
      (if isAuto ai row then row'[ai]?.toList else []) =
        (if isAuto ai row ∧ ai < row.length then [idValue w.next] else []) := by
  unfold raise at hfit ⊢
  by_cases hauto : isAuto ai row
  · rw [if_pos hauto] at hfit
    simp only [hauto, if_true, true_and]
    refine ⟨row.set ai (idValue w.next), w.firstAuto.or (some w.next), ?_, ?_⟩
    · unfold isAuto given at hauto
      rw [assignFrom, if_pos hauto, wrapI64_eq (by omega) hfit]
      rfl
    · split
      · next hai => rw [getElem?_set_self hai, toList_some]
      · next hai => rw [getElem?_eq_none (by simpa using hai), toList_none]
  · rw [if_neg hauto] at hfit
    refine ⟨row, w.firstAuto, ?_, by simp [hauto]⟩
    rw [if_neg hauto]
    unfold isAuto given at hauto
    unfold explicitId given at hfit ⊢
    rw [assignFrom, if_neg hauto]
    generalize row[ai]?.getD Value.null = v at hauto hfit ⊢
    cases v with
    | int n =>
      have hzero : n ≠ 0 := fun hzero => hauto (by simp [hzero, needsAuto])
      simp only [hzero, if_false, map_some, getD_some] at hfit ⊢
      split
      · next hle => rw [wrapI64_eq (by omega) (by omega), max_eq_right (by omega)]
      · next hlt => rw [max_eq_left (by omega)]
    | _ => rfl

theorem assignFrom_spec {w : Walk} (hpos : 0 ≤ w.next) (hfit : freeId ai w.next rows < 2 ^ 63) :
    autoIds ai rows (assignFrom ai w rows).1 = (idsFrom ai w.next rows).map idValue ∧
      (assignFrom ai w rows).2.next = freeId ai w.next rows := by
  induction rows generalizing w with
  | nil => exact ⟨rfl, (freeId_nil ai w.next).symm⟩
  | cons row rows ih =>
    rw [freeId_cons] at hfit ⊢
    have hle := le_raise ai w.next row
    have htop := le_freeId ai (raise ai w.next row) rows
    obtain ⟨row', firstAuto, hstep, hid⟩ :=
      @assignFrom_cons ai row rows w hpos (htop.trans_lt hfit)
    obtain ⟨hids, hnext⟩ := @ih ⟨raise ai w.next row, firstAuto⟩ (hpos.trans hle) hfit
    rw [hstep, autoIds_cons, hids, hid, idsFrom, map_append]
    refine ⟨?_, hnext⟩
    split
    · rfl
    · rfl

/-! ## The counter -/

theorem parseI64_i64Text {x : Int} (h0 : 0 ≤ x) (h : x < 2 ^ 63) :
    parseI64 (i64Text x) = some x := by
  obtain ⟨n, rfl⟩ := Int.eq_ofNat_of_zero_le h0
  change parseI64 (decimal n) = some (n : Int)
  unfold parseI64
  split
  · next ds hds =>
    -- no digit is a minus sign
    have hminus : isDigit 0x2d = true := isDigit_of_mem_decimal (n := n) (by rw [hds]; simp)
    exact absurd hminus (by decide)
  · rw [parseDec_decimal (by omega)]
    rfl

theorem persistTarget_bounds {floor : Int} {w : Walk} (hone : 1 ≤ floor)
    (hfloor : floor + reserveBatch < 2 ^ 63) (hw : w.next < 2 ^ 63) :
    w.next ≤ persistTarget floor w ∧ persistTarget floor w < 2 ^ 63 := by
  unfold persistTarget
  rw [reserveBatch] at *
  cases w.firstAuto with
  | none => exact ⟨le_refl _, hw⟩
  | some _ =>
    dsimp only
    rw [wrapI64_eq (by omega) (by omega)]
    omega

/-- A call hands out ids between the counter it finds and the counter it leaves. -/
theorem allocate_spec (kv : Kv) (n : String) (rows : List (List Value)) (ai : Nat)
    (hfit : freeId ai (sequenceNext kv n) rows < 2 ^ 63)
    (hfloor : sequenceNext kv n + reserveBatch < 2 ^ 63) :
    autoIds ai rows (allocate kv n rows ai).2 =
        (idsFrom ai (sequenceNext kv n) rows).map idValue ∧
      (∀ k ∈ idsFrom ai (sequenceNext kv n) rows,
        sequenceNext kv n ≤ k ∧ k < sequenceNext (allocate kv n rows ai).1 n ∧ k < 2 ^ 63) ∧
      sequenceNext kv n ≤ sequenceNext (allocate kv n rows ai).1 n ∧
      SameButCounter n kv (allocate kv n rows ai).1 := by
  have hone := one_le_sequenceNext kv n
  dsimp only [allocate]
  generalize hf : sequenceNext kv n = floor at hfit hfloor hone ⊢
  have hassign : assign rows ai floor = assignFrom ai ⟨floor, none⟩ rows := by
    rw [assign, max_eq_left hone]
  obtain ⟨hids, hnext⟩ := assignFrom_spec (w := ⟨floor, none⟩) (by dsimp only; omega) hfit
  rw [hassign]
  dsimp only at hids hnext
  generalize assignFrom ai ⟨floor, none⟩ rows = r at hids hnext ⊢
  obtain ⟨htarget, htop⟩ := persistTarget_bounds (w := r.2) hone hfloor (by omega)
  generalize persistTarget floor r.2 = target at htarget htop ⊢
  refine ⟨hids, ?_⟩
  by_cases hraise : floor < target
  · have hleft : sequenceNext (kv.put (sequenceKey n) (i64Text target)) n = target := by
      rw [sequenceNext_put_sequenceKey, if_pos rfl, parseI64_i64Text (by omega) htop, getD_some]
      omega
    simp only [hraise, if_true]
    exact ⟨fun k hk => by have := mem_idsFrom hk; omega, by omega, .inr ⟨_, rfl⟩⟩
  · -- the pass has not moved, so it handed out nothing
    simp only [hraise, if_false, hf]
    exact ⟨fun k hk => by have := mem_idsFrom hk; omega, le_refl _, .inl rfl⟩

theorem idValue_nodup {ks : List Int} (hks : ∀ k ∈ ks, 0 ≤ k ∧ k < 2 ^ 63)
    (h : ks.Pairwise (· < ·)) : (ks.map idValue).Nodup := by
  refine Nodup.map_on (fun a ha b hb hab => ?_) (h.imp fun hlt => by omega)
  exact ofInt_inj (hks a ha).1 (hks a ha).2 (hks b hb).1 (hks b hb).2 (Value.int.inj hab)

/-! ## Statements -/

section

variable (table : String) (ai : Nat)

/-- The ids that calls one after the other hand out. -/
def handedOut : Kv → List (List (List Value)) → List Value
  | _, [] => []
  | kv, rows :: stmts =>
    let r := allocate kv table rows ai
    autoIds ai rows r.2 ++ handedOut r.1 stmts

/-- Every call fits from the counter it finds. -/
def AllFit : Kv → List (List (List Value)) → Prop
  | _, [] => True
  | kv, rows :: stmts =>
    Fits ai (sequenceNext kv table) rows ∧ AllFit (allocate kv table rows ai).1 stmts

end

theorem handedOut_spec {table : String} {kv : Kv} {stmts : List (List (List Value))}
    (h : AllFit table ai kv stmts) :
    ∃ ks : List Int, handedOut table ai kv stmts = ks.map idValue ∧ ks.Pairwise (· < ·) ∧
      ∀ k ∈ ks, sequenceNext kv table ≤ k ∧ k < 2 ^ 63 := by
  induction stmts generalizing kv with
  | nil => exact ⟨[], rfl, .nil, nofun⟩
  | cons rows stmts ih =>
    obtain ⟨⟨-, hfit, hfloor⟩, hrest⟩ := h
    rw [max_eq_left (one_le_sequenceNext kv table)] at hfit hfloor
    obtain ⟨hids, hks, hle, -⟩ := allocate_spec kv table rows ai hfit hfloor
    obtain ⟨ks, hout, hpair, hmem⟩ := ih hrest
    refine ⟨idsFrom ai (sequenceNext kv table) rows ++ ks, ?_, ?_, fun k hk => ?_⟩
    · rw [handedOut, hids, hout, map_append]
    · refine pairwise_append.mpr ⟨idsFrom_pairwise _ _ _, hpair, fun a ha b hb => ?_⟩
      have := hks a ha
      have := hmem b hb
      omega
    · rcases mem_append.mp hk with hk | hk
      · exact ⟨(hks k hk).1, (hks k hk).2.2⟩
      · exact ⟨hle.trans (hmem k hk).1, (hmem k hk).2⟩

theorem idValue_mem_explicitValues {k : Int} (h0 : 0 < k) (h : k < 2 ^ 63) :
    idValue k ∈ explicitValues ai rows ↔ k ∈ rows.filterMap (explicitId ai) := by
  have hk : (BitVec.ofInt 64 k).toInt = k := by
    rw [BitVec.toInt_ofInt]
    exact wrapI64_eq h0.le h
  have hzero : BitVec.ofInt 64 k ≠ 0 := fun hzero => by
    rw [hzero] at hk
    simp at hk
    omega
  simp only [explicitValues, mem_filter, List.mem_map, mem_filterMap]
  constructor
  · rintro ⟨⟨row, hrow, hv⟩, -⟩
    refine ⟨row, hrow, ?_⟩
    simp only [explicitId, hv, idValue, hzero, if_false, hk]
  · rintro ⟨row, hrow, he⟩
    have hv : given ai row = idValue k := by
      obtain ⟨n, hn, rfl⟩ := explicitId_eq_some he
      rw [given, hn, idValue, BitVec.ofInt_toInt, getD_some]
    exact ⟨⟨row, hrow, hv⟩, by simpa [idValue, needsAuto] using hzero⟩

/-- The ids of a statement are different, not below the floor and no explicit id of the statement,
exactly if no row brings an id that an earlier row has taken; the ids of calls one after the other
are always different. -/
theorem auto_ids_unique_iff (ai : Nat) :
    (∀ floor rows, Fits ai floor rows →
      (((autoIds ai rows (assign rows ai floor).1).Nodup ∧
        ∀ v ∈ autoIds ai rows (assign rows ai floor).1,
          (∃ n : BitVec 64, v = .int n ∧ floor ≤ n.toInt) ∧ v ∉ explicitValues ai rows) ↔
        NoRepeat ai floor rows)) ∧
    ∀ table kv stmts, AllFit table ai kv stmts → (handedOut table ai kv stmts).Nodup := by
  refine ⟨fun floor rows hfit => ?_, fun table kv stmts hfit => ?_⟩
  · obtain ⟨hwide, hfree, -⟩ := hfit
    have hids : autoIds ai rows (assign rows ai floor).1 =
        (idsFrom ai (max floor 1) rows).map idValue :=
      (assignFrom_spec (w := ⟨max floor 1, none⟩) (by dsimp only; omega) hfree).1
    have hbounds : ∀ k ∈ idsFrom ai (max floor 1) rows, floor ≤ k ∧ 0 < k ∧ k < 2 ^ 63 :=
      fun k hk => by
        have := mem_idsFrom hk
        omega
    have hnodup := idValue_nodup (fun k hk => ⟨(hbounds k hk).2.1.le, (hbounds k hk).2.2⟩)
      (idsFrom_pairwise ai (max floor 1) rows)
    rw [hids, NoRepeat, ← idsFrom_repeat_iff hwide, and_iff_right hnodup, List.forall_mem_map]
    refine forall₂_congr fun k hk => ?_
    obtain ⟨hfloor, h0, htop⟩ := hbounds k hk
    have hge : floor ≤ (BitVec.ofInt 64 k).toInt := by
      rw [BitVec.toInt_ofInt]
      exact hfloor.trans (wrapI64_eq h0.le htop).ge
    rw [idValue_mem_explicitValues h0 htop, and_iff_right ⟨_, rfl, hge⟩]
  · obtain ⟨ks, hout, hpair, hks⟩ := handedOut_spec hfit
    rw [hout]
    refine idValue_nodup (fun k hk => ⟨?_, (hks k hk).2⟩) hpair
    exact (Int.zero_le_ofNat 1).trans ((one_le_sequenceNext kv table).trans (hks k hk).1)

/-- An explicit id above the counter, and the batch behind the first of two statements. -/
theorem auto_ids_unique_two :
    autoIds 0 [[.null], [.int 5], [.null]] (assign [[.null], [.int 5], [.null]] 0 1).1 =
        [.int 1, .int 6] ∧
      (∀ v ∈ autoIds 0 [[.null], [.int 5], [.null]] (assign [[.null], [.int 5], [.null]] 0 1).1,
        v ∉ explicitValues 0 [[.null], [.int 5], [.null]]) ∧
      handedOut "t" 0 SortedMap.empty [[[.null], [.int 5], [.null]], [[.int 0]]] =
        [.int 1, .int 6, .int 65] ∧
      (handedOut "t" 0 SortedMap.empty [[[.null], [.int 5], [.null]], [[.int 0]]]).Nodup := by
  have hids := ((auto_ids_unique_iff 0).1 1 [[.null], [.int 5], [.null]]
    (by decide +kernel)).mpr (by decide +kernel)
  refine ⟨by decide +kernel, fun v hv => (hids.2 v hv).2, by decide +kernel,
    (auto_ids_unique_iff 0).2 "t" _ _ ⟨by decide +kernel, by decide +kernel, trivial⟩⟩

/-- A row takes id 1 and the next row brings it. -/
theorem explicit_id_repeats :
    Fits 0 1 [[.null], [.int 1]] ∧
      autoIds 0 [[.null], [.int 1]] (assign [[.null], [.int 1]] 0 1).1 = [.int 1] ∧
      explicitValues 0 [[.null], [.int 1]] = [.int 1] := by
  decide +kernel

end Rdb.Ddl
