import Rdb.Command.ListRefine

/-!
# LREM, LTRIM and LINSERT on two windows

A command that drops entries from the middle closes the gaps of each side it touches:
the top of the window stays where it is, and what is left is written below it
(`compactSide_written`). An insert moves the part of a window above its place up by one.
-/

namespace Rdb.Command

open Lib Ds ListDs List

/-! ## Compaction -/

def keptOf (live : List (Nat × Bytes)) (kill : List Nat) : List (Nat × Bytes) :=
  live.filter fun e => !kill.contains e.1

def windowOf (left : Bool) (es : List (Nat × Bytes)) : List Bytes :=
  if left then (es.map (·.2)).reverse else es.map (·.2)

theorem length_windowOf (left : Bool) (es : List (Nat × Bytes)) :
    (windowOf left es).length = es.length := by
  cases left
  · exact length_map _
  · exact length_reverse.trans (length_map _)

/-- Where the entry at a position of the kept ones goes. -/
def target (left : Bool) (next count j : Nat) : Nat :=
  if left then next - 1 - j else next - count + j

variable {left : Bool} {i : Nat}

theorem map_target_zipIdx (left : Bool) {next : Nat} {es : List (Nat × Bytes)}
    (hle : es.length ≤ next) :
    es.zipIdx.map (fun x => (target left next es.length x.2, x.1.2)) =
      inOrder left (indexed (next - es.length) (windowOf left es)) := by
  cases left
  · refine ext_getElem? fun j => ?_
    simp [inOrder, indexed, windowOf, target, Function.comp_def]
  · refine ext_getElem (by simp [inOrder, indexed, windowOf]) fun j hj _ => ?_
    rw [length_map, length_zipIdx] at hj
    have hrev : es.length - 1 - (es.length - 1 - j) = j := by omega
    simp only [inOrder, indexed, windowOf, target, if_true, getElem_map, getElem_zipIdx,
      getElem_reverse, length_map, length_zipIdx, length_reverse, hrev]
    refine Prod.ext ?_ rfl
    omega

theorem length_inOrder (left : Bool) (es : List (Nat × Bytes)) : (inOrder left es).length = es.length := by
  cases left
  · rfl
  · exact length_reverse

theorem length_keptOf_le (left : Bool) (base : Nat) (w : List Bytes) (kill : List Nat) :
    (keptOf (inOrder left (indexed base w)) kill).length ≤ w.length := by
  have hfilter : (keptOf (inOrder left (indexed base w)) kill).length ≤
      (inOrder left (indexed base w)).length := length_filter_le _ _
  rwa [length_inOrder, length_indexed] at hfilter

variable {w : List Bytes}

theorem newest_inOrder (left : Bool) (base : Nat) (hne : w ≠ []) :
    ∃ x, (if left then (inOrder left (indexed base w)).head?
      else (inOrder left (indexed base w)).getLast?) = some (base + w.length - 1, x) := by
  obtain ⟨ys, y, rfl⟩ := (eq_nil_or_concat w).resolve_left hne
  have hlast : (indexed base (ys.concat y)).getLast? = some (base + ys.length, y) := by
    rw [concat_eq_append, indexed_append, getLast?_append]
    rfl
  have hlen : base + (ys.concat y).length - 1 = base + ys.length := by
    rw [length_concat]
    omega
  rw [hlen]
  cases left
  · exact ⟨y, hlast⟩
  · refine ⟨y, ?_⟩
    show (indexed base (ys.concat y)).reverse.head? = _
    rw [head?_reverse, hlast]

/-- The writes of a compaction, on indices: the deletes of the dropped and the moved entries, then
the entries that are left. -/
def compactOps (left : Bool) (next : Nat) (kept : List (Nat × Bytes)) (kill : List Nat) :
    List (BatchOp Nat Bytes) :=
  replaceOps
    (kill ++ kept.zipIdx.filterMap fun (e, j) =>
      if e.1 ≠ target left next kept.length j then some e.1 else none)
    (kept.zipIdx.map fun (e, j) => (target left next kept.length j, e.2))

theorem compactSide_eq (k : UserKey) (left : Bool) (base : Nat) (hne : w ≠ []) (kill : List Nat) :
    compactSide k (inOrder left (indexed base w)) kill left =
      ((compactOps left (base + w.length) (keptOf (inOrder left (indexed base w)) kill) kill).map
        (sideOp left k), (keptOf (inOrder left (indexed base w)) kill).length) := by
  obtain ⟨x, hx⟩ := newest_inOrder left base hne
  have hpos : 0 < w.length := length_pos_of_ne_nil hne
  have hnext : base + w.length - 1 + 1 = base + w.length := by omega
  unfold compactSide
  rw [hx]
  dsimp only
  rw [hnext]
  refine Prod.ext ?_ rfl
  unfold compactOps replaceOps keptOf
  simp only [map_append, map_map, map_filterMap]
  refine congrArg₂ (· ++ ·) (congrArg₂ (· ++ ·) rfl ?_) rfl
  refine congrFun (congrArg filterMap (funext fun x => ?_)) _
  have hif : ∀ t : Nat, (if x.1.1 ≠ t then some (delSide left k x.1.1) else none) =
      ((if x.1.1 ≠ t then some x.1.1 else none).map .del).map (sideOp left k) := fun t => by
    split <;> rfl
  exact hif _

variable {base : Nat}

theorem compactOps_written (kill : List Nat) (i : Nat) :
    let kept := keptOf (inOrder left (indexed base w)) kill
    written (compactOps left (base + w.length) kept kill) (window base w) i =
      window (base + w.length - kept.length) (windowOf left kept) i := by
  intro kept
  have hle : kept.length ≤ base + w.length :=
    (length_keptOf_le left base w kill).trans (Nat.le_add_left _ _)
  have hputs : ∀ e : Nat × Bytes,
      (e ∈ kept.zipIdx.map fun x => (target left (base + w.length) kept.length x.2, x.1.2)) ↔
        window (base + w.length - kept.length) (windowOf left kept) e.1 = some e.2 := fun e => by
    rw [map_target_zipIdx left hle, mem_inOrder, mem_indexed]
  refine written_rewrite hputs (fun i x hw hnone => ?_) i
  rw [mem_append]
  by_cases hkill : i ∈ kill
  · exact .inl hkill
  · -- an entry that is kept and not rewritten in its place has moved
    right
    have hmem : (i, x) ∈ kept :=
      mem_filter.mpr ⟨mem_inOrder.mpr (mem_indexed.mpr hw), by simpa using hkill⟩
    obtain ⟨j, hj⟩ := mem_iff_getElem?.mp hmem
    refine mem_filterMap.mpr ⟨((i, x), j), mem_zipIdx_iff_getElem?.mpr hj, if_pos ?_⟩
    intro heq
    have hput := (hputs (i, x)).mp (mem_map.mpr ⟨((i, x), j),
      mem_zipIdx_iff_getElem?.mpr hj, Prod.ext heq.symm rfl⟩)
    rw [hnone] at hput
    cases hput

variable {kill : List Nat}

theorem compactOps_lt (hb : base + w.length < 2 ^ 64) (hkill : ∀ i ∈ kill, i < 2 ^ 64) :
    let kept := keptOf (inOrder left (indexed base w)) kill
    ∀ op ∈ compactOps left (base + w.length) kept kill, op.key < 2 ^ 64 := by
  intro kept op hop
  have hle : kept.length ≤ w.length := length_keptOf_le left base w kill
  have hkept : ∀ e ∈ kept, e.1 < 2 ^ 64 := by
    intro e he
    have := lt_of_window (mem_indexed.mp (mem_inOrder.mp (mem_filter.mp he).1))
    omega
  rcases mem_append.mp hop with hop | hop
  · obtain ⟨i, hi, rfl⟩ := mem_map.mp hop
    rcases mem_append.mp hi with hi | hi
    · exact hkill i hi
    · obtain ⟨⟨e, j⟩, hmem, he⟩ := mem_filterMap.mp hi
      rw [Option.ite_none_right_eq_some] at he
      rw [← Option.some.inj he.2]
      exact hkept e (mem_of_getElem? (mem_zipIdx_iff_getElem?.mp hmem))
  · obtain ⟨e, he, rfl⟩ := mem_map.mp hop
    rw [map_target_zipIdx left (by omega), mem_inOrder, mem_indexed] at he
    have := lt_of_window he
    rw [length_windowOf] at this
    show e.1 < 2 ^ 64
    omega

/-! ## The commit of LREM and LTRIM -/

section

variable {store : Store} {lists : Lists} {k : UserKey}

theorem keptOf_nil (live : List (Nat × Bytes)) : keptOf live [] = live :=
  filter_eq_self.mpr fun _ _ => rfl

theorem windowOf_inOrder (left : Bool) (base : Nat) (w : List Bytes) :
    windowOf left (inOrder left (indexed base w)) = w := by
  cases left
  · exact map_snd_indexed base w
  · show ((indexed base w).reverse.map (·.2)).reverse = w
    rw [map_reverse, reverse_reverse, map_snd_indexed]

variable {w : Bool → List Bytes} {m : ListMeta}

theorem compacted_side (hl : Laid store k m w) (left : Bool)
    (hkill : ∀ i ∈ kill, ∃ e ∈ inOrder left (indexed (m.base left) (w left)), e.1 = i) :
    let live := inOrder left (indexed (m.base left) (w left))
    let done := if kill.isEmpty then ([], m.count left) else compactSide k live kill left
    done.2 = (keptOf live kill).length ∧
      ∃ ops : List (BatchOp Nat Bytes), done.1 = ops.map (sideOp left k) ∧ (∀ op ∈ ops, op.key < 2 ^ 64) ∧
        ∀ i, written ops (window (m.base left) (w left)) i =
          window (m.next left - (keptOf live kill).length) (windowOf left (keptOf live kill)) i := by
  intro live done
  have hbase := hl.base left
  have hroom := hl.room left
  by_cases hnil : kill = []
  · subst hnil
    have hlen : (keptOf live []).length = (w left).length := by
      rw [keptOf_nil, length_inOrder, length_indexed]
    refine ⟨(hl.count left).trans hlen.symm, [], rfl, nofun, fun i => ?_⟩
    have hb : m.next left - (w left).length = m.base left := by omega
    rw [hlen, keptOf_nil, windowOf_inOrder, hb]
    rfl
  · have hne : w left ≠ [] := by
      intro hw
      obtain ⟨i, hi⟩ := exists_mem_of_ne_nil kill hnil
      obtain ⟨e, he, -⟩ := hkill i hi
      rw [hw, mem_inOrder] at he
      cases he
    have hlt : ∀ i ∈ kill, i < 2 ^ 64 := by
      intro i hi
      obtain ⟨e, he, rfl⟩ := hkill i hi
      have := lt_of_window (mem_indexed.mp (mem_inOrder.mp he))
      omega
    have hdone : done = _ :=
      (if_neg (by simpa using hnil)).trans (compactSide_eq k left (m.base left) hne kill)
    rw [hdone]
    refine ⟨rfl, _, rfl, compactOps_lt (by omega) hlt, fun i => ?_⟩
    rw [← hbase]
    exact compactOps_written kill i

theorem Refines.commit_kills (h : Refines store lists) (hl : Laid store k m w)
    (kill : Bool → List Nat)
    (hkill : ∀ left, ∀ i ∈ kill left, ∃ e ∈ collectSide store k m left, e.1 = i) :
    Refines (commitKills store k 0 m (collectSide store k m true) (collectSide store k m false)
        (kill true) (kill false))
      (Function.update lists k ((keptOf (collectSide store k m true) (kill true)).map (·.2) ++
        (keptOf (collectSide store k m false) (kill false)).map (·.2))) := by
  simp only [hl.collectSide] at hkill ⊢
  obtain ⟨hcountL, opsL, hopsL, hltL, hwL⟩ := compacted_side hl true (hkill true)
  obtain ⟨hcountR, opsR, hopsR, hltR, hwR⟩ := compacted_side hl false (hkill false)
  have hcL : m.count true = m.lCount := rfl
  have hcR : m.count false = m.rCount := rfl
  unfold commitKills
  rw [hcL] at hcountL hopsL
  rw [hcR] at hcountR hopsR
  generalize (if (kill true).isEmpty then ([], m.lCount) else compactSide k _ _ true) = doneL
    at hcountL hopsL
  generalize (if (kill false).isEmpty then ([], m.rCount) else compactSide k _ _ false) = doneR
    at hcountR hopsR
  obtain ⟨batchL, lCount⟩ := doneL
  obtain ⟨batchR, rCount⟩ := doneR
  subst hcountL hopsL hcountR hopsR
  have hfits : Fits { m with
      lCount := (keptOf (inOrder true (indexed (m.base true) (w true))) (kill true)).length
      rCount := (keptOf (inOrder false (indexed (m.base false) (w false))) (kill false)).length }
      fun l => windowOf l (keptOf (inOrder l (indexed (m.base l) (w l))) (kill l)) := by
    have hle := fun l => (length_windowOf l _).trans_le
      ((length_keptOf_le l (m.base l) (w l) (kill l)).trans (hl.le l))
    refine ⟨hl.expire, fun l => ?_, fun l => ?_, fun l => ?_⟩
    · cases l <;> exact (length_windowOf _ _).symm
    · cases l <;> exact hle _
    · cases l <;> exact hl.room _
  have href := h.commit ((onSides_map true k opsL).append (onSides_map false k opsR)) hfits
    ((Open.of_laid hl).write_both true hltL hltR hwL hwR)
  rwa [seq, windowOf, if_pos rfl, reverse_reverse] at href

/-! ## LREM -/

def entryId (v : Bool × Nat × Bytes) : Bool × Nat := (v.1, v.2.1)

variable {visit : List (Bool × Nat × Bytes)} {elem : Bytes} {n : Nat}

theorem mem_lremKills {x : Bool × Nat}
    (h : x ∈ lremKills elem n visit) : ∃ v ∈ visit, entryId v = x := by
  induction visit generalizing n with
  | nil => cases n <;> cases h
  | cons v visit ih =>
    cases n with
    | zero => cases h
    | succ n =>
      rw [lremKills] at h
      split at h
      · rcases mem_cons.mp h with rfl | h
        · exact ⟨_, mem_cons_self, rfl⟩
        · obtain ⟨v, hv, hx⟩ := ih h
          exact ⟨v, mem_cons_of_mem _ hv, hx⟩
      · obtain ⟨v, hv, hx⟩ := ih h
        exact ⟨v, mem_cons_of_mem _ hv, hx⟩

theorem eraseFirst_zero (elem : Bytes) (xs : List Bytes) : eraseFirst elem 0 xs = xs := by
  cases xs <;> rfl

theorem filter_lremKills (elem : Bytes) (hnd : (visit.map entryId).Nodup) (n : Nat) :
    (visit.filter fun v => !(lremKills elem n visit).contains (entryId v)).map (·.2.2) =
      eraseFirst elem n (visit.map (·.2.2)) := by
  induction visit generalizing n with
  | nil => cases n <;> rfl
  | cons v visit ih =>
    rw [map_cons, nodup_cons] at hnd
    have hne : ∀ u ∈ visit, entryId u ≠ entryId v := fun u hu he =>
      hnd.1 (he ▸ mem_map_of_mem hu)
    obtain ⟨isLeft, idx, e⟩ := v
    cases n with
    | zero =>
      exact congrArg _ (filter_eq_self.mpr fun _ _ => rfl)
    | succ n =>
      rw [map_cons, eraseFirst, lremKills]
      by_cases he : e = elem
      · rw [if_pos he, if_pos he, ← ih hnd.2 n, filter_cons_of_neg (by simp [entryId])]
        refine congrArg _ (filter_congr fun u hu => ?_)
        rw [contains_cons]
        have hfalse : (entryId u == (isLeft, idx)) = false := beq_eq_false_iff_ne.mpr (hne u hu)
        rw [hfalse, Bool.false_or]
      · rw [if_neg he, if_neg he, ← ih hnd.2 (n + 1), filter_cons_of_pos]
        · rfl
        · rw [Bool.not_eq_true', contains_eq_mem, decide_eq_false_iff_not]
          intro hmem
          obtain ⟨u, hu, hid⟩ := mem_lremKills hmem
          exact hne u hu hid

theorem length_lremKills (elem : Bytes) (visit : List (Bool × Nat × Bytes)) (n : Nat) :
    (lremKills elem n visit).length + (eraseFirst elem n (visit.map (·.2.2))).length =
      visit.length := by
  induction visit generalizing n with
  | nil => cases n <;> rfl
  | cons v visit ih =>
    cases n with
    | zero =>
      rw [eraseFirst_zero, length_map]
      exact Nat.zero_add _
    | succ n =>
      rw [map_cons, eraseFirst, lremKills]
      split
      · have := ih n
        rw [length_cons, length_cons]
        omega
      · have := ih (n + 1)
        rw [length_cons, length_cons]
        omega

theorem eraseFirst_eq_filter {xs : List Bytes} (h : xs.length ≤ n) :
    eraseFirst elem n xs = xs.filter (· ≠ elem) := by
  induction xs generalizing n with
  | nil => cases n <;> rfl
  | cons x xs ih =>
    obtain ⟨n, rfl⟩ : ∃ j, n = j + 1 := ⟨n - 1, by rw [length_cons] at h; omega⟩
    rw [length_cons] at h
    rw [eraseFirst]
    by_cases hx : x = elem
    · rw [if_pos hx, filter_cons_of_neg (by simpa using hx)]
      exact ih (by omega)
    · rw [if_neg hx, filter_cons_of_pos (by simpa using hx), ih (by omega)]

theorem keptOf_kills (left : Bool) (live : List (Nat × Bytes)) (kills : List (Bool × Nat)) :
    (keptOf live ((kills.filter fun x => x.1 == left).map (·.2))).map (·.2) =
      ((live.map fun e => (left, e.1, e.2)).filter fun v => !kills.contains (entryId v)).map (·.2.2) := by
  rw [filter_map, map_map]
  refine congrArg _ (filter_congr fun e _ => ?_)
  have hmem : e.1 ∈ (kills.filter fun x => x.1 == left).map (·.2) ↔ (left, e.1) ∈ kills := by
    rw [mem_map]
    constructor
    · rintro ⟨⟨l, i⟩, hx, rfl⟩
      obtain ⟨hx, hl⟩ := mem_filter.mp hx
      rw [← eq_of_beq hl]
      exact hx
    · intro h
      exact ⟨(left, e.1), mem_filter.mpr ⟨h, beq_self_eq_true left⟩, rfl⟩
  show (!contains _ e.1) = !contains kills (left, e.1)
  rw [contains_eq_mem, contains_eq_mem, decide_eq_decide.mpr hmem]

theorem map_snd_inOrder (left : Bool) (base : Nat) (w : List Bytes) :
    (inOrder left (indexed base w)).map (·.2) = if left then w.reverse else w := by
  cases left
  · exact map_snd_indexed base w
  · show (indexed base w).reverse.map (·.2) = w.reverse
    rw [map_reverse, map_snd_indexed]

theorem seq_sides (hl : Laid store k m w) :
    (collectSide store k m true).map (·.2) ++ (collectSide store k m false).map (·.2) = seq w := by
  rw [hl.collectSide, hl.collectSide, map_snd_inOrder, map_snd_inOrder]
  rfl

theorem map_visitOf (lside rside : List (Nat × Bytes)) :
    (visitOf lside rside).map (·.2.2) = lside.map (·.2) ++ rside.map (·.2) := by
  rw [visitOf, map_append, map_map, map_map]
  rfl

theorem nodup_inOrder (left : Bool) (base : Nat) (w : List Bytes) :
    ((inOrder left (indexed base w)).map (·.1)).Nodup := by
  have h : ((indexed base w).map (·.1)).Nodup := by
    rw [map_fst_indexed]
    exact nodup_range'
  cases left
  · exact h
  · show ((indexed base w).reverse.map (·.1)).Nodup
    rwa [map_reverse, nodup_reverse]

theorem nodup_visit (hl : Laid store k m w) :
    ((visitOf (collectSide store k m true) (collectSide store k m false)).map entryId).Nodup := by
  have hside : ∀ left, ((collectSide store k m left).map fun e => (left, e.1)).Nodup := by
    intro left
    have hmap : ((collectSide store k m left).map fun e => (left, e.1)) =
        ((collectSide store k m left).map (·.1)).map (Prod.mk left) := by
      rw [map_map]
      rfl
    rw [hmap, hl.collectSide]
    exact (nodup_inOrder left _ _).map fun _ _ h => (Prod.mk.inj h).2
  rw [visitOf, map_append, map_map, map_map]
  refine nodup_append.mpr ⟨hside true, hside false, fun x hx y hy hxy => ?_⟩
  obtain ⟨e, -, rfl⟩ := mem_map.mp hx
  obtain ⟨e', -, rfl⟩ := mem_map.mp hy
  cases (Prod.mk.inj hxy).1

theorem filter_visit (hnd : (visit.map entryId).Nodup) (elem : Bytes) (n : Nat) (backwards : Prop)
    [Decidable backwards] :
    let kills := lremKills elem n (if backwards then visit.reverse else visit)
    let ys := (visit.filter fun v => !kills.contains (entryId v)).map (·.2.2)
    ys = (if backwards then (eraseFirst elem n (visit.map (·.2.2)).reverse).reverse
        else eraseFirst elem n (visit.map (·.2.2))) ∧
      kills.length = visit.length - ys.length := by
  intro kills ys
  have hnd' : ((if backwards then visit.reverse else visit).map entryId).Nodup := by
    split
    · rwa [map_reverse, nodup_reverse]
    · exact hnd
  have herase := filter_lremKills elem hnd' n
  have hlen := length_lremKills elem (if backwards then visit.reverse else visit) n
  have hys : ys = if backwards then (eraseFirst elem n (visit.map (·.2.2)).reverse).reverse
      else eraseFirst elem n (visit.map (·.2.2)) := by
    by_cases hb : backwards
    · simp only [kills, ys, if_pos hb] at herase ⊢
      rw [filter_reverse, map_reverse, map_reverse] at herase
      rw [← herase, reverse_reverse]
    · simpa only [kills, ys, if_neg hb] using herase
  refine ⟨hys, ?_⟩
  rw [hys]
  by_cases hb : backwards
  · simp only [kills, if_pos hb, map_reverse, length_reverse] at hlen ⊢
    omega
  · simp only [kills, if_neg hb] at hlen ⊢
    omega

theorem exists_of_kill {backwards : Prop} [Decidable backwards] (left : Bool)
    (hi : i ∈ ((lremKills elem n
      (if backwards then (visitOf (collectSide store k m true) (collectSide store k m false)).reverse
        else visitOf (collectSide store k m true) (collectSide store k m false))).filter
          fun x => x.1 == left).map (·.2)) :
    ∃ e ∈ collectSide store k m left, e.1 = i := by
  obtain ⟨⟨l, j⟩, hx, rfl⟩ := mem_map.mp hi
  obtain ⟨hx, hl⟩ := mem_filter.mp hx
  obtain ⟨v, hv, hid⟩ := mem_lremKills hx
  have hv : v ∈ visitOf (collectSide store k m true) (collectSide store k m false) := by
    split at hv
    · exact mem_reverse.mp hv
    · exact hv
  have hl : l = left := eq_of_beq hl
  subst hl
  rcases mem_append.mp hv with hv | hv
  all_goals
    obtain ⟨e, he, rfl⟩ := mem_map.mp hv
    cases hid
    exact ⟨e, he, rfl⟩

theorem lrem_agrees (h : Refines store lists) (hraw : store.get k.raw = none) (now : Nat)
    (cnt : Int) (elem : Bytes) :
    Agrees (lrem store now k cnt elem) (Spec.on lists k (Spec.lrem cnt elem)) := by
  unfold lrem
  rcases h.cases k with ⟨hk, hroot, -⟩ | ⟨m, w, hl, hk, hne⟩
  · rw [h.listState_missing hraw hroot]
    refine .same h ?_
    rw [Spec.lrem, hk]
    have hnil : ∀ n, eraseFirst elem n [] = [] := fun n => by cases n <;> rfl
    simp [hnil]
  · rw [h.listState_list hraw hl]
    have hlt := hl.len_lt
    obtain ⟨hys, hlen⟩ := filter_visit (nodup_visit hl) elem
      (if cnt = 0 then 2 ^ 64 - 1 else cnt.natAbs) (cnt < 0)
    have hvals := (map_visitOf _ _).trans (seq_sides hl)
    have hcount : (visitOf (collectSide store k m true) (collectSide store k m false)).length =
        (seq w).length := by
      rw [← hvals, length_map]
    rw [hvals] at hys
    rw [hcount] at hlen
    -- the spec erases as many as the budget of the visit
    have hspec : (if cnt < 0 then (eraseFirst elem (if cnt = 0 then 2 ^ 64 - 1 else cnt.natAbs)
          (seq w).reverse).reverse
        else eraseFirst elem (if cnt = 0 then 2 ^ 64 - 1 else cnt.natAbs) (seq w)) =
        (Spec.lrem cnt elem (seq w)).2 := by
      unfold Spec.lrem
      by_cases h0 : cnt = 0
      · rw [if_neg (by omega), if_pos h0, if_pos h0, eraseFirst_eq_filter (by omega)]
      · rw [if_neg h0, if_neg h0]
        by_cases hneg : cnt < 0
        · rw [if_pos hneg, if_neg (by omega)]
        · rw [if_neg hneg, if_pos (by omega)]
    rw [hspec] at hys
    dsimp only
    generalize hkills : lremKills elem _ _ = kills at hys hlen ⊢
    have href := h.commit_kills hl (fun left => (kills.filter fun x => x.1 == left).map (·.2))
      fun left i hi => exists_of_kill left (hkills.symm ▸ hi)
    rw [keptOf_kills, keptOf_kills, ← map_append, ← filter_append] at href
    have hsum := length_eq_length_filter_add (l := kills) fun x => x.1
    rw [length_map, length_map, ← hsum, hlen]
    simp only [beq_true, beq_false] at href
    refine .new ?_ href
    rw [hk]
    refine Prod.ext ?_ hys.symm
    rw [hys]
    rfl

/-! ## LTRIM -/

/-- The position in the list of the entry at an index of a side. -/
def posOf (m : ListMeta) (left : Bool) (i : Nat) : Nat :=
  if left then m.lBase + m.lCount - 1 - i else m.lCount + (i - m.rBase)

theorem positions_sides (hl : Laid store k m w) :
    (collectSide store k m true).map (fun e => (posOf m true e.1, e.2)) ++
      (collectSide store k m false).map (fun e => (posOf m false e.1, e.2)) = indexed 0 (seq w) := by
  have hleft := map_reverse_indexed (m.base true) 0 (w true)
  simp only [Nat.zero_add] at hleft
  have hright := map_indexed_sub (m.base false) (w true).length (w false)
  rw [hl.collectSide, hl.collectSide, seq, indexed_append, length_reverse, Nat.zero_add, ← hleft,
    ← hright, ← hl.lCount]
  rfl

theorem between_sides (hl : Laid store k m w) (lo hi : Nat) :
    ((collectSide store k m true).filter fun e =>
        decide (lo ≤ posOf m true e.1) && decide (posOf m true e.1 ≤ hi)).map (·.2) ++
      ((collectSide store k m false).filter fun e =>
        decide (lo ≤ posOf m false e.1) && decide (posOf m false e.1 ≤ hi)).map (·.2) =
      ((seq w).drop lo).take (hi + 1 - lo) := by
  have hcut := congrArg (map Prod.snd) (filter_indexed hi (seq w) (Nat.zero_le lo))
  rw [map_snd_indexed, ← positions_sides hl, filter_append, filter_map, filter_map,
    map_append, map_map, map_map] at hcut
  exact hcut

theorem keptOf_filter {live : List (Nat × Bytes)} (hnd : (live.map (·.1)).Nodup)
    (out : Nat × Bytes → Bool) :
    keptOf live ((live.filter out).map (·.1)) = live.filter fun e => !out e := by
  refine filter_congr fun e he => ?_
  congr 1
  rw [contains_eq_mem, Bool.eq_iff_iff, decide_eq_true_eq, mem_map]
  constructor
  · rintro ⟨e', he', hid⟩
    obtain ⟨hmem, hout⟩ := mem_filter.mp he'
    rwa [← inj_on_of_nodup_map hnd hmem he hid]
  · intro hout
    exact ⟨e, mem_filter.mpr ⟨he, hout⟩, rfl⟩

theorem ltrim_agrees (h : Refines store lists) (hraw : store.get k.raw = none) (now : Nat)
    (start stop : Int) :
    Agrees (ltrim store now k start stop) (Spec.on lists k (Spec.ltrim start stop)) := by
  unfold ltrim
  rcases h.cases k with ⟨hk, hroot, -⟩ | ⟨m, w, hl, hk, -⟩
  · rw [h.listState_missing hraw hroot]
    exact .same h (by rw [Spec.ltrim, hk, between_nil])
  · rw [h.listState_list hraw hl]
    dsimp only
    rw [hl.len]
    cases hc : clampRange start stop (seq w).length with
    | none =>
      have hon : OnSides k [] := fun _ hop => nomatch hop
      refine .new ?_ (h.commit_none hon)
      rw [Spec.ltrim, hk, between_of_clampRange_none hl.len_lt hc]
    | some r =>
      obtain ⟨lo, hi⟩ := r
      obtain ⟨-, -, hbetween⟩ := between_of_clampRange_some hl.len_lt hc
      have hin : ∀ p : Nat, (!(decide (p < lo) || decide (hi < p))) =
          (decide (lo ≤ p) && decide (p ≤ hi)) := by
        intro p
        rw [Bool.not_or, ← decide_not, ← decide_not, decide_eq_decide.mpr not_lt,
          decide_eq_decide.mpr not_lt]
      have hnd : ∀ left, ((collectSide store k m left).map (·.1)).Nodup := fun left => by
        rw [hl.collectSide]
        exact nodup_inOrder _ _ _
      have href := h.commit_kills hl (fun left => ((collectSide store k m left).filter fun e =>
        decide (posOf m left e.1 < lo) || decide (hi < posOf m left e.1)).map (·.1)) fun left i hi => by
          obtain ⟨e, he, rfl⟩ := mem_map.mp hi
          exact ⟨e, (mem_filter.mp he).1, rfl⟩
      rw [keptOf_filter (hnd true), keptOf_filter (hnd false)] at href
      simp only [hin] at href
      rw [between_sides hl lo hi, ← hbetween] at href
      exact .new (by rw [Spec.ltrim, hk]) href

/-! ## LINSERT -/

variable {p : Nat}

theorem Refines.commit_insert (h : Refines store lists) (hl : Laid store k m w) (left : Bool)
    (hp : p ≤ (w left).length) {moved : List (Nat × Bytes)}
    (hmoved : ∀ e, e ∈ moved ↔ m.base left + p ≤ e.1 ∧ window (m.base left) (w left) e.1 = some e.2)
    (hroom : m.next left + 1 < 2 ^ 62) (elem : Bytes) :
    let ys := (w left).take p ++ elem :: (w left).drop p
    (pushed m left 1).len = (seq (Function.update w left ys)).length ∧
      Refines (commitList store k 0 (some (pushed m left 1))
          (moved.map (fun e => delSide left k e.1) ++
            moved.reverse.map (fun e => putSide left k (e.1 + 1) e.2) ++
            [putSide left k (m.base left + p) elem]))
        (Function.update lists k (seq (Function.update w left ys))) := by
  intro ys
  have hbase := hl.base left
  have hys : ys.length = (w left).length + 1 := by
    rw [length_append, length_cons, length_take, length_drop]
    omega
  have hfits := fits_pushed hl.toFits hys hroom
  have hlt : ∀ e ∈ moved, e.1 + 1 < 2 ^ 64 := by
    intro e he
    have := lt_of_window ((hmoved e).mp he).2
    omega
  have hbatch : moved.map (fun e => delSide left k e.1) ++
      moved.reverse.map (fun e => putSide left k (e.1 + 1) e.2) ++
      [putSide left k (m.base left + p) elem] =
      (replaceOps (moved.map (·.1))
        (moved.reverse.map (fun e => (e.1 + 1, e.2)) ++ [(m.base left + p, elem)])).map
          (sideOp left k) := by
    simp only [replaceOps, map_append, map_map, append_assoc]
    rfl
  have hne : seq (Function.update w left ys) ≠ [] := by
    intro hnil
    have hlen := hfits.len
    rw [hnil, ListMeta.len] at hlen
    have := hfits.count left
    cases left <;> simp [ListMeta.count] at this hlen <;> omega
  rw [hbatch]
  refine ⟨hfits.len, h.commit_side (.of_laid hl) hfits ?_ (fun i => ?_) (base_pushed m left 1 _) hne⟩
  · intro op hop
    rcases mem_append.mp hop with hop | hop
    · obtain ⟨i, hi, rfl⟩ := mem_map.mp hop
      obtain ⟨e, he, rfl⟩ := mem_map.mp hi
      exact Nat.lt_of_succ_lt (hlt e he)
    · obtain ⟨e, he, rfl⟩ := mem_map.mp hop
      rcases mem_append.mp he with he | he
      · obtain ⟨e', he', rfl⟩ := mem_map.mp he
        exact hlt e' (mem_reverse.mp he')
      · rw [mem_singleton.mp he]
        show m.base left + p < 2 ^ 64
        omega
  · rw [base_pushed]
    exact written_insert _ _ _ elem hp hmoved (fun e => mem_reverse) i

theorem seq_insert_left (hp : p ≤ (w true).length) (elem : Bytes) :
    seq (Function.update w true ((w true).take ((w true).length - p) ++
      elem :: (w true).drop ((w true).length - p))) = (seq w).take p ++ elem :: (seq w).drop p := by
  rw [seq_update_true, reverse_append, reverse_cons, ← take_reverse, ← drop_reverse, seq,
    List.take_append, drop_append, length_reverse, Nat.sub_eq_zero_of_le hp]
  simp

theorem seq_insert_right (hp : (w true).length ≤ p) (elem : Bytes) :
    seq (Function.update w false ((w false).take (p - (w true).length) ++
      elem :: (w false).drop (p - (w true).length))) = (seq w).take p ++ elem :: (seq w).drop p := by
  have htake : (w true).reverse.take p = (w true).reverse :=
    take_of_length_le (by rwa [length_reverse])
  have hdrop : (w true).reverse.drop p = [] := drop_eq_nil_of_le (by rwa [length_reverse])
  rw [seq_update_false, seq, List.take_append, drop_append, length_reverse, htake, hdrop,
    append_assoc, nil_append]

theorem linsert_agrees (h : Refines store lists) (hraw : store.get k.raw = none) (now : Nat)
    (before : Bool) (pivot elem : Bytes) (hroom : Room store k 1) :
    Agrees (linsert store now k before pivot elem) (Spec.on lists k (Spec.linsert before pivot elem)) := by
  unfold linsert
  rcases h.cases k with ⟨hk, hroot, -⟩ | ⟨m, w, hl, hk, hne⟩
  · rw [h.listState_missing hraw hroot]
    exact .same h (by rw [Spec.linsert, if_pos hk])
  · rw [h.listState_list hraw hl]
    dsimp only
    rw [seq_sides hl]
    unfold Room at hroom
    rw [rootMeta_of_laid hl] at hroom
    cases hp : (seq w).idxOf? pivot with
    | none => exact .same h (by rw [Spec.linsert, hk, if_neg hne, hp])
    | some p =>
      have hplt : p < (seq w).length := (idxOf?_eq_some_iff.mp hp).1
      have hplace : p + (if before then 0 else 1) = if before then p else p + 1 := by
        cases before <;> rfl
      dsimp only
      rw [hplace]
      have hspec : Spec.linsert before pivot elem (lists k) =
          (.int ((seq w).take (if before then p else p + 1) ++
            elem :: (seq w).drop (if before then p else p + 1)).length,
            (seq w).take (if before then p else p + 1) ++
              elem :: (seq w).drop (if before then p else p + 1)) := by
        rw [Spec.linsert, hk, if_neg hne, hp]
      have hle : (if before then p else p + 1) ≤ (seq w).length := by
        split <;> omega
      generalize (if before then p else p + 1) = place at hspec hle
      have hlside : (collectSide store k m true).length = (w true).length := by
        rw [hl.collectSide, length_inOrder, length_indexed]
      have hlen : (seq w).length = (w true).length + (w false).length := by
        rw [seq, length_append, length_reverse]
      rw [hlside]
      split
      · next hlt =>
        have hidx : m.lNext - place = m.base true + ((w true).length - place) := by
          have := hl.base true
          show m.next true - place = _
          omega
        have hmoved : ∀ e, e ∈ (collectSide store k m true).take place ↔
            m.base true + ((w true).length - place) ≤ e.1 ∧
              window (m.base true) (w true) e.1 = some e.2 := by
          intro e
          rw [hl.collectSide]
          show e ∈ (indexed (m.base true) (w true)).reverse.take place ↔ _
          rw [take_reverse, length_indexed, drop_indexed _ _ (Nat.sub_le _ _), mem_reverse,
            mem_indexed, window_drop, Option.ite_none_right_eq_some]
        obtain ⟨hnew, href⟩ := h.commit_insert hl true (Nat.sub_le _ _) hmoved (hroom true) elem
        rw [seq_insert_left (le_of_lt hlt)] at hnew href
        rw [hidx]
        exact .new (hspec.trans (by rw [hnew])) href
      · next hge =>
        have hmoved : ∀ e, e ∈ (collectSide store k m false).drop (place - (w true).length) ↔
            m.base false + (place - (w true).length) ≤ e.1 ∧
              window (m.base false) (w false) e.1 = some e.2 := by
          intro e
          rw [hl.collectSide]
          show e ∈ (indexed (m.base false) (w false)).drop _ ↔ _
          rw [drop_indexed _ _ (by omega), mem_indexed, window_drop, Option.ite_none_right_eq_some]
        obtain ⟨hnew, href⟩ := h.commit_insert hl false (by omega) hmoved (hroom false) elem
        rw [seq_insert_right (not_lt.mp hge)] at hnew href
        exact .new (hspec.trans (by rw [hnew])) href

end

end Rdb.Command
