import Rdb.Ds.Keys
import Rdb.Index.Maintain
import Rdb.Sql.KeyOrder

/-!
# Index lookups

The entries of an index share a slot and stand in the order of their values. A range
lookup walks from the lower bound and splits each key into value and primary key; a point
lookup of a secondary index takes up every key that starts with the encoded value. The
encoding of a text is not the end of such a prefix: a longer text whose next character is
NUL goes on with the byte that escapes it. Neither walk asks whose key it reads, and a raw
string can have a name that goes on from the slot as an entry does.

* `splitTail_encodeKey`: a key is split behind its value.
* `HoldsEntries.lookupRange_perm`: the range lookup finds the values of the range.
-/

namespace Rdb.Index

open Lib Sql List Option
open List.Perm (of_eq)

/-! ## Keys -/

/-- The end of a string behind its tag: the first `00` that no `FF` follows. -/
def terminator : Bytes → Option Nat
  | [] => none
  | [x] => if x = 0x00 then some 1 else none
  | x :: y :: rest =>
    if x ≠ 0x00 then (terminator (y :: rest)).map (· + 1)
    else if y = 0xff then (terminator rest).map (· + 2)
    else some 1

def terminatorLen (tail : Bytes) : Option Nat := (terminator (tail.drop 1)).map (· + 1)

/-- The encoded value at the head of a tail, and the primary key behind it. -/
def splitTail (tail : Bytes) (ty : SqlType) : Option (Bytes × Bytes) := do
  let fixed ← match ty with
    | .bool => some 2
    | .int | .double | .date | .dateTime => some 9
    | .decimal _ _ => some 17
    | .varChar | .blob => terminatorLen tail
  splitAtChecked fixed tail

/-! ## Lookups -/

/-- The type of a column; the error stands for the panic on a position that is too large. -/
def colTy (t : TableDef) (pos : Nat) : Except String SqlType :=
  match t.columns[pos]? with
  | some col => .ok col.sqlType
  | none => .error "index out of bounds"

section

variable (store : Store) (t : TableDef) (index : IndexDef)

def uniqueOwner (value : Value) : Except String (Option Bytes) :=
  if value = .null ∨ index.unique = false then .ok none
  else do
    let pos ← columnPos t index
    return uniqueOwnerByKey store (uniqueKey t.id pos (encodeKey value))

def entryPk (ty : SqlType) (key : Bytes) : Option Bytes := do
  let ik ← parseIndexKey key
  let r ← splitTail ik.rest ty
  return r.2

def lookupPks (value : Value) : Except String (List Bytes) :=
  if value = .null then .ok []
  else do
    let pos ← columnPos t index
    if index.unique then
      let owner ← uniqueOwner store t index value
      return owner.toList
    else
      let ty ← colTy t pos
      let pre := secondaryKey t.id pos (encodeKey value) []
      return store.forEachFrom pre false (fun pks key _ =>
        if pre <+: key then (pks ++ (entryPk ty key).toList, true) else (pks, false)) []

def indexKind : UInt8 := if index.unique then kindSqlUniqueIndex else kindSqlIndex

/-- One key of the range walk under the prefix of the index, up to the encoded upper bound. -/
def rangeVisit (pre : Bytes) (ty : SqlType) (hi : Bytes) (pks : List Bytes) (key val : Bytes) :
    List Bytes × Bool :=
  if pre <+: key then
    match parseIndexKey key with
    | none => (pks, true)
    | some ik =>
      if ik.kind ≠ indexKind index then (pks, true)
      else match splitTail ik.rest ty with
        | some (ck, pk) =>
          if ck ≤ hi then
            (if index.unique then (if val = [] then pks else pks ++ [val]) else pks ++ [pk], true)
          else (pks, false)
        | none => (pks, true)
  else (pks, false)

def lookupRange (low high : Value) : Except String (List Bytes) := do
  let pos ← columnPos t index
  if encodeKey high < encodeKey low then return []
  else
    let ty ← colTy t pos
    let pre := indexPrefix t.id pos (indexKind index)
    return store.forEachFrom (pre ++ encodeKey low) false
      (rangeVisit index pre ty (encodeKey high)) []

end

/-! ## Entries -/

variable {x : Bytes}

theorem terminator_escape (b : Bytes) (hx : Tame x) :
    terminator (escape b ++ 0x00 :: x) = some ((escape b).length + 1) := by
  induction b with
  | nil =>
    cases x with
    | nil => rfl
    | cons y x =>
      have hy : y ≠ 0xff := fun he => hx (he ▸ rfl)
      change terminator (0x00 :: y :: x) = some 1
      rw [terminator, if_neg (not_not.mpr rfl), if_neg hy]
  | cons y b ih =>
    by_cases hy : y = 0
    · subst hy
      rw [escape_cons_zero, cons_append, cons_append, terminator, ih]
      rfl
    · rw [escape_cons hy, cons_append]
      cases hr : escape b ++ 0x00 :: x with
      | nil => exact absurd hr (by simp)
      | cons z rest =>
        rw [hr] at ih
        rw [terminator, if_pos hy, ih]
        rfl

variable {v : Value}

theorem splitTail_encodeKey {ty : SqlType} (h : ty.Has v) (hx : Tame x) :
    splitTail (encodeKey v ++ x) ty = some (encodeKey v, x) := by
  have hfix : ∀ {n : Nat}, (encodeKey v).length = n →
      splitAtChecked n (encodeKey v ++ x) = some (encodeKey v, x) :=
    fun hn => splitAtChecked_append hn x
  have hvar : ∀ {tag : UInt8} {b : Bytes}, encodeKey v = tag :: (escape b ++ [0x00]) →
      ((terminatorLen (encodeKey v ++ x)).bind fun n => splitAtChecked n (encodeKey v ++ x)) =
        some (encodeKey v, x) := by
    intro tag b hv
    have hlen : terminatorLen (encodeKey v ++ x) = some (encodeKey v).length := by
      rw [hv, terminatorLen, cons_append, drop_succ_cons, drop_zero,
        append_assoc, singleton_append, terminator_escape b hx]
      simp
    rw [hlen, bind_some, hfix rfl]
  obtain ⟨hty, -⟩ := h
  cases ty <;> cases v <;> simp only [Value.isOf, Bool.false_eq_true] at hty
  all_goals first
    | exact hvar rfl
    | exact hfix (n := 2) rfl
    | exact hfix (n := 9) (by simp [encodeKey, keyInt])
    | exact hfix (n := 17) (by simp [encodeKey, keyDecimal])

theorem parseIndexKey_indexPrefix (tableId colPos : Nat) {kind : UInt8}
    (hk : kind = kindSqlIndex ∨ kind = kindSqlUniqueIndex) {rest : Bytes} (hne : rest ≠ []) :
    ∃ ik, parseIndexKey (indexPrefix tableId colPos kind ++ rest) = some ik ∧ ik.kind = kind ∧
      ik.rest = rest := by
  have hpos := length_pos_iff.mpr hne
  have hslot : indexSlot tableId colPos < 2 ^ 16 := lt_trans (Nat.mod_lt _ (by decide)) (by decide)
  have hkind := Decidable.or_iff_not_not_and_not.mp hk
  rw [indexPrefix, append_assoc, cons_append, parseIndexKey, splitSlash_slotPrefix]
  simp only [parseDec_decimal (show indexSlot tableId colPos < 2 ^ 32 by omega), bind_some]
  rw [if_neg (by omega), if_neg hkind, if_neg (by simp [length_beBytes]; omega)]
  exact ⟨_, rfl, rfl, drop_left' (by simp [length_beBytes])⟩

/-- The table has the column of the index at the position, with the type. -/
structure Indexed (t : TableDef) (index : IndexDef) (pos : Nat) (ty : SqlType) : Prop where
  column : t.columnIndex index.column = some pos
  type : (t.columns[pos]?).map (·.sqlType) = some ty

theorem Indexed.colTy_eq {t : TableDef} {index : IndexDef} {pos : Nat} {ty : SqlType}
    (h : Indexed t index pos ty) : colTy t pos = .ok ty := by
  obtain ⟨col, hcol, rfl⟩ := map_eq_some_iff.mp h.type
  rw [colTy, hcol]

/-- What stands behind the prefix of the index in the entry of a value and a primary key. -/
def entryTail (index : IndexDef) (p : Value × Bytes) : Bytes :=
  encodeKey p.1 ++ if index.unique then [] else p.2

def pairEntry (t : TableDef) (index : IndexDef) (pos : Nat) (p : Value × Bytes) : Bytes × Bytes :=
  (entryKey t index pos ⟨p.2, []⟩ p.1, entryValue index ⟨p.2, []⟩)

/-- The store holds the entries of the pairs. -/
structure HoldsEntries (store : Store) (t : TableDef) (index : IndexDef) (pos : Nat) (ty : SqlType)
    (pairs : List (Value × Bytes)) : Prop where
  nodup : pairs.Nodup
  typed : ∀ p ∈ pairs, ty.Has p.1
  pk : ∀ p ∈ pairs, ∃ v vs, p.2 = (v :: vs).flatMap encodeKey
  unique : index.unique → (pairs.map (·.1)).Nodup
  stored : ∀ p ∈ pairs, pairEntry t index pos p ∈ store.entries

/-- Under the prefix of the index there is no other key. -/
def NoForeign (store : Store) (t : TableDef) (index : IndexDef) (pos : Nat)
    (pairs : List (Value × Bytes)) : Prop :=
  ∀ e ∈ store.entries, indexPrefix t.id pos (indexKind index) <+: e.1 →
    ∃ p ∈ pairs, pairEntry t index pos p = e

section

variable {store : Store} {t : TableDef} {index : IndexDef} {pos : Nat} {ty : SqlType}
  {pairs : List (Value × Bytes)}

theorem fst_pairEntry (p : Value × Bytes) : (pairEntry t index pos p).1 =
    indexPrefix t.id pos (indexKind index) ++ entryTail index p := by
  unfold pairEntry entryKey entryTail indexKind
  cases index.unique <;> simp [secondaryKey, uniqueKey]

theorem parseIndexKey_pairEntry (t : TableDef) (index : IndexDef) (pos : Nat) (p : Value × Bytes) :
    ∃ ik, parseIndexKey (pairEntry t index pos p).1 = some ik ∧
      ik.kind = indexKind index ∧ ik.rest = entryTail index p := by
  rw [fst_pairEntry]
  refine parseIndexKey_indexPrefix t.id pos ?_ fun hnil => ?_
  · unfold indexKind
    cases index.unique <;> simp
  · exact encodeKey_ne_nil p.1 (append_eq_nil_iff.mp hnil).1

theorem encodeKey_lt_iff {w : Value} (hv : ty.Has v) (hw : ty.Has w) :
    encodeKey v < encodeKey w ↔ v.lt w := by
  have hnil : Tame [] := nofun
  have h := embeds_encodeKey ty v w hv hw [] [] hnil hnil
  rw [append_nil, append_nil] at h
  rw [h]
  simp

variable {p : Value × Bytes} (h : HoldsEntries store t index pos ty pairs)
include h

theorem HoldsEntries.tame (hp : p ∈ pairs) : Tame (if index.unique then [] else p.2) := by
  obtain ⟨v, vs, hv⟩ := h.pk p hp
  split
  · nofun
  · rw [hv]
    exact tame_encodeKey v _

theorem HoldsEntries.pk_ne_nil (hp : p ∈ pairs) : p.2 ≠ [] := by
  obtain ⟨w, ws, hw⟩ := h.pk p hp
  rw [hw]
  exact fun hnil => encodeKey_ne_nil w (append_eq_nil_iff.mp hnil).1

theorem HoldsEntries.split (hp : p ∈ pairs) : splitTail (entryTail index p) ty =
      some (encodeKey p.1, if index.unique then [] else p.2) :=
  splitTail_encodeKey (h.typed p hp) (h.tame hp)

theorem HoldsEntries.perm (hf : NoForeign store t index pos pairs) :
    (store.entries.filter fun e => decide (indexPrefix t.id pos (indexKind index) <+: e.1)).Perm
      (pairs.map (pairEntry t index pos)) := by
  refine (perm_ext_iff_of_nodup ?_ ?_).mpr fun e => ?_
  · exact (List.Nodup.of_map _ store.nodup_keys).filter _
  · refine h.nodup.map_on fun p hp q hq heq => ?_
    -- the value is read from the key, the primary key from the key or the value
    have htail : entryTail index p = entryTail index q := by
      have := congrArg Prod.fst heq
      rwa [fst_pairEntry, fst_pairEntry, append_cancel_left_eq] at this
    have hsplit := h.split hp
    rw [htail, h.split hq, some.injEq, Prod.mk.injEq] at hsplit
    have hval : entryValue index ⟨p.2, []⟩ = entryValue index ⟨q.2, []⟩ := congrArg Prod.snd heq
    refine Prod.ext ((h.typed p hp).eq_of_encodeKey (h.typed q hq) hsplit.1.symm) ?_
    unfold entryValue at hval
    cases hu : index.unique <;> simp_all
  · rw [mem_filter, List.mem_map, decide_eq_true_iff]
    constructor
    · rintro ⟨he, hpre⟩
      exact hf e he hpre
    · rintro ⟨p, hp, rfl⟩
      refine ⟨h.stored p hp, ?_⟩
      rw [fst_pairEntry]
      exact prefix_append _ _

/-- What a walk takes up of an entry. -/
def entryOwner (index : IndexDef) (ty : SqlType) (e : Bytes × Bytes) : Option Bytes :=
  if index.unique then if e.2 = [] then none else some e.2 else entryPk ty e.1

theorem HoldsEntries.entryOwner_eq (hp : p ∈ pairs) :
    entryOwner index ty (pairEntry t index pos p) = some p.2 := by
  rw [entryOwner]
  cases hu : index.unique with
  | true =>
    have hval : (pairEntry t index pos p).2 = p.2 := if_pos hu
    rw [if_pos rfl, hval, if_neg (h.pk_ne_nil hp)]
  | false =>
    obtain ⟨ik, hparse, -, hrest⟩ := parseIndexKey_pairEntry t index pos p
    rw [entryPk, hparse]
    simp only [bind_eq_bind, bind_some]
    rw [hrest, h.split hp, hu]
    rfl

theorem HoldsEntries.collect_perm (hf : NoForeign store t index pos pairs)
    {p : Bytes × Bytes → Bool}
    (hp : ∀ e, p e → indexPrefix t.id pos (indexKind index) <+: e.1) :
    ((store.entries.filter p).filterMap (entryOwner index ty)).Perm
      ((pairs.filter fun q => p (pairEntry t index pos q)).map (·.2)) := by
  have hsub : store.entries.filter p = (store.entries.filter fun e =>
      decide (indexPrefix t.id pos (indexKind index) <+: e.1)).filter p := by
    rw [List.filter_filter]
    refine filter_congr fun e _ => ?_
    cases hpe : p e with
    | false => rfl
    | true => rw [decide_eq_true (hp e hpe)]; rfl
  rw [hsub]
  refine (((h.perm hf).filter p).filterMap _).trans (of_eq ?_)
  rw [List.filter_map, filterMap_map, ← filterMap_eq_map]
  refine filterMap_congr fun q hq => ?_
  exact h.entryOwner_eq (mem_filter.mp hq).1

/-! ## The point lookup -/

theorem HoldsEntries.isPrefix_iff (hv : ty.Has v) (hp : p ∈ pairs) :
    encodeKey v <+: entryTail index p ↔ encodeKey v <+: encodeKey p.1 := by
  refine ⟨fun hpre => ?_, fun hpre => hpre.trans (prefix_append _ _)⟩
  rcases prefix_or_prefix_of_prefix hpre (prefix_append _ _) with hle | ⟨z, hz⟩
  · exact hle
  · -- the bytes behind a value are not those that go on with a longer one
    have htail : Tame z := by
      obtain ⟨x, hx⟩ := hpre
      have hy : z ++ x = if index.unique then [] else p.2 := by
        rw [entryTail, ← hz, append_assoc, append_cancel_left_eq] at hx
        exact hx
      cases z with
      | nil => nofun
      | cons b z =>
        have := h.tame hp
        rw [← hy] at this
        exact this
    have hsplit := splitTail_encodeKey (h.typed p hp) htail
    have hnil : Tame [] := nofun
    have hself := splitTail_encodeKey hv hnil
    rw [append_nil] at hself
    rw [hz, hself, some.injEq, Prod.mk.injEq] at hsplit
    rw [hsplit.1]

theorem HoldsEntries.lookupPks_unique (hi : Indexed t index pos ty)
    (hf : NoForeign store t index pos pairs) (hu : index.unique) (hv : ty.Has v) :
    ∃ pks, lookupPks store t index v = .ok pks ∧
      pks.Perm ((pairs.filter fun p => decide (p.1 = v)).map (·.2)) := by
  let key := uniqueKey t.id pos (encodeKey v)
  have hrun : lookupPks store t index v = .ok (uniqueOwnerByKey store key).toList := by
    have hpos : columnPos t index = .ok pos := by rw [columnPos, hi.column]
    rw [lookupPks, if_neg (SqlType.Has.ne_null hv)]
    simp only [hu]
    rw [uniqueOwner, if_neg (by simp [SqlType.Has.ne_null hv, hu]), hpos]
    rfl
  have hkey : ∀ q ∈ pairs, (pairEntry t index pos q).1 = key ↔ q.1 = v := by
    intro q hq
    have hkind : indexKind index = kindSqlUniqueIndex := if_pos hu
    rw [fst_pairEntry, hkind, entryTail, if_pos hu, append_nil,
      show key = indexPrefix t.id pos kindSqlUniqueIndex ++ encodeKey v from rfl,
      append_cancel_left_eq]
    exact ⟨(h.typed q hq).eq_of_encodeKey hv, fun he => he ▸ rfl⟩
  refine ⟨_, hrun, ?_⟩
  have hpre : ∀ e : Bytes × Bytes, decide (e.1 = key) →
      indexPrefix t.id pos (indexKind index) <+: e.1 := fun e he => by
    rw [of_decide_eq_true he, show indexKind index = kindSqlUniqueIndex from if_pos hu]
    exact prefix_append _ _
  have hfind : (store.entries.filter fun e => decide (e.1 = key)).filterMap (entryOwner index ty) =
      (uniqueOwnerByKey store key).toList := by
    have howner : ∀ e, entryOwner index ty e = if e.2 = [] then none else some e.2 :=
      fun e => if_pos hu
    rw [uniqueOwnerByKey]
    cases hget : store.get key with
    | none =>
      rw [SortedMap.filter_entries_eq (l := []) .nil]
      · rfl
      · intro e
        refine ⟨fun he => absurd he not_mem_nil, fun he => ?_⟩
        rw [of_decide_eq_true he.2, hget] at he
        cases he.1
    | some x =>
      rw [SortedMap.filter_entries_eq (l := [(key, x)]) (pairwise_singleton _ _)]
      · rw [filterMap_cons, howner]
        cases x <;> rfl
      · intro e
        rw [mem_singleton, decide_eq_true_iff]
        constructor
        · rintro rfl
          exact ⟨hget, rfl⟩
        · rintro ⟨he, hk⟩
          rw [hk, hget] at he
          exact Prod.ext hk (some.inj he).symm
  rw [← hfind]
  refine (h.collect_perm hf hpre).trans
    (of_eq (congrArg _ (filter_congr fun q hq => ?_)))
  exact decide_eq_decide.mpr (hkey q hq)

theorem HoldsEntries.lookupPks_secondary (hi : Indexed t index pos ty)
    (hf : NoForeign store t index pos pairs) (hu : index.unique = false) (hv : ty.Has v) :
    ∃ pks, lookupPks store t index v = .ok pks ∧
      pks.Perm ((pairs.filter fun p => decide (encodeKey v <+: encodeKey p.1)).map (·.2)) := by
  let pre := secondaryKey t.id pos (encodeKey v) []
  have hkind : indexKind index = kindSqlIndex := if_neg (by rw [hu]; decide)
  have hpre : pre = indexPrefix t.id pos (indexKind index) ++ encodeKey v := by
    rw [hkind]
    exact append_nil _
  have hrun : lookupPks store t index v = .ok (store.forEachFrom pre false (fun pks key _ =>
      if pre <+: key then (pks ++ (entryPk ty key).toList, true) else (pks, false)) []) := by
    rw [lookupPks, if_neg (SqlType.Has.ne_null hv), columnPos, hi.column]
    simp only [bind, Except.bind, hu, hi.colTy_eq]
    rfl
  have hwalk : store.forEachFrom pre false (fun pks key _ =>
      if pre <+: key then (pks ++ (entryPk ty key).toList, true) else (pks, false)) [] =
      (store.entries.filter fun e => decide (pre <+: e.1)).filterMap (entryOwner index ty) := by
    refine store.collect_prefix fun pks k v _ => ?_
    simp only [entryOwner, hu, Bool.false_eq_true, if_false]
  refine ⟨_, hrun, ?_⟩
  rw [hwalk]
  refine (h.collect_perm hf fun e he => ?_).trans
    (of_eq (congrArg _ (filter_congr fun q hq => decide_eq_decide.mpr ?_)))
  · exact (hpre ▸ prefix_append _ _ : indexPrefix t.id pos (indexKind index) <+: pre).trans
      (of_decide_eq_true he)
  · rw [fst_pairEntry, hpre, prefix_append_right_inj]
    exact h.isPrefix_iff hv hq

/-! ## The range lookup -/

def within (low high w : Value) : Bool := !decide (w.lt low) && !decide (high.lt w)

theorem HoldsEntries.entryTail_lt_iff (hp : p ∈ pairs) (hv : ty.Has v) (hx : Tame x) :
    entryTail index p < encodeKey v ++ x ↔
      p.1.lt v ∨ p.1 = v ∧ (if index.unique then [] else p.2) < x :=
  embeds_encodeKey ty p.1 v (h.typed p hp) hv _ _ (h.tame hp) hx

def entryCol (ty : SqlType) (key : Bytes) : Bytes :=
  ((parseIndexKey key).bind fun ik => splitTail ik.rest ty).elim [] (·.1)

theorem HoldsEntries.entryCol_eq (hp : p ∈ pairs) :
    entryCol ty (pairEntry t index pos p).1 = encodeKey p.1 := by
  obtain ⟨ik, hparse, -, hrest⟩ := parseIndexKey_pairEntry t index pos p
  rw [entryCol, hparse, bind_some, hrest, h.split hp, elim_some]

theorem HoldsEntries.rangeVisit_eq (hf : NoForeign store t index pos pairs) {e : Bytes × Bytes}
    (he : e ∈ store.entries) (hi : Bytes) (pks : List Bytes) :
    rangeVisit index (indexPrefix t.id pos (indexKind index)) ty hi pks e.1 e.2 =
      if decide (indexPrefix t.id pos (indexKind index) <+: e.1 ∧ entryCol ty e.1 ≤ hi) then
        (pks ++ (entryOwner index ty e).toList, true) else (pks, false) := by
  by_cases hpre : indexPrefix t.id pos (indexKind index) <+: e.1
  · obtain ⟨p, hp, rfl⟩ := hf e he hpre
    obtain ⟨ik, hparse, hkind, hrest⟩ := parseIndexKey_pairEntry t index pos p
    rw [rangeVisit, hparse, h.entryOwner_eq hp, h.entryCol_eq hp]
    simp only [hkind, hrest, h.split hp, hpre]
    have hval : index.unique → (pairEntry t index pos p).2 = p.2 := fun hu => if_pos hu
    cases hu : index.unique with
    | true =>
      have hne := h.pk_ne_nil hp
      simp [hval hu, hne]
    | false => simp
  · rw [rangeVisit, if_neg hpre, if_neg (by simp [hpre])]

theorem HoldsEntries.closed_range (hf : NoForeign store t index pos pairs) {start : Bytes}
    (hstart : indexPrefix t.id pos (indexKind index) <+: start) (hi : Bytes) :
    (store.entries.filter fun e => decide (start ≤ e.1)).Pairwise fun a b =>
      decide (indexPrefix t.id pos (indexKind index) <+: a.1 ∧ entryCol ty a.1 ≤ hi) = false →
        decide (indexPrefix t.id pos (indexKind index) <+: b.1 ∧ entryCol ty b.1 ≤ hi) = false := by
  have hle : ∀ e ∈ store.entries.filter fun e => decide (start ≤ e.1),
      indexPrefix t.id pos (indexKind index) ≤ e.1 := fun e he =>
    (le_of_isPrefix hstart).trans (of_decide_eq_true (mem_filter.mp he).2)
  have hclosed := (Store.outside_stays (store.sorted.filter _) hle).and (store.sorted.filter _)
  refine hclosed.imp_of_mem fun {a b} ha hb hab hout => decide_eq_false fun hin => ?_
  refine of_decide_eq_false hout ?_
  have hpre : indexPrefix t.id pos (indexKind index) <+: a.1 := by
    by_contra hno
    exact hab.1 hno hin.1
  refine ⟨hpre, le_trans ?_ hin.2⟩
  obtain ⟨p, hp, rfl⟩ := hf a (mem_filter.mp ha).1 hpre
  obtain ⟨q, hq, rfl⟩ := hf b (mem_filter.mp hb).1 hin.1
  have hlt := hab.2
  rw [fst_pairEntry, fst_pairEntry, append_lt_append_iff] at hlt
  rw [h.entryCol_eq hp, h.entryCol_eq hq]
  rcases (h.entryTail_lt_iff hp (h.typed q hq) (h.tame hq)).mp hlt with hv | ⟨hv, -⟩
  · exact le_of_lt ((encodeKey_lt_iff (h.typed p hp) (h.typed q hq)).mpr hv)
  · rw [hv]

theorem HoldsEntries.lookupRange_perm (hi : Indexed t index pos ty)
    (hf : NoForeign store t index pos pairs) {low high : Value} (hlow : ty.Has low)
    (hhigh : ty.Has high) : ∃ pks, lookupRange store t index low high = .ok pks ∧
      pks.Perm ((pairs.filter fun p => within low high p.1).map (·.2)) := by
  have hcol : columnPos t index = .ok pos := by rw [columnPos, hi.column]
  have hwithin : ∀ p ∈ pairs, within low high p.1 ↔
      ¬ p.1.lt low ∧ encodeKey p.1 ≤ encodeKey high := by
    intro p hp
    rw [within, Bool.and_eq_true, Bool.not_eq_true', decide_eq_false_iff_not, Bool.not_eq_true',
      decide_eq_false_iff_not, ← encodeKey_lt_iff hhigh (h.typed p hp), not_lt]
  rw [lookupRange, hcol]
  simp only [bind, Except.bind]
  by_cases hgap : encodeKey high < encodeKey low
  · refine ⟨[], if_pos hgap, of_eq ?_⟩
    rw [filter_eq_nil_iff.mpr, map_nil]
    intro p hp hin
    obtain ⟨hlo, hhi⟩ := (hwithin p hp).mp hin
    rw [← encodeKey_lt_iff (h.typed p hp) hlow, not_lt] at hlo
    exact absurd (hlo.trans hhi) (not_le.mpr hgap)
  · let pre := indexPrefix t.id pos (indexKind index)
    refine ⟨_, by rw [if_neg hgap, hi.colTy_eq]; rfl, ?_⟩
    have hwalk : store.forEachFrom (pre ++ encodeKey low) false
        (rangeVisit index pre ty (encodeKey high)) [] =
        (store.entries.filter fun e => decide (pre <+: e.1 ∧ entryCol ty e.1 ≤ encodeKey high) &&
          decide (pre ++ encodeKey low ≤ e.1)).filterMap (entryOwner index ty) := by
      refine (foldUntil_collectWhile (fun pks e he =>
        h.rangeVisit_eq hf (mem_filter.mp he).1 (encodeKey high) pks) ?_ []).trans ?_
      · exact h.closed_range hf (prefix_append _ _) (encodeKey high)
      · rw [List.filter_filter]
        rfl
    rw [hwalk]
    refine (h.collect_perm hf fun e he => ?_).trans
      (of_eq (congrArg _ (filter_congr fun q hq => ?_)))
    · exact (of_decide_eq_true (Bool.and_eq_true_iff.mp he).1).1
    · have hnil : Tame [] := fun hhead => by cases hhead
      have hlo := h.entryTail_lt_iff hq hlow hnil
      rw [append_nil] at hlo
      rw [Bool.eq_iff_iff, Bool.and_eq_true, decide_eq_true_iff, decide_eq_true_iff, hwithin q hq,
        h.entryCol_eq hq, fst_pairEntry, append_le_append_iff, ← not_lt (b := encodeKey low), hlo]
      simp [pre, and_comm]

/-! ## Exact lookups -/

omit h

/-- Both lookups find the primary keys of their values, each as often as it is there. -/
structure LookupsExact (store : Store) (t : TableDef) (index : IndexDef)
    (pairs : List (Value × Bytes)) (v low high : Value) : Prop where
  point : ∃ pks, lookupPks store t index v = .ok pks ∧
    pks.Perm ((pairs.filter fun p => decide (p.1 = v)).map (·.2))
  range : ∃ pks, lookupRange store t index low high = .ok pks ∧
    pks.Perm ((pairs.filter fun p => within low high p.1).map (·.2))

end

/-- A table with a number as its primary key and a secondary index on a text. -/
def tagTable : TableDef :=
  { id := 1, name := "tags", engine := .row, pk := ["id"],
    columns := [{ name := "id", sqlType := .int, nullable := false },
      { name := "tag", sqlType := .varChar, nullable := true }],
    indexes := [⟨1, "by_tag", "tag", false⟩] }

def byTag : IndexDef := ⟨1, "by_tag", "tag", false⟩

/-- The entries of two rows: 1 with the text "a", 2 with another text. -/
def twoTags (other : String) : List (Value × Bytes) :=
  [(.str "a", encodeKey (.int 1)), (.str other, encodeKey (.int 2))]

def tagStore (other : String) : Store :=
  SortedMap.ofList ((twoTags other).map (pairEntry tagTable byTag 1))

theorem indexed_byTag : Indexed tagTable byTag 1 .varChar := ⟨by decide +kernel, by decide +kernel⟩

theorem holdsEntries_tagStore {other : String} (hne : "a" ≠ other)
    (hstore : (tagStore other).entries = (twoTags other).map (pairEntry tagTable byTag 1)) :
    HoldsEntries (tagStore other) tagTable byTag 1 .varChar (twoTags other) := by
  refine ⟨nodup_cons.mpr ⟨fun h => ?_, nodup_singleton _⟩, ?_, ?_, nofun, fun p hp => ?_⟩
  · exact hne (Value.str.inj (Prod.mk.inj (mem_singleton.mp h)).1)
  · intro p hp
    rcases mem_pair.mp hp with rfl | rfl <;> exact ⟨rfl, trivial⟩
  · intro p hp
    rcases mem_pair.mp hp with rfl | rfl
    · exact ⟨.int 1, [], rfl⟩
    · exact ⟨.int 2, [], rfl⟩
  · rw [hstore]
    exact mem_map_of_mem hp

/-- A raw string whose name goes on from the slot like an entry for the text "a". -/
def tagLike : Ds.UserKey :=
  ⟨[0x21, 0, 0, 0, 1, 0, 0, 0, 1, 0x04, 0x61, 0x00, 0x7b, 0x73, 0x39, 0x7d], by decide⟩

end Rdb.Index
