import Rdb.Ds.Codec

/-!
# Keyspace commands of the RESP plane

The commands that walk the whole keyspace decide from the first byte behind the
slot prefix what a record is: KEYS and SCAN by `userEntryOf`, DBSIZE and FLUSHDB
by `recordRole`, CLUSTER GETKEYSINSLOT by `slotEntry`. None of the three knows the
kinds of the SQL plane.

* `get_flushdb`: FLUSHDB deletes the records that are not foreign, and no others.
-/

namespace Rdb.Command

open Lib Ds Sql List SortedMap

/-! ## What a record is -/

/-- Who a record belongs to; a root carries its deadline. -/
inductive RecordRole where
  | root (deadline : Nat)
  | member
  | foreign
  deriving DecidableEq

def recordRole (physical value : Bytes) : RecordRole :=
  match slotPrefixLen physical with
  | none => .foreign
  | some plen => match classify (physical.drop plen) with
    | .raw => .root 0
    | .typed kind =>
      if kind = kindExpireIndex then .member
      else if isUserKeyKind kind then .root (decodeEnvelope value).1
      else if (familyOf kind).isSome then .member
      else .foreign

/-- A whole user key and the name of its type. -/
def userEntryOf (physical : Bytes) : Option (Bytes × String) :=
  (slotPrefixLen physical).bind fun plen =>
    match classify (physical.drop plen) with
    | .raw => some (physical.drop plen, "string")
    | .typed kind =>
      if kind = kindExpireIndex then none
      else if isUserKeyKind kind then
        (decodeDataKey physical plen).map fun d => (d.2.1, typeName kind)
      else none

/-- The user key GETKEYSINSLOT reads off a record of a slot. -/
def slotEntry (prefixLen : Nat) (physical : Bytes) : Option Bytes :=
  match classify (physical.drop prefixLen) with
  | .raw => some (physical.drop prefixLen)
  | .typed _ => match decodeDataKey physical prefixLen with
    | some (_, key, []) => some key
    | _ => none

/-! ## The walkers -/

def toAsciiLower (b : UInt8) : UInt8 := if 0x41 ≤ b ∧ b ≤ 0x5a then b + 0x20 else b

def eqIgnoreCase (arg keyword : Bytes) : Bool := arg.map toAsciiLower == keyword.map toAsciiLower

def typeNameIs (name : Bytes) (want : String) : Bool := eqIgnoreCase name want.toUTF8.toList

/-- A page of SCAN; an empty cursor is the end of the iteration. -/
structure ScanPage where
  keys : List Bytes := []
  next : Bytes := []

/-- What SCAN and KEYS filter by: the glob as the set of keys it matches, and a type name. -/
structure ScanFilter where
  pattern : Option (Bytes → Bool) := none
  typeFilter : Option Bytes := none

def ScanFilter.accepts (f : ScanFilter) (entry : Bytes × String) : Bool :=
  (f.pattern.all fun p => p entry.1) && f.typeFilter.all fun t => typeNameIs t entry.2

/-- Visit one record of a slot; only returned keys count towards the page. -/
def scanVisit (f : ScanFilter) (count : Nat) (page : ScanPage) (k : Bytes) : ScanPage × Bool :=
  match (userEntryOf k).filter f.accepts with
  | some (user, _) =>
    if count ≤ page.keys.length + 1 then ({ keys := page.keys ++ [user], next := k }, false)
    else ({ page with keys := page.keys ++ [user] }, true)
  | none => (page, true)

def collectUserKeys (store : Store) (pre cursor : Bytes) (f : ScanFilter) (count : Nat) :
    ScanPage :=
  -- a cursor before the slot starts at the slot, any other one behind itself
  let (start, excl) := if cursor < pre then (pre, false) else (cursor, true)
  store.forEachFrom start excl
    (fun page k _ => if pre.isPrefixOf k then scanVisit f count page k else (page, false)) {}

def allUserKeys (store : Store) (pre : Bytes) (pattern : Option (Bytes → Bool)) : List Bytes :=
  (collectUserKeys store pre pre { pattern } (store.entries.length + 1)).keys

def countVisit (now : Nat) (c : Nat × Nat) (k v : Bytes) : (Nat × Nat) × Bool :=
  match recordRole k v with
  | .root deadline =>
    if isExpired deadline now then (c, true)
    else ((c.1 + 1, c.2 + if 0 < deadline then 1 else 0), true)
  | _ => (c, true)

/-- The live root keys and those of them with a deadline; DBSIZE answers the first. -/
def keyspaceCounts (store : Store) (now : Nat) : Nat × Nat :=
  store.forEachFrom [] false (countVisit now) (0, 0)

/-- CLUSTER GETKEYSINSLOT: the limit counts records, and `0` is no limit. -/
def clusterGetKeysInSlot (store : Store) (slot count : Nat) : List Bytes :=
  (store.prefixIterCollect (slotPrefix slot) count).filterMap fun e =>
    slotEntry (slotPrefix slot).length e.1

/-! ## FLUSHDB -/

def flushPage : Nat := 1024

structure FlushChunk where
  chunk : List Bytes := []
  resume : Option Bytes := none

def flushVisit (st : FlushChunk) (k v : Bytes) : FlushChunk × Bool :=
  if recordRole k v = .foreign then (st, true)
  else if flushPage ≤ st.chunk.length + 1 then
    ({ chunk := st.chunk ++ [k], resume := some k }, false)
  else ({ st with chunk := st.chunk ++ [k] }, true)

/-- The records one round deletes, and where the next round resumes. -/
def flushScan (store : Store) (cursor : Bytes) : FlushChunk :=
  store.forEachFrom cursor (!cursor.isEmpty) flushVisit {}

def flushdbLoop : Nat → Store → Bytes → Store
  | 0, store, _ => store
  | fuel + 1, store, cursor =>
    let st := flushScan store cursor
    if st.chunk = [] then store
    else match st.resume with
      | some next => flushdbLoop fuel (store.write (st.chunk.map .del)) next
      | none => store.write (st.chunk.map .del)

/-- Every chunk but the last deletes a record, so the records of the store bound the rounds. -/
def flushdb (store : Store) : Store := flushdbLoop (store.entries.length + 1) store []

/-! ## The answers as views of the entries -/

/-- The user key SCAN returns for a record, and the cursor it may stop at. -/
def scanEntry (pre cursor : Bytes) (f : ScanFilter) (e : Bytes × Bytes) : Option (Bytes × Bytes) :=
  if (if cursor < pre then pre ≤ e.1 else cursor < e.1) ∧ pre.isPrefixOf e.1 then
    ((userEntryOf e.1).filter f.accepts).map fun u => (u.1, e.1)
  else none

def pushKey (count : Nat) (page : ScanPage) (x : Bytes × Bytes) : ScanPage × Bool :=
  if count ≤ page.keys.length + 1 then ({ keys := page.keys ++ [x.1], next := x.2 }, false)
  else ({ page with keys := page.keys ++ [x.1] }, true)

theorem scanVisit_eq (f : ScanFilter) (count : Nat) (page : ScanPage) (k : Bytes) :
    scanVisit f count page k = (((userEntryOf k).filter f.accepts).map fun u => (u.1, k)).elim
      (page, true) (pushKey count page) := by
  unfold scanVisit
  cases (userEntryOf k).filter f.accepts with
  | none => rfl
  | some u => rfl

theorem collectUserKeys_eq (store : Store) (pre cursor : Bytes) (f : ScanFilter) (count : Nat) :
    collectUserKeys store pre cursor f count =
      foldUntil (pushKey count) {} (store.entries.filterMap (scanEntry pre cursor f)) := by
  have hrange : ∀ e : Bytes × Bytes, (if cursor < pre then pre ≤ e.1 else cursor < e.1) →
      pre ≤ e.1 := by
    intro e he
    split at he
    · exact he
    · next hc => exact (not_lt.mp hc).trans he.le
  have hstep : collectUserKeys store pre cursor f count =
      foldUntil (fun page e => if pre.isPrefixOf e.1 then scanVisit f count page e.1
          else (page, false)) {}
        (store.entries.filter fun e => if cursor < pre then pre ≤ e.1 else cursor < e.1) := by
    unfold collectUserKeys Store.forEachFrom
    by_cases hc : cursor < pre
    · simp [hc]
    · simp [hc]
  rw [hstep, foldUntil_guard (p := fun e : Bytes × Bytes => pre.isPrefixOf e.1)
    (f := fun page e => scanVisit f count page e.1)]
  · rw [foldUntil_filterMap (fun page e => scanVisit_eq f count page e.1),
      filter_filter, filterMap_filter]
    unfold scanEntry
    simp [and_comm]
  · -- past the end of the slot no key of the slot follows
    refine (store.sorted.filter _).imp_of_mem fun {a b} ha _ hab hpa => ?_
    have hle := hrange a (by simpa using (mem_filter.mp ha).2)
    rw [Bool.eq_false_iff, ne_eq, isPrefixOf_iff_prefix] at hpa ⊢
    exact fun hpb => hpa (isPrefix_of_le_of_le hle hab.le hpb)

theorem foldUntil_pushKey {count : Nat} (keys : List Bytes) (h : keys.length < count)
    (l : List (Bytes × Bytes)) :
    foldUntil (pushKey count) { keys } l = { keys := keys ++ l.map (·.1) } ∨
      ∃ before x after, l = before ++ x :: after ∧ count = keys.length + before.length + 1 ∧
        foldUntil (pushKey count) { keys } l =
          { keys := keys ++ (before ++ [x]).map (·.1), next := x.2 } := by
  induction l generalizing keys with
  | nil => exact .inl (by simp)
  | cons x l ih =>
    by_cases hfull : count ≤ keys.length + 1
    · exact .inr ⟨[], x, l, rfl, by simp; omega, by simp [foldUntil_cons, pushKey, hfull]⟩
    · have hpush : foldUntil (pushKey count) { keys } (x :: l) =
          foldUntil (pushKey count) { keys := keys ++ [x.1] } l := by
        simp [foldUntil_cons, pushKey, hfull]
      rw [hpush]
      rcases ih (keys ++ [x.1]) (by simp; omega) with hall | ⟨before, y, after, rfl, hc, hpage⟩
      · exact .inl (by simp [hall])
      · exact .inr ⟨x :: before, y, after, rfl, by simp at hc ⊢; omega, by simp [hpage]⟩

variable {store : Store}

theorem collectUserKeys_all {count : Nat} (h : store.entries.length < count) (pre cursor : Bytes)
    (f : ScanFilter) : (collectUserKeys store pre cursor f count).keys =
      (store.entries.filterMap (scanEntry pre cursor f)).map (·.1) := by
  have hle := length_filterMap_le (scanEntry pre cursor f) store.entries
  rw [collectUserKeys_eq]
  rcases foldUntil_pushKey [] (Nat.zero_lt_of_lt h)
    (store.entries.filterMap (scanEntry pre cursor f)) with hall | ⟨before, x, after, hl, hc, -⟩
  · simp [hall]
  · -- a full page would have more keys than the store
    rw [hl] at hle
    simp at hle hc
    omega

/-- A root that DBSIZE counts, with its deadline. -/
def liveRoot (now : Nat) (e : Bytes × Bytes) : Option Nat :=
  match recordRole e.1 e.2 with
  | .root deadline => if isExpired deadline now then none else some deadline
  | _ => none

def countRoot (c : Nat × Nat) (deadline : Nat) : (Nat × Nat) × Bool :=
  ((c.1 + 1, c.2 + if 0 < deadline then 1 else 0), true)

theorem countVisit_eq (now : Nat) (c : Nat × Nat) (e : Bytes × Bytes) :
    countVisit now c e.1 e.2 = (liveRoot now e).elim (c, true) (countRoot c) := by
  unfold countVisit liveRoot
  cases recordRole e.1 e.2 with
  | root deadline =>
    dsimp only
    split
    · rfl
    · rfl
  | member => rfl
  | foreign => rfl

theorem fst_foldUntil_countRoot (ds : List Nat) (c : Nat × Nat) :
    (foldUntil countRoot c ds).1 = c.1 + ds.length := by
  induction ds generalizing c with
  | nil => rfl
  | cons d ds ih =>
    rw [foldUntil_cons, countRoot, if_pos rfl, ih, length_cons]
    dsimp only
    omega

theorem keyspaceCounts_eq (store : Store) (now : Nat) :
    (keyspaceCounts store now).1 = (store.entries.filterMap (liveRoot now)).length := by
  have hall : store.entries.filter (fun e => if false then decide (([] : Bytes) < e.1)
      else decide (([] : Bytes) ≤ e.1)) = store.entries :=
    filter_eq_self.mpr fun e _ => decide_eq_true (le_of_isPrefix nil_prefix)
  unfold keyspaceCounts Store.forEachFrom
  rw [hall, foldUntil_filterMap (countVisit_eq now), fst_foldUntil_countRoot, Nat.zero_add]

/-- The user key GETKEYSINSLOT reads off a record of the store. -/
def slotView (slot : Nat) (e : Bytes × Bytes) : Option Bytes :=
  if slotPrefix slot <+: e.1 then slotEntry (slotPrefix slot).length e.1 else none

theorem prefixIterCollect_slotPrefix (store : Store) (slot : Nat) :
    store.prefixIterCollect (slotPrefix slot) 0 =
      store.entries.filter fun e => decide (slotPrefix slot <+: e.1) := by
  refine filter_congr fun e _ => ?_
  rw [Bool.eq_iff_iff, Bool.and_eq_true, decide_eq_true_iff, decide_eq_true_iff]
  constructor
  · rintro ⟨hle, hlt⟩
    refine isPrefix_of_keyUpperBound hle fun upper hu => ?_
    rw [hu] at hlt
    exact of_decide_eq_true hlt
  · rintro ⟨rest, hrest⟩
    obtain ⟨upper, hu, hlt⟩ := lt_upper_of_slotPrefix_le (le_refl (slotPrefix slot)) rest
    rw [hu, ← hrest]
    exact ⟨le_of_isPrefix (prefix_append _ _), decide_eq_true hlt⟩

theorem clusterGetKeysInSlot_zero (store : Store) (slot : Nat) :
    clusterGetKeysInSlot store slot 0 = store.entries.filterMap (slotView slot) := by
  rw [clusterGetKeysInSlot, prefixIterCollect_slotPrefix, filterMap_filter]
  simp only [decide_eq_true_eq]
  rfl

theorem clusterGetKeysInSlot_isPrefix (store : Store) (slot count : Nat) :
    clusterGetKeysInSlot store slot count <+: clusterGetKeysInSlot store slot 0 := by
  unfold clusterGetKeysInSlot Store.prefixIterCollect
  by_cases hc : count = 0
  · rw [hc]
  · rw [if_neg hc]
    exact (List.take_prefix _ _).filterMap _

/-! ## FLUSHDB wipes what is not foreign -/

def isUserRecord (e : Bytes × Bytes) : Bool := decide (recordRole e.1 e.2 ≠ .foreign)

def userRecords (l : List (Bytes × Bytes)) : List Bytes := (l.filter isUserRecord).map (·.1)

/-- A chunk of `records`, starting at `c`: all of them, or those up to the key it resumes
behind. -/
def FlushChunk.Covers (st : FlushChunk) (c records : List Bytes) : Prop :=
  match st.resume with
  | none => st.chunk = c ++ records
  | some next => ∃ before after, records = before ++ next :: after ∧
      st.chunk = c ++ (before ++ [next])

theorem covers_flushVisit (l : List (Bytes × Bytes)) (c : List Bytes) :
    (foldUntil (fun st e => flushVisit st e.1 e.2) ⟨c, none⟩ l).Covers c (userRecords l) := by
  induction l generalizing c with
  | nil => exact (append_nil c).symm
  | cons e l ih =>
    rw [foldUntil_cons]
    by_cases hrole : recordRole e.1 e.2 = .foreign
    · have hskip : userRecords (e :: l) = userRecords l := by
        simp [userRecords, isUserRecord, hrole]
      rw [flushVisit, if_pos hrole, hskip]
      exact ih c
    · have htake : userRecords (e :: l) = e.1 :: userRecords l := by
        simp [userRecords, isUserRecord, hrole]
      rw [flushVisit, if_neg hrole, htake]
      by_cases hfull : flushPage ≤ c.length + 1
      · rw [if_pos hfull]
        exact ⟨[], userRecords l, rfl, rfl⟩
      · rw [if_neg hfull]
        have ih := ih (c ++ [e.1])
        revert ih
        generalize foldUntil _ _ l = st
        obtain ⟨chunk, resume⟩ := st
        cases resume with
        | none =>
          rintro rfl
          exact append_assoc _ _ _
        | some next =>
          rintro ⟨before, after, hsplit, rfl⟩
          exact ⟨e.1 :: before, after, by rw [hsplit, cons_append], by simp⟩

theorem mem_userRecords_iff {e : Bytes × Bytes} (he : e ∈ store.entries) :
    e.1 ∈ userRecords store.entries ↔ isUserRecord e := by
  refine ⟨fun h => ?_, fun h => mem_map.mpr ⟨e, mem_filter.mpr ⟨he, h⟩, rfl⟩⟩
  obtain ⟨f, hf, hkey⟩ := mem_map.mp h
  obtain ⟨hf, huser⟩ := mem_filter.mp hf
  have hval : f.2 = e.2 := by
    rw [← Option.some.injEq, ← mem_entries.mp hf, ← mem_entries.mp he, hkey]
  rwa [show f = e from Prod.ext hkey hval] at huser

theorem sorted_userRecords (store : Store) : (userRecords store.entries).Pairwise (· < ·) :=
  pairwise_map.mpr (store.sorted.filter _)

def PastCursor (store : Store) (cursor : Bytes) : Prop :=
  cursor = [] ∨ ∀ k ∈ userRecords store.entries, cursor < k

theorem covers_flushScan {cursor : Bytes} (h : PastCursor store cursor) :
    (flushScan store cursor).Covers [] (userRecords store.entries) := by
  have hscan := covers_flushVisit (store.entries.filter fun e =>
    if (!cursor.isEmpty) then decide (cursor < e.1) else decide (cursor ≤ e.1)) []
  suffices hall : userRecords (store.entries.filter fun e => if (!cursor.isEmpty) then
      decide (cursor < e.1) else decide (cursor ≤ e.1)) = userRecords store.entries by
    rwa [hall] at hscan
  unfold userRecords
  rw [filter_filter]
  congr 1
  refine filter_congr fun e he => ?_
  cases huser : isUserRecord e with
  | false => simp
  | true =>
    rcases h with rfl | h
    · simp [le_of_isPrefix <| List.nil_prefix (l := e.1)]
    · have hlt := h e.1 ((mem_userRecords_iff he).mpr huser)
      simp [hlt, hlt.le]

theorem filter_foreign_write_del {chunk : List Bytes}
    (h : ∀ k ∈ chunk, k ∈ userRecords store.entries) :
    (store.write (chunk.map .del)).entries.filter (fun e => !isUserRecord e) =
      store.entries.filter fun e => !isUserRecord e := by
  rw [entries_write_del, filter_filter]
  refine filter_congr fun e he => ?_
  cases huser : isUserRecord e with
  | true => simp
  | false =>
    have hnot : e.1 ∉ chunk := fun hk => by
      rw [(mem_userRecords_iff he).mp (h e.1 hk)] at huser
      cases huser
    simp [hnot]

theorem entries_flushdbLoop {fuel : Nat} {cursor : Bytes} (hfuel : store.entries.length < fuel)
    (h : PastCursor store cursor) :
    (flushdbLoop fuel store cursor).entries = store.entries.filter fun e => !isUserRecord e := by
  induction fuel generalizing store cursor with
  | zero => omega
  | succ fuel ih =>
    have hscan := covers_flushScan h
    rw [flushdbLoop]
    revert hscan
    generalize flushScan store cursor = st
    obtain ⟨chunk, resume⟩ := st
    intro hscan
    cases resume with
    | none =>
      obtain rfl : chunk = userRecords store.entries := hscan
      have hwipe : (store.write ((userRecords store.entries).map .del)).entries =
          store.entries.filter fun e => !isUserRecord e := by
        rw [entries_write_del]
        exact filter_congr fun e he => by simp [mem_userRecords_iff he]
      dsimp only
      split
      · next hnil =>
        rwa [hnil, map_nil] at hwipe
      · exact hwipe
    | some next =>
      obtain ⟨before, after, hsplit, hchunk⟩ := hscan
      obtain rfl : chunk = before ++ [next] := hchunk
      have hsub : ∀ k ∈ before ++ [next], k ∈ userRecords store.entries := fun k hk => by
        rw [hsplit]
        simp only [mem_append, mem_cons, not_mem_nil, or_false] at hk ⊢
        exact hk.imp_right .inl
      rw [if_neg (by simp)]
      dsimp only
      rw [ih, filter_foreign_write_del hsub]
      · -- the key the chunk ends with is gone
        obtain ⟨e, he, hkey⟩ := mem_map.mp (hsub next (by simp))
        have he := (mem_filter.mp he).1
        have hlt : (store.write ((before ++ [next]).map .del)).entries.length <
            store.entries.length := by
          rw [entries_write_del]
          exact length_filter_lt_length_iff_exists.mpr ⟨e, he, by simp [hkey]⟩
        omega
      · -- what is left of the user records lies behind it
        refine .inr fun k hk => ?_
        obtain ⟨e, he, rfl⟩ := mem_map.mp hk
        obtain ⟨he, huser⟩ := mem_filter.mp he
        rw [entries_write_del] at he
        obtain ⟨he, hnot⟩ := mem_filter.mp he
        have hmem := (mem_userRecords_iff he).mpr huser
        have hsorted := sorted_userRecords store
        rw [hsplit] at hmem hsorted
        simp only [mem_append, mem_singleton, decide_eq_true_eq, not_or] at hnot
        rcases mem_append.mp hmem with hb | ha
        · exact absurd hb hnot.1
        · rcases mem_cons.mp ha with rfl | ha
          · exact absurd rfl hnot.2
          · exact (pairwise_cons.mp (pairwise_append.mp hsorted).2.1).1 _ ha

theorem get_flushdb (store : Store) (k : Bytes) :
    (flushdb store).get k = (store.get k).filter fun v => recordRole k v = .foreign := by
  have hentries : (flushdb store).entries = store.entries.filter fun e => !isUserRecord e :=
    entries_flushdbLoop (Nat.lt_succ_self _) (.inl rfl)
  refine Option.ext fun v => ?_
  rw [get_eq_some, hentries, mem_filter, ← get_eq_some]
  simp [isUserRecord]

/-! ## The records of the SQL plane -/

/-- The keys `version_key`, `secondary_key` and `unique_key` build. -/
inductive SqlKey where
  | version (slot : UInt16) (tableId : UInt32) (pk : Bytes) (ts : UInt64)
  | secondary (tableId colPos : UInt32) (val : Value) (pk : Bytes)
  | unique (tableId colPos : UInt32) (val : Value)

variable {sk : SqlKey}

namespace SqlKey

def physical : SqlKey → Bytes
  | version slot tableId pk ts => versionKey slot.toNat tableId.toNat pk ts.toNat
  | secondary tableId colPos val pk => secondaryKey tableId.toNat colPos.toNat (encodeKey val) pk
  | unique tableId colPos val => uniqueKey tableId.toNat colPos.toNat (encodeKey val)

def isIndex : SqlKey → Bool
  | version .. => false
  | _ => true

/-- A row version whose table id is the length of what follows it reads as the data key of a
stream of that name. -/
def isNamedStream : SqlKey → Bool
  | version _ tableId pk _ => decide (tableId.toNat = pk.length + 8)
  | _ => false

theorem physical_index (h : sk.isIndex) :
    ∃ slot < 2 ^ 16, ∃ kind body, (kind = kindSqlIndex ∨ kind = kindSqlUniqueIndex) ∧
      sk.physical = slotPrefix slot ++ kind :: body := by
  have hslot : ∀ tableId colPos, indexSlot tableId colPos < 2 ^ 16 := fun tableId colPos =>
    lt_of_lt_of_le (Nat.mod_lt _ (by decide)) (by decide : slotNumber ≤ 2 ^ 16)
  cases sk with
  | version slot tableId pk ts => cases h
  | secondary tableId colPos val pk =>
    exact ⟨_, hslot _ _, kindSqlIndex, _, .inl rfl, by
      rw [physical, secondaryKey, indexPrefix, append_assoc, append_assoc, cons_append]⟩
  | unique tableId colPos val =>
    exact ⟨_, hslot _ _, kindSqlUniqueIndex, _, .inr rfl, by
      rw [physical, uniqueKey, indexPrefix, append_assoc, cons_append]⟩

end SqlKey

theorem classify_index {kind : UInt8} (h : kind = kindSqlIndex ∨ kind = kindSqlUniqueIndex)
    (body : Bytes) : classify (kind :: body) = .raw := by
  rcases h with rfl | rfl
  · rfl
  · rfl

theorem recordRole_version (slot : UInt16) (tableId : UInt32) (pk : Bytes) (ts : UInt64)
    (v : Bytes) : recordRole (SqlKey.version slot tableId pk ts).physical v = .member := by
  rw [SqlKey.physical, versionKey_eq, recordRole, slotPrefixLen_slotPrefix slot.toNat_lt]
  dsimp only
  rw [drop_left]
  rfl

theorem userEntryOf_version (slot : UInt16) (tableId : UInt32) (pk : Bytes) (ts : UInt64) :
    userEntryOf (SqlKey.version slot tableId pk ts).physical = none := by
  rw [SqlKey.physical, versionKey_eq, userEntryOf, slotPrefixLen_slotPrefix slot.toNat_lt,
    Option.bind_some, drop_left]
  rfl

theorem recordRole_index (h : sk.isIndex) (v : Bytes) :
    recordRole sk.physical v = .root 0 := by
  obtain ⟨slot, hslot, kind, body, hkind, hkey⟩ := SqlKey.physical_index h
  rw [hkey, recordRole, slotPrefixLen_slotPrefix hslot]
  dsimp only
  rw [drop_left, classify_index hkind]

theorem slotView_slotPrefix (slot : Nat) (rest x : Bytes) :
    slotView slot (slotPrefix slot ++ rest, x) =
      slotEntry (slotPrefix slot).length (slotPrefix slot ++ rest) :=
  if_pos (prefix_append _ _)

theorem slotView_of_ne_none {slot slot' : Nat} {rest x : Bytes}
    (h : slotView slot' (slotPrefix slot ++ rest, x) ≠ none) : slotPrefix slot' = slotPrefix slot := by
  unfold slotView at h
  split at h
  · next hp =>
    obtain ⟨rest', hrest⟩ := hp
    exact congrArg slotPrefix (slotPrefix_append_inj hrest).1
  · exact absurd rfl h

theorem decodeDataKey_version (slot : UInt16) (tableId : UInt32) (pk : Bytes) (ts : UInt64) :
    decodeDataKey (SqlKey.version slot tableId pk ts).physical (slotPrefix slot.toNat).length =
      if pk.length + 8 < tableId.toNat then none
      else some (kindStreamOffset, (pk ++ tsSuffix ts.toNat).take tableId.toNat,
        (pk ++ tsSuffix ts.toNat).drop tableId.toNat) := by
  have hid : ofBe (beBytes 4 tableId.toNat) = tableId.toNat := ofBe_beBytes_of_lt tableId.toNat_lt
  have hlen : (pk ++ tsSuffix ts.toNat).length = pk.length + 8 := by simp [tsSuffix]
  rw [SqlKey.physical, versionKey_eq, decodeDataKey, drop_left]
  dsimp only
  rw [if_neg (by decide), if_neg (by decide), append_assoc,
    take_left' (length_beBytes 4 _), drop_left' (length_beBytes 4 _), hid, hlen]
  rfl

theorem slotEntry_version (slot : UInt16) (tableId : UInt32) (pk : Bytes) (ts : UInt64) :
    slotEntry (slotPrefix slot.toNat).length (SqlKey.version slot tableId pk ts).physical ≠ none ↔
      (SqlKey.version slot tableId pk ts).isNamedStream := by
  have hclass : classify ((SqlKey.version slot tableId pk ts).physical.drop
      (slotPrefix slot.toNat).length) = .typed kindStreamOffset := by
    rw [SqlKey.physical, versionKey_eq, drop_left]
    rfl
  have hlen : (pk ++ tsSuffix ts.toNat).length = pk.length + 8 := by simp [tsSuffix]
  rw [slotEntry, hclass, decodeDataKey_version, SqlKey.isNamedStream, decide_eq_true_iff]
  by_cases hlong : pk.length + 8 < tableId.toNat
  · rw [if_pos hlong]
    exact ⟨fun h => absurd rfl h, fun h => by omega⟩
  · rw [if_neg hlong]
    dsimp only
    split
    · next key heq =>
      simp only [Option.some.injEq, Prod.mk.injEq, drop_eq_nil_iff] at heq
      exact ⟨fun _ => by omega, fun _ => Option.some_ne_none _⟩
    · next hrest =>
      refine ⟨fun h => absurd rfl h, fun h => ?_⟩
      exact absurd (by rw [drop_of_length_le (by omega)]) (hrest kindStreamOffset _)

theorem slotView_version {slot : UInt16} {tableId : UInt32} {pk : Bytes} {ts : UInt64}
    (h : (SqlKey.version slot tableId pk ts).isNamedStream = false) (slot' : Nat) (x : Bytes) :
    slotView slot' ((SqlKey.version slot tableId pk ts).physical, x) = none := by
  by_contra hne
  have hpre : slotPrefix slot' = slotPrefix slot.toNat := by
    rw [SqlKey.physical, versionKey_eq] at hne
    exact slotView_of_ne_none hne
  have hentry := (slotEntry_version slot tableId pk ts).not.mpr (by rw [h]; decide)
  unfold slotView at hne
  rw [hpre, not_ne_iff.mp hentry, ite_self] at hne
  exact hne rfl

theorem index_reported (h : sk.isIndex) (x : Bytes) :
    ∃ slot, slotPrefix slot < sk.physical ∧ slotPrefix slot <+: sk.physical ∧
      (userEntryOf sk.physical).isSome ∧ slotView slot (sk.physical, x) ≠ none := by
  obtain ⟨slot, hslot, kind, body, hkind, hkey⟩ := SqlKey.physical_index h
  have hlt : slotPrefix slot < slotPrefix slot ++ kind :: body := by
    have := (append_lt_append_iff (slotPrefix slot)).mpr (nil_lt_cons kind body)
    rwa [append_nil] at this
  refine ⟨slot, by rwa [hkey], by rw [hkey]; exact prefix_append _ _, ?_, ?_⟩
  · rw [hkey, userEntryOf, slotPrefixLen_slotPrefix hslot, Option.bind_some, drop_left,
      classify_index hkind]
    rfl
  · rw [hkey, slotView_slotPrefix, slotEntry, drop_left, classify_index hkind]
    exact Option.some_ne_none _

/-! ## The commands on stores with SQL records -/

def withoutSql (store : Store) (ks : List SqlKey) : Store :=
  store.write ((ks.map SqlKey.physical).map .del)

/-- Taking records of the SQL plane away does not change the answer. -/
def Unreported {β : Type} (answer : Store → β) (store : Store) : Prop :=
  ∀ ks, answer (withoutSql store ks) = answer store

theorem unreported_view_iff {β : Type} (g : Bytes × Bytes → Option β) (store : Store) :
    Unreported (fun s => s.entries.filterMap g) store ↔
      ∀ sk : SqlKey, ∀ x, store.get sk.physical = some x → g (sk.physical, x) = none := by
  simp only [Unreported, withoutSql, filterMap_entries_write_del]
  constructor
  · intro h sk x hx
    exact h [sk] _ (by simp) x hx
  · intro h ks k hk x hx
    obtain ⟨sk, -, rfl⟩ := mem_map.mp hk
    exact h sk x hx

theorem length_view_withoutSql_le {β : Type} (g : Bytes × Bytes → Option β) (store : Store)
    (ks : List SqlKey) : ((withoutSql store ks).entries.filterMap g).length ≤
      (store.entries.filterMap g).length := by
  rw [withoutSql, entries_write_del]
  exact (filter_sublist.filterMap g).length_le

theorem unreported_of_length_view {β : Type} {g : Bytes × Bytes → Option β}
    (h : Unreported (fun s => (s.entries.filterMap g).length) store) :
    Unreported (fun s => s.entries.filterMap g) store := fun ks => by
  have hlen := h ks
  dsimp only at hlen ⊢
  rw [withoutSql, entries_write_del] at hlen ⊢
  exact (filter_sublist.filterMap g).eq_of_length hlen

def NoIndexEntry (store : Store) : Prop :=
  ∀ sk : SqlKey, sk.isIndex → store.get sk.physical = none

theorem scanEntry_version (h : sk.isIndex = false) (pre cursor : Bytes) (f : ScanFilter)
    (x : Bytes) : scanEntry pre cursor f (sk.physical, x) = none := by
  cases sk with
  | version slot tableId pk ts =>
    rw [scanEntry, userEntryOf_version]
    exact ite_self _
  | secondary tableId colPos val pk => cases h
  | unique tableId colPos val => cases h

theorem scanEntry_index (h : sk.isIndex) (x : Bytes) :
    ∃ slot, ∀ f : ScanFilter, (∀ u, f.accepts u) →
      scanEntry (slotPrefix slot) (slotPrefix slot) f (sk.physical, x) ≠ none := by
  obtain ⟨slot, hlt, hpre, huser, -⟩ := index_reported h x
  obtain ⟨u, hu⟩ := Option.isSome_iff_exists.mp huser
  refine ⟨slot, fun f hf => ?_⟩
  rw [scanEntry, if_pos ⟨by rwa [if_neg (lt_irrefl _)], isPrefixOf_iff_prefix.mpr hpre⟩, hu]
  simp [hf]

theorem noIndexEntry_iff {ι : Type} {β : Type} (view : ι → Bytes × Bytes → Option β)
    (hversion : ∀ (i : ι) (sk : SqlKey) (x : Bytes), sk.isIndex = false →
      view i (sk.physical, x) = none)
    (hindex : ∀ (sk : SqlKey) (x : Bytes), sk.isIndex →
      ∃ i, view i (sk.physical, x) ≠ none) (store : Store) :
    (∀ i, Unreported (fun s => s.entries.filterMap (view i)) store) ↔ NoIndexEntry store := by
  simp only [unreported_view_iff]
  constructor
  · intro h sk hsk
    cases hx : store.get sk.physical with
    | none => rfl
    | some x =>
      obtain ⟨i, hi⟩ := hindex sk x hsk
      exact absurd (h i sk x hx) hi
  · intro h i sk x hx
    cases hsk : sk.isIndex with
    | false => exact hversion i sk x hsk
    | true =>
      rw [h sk hsk] at hx
      cases hx

theorem allUserKeys_unreported_iff (store : Store) :
    (∀ pre pattern, Unreported (allUserKeys · pre (some pattern)) store) ↔ NoIndexEntry store := by
  have hview : ∀ (s : Store) (pre : Bytes) (pattern : Bytes → Bool),
      allUserKeys s pre (some pattern) = s.entries.filterMap fun e =>
        (scanEntry pre pre { pattern := some pattern } e).map (·.1) := by
    intro s pre pattern
    rw [allUserKeys, collectUserKeys_all (Nat.lt_succ_self _), map_filterMap]
  simp only [hview]
  rw [← noIndexEntry_iff fun (i : Bytes × (Bytes → Bool)) e =>
    (scanEntry i.1 i.1 { pattern := some i.2 } e).map (·.1), Prod.forall]
  · intro i sk x hsk
    rw [scanEntry_version hsk]
    rfl
  · intro sk x hsk
    obtain ⟨slot, hslot⟩ := scanEntry_index hsk x
    exact ⟨(slotPrefix slot, fun _ => true),
      by simpa using hslot { pattern := some fun _ => true } fun u => rfl⟩

theorem collectUserKeys_unreported_iff (store : Store) :
    (∀ pre cursor f count, Unreported (collectUserKeys · pre cursor f count) store) ↔
      NoIndexEntry store := by
  have hview := noIndexEntry_iff (fun i : Bytes × Bytes × ScanFilter => scanEntry i.1 i.2.1 i.2.2)
    (fun i sk x hsk => scanEntry_version hsk _ _ _ x)
    (fun sk x hsk => by
      obtain ⟨slot, hslot⟩ := scanEntry_index hsk x
      exact ⟨(slotPrefix slot, slotPrefix slot, {}), hslot {} fun u => rfl⟩) store
  rw [← hview]
  constructor
  · -- a page that holds everything tells the view
    intro h i
    refine unreported_of_length_view fun ks => ?_
    have hle : (withoutSql store ks).entries.length ≤ store.entries.length := by
      rw [withoutSql, entries_write_del]
      exact length_filter_le _ _
    have hpage := congrArg (·.keys.length) (h i.1 i.2.1 i.2.2 (store.entries.length + 1) ks)
    rwa [collectUserKeys_all (by omega), collectUserKeys_all (by omega), length_map,
      length_map] at hpage
  · intro h pre cursor f count ks
    dsimp only
    rw [collectUserKeys_eq, collectUserKeys_eq]
    exact congrArg (foldUntil (pushKey count) {}) (h (pre, cursor, f) ks)

theorem keyspaceCounts_unreported_iff (store : Store) :
    (∀ now, Unreported (fun s => (keyspaceCounts s now).1) store) ↔ NoIndexEntry store := by
  simp only [keyspaceCounts_eq]
  rw [← noIndexEntry_iff liveRoot]
  · exact forall_congr' fun now => ⟨unreported_of_length_view, fun h ks => congrArg length (h ks)⟩
  · intro now sk x hsk
    cases sk with
    | version slot tableId pk ts => rw [liveRoot, recordRole_version]
    | secondary tableId colPos val pk | unique tableId colPos val => cases hsk
  · intro sk x hsk
    refine ⟨0, ?_⟩
    rw [liveRoot, recordRole_index hsk]
    exact Option.some_ne_none _

theorem clusterGetKeysInSlot_unreported_iff (store : Store) :
    (∀ slot count ks, clusterGetKeysInSlot store slot count <+:
      clusterGetKeysInSlot (withoutSql store ks) slot 0) ↔
      ∀ sk : SqlKey, (sk.isIndex || sk.isNamedStream) → store.get sk.physical = none := by
  have hview : (∀ slot count ks, clusterGetKeysInSlot store slot count <+:
      clusterGetKeysInSlot (withoutSql store ks) slot 0) ↔
      ∀ slot, Unreported (fun s => s.entries.filterMap (slotView slot)) store := by
    constructor
    · intro h slot ks
      have hpre := h slot 0 ks
      rw [clusterGetKeysInSlot_zero, clusterGetKeysInSlot_zero] at hpre
      exact (hpre.eq_of_length_le (length_view_withoutSql_le _ store ks)).symm
    · intro h slot count ks
      have hsame : clusterGetKeysInSlot (withoutSql store ks) slot 0 =
          clusterGetKeysInSlot store slot 0 := by
        rw [clusterGetKeysInSlot_zero, clusterGetKeysInSlot_zero]
        exact h slot ks
      rw [hsame]
      exact clusterGetKeysInSlot_isPrefix store slot count
  rw [hview]
  simp only [unreported_view_iff]
  constructor
  · intro h sk hsk
    cases hx : store.get sk.physical with
    | none => rfl
    | some x =>
      rcases Bool.or_eq_true_iff.mp hsk with hsk | hsk
      · obtain ⟨slot, -, -, -, hslot⟩ := index_reported hsk x
        exact absurd (h slot sk x hx) hslot
      · cases sk with
        | version slot tableId pk ts =>
          refine absurd (h slot.toNat _ x hx) ?_
          have hentry := (slotEntry_version slot tableId pk ts).mpr hsk
          rwa [SqlKey.physical, versionKey_eq, slotView_slotPrefix, ← versionKey_eq]
        | secondary tableId colPos val pk | unique tableId colPos val => cases hsk
  · intro h slot sk x hx
    cases hsk : sk.isIndex || sk.isNamedStream with
    | true =>
      rw [h sk hsk] at hx
      cases hx
    | false =>
      cases sk with
      | version slot' tableId pk ts => exact slotView_version hsk slot x
      | secondary tableId colPos val pk | unique tableId colPos val => cases hsk

theorem recordRole_ne_foreign (sk : SqlKey) (v : Bytes) : recordRole sk.physical v ≠ .foreign := by
  cases hsk : sk.isIndex with
  | true =>
    rw [recordRole_index hsk]
    exact RecordRole.noConfusion
  | false =>
    cases sk with
    | version slot tableId pk ts =>
      rw [recordRole_version]
      exact RecordRole.noConfusion
    | secondary tableId colPos val pk | unique tableId colPos val => cases hsk

theorem flushdb_keeps_iff (store : Store) :
    (∀ sk : SqlKey, (flushdb store).get sk.physical = store.get sk.physical) ↔
      ∀ sk : SqlKey, store.get sk.physical = none := by
  refine forall_congr' fun sk => ?_
  rw [get_flushdb]
  cases hx : store.get sk.physical with
  | none => simp
  | some x => simp [recordRole_ne_foreign]

/-- No key of the SQL plane is foreign to the keyspace commands. For every store: FLUSHDB keeps
the records of the SQL plane exactly when there are none; KEYS, SCAN and DBSIZE report none of
them exactly when there is no index entry; CLUSTER GETKEYSINSLOT exactly when there is neither an
index entry nor a row version that reads as a whole stream key. -/
theorem keyspace_commands_on_sql_iff (store : Store) :
    (∀ (sk : SqlKey) (v : Bytes),
      ¬ (recordRole sk.physical v = .foreign ∧ userEntryOf sk.physical = none)) ∧
    ((∀ sk : SqlKey, (flushdb store).get sk.physical = store.get sk.physical) ↔
      ∀ sk : SqlKey, store.get sk.physical = none) ∧
    ((∀ pre pattern, Unreported (allUserKeys · pre (some pattern)) store) ↔ NoIndexEntry store) ∧
    ((∀ pre cursor f count, Unreported (collectUserKeys · pre cursor f count) store) ↔
      NoIndexEntry store) ∧
    ((∀ now, Unreported (fun s => (keyspaceCounts s now).1) store) ↔ NoIndexEntry store) ∧
    ((∀ slot count ks, clusterGetKeysInSlot store slot count <+:
        clusterGetKeysInSlot (withoutSql store ks) slot 0) ↔
      ∀ sk : SqlKey, (sk.isIndex || sk.isNamedStream) → store.get sk.physical = none) :=
  ⟨fun sk v h => recordRole_ne_foreign sk v h.1, flushdb_keeps_iff store,
    allUserKeys_unreported_iff store, collectUserKeys_unreported_iff store,
    keyspaceCounts_unreported_iff store, clusterGetKeysInSlot_unreported_iff store⟩

/-- One row of table 7 and its entry in the unique index over column 1. -/
def sampleSqlStore : Store := SortedMap.empty.write
  [.put (SqlKey.version (UInt16.ofNat (slotOf 7 (encodeKey (.int 1)))) 7
      (encodeKey (.int 1)) 5).physical [0x01],
   .put (SqlKey.unique 7 1 (.int 9)).physical (encodeKey (.int 1))]

/-- FLUSHDB deletes both records, and DBSIZE, KEYS and GETKEYSINSLOT report the index entry. -/
theorem flushdb_wipes_sql_store :
    sampleSqlStore.entries.length = 2 ∧ (flushdb sampleSqlStore).entries = [] ∧
      (keyspaceCounts sampleSqlStore 0).1 = 1 ∧
      (clusterGetKeysInSlot sampleSqlStore (indexSlot 7 1) 0).length = 1 ∧
      (allUserKeys sampleSqlStore (slotPrefix (indexSlot 7 1)) none).length = 1 := by
  decide +kernel

end Rdb.Command
