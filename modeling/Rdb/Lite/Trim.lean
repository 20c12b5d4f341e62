import Rdb.Ds.Keys
import Rdb.Lite.Append
import Rdb.Lite.Layout

/-!
# The keys a trim deletes

`trim_victims` walks the keys under the entry base of the stream, whoever wrote them.

* `trimVictimKeys_eq`: the walk takes the first keys that the plan takes for entries to remove.
* `trim_victims_oldest_iff`: these are the oldest entries, the one of the open batch included,
  unless a key that is no entry comes before as many entries as are removed.

MAXLEN takes a raw string whose name goes on from the entry base for an entry
(`trims_raw_string`).
-/

namespace Rdb.Lite

open Lib Ds List

def entryBase (pre stream : Bytes) : Bytes := dataKey pre kindStreamEntry stream

def idFromKey (base k : Bytes) : Option EntryId := EntryId.ofSuffix (k.drop base.length)

/-- A walk ends at the first key that does not start with the base. -/
def underBase (base : Bytes) (visit : List Bytes → Bytes → List Bytes × Bool)
    (victims : List Bytes) (k _ : Bytes) : List Bytes × Bool :=
  if base <+: k then visit victims k else (victims, false)

/-- The limit is checked before the key; a suffix that is no id is skipped. -/
def minIdVisit (base : Bytes) (minid : EntryId) (limit : Option Nat) (victims : List Bytes)
    (k : Bytes) : List Bytes × Bool :=
  if limit.any (· ≤ victims.length) then (victims, false)
  else match idFromKey base k with
    | some id => if id < minid then (victims ++ [k], true) else (victims, false)
    | none => (victims, true)

def trimVictimKeys (store : Store) (pre stream : Bytes) (plan : TrimPlan) (liveLen : Nat)
    (newEntry : Option EntryId) : List Bytes :=
  let base := entryBase pre stream
  match plan with
  | .maxLen n =>
    let trim := liveLen - n
    if trim = 0 then []
    else
      let victims := store.forEachFrom base false (underBase base fun victims k =>
        (victims ++ [k], decide (victims.length + 1 < trim))) []
      victims ++ (newEntry.toList.filter fun _ => victims.length < trim).map (entryKey pre stream)
  | .minId minid limit =>
    let victims := store.forEachFrom base false (underBase base (minIdVisit base minid limit)) []
    victims ++ (newEntry.toList.filter fun id =>
      id < minid && limit.all fun n => victims.length < n).map (entryKey pre stream)

/-! ## The walk -/

abbrev StreamName.base (s : StreamName) : Bytes := entryBase s.pre s.bytes

abbrev StreamName.entry (s : StreamName) : EntryId → Bytes := entryKey s.pre s.bytes

variable {store : Store} {s : StreamName} {base : Bytes} {plan : TrimPlan} {limit : Option Nat}
  {entries : SortedMap EntryId Fields} {newEntry : Option EntryId} {id : EntryId} {k : Bytes}

def keysUnder (store : Store) (base : Bytes) : List Bytes :=
  (store.entries.filter fun e => decide (base <+: e.1)).map (·.1)

/-- The keys that a plan takes for entries it may remove. -/
def TrimPlan.takes (base k : Bytes) : TrimPlan → Bool
  | .maxLen _ => true
  | .minId minid _ => (idFromKey base k).any (· < minid)

/-- How many entries of a stream a plan removes at most. -/
def TrimPlan.quota (len : Nat) : TrimPlan → Option Nat
  | .maxLen n => some (len - n)
  | .minId _ limit => limit

def FitsId (id : EntryId) : Prop := id.ms < 256 ^ 8 ∧ id.seq < 256 ^ 8

instance : Decidable (FitsId id) := inferInstanceAs (Decidable (_ ∧ _))

theorem forEachFrom_underBase (visit : List Bytes → Bytes → List Bytes × Bool) :
    store.forEachFrom base false (underBase base visit) [] =
      foldUntil visit [] (keysUnder store base) :=
  (store.forEachFrom_guard (fun _ _ _ _ => rfl) []).trans (foldUntil_map (fun _ _ _ => rfl) []).symm

theorem keysUnder_sorted : (keysUnder store base).Pairwise (· < ·) :=
  pairwise_map.mpr (store.sorted.sublist filter_sublist)

theorem prefix_of_mem_keysUnder (h : k ∈ keysUnder store base) : base <+: k := by
  obtain ⟨e, he, rfl⟩ := mem_map.mp h
  exact of_decide_eq_true (mem_filter.mp he).2

theorem idFromKey_entryKey (h : FitsId id) : idFromKey s.base (s.entry id) = some id := by
  simp [idFromKey, entryBase, entryKey, elemKey, EntryId.ofSuffix, EntryId.suffix,
    ofBe_beBytes_of_lt h.1, ofBe_beBytes_of_lt h.2]

theorem takes_entryKey (minid : EntryId) (limit : Option Nat) (h : FitsId id) :
    (TrimPlan.minId minid limit).takes s.base (s.entry id) = decide (id < minid) := by
  rw [TrimPlan.takes, idFromKey_entryKey h, Option.any_some]

theorem eq_entryKey (hk : s.base <+: k) (h : idFromKey s.base k = some id) :
    k = s.entry id ∧ FitsId id := by
  obtain ⟨sfx, rfl⟩ := hk
  rw [idFromKey, drop_left] at h
  obtain ⟨rfl, hfit⟩ := EntryId.of_ofSuffix h
  exact ⟨rfl, hfit⟩

theorem entryKey_lt_iff {a b : EntryId} (ha : FitsId a) (hb : FitsId b) :
    s.entry a < s.entry b ↔ a < b := by
  unfold StreamName.entry entryKey elemKey
  rw [append_lt_append_iff]
  refine ⟨fun h => ?_, EntryId.suffix_lt hb.1 hb.2⟩
  rcases lt_trichotomy a b with hlt | rfl | hgt
  · exact hlt
  · exact absurd h (lt_irrefl _)
  · exact absurd h (EntryId.suffix_lt ha.1 ha.2 hgt).asymm

theorem atMost_eq_self {α : Type} {l : List α} (h : limit.all (l.length ≤ ·)) :
    atMost limit l = l := by
  cases limit with
  | none => rfl
  | some n => exact take_of_length_le (of_decide_eq_true h)

/-- Over keys whose ids rise, the walk takes the first ones below `minid`. -/
theorem foldUntil_minIdVisit (minid : EntryId) {ks : List Bytes}
    (hrise : ks.Pairwise fun a b => ∀ i ∈ idFromKey base a, ∀ j ∈ idFromKey base b, i < j)
    (out : List Bytes) (hout : limit.all (out.length ≤ ·)) :
    foldUntil (minIdVisit base minid limit) out ks =
      atMost limit (out ++ ks.filter ((TrimPlan.minId minid limit).takes base)) := by
  induction ks generalizing out with
  | nil => simp [foldUntil_nil, atMost_eq_self hout]
  | cons k ks ih =>
    obtain ⟨hk, hrest⟩ := pairwise_cons.mp hrise
    rw [foldUntil_cons, minIdVisit]
    by_cases hfull : limit.any (· ≤ out.length)
    · cases limit with
      | none => cases hfull
      | some n =>
        have hn : n = out.length := le_antisymm (of_decide_eq_true hfull) (of_decide_eq_true hout)
        simp [hn, atMost]
    · rw [if_neg hfull]
      cases hid : idFromKey base k with
      | none =>
        rw [filter_cons_of_neg (by simp [TrimPlan.takes, hid])]
        exact ih hrest out hout
      | some id =>
        by_cases hlt : id < minid
        · have hroom : limit.all ((out ++ [k]).length ≤ ·) := by
            cases limit with
            | none => rfl
            | some n => simpa [Nat.succ_le_iff] using hfull
          rw [filter_cons_of_pos (by simp [TrimPlan.takes, hid, hlt]), append_cons]
          simpa [hlt] using ih hrest _ hroom
        · -- the ids that follow are not below `minid` either
          have hnil : (k :: ks).filter ((TrimPlan.minId minid limit).takes base) = [] := by
            refine filter_eq_nil_iff.mpr (forall_mem_cons.mpr
              ⟨by simp [TrimPlan.takes, hid, hlt], fun b hb hb' => ?_⟩)
            obtain ⟨j, hj, hjlt⟩ := (Option.any_eq_true _ _).mp hb'
            exact hlt ((hk b hb id hid j hj).trans (of_decide_eq_true hjlt))
          simp [hlt, hnil, atMost_eq_self hout]

theorem atMost_append_toList {α β : Type} (limit : Option Nat) (l : List β) (new : Option α)
    (p : α → Bool) (f : α → β) :
    atMost limit (l ++ (new.toList.filter p).map f) = atMost limit l ++
      (new.toList.filter fun x => p x && limit.all fun n => (atMost limit l).length < n).map f := by
  cases limit with
  | none => simp [atMost]
  | some n =>
    simp only [atMost, Option.all_some, take_append, length_take]
    by_cases hn : l.length < n
    · have hle : ((new.toList.filter p).map f).length ≤ n - l.length := by
        rw [length_map]
        exact (length_filter_le _ _).trans (by cases new <;> simp; omega)
      simp [take_of_length_le hle, show min n l.length < n by omega]
    · simp [Nat.sub_eq_zero_of_le (not_lt.mp hn), show ¬ min n l.length < n by omega]

theorem ids_rise (store : Store) (s : StreamName) :
    (keysUnder store s.base).Pairwise fun a b =>
      ∀ i ∈ idFromKey s.base a, ∀ j ∈ idFromKey s.base b, i < j := by
  refine keysUnder_sorted.imp_of_mem fun {a b} ha hb hab i hi j hj => ?_
  obtain ⟨rfl, hfi⟩ := eq_entryKey (prefix_of_mem_keysUnder ha) hi
  obtain ⟨rfl, hfj⟩ := eq_entryKey (prefix_of_mem_keysUnder hb) hj
  exact (entryKey_lt_iff hfi hfj).mp hab

theorem trimVictimKeys_eq (store : Store) (s : StreamName) (plan : TrimPlan)
    (hfit : ∀ id ∈ newEntry, FitsId id) (liveLen : Nat) :
    trimVictimKeys store s.pre s.bytes plan liveLen newEntry = atMost (plan.quota liveLen)
      ((keysUnder store s.base ++ newEntry.toList.map s.entry).filter (plan.takes s.base)) := by
  rw [filter_append, filter_map, atMost_append_toList]
  unfold trimVictimKeys
  cases plan with
  | maxLen n =>
    dsimp only
    split
    · next hzero => simp [TrimPlan.quota, hzero, atMost]
    · next hpos =>
      have hwalk := foldUntil_take (keysUnder store s.base) [] (Nat.pos_of_ne_zero hpos)
      simp only [forEachFrom_underBase, hwalk]
      simp [TrimPlan.quota, TrimPlan.takes, atMost, Nat.lt_sub_iff_add_lt]
  | minId minid limit =>
    have hwalk := foldUntil_minIdVisit minid (ids_rise store s) []
      (show limit.all (0 ≤ ·) by cases limit <;> simp)
    rw [nil_append] at hwalk
    simp only [forEachFrom_underBase, hwalk]
    refine congrArg _ (congrArg _ (filter_congr fun id hid => ?_))
    exact congrArg (· && _) (takes_entryKey minid limit (hfit id (Option.mem_toList.mp hid))).symm

/-! ## The oldest entries -/

/-- What a plan is to remove of the entries, oldest first: all but the `n` newest, or the first of
those below `minid`. -/
def TrimPlan.oldest (all : List EntryId) : TrimPlan → List EntryId
  | .maxLen n => all.take (all.length - n)
  | .minId minid limit => atMost limit (all.filter (· < minid))

theorem trimVictims_eq_oldest (plan : TrimPlan) (newEntry : Option EntryId) :
    let all := entryIds entries ++ newEntry.toList
    trimVictims entries plan all.length newEntry = plan.oldest all := by
  intro all
  cases plan with
  | maxLen n =>
    have h := atMost_append_toList (some (all.length - n)) (entryIds entries) newEntry
      (fun _ => true) id
    simpa [trimVictims, TrimPlan.oldest, atMost, all, Nat.lt_sub_iff_add_lt] using h.symm
  | minId minid limit =>
    have hsorted : (entryIds entries).Pairwise (· < ·) := pairwise_map.mpr entries.sorted
    have hbelow := takeWhile_eq_filter (p := fun id => decide (id < minid))
      (hsorted.imp fun hab ha => decide_eq_false fun hb => of_decide_eq_false ha (hab.trans hb))
    have h := atMost_append_toList limit ((entryIds entries).filter (· < minid)) newEntry
      (· < minid) id
    rw [trimVictims, hbelow, TrimPlan.oldest, filter_append]
    simpa using h.symm

/-- The oldest entries by their keys. -/
theorem map_oldest {all : List EntryId} (hfit : ∀ id ∈ all, FitsId id) :
    (plan.oldest all).map s.entry = atMost (plan.quota all.length)
      ((all.map s.entry).filter (plan.takes s.base)) := by
  cases plan with
  | maxLen n => simp [TrimPlan.oldest, TrimPlan.quota, TrimPlan.takes, atMost]
  | minId minid limit =>
    have htakes := filter_congr fun id hid => takes_entryKey (s := s) minid limit (hfit id hid)
    rw [filter_map, Function.comp_def, htakes]
    cases limit <;> simp [TrimPlan.oldest, TrimPlan.quota, atMost]

section

variable {α : Type} [LinearOrder α] [DecidableLT α] {e l x : List α}

theorem take_append_eq_iff (hs : e <+ l) (hl : l.Pairwise (· < ·)) (hx : ∀ a ∈ x, a ∉ l) (n : Nat) :
    (l ++ x).take n = (e ++ x).take n ↔ ∀ a ∈ l, a ∉ e → n ≤ (e.filter (· < a)).length := by
  induction hs generalizing n with
  | slnil => simp
  | @cons e l a hs ih =>
    have hlt := (pairwise_cons.mp hl).1
    have ha : a ∉ e := fun h => lt_irrefl a (hlt a (hs.subset h))
    cases n with
    | zero => simp
    | succ n =>
      refine iff_of_false (fun heq => ?_) fun hall => ?_
      · have hmem : a ∈ (e ++ x).take (n + 1) := heq ▸ mem_cons_self
        rcases mem_append.mp (mem_of_mem_take hmem) with h | h
        · exact ha h
        · exact hx a h mem_cons_self
      · have hnil : e.filter (· < a) = [] :=
          filter_eq_nil_iff.mpr fun b hb => by simpa using (hlt b (hs.subset hb)).le
        have := hall a mem_cons_self ha
        simp [hnil] at this
  | @cons_cons e l a hs ih =>
    obtain ⟨hlt, hl⟩ := pairwise_cons.mp hl
    cases n with
    | zero => simp
    | succ n =>
      rw [cons_append, cons_append, take_succ_cons, take_succ_cons, cons_inj_right,
        ih hl fun b hb hmem => hx b hb (mem_cons_of_mem _ hmem), forall_mem_cons,
        and_iff_right fun h => absurd mem_cons_self h]
      refine forall₂_congr fun b hb => ?_
      rw [filter_cons_of_pos (by simpa using hlt b hb), length_cons, Nat.succ_le_succ_iff, mem_cons,
        or_iff_right (hlt b hb).ne']

theorem atMost_append_eq_iff (hs : e <+ l) (hl : l.Pairwise (· < ·)) (hx : ∀ a ∈ x, a ∉ l)
    (limit : Option Nat) : atMost limit (l ++ x) = atMost limit (e ++ x) ↔
      ∀ a ∈ l, a ∉ e → limit.any (· ≤ (e.filter (· < a)).length) := by
  cases limit with
  | some n => simpa [atMost] using take_append_eq_iff hs hl hx n
  | none =>
    refine append_left_inj x |>.trans ⟨fun h a ha hne => absurd (h ▸ ha) hne, fun h => ?_⟩
    have hsub : l ⊆ e := fun a ha => by simpa using h a ha
    exact (hs.eq_of_length_le (subperm_of_subset hl.nodup hsub).length_le).symm

end

/-- The keys of the entries are stored, beside any others; that of the new one is not. -/
structure Stored (store : Store) (s : StreamName) (entries : SortedMap EntryId Fields)
    (newEntry : Option EntryId) : Prop where
  mem : ∀ id ∈ entryIds entries, s.entry id ∈ keysUnder store s.base
  new : ∀ id ∈ newEntry, s.entry id ∉ keysUnder store s.base
  fit : ∀ id ∈ entryIds entries ++ newEntry.toList, FitsId id

/-- A key that the plan takes for an entry and that is none. -/
structure Foreign (store : Store) (s : StreamName) (plan : TrimPlan)
    (entries : SortedMap EntryId Fields) (k : Bytes) : Prop where
  mem : k ∈ keysUnder store s.base
  takes : plan.takes s.base k
  ne : k ∉ (entryIds entries).map s.entry

theorem TrimPlan.takes_of_lt (hk : s.base <+: k) (ht : plan.takes s.base k) (hid : FitsId id)
    (hlt : s.entry id < k) : plan.takes s.base (s.entry id) := by
  cases plan with
  | maxLen n => rfl
  | minId minid limit =>
    obtain ⟨j, hj, hjlt⟩ := (Option.any_eq_true _ _).mp ht
    obtain ⟨rfl, hfj⟩ := eq_entryKey hk hj
    have hmin : id < minid := ((entryKey_lt_iff hid hfj).mp hlt).trans (of_decide_eq_true hjlt)
    rw [takes_entryKey minid limit hid, decide_eq_true hmin]

theorem Stored.sublist (h : Stored store s entries newEntry) :
    (entryIds entries).map s.entry <+ keysUnder store s.base := by
  have hids : (entryIds entries).Pairwise (· < ·) := pairwise_map.mpr entries.sorted
  have hfit : ∀ id ∈ entryIds entries, FitsId id := fun id hid => h.fit id (mem_append_left _ hid)
  have hsorted : ((entryIds entries).map s.entry).Pairwise (· < ·) :=
    pairwise_map.mpr (hids.imp_of_mem fun ha hb hab =>
      (entryKey_lt_iff (hfit _ ha) (hfit _ hb)).mpr hab)
  exact sublist_of_subperm_of_pairwise
    (subperm_of_subset hsorted.nodup (forall_mem_map.mpr h.mem)) hsorted keysUnder_sorted

theorem Stored.filter_lt (h : Stored store s entries newEntry) (hk : k ∈ keysUnder store s.base)
    (ht : plan.takes s.base k) :
    (((entryIds entries).map s.entry).filter (plan.takes s.base)).filter (· < k) =
      ((entryIds entries).filter (s.entry · < k)).map s.entry := by
  rw [filter_filter, filter_map]
  refine congrArg _ (filter_congr fun id hid => ?_)
  have hfit : FitsId id := h.fit id (mem_append_left _ hid)
  simpa using TrimPlan.takes_of_lt (prefix_of_mem_keysUnder hk) ht hfit

/-- With the length of the meta record exact, the victims are the oldest entries, the new one
counted, iff as many entries as are removed come before each foreign key; none is a key of another
stream. Over the decoded records the victims are always the oldest. -/
theorem trim_victims_oldest_iff (store : Store) (s : StreamName) (plan : TrimPlan)
    (entries : SortedMap EntryId Fields) (newEntry : Option EntryId)
    (h : Stored store s entries newEntry) :
    let all := entryIds entries ++ newEntry.toList
    let victims := trimVictimKeys store s.pre s.bytes plan all.length newEntry
    (victims = (plan.oldest all).map s.entry ↔
      ∀ k, Foreign store s plan entries k → (plan.quota all.length).any
        (· ≤ ((entryIds entries).filter (s.entry · < k)).length)) ∧
      (∀ t : StreamName, t.bytes ≠ s.bytes →
        ∀ kind sfx, elemKey t.pre kind t.bytes sfx ∉ victims) ∧
      trimVictims entries plan all.length newEntry = plan.oldest all := by
  intro all victims
  have hnew : ∀ id ∈ newEntry, FitsId id := fun id hid =>
    h.fit id (mem_append_right _ (Option.mem_toList.mpr hid))
  have hvictims : victims = _ := trimVictimKeys_eq store s plan hnew all.length
  refine ⟨?_, ?_, trimVictims_eq_oldest plan newEntry⟩
  · have hx : ∀ k ∈ (newEntry.toList.map s.entry).filter (plan.takes s.base),
        k ∉ (keysUnder store s.base).filter (plan.takes s.base) := by
      intro k hk hmem
      obtain ⟨id, hid, rfl⟩ := mem_map.mp (mem_filter.mp hk).1
      exact h.new id (Option.mem_toList.mp hid) (mem_filter.mp hmem).1
    rw [hvictims, map_oldest h.fit, map_append, filter_append, filter_append,
      atMost_append_eq_iff (h.sublist.filter _) (keysUnder_sorted.sublist filter_sublist) hx]
    refine ⟨fun hall k hk => ?_, fun hall k hk hne => ?_⟩
    · have := hall k (mem_filter.mpr ⟨hk.mem, hk.takes⟩) fun hm => hk.ne (mem_filter.mp hm).1
      rwa [h.filter_lt hk.mem hk.takes, length_map] at this
    · obtain ⟨hmem, ht⟩ := mem_filter.mp hk
      rw [h.filter_lt hmem ht, length_map]
      exact hall k ⟨hmem, ht, fun hm => hne (mem_filter.mpr ⟨hm, ht⟩)⟩
  · -- all victims, the new entry too, go on from the entry base
    intro t hne kind sfx hmem
    have hunder : s.base <+: elemKey t.pre kind t.bytes sfx := by
      have hmem := (mem_filter.mp ((atMost_sublist _ _).subset (hvictims ▸ hmem))).1
      rcases mem_append.mp hmem with hmem | hmem
      · exact prefix_of_mem_keysUnder hmem
      · obtain ⟨id, -, hid⟩ := mem_map.mp hmem
        exact hid ▸ prefix_append _ _
    obtain ⟨rest, hrest⟩ := hunder
    exact hne (elemKey_inj s.short t.short hrest).1.symm

/-- A name that goes on from the entry base with the hash tag of the topic. -/
def entryLike : UserKey := ⟨entryBase [] sampleQueue.bytes ++ [0x7b, 0x74, 0x7d], by decide⟩

/-- The entries `1-0` and `2-0` beside that raw string. -/
def sampleTrim : Store :=
  .ofList ((entryLike.raw :: [⟨1, 0⟩, ⟨2, 0⟩].map sampleQueue.entry).map (·, []))

/-- MAXLEN 1 removes two entries, and both come before the raw string. -/
theorem trim_victims_oldest_two :
    trimVictimKeys sampleTrim sampleQueue.pre sampleQueue.bytes (.maxLen 1) 3 (some ⟨3, 0⟩) =
      [⟨1, 0⟩, ⟨2, 0⟩].map sampleQueue.entry := by
  have hlate : ∀ k ∈ keysUnder sampleTrim sampleQueue.base,
      k ∉ [⟨1, 0⟩, ⟨2, 0⟩].map sampleQueue.entry →
        2 ≤ ([⟨1, 0⟩, ⟨2, 0⟩].filter (sampleQueue.entry · < k)).length := by
    decide +kernel
  exact (trim_victims_oldest_iff sampleTrim sampleQueue (.maxLen 1)
    (.ofList [(⟨1, 0⟩, []), (⟨2, 0⟩, [])]) (some ⟨3, 0⟩)
    ⟨by decide +kernel, by decide +kernel, by decide⟩).1.mpr fun k hk =>
      decide_eq_true (hlate k hk.mem hk.ne)

/-- MAXLEN 0 deletes the raw string and leaves the new entry. -/
theorem trims_raw_string :
    trimVictimKeys sampleTrim sampleQueue.pre sampleQueue.bytes (.maxLen 0) 3 (some ⟨3, 0⟩) =
      [⟨1, 0⟩, ⟨2, 0⟩].map sampleQueue.entry ++ [entryLike.raw] := by
  decide +kernel

end Rdb.Lite
