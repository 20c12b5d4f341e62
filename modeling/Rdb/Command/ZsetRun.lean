import Rdb.Command.ZsetPairs

/-!
# Runs of sorted-set commands

Every command takes a sound store to a sound store, but for one kind of ZADD. A pair whose
score equals the member's as a number is taken for unchanged, and from then on the call
remembers the new bits while the records keep the old ones. The two differ for the zeros
only, and it shows when a later pair of the same call moves the member away: the index
record that is deleted is the one of the wrong zero.
-/

namespace Rdb.Command.Zset

open Lib Ds ZsetDs List SortedMap Option
open Function (update update_of_ne update_self)

/-! ## What the scans collect -/

def decoded (k : UserKey) (e : Bytes × Bytes) : Option (Bytes × Score) :=
  (isScoreRecord e.1 k.pre.length k.bytes).map scoredOf

section

theorem nodup_distinctMembers (members : List Bytes) : (distinctMembers members).Nodup := by
  refine foldlRecOn members _ nodup_nil fun out hout m _ => ?_
  split
  · exact hout
  · next hm =>
    refine nodup_append.mpr ⟨hout, nodup_singleton m, fun a ha b hb hab => hm ?_⟩
    rw [mem_singleton] at hb
    exact contains_iff_mem.mpr (hb ▸ hab ▸ ha)

variable {store : Store} {k : UserKey} {z : Scores} (h : Sound store k z)

include h

theorem Sound.decoded {a : Bytes × Bytes} (ha : a ∈ store.entries) {e : Bytes × Score}
    (hd : decoded k a = some e) :
    a.1 = scoreKey k e.2 e.1 ∧ z.get e.1 = some e.2 := by
  obtain ⟨t, ht, rfl⟩ := map_eq_some_iff.mp hd
  have hget := mem_entries.mp ha
  obtain ⟨t', hkey⟩ := h.genuine a.1 (by rw [hget]; rfl) (by rw [ht]; rfl)
  have hsuffix : t' = t := by
    rw [hkey, scoreKeyFromSuffix, isScoreRecord_elem k (by decide) (by decide)] at ht
    split at ht
    · exact some.inj ht
    · cases ht
  have hname : a.1 = scoreKey k (scoredOf t).2 (scoredOf t).1 := by
    rw [hkey, hsuffix, scoreKey, scoreSuffix_scoredOf (length_of_isScoreRecord ht)]
  refine ⟨hname, ?_⟩
  rw [hname, h.index] at hget
  split at hget
  · assumption
  · cases hget

theorem Sound.window_entries : Window z (store.entries.filterMap (Zset.decoded k)) := by
  constructor
  · rw [nodup_iff_pairwise_ne, pairwise_map, pairwise_filterMap]
    refine store.sorted.imp_of_mem fun {a a'} ha ha' hlt e he e' he' heq => ?_
    obtain ⟨hkey, hz⟩ := h.decoded ha he
    obtain ⟨hkey', hz'⟩ := h.decoded ha' he'
    rw [heq, hz'] at hz
    rw [hkey, hkey', heq, some.inj hz] at hlt
    exact lt_irrefl _ hlt
  · intro e he
    obtain ⟨a, ha, hd⟩ := mem_filterMap.mp he
    exact (h.decoded ha hd).2

theorem Sound.forEachScored {σ : Type} {f : σ → Bytes → Score → σ × Bool}
    (out : σ → List (Bytes × Score)) {init : σ} (hinit : out init = [])
    (hf : ∀ s m score, (out (f s m score).1).Sublist (out s ++ [(m, score)])) (fromSuffix : Bytes)
    (exclFrom : Bool) : Window z (out (forEachScored store k fromSuffix exclFrom f init)) := by
  refine h.window_entries.sublist
    ((foldUntil_sublist out (Zset.decoded k) (fun s a => ?_) init _).trans ?_)
  · unfold Zset.decoded
    dsimp only
    cases isScoreRecord a.1 k.pre.length k.bytes with
    | none => exact sublist_append_left _ _
    | some suffix => exact hf s _ _
  · rw [hinit]
    exact filter_sublist.filterMap _

theorem Sound.drop {window : List (Bytes × Score)} (hw : Window z window) {e : Nat} (he : e < 2 ^ 63) :
    ∃ z', Sound (commitZset store k e (z.size - window.length) (dropScored k window)) k z' := by
  obtain ⟨z', hp, hsize⟩ := h.toPaired.dropScored hw
  have hroom := h.room
  exact Sound.commit h.toKeyed (onZset_dropScored k window) hp he hsize.symm (by omega)

/-! ## Removals -/

theorem Sound.zrem (now : Nat) (members : List Bytes) :
    ∃ z', Sound (zrem store now k members).2 k z' := by
  unfold Command.zrem
  split
  · exact ⟨z, h⟩
  · obtain ⟨e, z', heq, he, h', -⟩ := h.writeMetaOf now
    rw [heq]
    dsimp only
    split
    · exact ⟨z', h'⟩
    · split
      · exact ⟨z', h'⟩
      · refine h'.drop ⟨?_, fun e he => ?_⟩ he
        · rw [nodup_iff_pairwise_ne, pairwise_map, pairwise_filterMap]
          refine (nodup_iff_pairwise_ne.mp (nodup_distinctMembers members)).imp ?_
          intro m m' hne e he e' he' heq
          obtain ⟨s, -, rfl⟩ := map_eq_some_iff.mp he
          obtain ⟨s', -, rfl⟩ := map_eq_some_iff.mp he'
          exact hne heq
        · obtain ⟨m, -, hm⟩ := mem_filterMap.mp he
          obtain ⟨s, hs, rfl⟩ := map_eq_some_iff.mp hm
          rw [h'.memberScore] at hs
          exact hs

theorem Sound.popWindow (max : Bool) (n : Nat) : Window z (popWindow store k max n) := by
  refine h.forEachScored id rfl (fun window m score => ?_) [] false
  dsimp only [id]
  split
  · split
    · exact tail_sublist _
    · exact .refl _
  · exact .refl _

theorem Sound.zpop (now : Nat) (max : Bool) (count : Option Int) :
    ∃ z', Sound (zpop store now k max count).2 k z' := by
  have ho := h.zsetState now
  unfold Command.zpop
  split
  · exact ⟨z, h⟩
  · split
    · exact ⟨z, h⟩
    · generalize Command.zsetState store k now = r at ho ⊢
      cases ho with
      | missing h' => exact ⟨_, h'⟩
      | zset h' he hne =>
        dsimp only
        rw [if_neg hne]
        exact h'.drop (h'.popWindow max _) he

theorem Sound.removeRange (now : Nat) {collect : Store → Nat → List (Bytes × Score)}
    (hcollect : ∀ {store z}, Sound store k z → ∀ base, Window z (collect store base)) :
    ∃ z', Sound (removeRange store now k collect).2 k z' := by
  unfold Command.removeRange removeWindow
  obtain ⟨e, z', heq, he, h', -⟩ := h.writeMetaOf now
  rw [heq]
  dsimp only
  split
  · exact ⟨z', h'⟩
  · split
    · exact ⟨z', h'⟩
    · exact h'.drop (hcollect h' _) he

theorem Sound.rankWindow (start stop : Int) (base : Nat) :
    Window z (rankWindow k start stop store base) := by
  unfold Command.rankWindow
  split
  · exact ⟨nodup_nil, nofun⟩
  · refine h.forEachScored Prod.fst rfl (fun s m score => ?_) [] false
    split
    · exact sublist_append_left _ _
    · split
      · exact .refl _
      · exact sublist_append_left _ _

theorem Sound.scoreWindow (min max : Score × Bool) (base : Nat) :
    Window z (scoreWindow k min max store base) := by
  refine h.forEachScored id rfl (fun window m score => ?_) _ _
  split
  · exact sublist_append_left _ _
  · split
    · exact sublist_append_left _ _
    · exact .refl _

theorem Sound.lexWindow (min max : LexBound) (base : Nat) :
    Window z (lexWindow k min max store base) := by
  have hall : Window z (collectScored store k) :=
    h.forEachScored id rfl (fun _ _ _ => .refl _) [] false
  exact hall.sublist filter_sublist

/-! ## Single scores -/

theorem Sound.rescore {e : Nat} (he : e < 2 ^ 63) (m : Bytes) (s : Score)
    (hroom : z.size + 1 < 2 ^ 64) :
    ∃ z', Sound (rescore store k e z.size m (memberScore store k m) s) k z' := by
  have hold := (h.memberScore m).symm
  have hsize := size_put z m s
  rw [hold] at hsize
  refine Sound.commit h.toKeyed (onZset_rescore k m _ s) (h.toPaired.put hold s) he hsize.symm ?_
  rw [hsize]
  split <;> omega

theorem Sound.zincrby (add : Score → Score → Score) (now : Nat) (delta : Score)
    (m : Bytes) (hroom : z.size + 1 < 2 ^ 64) :
    ∃ z', Sound (zincrby add store now k delta m).2 k z' := by
  unfold Command.zincrby
  obtain ⟨e, z', heq, he, h', hle⟩ := h.writeMetaOf now
  rw [heq]
  dsimp only
  split
  · exact ⟨z', h'⟩
  · exact h'.rescore he m _ (by omega)

theorem Sound.zaddIncr (add : Score → Score → Score) (flags : ZaddFlags) {e : Nat}
    (he : e < 2 ^ 63) (pair : Score × Bytes) (hroom : z.size + 1 < 2 ^ 64) :
    ∃ z', Sound (zaddIncr add flags store k e z.size pair).2 k z' := by
  unfold Command.zaddIncr
  dsimp only
  split
  · exact ⟨z, h⟩
  · split
    · exact ⟨z, h⟩
    · split
      · exact ⟨z, h⟩
      · exact h.rescore he _ _ hroom

end

/-! ## The loop of ZADD -/

/-- No pair puts a zero where the member's current score is the other zero, if a later pair of the call
gives the member a score that is not zero. -/
def ZeroSignsKept (flags : ZaddFlags) : (Bytes → Option Score) → List (Score × Bytes) → Prop
  | _, [] => True
  | current, (score, m) :: rest =>
    if skips flags (current m) score then ZeroSignsKept flags current rest
    else
      (∀ prev ∈ current m, prev.isZero → score.isZero → prev ≠ score →
        ∀ p ∈ rest, p.2 = m → p.1.isZero) ∧
      ZeroSignsKept flags (update current m (some score)) rest

instance decidableZeroSignsKept (flags : ZaddFlags) :
    ∀ (current : Bytes → Option Score) (pairs : List (Score × Bytes)),
      Decidable (ZeroSignsKept flags current pairs)
  | _, [] => .isTrue trivial
  | current, (score, m) :: rest => by
    unfold ZeroSignsKept
    have := decidableZeroSignsKept flags current rest
    have := decidableZeroSignsKept flags (update current m (some score)) rest
    infer_instance

/-- What the call takes for the score of a member is what its records say, or both are zeros and the
rest of the call gives the member zeros only. -/
def Agrees (rest : List (Score × Bytes)) (m : Bytes) (current stored : Option Score) : Prop :=
  current = stored ∨ ∃ a b, current = some a ∧ stored = some b ∧ a.isZero ∧ b.isZero ∧
    ∀ p ∈ rest, p.2 = m → p.1.isZero

theorem Agrees.tail {p : Score × Bytes} {rest : List (Score × Bytes)} {m : Bytes}
    {current stored : Option Score} (h : Agrees (p :: rest) m current stored) :
    Agrees rest m current stored := by
  rcases h with h | ⟨a, b, ha, hb, hza, hzb, hrest⟩
  · exact .inl h
  · exact .inr ⟨a, b, ha, hb, hza, hzb, fun p hp => hrest p (mem_cons_of_mem _ hp)⟩

/-- The loop before the pairs `rest`: its batch leaves the records of `z`. -/
structure Looped (store : Store) (k : UserKey) (st : Staged) (rest : List (Score × Bytes)) (z : Scores) :
    Prop where
  on : OnZset k st.batch
  paired : Paired (store.write st.batch) k z
  count : st.count = z.size
  agrees : ∀ m, Agrees rest m (effectiveScore store k st.pending m) (z.get m)
  room : z.size + rest.length < 2 ^ 64

section

variable {store : Store} {k : UserKey} {st : Staged} {rest : List (Score × Bytes)} {z : Scores}
  {score : Score} {m : Bytes} {flags : ZaddFlags}

theorem effectiveScore_put (store : Store) (k : UserKey) (pending : SortedMap Bytes Score) (m : Bytes)
    (score : Score) :
    effectiveScore store k (pending.put m score) =
      update (effectiveScore store k pending) m (some score) := by
  funext m'
  unfold effectiveScore
  rw [get_put]
  by_cases h : m = m'
  · subst h
    rw [if_pos rfl, update_self, some_or]
  · rw [if_neg h, update_of_ne (Ne.symm h)]

variable (h : Looped store k st ((score, m) :: rest) z)
include h

theorem Looped.agrees_put {stored : Bytes → Option Score}
    (hm : Agrees rest m (some score) (stored m)) (hother : ∀ m' ≠ m, stored m' = z.get m')
    (m' : Bytes) :
    Agrees rest m' (effectiveScore store k (st.pending.put m score) m') (stored m') := by
  rw [effectiveScore_put]
  by_cases hm' : m' = m
  · subst hm'
    rw [update_self]
    exact hm
  · rw [update_of_ne hm', hother m' hm']
    exact (h.agrees m').tail

theorem Looped.rewrite (added changed : Nat) :
    Looped store k
      { batch := st.batch ++ ((z.get m).toList.map (delScored k · m) ++
          [putMember k m score, putScored k score m])
        pending := st.pending.put m score
        count := st.count + if (z.get m).isNone then 1 else 0
        added, changed } rest (z.put m score) where
  on := h.on.append (onZset_rescore k m _ score)
  paired := by
    rw [write_append]
    exact h.paired.put rfl score
  count := by rw [h.count, size_put]
  agrees := h.agrees_put (.inl (by rw [get_put, if_pos rfl]))
    fun m' hm' => by rw [get_put, if_neg (Ne.symm hm')]
  room := by
    have hroom := h.room
    rw [length_cons] at hroom
    rw [size_put]
    split <;> omega

theorem Looped.unchanged {prev : Score} (hprev : effectiveScore store k st.pending m = some prev)
    (heq : prev.eq score)
    (hkept : prev.isZero → score.isZero → prev ≠ score → ∀ p ∈ rest, p.2 = m → p.1.isZero) :
    Looped store k { st with pending := st.pending.put m score } rest z where
  on := h.on
  paired := h.paired
  count := h.count
  agrees := by
    refine h.agrees_put ?_ fun _ _ => rfl
    have hag := h.agrees m
    rw [hprev] at hag
    rcases hag with hz | ⟨a, b, ha, hb, hza, hzb, hrest⟩
    · by_cases hs : prev = score
      · exact .inl (hs ▸ hz)
      · obtain ⟨hzp, hzs⟩ := Score.isZero_of_eq heq hs
        exact .inr ⟨score, prev, rfl, hz.symm, hzs, hzp, hkept hzp hzs hs⟩
    · exact .inr ⟨score, b, rfl, hb, hrest _ mem_cons_self rfl, hzb,
        fun p hp => hrest p (mem_cons_of_mem _ hp)⟩
  room := by
    have hroom := h.room
    rw [length_cons] at hroom
    omega

theorem Looped.zaddPair
    (hkept : ZeroSignsKept flags (effectiveScore store k st.pending) ((score, m) :: rest)) :
    ∃ z', Looped store k (zaddPair flags store k st (score, m)) rest z' ∧
      ZeroSignsKept flags (effectiveScore store k (zaddPair flags store k st (score, m)).pending)
        rest := by
  unfold Command.zaddPair
  unfold ZeroSignsKept at hkept
  dsimp only
  by_cases hskip : skips flags (effectiveScore store k st.pending m) score
  · rw [if_pos hskip] at hkept ⊢
    have hroom := h.room
    rw [length_cons] at hroom
    exact ⟨z, ⟨h.on, h.paired, h.count, fun m' => (h.agrees m').tail, by omega⟩, hkept⟩
  · rw [if_neg hskip] at hkept ⊢
    obtain ⟨hzero, hrest⟩ := hkept
    rw [← effectiveScore_put] at hrest
    have hag := h.agrees m
    cases hold : effectiveScore store k st.pending m with
    | none =>
      rw [hold] at hag
      have hz : z.get m = none := by
        rcases hag with hz | ⟨a, b, ha, -⟩
        · exact hz.symm
        · cases ha
      have hnew := h.rewrite (st.added + 1) (st.changed + 1)
      rw [hz] at hnew
      exact ⟨_, hnew, hrest⟩
    | some prev =>
      dsimp only
      by_cases heq : prev.eq score
      · rw [if_pos heq]
        exact ⟨z, h.unchanged hold heq (hzero prev hold), hrest⟩
      · rw [if_neg heq]
        have hz : z.get m = some prev := by
          rw [hold] at hag
          rcases hag with hz | ⟨a, b, ha, hb, hza, hzb, hzeros⟩
          · exact hz.symm
          · -- a member whose bits went apart gets zeros only, and zeros are equal
            cases ha
            exact absurd (Score.eq_of_isZero hza (hzeros _ mem_cons_self rfl)) heq
        have hnew := h.rewrite st.added (st.changed + 1)
        rw [hz] at hnew
        exact ⟨_, hnew, hrest⟩

omit h

theorem Looped.foldl (pairs : List (Score × Bytes)) (h : Looped store k st pairs z)
    (hkept : ZeroSignsKept flags (effectiveScore store k st.pending) pairs) :
    ∃ z', Looped store k (pairs.foldl (Command.zaddPair flags store k) st) [] z' := by
  induction pairs generalizing st z with
  | nil => exact ⟨z, h⟩
  | cons p pairs ih =>
    obtain ⟨z', h', hkept'⟩ := h.zaddPair hkept
    exact ih h' hkept'

theorem Sound.zadd (h : Sound store k z) (add : Score → Score → Score) (now : Nat)
    (pairs : List (Score × Bytes))
    (hkept : flags.incr ∨
      ZeroSignsKept flags (memberScore (Command.writeMetaOf store k now).2 k) pairs)
    (hroom : z.size + pairs.length < 2 ^ 64) :
    ∃ z', Sound (zadd add store now k flags pairs).2 k z' := by
  obtain ⟨e, z', heq, he, h', hle⟩ := h.writeMetaOf now
  generalize (Command.writeMetaOf store k now).2 = store₁ at heq h' hkept
  unfold Command.zadd
  split
  · exact ⟨z, h⟩
  split
  · exact ⟨z, h⟩
  split
  · exact ⟨z, h⟩
  split
  · exact ⟨z, h⟩
  rw [heq]
  cases pairs with
  | nil => contradiction
  | cons pair pairs =>
    rw [length_cons] at hroom
    cases hincr : flags.incr with
    | true => exact h'.zaddIncr add flags he pair (by omega)
    | false =>
      rw [hincr] at hkept
      have hloop : Looped store₁ k
          { batch := [], pending := empty, count := z'.size, added := 0, changed := 0 }
          (pair :: pairs) z' :=
        { on := OnZset.nil k
          paired := h'.toPaired
          count := rfl
          agrees := fun m => .inl (h'.memberScore m)
          room := by rw [length_cons]; omega }
      obtain ⟨z'', hdone⟩ := hloop.foldl (pair :: pairs) (hkept.resolve_left Bool.false_ne_true)
      dsimp only
      split
      · exact ⟨z', h'⟩
      · exact Sound.commit h'.toKeyed hdone.on hdone.paired he hdone.count (by simpa using hdone.room)

end

/-! ## Runs -/

inductive ZsetCommand where
  | zadd (flags : ZaddFlags) (pairs : List (Score × Bytes))
  | zincrby (delta : Score) (member : Bytes)
  | zrem (members : List Bytes)
  | zpopmin (count : Option Int)
  | zpopmax (count : Option Int)
  | zremrangebyrank (start stop : Int)
  | zremrangebyscore (min max : Score × Bool)
  | zremrangebylex (min max : LexBound)

section

variable (add : Score → Score → Score) (k : UserKey)

def zsetCommand (store : Store) (now : Nat) : ZsetCommand → ZsetReply × Store
  | .zadd flags pairs => zadd add store now k flags pairs
  | .zincrby delta member => zincrby add store now k delta member
  | .zrem members => zrem store now k members
  | .zpopmin count => zpop store now k false count
  | .zpopmax count => zpop store now k true count
  | .zremrangebyrank start stop => zremrangebyrank store now k start stop
  | .zremrangebyscore min max => zremrangebyscore store now k min max
  | .zremrangebylex min max => zremrangebylex store now k min max

def zsetStep (store : Store) (c : Nat × ZsetCommand) : Option Store :=
  some (zsetCommand add k store c.1 c.2).2

def rootCount (store : Store) : Nat :=
  ((store.get (metaKey k)).map fun v => decodeCount (decodeEnvelope v).2).getD 0

def ZsetCommand.adds : ZsetCommand → Nat
  | .zadd _ pairs => pairs.length
  | .zincrby _ _ => 1
  | _ => 0

/-- The call keeps apart the zeros it is given, and the count of the root has room for its members. -/
def KeepsZeros (store : Store) (c : Nat × ZsetCommand) : Prop :=
  rootCount k store + c.2.adds < 2 ^ 64 ∧
  match c.2 with
  | .zadd flags pairs =>
    flags.incr ∨ ZeroSignsKept flags (memberScore (writeMetaOf store k c.1).2 k) pairs
  | _ => True

instance decidableKeepsZeros (store : Store) : ∀ c, Decidable (KeepsZeros k store c)
  | (now, c) => by
    unfold KeepsZeros
    cases c <;> dsimp only <;> infer_instance

end

section

variable {add : Score → Score → Score} {k : UserKey} {store store' : Store} {z : Scores}

theorem Sound.rootCount (h : Sound store k z) : rootCount k store = z.size := by
  obtain ⟨e, he, hroot⟩ := h.root
  rw [Zset.rootCount, hroot]
  split
  · next hz => exact hz.symm
  · rw [map_some, getD_some, decodeEnvelope_encodeEnvelope he, decodeCount_encodeCount h.room]

theorem Sound.zsetCommand (h : Sound store k z) (now : Nat) (c : ZsetCommand)
    (hok : KeepsZeros k store (now, c)) : ∃ z', Sound (zsetCommand add k store now c).2 k z' := by
  obtain ⟨hroom, hkept⟩ := hok
  rw [h.rootCount] at hroom
  cases c with
  | zadd flags pairs => exact h.zadd add now pairs hkept hroom
  | zincrby delta member => exact h.zincrby add now delta member hroom
  | zrem members => exact h.zrem now members
  | zpopmin count => exact h.zpop now false count
  | zpopmax count => exact h.zpop now true count
  | zremrangebyrank start stop => exact h.removeRange now fun h' => h'.rankWindow start stop
  | zremrangebyscore min max => exact h.removeRange now fun h' => h'.scoreWindow min max
  | zremrangebylex min max => exact h.removeRange now fun h' => h'.lexWindow min max

theorem sound_init (k : UserKey) : Sound SortedMap.empty k SortedMap.empty :=
  sound_empty ⟨rfl, fun _ _ _ => rfl, nofun⟩ fun _ _ _ => rfl

/-- In every run whose calls keep the zeros apart, member records and index records stay those of one
map, and the root counts them. -/
theorem zset_records_correspond {calls : List (Nat × ZsetCommand)} (h : Sound store k z)
    (hok : Guarded (zsetStep add k) (KeepsZeros k) store calls)
    (hrun : exec (zsetStep add k) store calls = some store') : ∃ z', Sound store' k z' := by
  refine exec_inv (I := fun store => ∃ z, Sound store k z) ?_ ⟨z, h⟩ hok hrun
  rintro s ⟨now, c⟩ s' ⟨z, hz⟩ hc hstep
  cases hstep
  exact hz.zsetCommand now c hc

end

def zsetKey : UserKey := .sample

/-- The bits of `5.0`. -/
def fiveScore : Score := ⟨⟨0x4014000000000000, by decide⟩⟩

def keptCalls : List (Nat × ZsetCommand) :=
  [(1, .zadd {} [(posZero, [1]), (fiveScore, [2]), (fiveScore, [1])]),
   (2, .zadd { ch := true } [(posZero, [1]), (negZero, [1]), (fiveScore, [3])]),
   (3, .zadd { gt := true } [(negZero, [2]), (fiveScore, [1])]),
   (4, .zincrby negZero [4]),
   (5, .zpopmin none),
   (6, .zremrangebyscore (fiveScore, true) (fiveScore, false)),
   (7, .zrem [[3], [3], [9]])]

theorem zset_records_correspond_sample :
    ∃ store z, exec (zsetStep (fun a _ => a) zsetKey) SortedMap.empty keptCalls = some store ∧
      Sound store zsetKey z ∧ rootCount zsetKey store = 2 := by
  have hok : Guarded (zsetStep (fun a _ => a) zsetKey) (KeepsZeros zsetKey) empty
      keptCalls := by
    decide +kernel
  have hcount : (exec (zsetStep (fun a _ => a) zsetKey) empty keptCalls).map
      (rootCount zsetKey) = some 2 := by
    decide +kernel
  obtain ⟨store, hrun, hcount⟩ := map_eq_some_iff.mp hcount
  obtain ⟨z, hz⟩ := zset_records_correspond (sound_init zsetKey) hok hrun
  exact ⟨store, z, hrun, hz, hcount⟩

def flippedCalls : List (Nat × ZsetCommand) :=
  [(1, .zadd {} [(posZero, [1])]), (2, .zadd {} [(negZero, [1]), (fiveScore, [1])])]

/-- A member at `0` is named with `-0` and then with `5`: its index record at `0` stays behind. -/
theorem zset_stale_zero :
    ∃ store, exec (zsetStep (fun a _ => a) zsetKey) SortedMap.empty flippedCalls = some store ∧
      ¬ ∃ z, Sound store zsetKey z := by
  refine exists_run (P := fun store => store.get (scoreKey zsetKey posZero [1]) = some [] ∧
    store.get (scoreKey zsetKey fiveScore [1]) = some []) (by decide +kernel) ?_
  rintro store - ⟨hzero, hfive⟩ ⟨z, hz⟩
  have hscore : ∀ {s}, store.get (scoreKey zsetKey s [1]) = some [] → z.get [1] = some s := by
    intro s hs
    rw [hz.index] at hs
    split at hs
    · assumption
    · cases hs
  have heq := (hscore hzero).symm.trans (hscore hfive)
  exact absurd (some.inj heq) (by decide)

end Rdb.Command.Zset
