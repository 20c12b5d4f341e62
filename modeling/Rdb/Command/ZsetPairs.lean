import Rdb.Command.ZsetCmd

/-!
# The two records of a member

`Paired store k z` says that the member records and the index records of a key are those
of one map from members to scores, bit by bit; `Sound` adds the root, which counts them.
A batch that moves a member from the bits it has to new ones keeps the records paired
(`Paired.put`), as does one that drops both records of members that are there
(`Paired.dropScored`); the commit then writes a root that fits (`Sound.commit`).
-/

namespace Rdb.Command.Zset

open Lib Ds ZsetDs List SortedMap UserKey
open SortedMap (empty)

abbrev Scores := SortedMap Bytes Score

/-- Member records and index records are those of one map. -/
structure Paired (store : Store) (k : UserKey) (z : Scores) : Prop where
  member : ∀ m, store.get (memberKey k m) = (z.get m).map fun s => beBytes 8 (scoreSortable s)
  index : ∀ s m, store.get (scoreKey k s m) = if z.get m = some s then some [] else none
  short : ∀ t, t.length < 8 → store.get (scoreKeyFromSuffix k t) = none

variable {store : Store} {k : UserKey} {z : Scores}

theorem Paired.memberScore (h : Paired store k z) (m : Bytes) :
    memberScore store k m = z.get m := by
  rw [ZsetDs.memberScore, h.member]
  cases z.get m with
  | none => rfl
  | some s =>
    rw [Option.map_some, Option.bind_some, if_neg (by rw [length_beBytes]; omega),
      take_of_length_le (by rw [length_beBytes]), ofBe_beBytes_of_lt (scoreSortable_lt s),
      sortableScore_scoreSortable]

/-! ## Writes -/

section

variable {store : Store} {k : UserKey} {z : Scores} {m : Bytes}

theorem Paired.put (h : Paired store k z) {old : Option Score} (hold : z.get m = old) (s : Score) :
    Paired (store.write (old.toList.map (delScored k · m) ++ [putMember k m s, putScored k s m])) k
      (z.put m s) := by
  have hkeep : ∀ x, (∀ p ∈ old, scoreKey k p m ≠ x) →
      (store.write (old.toList.map (delScored k · m))).get x = store.get x := by
    intro x hx
    refine get_write_of_not_mem fun op hop => ?_
    obtain ⟨p, hp, rfl⟩ := mem_map.mp hop
    exact hx p (Option.mem_toList.mp hp)
  have hgone : ∀ p ∈ old, (store.write (old.toList.map (delScored k · m))).get (scoreKey k p m) = none := by
    rintro p rfl
    exact (get_delete _ _ _).trans (if_pos rfl)
  refine ⟨fun m' => ?_, fun s' m' => ?_, fun t ht => ?_⟩
  · rw [write_append, get_put]
    simp only [write_cons, write_nil, get_apply, putMember,
      putScored, BatchOp.key_put, scoreKey_ne_memberKey, memberKey_inj, if_false]
    rw [hkeep _ fun p _ => scoreKey_ne_memberKey k m' p m, h.member]
    split <;> rfl
  · rw [write_append, get_put]
    simp only [write_cons, write_nil, get_apply, putMember,
      putScored, BatchOp.key_put, memberKey_ne_scoreKey, scoreKey_inj, if_false]
    by_cases hm : m = m'
    · subst hm
      by_cases hs : s = s'
      · simp [hs]
      · rw [if_neg fun hc => hs hc.1, if_pos rfl, if_neg fun hc => hs (Option.some.inj hc)]
        by_cases hp : s' ∈ old
        · exact hgone s' hp
        · have hne : ∀ p ∈ old, scoreKey k p m ≠ scoreKey k s' m := by
            rintro p hp' he
            obtain ⟨rfl, -⟩ := scoreKey_inj.mp he
            exact hp hp'
          rw [hkeep _ hne, h.index, hold]
          exact if_neg hp
    · rw [if_neg fun hc => hm hc.2, if_neg hm, hkeep _ fun p _ he => hm (scoreKey_inj.mp he).2, h.index]
  · rw [write_append]
    have hne : ∀ p m', scoreKey k p m' ≠ scoreKeyFromSuffix k t := by
      intro p m' he
      have hlen := length_scoreSuffix p m'
      rw [(elem_inj he).2.2] at hlen
      omega
    simp only [write_cons, write_nil, get_apply, putMember, putScored,
      BatchOp.key_put, memberKey_ne_scoreKeyFromSuffix, hne, if_false]
    rw [hkeep _ fun p _ => hne p m, h.short t ht]

theorem Paired.delete (h : Paired store k z) {s : Score} (hs : z.get m = some s) :
    Paired (store.write [delMember k m, delScored k s m]) k (z.delete m) := by
  refine ⟨fun m' => ?_, fun s' m' => ?_, fun t ht => ?_⟩
  · rw [get_delete]
    simp only [write_cons, write_nil, get_apply, delMember,
      delScored, BatchOp.key_del, scoreKey_ne_memberKey, memberKey_inj, if_false, h.member]
    split <;> rfl
  · rw [get_delete]
    simp only [write_cons, write_nil, get_apply, delMember, delScored, h.index]
    by_cases hm : m = m'
    · subst hm
      by_cases he : s = s' <;> simp [hs]
    · simp [hm]
  · have hne : scoreKey k s m ≠ scoreKeyFromSuffix k t := by
      intro he
      have hlen := length_scoreSuffix s m
      rw [(elem_inj he).2.2] at hlen
      omega
    simp only [write_cons, write_nil, get_apply, delMember, delScored,
      BatchOp.key_del, memberKey_ne_scoreKeyFromSuffix, hne, if_false, h.short t ht]

/-- What a removal command takes out: pairs that are there, each member once. -/
structure Window (z : Scores) (window : List (Bytes × Score)) : Prop where
  nodup : (window.map (·.1)).Nodup
  get : ∀ e ∈ window, z.get e.1 = some e.2

theorem Window.tail {e : Bytes × Score} {window : List (Bytes × Score)} (h : Window z (e :: window)) :
    Window (z.delete e.1) window := by
  obtain ⟨hnew, hnodup⟩ := nodup_cons.mp h.nodup
  refine ⟨hnodup, fun e' he' => ?_⟩
  have hne : e.1 ≠ e'.1 := fun heq => hnew (mem_map.mpr ⟨e', he', heq.symm⟩)
  rw [get_delete, if_neg hne]
  exact h.get e' (mem_cons_of_mem _ he')

theorem Window.sublist {w w' : List (Bytes × Score)} (h : Window z w) (hs : w'.Sublist w) :
    Window z w' :=
  ⟨h.nodup.sublist (hs.map _), fun e he => h.get e (hs.subset he)⟩

theorem Paired.dropScored {window : List (Bytes × Score)} (h : Paired store k z)
    (hw : Window z window) :
    ∃ z' : Scores, Paired (store.write (dropScored k window)) k z' ∧
      z'.size = z.size - window.length := by
  induction window generalizing store z with
  | nil => exact ⟨z, h, rfl⟩
  | cons e window ih =>
    have he := hw.get e mem_cons_self
    obtain ⟨z', hz', hsize⟩ := ih (h.delete he) hw.tail
    refine ⟨z', hz', ?_⟩
    have hdel := size_delete (m := z) (k := e.1) (by rw [he]; rfl)
    rw [length_cons]
    omega

end

/-! ## What is not a record of the set -/

/-- Nothing changed but records of the sorted set at `k`, and nothing else came up. -/
def Frame (k : UserKey) (store store' : Store) : Prop :=
  ∀ x, (∀ kind ∈ familyKinds zsetFamily, ¬ k.data kind <+: x) →
    store'.get x = store.get x ∨ store'.get x = none

/-- The key is a sorted set or missing, and no record but its own is taken for one of its index. -/
structure Keyed (store : Store) (k : UserKey) : Prop where
  raw : store.get k.raw = none
  others : ∀ kind ∈ metaKinds, kind ≠ kindZsetMeta → store.get (k.data kind) = none
  genuine : ∀ x, (store.get x).isSome →
    (isScoreRecord x k.pre.length k.bytes).isSome → ∃ t, x = scoreKeyFromSuffix k t

theorem zsetKinds (kind : UInt8) (h : kind ∈ familyKinds zsetFamily) :
    kind = kindZsetMeta ∨ kind = kindZsetMember ∨ kind = kindZsetScore := by
  have hlist : familyKinds zsetFamily = [kindZsetMeta, kindZsetMember, kindZsetScore] := by decide
  simpa [hlist] using h

theorem Keyed.frame {store' : Store} (h : Keyed store k)
    (hf : Frame k store store') : Keyed store' k := by
  refine ⟨?_, fun kind hkind hne => ?_, fun x hx hrec => ?_⟩
  · have := hf k.raw fun kind _ ⟨t, ht⟩ => k.raw_ne_elem kind t ht.symm
    rwa [h.raw, or_self] at this
  · have hout : ∀ kind' ∈ familyKinds zsetFamily, ¬ k.data kind' <+: k.data kind := by
      intro kind' hmem hpre
      rw [← k.elem_nil kind] at hpre
      obtain ⟨-, rfl⟩ := eq_of_data_isPrefix hpre
      revert hkind hne
      rcases zsetKinds kind' hmem with rfl | rfl | rfl <;> decide
    have := hf _ hout
    rwa [h.others kind hkind hne, or_self] at this
  · by_cases hin : ∃ kind ∈ familyKinds zsetFamily, k.data kind <+: x
    · obtain ⟨kind, hmem, t, rfl⟩ := hin
      have hrec' : isScoreRecord (k.elem kind t) k.pre.length k.bytes =
          if kind = kindZsetScore ∧ 8 ≤ t.length then some t else none := by
        refine isScoreRecord_elem k ?_ ?_ t
        · rcases zsetKinds kind hmem with rfl | rfl | rfl <;> decide
        · rcases zsetKinds kind hmem with rfl | rfl | rfl <;> decide
      have hrec : (isScoreRecord (k.elem kind t) k.pre.length k.bytes).isSome := hrec
      rw [hrec'] at hrec
      split at hrec
      · next hs => exact ⟨t, by rw [hs.1]; rfl⟩
      · cases hrec
    · rcases hf x fun kind hmem hpre => hin ⟨kind, hmem, hpre⟩ with he | he
      · rw [he] at hx
        exact h.genuine x hx hrec
      · rw [he] at hx
        cases hx

/-- Every write of a batch is to a record of the sorted set. -/
def OnZset (k : UserKey) (ops : List WriteOp) : Prop :=
  ∀ op ∈ ops, (∃ m, op.key = memberKey k m) ∨ ∃ s m, op.key = scoreKey k s m

theorem OnZset.nil (k : UserKey) : OnZset k [] := nofun

variable {ops : List WriteOp}

theorem OnZset.append {ops' : List WriteOp} (h : OnZset k ops) (h' : OnZset k ops') :
    OnZset k (ops ++ ops') := fun op hop => (mem_append.mp hop).elim (h op) (h' op)

theorem onZset_rescore (k : UserKey) (m : Bytes) (old : Option Score) (s : Score) :
    OnZset k (old.toList.map (delScored k · m) ++ [putMember k m s, putScored k s m]) := by
  intro op hop
  simp only [mem_append, mem_map, mem_cons, not_mem_nil, or_false] at hop
  rcases hop with ⟨p, -, rfl⟩ | rfl | rfl
  · exact .inr ⟨p, m, rfl⟩
  · exact .inl ⟨m, rfl⟩
  · exact .inr ⟨s, m, rfl⟩

theorem onZset_dropScored (k : UserKey) (window : List (Bytes × Score)) :
    OnZset k (dropScored k window) := by
  intro op hop
  obtain ⟨e, -, he⟩ := mem_flatMap.mp hop
  simp only [mem_cons, not_mem_nil, or_false] at he
  rcases he with rfl | rfl
  · exact .inl ⟨e.1, rfl⟩
  · exact .inr ⟨e.2, e.1, rfl⟩

theorem OnZset.get_of_not (h : OnZset k ops) (store : Store) {x : Bytes}
    (hx : ∀ kind ∈ familyKinds zsetFamily, kind ≠ kindZsetMeta → ¬ k.data kind <+: x) :
    (store.write ops).get x = store.get x := by
  refine get_write_of_not_mem fun op hop hkey => ?_
  rcases h op hop with ⟨m, hm⟩ | ⟨s, m, hm⟩
  · exact hx kindZsetMember (by decide) (by decide) (hkey ▸ hm ▸ k.data_isPrefix_elem _ _)
  · exact hx kindZsetScore (by decide) (by decide) (hkey ▸ hm ▸ k.data_isPrefix_elem _ _)

/-! ## Sound stores -/

/-- The records of a key are those of a map, and the root counts them. -/
structure Sound (store : Store) (k : UserKey) (z : Scores) : Prop extends Keyed store k, Paired store k z where
  root : ∃ e < 2 ^ 63, store.get (metaKey k) =
    if z.size = 0 then none else some (encodeEnvelope e (encodeCount z.size))
  room : z.size < 2 ^ 64

theorem eq_empty_of_size (h : z.size = 0) : z = empty := by
  refine ext fun m => ?_
  rw [get_empty, get_eq_none, eq_nil_of_length_eq_zero h]
  nofun

theorem paired_empty (h : ∀ kind ∈ familyKinds zsetFamily, ∀ t, store.get (k.elem kind t) = none) :
    Paired store k empty :=
  ⟨fun m => h _ (by decide) m, fun s m => h _ (by decide) _, fun t _ => h _ (by decide) t⟩

theorem sound_empty (hk : Keyed store k)
    (h : ∀ kind ∈ familyKinds zsetFamily, ∀ t, store.get (k.elem kind t) = none) :
    Sound store k empty where
  toKeyed := hk
  toPaired := paired_empty h
  root := ⟨0, by decide, by rw [metaKey, ← k.elem_nil, h _ (by decide)]; rfl⟩
  room := by decide

theorem Keyed.wipe (h : Keyed store k) (rows : Option Store) (e : Nat) :
    Sound (batchWrite store (familyDeleteEntries rows k.pre zsetFamily k.bytes e)) k
      empty := by
  refine sound_empty (h.frame fun x hx => ?_) fun kind hkind t => ?_
  · rw [get_familyDeleteEntries store rows k (by decide)]
    split
    · exact .inr rfl
    · exact .inl rfl
  · rw [get_familyDeleteEntries store rows k (by decide),
      if_pos (.inl ⟨kind, hkind, k.data_isPrefix_elem kind t⟩)]

theorem Keyed.write (h : Keyed store k) (hon : OnZset k ops) : Keyed (store.write ops) k :=
  h.frame fun _ hx => .inl (hon.get_of_not store fun kind hkind _ => hx kind hkind)

theorem Sound.commit (h : Keyed store k) (hon : OnZset k ops) (hp : Paired (store.write ops) k z)
    {e count : Nat} (he : e < 2 ^ 63) (hcount : count = z.size) (hroom : z.size < 2 ^ 64) :
    ∃ z', Sound (commitZset store k e count ops) k z' := by
  subst hcount
  unfold commitZset
  rw [batchWrite_append, batchWrite_ops]
  by_cases hz : z.size = 0
  · rw [if_pos hz]
    exact ⟨empty, (h.write hon).wipe none e⟩
  · rw [if_neg hz]
    have hput : ∀ kind t, kind ≠ kindZsetMeta →
        ((store.write ops).put (metaKey k) (encodeEnvelope e (encodeCount z.size))).get
          (k.elem kind t) = (store.write ops).get (k.elem kind t) := by
      intro kind t hne
      rw [get_put, metaKey, ← k.elem_nil, if_neg (elem_ne_of_kind (Ne.symm hne))]
    refine ⟨z, (h.write hon).frame fun x hx => .inl ?_, ?_, ⟨e, he, ?_⟩, hroom⟩
    · refine (get_put _ _ _ _).trans (if_neg ?_)
      intro heq
      exact hx kindZsetMeta (by decide) (heq ▸ prefix_rfl)
    · exact ⟨fun m => (hput _ m (by decide)).trans (hp.member m),
        fun s m => (hput _ _ (by decide)).trans (hp.index s m),
        fun t ht => (hput _ t (by decide)).trans (hp.short t ht)⟩
    · rw [if_neg hz]
      exact (get_put _ _ _ _).trans (if_pos rfl)

/-! ## What a command reads -/

/-- The deadline and the count that a command reads are those of a sound store; a set that was due is
gone. -/
inductive Opened (k : UserKey) (z : Scores) : ZSetState × Store → Prop
  | missing {store : Store} (h : Sound store k empty) : Opened k z (.missing, store)
  | zset {store : Store} {e : Nat} (h : Sound store k z) (he : e < 2 ^ 63) (hne : z.size ≠ 0) :
    Opened k z (.zset e z.size, store)

theorem Sound.zsetState (h : Sound store k z) (now : Nat) : Opened k z (zsetState store k now) := by
  obtain ⟨e, he, hroot⟩ := h.root
  have hfirst : firstRoot store k.pre k.bytes =
      (store.get (metaKey k)).map fun v => (kindZsetMeta, decodeEnvelope v) :=
    firstRoot_of_only (by decide) fun kind hkind hne => h.others kind hkind hne
  have hraw : store.get (stringKey k.pre k.bytes) = none := h.raw
  by_cases hz : z.size = 0
  · rw [if_pos hz] at hroot
    have hres : resolveWith store k.pre k.bytes now = (.missing, none) := by
      unfold resolveWith
      rw [hraw, hfirst, hroot]
      rfl
    simp only [Command.zsetState, resolve, hres]
    exact .missing (eq_empty_of_size hz ▸ h)
  · rw [if_neg hz] at hroot
    have henv := decodeEnvelope_encodeEnvelope he (encodeCount z.size)
    by_cases hdue : isExpired e now
    · have hres : resolveWith store k.pre k.bytes now = (.missing, some zsetFamily) := by
        unfold resolveWith
        rw [hraw, hfirst, hroot]
        simp only [Option.map_some, henv, hdue]
        rfl
      have hpurge : purgeIfExpired store k.pre zsetFamily k.bytes now =
          batchWrite store (familyDeleteEntries (some store) k.pre zsetFamily k.bytes e) := by
        have hget : store.get (dataKey k.pre zsetFamily.1 k.bytes) =
            some (encodeEnvelope e (encodeCount z.size)) := hroot
        simp only [purgeIfExpired, lazyPurgeBatch, hget, Option.bind_some, henv, hdue, if_true,
          Option.elim_some]
      simp only [Command.zsetState, resolve, hres, Option.elim_some, hpurge]
      exact .missing (h.toKeyed.wipe (some store) e)
    · have hres : resolveWith store k.pre k.bytes now =
          (.enveloped kindZsetMeta e (encodeCount z.size), none) := by
        unfold resolveWith
        rw [hraw, hfirst, hroot]
        simp only [Option.map_some, henv, hdue, if_false, Bool.false_eq_true]
      simp only [Command.zsetState, resolve, hres, decodeCount_encodeCount h.room]
      exact .zset h he hz

theorem Sound.writeMetaOf (h : Sound store k z) (now : Nat) :
    ∃ e z', writeMetaOf store k now = (some (e, z'.size), (writeMetaOf store k now).2) ∧ e < 2 ^ 63 ∧
      Sound (writeMetaOf store k now).2 k z' ∧ z'.size ≤ z.size := by
  have ho := h.zsetState now
  unfold Command.writeMetaOf
  generalize Command.zsetState store k now = r at ho ⊢
  cases ho with
  | missing h' => exact ⟨0, empty, rfl, by decide, h', Nat.zero_le _⟩
  | zset h' he _ => exact ⟨_, z, rfl, he, h', le_rfl⟩

end Rdb.Command.Zset
