import Rdb.Lite.Effects
import Mathlib.Data.List.Pairwise

/-!
# What a dead-letter stream holds

A transfer writes an entry into the dead-letter stream under the id it has in its
source. Streams that share a dead-letter stream may have entries with one id, and an
entry appended to the dead-letter stream may have the id as well; the later put wins.

`deadLetters_held`: as long as a transfer finds its id free, or taken by the same
entry of the same source, every entry that was moved is held with its fields in
front, and an entry that was not moved there stays as it is.
-/

namespace Rdb.Lite.DeadLetters

open Lib List Option

/-! ## Trace fields come behind -/

theorem isPrefix_pushField (fields : Fields) (name value : Bytes) :
    fields <+: pushField fields name value := by
  unfold pushField
  split
  · exact prefix_rfl
  · exact prefix_append _ _

theorem isPrefix_appendTrace (fields : Fields) (group consumer : Bytes) (times : Nat) (src : Bytes) :
    fields <+: appendTrace fields group consumer times src :=
  (isPrefix_pushField _ _ _).trans ((isPrefix_pushField _ _ _).trans
    ((isPrefix_pushField _ _ _).trans (isPrefix_pushField _ _ _)))

/-! ## The history and the records -/

def MovedTo (d : Bytes) (id : EntryId) (mv : Move) : Prop := mv.dlq = d ∧ mv.id = id
  deriving Decidable

/-- The dead-letter stream has the entry with the fields it had in its source. -/
def Held (r : Records) (mv : Move) : Prop :=
  ∃ f, (r.entries mv.dlq).get mv.id = some f ∧ mv.fields <+: f

instance (r : Records) (mv : Move) : Decidable (Held r mv) :=
  decidable_of_iff (((r.entries mv.dlq).get mv.id).any fun f => decide (mv.fields <+: f)) (by
    simp [Held, Option.any_eq_true])

/-- The target has no entry under the id, or the one that was moved there from the same source. -/
def Room (w : World) (t : Threat) (id : EntryId) : Prop :=
  (w.records.entries t.dlq).get id = none ∨
    (∃ mv ∈ w.moves, MovedTo t.dlq id mv) ∧ ∀ mv ∈ w.moves, MovedTo t.dlq id mv →
      mv.source = t.source ∧ some mv.fields = (w.records.entries t.source).get id
  deriving Decidable

/-- The commands the law is about: XADD, reads, acknowledgements, claims and sweeps. Trims and
deletes of a dead-letter stream are not among them. -/
def Listed : Action → Prop
  | .xadd _ _ o _ _ => o.trim = none
  | .xtrim .. | .xdel .. | .exchange .. => False
  | _ => True

instance decidableListed : ∀ a, Decidable (Listed a)
  | .xadd _ _ o _ _ => inferInstanceAs (Decidable (o.trim = none))
  | .xtrim .. | .xdel .. | .exchange .. => inferInstanceAs (Decidable False)
  | .xreadgroup .. | .xack .. | .xclaim .. | .xautoclaim .. | .sweep .. | .delconsumer ..
  | .setid .. | .flush .. | .restart => .isTrue trivial

/-- An XADD goes to a stream whose last id bounds its entries. -/
def Lands (w : World) : Action → Prop
  | .xadd _ s _ _ _ => Bounded w.records s
  | _ => True

instance decidableLands (w : World) : ∀ a, Decidable (Lands w a)
  | .xadd _ s _ _ _ => inferInstanceAs (Decidable (Bounded w.records s))
  | .xtrim .. | .xdel .. | .exchange .. | .xreadgroup .. | .xack .. | .xclaim .. | .xautoclaim ..
  | .sweep .. | .delconsumer .. | .setid .. | .flush .. | .restart => .isTrue trivial

/-- The transfers of the command find room, those of different streams move different ids, and an
XADD goes to a stream whose last id bounds its entries. -/
def Clean (w : World) (a : Action) : Prop :=
  (threats w.runtime a).Pairwise (fun t t' =>
    t.dlq = t'.dlq → t.source ≠ t'.source → ∀ id ∈ t.ids, id ∉ t'.ids) ∧
  (∀ t ∈ threats w.runtime a, ∀ id ∈ t.ids, Room w t id) ∧ Lands w a
  deriving Decidable

/-! ## What the transfers of a batch leave -/

section

variable {r : Records} {now : Nat} {ws : List Write} {ts : List Transfer}

def Carries (r : Records) (x : Transfer) (id : EntryId) (f : Fields) : Prop :=
  (r.entries x.source).get id = some f ∧ ∃ row ∈ storedRows r x.source x.rows, row.id = id

theorem carries_of_mem_puts {x : Transfer} {e : EntryId × Fields} (h : e ∈ x.puts r) :
    ∃ f, Carries r x e.1 f ∧ f <+: e.2 := by
  obtain ⟨row, hrow, he⟩ := mem_filterMap.mp h
  obtain ⟨f, hf, rfl⟩ := map_eq_some_iff.mp he
  exact ⟨f, ⟨hf, row, mem_filter.mpr ⟨hrow, by rw [hf]; rfl⟩, rfl⟩, isPrefix_appendTrace _ _ _ _ _⟩

theorem carries_of_mem_moves {x : Transfer} {mv : Move} (h : mv ∈ x.moves r) :
    mv.dlq = x.dlq ∧ mv.source = x.source ∧ Carries r x mv.id mv.fields := by
  obtain ⟨row, hrow, he⟩ := mem_filterMap.mp h
  obtain ⟨f, hf, rfl⟩ := map_eq_some_iff.mp he
  exact ⟨rfl, rfl, hf, row, hrow, rfl⟩

theorem get_write_batch (h : Batch r now ws ts) (t : Bytes) (id : EntryId) :
    (((r.write ws).entries t).get id = (r.entries t).get id ∧
      ∀ x ∈ ts, x.dlq = t → ∀ f, ¬ Carries r x id f) ∨
    ∃ x ∈ ts, x.dlq = t ∧ ∃ f v, Carries r x id f ∧ f <+: v ∧
      ((r.write ws).entries t).get id = some v := by
  rw [Records.entries_write, h.entries, SortedMap.get_write]
  cases hlast : lastWrite id (ts.flatMap fun x =>
      if x.dlq = t then (x.puts r).map fun e => BatchOp.put e.1 e.2 else []) with
  | none =>
    refine .inl ⟨rfl, fun x hx hd f hc => ?_⟩
    obtain ⟨hf, row, hrow, rfl⟩ := hc
    refine lastWrite_eq_none.mp hlast
      (.put row.id (appendTrace f x.group row.consumer row.times x.source)) ?_ rfl
    refine mem_flatMap.mpr ⟨x, hx, ?_⟩
    rw [if_pos hd]
    refine mem_map_of_mem (f := fun e : EntryId × Fields => BatchOp.put e.1 e.2)
      (a := (row.id, appendTrace f x.group row.consumer row.times x.source)) ?_
    exact mem_filterMap.mpr ⟨row, (mem_filter.mp hrow).1, by rw [hf]; rfl⟩
  | some v =>
    obtain ⟨op, hop, hkey, hval⟩ := exists_of_lastWrite hlast
    obtain ⟨x, hx, hop⟩ := mem_flatMap.mp hop
    split at hop
    · next hd =>
      obtain ⟨e, he, rfl⟩ := mem_map.mp hop
      obtain ⟨f, hc, hpre⟩ := carries_of_mem_puts he
      cases hkey
      cases hval
      exact .inr ⟨x, hx, hd, f, e.2, hc, hpre, rfl⟩
    · cases hop

end

/-- Transfers of different streams into one target move different ids. -/
def Apart (r : Records) (x y : Transfer) : Prop :=
  x.dlq = y.dlq → x.source ≠ y.source → ∀ row ∈ storedRows r x.source x.rows,
    ∀ row' ∈ storedRows r y.source y.rows, row.id ≠ row'.id

instance (r : Records) : Std.Symm (Apart r) where
  symm _ _ h hd hs row hrow row' hrow' heq := h hd.symm hs.symm row' hrow' row hrow heq.symm

/-! ## Steps -/

/-- An entry that no transfer has put there is in the stream and stays. -/
def Stays (w w' : World) : Prop :=
  ∀ s id f, (w.records.entries s).get id = some f → (∀ mv ∈ w.moves, ¬ MovedTo s id mv) →
    (w'.records.entries s).get id = some f ∧ ∀ mv ∈ w'.moves, ¬ MovedTo s id mv

theorem effect_held {w w' : World} {now : Nat} {moves : List Move} {a : Action}
    (hheld : ∀ mv ∈ w.moves, Held w.records mv) (hc : Clean w a)
    (heff : Effect w.runtime w'.runtime now moves (threats w.runtime a))
    (hmoves : w'.moves = w.moves ++ moves) :
    (∀ mv ∈ w'.moves, Held w'.records mv) ∧ Stays w w' := by
  obtain ⟨ws, ts, hr, hbatch, rfl, hwithin⟩ := heff
  have hr : w'.records = w.records.write ws := hr
  -- what a transfer carries is among the ids that the state before threatens
  have hroom : ∀ x ∈ ts, ∀ id f, Carries w.records x id f →
      (w.records.entries x.dlq).get id = none ∨
        (∃ mv ∈ w.moves, MovedTo x.dlq id mv) ∧ ∀ mv ∈ w.moves, MovedTo x.dlq id mv →
          mv.fields = f := by
    rintro x hx id f ⟨hf, row, hrow, rfl⟩
    obtain ⟨t, ht, hcov⟩ := covered_of_within hwithin hx
    have hroom := hc.2.1 t ht row.id (hcov.ids row hrow)
    unfold Room at hroom
    rw [← hcov.dlq, ← hcov.source, hf] at hroom
    exact hroom.imp_right fun h => ⟨h.1, fun mv hmv hat => some.inj (h.2 mv hmv hat).2⟩
  have hsame : ∀ x ∈ ts, ∀ y ∈ ts, x.dlq = y.dlq → ∀ id f f', Carries w.records x id f →
      Carries w.records y id f' → f = f' := by
    rintro x hx y hy hd id f f' ⟨hf, row, hrow, rfl⟩ ⟨hf', row', hrow', hid⟩
    by_cases hsrc : x.source = y.source
    · rw [hsrc, hf'] at hf
      exact (some.inj hf).symm
    · obtain ⟨l, hsub, hall⟩ := hwithin
      have hpair : ts.Pairwise (Apart w.records) := by
        refine pairwise_of_forall₂ hall (hc.1.sublist hsub) ?_
        intro x y t t' hx hy hd hxy hs row hrow row' hrow' heq
        exact hd (hx.dlq.symm.trans (hxy.trans hy.dlq)) (hx.source ▸ hy.source ▸ hs)
          row.id (hx.ids row hrow) (heq ▸ hy.ids row' hrow')
      have hne : x ≠ y := fun h => hsrc (by rw [h])
      exact absurd hid.symm (hpair.forall hx hy hne hd hsrc row hrow row' hrow')
  refine ⟨fun mv hmv => ?_, fun s id f hf hno => ?_⟩
  · rw [hmoves] at hmv
    unfold Held
    rw [hr]
    rcases mem_append.mp hmv with hmv | hmv
    · obtain ⟨v, hv, hpre⟩ := hheld mv hmv
      rcases get_write_batch hbatch mv.dlq mv.id with ⟨hget, -⟩ |
        ⟨x, hx, hd, f, v', hcar, hpre', hget⟩
      · exact ⟨v, hget.trans hv, hpre⟩
      · rcases hroom x hx mv.id f hcar with hnone | ⟨-, hall⟩
        · rw [hd, hv] at hnone
          cases hnone
        · rw [hall mv hmv ⟨hd.symm, rfl⟩]
          exact ⟨v', hget, hpre'⟩
    · obtain ⟨y, hy, hmv⟩ := mem_flatMap.mp hmv
      obtain ⟨hdy, -, hcy⟩ := carries_of_mem_moves hmv
      rcases get_write_batch hbatch mv.dlq mv.id with ⟨-, hnone⟩ |
        ⟨x, hx, hd, f, v, hcar, hpre, hget⟩
      · exact absurd hcy (hnone y hy hdy.symm _)
      · rw [hsame y hy x hx (hdy.symm.trans hd.symm) mv.id mv.fields f hcy hcar]
        exact ⟨v, hget, hpre⟩
  · -- nothing is put over an entry that has not been moved there
    have hfree : ∀ x ∈ ts, x.dlq = s → ∀ f', ¬ Carries w.records x id f' := by
      rintro x hx rfl f' hcar
      rcases hroom x hx id f' hcar with hnone | ⟨⟨mv, hmv, hat⟩, -⟩
      · rw [hf] at hnone
        cases hnone
      · exact hno mv hmv hat
    rw [hr, hmoves]
    constructor
    · rcases get_write_batch hbatch s id with ⟨hget, -⟩ | ⟨x, hx, hd, f', -, hcar, -⟩
      · exact hget.trans hf
      · exact absurd hcar (hfree x hx hd f')
    · intro mv hmv hat
      rcases mem_append.mp hmv with hmv | hmv
      · exact hno mv hmv hat
      · obtain ⟨y, hy, hmv⟩ := mem_flatMap.mp hmv
        obtain ⟨hdy, -, hcy⟩ := carries_of_mem_moves hmv
        rw [hat.2] at hcy
        exact hfree y hy (hdy.symm.trans hat.1) _ hcy

/-- No deadline is set, and every entry that was moved is held. -/
structure Sound (w : World) : Prop where
  timeless : ∀ s, Timeless w.records s
  held : ∀ mv ∈ w.moves, Held w.records mv

theorem step_sound {w w' : World} {a : Action} (hs : Sound w) (hl : Listed a) (hc : Clean w a)
    (h : step w a = some w') : Sound w' ∧ Stays w w' := by
  by_cases ha : a.appends = false
  · obtain ⟨now, moves, heff, hmoves⟩ := step_effect ha h
    obtain ⟨hheld, hstays⟩ := effect_held hs.held hc heff hmoves
    obtain ⟨ws, ts, hr, hbatch, -⟩ := heff
    refine ⟨⟨fun s => ?_, hheld⟩, hstays⟩
    show Timeless w'.runtime.records s
    rw [hr]
    exact hbatch.timeless (hs.timeless s)
  cases a with
  | xadd now s o idArg fields =>
    cases h
    rcases xadd_cases now o idArg fields (hs.timeless s) hc.2.2 with heq |
      ⟨id, ws, next, victims, -, hr, hacc, hvict⟩
    · rw [heq]
      exact ⟨hs, fun _ _ _ hf hno => ⟨hf, hno⟩⟩
    · have hkeep : ∀ t id f, (w.records.entries t).get id = some f →
          ((xadd w.runtime now s o idArg fields).records.entries t).get id = some f := by
        intro t id f hf
        rw [hr]
        by_cases ht : t = s
        · subst ht
          exact hacc.get_stored hc.2.2 (hvict hl) hf
        · rw [(w.records.write_untouched (hacc.only t ht)).2]
          exact hf
      refine ⟨⟨fun t => ?_, fun mv hmv => ?_⟩, fun t id f hf hno => ⟨hkeep t id f hf, hno⟩⟩
      · show Timeless (xadd w.runtime now s o idArg fields).records t
        rw [hr]
        exact hacc.timeless_of_timeless (hs.timeless t)
      · obtain ⟨f, hf, hpre⟩ := hs.held mv hmv
        exact ⟨f, hkeep _ _ _ hf, hpre⟩
  | xtrim | xdel | exchange => exact hl.elim
  | xreadgroup | xack | xclaim | xautoclaim | sweep | delconsumer | setid | flush | restart =>
    exact absurd rfl ha

theorem deadLetters_held {w w₁ : World} {as : List Action} (hw : Sound w)
    (hg : Guarded step (fun w a => Listed a ∧ Clean w a) w as) (h : exec step w as = some w₁) :
    (∀ mv ∈ w₁.moves, Held w₁.records mv) ∧
      ∀ a w₂, Listed a → Clean w₁ a → step w₁ a = some w₂ → Stays w₁ w₂ := by
  have hs : Sound w₁ := exec_inv (fun w a w' hs hc h => (step_sound hs hc.1 hc.2 h).1) hw hg h
  exact ⟨hs.held, fun a w₂ hl hc h₂ => (step_sound hs hl hc h₂).2⟩

/-! ## Two sources, one id -/

def secondStream : Bytes := [116, 47, 99]

/-- Streams `t/a` and `t/c` with one entry each, over the cap; both groups move to `t/b`. -/
def shared (id : EntryId) : World where
  runtime := { records := Records.write {
    metas := fun s =>
      if s = sampleStream ∨ s = secondStream then some ⟨{ lastMs := 9, len := 1 }, 0⟩ else none
    entries := fun s =>
      if s = sampleStream then .ofList [(⟨1, 0⟩, [([102], [118])])]
      else if s = secondStream then .ofList [(id, [([102], [119])])]
      else .empty
    groups := fun s g =>
      if (s = sampleStream ∨ s = secondStream) ∧ g = [103] then
        some ⟨0, minId, minId, false, 0, 1, sampleMissing⟩
      else none } [.pend sampleStream [103] (.put ⟨1, 0⟩ ⟨[99], 0, 1, 0⟩),
        .pend secondStream [103] (.put id ⟨[99], 0, 1, 0⟩)] }

def sweeps : List Action := [.sweep 5 1 9 sampleStream [103], .sweep 5 1 9 secondStream [103]]

theorem shared_sound (id : EntryId) : Sound (shared id) := by
  refine ⟨fun s m hm => ?_, nofun⟩
  have hm : (if s = sampleStream ∨ s = secondStream then
      some (⟨{ lastMs := 9, len := 1 }, 0⟩ : MetaRecord) else none) = some m := hm
  split at hm
  · cases hm
    exact ⟨rfl, rfl⟩
  · cases hm

theorem deadLetters_held_apart : ∃ w₁, exec step (shared ⟨2, 0⟩) sweeps = some w₁ ∧
    w₁.moves.length = 2 ∧ ∀ mv ∈ w₁.moves, Held w₁.records mv := by
  have hg : Guarded step (fun w a => Listed a ∧ Clean w a) (shared ⟨2, 0⟩) sweeps := by
    decide +kernel
  exact exists_run (by decide +kernel) fun w₁ hw₁ hlen =>
    ⟨hlen, (deadLetters_held (shared_sound _) hg hw₁).1⟩

/-- The entries of both sources have the id `1-0`: the second sweep overwrites what the first has
moved. -/
theorem deadLetters_overwritten : Sound (shared ⟨1, 0⟩) ∧
    ∃ w₁, exec step (shared ⟨1, 0⟩) sweeps = some w₁ ∧ ∃ mv ∈ w₁.moves, ¬ Held w₁.records mv :=
  ⟨shared_sound _, exists_run (by decide +kernel) fun _ _ hlost => hlost⟩

end Rdb.Lite.DeadLetters
