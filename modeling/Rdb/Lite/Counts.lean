import Rdb.Lite.Effects

/-!
# The meta record of a stream

Appends, trims, deletes and exchanges write the meta record from the record they
read, and so does a dead-letter transfer for its target. A transfer reads the target
without the open batch. Two transfers of one batch into one target therefore count
from the same length, and an id that the target has already is overwritten.

`counts_exact`: as long as a command moves entries into a dead-letter stream at most
once, and none whose id is taken there, the length is the number of entries, the last
id bounds them and does not go down, and no entry that is stored changes.
-/

namespace Rdb.Lite.Counts

open Lib List SortedMap

/-- The last id has not gone down, and an entry that is still there is the same. -/
structure Grows (r r' : Records) (s : Bytes) : Prop where
  last : ∀ m ∈ r.metas s, ∃ m' ∈ r'.metas s, m.payload.lastId ≤ m'.payload.lastId
  kept : ∀ id f f', (r.entries s).get id = some f → (r'.entries s).get id = some f' → f' = f

/-- The account of the stream is right again, and has grown. -/
structure Keeps (r r' : Records) (s : Bytes) : Prop where
  exact : Exact r' s
  timeless : Timeless r' s
  grows : Grows r r' s

variable {r r' : Records} {s : Bytes}

theorem grows_of_eq (hm : r'.metas s = r.metas s)
    (he : r'.entries s = r.entries s) : Grows r r' s := by
  refine ⟨fun m hm' => ⟨m, hm ▸ hm', le_rfl⟩, fun id f f' hf hf' => ?_⟩
  rw [he, hf] at hf'
  cases hf'
  rfl

/-! ## Transfers into one stream -/

theorem single_of_pairwise {α : Type} {Q : α → Prop} {l : List α}
    (h : l.Pairwise fun x y => ¬ (Q x ∧ Q y)) :
    (∀ x ∈ l, ¬ Q x) ∨
      ∃ l₁ x l₂, l = l₁ ++ x :: l₂ ∧ Q x ∧ (∀ y ∈ l₁, ¬ Q y) ∧ ∀ y ∈ l₂, ¬ Q y := by
  induction l with
  | nil => exact .inl nofun
  | cons a l ih =>
    obtain ⟨ha, hl⟩ := pairwise_cons.mp h
    by_cases hQ : Q a
    · exact .inr ⟨[], a, l, rfl, hQ, nofun, fun y hy hy' => ha y hy ⟨hQ, hy'⟩⟩
    · rcases ih hl with hnone | ⟨l₁, x, l₂, rfl, hx, h₁, h₂⟩
      · exact .inl fun x hx => by
          rcases mem_cons.mp hx with rfl | hx
          · exact hQ
          · exact hnone x hx
      · refine .inr ⟨a :: l₁, x, l₂, rfl, hx, fun y hy => ?_, h₂⟩
        rcases mem_cons.mp hy with rfl | hy
        · exact hQ
        · exact h₁ y hy

section

variable {r : Records} {now : Nat} {ws : List Write} {ts : List Transfer} {t : Bytes}

def Feeds (r : Records) (t : Bytes) (x : Transfer) : Prop :=
  x.dlq = t ∧ storedRows r x.source x.rows ≠ []

theorem puts_ids (r : Records) (x : Transfer) :
    (x.puts r).map (·.1) = (storedRows r x.source x.rows).map (·.id) := by
  unfold Transfer.puts storedRows
  induction x.rows with
  | nil => rfl
  | cons row rows ih =>
    cases h : (r.entries x.source).get row.id with
    | none =>
      rw [filterMap_cons_none (by rw [h]; rfl), filter_cons_of_neg (by simp [h])]
      exact ih
    | some f =>
      rw [filterMap_cons_some (by rw [h]; rfl), filter_cons_of_pos (by simp [h]),
        map_cons, map_cons, ih]

theorem silent_of_not_feeds (now : Nat) {x : Transfer} (h : ¬ Feeds r t x) :
    (if x.dlq = t then (x.puts r).map fun e => BatchOp.put e.1 e.2 else []) = [] ∧
      (if x.dlq = t then x.head r now else none) = none := by
  by_cases hd : x.dlq = t
  · have hnil : storedRows r x.source x.rows = [] := by
      by_contra hne
      exact h ⟨hd, hne⟩
    have hputs : x.puts r = [] := by
      rw [← map_eq_nil_iff (f := (·.1)), puts_ids, hnil]
      rfl
    simp [hputs, Transfer.head, hnil]
  · simp [hd]

theorem batch_cases (h : Batch r now ws ts)
    (hone : ts.Pairwise fun x y => ¬ (Feeds r t x ∧ Feeds r t y)) :
    ((r.write ws).metas t = r.metas t ∧ (r.write ws).entries t = r.entries t) ∨
    ∃ x ∈ ts, Feeds r t x ∧
      (r.write ws).metas t = some (transferMeta r now x.source t x.rows) ∧
      (r.write ws).entries t = (r.entries t).write ((x.puts r).map fun e => .put e.1 e.2) := by
  have hsilent : ∀ {l : List Transfer}, (∀ x ∈ l, ¬ Feeds r t x) →
      (l.flatMap fun x => if x.dlq = t then (x.puts r).map fun e => BatchOp.put e.1 e.2 else []) =
        [] ∧ (l.filterMap fun x => if x.dlq = t then x.head r now else none) = [] := fun hl =>
    ⟨flatMap_eq_nil_iff.mpr fun x hx => (silent_of_not_feeds now (hl x hx)).1,
      filterMap_eq_nil_iff.mpr fun x hx => (silent_of_not_feeds now (hl x hx)).2⟩
  rw [Records.metas_write, Records.entries_write, h.entries, h.metas]
  rcases single_of_pairwise hone with hnone | ⟨l₁, x, l₂, rfl, hx, h₁, h₂⟩
  · obtain ⟨he, hm⟩ := hsilent hnone
    rw [he, hm]
    exact .inl ⟨rfl, rfl⟩
  · refine .inr ⟨x, by simp, hx, ?_, ?_⟩
    · rw [filterMap_append, (hsilent h₁).2, filterMap_cons, (hsilent h₂).2, if_pos hx.1,
        Transfer.head, if_neg (by simpa using hx.2), ← hx.1]
      rfl
    · rw [flatMap_append, (hsilent h₁).1, nil_append, flatMap_cons, (hsilent h₂).1,
        if_pos hx.1, append_nil]

theorem transferMeta_spec (r : Records) (now : Nat) (s d : Bytes) (dead : List DeadRow) :
    (transferMeta r now s d dead).payload.len = metaLen (r.metas d) +
        ((storedRows r s dead).filter fun row => ((r.entries d).get row.id).isNone).length ∧
      (∀ m ∈ r.metas d, m.payload.lastId ≤ (transferMeta r now s d dead).payload.lastId) ∧
      ∀ row ∈ storedRows r s dead, row.id ≤ (transferMeta r now s d dead).payload.lastId := by
  refine ⟨?_, fun m hm => ?_, fun row hrow => Offsets.le_maxOf_of_mem (mem_map_of_mem hrow)⟩
  · unfold transferMeta
    cases r.metas d <;> rfl
  · unfold transferMeta
    rw [hm]
    exact Offsets.le_maxOf _ _

theorem transfer_keeps {x : Transfer} (hexact : Exact r t) (ht : Timeless r t)
    (hnodup : (x.rows.map (·.id)).Nodup)
    (hnew : ∀ row ∈ storedRows r x.source x.rows, row.id ∉ (r.entries t).keys)
    (hm : r'.metas t = some (transferMeta r now x.source t x.rows))
    (he : r'.entries t = (r.entries t).write ((x.puts r).map fun e => .put e.1 e.2)) :
    Keeps r r' t := by
  obtain ⟨hlen, hold, hbound⟩ := transferMeta_spec r now x.source t x.rows
  have hall : (storedRows r x.source x.rows).filter
      (fun row => ((r.entries t).get row.id).isNone) = storedRows r x.source x.rows := by
    refine filter_eq_self.mpr fun row hrow => ?_
    have := hnew row hrow
    rw [SortedMap.mem_keys] at this
    simpa using this
  have hids : ∀ id ∈ (x.puts r).map (·.1), id ∉ (r.entries t).keys := by
    rw [puts_ids]
    intro id hid
    obtain ⟨row, hrow, rfl⟩ := mem_map.mp hid
    exact hnew row hrow
  have hkeys : (r'.entries t).keys = (r.entries t).keys ∪ ((x.puts r).map (·.1)).toFinset := by
    rw [he, keys_write_put]
  refine ⟨⟨?_, fun id hid => ⟨_, hm, ?_⟩⟩, fun m hm' => ?_, fun m hmeta => ⟨_, hm, ?_⟩,
    fun id f f' hf hf' => ?_⟩
  · have hdisj := Finset.disjoint_right.mpr fun id hid => hids id (mem_toFinset.mp hid)
    have hcard : ((x.puts r).map (·.1)).toFinset.card = (storedRows r x.source x.rows).length := by
      rw [puts_ids, toFinset_card_of_nodup, length_map]
      exact hnodup.sublist (filter_sublist.map _)
    rw [size_eq_card, hkeys, Finset.card_union_of_disjoint hdisj, hcard,
      ← size_eq_card, hexact.len, hm]
    show _ = (transferMeta r now x.source t x.rows).payload.len
    rw [hlen, hall]
  · rw [hkeys, Finset.mem_union, mem_toFinset, puts_ids] at hid
    rcases hid with hid | hid
    · obtain ⟨m, hmeta, hle⟩ := hexact.last id hid
      exact hle.trans (hold m hmeta)
    · obtain ⟨row, hrow, rfl⟩ := mem_map.mp hid
      exact hbound row hrow
  · rw [hm] at hm'
    cases hm'
    exact transferMeta_timeless ht _ _
  · exact hold m hmeta
  · have hkey : id ∈ (r.entries t).keys := SortedMap.mem_keys.mpr (by rw [hf]; rfl)
    rw [he, get_write_of_not_mem, hf] at hf'
    · cases hf'
      rfl
    · intro op hop
      obtain ⟨e, hin, rfl⟩ := mem_map.mp hop
      rintro rfl
      exact hids e.1 (mem_map_of_mem hin) hkey

end

/-! ## Steps -/

/-- The account of every stream is right, and no deadline is set. -/
def Sound (w : World) : Prop := ∀ s, Exact w.records s ∧ Timeless w.records s

/-- No two transfers of the command meet in a dead-letter stream, and the ids they move are free
there. -/
def Clean (w : World) (a : Action) : Prop :=
  (threats w.runtime a).Pairwise (fun t t' => t.dlq = t'.dlq → t.ids = [] ∨ t'.ids = []) ∧
    ∀ t ∈ threats w.runtime a, ∀ id ∈ t.ids, (w.records.entries t.dlq).get id = none
  deriving Decidable

theorem keeps_of_eq {t : Bytes} (hs : Exact r t ∧ Timeless r t) (hm : r'.metas t = r.metas t)
    (he : r'.entries t = r.entries t) : Keeps r r' t := by
  refine ⟨⟨?_, ?_⟩, fun m hm' => hs.2 m (hm ▸ hm'), grows_of_eq hm he⟩
  · rw [hm, he]
    exact hs.1.len
  · rw [hm, he]
    exact hs.1.last

theorem effect_keeps {l l' : Runtime} {now : Nat} {moves : List Move} {ths : List Threat}
    (hs : ∀ s, Exact l.records s ∧ Timeless l.records s) (h : Effect l l' now moves ths)
    (hone : ths.Pairwise fun t t' => t.dlq = t'.dlq → t.ids = [] ∨ t'.ids = [])
    (hnew : ∀ t ∈ ths, ∀ id ∈ t.ids, (l.records.entries t.dlq).get id = none) (t : Bytes) :
    Keeps l.records l'.records t := by
  obtain ⟨ws, ts, hr, hbatch, -, hwithin⟩ := h
  have hpair : ts.Pairwise fun x y => ¬ (Feeds l.records t x ∧ Feeds l.records t y) := by
    obtain ⟨k, hsub, hall⟩ := hwithin
    refine pairwise_of_forall₂ hall (hone.sublist hsub) ?_
    rintro x y a b ha hb hab ⟨hx, hy⟩
    have hmem : ∀ {x : Transfer} {a : Threat}, Covers l.records x a → Feeds l.records t x →
        a.ids ≠ [] := fun hc hf => by
      obtain ⟨row, hrow⟩ := exists_mem_of_ne_nil _ hf.2
      exact ne_nil_of_mem (hc.ids row hrow)
    rcases hab (ha.dlq.symm.trans (hx.1.trans (hy.1.symm.trans hb.dlq))) with hnil | hnil
    · exact hmem ha hx hnil
    · exact hmem hb hy hnil
  rw [hr]
  rcases batch_cases hbatch hpair with ⟨hm, he⟩ | ⟨x, hx, hfeeds, hm, he⟩
  · exact keeps_of_eq (hs t) hm he
  · obtain ⟨th, hth, hc⟩ := covered_of_within hwithin hx
    refine transfer_keeps (hs t).1 (hs t).2 hc.nodup (fun row hrow => ?_) hm he
    rw [SortedMap.mem_keys, ← hfeeds.1, hc.dlq, hnew th hth _ (hc.ids row hrow)]
    simp

theorem accounts_keeps {ws : List Write} {next : MetaPayload} {new : List (EntryId × Fields)}
    {victims : List EntryId} (hs : ∀ s, Exact r s ∧ Timeless r s)
    (h : Accounts r s ws next new victims) (t : Bytes) :
    Keeps r (r.write ws) t := by
  by_cases hst : t = s
  · subst hst
    exact ⟨h.exact (hs t).1, h.timeless, fun m hm => ⟨_, h.metas_eq, h.grows m hm⟩,
      fun id f f' hf hf' => h.get_eq (hs t).1.last hf hf'⟩
  · obtain ⟨hm, he⟩ := r.write_untouched (h.only t hst)
    exact keeps_of_eq (hs t) hm he

theorem remove_keeps {l : Runtime} {now : Nat}
    {batch : Records → Except AppendError (List EntryId × List Write)}
    (hs : ∀ s, Exact l.records s ∧ Timeless l.records s)
    (h : ∀ victims ws, batch l.records = .ok (victims, ws) →
      ws = [] ∨ ∃ next, Accounts l.records s ws next [] victims) (t : Bytes) :
    Keeps l.records (remove l now s batch).records t := by
  unfold remove
  rw [reap_of_timeless (hs s).2]
  dsimp only
  split
  · exact keeps_of_eq (hs t) rfl rfl
  · next victims ws hbatch =>
    rcases h victims ws hbatch with rfl | ⟨next, hacc⟩
    · exact keeps_of_eq (hs t) rfl rfl
    · exact accounts_keeps hs hacc t

theorem step_keeps {w w' : World} {a : Action} (hs : Sound w) (hc : Clean w a)
    (h : step w a = some w') (t : Bytes) : Keeps w.records w'.records t := by
  by_cases ha : a.appends = false
  · obtain ⟨now, moves, heff, -⟩ := step_effect ha h
    exact effect_keeps hs heff hc.1 hc.2 t
  cases a with cases h
  | xadd now s o idArg fields =>
    rcases xadd_cases now o idArg fields (hs s).2 (hs s).1.last with heq |
      ⟨id, ws, next, victims, -, hr, hacc, -⟩
    · rw [heq]
      exact keeps_of_eq (hs t) rfl rfl
    · show Keeps w.records (xadd w.runtime now s o idArg fields).records t
      rw [hr]
      exact accounts_keeps hs hacc t
  | xtrim now s plan =>
    exact remove_keeps hs (fun _ _ => xtrimBatch_accounts (hs s).2) t
  | xdel now s ids =>
    exact remove_keeps hs (fun _ _ => xdelBatch_accounts (hs s).2) t
  | exchange now s rows =>
    have hr : (exchange w.runtime now s rows).records =
        w.records.write (exchangeBatch w.records now s rows) := by
      unfold exchange
      rw [reap_of_timeless (hs s).2, ite_self]
    show Keeps w.records (exchange w.runtime now s rows).records t
    rw [hr]
    rcases exchangeBatch_accounts now (hs s).2 rows with hnone | ⟨m, next, -, hacc⟩
    · obtain ⟨hm, he⟩ := w.records.write_untouched (hnone t)
      exact keeps_of_eq (hs t) hm he
    · exact accounts_keeps hs hacc t
  | xreadgroup | xack | xclaim | xautoclaim | sweep | delconsumer | setid | flush | restart =>
    exact absurd rfl ha

theorem counts_exact {w w₁ : World} {as : List Action} (hw : Sound w)
    (hg : Guarded step Clean w as) (h : exec step w as = some w₁) :
    Sound w₁ ∧ ∀ a w₂, Clean w₁ a → step w₁ a = some w₂ → ∀ s, Grows w₁.records w₂.records s := by
  have hs : Sound w₁ := exec_inv (fun w a w' hs hc h t =>
    ⟨(step_keeps hs hc h t).exact, (step_keeps hs hc h t).timeless⟩) hw hg h
  exact ⟨hs, fun a w₂ hc h₂ s => (step_keeps hs hc h₂ s).grows⟩

/-! ## Two rows in one claim -/

/-- Stream `t/a` with two entries that its group has handed out once each; the group moves an
entry to `t/b` instead of a second time. -/
def overdue : World where
  runtime := { records := Records.write {
    metas := fun s => if s = sampleStream then some ⟨{ lastMs := 2, len := 2 }, 0⟩ else none
    entries := fun s =>
      if s = sampleStream then .ofList [(⟨1, 0⟩, [([102], [118])]), (⟨2, 0⟩, [([102], [119])])]
      else .empty
    groups := fun s g =>
      if s = sampleStream ∧ g = [103] then some ⟨0, minId, minId, false, 0, 1, sampleMissing⟩
      else none } ([⟨1, 0⟩, ⟨2, 0⟩].map fun id => .pend sampleStream [103] (.put id ⟨[99], 0, 1, 0⟩)) }

def overdueClaim (ids : List EntryId) : Action :=
  .xclaim { group := [103], consumer := [100], minIdle := 0, now := 5 } sampleStream ids

theorem overdue_sound : Sound overdue := by
  intro s
  by_cases hs : s = sampleStream
  · subst hs
    refine ⟨⟨by decide, fun id hid => ⟨_, rfl, ?_⟩⟩, ?_⟩
    · revert id
      decide
    · rintro m ⟨⟩
      exact ⟨rfl, rfl⟩
  · have hm : overdue.records.metas s = none := if_neg hs
    have he : overdue.records.entries s = .empty := if_neg hs
    refine ⟨⟨by rw [he, hm]; rfl, ?_⟩, ?_⟩
    · rw [he]
      nofun
    · intro m h
      rw [hm] at h
      cases h

/-- One row is claimed and moved, then the other. -/
theorem counts_exact_overdue : ∃ w₁, exec step overdue [overdueClaim [⟨1, 0⟩],
    overdueClaim [⟨2, 0⟩]] = some w₁ ∧ Sound w₁ ∧ (w₁.records.entries sampleMissing).size = 2 := by
  have hg : Guarded step Clean overdue [overdueClaim [⟨1, 0⟩], overdueClaim [⟨2, 0⟩]] := by
    decide +kernel
  exact exists_run (by decide +kernel) fun w₁ hw₁ hsize =>
    ⟨(counts_exact overdue_sound hg hw₁).1, hsize⟩

/-- Both rows in one claim: the dead-letter stream has two entries and a length of one. -/
theorem counts_miss_row : Sound overdue ∧
    ∃ w₁, exec step overdue [overdueClaim [⟨1, 0⟩, ⟨2, 0⟩]] = some w₁ ∧
      ¬ Exact w₁.records sampleMissing := by
  refine ⟨overdue_sound, exists_run (P := fun w => (w.records.entries sampleMissing).size = 2 ∧
    metaLen (w.records.metas sampleMissing) = 1) (by decide +kernel) fun w₁ _ hsize hexact => ?_⟩
  have hlen := hexact.len
  rw [hsize.1, hsize.2] at hlen
  cases hlen

end Rdb.Lite.Counts
