import Mathlib.Data.List.Forall2
import Mathlib.Data.List.TakeWhile

/-!
# Runs of a step function

`exec step s as` performs the actions `as` one after the other; an action that
is not enabled ends the run with `none`. `Guarded step ok s as` says that every
action of the run is taken in a state where `ok` allows it. The invariant rule
`exec_inv` is the only induction over runs: a system proves what one guarded
step preserves and gets every state of every guarded run.
-/

namespace Rdb.Lib

open List

universe u v

variable {σ : Type u} {α : Type v}

def exec (step : σ → α → Option σ) : σ → List α → Option σ
  | s, [] => some s
  | s, a :: as => (step s a).bind fun s' => exec step s' as

/-- `ok` holds of every action of the run, in the state it is taken in. -/
def Guarded (step : σ → α → Option σ) (ok : σ → α → Prop) : σ → List α → Prop
  | _, [] => True
  | s, a :: as => ok s a ∧ ∀ s', step s a = some s' → Guarded step ok s' as

variable {s : σ} {a : α} {as : List α} {I : σ → Prop}

section

variable {step : σ → α → Option σ} {ok : σ → α → Prop} {s' : σ}

theorem exec_cons_eq_some :
    exec step s (a :: as) = some s' ↔ ∃ t, step s a = some t ∧ exec step t as = some s' := by
  simp [exec, Option.bind_eq_some_iff]

theorem guarded_cons {t : σ} (h : step s a = some t) :
    Guarded step ok s (a :: as) ↔ ok s a ∧ Guarded step ok t as := by
  refine and_congr_right fun _ => ⟨fun hg => hg t h, fun hg t' ht' => ?_⟩
  rw [h] at ht'
  cases ht'
  exact hg

theorem Guarded.cons {t : σ} (h : step s a = some t) (hok : ok s a)
    (hrest : Guarded step ok t as) : Guarded step ok s (a :: as) :=
  (guarded_cons h).mpr ⟨hok, hrest⟩

instance decidableGuarded [∀ s a, Decidable (ok s a)] : ∀ s as, Decidable (Guarded step ok s as)
  | _, [] => .isTrue trivial
  | s, a :: as =>
    match h : step s a with
    | none => decidable_of_iff (ok s a) ⟨fun hok => ⟨hok, fun t ht => by rw [h] at ht; cases ht⟩,
        And.left⟩
    | some t =>
      haveI := decidableGuarded t as
      decidable_of_iff (ok s a ∧ Guarded step ok t as) (guarded_cons h).symm

/-- A given run is carried out, and what its end shows is checked there. -/
theorem exists_run {o : Option σ} {P Q : σ → Prop} [DecidablePred P]
    (h : o.any fun s => decide (P s)) (hQ : ∀ s, o = some s → P s → Q s) :
    ∃ s, o = some s ∧ Q s := by
  cases o with
  | none => cases h
  | some s => exact ⟨s, rfl, hQ s rfl (of_decide_eq_true h)⟩

theorem exists_ok {ε : Type v} {x : Except ε σ} {P Q : σ → Prop} [DecidablePred P]
    (h : x.toOption.any fun s => decide (P s)) (hQ : ∀ s, x = .ok s → P s → Q s) :
    ∃ s, x = .ok s ∧ Q s := by
  cases x with
  | error e => cases h
  | ok s => exact ⟨s, rfl, hQ s rfl (of_decide_eq_true h)⟩

theorem guarded_of_forall (h : ∀ s a, ok s a) : Guarded step ok s as := by
  induction as generalizing s with
  | nil => trivial
  | cons a as ih => exact ⟨h s a, fun _ _ => ih⟩

variable {ok' : σ → α → Prop}

theorem Guarded.and (h : Guarded step ok s as)
    (h' : Guarded step ok' s as) : Guarded step (fun s a => ok s a ∧ ok' s a) s as := by
  induction as generalizing s with
  | nil => trivial
  | cons a as ih => exact ⟨⟨h.1, h'.1⟩, fun t ht => ih (h.2 t ht) (h'.2 t ht)⟩

theorem guarded_congr (hstep : ∀ s a s', I s → step s a = some s' → I s')
    (h : ∀ s a, I s → (ok s a ↔ ok' s a)) (hI : I s) :
    Guarded step ok s as ↔ Guarded step ok' s as := by
  induction as generalizing s with
  | nil => exact Iff.rfl
  | cons a as ih =>
    exact and_congr (h s a hI) (forall₂_congr fun t ht => ih (hstep s a t hI ht))

theorem exec_inv (hstep : ∀ s a s', I s → ok s a → step s a = some s' → I s') (hI : I s)
    (hg : Guarded step ok s as) (h : exec step s as = some s') : I s' := by
  induction as generalizing s with
  | nil => cases h; exact hI
  | cons a as ih =>
    obtain ⟨t, ht, h⟩ := exec_cons_eq_some.mp h
    exact ih (hstep s a t hI hg.1 ht) (hg.2 t ht) h

theorem exec_sim {τ : Type*} {step' : τ → α → Option τ} {R : σ → τ → Prop}
    (hstep : ∀ s t a s', R s t → ok s a → step s a = some s' → ∃ t', step' t a = some t' ∧ R s' t')
    {t : τ} (hR : R s t) (hg : Guarded step ok s as)
    (h : exec step s as = some s') : ∃ t', exec step' t as = some t' ∧ R s' t' := by
  induction as generalizing s t with
  | nil =>
    cases h
    exact ⟨t, rfl, hR⟩
  | cons a as ih =>
    obtain ⟨u, hu, h⟩ := exec_cons_eq_some.mp h
    obtain ⟨v, hv, hRuv⟩ := hstep s t a u hR hg.1 hu
    obtain ⟨t', ht', hR'⟩ := ih hRuv (hg.2 u hu) h
    exact ⟨t', exec_cons_eq_some.mpr ⟨v, hv, ht'⟩, hR'⟩

end

/-! ## Folds that may stop -/

/-- A fold whose step says whether to go on. -/
def foldUntil (f : σ → α → σ × Bool) : σ → List α → σ
  | s, [] => s
  | s, a :: as => if (f s a).2 then foldUntil f (f s a).1 as else (f s a).1

@[simp] theorem foldUntil_nil (f : σ → α → σ × Bool) (s : σ) : foldUntil f s [] = s := rfl

theorem foldUntil_cons (f : σ → α → σ × Bool) (s : σ) (a : α) (as : List α) :
    foldUntil f s (a :: as) = if (f s a).2 then foldUntil f (f s a).1 as else (f s a).1 := rfl

variable {f : σ → α → σ × Bool}

theorem foldUntil_inv (hI : I s)
    (hstep : ∀ s, ∀ a ∈ as, I s → I (f s a).1) : I (foldUntil f s as) := by
  induction as generalizing s with
  | nil => exact hI
  | cons a as ih =>
    have hs := hstep s a mem_cons_self hI
    rw [foldUntil_cons]
    split
    · exact ih hs fun s a ha => hstep s a (mem_cons_of_mem _ ha)
    · exact hs

variable {p : α → Bool}

theorem foldUntil_filter (hp : ∀ s a, p a = false → f s a = (s, true)) (s : σ) (as : List α) :
    foldUntil f s as = foldUntil f s (as.filter p) := by
  induction as generalizing s with
  | nil => rfl
  | cons a as ih =>
    cases h : p a with
    | false =>
      rw [filter_cons_of_neg (by simp [h]), foldUntil_cons, hp s a h]
      exact ih s
    | true =>
      rw [filter_cons_of_pos h, foldUntil_cons, foldUntil_cons, ih]

variable {β : Type v} {g : α → Option β}

theorem foldUntil_filterMap {h : σ → β → σ × Bool} (hf : ∀ s a, f s a = (g a).elim (s, true) (h s))
    (s : σ) (as : List α) : foldUntil f s as = foldUntil h s (as.filterMap g) := by
  induction as generalizing s with
  | nil => rfl
  | cons a as ih =>
    rw [foldUntil_cons, hf]
    cases hg : g a with
    | none => rw [filterMap_cons_none hg, Option.elim_none, if_pos rfl, ih]
    | some b => rw [filterMap_cons_some hg, Option.elim_some, foldUntil_cons, ih]

theorem foldUntil_map {β : Type*} {h : σ → β → σ × Bool} {g : β → α} {bs : List β}
    (hf : ∀ s, ∀ b ∈ bs, f s (g b) = h s b) (s : σ) :
    foldUntil f s (bs.map g) = foldUntil h s bs := by
  induction bs generalizing s with
  | nil => rfl
  | cons b bs ih =>
    rw [map_cons, foldUntil_cons, foldUntil_cons, hf s b mem_cons_self,
      ih fun s b hb => hf s b (mem_cons_of_mem _ hb)]

theorem foldUntil_congr {h : σ → α → σ × Bool} {as : List α} (hf : ∀ s, ∀ a ∈ as, f s a = h s a)
    (s : σ) : foldUntil f s as = foldUntil h s as := by
  rw [← foldUntil_map (g := id) hf, map_id]

theorem foldUntil_collect {β : Type*} {f : List β → α → List β × Bool} {g : α → β}
    (hf : ∀ out a, f out a = (out ++ [g a], true)) (out : List β) (as : List α) :
    foldUntil f out as = out ++ as.map g := by
  induction as generalizing out with
  | nil => exact (append_nil out).symm
  | cons a as ih =>
    rw [foldUntil_cons, hf, if_pos rfl, ih, append_assoc, singleton_append, map_cons]

theorem foldUntil_collectSome (g : α → Option β) (out : List β) (as : List α) :
    foldUntil (fun out a => (out ++ (g a).toList, true)) out as = out ++ as.filterMap g := by
  have hsome : ∀ (out : List β) a, (out ++ (g a).toList, true) =
      (g a).elim (out, true) fun b => (out ++ [b], true) := fun out a => by cases g a <;> simp
  rw [foldUntil_filterMap hsome, foldUntil_collect fun _ _ => rfl]
  exact congrArg _ (map_id _)

theorem foldUntil_take {n : Nat} (as out : List α) (h : out.length < n) :
    foldUntil (fun out a => (out ++ [a], decide (out.length + 1 < n))) out as =
      out ++ as.take (n - out.length) := by
  induction as generalizing out with
  | nil => simp
  | cons a as ih =>
    obtain ⟨m, hm⟩ : ∃ m, n - out.length = m + 1 := ⟨n - out.length - 1, by omega⟩
    rw [foldUntil_cons, hm, take_succ_cons]
    by_cases hlt : out.length + 1 < n
    · have hrest : n - (out.length + 1) = m := by omega
      simp [hlt, ih (out ++ [a]) (by simpa using hlt), hrest]
    · have hzero : m = 0 := by omega
      simp [hlt, hzero]

theorem foldUntil_sublist {β : Type*} (out : σ → List β) (dec : α → Option β)
    (h : ∀ s a, (out (f s a).1).Sublist (out s ++ (dec a).toList)) (s : σ) (as : List α) :
    (out (foldUntil f s as)).Sublist (out s ++ as.filterMap dec) := by
  induction as generalizing s with
  | nil =>
    exact sublist_append_left _ _
  | cons a as ih =>
    have hcons : (a :: as).filterMap dec = (dec a).toList ++ as.filterMap dec := by
      rw [filterMap_cons]
      cases dec a <;> rfl
    rw [foldUntil_cons, hcons, ← append_assoc]
    split
    · exact (ih _).trans ((h s a).append_right _)
    · exact (h s a).trans (sublist_append_left _ _)

theorem foldUntil_eq_findSome? {f : Option β → α → Option β × Bool}
    (hf : ∀ s a, f s a = (g a).elim (s, true) fun b => (some b, false)) (as : List α) :
    foldUntil f none as = as.findSome? g := by
  induction as with
  | nil => rfl
  | cons a as ih =>
    rw [foldUntil_cons, hf, findSome?_cons]
    cases g a with
    | none => exact ih
    | some b => rfl

theorem findSome?_congr {f : α → Option β} (h : ∀ a ∈ as, f a = g a) :
    as.findSome? f = as.findSome? g := by
  induction as with
  | nil => rfl
  | cons a as ih =>
    rw [findSome?_cons, findSome?_cons, h a mem_cons_self,
      ih fun b hb => h b (mem_cons_of_mem _ hb)]

theorem findSome?_of_only {f : α → Option β} (ha : a ∈ as) (honly : ∀ b ∈ as, b ≠ a → f b = none) :
    as.findSome? f = f a := by
  cases hfa : f a with
  | none =>
    refine findSome?_eq_none_iff.mpr fun b hb => ?_
    by_cases hba : b = a
    · rw [hba, hfa]
    · exact honly b hb hba
  | some x =>
    obtain ⟨as₁, as₂, rfl⟩ := append_of_mem ha
    rw [findSome?_append, findSome?_cons, hfa]
    cases hfirst : as₁.findSome? f with
    | none => rfl
    | some y =>
      obtain ⟨b, hb, hy⟩ := exists_of_findSome?_eq_some hfirst
      by_cases hba : b = a
      · rw [hba, hfa] at hy
        cases hy
        rfl
      · rw [honly b (mem_append_left _ hb) hba] at hy
        cases hy

theorem findSome?_filter {f : α → Option β} (h : ∀ a ∈ as, p a = false → f a = none) :
    (as.filter p).findSome? f = as.findSome? f := by
  induction as with
  | nil => rfl
  | cons a as ih =>
    have ih := ih fun b hb => h b (mem_cons_of_mem _ hb)
    rw [findSome?_cons]
    cases hp : p a with
    | true => rw [filter_cons_of_pos hp, findSome?_cons, ih]
    | false => rw [filter_cons_of_neg (by simp [hp]), h a mem_cons_self hp, ih]

theorem takeWhile_and_filter {q d : α → Bool} (hqp : ∀ a ∈ as, q a → p a)
    (h : as.Pairwise fun a b => p a → q a = false → q b = false) :
    (as.filter p).takeWhile (fun a => q a && d a) = (as.filter q).takeWhile d := by
  induction as with
  | nil => rfl
  | cons a as ih =>
    obtain ⟨ha, has⟩ := pairwise_cons.mp h
    have ih := ih (fun b hb => hqp b (mem_cons_of_mem _ hb)) has
    cases hq : q a with
    | true => simp [hqp a mem_cons_self hq, hq, takeWhile_cons, ih]
    | false =>
      cases hp : p a with
      | false => simp [hp, hq, ih]
      | true =>
        have hnil : as.filter q = [] :=
          filter_eq_nil_iff.mpr fun b hb => by simp [ha b hb hp hq]
        simp [hp, hq, hnil]

theorem takeWhile_eq_filter (h : as.Pairwise fun a b => p a = false → p b = false) :
    as.takeWhile p = as.filter p := by
  have hfilter := takeWhile_and_filter (p := fun _ => true) (d := fun _ => true)
    (fun _ _ _ => rfl) (h.imp fun hab _ => hab)
  simpa [takeWhile_eq_self_iff.mpr] using hfilter

theorem foldUntil_guard (hp : as.Pairwise fun a b => p a = false → p b = false) (s : σ) :
    foldUntil (fun s a => if p a then f s a else (s, false)) s as = foldUntil f s (as.filter p) := by
  rw [← takeWhile_eq_filter hp]
  clear hp
  induction as generalizing s with
  | nil => rfl
  | cons a as ih =>
    rw [foldUntil_cons, takeWhile_cons]
    split
    · rw [foldUntil_cons, ih]
    · rfl

theorem foldUntil_collectWhile {f : List β → α → List β × Bool}
    (hf : ∀ out, ∀ a ∈ as, f out a = if p a then (out ++ (g a).toList, true) else (out, false))
    (hp : as.Pairwise fun a b => p a = false → p b = false) (out : List β) :
    foldUntil f out as = out ++ (as.filter p).filterMap g := by
  rw [foldUntil_congr hf, foldUntil_guard hp, foldUntil_collectSome]

/-! ## Maps that may fail -/

section mapM

variable {β ε : Type v} {f : α → Except ε β} {l : List α} {r : List β}

theorem bind_eq_ok {x : Except ε α} {b : β} :
    (x >>= f) = .ok b ↔ ∃ a, x = .ok a ∧ f a = .ok b := by
  cases x <;> simp [bind, Except.bind]

theorem forall₂_of_mapM_ok (h : l.mapM f = .ok r) : List.Forall₂ (fun a b => f a = .ok b) l r := by
  induction l generalizing r with
  | nil =>
    cases h
    exact .nil
  | cons a l ih =>
    rw [mapM_cons] at h
    obtain ⟨b, ha, h⟩ := bind_eq_ok.mp h
    obtain ⟨r', hl, h⟩ := bind_eq_ok.mp h
    cases h
    exact .cons ha (ih hl)

theorem eq_map_of_mapM_ok {g : α → β} (hg : ∀ a b, f a = .ok b → g a = b)
    (h : l.mapM f = .ok r) : r = l.map g := by
  have hall := forall₂_of_mapM_ok h
  clear h
  induction hall with
  | nil => rfl
  | cons ha _ ih => rw [map_cons, hg _ _ ha, ih]

theorem exists_of_forall₂_right {R : α → β → Prop} (h : List.Forall₂ R l r) {b : β}
    (hb : b ∈ r) : ∃ a ∈ l, R a b := by
  induction h with
  | nil => cases hb
  | @cons a b' l r hab _ ih =>
    rcases mem_cons.mp hb with rfl | hb
    · exact ⟨a, mem_cons_self, hab⟩
    · obtain ⟨x, hx, hR⟩ := ih hb
      exact ⟨x, mem_cons_of_mem _ hx, hR⟩

theorem mapM_ok_spec (h : l.mapM f = .ok r) :
    (∀ b ∈ r, ∃ a ∈ l, f a = .ok b) ∧ ∀ a ∈ l, ∃ b ∈ r, f a = .ok b := by
  have hall := forall₂_of_mapM_ok h
  exact ⟨fun b hb => exists_of_forall₂_right hall hb,
    fun a ha => exists_of_forall₂_right hall.flip ha⟩

end mapM

end Rdb.Lib
