import Mathlib.Data.List.TakeWhile

/-!
# Incremental protocols

A parser of a stream answers with a value and the rest of its input, with an
error, or with the wish for more input. It is `Stable E` if more input changes
neither an answer nor an error of `E`; then it waits on every strict prefix of
a word that it reads (`Stable.waits`).

A `Protocol` serves the frames that a parser finds in the input of a connection,
which comes in chunks of any size. `run_eq_of_flatten_eq` (any input, a stable
parser) and `run_words` (a stream of words) say that the chunks do not matter.
-/

namespace Rdb.Lib

open List

variable {β α γ σ σ' ε : Type}

/-- `.error none` asks for more input. -/
abbrev Parser (β ε : Type) := StateT (List β) (Except (Option ε))

namespace Parser

def fail (e : ε) : Parser β ε α := fun _ => .error (some e)

def ofExcept : Except ε α → Parser β ε α
  | .ok a => pure a
  | .error e => fail e

def takeN (n : Nat) : Parser β ε (List β) := fun buf =>
  if buf.length < n then .error none else .ok (buf.take n, buf.drop n)

/-- The units before the first `d`, which is dropped. Without one, `unended` decides between
an error and the wish for more. -/
def upTo [DecidableEq β] (d : β) (unended : List β → Option ε) : Parser β ε (List β) := fun buf =>
  match buf.dropWhile (· ≠ d) with
  | [] => .error (unended buf)
  | _ :: rest => .ok (buf.takeWhile (· ≠ d), rest)

variable {p : Parser β ε α} {f : α → Parser β ε γ} {E : ε → Prop} {buf rest more w : List β} {a : α}

theorem bind_of_ok (h : p buf = .ok (a, rest)) : (p >>= f) buf = f a rest := by
  change (p buf >>= fun x => f x.1 x.2) = _
  rw [h]
  rfl

theorem bind_of_error {o : Option ε} (h : p buf = .error o) : (p >>= f) buf = .error o := by
  change (p buf >>= fun x => f x.1 x.2) = _
  rw [h]
  rfl

theorem takeN_eq_ok {n : Nat} {l : List β} :
    (takeN n : Parser β ε _) buf = .ok (l, rest) ↔ buf = l ++ rest ∧ l.length = n := by
  unfold takeN
  split
  · next h =>
    refine ⟨nofun, ?_⟩
    rintro ⟨rfl, rfl⟩
    rw [length_append] at h
    omega
  · next h =>
    rw [Except.ok.injEq, Prod.mk.injEq]
    refine ⟨?_, ?_⟩
    · rintro ⟨rfl, rfl⟩
      exact ⟨(take_append_drop n buf).symm, by simp; omega⟩
    · rintro ⟨rfl, rfl⟩
      simp

theorem upTo_eq_ok [DecidableEq β] {d : β} {unended : List β → Option ε} {line : List β} :
    upTo d unended buf = .ok (line, rest) ↔ buf = line ++ d :: rest ∧ d ∉ line := by
  refine ⟨fun h => ?_, ?_⟩
  · have hb := takeWhile_append_dropWhile (p := (· ≠ d)) (l := buf)
    unfold upTo at h
    split at h
    · cases h
    · next x tail hd =>
      have hx := head_dropWhile_not (p := (· ≠ d)) (l := buf) (by rw [hd]; exact cons_ne_nil x tail)
      simp only [hd, head_cons, decide_eq_false_iff_not, not_not] at hx
      cases h
      rw [hd, hx] at hb
      exact ⟨hb.symm, fun hm => by simpa using mem_takeWhile_imp hm⟩
  · rintro ⟨rfl, hd⟩
    have ht : ∀ b ∈ line, decide (b ≠ d) := fun b hb => by
      rw [decide_eq_true_eq]
      rintro rfl
      exact hd hb
    simp only [upTo, dropWhile_append_of_pos ht, takeWhile_append_of_pos ht]
    simp

/-- More input changes neither an answer nor an error of `E`. -/
structure Stable (E : ε → Prop) (p : Parser β ε α) : Prop where
  ok : ∀ {buf a rest}, p buf = .ok (a, rest) →
    rest.length ≤ buf.length ∧ ∀ more, p (buf ++ more) = .ok (a, rest ++ more)
  error : ∀ {buf e}, p buf = .error (some e) → E e → ∀ more, p (buf ++ more) = .error (some e)

theorem Stable.pure (a : α) : Stable E (pure a : Parser β ε α) where
  ok h := by cases h; exact ⟨le_rfl, fun _ => rfl⟩
  error h := nomatch h

theorem Stable.fail (e : ε) : Stable E (fail e : Parser β ε α) where
  ok h := nomatch h
  error h _ _ := h

theorem Stable.ofExcept (r : Except ε α) : Stable E (ofExcept r : Parser β ε α) := by
  cases r with
  | ok a => exact .pure a
  | error e => exact .fail e

theorem Stable.takeN (n : Nat) : Stable E (takeN n : Parser β ε _) where
  ok h := by
    obtain ⟨rfl, hn⟩ := takeN_eq_ok.mp h
    exact ⟨by simp, fun more => takeN_eq_ok.mpr ⟨by simp, hn⟩⟩
  error h := by
    unfold Parser.takeN at h
    split at h <;> cases h

theorem Stable.upTo [DecidableEq β] {d : β} {unended : List β → Option ε}
    (hu : ∀ {buf e}, unended buf = some e → ¬E e) : Stable E (upTo d unended) where
  ok h := by
    obtain ⟨rfl, hd⟩ := upTo_eq_ok.mp h
    exact ⟨by simp; omega, fun more => upTo_eq_ok.mpr ⟨by simp, hd⟩⟩
  error h he := by
    unfold Parser.upTo at h
    split at h
    · exact absurd he (hu (Except.error.inj h))
    · cases h

theorem Stable.bind (hp : Stable E p) (hf : ∀ a, Stable E (f a)) : Stable E (p >>= f) where
  ok {buf c rest} h := by
    cases hb : p buf with
    | error o => rw [bind_of_error hb] at h; cases h
    | ok r =>
      rw [bind_of_ok hb] at h
      obtain ⟨hl, hmore⟩ := hp.ok hb
      obtain ⟨hl', hmore'⟩ := (hf r.1).ok h
      refine ⟨hl'.trans hl, fun more => ?_⟩
      rw [bind_of_ok (hmore more)]
      exact hmore' more
  error {buf e} h he more := by
    cases hb : p buf with
    | error o =>
      rw [bind_of_error hb] at h
      cases h
      exact bind_of_error (hp.error hb he more)
    | ok r =>
      rw [bind_of_ok hb] at h
      rw [bind_of_ok ((hp.ok hb).2 more)]
      exact (hf r.1).error h he more

theorem Stable.waits (hp : Stable (fun _ => True) p) (hw : p (buf ++ more) = .ok (a, []))
    (hm : more ≠ []) : p buf = .error none := by
  cases hb : p buf with
  | ok r => simp_all [(hp.ok hb).2 more]
  | error o =>
    cases o with
    | none => rfl
    | some e => simp_all [hp.error hb trivial more]

end Parser

/-! ## Connections -/

/-- What a server does with the frames of a connection: `serve` answers one and may hang up,
`refuse` answers an error, and more than `cap` unparsed units are the error `overflow`. -/
structure Protocol (β α σ ε : Type) where
  parse : Parser β ε α
  serve : σ → α → σ × Bool
  refuse : σ → ε → σ
  cap : σ → Nat
  overflow : ε
  parse_nil : parse [] = .error none
  shorter : ∀ {buf a rest}, parse buf = .ok (a, rest) → rest.length < buf.length

inductive Status (ε : Type) where
  | reading
  | quit
  | failed (e : ε)
  deriving DecidableEq

/-- A closed connection holds no units. -/
structure Conn (β σ ε : Type) where
  buf : List β := []
  state : σ
  status : Status ε := .reading

def Conn.map (f : σ → σ') (c : Conn β σ ε) : Conn β σ' ε := ⟨c.buf, f c.state, c.status⟩

namespace Protocol

variable (P : Protocol β α σ ε)

def close (s : σ) (e : ε) : Conn β σ ε := { state := P.refuse s e, status := .failed e }

/-- Serves every complete frame of the buffer. -/
def drain (s : σ) (buf : List β) : Conn β σ ε :=
  match _h : P.parse buf with
  | .error none => { buf, state := s }
  | .error (some e) => P.close s e
  | .ok (a, rest) =>
    if (P.serve s a).2 then { state := (P.serve s a).1, status := .quit }
    else drain (P.serve s a).1 rest
termination_by buf.length
decreasing_by exact P.shorter _h

/-- A chunk, with no cap on the buffer. -/
def offer (c : Conn β σ ε) (chunk : List β) : Conn β σ ε :=
  match c.status with
  | .reading => P.drain c.state (c.buf ++ chunk)
  | _ => c

def feed (c : Conn β σ ε) (chunk : List β) : Conn β σ ε :=
  if (c.status matches .reading) ∧ P.cap c.state < (c.buf ++ chunk).length then
    P.close c.state P.overflow
  else P.offer c chunk

variable {P} {s : σ} {buf more rest : List β} {a : α} {e : ε} {c : Conn β σ ε} {E : ε → Prop}
  {chunks : List (List β)}

theorem drain_of_waits (h : P.parse buf = .error none) : P.drain s buf = { buf, state := s } := by
  rw [drain]
  split <;> simp_all

theorem drain_of_error (h : P.parse buf = .error (some e)) : P.drain s buf = P.close s e := by
  rw [drain]
  split <;> simp_all

theorem drain_of_ok (h : P.parse buf = .ok (a, rest)) :
    P.drain s buf = if (P.serve s a).2 then { state := (P.serve s a).1, status := .quit }
      else P.drain (P.serve s a).1 rest := by
  rw [drain]
  split <;> simp_all

theorem offer_of_closed (h : c.status ≠ .reading) (l : List β) : P.offer c l = c := by
  unfold offer
  split
  · contradiction
  · rfl

theorem foldl_feed_of_closed (h : c.status ≠ .reading) : chunks.foldl P.feed c = c := by
  induction chunks with
  | nil => rfl
  | cons chunk chunks ih =>
    have : P.feed c chunk = c := by
      rw [feed, if_neg, offer_of_closed h]
      cases hs : c.status <;> simp_all
    rw [foldl_cons, this, ih]

/-- Input that comes later is served as if it had come at once. -/
theorem offer_append (hst : P.parse.Stable E) (l more : List β)
    (h : ∀ e, (P.offer c l).status = .failed e → E e) :
    P.offer c (l ++ more) = P.offer (P.offer c l) more := by
  by_cases hc : c.status = .reading
  · simp only [offer.eq_def P c, hc, ← append_assoc] at h ⊢
    generalize c.buf ++ l = buf, c.state = s at h ⊢
    fun_induction P.drain s buf with
    | case1 s buf hp => rfl
    | case2 s buf e hp => exact drain_of_error (hst.error hp (h e rfl) more)
    | case3 s buf a rest hp hq => rw [drain_of_ok ((hst.ok hp).2 more), if_pos hq]; rfl
    | case4 s buf a rest hp hq ih =>
      rw [drain_of_ok ((hst.ok hp).2 more), if_neg hq]
      exact ih h
  · simp only [offer_of_closed hc]

theorem offer_offer_nil (l : List β) : P.offer (P.offer c l) [] = P.offer c l := by
  by_cases hc : c.status = .reading
  · simp only [offer.eq_def P c, hc]
    generalize c.buf ++ l = buf, c.state = s
    fun_induction P.drain s buf with
    | case1 s buf hp => simp [offer, drain_of_waits hp]
    | case2 | case3 => rfl
    | case4 s buf a rest hp hq ih => exact ih
  · simp only [offer_of_closed hc]

/-- A run that no error outside `E` ends is what the whole input at once gives. -/
theorem foldl_feed_eq (hst : P.parse.Stable E) (hover : ¬E P.overflow) (hc : P.offer c [] = c)
    (h : ∀ e, (chunks.foldl P.feed c).status = .failed e → E e) :
    chunks.foldl P.feed c = P.offer c chunks.flatten := by
  induction chunks generalizing c with
  | nil => exact hc.symm
  | cons chunk chunks ih =>
    rw [foldl_cons] at h ⊢
    by_cases hcap : (c.status matches .reading) ∧ P.cap c.state < (c.buf ++ chunk).length
    · rw [feed, if_pos hcap, foldl_feed_of_closed (by simp [close])] at h
      exact absurd (h _ rfl) hover
    · rw [feed, if_neg hcap] at h ⊢
      rw [ih (offer_offer_nil chunk) h, flatten_cons, offer_append hst]
      intro e he
      rw [foldl_feed_of_closed (by simp [he])] at h
      exact h e he

theorem run_eq_of_flatten_eq {chunks' : List (List β)} (hst : P.parse.Stable E)
    (hover : ¬E P.overflow) (heq : chunks.flatten = chunks'.flatten)
    (h : ∀ e, (chunks.foldl P.feed { state := s }).status = .failed e → E e)
    (h' : ∀ e, (chunks'.foldl P.feed { state := s }).status = .failed e → E e) :
    chunks.foldl P.feed { state := s } = chunks'.foldl P.feed { state := s } := by
  have hc : P.offer { state := s } [] = { state := s } := drain_of_waits P.parse_nil
  rw [foldl_feed_eq hst hover hc h, foldl_feed_eq hst hover hc h', heq]

/-! ## Simulation -/

/-- As long as the states of `P` are in `live`, `P'` does the same on their images. -/
structure Mimics (P : Protocol β α σ ε) (P' : Protocol β α σ' ε) (live : σ → Prop) (f : σ → σ') :
    Prop where
  parse : P'.parse = P.parse
  serve : ∀ {s a}, live (P.serve s a).1 →
    live s ∧ P'.serve (f s) a = (f (P.serve s a).1, (P.serve s a).2)
  close : ∀ {s e}, live (P.refuse s e) → live s ∧ P'.close (f s) e = (P.close s e).map f
  cap : ∀ s, P'.cap (f s) = P.cap s
  overflow : P'.overflow = P.overflow

variable {P' : Protocol β α σ' ε} {live : σ → Prop} {f : σ → σ'}

theorem Mimics.drain (h : P.Mimics P' live f)
    (hl : live (P.drain s buf).state) : live s ∧ P'.drain (f s) buf = (P.drain s buf).map f := by
  fun_induction P.drain s buf with
  | case1 s buf hp => exact ⟨hl, drain_of_waits (h.parse ▸ hp)⟩
  | case2 s buf e hp =>
    rw [drain_of_error (h.parse ▸ hp)]
    exact h.close hl
  | case3 s buf a rest hp hq =>
    obtain ⟨hs, hserve⟩ := h.serve hl
    rw [drain_of_ok (h.parse ▸ hp), hserve, if_pos hq]
    exact ⟨hs, rfl⟩
  | case4 s buf a rest hp hq ih =>
    obtain ⟨hs, hserve⟩ := h.serve (ih hl).1
    rw [drain_of_ok (h.parse ▸ hp), hserve, if_neg hq]
    exact ⟨hs, (ih hl).2⟩

theorem Mimics.run (h : P.Mimics P' live f) (hl : live (chunks.foldl P.feed c).state) :
    live c.state ∧ chunks.foldl P'.feed (c.map f) = (chunks.foldl P.feed c).map f := by
  induction chunks generalizing c with
  | nil => exact ⟨hl, rfl⟩
  | cons chunk chunks ih =>
    obtain ⟨hlc, hrun⟩ := ih hl
    have hfeed : live c.state ∧ P'.feed (c.map f) chunk = (P.feed c chunk).map f := by
      by_cases hcap : (c.status matches .reading) ∧ P.cap c.state < (c.buf ++ chunk).length
      · rw [show P.feed c chunk = P.close c.state P.overflow from if_pos hcap] at hlc ⊢
        rw [← h.cap] at hcap
        rw [show P'.feed (c.map f) chunk = P'.close (f c.state) P'.overflow from if_pos hcap,
          h.overflow]
        exact h.close hlc
      · rw [show P.feed c chunk = P.offer c chunk from if_neg hcap] at hlc ⊢
        rw [← h.cap] at hcap
        rw [show P'.feed (c.map f) chunk = P'.offer (c.map f) chunk from if_neg hcap]
        unfold offer at hlc ⊢
        dsimp only [Conn.map]
        split at hlc
        · exact h.drain hlc
        · exact ⟨hlc, rfl⟩
    rw [foldl_cons, foldl_cons, hfeed.2]
    exact ⟨hfeed.1, hrun⟩

/-! ## Streams of words -/

/-- The word of `a` is read as `a` whatever follows, and as soon as it is there. -/
structure Reads (P : Protocol β α σ ε) (w : List β) (a : α) : Prop where
  ok : ∀ rest, P.parse (w ++ rest) = .ok (a, rest)
  waits : ∀ {buf more}, w = buf ++ more → more ≠ [] → P.parse buf = .error none
  stays : ∀ s, (P.serve s a).2 = false

variable {word : α → List β} {cs : List α}

/-- A buffer that starts a stream of words: some of them are served, the rest waits. -/
theorem drain_words (hw : ∀ a ∈ cs, P.Reads (word a) a) (h : cs.flatMap word = buf ++ more) :
    ∃ served todo buf', cs = served ++ todo ∧ todo.flatMap word = buf' ++ more ∧
      P.parse buf' = .error none ∧
      P.drain s buf = { buf := buf', state := served.foldl (fun s a => (P.serve s a).1) s } := by
  induction cs generalizing s buf with
  | nil =>
    obtain ⟨rfl, rfl⟩ := append_eq_nil_iff.mp h.symm
    exact ⟨[], [], [], rfl, rfl, P.parse_nil, drain_of_waits P.parse_nil⟩
  | cons a cs ih =>
    rw [forall_mem_cons] at hw
    by_cases hb : ∃ tail, buf = word a ++ tail
    · obtain ⟨tail, rfl⟩ := hb
      rw [flatMap_cons, append_assoc, append_cancel_left_eq] at h
      obtain ⟨served, todo, buf', rfl, hm, hp, hd⟩ := ih (s := (P.serve s a).1) hw.2 h
      refine ⟨a :: served, todo, buf', rfl, hm, hp, ?_⟩
      rw [drain_of_ok (hw.1.ok tail), if_neg (by simp [hw.1.stays]), hd]
      rfl
    · have hp : P.parse buf = .error none := by
        obtain ⟨tail, rfl, -⟩ | ⟨tail, ha, -⟩ := append_eq_append_iff.mp h
        · exact absurd ⟨tail, rfl⟩ hb
        · refine hw.1.waits ha fun ht => hb ⟨[], by simp [ha, ht]⟩
      exact ⟨[], a :: cs, buf, rfl, h, hp, drain_of_waits hp⟩

/-- A stream of words within the cap is served word by word, however it is cut. -/
theorem run_words (hw : ∀ a ∈ cs, P.Reads (word a) a)
    (hcap : ∀ s, (cs.flatMap word).length ≤ P.cap s) (hp : P.parse buf = .error none)
    (h : cs.flatMap word = buf ++ chunks.flatten) :
    chunks.foldl P.feed { buf, state := s } =
      { state := cs.foldl (fun s a => (P.serve s a).1) s } := by
  induction chunks generalizing cs buf s with
  | nil =>
    cases cs with
    | nil => simp_all
    | cons a cs =>
      have := (hw a (by simp)).ok (cs.flatMap word)
      simp_all
  | cons chunk chunks ih =>
    rw [flatten_cons, ← append_assoc] at h
    obtain ⟨served, todo, buf', rfl, hm, hp', hd⟩ := drain_words (s := s) hw h
    have hf : P.feed { buf, state := s } chunk = P.drain s (buf ++ chunk) := by
      have hlen := congrArg length h
      have := hcap s
      rw [length_append] at hlen
      exact if_neg fun hc => by have := hc.2; simp only at this; omega
    rw [foldl_cons, hf, hd, foldl_append]
    exact ih (fun a ha => hw a (mem_append_right _ ha)) (fun s => (hcap s).trans' (by simp)) hp' hm

end Protocol

end Rdb.Lib
