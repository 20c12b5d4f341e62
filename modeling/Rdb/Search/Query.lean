import Rdb.Search.Index
import Mathlib.Algebra.Order.Field.Rat
import Mathlib.Data.List.Perm.Subperm

/-!
# Text queries

A query is a list of terms, each for one field or for every TEXT field, and each with the
tokens it was cut into. `textSearch` scores every document of every posting list of the
query and returns a page of the best; `matchedDocids`, the filter of a vector query,
intersects the posting lists.

Scores are exact rationals over an arbitrary logarithm where the code has `f64`; a score is
finite in both, which is all that decides whether a document is listed.

* `mem_textSearch`, `mem_matchedDocids`: the union and the intersection of the lists.
* `text_search_and_iff`: when both are the documents with every token.
-/

namespace Rdb.Search

open Lib List SortedMap
open Index (run)

/-- A term of a query. A word without tokens is dropped by the parser. -/
structure QueryTerm where
  field : Option Bytes
  terms : List Bytes
  nonempty : terms ≠ []

/-- The fields a term searches: its own, or all TEXT fields. -/
def scopeFields (fields : List IndexField) : Option Bytes → List Bytes
  | some f => [f]
  | none => (fields.filter fun f => f.ftype = .text).map (·.name)

/-- The posting lists the loops over terms, fields and tokens read, in their order. -/
def searchPairs (fields : List IndexField) (terms : List QueryTerm) : List FieldTerm :=
  terms.flatMap fun q => (scopeFields fields q.field).flatMap fun f => q.terms.map (f, ·)

variable {terms : List QueryTerm}

theorem mem_searchPairs {fields : List IndexField} {f t : Bytes} :
    (f, t) ∈ searchPairs fields terms ↔
      ∃ q ∈ terms, f ∈ scopeFields fields q.field ∧ t ∈ q.terms := by
  simp [searchPairs]

/-! ## Scores -/

section Bm25

variable (ln : ℚ → ℚ)

def k1 : ℚ := 12 / 10

def b : ℚ := 3 / 4

def idf (df n : Nat) : ℚ :=
  let df : ℚ := (max df 1 : Nat)
  let n : ℚ := (max n 1 : Nat)
  ln (1 + (n - df + 1 / 2) / (df + 1 / 2))

def termScore (tf df doclen : Nat) (avgdl : ℚ) (n : Nat) : ℚ :=
  let norm := 1 - b + b * (max doclen 1 : Nat) / max avgdl (1 / 10 ^ 9)
  idf ln df n * (tf * (k1 + 1)) / (tf + k1 * norm)

end Bm25

structure Hit where
  docid : Bytes
  score : ℚ

/-- A lower score, or the same score and a larger id. -/
def Hit.worse (a h : Hit) : Bool :=
  a.score < h.score || (a.score == h.score && decide (h.docid < a.docid))

namespace TopK

def worstIdx (hits : List Hit) : Nat :=
  hits.zipIdx.foldl (fun worst h =>
    match hits[worst]? with
    | some w => if h.1.worse w then h.2 else worst
    | none => worst) 0

def push (capacity : Nat) (hits : List Hit) (h : Hit) : List Hit :=
  if capacity = 0 then hits
  else if hits.length ≥ capacity then
    match hits[worstIdx hits]? with
    | some w => if w.worse h then hits.set (worstIdx hits) h else hits
    | none => hits
  else hits ++ [h]

def finish (hits : List Hit) : List Hit := hits.mergeSort fun a h => !a.worse h

theorem foldl_push {capacity : Nat} {hits l : List Hit}
    (h : hits.length + l.length ≤ capacity) : l.foldl (push capacity) hits = hits ++ l := by
  induction l generalizing hits with
  | nil => simp
  | cons x l ih =>
    rw [length_cons] at h
    have hpush : push capacity hits x = hits ++ [x] := by
      rw [push, if_neg (by omega), if_neg (by omega)]
    rw [foldl_cons, hpush, ih (by simp; omega), append_assoc, singleton_append]

end TopK

/-! ## The two evaluators -/

def Index.doclenOf (ix : Index) (docid : Bytes) : Nat :=
  (ix.docs.get docid).elim 1 fun rec => max rec.doclen 1

section Search

variable (ln : ℚ → ℚ)

/-- The scores of all documents in the posting lists of the query. -/
def Index.scores (ix : Index) (pairs : List FieldTerm) : List (Bytes × ℚ) :=
  let n := max ix.numDocs 1
  let avgdl : ℚ := ix.sumDoclen / n
  pairs.foldl (fun scores p =>
    let df := (ix.termstats p).df
    if df = 0 then scores
    else (ix.postings p).entries.foldl (fun scores e =>
      tally e.1 (termScore ln e.2 df (ix.doclenOf e.1) avgdl n) scores) scores) []

def textSearch (ix : Index) (terms : List QueryTerm) (offset count : Nat) : List Hit :=
  let scores := ix.scores ln (searchPairs ix.fields terms)
  let top := (scores.map fun s => ⟨s.1, s.2⟩).foldl (TopK.push (offset + count)) []
  ((TopK.finish top).drop offset).take count

end Search

def matchedDocids (ix : Index) (terms : List QueryTerm) : Finset Bytes :=
  let acc := (searchPairs ix.fields terms).foldl (fun acc p =>
    let docs := (ix.postings p).keys
    some (match acc with
      | some a => a ∩ docs
      | none => docs)) none
  acc.getD ∅

/-! ## Union and intersection -/

variable {d : Bytes}

section Sets

variable {ln : ℚ → ℚ} {tokenize : Bytes → List Bytes} {lossy : Bytes → Bytes}
  {fields : List IndexField} {ix : Index} {c : Corpus}

theorem mem_scores (h : ∀ p, (ix.termstats p).df = (ix.postings p).size) {pairs : List FieldTerm} :
    d ∈ (ix.scores ln pairs).map (·.1) ↔ ∃ p ∈ pairs, d ∈ (ix.postings p).keys := by
  suffices hfold : ∀ scores : List (Bytes × ℚ),
      d ∈ (pairs.foldl (fun scores p =>
        if (ix.termstats p).df = 0 then scores
        else (ix.postings p).entries.foldl (fun scores e =>
          tally e.1 (termScore ln e.2 (ix.termstats p).df (ix.doclenOf e.1)
            (ix.sumDoclen / (max ix.numDocs 1 : Nat)) (max ix.numDocs 1)) scores) scores)
        scores).map (·.1) ↔
      (∃ p ∈ pairs, d ∈ (ix.postings p).keys) ∨ d ∈ scores.map (·.1) by
    simpa [Index.scores] using hfold []
  induction pairs with
  | nil => simp
  | cons p pairs ih =>
    intro scores
    rw [foldl_cons, ih]
    have hlist : d ∈ (ix.postings p).keys ↔ ∃ e ∈ (ix.postings p).entries, e.1 = d := by
      rw [SortedMap.mem_keys, Option.isSome_iff_exists]
      refine ⟨fun ⟨n, hn⟩ => ⟨(d, n), get_eq_some.mp hn, rfl⟩, ?_⟩
      rintro ⟨e, he, rfl⟩
      exact ⟨e.2, mem_entries.mp he⟩
    by_cases hdf : (ix.termstats p).df = 0
    · -- a list without documents is skipped
      have hnil : (ix.postings p).entries = [] := length_eq_zero_iff.mp ((h p).symm.trans hdf)
      simp [hlist, hnil]
    · rw [if_neg hdf, mem_keys_foldl_tally, ← hlist]
      simp [or_assoc, or_left_comm]

theorem nodup_scores (pairs : List FieldTerm) : ((ix.scores ln pairs).map (·.1)).Nodup := by
  have hnil : (([] : List (Bytes × ℚ)).map (·.1)).Nodup := nodup_nil
  refine foldlRecOn (motive := fun scores : List (Bytes × ℚ) => (scores.map (·.1)).Nodup)
    pairs _ hnil fun scores hs p _ => ?_
  dsimp only
  split
  · exact hs
  · exact nodup_foldl_tally hs

theorem mem_textSearch (h : Indexes tokenize lossy fields ix c) {count : Nat}
    (hcount : ix.docs.size ≤ count) :
    d ∈ (textSearch ln ix terms 0 count).map (·.docid) ↔
      ∃ p ∈ searchPairs fields terms, ((ix.postings p).get d).isSome := by
  have hmem : ∀ d, d ∈ (ix.scores ln (searchPairs ix.fields terms)).map (·.1) ↔ _ :=
    fun d => mem_scores fun p => congrArg TermStat.df (h.stats p)
  have hsub : (ix.scores ln (searchPairs ix.fields terms)).map (·.1) ⊆
      ix.docs.entries.map (·.1) := by
    intro d hd
    obtain ⟨p, -, hp⟩ := (hmem d).mp hd
    rw [SortedMap.mem_keys, h.postings] at hp
    cases hdoc : ix.docs.get d with
    | none => rw [hdoc] at hp; cases hp
    | some rec => exact mem_map.mpr ⟨(d, rec), get_eq_some.mp hdoc, rfl⟩
  have hlen := (subperm_of_subset (nodup_scores _) hsub).length_le
  simp only [length_map] at hlen
  have htop : ∀ l : List Hit, l.length ≤ count →
      (((TopK.finish (l.foldl (TopK.push (0 + count)) [])).drop 0).take count).Perm l := by
    intro l hl
    have hall := TopK.foldl_push (show ([] : List Hit).length + l.length ≤ 0 + count by simpa using hl)
    rw [hall, drop_zero, take_of_length_le]
    · exact mergeSort_perm _ _
    · rw [TopK.finish, length_mergeSort]
      exact hl
  have hperm := (htop ((ix.scores ln (searchPairs ix.fields terms)).map fun s => ⟨s.1, s.2⟩)
    (by rw [length_map]; exact hlen.trans hcount)).map (·.docid)
  rw [textSearch, hperm.mem_iff, map_map]
  refine ((hmem d).trans ?_)
  rw [h.schema]
  simp only [SortedMap.mem_keys]

theorem mem_matchedDocids (h : Indexes tokenize lossy fields ix c) :
    d ∈ matchedDocids ix terms ↔ searchPairs fields terms ≠ [] ∧
      ∀ p ∈ searchPairs fields terms, ((ix.postings p).get d).isSome := by
  have hfold : ∀ (pairs : List FieldTerm) (a : Finset Bytes),
      ∃ s, pairs.foldl (fun acc p => some (match acc with
        | some a => a ∩ (ix.postings p).keys
        | none => (ix.postings p).keys)) (some a) = some s ∧
      (d ∈ s ↔ d ∈ a ∧ ∀ p ∈ pairs, ((ix.postings p).get d).isSome) := by
    intro pairs
    induction pairs with
    | nil => exact fun a => ⟨a, rfl, by simp⟩
    | cons p pairs ih =>
      intro a
      obtain ⟨s, hs, hmem⟩ := ih (a ∩ (ix.postings p).keys)
      refine ⟨s, hs, hmem.trans ?_⟩
      rw [Finset.mem_inter, SortedMap.mem_keys, forall_mem_cons, and_assoc]
  rw [matchedDocids, h.schema]
  cases searchPairs fields terms with
  | nil => simp
  | cons p pairs =>
    obtain ⟨s, hs, hmem⟩ := hfold pairs (ix.postings p).keys
    rw [foldl_cons]
    rw [hs, Option.getD_some, hmem, SortedMap.mem_keys]
    simp

end Sets

/-! ## Every token of every term -/

section Spec

variable (tokenize : Bytes → List Bytes) (lossy : Bytes → Bytes) (fields : List IndexField)
  (c : Corpus) (terms : List QueryTerm)

/-- The document has every token of every term in a field of the term. -/
def Matches (d : Bytes) : Prop :=
  ∃ body, c d = some body ∧ ∀ q ∈ terms, ∀ t ∈ q.terms,
    ∃ f ∈ scopeFields fields q.field, Occurs tokenize lossy fields body (f, t)

/-- Both evaluators give the documents that match. -/
def AndSemantics (ln : ℚ → ℚ) (ix : Index) (count : Nat) : Prop :=
  (∀ d, d ∈ (textSearch ln ix terms 0 count).map (·.docid) ↔
    Matches tokenize lossy fields c terms d) ∧
  ∀ d, d ∈ matchedDocids ix terms ↔ Matches tokenize lossy fields c terms d

/-- A document has all of the searched field and token pairs or none of them. -/
structure AllOrNone : Prop where
  docs : ∀ d body, c d = some body →
    (∃ p ∈ searchPairs fields terms, Occurs tokenize lossy fields body p) →
    (∀ p ∈ searchPairs fields terms, Occurs tokenize lossy fields body p) ∧
      ∀ q ∈ terms, scopeFields fields q.field ≠ []
  query : terms = [] → ∀ d, c d = none

end Spec

section Result

variable {tokenize : Bytes → List Bytes} {lossy : Bytes → Bytes} {fields : List IndexField}
  {c : Corpus} {terms : List QueryTerm}

theorem matches_of_all {body : Option Json} (hbody : c d = some body)
    (hscope : ∀ q ∈ terms, scopeFields fields q.field ≠ [])
    (hall : ∀ p ∈ searchPairs fields terms, Occurs tokenize lossy fields body p) :
    Matches tokenize lossy fields c terms d := by
  refine ⟨body, hbody, fun q hq t ht => ?_⟩
  obtain ⟨f, hf⟩ := exists_mem_of_ne_nil _ (hscope q hq)
  exact ⟨f, hf, hall _ (mem_searchPairs.mpr ⟨q, hq, hf, ht⟩)⟩

theorem exists_of_matches {body : Option Json}
    (h : ∀ q ∈ terms, ∀ t ∈ q.terms,
      ∃ f ∈ scopeFields fields q.field, Occurs tokenize lossy fields body (f, t))
    (hterms : terms ≠ []) :
    ∃ p ∈ searchPairs fields terms, Occurs tokenize lossy fields body p := by
  obtain ⟨q, hq⟩ := exists_mem_of_ne_nil _ hterms
  obtain ⟨t, ht⟩ := exists_mem_of_ne_nil _ q.nonempty
  obtain ⟨f, hf, hoccurs⟩ := h q hq t ht
  exact ⟨(f, t), mem_searchPairs.mpr ⟨q, hq, hf, ht⟩, hoccurs⟩

end Result

theorem text_search_and_iff (ln : ℚ → ℚ) (tokenize : Bytes → List Bytes)
    (lossy : Bytes → Bytes) (fields : List IndexField) (ops : List Op)
    (terms : List QueryTerm) (count : Nat)
    (hcount : (run tokenize lossy fields ops).docs.size ≤ count) :
    AndSemantics tokenize lossy fields (Corpus.run tokenize lossy fields ops) terms ln
        (run tokenize lossy fields ops) count ↔
      AllOrNone tokenize lossy fields (Corpus.run tokenize lossy fields ops) terms := by
  have hix := indexes_run tokenize lossy fields ops
  generalize run tokenize lossy fields ops = ix at hix hcount
  generalize Corpus.run tokenize lossy fields ops = c at hix
  -- the two evaluators over the documents
  have htext : ∀ d, d ∈ (textSearch ln ix terms 0 count).map (·.docid) ↔
      ∃ body, c d = some body ∧
        ∃ p ∈ searchPairs fields terms, Occurs tokenize lossy fields body p := by
    intro d
    rw [mem_textSearch hix hcount]
    simp only [hix.isSome_postings]
    constructor
    · rintro ⟨p, hp, body, hbody, hoccurs⟩
      exact ⟨body, hbody, p, hp, hoccurs⟩
    · rintro ⟨body, hbody, p, hp, hoccurs⟩
      exact ⟨p, hp, body, hbody, hoccurs⟩
  have hmatched : ∀ d body, c d = some body → (d ∈ matchedDocids ix terms ↔
      searchPairs fields terms ≠ [] ∧
        ∀ p ∈ searchPairs fields terms, Occurs tokenize lossy fields body p) := by
    intro d body hbody
    rw [mem_matchedDocids hix]
    simp [hix.isSome_postings, hbody]
  have hdoc : ∀ d, d ∈ matchedDocids ix terms → ∃ body, c d = some body := by
    intro d hd
    obtain ⟨hne, hall⟩ := (mem_matchedDocids hix).mp hd
    obtain ⟨p, hp⟩ := exists_mem_of_ne_nil _ hne
    obtain ⟨body, hbody, -⟩ := (hix.isSome_postings p d).mp (hall p hp)
    exact ⟨body, hbody⟩
  constructor
  · rintro ⟨hand, hfilter⟩
    refine ⟨fun d body hbody hhit => ?_, fun hnil d => ?_⟩
    · have hmatch := (hand d).mp ((htext d).mpr ⟨body, hbody, hhit⟩)
      refine ⟨((hmatched d body hbody).mp ((hfilter d).mpr hmatch)).2, fun q hq hscope => ?_⟩
      obtain ⟨_, -, hq'⟩ := hmatch
      obtain ⟨t, ht⟩ := exists_mem_of_ne_nil _ q.nonempty
      obtain ⟨f, hf, -⟩ := hq' q hq t ht
      rw [hscope] at hf
      cases hf
    · -- a query without terms matches every document and lists none
      cases hbody : c d with
      | none => rfl
      | some body =>
        subst hnil
        obtain ⟨_, -, p, hp, -⟩ := (htext d).mp ((hand d).mpr ⟨body, hbody, nofun⟩)
        cases hp
  · intro h
    have hhit : ∀ d body, c d = some body → Matches tokenize lossy fields c terms d →
        ∃ p ∈ searchPairs fields terms, Occurs tokenize lossy fields body p := by
      rintro d body hbody ⟨body', hbody', hall⟩
      cases hbody.symm.trans hbody'
      refine exists_of_matches hall fun hnil => ?_
      rw [h.query hnil d] at hbody
      cases hbody
    refine ⟨fun d => ?_, fun d => ?_⟩
    · rw [htext]
      constructor
      · rintro ⟨body, hbody, hp⟩
        obtain ⟨hall, hscope⟩ := h.docs d body hbody hp
        exact matches_of_all hbody hscope hall
      · intro hmatch
        obtain ⟨body, hbody, -⟩ := id hmatch
        exact ⟨body, hbody, hhit d body hbody hmatch⟩
    · constructor
      · intro hd
        obtain ⟨body, hbody⟩ := hdoc d hd
        obtain ⟨hne, hall⟩ := (hmatched d body hbody).mp hd
        obtain ⟨p, hp⟩ := exists_mem_of_ne_nil _ hne
        exact matches_of_all hbody (h.docs d body hbody ⟨p, hp, hall p hp⟩).2 hall
      · intro hmatch
        obtain ⟨body, hbody, -⟩ := id hmatch
        obtain ⟨p, hp, hoccurs⟩ := hhit d body hbody hmatch
        exact (hmatched d body hbody).mpr
          ⟨ne_nil_of_mem hp, (h.docs d body hbody ⟨p, hp, hoccurs⟩).1⟩

/-- Every byte a token. -/
def byteTokens (text : Bytes) : List Bytes := text.map ([·])

/-- A TEXT field `t`. -/
def oneField : List IndexField := [⟨[116], .text⟩]

/-- Document `x` with the text `ab`, document `y` with the text `a`. -/
def twoDocs : List Op :=
  [.add [120] (some (.obj [([116], .str [97, 98])])), .add [121] (some (.obj [([116], .str [97])]))]

/-- Documents `x` and `y` with the texts `ab` and `ba`. -/
def wholeDocs : List Op :=
  [.add [120] (some (.obj [([116], .str [97, 98])])),
   .add [121] (some (.obj [([116], .str [98, 97])]))]

/-- The words `a` and `b`, which both documents have. -/
theorem text_search_and_two_words :
    AndSemantics byteTokens id oneField (Corpus.run byteTokens id oneField wholeDocs)
      [⟨none, [[97]], List.cons_ne_nil _ _⟩, ⟨none, [[98]], List.cons_ne_nil _ _⟩] id
      (run byteTokens id oneField wholeDocs) 10 := by
  refine (text_search_and_iff id byteTokens id oneField wholeDocs _ 10 (by decide +kernel)).mpr
    ⟨fun d body hbody _ => ⟨fun p hp => ?_, fun q hq => ?_⟩, nofun⟩
  · have hdoc : body = some (.obj [([116], .str [98, 97])]) ∨
        body = some (.obj [([116], .str [97, 98])]) := by
      rw [show Corpus.run byteTokens id oneField wholeDocs = Function.update (Function.update
        (fun _ => none) [120] (some _)) [121] (some _) from rfl, Function.update_apply,
        Function.update_apply] at hbody
      split at hbody
      · exact .inl (Option.some.inj hbody).symm
      · split at hbody
        · exact .inr (Option.some.inj hbody).symm
        · cases hbody
    have hword : p = ([116], [97]) ∨ p = ([116], [98]) := by
      simpa [searchPairs, scopeFields, oneField] using hp
    rcases hdoc with rfl | rfl <;> rcases hword with rfl | rfl <;>
      exact termFreq_pos.mp (by decide +kernel)
  · rcases mem_pair.mp hq with rfl | rfl <;> exact cons_ne_nil _ _

/-- The words `a` and `b` list `y`, which has no `b`. -/
theorem text_search_lists_partial_match :
    (run byteTokens id oneField twoDocs).docs.size ≤ 10 ∧
    ¬ AndSemantics byteTokens id oneField (Corpus.run byteTokens id oneField twoDocs)
      [⟨none, [[97]], List.cons_ne_nil _ _⟩, ⟨none, [[98]], List.cons_ne_nil _ _⟩] id
      (run byteTokens id oneField twoDocs) 10 := by
  have hix := indexes_run byteTokens id oneField twoDocs
  have hsize : (run byteTokens id oneField twoDocs).docs.size ≤ 10 := by decide +kernel
  refine ⟨hsize, fun ⟨hand, _⟩ => ?_⟩
  obtain ⟨body, hbody, hall⟩ := (hand [121]).mp ((mem_textSearch hix hsize).mpr
    ⟨([116], [97]), by decide, by decide +kernel⟩)
  obtain ⟨f, hf, hoccurs⟩ := hall _ (mem_cons_of_mem _ mem_cons_self) [98]
    mem_cons_self
  rw [mem_singleton.mp hf] at hoccurs
  have hpost := (hix.isSome_postings ([116], [98]) [121]).mpr ⟨body, hbody, hoccurs⟩
  revert hpost
  decide +kernel

end Rdb.Search
