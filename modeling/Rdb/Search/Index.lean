import Rdb.Lib.Bytes
import Rdb.Lib.Run
import Rdb.Lib.SortedMap
import Rdb.Lib.Tally

/-!
# The inverted index

An index keeps, for every field and term, a posting list sorted by document id and its
statistics, and for every document the terms it was indexed under, which is what a
replacement or a deletion takes out of the posting lists again.

The tables are keyed by the field and the term; their physical keys carry both with their
lengths. Numeric values have records of their own, which no text query reads (`Records`); of
vectors only the checks are here. `tokenize`, `lossy` (the lossy UTF-8 form of a field name)
and `asF64` (the number a text is) are whatever the tokenizer and the libraries compute.

* `docRecordOf_spec`: the terms of a record are the tokens of the document.
* `indexes_run`: after any additions and deletions the posting lists are those of the
  documents present.
-/

namespace Rdb.Search

open Lib List SortedMap
open Function (update update_apply update_eq_self update_of_ne update_self)

inductive FieldType where
  | text
  | vector (dim : Nat)
  | keyword
  | numeric
  deriving DecidableEq

structure IndexField where
  name : Bytes
  ftype : FieldType

/-- A parsed JSON value; numbers by their text. -/
inductive Json where
  | null
  | bool (b : Bool)
  | num (text : Bytes)
  | str (s : Bytes)
  | arr (items : List Json)
  | obj (map : List (Bytes × Json))

abbrev FieldTerm := Bytes × Bytes

structure DocRecord where
  doclen : Nat
  terms : List (FieldTerm × Nat)

structure TermStat where
  df : Nat
  totalTf : Nat

structure Index where
  fields : List IndexField
  numDocs : Nat
  sumDoclen : Nat
  docs : SortedMap Bytes DocRecord
  postings : FieldTerm → SortedMap Bytes Nat
  termstats : FieldTerm → TermStat

/-- `FT.CREATE`. -/
def Index.create (fields : List IndexField) : Index :=
  ⟨fields, 0, 0, .empty, fun _ => .empty, fun _ => ⟨0, 0⟩⟩

/-! ## From a document to its terms -/

def textOf : Json → Option Bytes
  | .str s => some s
  | .num text => some text
  | .bool b => some (if b then "true" else "false").toUTF8.toList
  | _ => none

section Terms

variable (tokenize : Bytes → List Bytes)

/-- The tokens a value gives in a field, and what they add to the document's length. -/
def fieldTokens : FieldType → Json → Except String (List Bytes × Nat)
  | .text, v =>
    match textOf v with
    | some text => .ok (tokenize text, (tokenize text).length)
    | none => .error "ERR text field must be a JSON scalar"
  | .keyword, .arr items =>
    match items.mapM textOf with
    | some toks => .ok (toks, 0)
    | none => .error "ERR keyword field must be a string or array of strings"
  | .keyword, v =>
    match textOf v with
    | some tok => .ok ([tok], 0)
    | none => .error "ERR keyword field must be a string or array of strings"
  | .numeric, .num _ => .ok ([], 0)
  | .numeric, _ => .error "ERR numeric field must be a JSON number"
  | .vector dim, .arr items =>
    if !items.all (fun it => it matches .num _) then .error "ERR vector values must be numbers"
    else if items.length ≠ dim then .error "ERR vector dimension mismatch"
    else .ok ([], 0)
  | .vector _, _ => .error "ERR vector field must be a JSON array"

def bumpTerms (terms : List (FieldTerm × Nat)) (field : Bytes) (toks : List Bytes) :
    List (FieldTerm × Nat) :=
  toks.foldl (fun terms tok => tally (field, tok) 1 terms) terms

variable (lossy : Bytes → Bytes)

def addField (map : List (Bytes × Json)) (rec : DocRecord) (f : IndexField) :
    Except String DocRecord :=
  match map.lookup (lossy f.name) with
  | none => .ok rec
  | some v =>
    match fieldTokens tokenize f.ftype v with
    | .error e => .error e
    | .ok (toks, len) => .ok ⟨rec.doclen + len, bumpTerms rec.terms f.name toks⟩

/-- The record of a document body; `none` is a body that is not JSON. -/
def docRecordOf (fields : List IndexField) : Option Json → Except String DocRecord
  | none => .error "ERR invalid JSON document"
  | some (.obj map) => fields.foldlM (addField tokenize lossy map) ⟨0, []⟩
  | some _ => .error "ERR document must be a JSON object"

def Occurs (fields : List IndexField) (body : Option Json) (p : FieldTerm) : Prop :=
  ∃ map, body = some (.obj map) ∧ ∃ f ∈ fields, f.name = p.1 ∧
    ∃ v, map.lookup (lossy p.1) = some v ∧
      ∃ toks len, fieldTokens tokenize f.ftype v = .ok (toks, len) ∧ p.2 ∈ toks

def fieldTf (map : List (Bytes × Json)) (p : FieldTerm) (f : IndexField) : Nat :=
  if f.name = p.1 then
    match (map.lookup (lossy f.name)).map (fieldTokens tokenize f.ftype) with
    | some (.ok (toks, _)) => toks.count p.2
    | _ => 0
  else 0

def termFreq (fields : List IndexField) (body : Option Json) (p : FieldTerm) : Nat :=
  match body with
  | some (.obj map) => (fields.map (fieldTf tokenize lossy map p)).sum
  | _ => 0

end Terms

/-! ## Changing the posting lists -/

/-- A posting list and its statistics, as the batch writes them: an empty list is deleted
together with its statistics. -/
def Index.putTerm (ix : Index) (p : FieldTerm) (entries : SortedMap Bytes Nat)
    (stat : TermStat) : Index :=
  if entries.entries.isEmpty then
    { ix with
      postings := update ix.postings p .empty
      termstats := update ix.termstats p ⟨0, 0⟩ }
  else
    { ix with
      postings := update ix.postings p entries
      termstats := update ix.termstats p stat }

/-- Sets or removes `docid` given the change of its term frequency. -/
def upsertByDelta (entries : SortedMap Bytes Nat) (docid : Bytes) (tfDelta : Int)
    (oldTf : Nat) : SortedMap Bytes Nat :=
  let newTf := ((oldTf : Int) + tfDelta).toNat
  if newTf = 0 then entries.delete docid else entries.put docid newTf

/-- The term frequency and document frequency changes of a replacement, by term. -/
def deltas (new : DocRecord) (old : Option DocRecord) : List (FieldTerm × Int × Int) :=
  let added := new.terms.foldl (fun ds t => tally t.1 ((t.2 : Int), 1) ds) []
  match old with
  | none => added
  | some old => old.terms.foldl (fun ds t => tally t.1 (-(t.2 : Int), -1) ds) added

def Index.buildAddBatch (ix : Index) (docid : Bytes) (rec : DocRecord) : Index :=
  let old := ix.docs.get docid
  let batch := (deltas rec old).foldl (fun batch d =>
    let oldTf := (old.bind (·.terms.lookup d.1)).getD 0
    let stat := ix.termstats d.1
    batch.putTerm d.1 (upsertByDelta (ix.postings d.1) docid d.2.1 oldTf)
      ⟨((stat.df : Int) + d.2.2).toNat, ((stat.totalTf : Int) + d.2.1).toNat⟩) ix
  { batch with
    numDocs := if old.isNone then ix.numDocs + 1 else ix.numDocs
    sumDoclen := ix.sumDoclen + rec.doclen - old.elim 0 (·.doclen)
    docs := ix.docs.put docid rec }

def Index.buildDelBatch (ix : Index) (docid : Bytes) : Index :=
  match ix.docs.get docid with
  | none => ix
  | some old =>
    let batch := old.terms.foldl (fun batch t =>
      let stat := ix.termstats t.1
      batch.putTerm t.1 ((ix.postings t.1).delete docid)
        ⟨stat.df - 1, stat.totalTf - t.2⟩) ix
    { batch with
      numDocs := ix.numDocs - 1
      sumDoclen := ix.sumDoclen - old.doclen
      docs := ix.docs.delete docid }

inductive Op where
  | add (docid : Bytes) (body : Option Json)
  | del (docid : Bytes)

/-- The documents, by id. -/
abbrev Corpus := Bytes → Option (Option Json)

section Run

variable (tokenize : Bytes → List Bytes) (lossy : Bytes → Bytes)

/-- `FT.ADD` and `FT.DEL`; a body that gives no record is refused. -/
def Index.step (ix : Index) : Op → Index
  | .add docid body =>
    match docRecordOf tokenize lossy ix.fields body with
    | .error _ => ix
    | .ok rec => ix.buildAddBatch docid rec
  | .del docid => ix.buildDelBatch docid

def Index.run (fields : List IndexField) (ops : List Op) : Index :=
  ops.foldl (Index.step tokenize lossy) (.create fields)

def Corpus.step (fields : List IndexField) (c : Corpus) : Op → Corpus
  | .add docid body =>
    match docRecordOf tokenize lossy fields body with
    | .error _ => c
    | .ok _ => update c docid (some body)
  | .del docid => update c docid none

def Corpus.run (fields : List IndexField) (ops : List Op) : Corpus :=
  ops.foldl (Corpus.step tokenize lossy fields) fun _ => none

end Run

/-! ## The terms of a record -/

/-- A record lists every term once, with a positive frequency. -/
structure DocRecord.Wf (rec : DocRecord) : Prop where
  nodup : (rec.terms.map (·.1)).Nodup
  pos : ∀ p n, rec.terms.lookup p = some n → 0 < n

variable {rec : DocRecord}

theorem DocRecord.Wf.lookup_eq (h : rec.Wf) {p : FieldTerm} {n : Nat} :
    rec.terms.lookup p = some n ↔ 0 < n ∧ (rec.terms.lookup p).getD 0 = n := by
  cases hp : rec.terms.lookup p with
  | none => simpa using fun hn : 0 < n => hn.ne
  | some m => simpa using fun hm : m = n => hm ▸ h.pos p m hp

theorem DocRecord.Wf.bumpTerms (h : rec.Wf) (len : Nat) (field : Bytes)
    (toks : List Bytes) : DocRecord.Wf ⟨len, bumpTerms rec.terms field toks⟩ := by
  refine ⟨nodup_foldl_tally h.nodup, ?_⟩
  have hpos := h.pos
  generalize rec.terms = terms at hpos
  induction toks generalizing terms with
  | nil => exact hpos
  | cons tok toks ih =>
    refine ih (tally (field, tok) 1 terms) fun p n hp => ?_
    rw [lookup_tally] at hp
    split at hp
    · cases hold : terms.lookup (field, tok) <;> simp [hold] at hp <;> omega
    · exact hpos p n hp

section Terms

variable {tokenize : Bytes → List Bytes} {lossy : Bytes → Bytes}

theorem addField_spec {map : List (Bytes × Json)} {rec' : DocRecord} {f : IndexField} (hwf : rec.Wf)
    (h : addField tokenize lossy map rec f = .ok rec') :
    rec'.Wf ∧ ∀ p, (rec'.terms.lookup p).getD 0 =
      (rec.terms.lookup p).getD 0 + fieldTf tokenize lossy map p f := by
  unfold addField at h
  split at h
  · next hnone =>
    cases h
    exact ⟨hwf, fun p => by simp [fieldTf, hnone]⟩
  · next v hv =>
    split at h
    · cases h
    · next toks len htoks =>
      cases h
      refine ⟨hwf.bumpTerms _ _ _, fun ⟨field, term⟩ => ?_⟩
      rw [bumpTerms, getD_lookup_count, fieldTf, hv, Option.map_some, htoks]
      by_cases hname : f.name = field
      · rw [if_pos hname, ← hname]
        exact congrArg _ (countP_congr fun tok _ => by simp)
      · simp [hname]

theorem docRecordOf_spec {fields : List IndexField} {body : Option Json}
    (h : docRecordOf tokenize lossy fields body = .ok rec) :
    rec.Wf ∧ ∀ p, (rec.terms.lookup p).getD 0 = termFreq tokenize lossy fields body p := by
  -- over the fields, for any record to start from
  have hfold : ∀ (map : List (Bytes × Json)) (fields : List IndexField) (r r' : DocRecord),
      r.Wf → fields.foldlM (addField tokenize lossy map) r = .ok r' →
      r'.Wf ∧ ∀ p, (r'.terms.lookup p).getD 0 = (r.terms.lookup p).getD 0 +
        (fields.map (fieldTf tokenize lossy map p)).sum := by
    intro map fields
    induction fields with
    | nil =>
      intro r r' hwf hr
      cases hr
      exact ⟨hwf, fun p => rfl⟩
    | cons f fields ih =>
      intro r r' hwf hr
      rw [foldlM_cons] at hr
      obtain ⟨r₁, hadd, hr⟩ := bind_eq_ok.mp hr
      obtain ⟨hwf₁, hadd⟩ := addField_spec hwf hadd
      obtain ⟨hwf', hrest⟩ := ih r₁ r' hwf₁ hr
      refine ⟨hwf', fun p => ?_⟩
      rw [hrest, hadd, map_cons, sum_cons, Nat.add_assoc]
  unfold docRecordOf at h
  split at h
  · cases h
  · next map =>
    obtain ⟨hwf, hfreq⟩ := hfold map fields ⟨0, []⟩ rec ⟨nodup_nil, nofun⟩ h
    exact ⟨hwf, fun p => (hfreq p).trans (Nat.zero_add _)⟩
  · cases h

theorem termFreq_pos {fields : List IndexField} {body : Option Json} {p : FieldTerm} :
    0 < termFreq tokenize lossy fields body p ↔ Occurs tokenize lossy fields body p := by
  have hfield : ∀ map (f : IndexField), 0 < fieldTf tokenize lossy map p f ↔ f.name = p.1 ∧
      ∃ v, map.lookup (lossy p.1) = some v ∧
        ∃ toks len, fieldTokens tokenize f.ftype v = .ok (toks, len) ∧ p.2 ∈ toks := by
    intro map f
    unfold fieldTf
    split
    · next hname =>
      rw [hname]
      cases map.lookup (lossy p.1) with
      | none => simp
      | some v => rcases hv : fieldTokens tokenize f.ftype v with _ | ⟨toks, len⟩ <;> simp [hv]
    · next hname => simp [hname]
  unfold termFreq Occurs
  split
  · next map =>
    rw [List.sum_pos_iff_exists_pos_nat]
    simp [hfield]
  · next hbody => exact iff_of_false (lt_irrefl 0) fun ⟨map, hmap, _⟩ => hbody map hmap

end Terms

/-! ## The posting lists of a run -/

/-- The statistics a posting list should have. -/
def statOf (entries : SortedMap Bytes Nat) : TermStat := ⟨entries.size, entries.total id⟩

theorem putTerm_eq (ix : Index) (p : FieldTerm) (entries : SortedMap Bytes Nat) (stat : TermStat) :
    ix.putTerm p entries stat = { ix with
      postings := update ix.postings p entries
      termstats := update ix.termstats p (if entries.entries.isEmpty then ⟨0, 0⟩ else stat) } := by
  unfold Index.putTerm
  split
  · next hempty =>
    have hnil : entries = .empty := ext fun d => by
      rw [SortedMap.get, List.isEmpty_iff.mp hempty]
      rfl
    rw [hnil]
  · rfl

theorem foldl_putTerm {α : Type*} (F : FieldTerm × α → SortedMap Bytes Nat)
    (G : FieldTerm × α → TermStat) {l : List (FieldTerm × α)} (hl : (l.map (·.1)).Nodup)
    (ix : Index) :
    let batch := l.foldl (fun b e => b.putTerm e.1 (F e) (G e)) ix
    batch.fields = ix.fields ∧
      (∀ p, batch.postings p = (l.lookup p).elim (ix.postings p) fun a => F (p, a)) ∧
      ((∀ p a, l.lookup p = some a → G (p, a) = statOf (F (p, a))) →
        (∀ p, ix.termstats p = statOf (ix.postings p)) →
        ∀ p, batch.termstats p = statOf (batch.postings p)) := by
  induction l generalizing ix with
  | nil => exact ⟨rfl, fun p => rfl, fun _ => id⟩
  | cons e l ih =>
    obtain ⟨hnew, hrest⟩ := nodup_cons.mp hl
    have hnone : l.lookup e.1 = none := by
      rw [← Option.not_isSome_iff_eq_none, isSome_lookup]
      exact hnew
    obtain ⟨hfields, hterms, hstats⟩ := ih hrest (ix.putTerm e.1 (F e) (G e))
    rw [putTerm_eq] at hfields hterms hstats
    rw [foldl_cons, putTerm_eq]
    refine ⟨hfields, fun p => ?_, fun hG h => hstats (fun p a hp => hG p a ?_) fun p => ?_⟩
    · rw [hterms, lookup_cons]
      by_cases hp : p = e.1
      · subst hp
        simp [hnone]
      · simp [hp, beq_eq_false_iff_ne.mpr hp]
    · rw [lookup_cons, beq_eq_false_iff_ne.mpr fun h => by rw [h, hnone] at hp; cases hp]
      exact hp
    · dsimp only
      rw [update_apply, update_apply]
      split
      · split
        · next hempty => simp [statOf, SortedMap.size, total, List.isEmpty_iff.mp hempty]
        · exact hG e.1 e.2 (by rw [lookup_cons, beq_self_eq_true])
      · exact h p

/-- The changes a term frequency of `new` in place of `old` makes. -/
def deltaOf : Option Nat → Option Nat → Option (Int × Int)
  | none, none => none
  | some n, none => some (n, 1)
  | none, some m => some (-m, -1)
  | some n, some m => some (n + -m, 1 + -1)

theorem lookup_deltas {new : DocRecord} {old : Option DocRecord} (hnew : new.Wf)
    (hold : ∀ r, old = some r → r.Wf) (p : FieldTerm) :
    (deltas new old).lookup p = deltaOf (new.terms.lookup p) (old.bind (·.terms.lookup p)) := by
  have hadded := lookup_foldl_tally (fun n : Nat => ((n : Int), (1 : Int))) hnew.nodup [] p
  cases old with
  | none =>
    refine hadded.trans ?_
    cases new.terms.lookup p <;> rfl
  | some r =>
    refine (lookup_foldl_tally (fun n : Nat => (-(n : Int), (-1 : Int))) (hold r rfl).nodup
      _ p).trans ?_
    rw [hadded]
    cases hr : r.terms.lookup p <;> cases new.terms.lookup p <;> simp [hr, deltaOf]

theorem nodup_deltas (new : DocRecord) (old : Option DocRecord) :
    ((deltas new old).map (·.1)).Nodup := by
  cases old with
  | none => exact nodup_foldl_tally nodup_nil
  | some r => exact nodup_foldl_tally (nodup_foldl_tally nodup_nil)

variable {docid : Bytes}

theorem upsertByDelta_spec {entries : SortedMap Bytes Nat} {new : Option Nat}
    (hpos : ∀ n, new = some n → 0 < n) {δ : Int × Int}
    (hδ : deltaOf new (entries.get docid) = some δ) :
    let after := upsertByDelta entries docid δ.1 ((entries.get docid).getD 0)
    (∀ d, after.get d = if docid = d then new else entries.get d) ∧
    statOf after = ⟨((entries.size : Int) + δ.2).toNat, ((entries.total id : Int) + δ.1).toNat⟩ := by
  have htotal := entries.total_delete id docid
  unfold upsertByDelta
  cases new with
  | none =>
    cases hold : entries.get docid with rw [hold] at hδ htotal
    | none => cases hδ
    | some m =>
      cases hδ
      have hsize := size_delete (m := entries) (k := docid) (by rw [hold]; rfl)
      have hzero : (((m : Nat) : Int) + -(m : Int)).toNat = 0 := by omega
      simp only [Option.getD_some, hzero, if_true, Option.elim_some, id] at htotal ⊢
      refine ⟨fun d => by rw [get_delete]; congr, ?_⟩
      rw [statOf, TermStat.mk.injEq]
      omega
  | some n =>
    have hn := hpos n rfl
    have hsize := entries.size_put docid n
    have hput := entries.total_put id docid n
    have hne : ((((entries.get docid).getD 0 : Nat) : Int) + δ.1).toNat = n := by
      cases hold : entries.get docid <;> rw [hold] at hδ <;> cases hδ <;> simp
    simp only [hne, if_neg hn.ne']
    refine ⟨fun d => by rw [get_put]; congr, ?_⟩
    rw [statOf, TermStat.mk.injEq, hsize, hput]
    cases hold : entries.get docid <;> rw [hold] at hδ htotal <;> cases hδ <;> simp at htotal ⊢ <;>
      omega

section Run

variable (tokenize : Bytes → List Bytes) (lossy : Bytes → Bytes)

/-- The record of an id is the one of its document. -/
def Recorded (fields : List IndexField) : Option DocRecord → Option (Option Json) → Prop
  | none, none => True
  | some rec, some body => docRecordOf tokenize lossy fields body = .ok rec
  | _, _ => False

structure Indexes (fields : List IndexField) (ix : Index) (c : Corpus) : Prop where
  schema : ix.fields = fields
  docs : ∀ d, Recorded tokenize lossy fields (ix.docs.get d) (c d)
  postings : ∀ p d, (ix.postings p).get d = (ix.docs.get d).bind (·.terms.lookup p)
  stats : ∀ p, ix.termstats p = statOf (ix.postings p)
  numDocs : ix.numDocs = ix.docs.size
  sumDoclen : ix.sumDoclen = ix.docs.total (·.doclen)

variable {tokenize lossy} {fields : List IndexField} {ix : Index} {c : Corpus}

variable (h : Indexes tokenize lossy fields ix c)
include h

theorem Indexes.wf (hrec : ix.docs.get docid = some rec) : rec.Wf := by
  have hdoc := h.docs docid
  rw [hrec] at hdoc
  cases hbody : c docid with
  | none => rw [hbody] at hdoc; exact hdoc.elim
  | some body =>
    rw [hbody] at hdoc
    exact (docRecordOf_spec hdoc).1

theorem Indexes.add {body : Option Json} (hrec : docRecordOf tokenize lossy fields body = .ok rec) :
    Indexes tokenize lossy fields (ix.buildAddBatch docid rec)
      (update c docid (some body)) := by
  have hwf := (docRecordOf_spec hrec).1
  have hdelta : ∀ p, (deltas rec (ix.docs.get docid)).lookup p =
      deltaOf (rec.terms.lookup p) ((ix.postings p).get docid) := fun p => by
    rw [lookup_deltas hwf fun r hr => h.wf hr, h.postings]
  have hdocs : (ix.buildAddBatch docid rec).docs = ix.docs.put docid rec := rfl
  obtain ⟨hfields, hterms, hstats⟩ := foldl_putTerm
    (fun d => upsertByDelta (ix.postings d.1) docid d.2.1
      (((ix.docs.get docid).bind (·.terms.lookup d.1)).getD 0))
    (fun d => ⟨(((ix.termstats d.1).df : Int) + d.2.2).toNat,
      (((ix.termstats d.1).totalTf : Int) + d.2.1).toNat⟩)
    (nodup_deltas rec (ix.docs.get docid)) ix
  have hpost : ∀ p d, ((ix.buildAddBatch docid rec).postings p).get d =
      if docid = d then rec.terms.lookup p else (ix.postings p).get d := by
    intro p d
    rw [show (ix.buildAddBatch docid rec).postings p = _ from hterms p, hdelta]
    cases hδ : deltaOf (rec.terms.lookup p) ((ix.postings p).get docid) with
    | none =>
      split
      · cases hn : rec.terms.lookup p <;> cases ho : (ix.postings p).get docid <;>
          simp_all [deltaOf]
      · rfl
    | some δ =>
      rw [Option.elim_some, ← h.postings]
      exact (upsertByDelta_spec (hwf.pos p) hδ).1 d
  refine ⟨hfields.trans h.schema, fun d => ?_, fun p d => ?_,
    hstats (fun p δ hδ => ?_) h.stats, ?_, ?_⟩
  · rw [hdocs, get_put, update_apply]
    by_cases hd : docid = d
    · rw [if_pos hd, if_pos hd.symm]
      exact hrec
    · rw [if_neg hd, if_neg (Ne.symm hd)]
      exact h.docs d
  · rw [hpost, hdocs, get_put]
    split
    · rfl
    · exact h.postings p d
  · dsimp only
    rw [← h.postings, h.stats]
    exact (upsertByDelta_spec (hwf.pos p) (hdelta p ▸ hδ)).2.symm
  · show (if (ix.docs.get docid).isNone then ix.numDocs + 1 else ix.numDocs) = _
    rw [h.numDocs, hdocs, size_put]
    split <;> rfl
  · show ix.sumDoclen + rec.doclen - _ = _
    rw [h.sumDoclen, hdocs, total_put, ix.docs.total_delete _ docid]
    omega

theorem Indexes.del (docid : Bytes) :
    Indexes tokenize lossy fields (ix.buildDelBatch docid)
      (update c docid none) := by
  unfold Index.buildDelBatch
  split
  · next hold =>
    refine ⟨h.schema, fun d => ?_, h.postings, h.stats, h.numDocs, h.sumDoclen⟩
    rw [update_apply]
    split
    · next hd =>
      rw [hd, hold]
      trivial
    · exact h.docs d
  · next old hold =>
    have hdocid : ∀ p, (ix.postings p).get docid = old.terms.lookup p := fun p => by
      rw [h.postings, hold, Option.bind_some]
    obtain ⟨hfields, hterms, hstats⟩ := foldl_putTerm (fun t => (ix.postings t.1).delete docid)
      (fun t => ⟨(ix.termstats t.1).df - 1, (ix.termstats t.1).totalTf - t.2⟩)
      (h.wf hold).nodup ix
    refine ⟨hfields.trans h.schema, fun d => ?_, fun p d => ?_,
      hstats (fun p n hp => ?_) h.stats, ?_, ?_⟩
    · rw [update_apply, get_delete]
      by_cases hd : docid = d
      · rw [if_pos hd, if_pos hd.symm]
        trivial
      · rw [if_neg hd, if_neg (Ne.symm hd)]
        exact h.docs d
    · rw [hterms p, get_delete]
      cases hp : old.terms.lookup p with
      | none =>
        rw [Option.elim_none]
        split
        · next hd =>
          rw [← hd, hdocid, hp]
          rfl
        · exact h.postings p d
      | some n =>
        rw [Option.elim_some, get_delete]
        split
        · rfl
        · exact h.postings p d
    · have hsize := size_delete (m := ix.postings p) (k := docid) (by rw [hdocid, hp]; rfl)
      have htotal := (ix.postings p).total_delete id docid
      rw [hdocid, hp, Option.elim_some, id] at htotal
      dsimp only
      rw [h.stats]
      dsimp only [statOf]
      rw [TermStat.mk.injEq]
      omega
    · have hsize := size_delete (m := ix.docs) (k := docid) (by rw [hold]; rfl)
      have hnum := h.numDocs
      dsimp only
      omega
    · have htotal := ix.docs.total_delete (·.doclen) docid
      rw [hold, Option.elim_some, ← h.sumDoclen] at htotal
      dsimp only
      omega

theorem Indexes.step (op : Op) :
    Indexes tokenize lossy fields (ix.step tokenize lossy op)
      (c.step tokenize lossy fields op) := by
  cases op with
  | add docid body =>
    rw [Index.step, Corpus.step, h.schema]
    cases hrec : docRecordOf tokenize lossy fields body with
    | error e => exact h
    | ok rec => exact h.add hrec
  | del docid => exact h.del docid

omit h

theorem indexes_run (tokenize : Bytes → List Bytes) (lossy : Bytes → Bytes)
    (fields : List IndexField) (ops : List Op) :
    Indexes tokenize lossy fields (Index.run tokenize lossy fields ops)
      (Corpus.run tokenize lossy fields ops) :=
  foldl_rel ⟨rfl, fun _ => trivial, fun _ _ => rfl, fun _ => rfl, rfl, rfl⟩
    fun op _ _ _ h => h.step op

theorem Indexes.get_postings (h : Indexes tokenize lossy fields ix c) {p : FieldTerm}
    {d : Bytes} {n : Nat} :
    (ix.postings p).get d = some n ↔
      0 < n ∧ ∃ body, c d = some body ∧ termFreq tokenize lossy fields body p = n := by
  have hdoc := h.docs d
  rw [h.postings p d]
  cases hrec : ix.docs.get d with
  | none =>
    cases hbody : c d with
    | none => simp
    | some body => rw [hrec, hbody] at hdoc; exact hdoc.elim
  | some rec =>
    cases hbody : c d with
    | none => rw [hrec, hbody] at hdoc; exact hdoc.elim
    | some body =>
      rw [hrec, hbody] at hdoc
      obtain ⟨hwf, hfreq⟩ := docRecordOf_spec hdoc
      rw [Option.bind_some, hwf.lookup_eq, hfreq]
      simp

theorem Indexes.isSome_postings (h : Indexes tokenize lossy fields ix c) (p : FieldTerm)
    (d : Bytes) :
    ((ix.postings p).get d).isSome ↔
      ∃ body, c d = some body ∧ Occurs tokenize lossy fields body p := by
  simp only [Option.isSome_iff_exists, h.get_postings, ← termFreq_pos]
  exact ⟨fun ⟨_, hn, body, hbody, hfreq⟩ => ⟨body, hbody, hfreq ▸ hn⟩,
    fun ⟨body, hbody, hfreq⟩ => ⟨_, hfreq, body, hbody, rfl⟩⟩

theorem Recorded.unique {rec rec' : Option DocRecord} {body : Option (Option Json)}
    (h : Recorded tokenize lossy fields rec body) (h' : Recorded tokenize lossy fields rec' body) :
    rec = rec' := by
  match rec, rec', body, h, h' with
  | none, none, none, _, _ => rfl
  | some rec, some rec', some body, h, h' => exact congrArg some (Except.ok.inj (h.symm.trans h'))

/-- The documents determine the index, whatever additions and deletions led to them. -/
theorem index_canonical (tokenize : Bytes → List Bytes) (lossy : Bytes → Bytes)
    (fields : List IndexField) (ops ops' : List Op)
    (hc : Corpus.run tokenize lossy fields ops = Corpus.run tokenize lossy fields ops') :
    Index.run tokenize lossy fields ops = Index.run tokenize lossy fields ops' := by
  have h := indexes_run tokenize lossy fields ops
  have h' := indexes_run tokenize lossy fields ops'
  rw [← hc] at h'
  generalize Index.run tokenize lossy fields ops = ix at h ⊢
  generalize Index.run tokenize lossy fields ops' = ix' at h' ⊢
  have hdocs : ix.docs = ix'.docs := SortedMap.ext fun d => (h.docs d).unique (h'.docs d)
  have hpost : ix.postings = ix'.postings := funext fun p => SortedMap.ext fun d => by
    rw [h.postings, h'.postings, hdocs]
  have hstats : ix.termstats = ix'.termstats := funext fun p => by
    rw [h.stats, h'.stats, hpost]
  have hnum : ix.numDocs = ix'.numDocs := by rw [h.numDocs, h'.numDocs, hdocs]
  have hsum : ix.sumDoclen = ix'.sumDoclen := by rw [h.sumDoclen, h'.sumDoclen, hdocs]
  have hfields := h.schema.trans h'.schema.symm
  cases ix
  cases ix'
  simp_all only

theorem index_canonical_deleted :
    Index.run (fun b => [b]) id [⟨[1], .text⟩] [.add [7] (some (.obj [([1], .str [5])])), .del [7]] =
      Index.run (fun b => [b]) id [⟨[1], .text⟩] [] :=
  index_canonical _ _ _ _ _ <| funext fun d => by
    change update (update (fun _ => none) [7] _) [7] none d = none
    simp [update_apply]

end Run

/-! ## The records of terms and numbers -/

/-- Which terms have a posting and a statistics record, and the numeric records by field
and document. -/
structure Records where
  terms : FieldTerm → Bool
  numvals : Bytes × Bytes → Option UInt64

def numericFields (fields : List IndexField) : List Bytes :=
  (fields.filter (·.ftype = .numeric)).map (·.name)

/-- A batch: the records of the terms `ps` are put, or deleted if the list became empty; a
numeric field is put or cleared. -/
def Records.commit (r : Records) (ix : Index) (docid : Bytes) (ps : List FieldTerm)
    (numvals : List (Bytes × UInt64)) : Records where
  terms p := if p ∈ ps then !(ix.postings p).entries.isEmpty else r.terms p
  numvals := (numericFields ix.fields).foldl
    (fun m name => update m (name, docid) (numvals.lookup name)) r.numvals

section Records

variable (tokenize : Bytes → List Bytes) (lossy : Bytes → Bytes) (asF64 : Bytes → UInt64)

def numberOf (body : Option Json) (name : Bytes) : Option UInt64 :=
  match body with
  | some (.obj map) =>
    match map.lookup (lossy name) with
    | some (.num text) => some (asF64 text)
    | _ => none
  | _ => none

def numvalsOf (fields : List IndexField) (body : Option Json) : List (Bytes × UInt64) :=
  (numericFields fields).filterMap fun name => (numberOf lossy asF64 body name).map (name, ·)

def Records.step (s : Index × Records) : Op → Index × Records
  | .add docid body =>
    match docRecordOf tokenize lossy s.1.fields body with
    | .error _ => s
    | .ok rec =>
      let ix := s.1.buildAddBatch docid rec
      (ix, s.2.commit ix docid ((deltas rec (s.1.docs.get docid)).map (·.1))
        (numvalsOf lossy asF64 s.1.fields body))
  | .del docid =>
    match s.1.docs.get docid with
    | none => s
    | some old =>
      let ix := s.1.buildDelBatch docid
      (ix, s.2.commit ix docid (old.terms.map (·.1)) [])

def Records.run (fields : List IndexField) (ops : List Op) : Index × Records :=
  ops.foldl (Records.step tokenize lossy asF64) (.create fields, ⟨fun _ => false, fun _ => none⟩)

structure Mirrors (fields : List IndexField) (s : Index × Records) (c : Corpus) : Prop where
  index : Indexes tokenize lossy fields s.1 c
  terms : ∀ p, s.2.terms p = !(s.1.postings p).entries.isEmpty
  numvals : ∀ name ∈ numericFields fields, ∀ d,
    s.2.numvals (name, d) = (c d).bind (numberOf lossy asF64 · name)

variable {tokenize lossy asF64} {fields : List IndexField} {s : Index × Records} {c : Corpus}

theorem lookup_numvalsOf {body : Option Json} {name : Bytes} (hname : name ∈ numericFields fields) :
    (numvalsOf lossy asF64 fields body).lookup name = numberOf lossy asF64 body name := by
  have h : ∀ names : List Bytes, (names.filterMap fun name =>
      (numberOf lossy asF64 body name).map (name, ·)).lookup name =
      if name ∈ names then numberOf lossy asF64 body name else none := by
    intro names
    induction names with
    | nil => rfl
    | cons name' names ih =>
      by_cases hn : name = name'
      · subst hn
        cases hnum : numberOf lossy asF64 body name <;> simp [hnum, ih]
      · cases hnum : numberOf lossy asF64 body name' <;>
          simp [hnum, ih, hn, lookup_cons, beq_eq_false_iff_ne.mpr hn]
  rw [numvalsOf, h, if_pos hname]

theorem foldl_update_numvals (f : Bytes → Option UInt64) (names : List Bytes)
    (m : Bytes × Bytes → Option UInt64) (name d : Bytes) :
    names.foldl (fun m name => update m (name, docid) (f name)) m (name, d) =
      if name ∈ names ∧ d = docid then f name else m (name, d) := by
  induction names generalizing m with
  | nil => simp
  | cons name' names ih =>
    rw [foldl_cons, ih, update_apply]
    by_cases hn : name = name' <;> by_cases hd : d = docid <;> simp [hn, hd]

theorem Mirrors.commit (h : Mirrors tokenize lossy asF64 fields s c) {ix : Index} {c' : Corpus}
    (hix : Indexes tokenize lossy fields ix c') {l : List (FieldTerm × α)}
    (hl : ∀ p, l.lookup p = none → ix.postings p = s.1.postings p)
    {numvals : List (Bytes × UInt64)} (hnum : ∀ name ∈ numericFields fields,
      numvals.lookup name = (c' docid).bind (numberOf lossy asF64 · name))
    (hc : ∀ d, d ≠ docid → c' d = c d) :
    Mirrors tokenize lossy asF64 fields (ix, s.2.commit ix docid (l.map (·.1)) numvals) c' := by
  refine ⟨hix, fun p => ?_, fun name hname d => ?_⟩
  · simp only [Records.commit]
    split
    · rfl
    · next hp =>
      rw [hl p (Option.not_isSome_iff_eq_none.mp (mt isSome_lookup.mp hp))]
      exact h.terms p
  · rw [Records.commit, hix.schema]
    refine (foldl_update_numvals _ _ _ _ _).trans ?_
    by_cases hd : d = docid
    · rw [if_pos ⟨hname, hd⟩, hd]
      exact hnum name hname
    · rw [if_neg fun h => hd h.2, hc d hd]
      exact h.numvals name hname d

theorem Mirrors.step (h : Mirrors tokenize lossy asF64 fields s c) (op : Op) :
    Mirrors tokenize lossy asF64 fields (Records.step tokenize lossy asF64 s op)
      (c.step tokenize lossy fields op) := by
  cases op with
  | add docid body =>
    rw [Records.step, Corpus.step, h.index.schema]
    cases hrec : docRecordOf tokenize lossy fields body with
    | error e => exact h
    | ok rec =>
      refine h.commit (h.index.add hrec) (fun p hp => ?_) (fun name hname => ?_)
        fun d hd => update_of_ne hd _ _
      · exact ((foldl_putTerm _ _ (nodup_deltas _ _) s.1).2.1 p).trans (by rw [hp]; rfl)
      · rw [update_self]
        exact lookup_numvalsOf hname
  | del docid =>
    have hix := h.index.del docid
    rw [Records.step, Corpus.step]
    cases hold : s.1.docs.get docid with
    | none =>
      have hdoc := h.index.docs docid
      have hc : c docid = none := by
        cases hbody : c docid with
        | none => rfl
        | some body => rw [hold, hbody] at hdoc; exact hdoc.elim
      rw [← hc, update_eq_self]
      exact h
    | some old =>
      refine h.commit hix (fun p hp => ?_) (fun name _ => ?_) fun d hd => update_of_ne hd _ _
      · rw [Index.buildDelBatch, hold]
        exact ((foldl_putTerm _ _ (h.index.wf hold).nodup s.1).2.1 p).trans (by rw [hp]; rfl)
      · rw [update_self]
        rfl

theorem mirrors_run (tokenize : Bytes → List Bytes) (lossy : Bytes → Bytes)
    (asF64 : Bytes → UInt64) (fields : List IndexField) (ops : List Op) :
    Mirrors tokenize lossy asF64 fields (Records.run tokenize lossy asF64 fields ops)
      (Corpus.run tokenize lossy fields ops) :=
  foldl_rel ⟨indexes_run tokenize lossy fields [], fun _ => rfl, fun _ _ _ => rfl⟩
    fun op _ _ _ h => h.step op

end Records

end Rdb.Search
