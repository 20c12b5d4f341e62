import Rdb.Lib.Bytes
import Rdb.Lib.Run
import Rdb.Lib.SortedMap

/-!
# Objects as files

A bucket is a directory, an object the file at its key's path, and its etag and content type
are in a sidecar file beside it. An upload is staged beside its place and renamed.

The tree is the map from paths to files and directories. The MD5 of a body and the JSON form
of a sidecar are parameters; modification times are left out, and with them the etag of an
object without a sidecar.

* `Inv.step`: the files of the tree are those of the objects.
* `objects_as_map`: when the store is a map from keys to objects.
-/

namespace Rdb.S3

open Lib List Function
open SortedMap (get_put ext get_delete mem_entries get_eq_some)

abbrev Path := List Bytes

inductive Entry where
  | file (bytes : Bytes)
  | dir
  deriving DecidableEq

abbrev Tree := SortedMap Path Entry

/-- The JSON form of a sidecar: etag and content type. -/
structure Codec where
  render : Bytes × Bytes → Bytes
  parse : Bytes → Option (Bytes × Bytes)
  parse_render : ∀ m, parse (render m) = some m

structure Store where
  tree : Tree
  tmpCounter : Nat

/-! ## Names -/

def validBucketName (bucket : Bytes) : Bool :=
  let byteOk (b : UInt8) : Bool :=
    (0x61 ≤ b && b ≤ 0x7a) || isDigit b || b == 0x2e || b == 0x2d
  let edge (b : Option UInt8) : Bool := b == some 0x2d || b == some 0x2e
  decide (1 ≤ bucket.length) && decide (bucket.length ≤ 63) && bucket.all byteOk &&
    !edge bucket.head? && !edge bucket.getLast?

def validKey (key : Bytes) : Bool :=
  !key.isEmpty && decide (key.length ≤ 1024) && !key.contains 0 && key.getLast? != some 0x2f &&
    !(key.splitOn 0x2f).any fun c => c.isEmpty || c == [0x2e] || c == [0x2e, 0x2e]

def pathOf (bucket key : Bytes) : Path := bucket :: key.splitOn 0x2f

def objectPath (bucket key : Bytes) : Option Path :=
  if validBucketName bucket && validKey key then some (pathOf bucket key) else none

def withSuffix (p : Path) (suffix : Bytes) : Path := p.dropLast ++ [p.getLastD [] ++ suffix]

/-- `.s3meta.json` -/
def metaSuffix : Bytes :=
  [0x2e, 0x73, 0x33, 0x6d, 0x65, 0x74, 0x61, 0x2e, 0x6a, 0x73, 0x6f, 0x6e]

/-- `.tmp` -/
def tmpSuffix : Bytes := [0x2e, 0x74, 0x6d, 0x70]

def sidecarPath (p : Path) : Path := withSuffix p metaSuffix

def tmpPath (p : Path) (n : Nat) : Path := withSuffix p (0x2e :: decimal n ++ tmpSuffix)

/-! ## Operations -/

/-- `fs::create_dir_all`: a file in the way is an error. -/
def createDirAll (t : Tree) (dirs : List Path) : Option Tree :=
  dirs.foldlM (fun t d =>
    match t.get d with
    | none => some (t.put d .dir)
    | some .dir => some t
    | some (.file _) => none) t

/-- Writes `tmp` and renames it to `dst`; neither may be a directory. -/
def publish (t : Tree) (tmp dst : Path) (bytes : Bytes) : Tree × Bool :=
  if t.get tmp = some .dir then (t, false)
  else
    let t := t.put tmp (.file bytes)
    if t.get dst = some .dir then (t, false)
    else ((t.delete tmp).put dst (.file bytes), true)

/-- `fs::remove_file`. -/
def removeFile (t : Tree) (p : Path) : Tree × Bool :=
  match t.get p with
  | some (.file _) => (t.delete p, true)
  | _ => (t, false)

section Ops

variable (codec : Codec) (md5 : Bytes → Bytes)

/-- PUT of an object; a failed upload removes its staging file. -/
def putObject (s : Store) (bucket key body contentType : Bytes) : Store × Bool :=
  match objectPath bucket key with
  | none => (s, false)
  | some dst =>
    match createDirAll s.tree (dst.dropLast.inits.drop 1) with
    | none => (s, false)
    | some t =>
      let n := s.tmpCounter
      let tmp := tmpPath dst n
      match publish t tmp dst body with
      | (t, false) => (⟨(removeFile t tmp).1, n + 1⟩, false)
      | (t, true) =>
        let side := sidecarPath dst
        match publish t (tmpPath side (n + 1)) side (codec.render (md5 body, contentType)) with
        | (t, ok) => (⟨if ok then t else (removeFile t tmp).1, n + 2⟩, ok)

structure ObjectMeta where
  key : Bytes
  size : Nat
  /-- Etag and content type; `none` without a readable sidecar. -/
  tags : Option (Bytes × Bytes)

def head (t : Tree) (bucket key : Bytes) : Option ObjectMeta :=
  match objectPath bucket key with
  | none => none
  | some p =>
    match t.get p with
    | some (.file body) =>
      let tags := match t.get (sidecarPath p) with
        | some (.file bytes) => codec.parse bytes
        | _ => none
      some ⟨key, body.length, tags⟩
    | _ => none

/-- GET: the metadata and then the file. -/
def getObject (t : Tree) (bucket key : Bytes) : Option (Bytes × ObjectMeta) :=
  match head codec t bucket key, t.get (pathOf bucket key) with
  | some m, some (.file body) => some (body, m)
  | _, _ => none

def isEmptyDir (t : Tree) (d : Path) : Bool :=
  t.get d == some .dir && t.entries.all fun e => !(d.isPrefixOf e.1 && e.1 != d)

/-- Removes empty directories upwards from the one with the names `rev`, innermost first; the
bucket itself stays. -/
def pruneEmptyDirs (t : Tree) : List Bytes → Tree
  | [] | [_] => t
  | c :: c' :: rest =>
    let d := (c :: c' :: rest).reverse
    if isEmptyDir t d then pruneEmptyDirs (t.delete d) (c' :: rest) else t

def deleteObject (t : Tree) (bucket key : Bytes) : Tree × Bool :=
  match objectPath bucket key with
  | none => (t, false)
  | some p =>
    let (t, existed) := removeFile t p
    let t := (removeFile t (sidecarPath p)).1
    (if existed then pruneEmptyDirs t p.dropLast.reverse else t, existed)

/-- A name the listing passes over. -/
def isSkipped (name : Bytes) : Bool := name.head? == some 0x2e || metaSuffix.isSuffixOf name

/-- The keys of the files below a bucket, without those under a skipped name. -/
def walk (t : Tree) (bucket : Bytes) : List Bytes :=
  t.entries.filterMap fun e =>
    match e with
    | (b :: names, .file _) =>
      if b = bucket ∧ names.all (!isSkipped ·) then some ([0x2f].intercalate names) else none
    | _ => none

structure ListPage where
  objects : List ObjectMeta
  commonPrefixes : List Bytes
  truncated : Bool
  nextAfter : Option Bytes

/-- The common part of a key up to the first delimiter after `pre`. -/
def foldedKey (pre delimiter key : Bytes) : Option Bytes :=
  if delimiter.isEmpty then none
  else
    let tail := key.drop pre.length
    (tail.tails.findIdx? delimiter.isPrefixOf).map fun i => pre ++ tail.take i ++ delimiter

def listLoop (t : Tree) (bucket pre delimiter : Bytes) (maxKeys : Nat) :
    List Bytes → ListPage → Nat → Option Bytes → ListPage
  | [], page, _, _ => page
  | key :: keys, page, count, last =>
    if count ≥ maxKeys then { page with truncated := true }
    else
      match foldedKey pre delimiter key with
      | some cp =>
        if last = some cp then listLoop t bucket pre delimiter maxKeys keys page count last
        else
          listLoop t bucket pre delimiter maxKeys keys
            { page with commonPrefixes := page.commonPrefixes ++ [cp], nextAfter := some cp }
            (count + 1) (some cp)
      | none =>
        match head codec t bucket key with
        | some m =>
          listLoop t bucket pre delimiter maxKeys keys
            { page with objects := page.objects ++ [m], nextAfter := some key } (count + 1) last
        | none => listLoop t bucket pre delimiter maxKeys keys page count last

/-- `none` is a bucket that is not there. -/
def list (t : Tree) (bucket pre delimiter : Bytes) (maxKeys : Nat) : Option ListPage :=
  if validBucketName bucket && t.get [bucket] == some .dir then
    let keys := (walk t bucket).mergeSort (· ≤ ·)
    let page : ListPage := ⟨[], [], false, none⟩
    if maxKeys = 0 then some page
    else some (listLoop codec t bucket pre delimiter maxKeys
      (keys.filter pre.isPrefixOf) page 0 none)
  else none

/-- `none` is a bucket that is not there or has an object. -/
def deleteBucket (t : Tree) (bucket : Bytes) : Option Tree :=
  if validBucketName bucket && t.get [bucket] == some .dir && (walk t bucket).isEmpty then
    some (t.write ((t.entries.filter fun e => e.1.head? == some bucket).map fun e => .del e.1))
  else none

/-! ## Runs -/

structure Object where
  body : Bytes
  contentType : Bytes
  deriving DecidableEq

abbrev Objects := Bytes × Bytes → Option Object

inductive Op where
  | createBucket (bucket : Bytes)
  | put (bucket key body contentType : Bytes)
  | get (bucket key : Bytes)
  | delete (bucket key : Bytes)
  | list (bucket pre delimiter : Bytes) (maxKeys : Nat)
  | deleteBucket (bucket : Bytes)

/-- The store, and the objects as a map would hold them. -/
structure World where
  store : Store
  objects : Objects

def World.init : World := ⟨⟨.empty, 0⟩, fun _ => none⟩

def step (w : World) : Op → Option World
  | .createBucket bucket =>
    let t := w.store.tree
    some (if validBucketName bucket && (t.get [bucket]).isNone then
      { w with store.tree := t.put [bucket] .dir } else w)
  | .put bucket key body contentType =>
    let (s, ok) := putObject codec md5 w.store bucket key body contentType
    some ⟨s, if ok then Function.update w.objects (bucket, key) (some ⟨body, contentType⟩)
      else w.objects⟩
  | .get _ _ => some w
  | .delete bucket key =>
    some ⟨{ w.store with tree := (deleteObject w.store.tree bucket key).1 },
      Function.update w.objects (bucket, key) none⟩
  | .list _ _ _ _ => some w
  | .deleteBucket bucket =>
    some ((deleteBucket w.store.tree bucket).elim w fun t => { w with store.tree := t })

/-- A name that is neither hidden nor that of a sidecar or a staging file. -/
def plainName (name : Bytes) : Bool := !isSkipped name && !tmpSuffix.isSuffixOf name

def plainKey (key : Bytes) : Bool := (key.splitOn 0x2f).all plainName

/-- The keys of the operation have plain names only. -/
def Plain : Op → Bool
  | .put _ key _ _ | .get _ key | .delete _ key => plainKey key
  | _ => true

structure AsMap (w : World) : Prop where
  get : ∀ bucket key, validBucketName bucket → validKey key → plainKey key →
    getObject codec w.store.tree bucket key = (w.objects (bucket, key)).map fun o =>
      (o.body, ⟨key, o.body.length, some (md5 o.body, o.contentType)⟩)
  list : ∀ bucket maxKeys, validBucketName bucket →
    w.store.tree.get [bucket] = some .dir → (walk w.store.tree bucket).length ≤ maxKeys →
    ∃ page, list codec w.store.tree bucket [] [] maxKeys = some page ∧ page.truncated = false ∧
      ∀ key, key ∈ page.objects.map (·.key) ↔ (w.objects (bucket, key)).isSome
  deleteBucket : ∀ bucket, (deleteBucket w.store.tree bucket).isSome →
    ∀ key, w.objects (bucket, key) = none

end Ops

/-! ## Paths apart -/

theorem splitOn_ne_nil (key : Bytes) : key.splitOn 0x2f ≠ [] := splitOnP_ne_nil _ _

variable {b b' k k' : Bytes}

theorem pathOf_inj (h : pathOf b k = pathOf b' k') : b = b' ∧ k = k' := by
  obtain ⟨hb, hk⟩ := cons.inj h
  refine ⟨hb, ?_⟩
  have hjoin : ∀ x : Bytes, [0x2f].intercalate (x.splitOn 0x2f) = x := fun x =>
    intercalate_splitOn _
  rw [← hjoin k, hk, hjoin]

def fileName (p : Path) : Bytes := p.getLastD []

theorem fileName_withSuffix (p : Path) (s : Bytes) :
    fileName (withSuffix p s) = fileName p ++ s := by
  simp [fileName, withSuffix]

variable {p : Path}

theorem length_withSuffix (hp : p ≠ []) (s : Bytes) : (withSuffix p s).length = p.length := by
  have := length_pos_iff.mpr hp
  simp [withSuffix]
  omega

theorem withSuffix_inj {q : Path} (hp : p ≠ []) (hq : q ≠ []) {s : Bytes}
    (h : withSuffix p s = withSuffix q s) : p = q := by
  obtain ⟨hdir, hname⟩ := append_inj' h rfl
  have hlast : fileName p = fileName q := append_cancel_right (singleton_inj.mp hname)
  have hsplit : ∀ r : Path, r ≠ [] → r = r.dropLast ++ [fileName r] := fun r hr => by
    rw [fileName, getLastD_eq_getLast?, getLast?_eq_some_getLast hr, Option.getD_some,
      dropLast_append_getLast hr]
  rw [hsplit p hp, hsplit q hq, hdir, hlast]

theorem fileName_mem : fileName (pathOf b k) ∈ k.splitOn 0x2f := by
  rw [fileName, pathOf, getLastD_cons, getLastD_eq_getLast?,
    getLast?_eq_some_getLast (splitOn_ne_nil k)]
  exact getLast_mem _

theorem plainName_fileName (hk : plainKey k) :
    plainName (fileName (pathOf b k)) := all_eq_true.mp hk _ fileName_mem

theorem pathOf_ne_nil (b k : Bytes) : pathOf b k ≠ [] := cons_ne_nil _ _

theorem two_le_length (b k : Bytes) : 2 ≤ (pathOf b k).length :=
  Nat.succ_le_succ (length_pos_iff.mpr (splitOn_ne_nil k))

variable {n : Bytes}

theorem not_tmp_of_meta (h : metaSuffix <:+ n) : ¬ tmpSuffix <:+ n := by
  intro ht
  rcases suffix_or_suffix_of_suffix h ht with hs | hs <;> revert hs <;> decide

theorem meta_sidecarPath (p : Path) : metaSuffix <:+ fileName (sidecarPath p) := by
  rw [sidecarPath, fileName_withSuffix]
  exact suffix_append _ _

theorem tmp_tmpPath (p : Path) (n : Nat) : tmpSuffix <:+ fileName (tmpPath p n) := by
  rw [tmpPath, fileName_withSuffix, ← append_assoc]
  exact suffix_append _ _

theorem plainName_iff : plainName n ↔ isSkipped n = false ∧ ¬ tmpSuffix <:+ n := by
  rw [plainName, Bool.and_eq_true, Bool.not_eq_true', Bool.not_eq_true',
    ← Bool.not_eq_true (tmpSuffix.isSuffixOf n), isSuffixOf_iff_suffix]

theorem isSkipped_of_meta (h : metaSuffix <:+ n) : isSkipped n := by
  rw [isSkipped, isSuffixOf_iff_suffix.mpr h, Bool.or_true]

theorem not_meta_of_plain (h : plainName n) : ¬ metaSuffix <:+ n := fun hm => by
  rw [plainName, isSkipped_of_meta hm] at h
  cases h

/-! ## The files of the objects -/

section Files

variable {codec : Codec} {md5 : Bytes → Bytes} {t t' : Tree} {m : Objects} {b k : Bytes}

def fileAt (t : Tree) (p : Path) : Option Bytes :=
  match t.get p with
  | some (.file bytes) => some bytes
  | _ => none

theorem fileAt_eq_some {bytes : Bytes} : fileAt t p = some bytes ↔ t.get p = some (.file bytes) := by
  unfold fileAt
  split <;> simp_all

theorem fileAt_put_dir {d : Path} (h : t.get d = none) : fileAt (t.put d .dir) p = fileAt t p := by
  rw [fileAt, fileAt, get_put]
  by_cases hp : d = p
  · rw [if_pos hp, ← hp, h]
  · rw [if_neg hp]

structure Inv (codec : Codec) (md5 : Bytes → Bytes) (t : Tree) (m : Objects) : Prop where
  body : ∀ b k, plainKey k → fileAt t (pathOf b k) = (m (b, k)).map (·.body)
  sidecar : ∀ b k, plainKey k → fileAt t (sidecarPath (pathOf b k)) =
    (m (b, k)).map fun o => codec.render (md5 o.body, o.contentType)
  file : ∀ p bytes, fileAt t p = some bytes →
    ∃ b k, plainKey k ∧ (p = pathOf b k ∨ p = sidecarPath (pathOf b k))
  dir : ∀ p, t.get p = some .dir → p.length ≤ 1 ∨ plainName (fileName p)
  names : ∀ b k o, m (b, k) = some o →
    validBucketName b ∧ validKey k ∧ plainKey k

theorem Inv.of_files (h : Inv codec md5 t m) (hfile : ∀ p, fileAt t' p = fileAt t p)
    (hdir : ∀ p, t'.get p = some .dir →
      t.get p = some .dir ∨ p.length ≤ 1 ∨ plainName (fileName p)) :
    Inv codec md5 t' m :=
  ⟨fun b k hk => (hfile _).trans (h.body b k hk), fun b k hk => (hfile _).trans (h.sidecar b k hk),
    fun p bytes hp => h.file p bytes (hfile p ▸ hp),
    fun p hp => (hdir p hp).elim (h.dir p) id, h.names⟩

theorem Inv.files_of (h : Inv codec md5 t m) {o : Object} (ho : m (b, k) = some o) :
    t.get (pathOf b k) = some (.file o.body) ∧ t.get (sidecarPath (pathOf b k)) =
      some (.file (codec.render (md5 o.body, o.contentType))) := by
  obtain ⟨-, -, hk⟩ := h.names b k o ho
  rw [← fileAt_eq_some, ← fileAt_eq_some, h.body b k hk, h.sidecar b k hk, ho]
  exact ⟨rfl, rfl⟩

theorem Inv.no_tmp (h : Inv codec md5 t m) (hlen : 2 ≤ p.length)
    (htmp : tmpSuffix <:+ fileName p) : t.get p = none := by
  cases hp : t.get p with
  | none => rfl
  | some e =>
    cases e with
    | dir =>
      rcases h.dir p hp with hshort | hplain
      · omega
      · exact absurd htmp (plainName_iff.mp hplain).2
    | file bytes =>
      obtain ⟨b, k, hk, rfl | rfl⟩ := h.file p bytes (fileAt_eq_some.mpr hp)
      · exact absurd htmp (plainName_iff.mp (plainName_fileName hk)).2
      · exact absurd htmp (not_tmp_of_meta (meta_sidecarPath _))

theorem length_sidecarPath (b k : Bytes) : 2 ≤ (sidecarPath (pathOf b k)).length := by
  rw [sidecarPath, length_withSuffix (pathOf_ne_nil b k)]
  exact two_le_length b k

theorem sidecarPath_ne (hk : plainKey k) :
    pathOf b k ≠ sidecarPath (pathOf b' k') := fun heq =>
  not_meta_of_plain (plainName_fileName hk) (heq ▸ meta_sidecarPath _)

theorem sidecarPath_inj
    (h : sidecarPath (pathOf b k) = sidecarPath (pathOf b' k')) : b = b' ∧ k = k' :=
  pathOf_inj (withSuffix_inj (pathOf_ne_nil b k) (pathOf_ne_nil b' k') h)

variable {bytes : Bytes}

theorem Inv.update (h : Inv codec md5 t m) (hk : plainKey k) {o : Option Object}
    (hvalid : o.isSome → validBucketName b ∧ validKey k)
    (hbody : fileAt t' (pathOf b k) = o.map (·.body))
    (hside : fileAt t' (sidecarPath (pathOf b k)) =
      o.map fun o => codec.render (md5 o.body, o.contentType))
    (hdir : ∀ p, t'.get p = some .dir → t.get p = some .dir)
    (hother : ∀ p, p ≠ pathOf b k → p ≠ sidecarPath (pathOf b k) → t'.get p = t.get p) :
    Inv codec md5 t' (Function.update m (b, k) o) := by
  have hsame : ∀ p, p ≠ pathOf b k → p ≠ sidecarPath (pathOf b k) → fileAt t' p = fileAt t p :=
    fun p hp hs => by rw [fileAt, fileAt, hother p hp hs]
  have hne : ∀ {b' k'}, (b', k') ≠ (b, k) → ¬ (b' = b ∧ k' = k) := fun h heq =>
    h (Prod.ext heq.1 heq.2)
  refine ⟨fun b' k' hk' => ?_, fun b' k' hk' => ?_, fun p bytes hp => ?_,
    fun p hp => h.dir p (hdir p hp), fun b' k' o' ho' => ?_⟩
  · by_cases hkey : (b', k') = (b, k)
    · cases hkey
      rw [update_self, hbody]
    · rw [update_of_ne hkey, hsame _ (mt pathOf_inj (hne hkey)) (sidecarPath_ne hk'),
        h.body b' k' hk']
  · by_cases hkey : (b', k') = (b, k)
    · cases hkey
      rw [update_self, hside]
    · rw [update_of_ne hkey, hsame _ (sidecarPath_ne hk).symm
        (mt sidecarPath_inj (hne hkey)), h.sidecar b' k' hk']
  · by_cases hat : p = pathOf b k ∨ p = sidecarPath (pathOf b k)
    · exact ⟨b, k, hk, hat⟩
    · rw [hsame p (not_or.mp hat).1 (not_or.mp hat).2] at hp
      exact h.file p bytes hp
  · by_cases hkey : (b', k') = (b, k)
    · cases hkey
      rw [update_self] at ho'
      obtain ⟨hb, hv⟩ := hvalid (by rw [ho']; rfl)
      exact ⟨hb, hv, hk⟩
    · rw [update_of_ne hkey] at ho'
      exact h.names b' k' o' ho'

/-! ## What the operations leave -/

theorem createDirAll_spec {dirs : List Path} (h : createDirAll t dirs = some t') :
    (∀ p, fileAt t' p = fileAt t p) ∧
      ∀ p, t'.get p = some .dir → t.get p = some .dir ∨ p ∈ dirs := by
  induction dirs generalizing t with
  | nil =>
    cases h
    exact ⟨fun _ => rfl, fun _ => .inl⟩
  | cons d dirs ih =>
    rw [createDirAll, foldlM_cons] at h
    cases hd : t.get d with
    | none =>
      rw [hd] at h
      obtain ⟨hfile, hdir⟩ := ih h
      refine ⟨fun p => (hfile p).trans (fileAt_put_dir hd), fun p hp => ?_⟩
      · have := hdir p hp
        rw [get_put] at this
        split at this
        · rename_i heq
          exact .inr (mem_cons.mpr (.inl heq.symm))
        · exact this.imp_right (mem_cons_of_mem _)
    | some e =>
      cases e with
      | file bytes => rw [hd] at h; cases h
      | dir =>
        rw [hd] at h
        obtain ⟨hfile, hdir⟩ := ih h
        exact ⟨hfile, fun p hp => (hdir p hp).imp_right (mem_cons_of_mem _)⟩

theorem Inv.createDirAll (h : Inv codec md5 t m) (hk : plainKey k)
    (ht : S3.createDirAll t ((pathOf b k).dropLast.inits.drop 1) = some t') :
    Inv codec md5 t' m := by
  obtain ⟨hfile, hdir⟩ := createDirAll_spec ht
  refine h.of_files hfile fun p hp => (hdir p hp).imp_right fun hmem => ?_
  have hpre := (mem_inits p _).mp (mem_of_mem_drop hmem)
  rw [pathOf, dropLast_cons_of_ne_nil (splitOn_ne_nil k)] at hpre
  rcases p with _ | ⟨c, names⟩
  · exact .inl (Nat.zero_le 1)
  · by_cases hnil : names = []
    · exact .inl (by rw [hnil]; exact le_rfl)
    · -- the last name is one of the key's
      have hsub := (cons_prefix_cons.mp hpre).2.trans (List.dropLast_prefix _)
      refine .inr (all_eq_true.mp hk _ (hsub.subset ?_))
      rw [fileName, getLastD_cons, getLastD_eq_getLast?, getLast?_eq_some_getLast hnil]
      exact getLast_mem hnil

theorem delete_put {e : Entry} (hp : t.get p = none) : (t.put p e).delete p = t :=
  ext fun q => by
    rw [get_delete, get_put]
    by_cases hq : p = q
    · rw [if_pos hq, ← hq, hp]
    · rw [if_neg hq, if_neg hq]

theorem publish_eq {tmp dst : Path} (htmp : t.get tmp = none) (hne : tmp ≠ dst) :
    publish t tmp dst bytes = if t.get dst = some .dir then (t.put tmp (.file bytes), false)
      else (t.put dst (.file bytes), true) := by
  rw [publish, htmp, if_neg nofun]
  dsimp only
  rw [get_put, if_neg hne, delete_put htmp]

theorem dir_of_put {q : Path} (h : (t.put q (.file bytes)).get p = some .dir) :
    t.get p = some .dir := by
  rw [get_put] at h
  split at h
  · cases h
  · exact h

theorem get_of_delete {q : Path} {e : Entry} (h : (t.delete q).get p = some e) :
    t.get p = some e := by
  rw [get_delete] at h
  split at h
  · cases h
  · exact h

theorem removeFile_put (hp : t.get p = none) : (removeFile (t.put p (.file bytes)) p).1 = t := by
  rw [removeFile, get_put, if_pos rfl]
  exact delete_put hp

variable (h : Inv codec md5 t m)
include h

theorem Inv.putObject (hk : plainKey k) (n : Nat) (body contentType : Bytes) :
    ∃ s ok, putObject codec md5 ⟨t, n⟩ b k body contentType = (s, ok) ∧
      Inv codec md5 s.tree
        (if ok then Function.update m (b, k) (some ⟨body, contentType⟩) else m) := by
  unfold S3.putObject objectPath
  by_cases hvalid : (validBucketName b && validKey k)
  swap
  · rw [if_neg hvalid]
    exact ⟨_, _, rfl, h⟩
  rw [if_pos hvalid]
  dsimp only
  cases hmk : S3.createDirAll t ((pathOf b k).dropLast.inits.drop 1) with
  | none => exact ⟨_, _, rfl, h⟩
  | some t₁ =>
    have h₁ := h.createDirAll hk hmk
    have hlen := length_sidecarPath b k
    have hne : ∀ {p q : Path}, tmpSuffix <:+ fileName p → ¬ tmpSuffix <:+ fileName q → p ≠ q :=
      fun hp hq heq => hq (heq ▸ hp)
    have hplain := (plainName_iff.mp (plainName_fileName (b := b) hk)).2
    have hfree : t₁.get (tmpPath (pathOf b k) n) = none := h₁.no_tmp
      (by rw [tmpPath, length_withSuffix (pathOf_ne_nil b k)]; exact two_le_length b k)
      (tmp_tmpPath _ _)
    dsimp only
    rw [publish_eq hfree (hne (tmp_tmpPath _ _) hplain)]
    by_cases hdst : t₁.get (pathOf b k) = some .dir
    · rw [if_pos hdst]
      refine ⟨_, _, rfl, ?_⟩
      rw [removeFile_put hfree]
      exact h₁
    rw [if_neg hdst]
    dsimp only
    -- nothing but a sidecar has a sidecar's name
    have hfree' : (t₁.put (pathOf b k) (.file body)).get
        (tmpPath (sidecarPath (pathOf b k)) (n + 1)) = none := by
      rw [get_put, if_neg (hne (tmp_tmpPath _ _) hplain).symm]
      refine h₁.no_tmp ?_ (tmp_tmpPath _ _)
      rw [tmpPath, length_withSuffix (ne_nil_of_length_pos (by omega))]
      exact hlen
    have hside : (t₁.put (pathOf b k) (.file body)).get (sidecarPath (pathOf b k)) ≠ some .dir := by
      rw [get_put, if_neg (sidecarPath_ne hk)]
      intro hdir
      rcases h₁.dir _ hdir with hshort | hplain'
      · omega
      · exact not_meta_of_plain hplain' (meta_sidecarPath _)
    rw [publish_eq hfree' (hne (tmp_tmpPath _ _) (not_tmp_of_meta (meta_sidecarPath _))),
      if_neg hside]
    refine ⟨_, _, rfl, h₁.update hk (fun _ => by simpa using hvalid) ?_ ?_ ?_ ?_⟩
    · simp [fileAt, get_put, (sidecarPath_ne hk).symm]
    · simp [fileAt, get_put]
    · exact fun p hp => dir_of_put (dir_of_put hp)
    · intro p hpath hside'
      rw [if_pos rfl, get_put, if_neg (Ne.symm hside'), get_put,
        if_neg (Ne.symm hpath)]

theorem Inv.pruneEmptyDirs (rev : List Bytes) : Inv codec md5 (pruneEmptyDirs t rev) m := by
  induction rev generalizing t with
  | nil => exact h
  | cons c rest ih =>
    cases rest with
    | nil => exact h
    | cons c' rest =>
      rw [S3.pruneEmptyDirs]
      split
      · rename_i hempty
        have hdir : t.get (c :: c' :: rest).reverse = some .dir := by
          simpa using (Bool.and_eq_true_iff.mp hempty).1
        refine ih (h.of_files (fun p => ?_) fun p hp => .inl ?_)
        · rw [fileAt, fileAt, get_delete]
          by_cases heq : (c :: c' :: rest).reverse = p
          · rw [if_pos heq, ← heq, hdir]
          · rw [if_neg heq]
        · exact get_of_delete hp
      · exact h

theorem Inv.deleteObject (hk : plainKey k) :
    Inv codec md5 (deleteObject t b k).1 (Function.update m (b, k) none) := by
  cases ho : m (b, k) with
  | none =>
    have hnone : ∀ p, fileAt t p = none → removeFile t p = (t, false) := by
      intro p hp
      unfold removeFile
      split
      · rename_i bytes hfile
        rw [fileAt_eq_some.mpr hfile] at hp
        cases hp
      · rfl
    have hb := h.body b k hk
    have hs := h.sidecar b k hk
    rw [ho] at hb hs
    have hsame : (S3.deleteObject t b k).1 = t := by
      unfold S3.deleteObject objectPath
      split
      · rfl
      · rename_i p hp
        split at hp <;> cases hp
        rw [hnone _ hb]
        dsimp only
        rw [hnone _ hs]
        rfl
    rw [hsame, ← ho, update_eq_self]
    exact h
  | some o =>
    obtain ⟨hb, hv, -⟩ := h.names b k o ho
    obtain ⟨hp, hs⟩ := h.files_of ho
    have hs' : (t.delete (pathOf b k)).get (sidecarPath (pathOf b k)) =
        some (.file (codec.render (md5 o.body, o.contentType))) := by
      rw [get_delete, if_neg (sidecarPath_ne hk), hs]
    have hdone : (S3.deleteObject t b k).1 = S3.pruneEmptyDirs
        ((t.delete (pathOf b k)).delete (sidecarPath (pathOf b k)))
        (pathOf b k).dropLast.reverse := by
      simp only [S3.deleteObject, objectPath, hb, hv, Bool.and_self, if_true, removeFile, hp, hs']
    rw [hdone]
    refine Inv.pruneEmptyDirs (h.update hk (fun hs => by cases hs) ?_ ?_ ?_ ?_) _
    · simp [fileAt, get_delete]
    · simp [fileAt, get_delete]
    · exact fun p hp => get_of_delete (get_of_delete hp)
    · intro p hne hne'
      rw [get_delete, if_neg (Ne.symm hne'), get_delete, if_neg (Ne.symm hne)]

theorem Inv.mem_walk : k ∈ walk t b ↔ (m (b, k)).isSome := by
  rw [walk, mem_filterMap]
  constructor
  · rintro ⟨⟨p, e⟩, hmem, hk⟩
    split at hk
    · rename_i b' names bytes heq
      cases heq
      split at hk <;> cases hk
      rename_i hlisted
      obtain ⟨rfl, hall⟩ := hlisted
      have hfile := fileAt_eq_some.mpr (mem_entries.mp hmem)
      obtain ⟨b₁, k₁, hk₁, hp | hp⟩ := h.file _ bytes hfile
      · obtain ⟨rfl, rfl⟩ := cons.inj hp
        obtain ⟨o, ho, -⟩ := Option.map_eq_some_iff.mp ((h.body b' k₁ hk₁).symm.trans hfile)
        rw [intercalate_splitOn, ho]
        rfl
      · -- a sidecar is passed over
        have hmeta := meta_sidecarPath (pathOf b₁ k₁)
        have hlen := length_sidecarPath b₁ k₁
        rw [← hp] at hmeta hlen
        have hne : names ≠ [] := by
          rintro rfl
          simp at hlen
        rw [fileName, getLastD_cons, getLastD_eq_getLast?,
          getLast?_eq_some_getLast hne, Option.getD_some] at hmeta
        have := all_eq_true.mp hall _ (getLast_mem hne)
        rw [isSkipped_of_meta hmeta] at this
        cases this
    · cases hk
  · intro hk
    obtain ⟨o, ho⟩ := Option.isSome_iff_exists.mp hk
    obtain ⟨-, -, hplain⟩ := h.names b k o ho
    refine ⟨(pathOf b k, .file o.body), mem_entries.mpr (h.files_of ho).1, ?_⟩
    have hall : (k.splitOn 0x2f).all (!isSkipped ·) := all_eq_true.mpr fun c hc => by
      simp [(plainName_iff.mp (all_eq_true.mp hplain c hc)).1]
    exact (if_pos ⟨rfl, hall⟩).trans (congrArg some (intercalate_splitOn _))

theorem Inv.empty_of_deleteBucket (ht : (deleteBucket t b).isSome) (k : Bytes) :
    m (b, k) = none := by
  unfold deleteBucket at ht
  split at ht
  · rename_i hempty
    have hnil := List.isEmpty_iff.mp (Bool.and_eq_true_iff.mp hempty).2
    rw [← Option.not_isSome_iff_eq_none, ← h.mem_walk, hnil]
    exact not_mem_nil
  · cases ht

theorem Inv.deleteBucket (ht : deleteBucket t b = some t') : Inv codec md5 t' m := by
  have hnone := h.empty_of_deleteBucket (b := b) (by rw [ht]; rfl)
  unfold S3.deleteBucket at ht
  split at ht <;> cases ht
  have hget : ∀ p e, (t.write ((t.entries.filter fun e => e.1.head? == some b).map
      fun e => .del e.1)).get p = some e ↔ t.get p = some e ∧ p.head? ≠ some b := by
    intro p e
    have hmap : ((t.entries.filter fun e => e.1.head? == some b).map
        fun e => (.del e.1 : BatchOp Path Entry)) =
        (((t.entries.filter fun e => e.1.head? == some b).map (·.1)).map .del) := by
      rw [map_map]
      rfl
    rw [get_eq_some, hmap, SortedMap.entries_write_del, mem_filter, mem_entries]
    refine and_congr_right fun hp => ?_
    simp only [decide_eq_true_eq, mem_map, mem_filter, beq_iff_eq, not_exists, not_and, and_imp]
    exact ⟨fun hall hb => hall (p, e) (get_eq_some.mp hp) hb rfl,
      fun hb e' _ hb' heq => hb (heq ▸ hb')⟩
  refine h.of_files (fun p => Option.ext fun bytes => ?_) fun p hp => .inl ((hget p _).mp hp).1
  rw [fileAt_eq_some, fileAt_eq_some, hget]
  refine and_iff_left_of_imp fun hp hhead => ?_
  -- a file in the bucket would be one of an object
  have hfile := fileAt_eq_some.mpr hp
  obtain ⟨b', k, hk, rfl | rfl⟩ := h.file p bytes hfile
  · cases hhead
    rw [h.body b k hk, hnone] at hfile
    cases hfile
  · rw [sidecarPath, withSuffix, pathOf, dropLast_cons_of_ne_nil (splitOn_ne_nil k)] at hhead
    cases hhead
    rw [h.sidecar b k hk, hnone] at hfile
    cases hfile

omit h

/-! ## Answers -/

theorem Inv.getObject (h : Inv codec md5 t m) (hb : validBucketName b)
    (hv : validKey k) (hk : plainKey k) :
    getObject codec t b k = (m (b, k)).map fun o =>
      (o.body, ⟨k, o.body.length, some (md5 o.body, o.contentType)⟩) := by
  cases ho : m (b, k) with
  | none =>
    unfold S3.getObject
    split
    · rename_i body _ hfile
      have hbody := (h.body b k hk).symm.trans (fileAt_eq_some.mpr hfile)
      rw [ho] at hbody
      cases hbody
    · rfl
  | some o =>
    obtain ⟨hp, hs⟩ := h.files_of ho
    simp only [S3.getObject, head, objectPath, hb, hv, Bool.and_self, if_true, hp, hs,
      codec.parse_render, Option.map_some]

theorem key_of_head {o : ObjectMeta} (h : head codec t b k = some o) : o.key = k := by
  unfold head at h
  split at h
  · cases h
  · split at h <;> cases h
    rfl

theorem listLoop_all {maxKeys : Nat} {keys : List Bytes}
    (hkeys : ∀ key ∈ keys, (head codec t b key).isSome) (page : ListPage) (count : Nat)
    (hcount : count + keys.length ≤ maxKeys) :
    (listLoop codec t b [] [] maxKeys keys page count none).truncated = page.truncated ∧
    (listLoop codec t b [] [] maxKeys keys page count none).objects.map (·.key) =
      page.objects.map (·.key) ++ keys := by
  induction keys generalizing page count with
  | nil => exact ⟨rfl, (append_nil _).symm⟩
  | cons key keys ih =>
    rw [length_cons] at hcount
    obtain ⟨o, ho⟩ := Option.isSome_iff_exists.mp (hkeys key mem_cons_self)
    have hrest := ih (fun key' h' => hkeys key' (mem_cons_of_mem _ h'))
      { page with objects := page.objects ++ [o], nextAfter := some key } (count + 1) (by omega)
    have hfold : foldedKey [] [] key = none := rfl
    rw [listLoop, if_neg (by omega)]
    rw [ho]
    refine ⟨hrest.1, hrest.2.trans ?_⟩
    rw [map_append, map_singleton, key_of_head ho, append_assoc]
    rfl

theorem Inv.list (h : Inv codec md5 t m) {maxKeys : Nat} (hb : validBucketName b)
    (hdir : t.get [b] = some .dir) (hmax : (walk t b).length ≤ maxKeys) :
    ∃ page, list codec t b [] [] maxKeys = some page ∧ page.truncated = false ∧
      ∀ k, k ∈ page.objects.map (·.key) ↔ (m (b, k)).isSome := by
  unfold S3.list
  rw [hdir, if_pos (by rw [hb]; rfl)]
  by_cases hzero : maxKeys = 0
  · rw [if_pos hzero]
    refine ⟨_, rfl, rfl, fun k => ?_⟩
    have hnil : walk t b = [] := length_eq_zero_iff.mp (by omega)
    rw [← h.mem_walk, hnil]
    exact Iff.rfl
  · rw [if_neg hzero]
    have hperm := mergeSort_perm (walk t b) (fun a c => decide (a ≤ c))
    have hall : ((walk t b).mergeSort fun a c => decide (a ≤ c)).filter ([] : Bytes).isPrefixOf =
        (walk t b).mergeSort fun a c => decide (a ≤ c) :=
      filter_eq_self.mpr fun k _ => isPrefixOf_iff_prefix.mpr nil_prefix
    have hhead : ∀ k ∈ (walk t b).mergeSort (fun a c => decide (a ≤ c)),
        (head codec t b k).isSome := by
      intro k hk
      obtain ⟨o, ho⟩ := Option.isSome_iff_exists.mp (h.mem_walk.mp (hperm.mem_iff.mp hk))
      obtain ⟨-, hv, -⟩ := h.names b k o ho
      simp [head, objectPath, hb, hv, (h.files_of ho).1]
    obtain ⟨htrunc, hkeys⟩ := listLoop_all hhead ⟨[], [], false, none⟩ 0
      (show 0 + _ ≤ maxKeys by rw [hperm.length_eq]; omega)
    refine ⟨_, rfl, ?_, fun k => ?_⟩
    · rw [hall]
      exact htrunc
    · rw [hall, hkeys, map_nil, nil_append, hperm.mem_iff, h.mem_walk]

end Files

/-! ## Whole runs -/

theorem inv_init (codec : Codec) (md5 : Bytes → Bytes) : Inv codec md5 .empty fun _ => none := by
  have hnone : ∀ p e, (SortedMap.empty : Tree).get p ≠ some e := nofun
  exact ⟨fun _ _ _ => rfl, fun _ _ _ => rfl,
    fun p _ h => absurd (fileAt_eq_some.mp h) (hnone p _), fun p h => absurd h (hnone p _), nofun⟩

theorem Inv.step {codec : Codec} {md5 : Bytes → Bytes} {w w' : World} {op : Op}
    (h : Inv codec md5 w.store.tree w.objects) (hok : Plain op)
    (hs : step codec md5 w op = some w') : Inv codec md5 w'.store.tree w'.objects := by
  cases op with
  | createBucket bucket =>
    cases hs
    split
    · rename_i hfree
      have hnone : w.store.tree.get [bucket] = none := by
        simpa using (Bool.and_eq_true_iff.mp hfree).2
      refine h.of_files (fun p => fileAt_put_dir hnone) fun p hp => ?_
      rw [get_put] at hp
      split at hp
      · rename_i heq
        exact .inr (.inl (by rw [← heq]; exact le_rfl))
      · exact .inl hp
    · exact h
  | put bucket key body contentType =>
    obtain ⟨s, ok, hput, hinv⟩ := h.putObject (b := bucket) hok w.store.tmpCounter body contentType
    unfold S3.step at hs
    dsimp only at hs
    rw [hput] at hs
    cases hs
    exact hinv
  | get bucket key | list bucket pre delimiter maxKeys => cases hs; exact h
  | delete bucket key => cases hs; exact h.deleteObject hok
  | deleteBucket bucket =>
    cases hs
    cases ht : S3.deleteBucket w.store.tree bucket with
    | none => exact h
    | some t => exact h.deleteBucket ht

theorem objects_as_map (codec : Codec) (md5 : Bytes → Bytes) (ops : List Op)
    (hok : Guarded (step codec md5) (fun _ op => Plain op) .init ops) {w : World}
    (h : exec (step codec md5) .init ops = some w) : AsMap codec md5 w := by
  have hinv := exec_inv (I := fun w => Inv codec md5 w.store.tree w.objects)
    (fun _ _ _ => Inv.step) (inv_init codec md5) hok h
  exact ⟨fun _ _ => hinv.getObject, fun _ _ => hinv.list, fun _ => hinv.empty_of_deleteBucket⟩

/-- A sidecar as the length of its etag in unary, the etag and the content type. -/
def unaryCodec : Codec where
  render m := List.replicate m.1.length 1 ++ 0 :: (m.1 ++ m.2)
  parse bytes :=
    let n := (bytes.takeWhile (· == 1)).length
    some (((bytes.drop (n + 1)).take n), (bytes.drop (n + 1)).drop n)
  parse_render m := by simp [List.drop_append, List.drop_eq_nil_of_le]

/-- Objects `a` and `d/c` of a bucket, the second replaced and the first deleted. -/
def plainOps : List Op :=
  [.put [0x62] [0x61] [1] [2], .put [0x62] [0x64, 0x2f, 0x63] [3] [4],
    .put [0x62] [0x64, 0x2f, 0x63] [5] [6], .delete [0x62] [0x61], .deleteBucket [0x62]]

theorem objects_as_map_plain :
    ∃ w, exec (step unaryCodec id) .init plainOps = some w ∧
      w.objects ([0x62], [0x64, 0x2f, 0x63]) = some ⟨[5], [6]⟩ ∧ AsMap unaryCodec id w :=
  exists_run (by decide +kernel) fun w hw hobject =>
    ⟨hobject, objects_as_map unaryCodec id plainOps (by decide +kernel) hw⟩

/-- The object `.a` is not listed, and its bucket is deleted with it. -/
theorem hidden_object_lost :
    ∃ w, exec (step unaryCodec id) .init [.put [0x62] [0x2e, 0x61] [1] [2]] = some w ∧
      w.objects ([0x62], [0x2e, 0x61]) = some ⟨[1], [2]⟩ ∧
      (deleteBucket w.store.tree [0x62]).isSome ∧ ¬ AsMap unaryCodec id w := by
  refine exists_run (P := fun w => w.objects ([0x62], [0x2e, 0x61]) = some ⟨[1], [2]⟩ ∧
    (deleteBucket w.store.tree [0x62]).isSome) (by decide +kernel) ?_
  rintro w - ⟨hobject, hdelete⟩
  refine ⟨hobject, hdelete, fun hmap => ?_⟩
  rw [hmap.deleteBucket [0x62] hdelete] at hobject
  cases hobject

end Rdb.S3
