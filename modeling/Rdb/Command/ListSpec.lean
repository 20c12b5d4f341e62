import Rdb.Command.ListCmd
import Rdb.Ds.ListLayout

/-!
# Lists as sequences

What the list commands are for: a key holds a sequence of elements, and an empty sequence
is no key. `Refines store lists` says that the records of every key are those of its
sequence: no record at all, or a root and the two windows it describes, read backwards
and forwards. A commit whose writes take the windows of a key to those of a new sequence
takes a store that refines to a store that refines (`Refines.commit`).
-/

namespace Rdb.Command

open Lib Ds ListDs SortedMap UserKey

/-! ## The commands on sequences -/

abbrev Lists := UserKey → List Bytes

/-- Negative indices count from the back. -/
def fromEnd (len : Nat) (i : Int) : Int := if i < 0 then len + i else i

def elemAt (xs : List Bytes) (i : Int) : Option Nat :=
  let p := fromEnd xs.length i
  if 0 ≤ p ∧ p < xs.length then some p.toNat else none

def between (xs : List Bytes) (start stop : Int) : List Bytes :=
  let lo := (fromEnd xs.length start).toNat
  (xs.drop lo).take (fromEnd xs.length stop + 1 - lo).toNat

def eraseFirst (e : Bytes) : Nat → List Bytes → List Bytes
  | _, [] => []
  | 0, xs => xs
  | n + 1, x :: xs => if x = e then eraseFirst e n xs else x :: eraseFirst e (n + 1) xs

namespace Spec

def push (left create : Bool) (cmd : String) (elems xs : List Bytes) : Reply × List Bytes :=
  if elems = [] then (.error (arity cmd), xs)
  else if xs = [] ∧ create = false then (.int 0, xs)
  else
    let ys := if left then elems.reverse ++ xs else xs ++ elems
    (.int ys.length, ys)

def pop (left : Bool) (count : Option Int) (xs : List Bytes) : Reply × List Bytes :=
  match count with
  | none =>
    if left then (xs.head?.elim .null .bulk, xs.tail) else (xs.getLast?.elim .null .bulk, xs.dropLast)
  | some c =>
    if c < 0 then (.error "ERR value is out of range, must be positive", xs)
    else if left then (.array (xs.take c.toNat), xs.drop c.toNat)
    else (.array (xs.reverse.take c.toNat), xs.take (xs.length - c.toNat))

def lset (index : Int) (elem : Bytes) (xs : List Bytes) : Reply × List Bytes :=
  if xs = [] then (.error "ERR no such key", xs)
  else match elemAt xs index with
    | none => (.error "ERR index out of range", xs)
    | some p => (.ok, xs.set p elem)

def linsert (before : Bool) (pivot elem : Bytes) (xs : List Bytes) : Reply × List Bytes :=
  if xs = [] then (.int 0, xs)
  else match xs.idxOf? pivot with
    | none => (.int (-1), xs)
    | some p =>
      let place := if before then p else p + 1
      let ys := xs.take place ++ elem :: xs.drop place
      (.int ys.length, ys)

def lrem (cnt : Int) (elem : Bytes) (xs : List Bytes) : Reply × List Bytes :=
  let ys := if cnt = 0 then xs.filter (· ≠ elem)
    else if 0 < cnt then eraseFirst elem cnt.natAbs xs
    else (eraseFirst elem cnt.natAbs xs.reverse).reverse
  (.int (xs.length - ys.length : Nat), ys)

def ltrim (start stop : Int) (xs : List Bytes) : Reply × List Bytes := (.ok, between xs start stop)

def llen (xs : List Bytes) : Reply × List Bytes := (.int xs.length, xs)

def lindex (index : Int) (xs : List Bytes) : Reply × List Bytes :=
  (((elemAt xs index).bind (xs[·]?)).elim .null .bulk, xs)

def lrange (start stop : Int) (xs : List Bytes) : Reply × List Bytes :=
  (.array (between xs start stop), xs)

def on (lists : Lists) (k : UserKey) (f : List Bytes → Reply × List Bytes) : Reply × Lists :=
  ((f (lists k)).1, Function.update lists k (f (lists k)).2)

/-- An element moves from one end of a list to an end of another one, or of the same. -/
def move (lists : Lists) (src dst : UserKey) (popLeft pushLeft : Bool) : Reply × Lists :=
  if src.slot ≠ dst.slot then (.error crossslotError, lists)
  else match (if popLeft then (lists src).head? else (lists src).getLast?) with
    | none => (.null, lists)
    | some e =>
      let popped := Function.update lists src
        (if popLeft then (lists src).tail else (lists src).dropLast)
      (.bulk e, Function.update popped dst (if pushLeft then e :: popped dst else popped dst ++ [e]))

end Spec

/-! ## The store refines the sequences -/

inductive Holds (store : Store) (k : UserKey) : List Bytes → Prop
  | missing (root : store.get (metaKey k) = none) (side : ∀ left, Side store k left 0 []) :
    Holds store k []
  | list (m : ListMeta) (w : Bool → List Bytes) (laid : Laid store k m w) (ne : seq w ≠ []) :
    Holds store k (seq w)

/-- Every key holds its sequence, and no key is of another type. -/
structure Refines (store : Store) (lists : Lists) : Prop where
  holds : ∀ k, Holds store k (lists k)
  others : ∀ k : UserKey, ∀ kind ∈ metaKinds, kind ≠ kindListMeta → store.get (k.data kind) = none

variable {store store' : Store} {k : UserKey}

variable (h : ∀ kind s, store'.get (k.elem kind s) = store.get (k.elem kind s))
include h

theorem side_congr {left : Bool} {base : Nat} {w : List Bytes} (hs : Side store k left base w) :
    Side store' k left base w :=
  fun s => (h _ s).trans (hs s)

theorem Holds.congr {xs : List Bytes} (hx : Holds store k xs) : Holds store' k xs := by
  have hroot : store'.get (metaKey k) = store.get (metaKey k) := by
    rw [metaKey, ← k.elem_nil]
    exact h _ _
  cases hx with
  | missing root side => exact .missing (hroot.trans root) fun left => side_congr h (side left)
  | list m w laid ne =>
    exact .list m w
      { laid.toFits with
        root := hroot.trans laid.root
        side := fun left => side_congr h (laid.side left) } ne

omit h

variable {lists : Lists}

theorem Refines.update (h : Refines store lists) {xs : List Bytes} (hk : Holds store' k xs)
    (hframe : ∀ k' ≠ k, ∀ kind s, store'.get (k'.elem kind s) = store.get (k'.elem kind s))
    (hroots : ∀ kind ∈ metaKinds, kind ≠ kindListMeta →
      store'.get (k.data kind) = store.get (k.data kind)) :
    Refines store' (Function.update lists k xs) where
  holds k' := by
    by_cases hk' : k' = k
    · subst hk'
      rw [Function.update_self]
      exact hk
    · rw [Function.update_of_ne hk']
      exact (h.holds k').congr (hframe k' hk')
  others k' kind hkind hne := by
    by_cases hk' : k' = k
    · subst hk'
      rw [hroots kind hkind hne]
      exact h.others k' kind hkind hne
    · have hsame := hframe k' hk' kind []
      rw [k'.elem_nil] at hsame
      rw [hsame]
      exact h.others k' kind hkind hne

/-! ## What a command reads -/

theorem isExpired_zero (now : Nat) : isExpired 0 now = false := rfl

variable {m : ListMeta} {w : Bool → List Bytes}

section

variable {store : Store} {lists : Lists} {k : UserKey}

theorem Refines.firstRoot (h : Refines store lists) :
    firstRoot store k.pre k.bytes =
      (store.get (metaKey k)).map fun v => (kindListMeta, decodeEnvelope v) :=
  firstRoot_of_only (by decide) fun kind hkind hne => h.others k kind hkind hne

theorem Refines.listState_missing (h : Refines store lists) (hraw : store.get k.raw = none)
    (hroot : store.get (metaKey k) = none) (now : Nat) :
    listState store k now = (.missing, store) := by
  have hres : resolveWith store k.pre k.bytes now = (.missing, none) := by
    unfold resolveWith
    have hraw : store.get (stringKey k.pre k.bytes) = none := hraw
    rw [hraw, h.firstRoot, hroot]
    rfl
  simp only [listState, resolve, hres, Option.elim_none]

theorem Refines.listState_list (h : Refines store lists) (hraw : store.get k.raw = none)
    (hl : Laid store k m w) (now : Nat) :
    listState store k now = (.list 0 m, store) := by
  have henv : decodeEnvelope (encodeEnvelope 0 (encodeMetaPayload m)) = (0, encodeMetaPayload m) :=
    decodeEnvelope_encodeEnvelope (by decide) _
  have hdec := hl.decode
  have hroot := hl.root
  rw [hl.expire] at hdec hroot
  have hres : resolveWith store k.pre k.bytes now =
      (.enveloped kindListMeta 0 (encodeMetaPayload m), none) := by
    unfold resolveWith
    have hraw : store.get (stringKey k.pre k.bytes) = none := hraw
    rw [hraw, h.firstRoot, hroot]
    simp only [Option.map_some, henv, isExpired_zero, Bool.false_eq_true, if_false]
  simp only [listState, resolve, hres, Option.elim_none, ne_eq, not_true_eq_false, if_false, hdec]

end

/-! ## What a commit leaves -/

def OnSides (k : UserKey) (ops : List WriteOp) : Prop :=
  ∀ op ∈ ops, ∃ left i, op.key = sideKey left k i

theorem onSides_map (left : Bool) (k : UserKey) (ops : List (BatchOp Nat Bytes)) :
    OnSides k (ops.map (sideOp left k)) := by
  intro op hop
  obtain ⟨op, -, rfl⟩ := List.mem_map.mp hop
  exact ⟨left, op.key, key_sideOp left k op⟩

variable {ops : List WriteOp}

theorem OnSides.append {ops' : List WriteOp} (h : OnSides k ops)
    (h' : OnSides k ops') : OnSides k (ops ++ ops') := by
  intro op hop
  rcases List.mem_append.mp hop with hop | hop
  · exact h op hop
  · exact h' op hop

theorem sideKind_cases (left : Bool) : sideKind left = kindListL ∨ sideKind left = kindListR := by
  cases left
  · exact .inr rfl
  · exact .inl rfl

variable {k' : UserKey}

theorem OnSides.get_of_key (h : OnSides k ops) (hk : k' ≠ k) (store : Store) (kind : UInt8)
    (s : Bytes) :
    (store.write ops).get (k'.elem kind s) = store.get (k'.elem kind s) := by
  refine get_write_of_not_mem fun op hop hkey => ?_
  obtain ⟨left, i, hside⟩ := h op hop
  rw [hside, sideKey_eq] at hkey
  exact elem_ne_of_key (Ne.symm hk) hkey

variable {kind : UInt8}

theorem OnSides.get_of_kind (h : OnSides k ops) (hl : kind ≠ kindListL) (hr : kind ≠ kindListR)
    (store : Store) (s : Bytes) :
    (store.write ops).get (k.elem kind s) = store.get (k.elem kind s) := by
  refine get_write_of_not_mem fun op hop hkey => ?_
  obtain ⟨left, i, hside⟩ := h op hop
  rw [hside, sideKey_eq] at hkey
  have hkind := (elem_inj hkey).2.1
  rcases sideKind_cases left with he | he
  · exact hl (hkind.symm.trans he)
  · exact hr (hkind.symm.trans he)

theorem commitList_some (store : Store) (k : UserKey) (m : ListMeta) (ops : List WriteOp) :
    commitList store k 0 (some m) ops =
      (store.write ops).put (metaKey k) (encodeEnvelope m.expireMs (encodeMetaPayload m)) := by
  rw [commitList, batchWrite_append, batchWrite_ops]
  rfl

theorem get_commitList_none (store : Store) (k : UserKey) (ops : List WriteOp) (x : Bytes) :
    (commitList store k 0 none ops).get x =
      if ∃ kind ∈ familyKinds listFamily, k.data kind <+: x then none else (store.write ops).get x := by
  rw [commitList, batchWrite_append, batchWrite_ops]
  refine (get_familyDeleteEntries _ none k (by decide) 0 x).trans (if_congr ?_ rfl rfl)
  exact or_iff_left fun h => Nat.lt_irrefl 0 h.1

theorem get_commitList_some (s : Bytes) (h : k' ≠ k ∨ kind ≠ kindListMeta) :
    (commitList store k 0 (some m) ops).get (k'.elem kind s) = (store.write ops).get (k'.elem kind s) := by
  rw [commitList_some, get_put, if_neg]
  rw [metaKey, ← k.elem_nil]
  rcases h with hk | hkind
  · exact elem_ne_of_key (Ne.symm hk)
  · exact elem_ne_of_kind (Ne.symm hkind)

theorem get_commitList_none_of_ne (s : Bytes) (h : k' ≠ k ∨ kind ∉ familyKinds listFamily) :
    (commitList store k 0 none ops).get (k'.elem kind s) = (store.write ops).get (k'.elem kind s) := by
  rw [get_commitList_none, if_neg]
  rintro ⟨kind', hmem, hpre⟩
  obtain ⟨rfl, rfl⟩ := eq_of_data_isPrefix hpre
  rcases h with hk | hkind
  · exact hk rfl
  · exact hkind hmem

theorem OnSides.get_commitList (hon : OnSides k ops) (hk : k' ≠ k) (store : Store)
    (m : Option ListMeta) (kind : UInt8) (s : Bytes) :
    (commitList store k 0 m ops).get (k'.elem kind s) = store.get (k'.elem kind s) := by
  cases m with
  | none => rw [get_commitList_none_of_ne s (.inl hk), hon.get_of_key hk]
  | some m => rw [get_commitList_some s (.inl hk), hon.get_of_key hk]

theorem Refines.commit_some (h : Refines store lists) (hon : OnSides k ops) (hfits : Fits m w)
    (hside : ∀ left, Side (store.write ops) k left (m.base left) (w left)) (hne : seq w ≠ []) :
    Refines (commitList store k 0 (some m) ops) (Function.update lists k (seq w)) := by
  refine h.update (.list m w ?_ hne) (fun k' hk' => hon.get_commitList hk' store (some m))
    (fun kind hkind hne' => ?_)
  · refine { hfits with root := ?_, side := fun left s => ?_ }
    · rw [commitList_some, get_put, if_pos rfl]
    · rw [get_commitList_some s (.inr (by cases left <;> decide))]
      exact hside left s
  · have hkinds : kind ≠ kindListL ∧ kind ≠ kindListR := by
      revert kind
      decide
    rw [← k.elem_nil, get_commitList_some [] (.inr hne'), hon.get_of_kind hkinds.1 hkinds.2]

theorem Refines.commit_none (h : Refines store lists) (hon : OnSides k ops) :
    Refines (commitList store k 0 none ops) (Function.update lists k []) := by
  have hgone : ∀ kind ∈ familyKinds listFamily, ∀ s,
      (commitList store k 0 none ops).get (k.elem kind s) = none := by
    intro kind hkind s
    rw [get_commitList_none, if_pos ⟨kind, hkind, k.data_isPrefix_elem kind s⟩]
  refine h.update (.missing ?_ fun left s => ?_) (fun k' hk' => hon.get_commitList hk' store none)
    (fun kind hkind hne => ?_)
  · rw [metaKey, ← k.elem_nil]
    exact hgone _ (by decide) []
  · rw [hgone _ (by cases left <;> decide) s, sideGet]
    split
    · exact (window_nil _ _).symm
    · rfl
  · have hkinds : kind ∉ familyKinds listFamily ∧ kind ≠ kindListL ∧ kind ≠ kindListR := by
      revert kind
      decide
    rw [← k.elem_nil, get_commitList_none_of_ne [] (.inr hkinds.1),
      hon.get_of_kind hkinds.2.1 hkinds.2.2]

theorem Refines.commit (h : Refines store lists) (hon : OnSides k ops) (hfits : Fits m w)
    (hside : ∀ left, Side (store.write ops) k left (m.base left) (w left)) :
    Refines (commitList store k 0 (if m.isEmpty then none else some m) ops)
      (Function.update lists k (seq w)) := by
  have hempty : m.isEmpty ↔ seq w = [] := by
    rw [ListMeta.isEmpty, beq_iff_eq, hfits.len, List.length_eq_zero_iff]
  split
  · next he =>
    rw [hempty.mp he]
    exact h.commit_none hon
  · next he => exact h.commit_some hon hfits hside (mt hempty.mpr he)

end Rdb.Command
