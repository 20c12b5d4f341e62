import Rdb.Ds.Keys
import Rdb.Lite.Model

/-!
# Fingerprints of watched keys

WATCH hashes what is stored for a key: the raw string and, kind by kind, the records that
start with the key's root. The hash is taken to be injective, so what it is taken over
stands for it. It covers the kinds up to those of the search index, under one slot prefix;
a key has more records than that (`belongs`): the delay rows and committed offsets of
streams, and the records of a stream sit under the prefix of its topic.

* `valueHash_congr`: a hash under the key's own prefix changes only with the key.
-/

namespace Rdb.Multi

open Lib Ds List

/-- The kinds that a fingerprint covers: `KIND_STRING_TTL` to `KIND_SEARCH_NUMVAL`. -/
def userKinds : List UInt8 := (List.range kindSearchNumval.toNat).map fun i => UInt8.ofNat (i + 1)

structure Fingerprint where
  raw : Option Bytes
  typed : List (UInt8 × List (Bytes × Bytes))
  deriving DecidableEq

def familyScan (store : Store) (pre : Bytes) (kind : UInt8) (key : Bytes) : List (Bytes × Bytes) :=
  let lower := dataKey pre kind key
  let upper := (keyUpperBound lower).getD []
  store.forEachFrom lower false (fun acc k v =>
    if upper ≠ [] ∧ upper ≤ k then (acc, false) else (acc ++ [(k, v)], true)) []

def valueHash (store : Store) (pre key : Bytes) : Fingerprint where
  raw := store.get (stringKey pre key)
  typed := userKinds.map fun kind => (kind, familyScan store pre kind key)

/-! ## The records of a key -/

/-- A record of some kind under a prefix and a name. -/
def typedUnder (pre key x : Bytes) : Bool :=
  pre.isPrefixOf x && (beBytes 4 key.length ++ key).isPrefixOf (x.drop (pre.length + 1))

def delayUnder (pre key x : Bytes) : Bool :=
  pre.isPrefixOf x && (decodeDelayRowKey x pre.length).any (·.2.1 = key)

/-- The record `x` is one of the key's: its raw string, or a typed record or a delay row under the
slot of its name or, for a stream, of its topic. -/
def belongs (k : UserKey) (x : Bytes) : Bool :=
  x = k.raw || (k.pre :: (Lite.streamPrefix k.bytes).toList).any fun pre =>
    typedUnder pre k.bytes x || delayUnder pre k.bytes x

/-- Some record of the key is not the same in both stores. -/
def changed (k : UserKey) (store store' : Store) : Bool :=
  (store.entries ++ store'.entries).any fun e => belongs k e.1 && store.get e.1 != store'.get e.1

variable {k : UserKey} {store store' : Store} {x : Bytes}

theorem get_eq_of_not_changed (h : changed k store store' = false)
    (hx : belongs k x) : store.get x = store'.get x := by
  rw [changed, any_eq_false] at h
  by_contra hne
  have hmem : ∃ v, (x, v) ∈ store.entries ++ store'.entries := by
    cases hg : store.get x with
    | some v => exact ⟨v, mem_append_left _ (SortedMap.get_eq_some.mp hg)⟩
    | none =>
      cases hg' : store'.get x with
      | some v => exact ⟨v, mem_append_right _ (SortedMap.get_eq_some.mp hg')⟩
      | none => exact absurd (hg.trans hg'.symm) hne
  obtain ⟨v, hv⟩ := hmem
  exact h _ hv (by simp [hx, hne])

/-! ## What the hash reads -/

theorem belongs_raw (k : UserKey) : belongs k k.raw = true := by simp [belongs]

theorem belongs_of_data_isPrefix {kind : UInt8} (h : k.data kind <+: x) : belongs k x := by
  obtain ⟨t, rfl⟩ := h
  have hshape : k.data kind ++ t = k.pre ++ kind :: ((beBytes 4 k.bytes.length ++ k.bytes) ++ t) := by
    rw [UserKey.data, dataKey, append_assoc, cons_append]
  have hdrop : (k.data kind ++ t).drop (k.pre.length + 1) =
      (beBytes 4 k.bytes.length ++ k.bytes) ++ t := by
    rw [hshape, ← drop_drop, drop_left]
    rfl
  have hunder : typedUnder k.pre k.bytes (k.data kind ++ t) := by
    rw [typedUnder, hdrop, hshape, Bool.and_eq_true, isPrefixOf_iff_prefix, isPrefixOf_iff_prefix]
    exact ⟨prefix_append _ _, prefix_append _ _⟩
  simp [belongs, hunder]

theorem familyScan_eq (store : Store) (k : UserKey) (kind : UInt8) :
    familyScan store k.pre kind k.bytes =
      store.entries.filter fun e => decide (k.data kind <+: e.1) := by
  unfold familyScan
  refine (store.collect_prefix (g := some) fun acc x v hle => ?_).trans filterMap_some
  -- the bound lies above the root, so it is there
  have hbound := (@mem_range_dataKey _ kind k.slot k.bytes).mpr (prefix_refl _)
  have hne : (keyUpperBound (k.data kind)).getD [] ≠ [] := fun h => by
    have hlt : k.data kind < (keyUpperBound (k.data kind)).getD [] := hbound.2
    rw [h] at hlt
    exact not_lt_nil _ hlt
  exact (if_congr ((and_iff_right hne).trans (upper_le_iff hle)) rfl rfl).trans (ite_not ..)

theorem valueHash_congr (h : changed k store store' = false) :
    valueHash store k.pre k.bytes = valueHash store' k.pre k.bytes := by
  have hscan : ∀ kind, familyScan store k.pre kind k.bytes = familyScan store' k.pre kind k.bytes := by
    intro kind
    rw [familyScan_eq, familyScan_eq]
    refine SortedMap.filter_entries_congr (p := fun x => decide (k.data kind <+: x)) fun x hx => ?_
    exact get_eq_of_not_changed h (belongs_of_data_isPrefix (of_decide_eq_true hx))
  have hraw := get_eq_of_not_changed h (belongs_raw k)
  simp only [valueHash, hscan]
  exact congrArg (Fingerprint.mk · _) hraw

end Rdb.Multi
