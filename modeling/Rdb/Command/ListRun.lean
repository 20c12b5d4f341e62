import Rdb.Command.ListRewrite

/-!
# Runs of list commands

LMOVE is a pop and a push in one batch, on one key or on two. With it every list command
is one step of a run, and a run on the store is matched by the run on sequences.

A command resolves its key by name before anything else, so it takes a record that sits
under its bare name for a raw string, whatever the record is.

* `list_commands_refine`: a run whose commands find no record under the bare name of
  their keys answers what the sequences answer and leaves their windows.
-/

namespace Rdb.Command

open Lib Ds ListDs List
open Function (update)
open SortedMap (empty)
open Spec (move on push)

section

variable {store : Store} {lists : Lists} {k : UserKey}

/-! ## One entry off a side -/

theorem count_popped (m : ListMeta) (side : Bool) (i : Nat) (l : Bool) :
    (popped m side i).count l = if l = side then m.count l - 1 else m.count l := by
  cases side <;> cases l <;> rfl

theorem next_popped (m : ListMeta) (side : Bool) (i : Nat) (l : Bool) :
    (popped m side i).next l =
      if l = side then (if i = m.next l - 1 then m.next l - 1 else m.next l) else m.next l := by
  cases side <;> cases l <;> rfl

variable {m : ListMeta} {w : Bool → List Bytes}

theorem next_popped_le (m : ListMeta) (side : Bool) (i : Nat) (l : Bool) :
    (popped m side i).next l ≤ m.next l := by
  rw [next_popped]
  split
  · split <;> omega
  · exact le_refl _

theorem popOne_open (hl : Laid store k m w) (hne : seq w ≠ []) (left : Bool) :
    let t := if left then popLeftTarget m else popRightTarget m
    ∃ w', Open (store.write [delSide t.1 k t.2]) k (popped m t.1 t.2) w' ∧
      seq w' = if left then (seq w).tail else (seq w).dropLast := by
  intro t
  have hpos : 0 < (w left).length + (w (!left)).length := by
    have hlen := length_seqFrom left w
    rw [seqFrom, length_append, length_reverse] at hlen
    exact hlen ▸ length_pos_of_ne_nil hne
  have hcn := hl.count left
  have hbf := hl.base (!left)
  have hexp : ∀ l i, (popped m l i).expireMs = m.expireMs := fun l i => by cases l <;> rfl
  have hother : left ≠ !left := by cases left <;> decide
  suffices h : ∃ w', Open (store.write [delSide t.1 k t.2]) k (popped m t.1 t.2) w' ∧
      seqFrom left w' = (seqFrom left w).drop 1 by
    obtain ⟨w', hopen, hseq⟩ := h
    refine ⟨w', hopen, ?_⟩
    rw [seq_of_seqFrom_drop hseq, drop_one, dropLast_eq_take]
  have hcut := seqFrom_cut left w 1
  have ht : t = _ := popTarget_eq m left
  rw [ht]
  by_cases hc : 0 < m.count left
  · rw [if_pos hc]
    have hmin : min 1 (w left).length = 1 := by omega
    rw [hmin] at hcut
    refine ⟨_, (Open.of_laid hl).pop _ left 1 0 (by omega) (Nat.zero_le _) (hexp _ _) ?_ ?_ ?_ ?_, hcut⟩
    all_goals simp [next_popped, count_popped]
  · rw [if_neg hc]
    have hnil : w left = [] := length_eq_zero_iff.mp (by omega)
    by_cases hone : (w (!left)).length = 1
    · have hopen := (Open.of_laid hl).pop (popped m (!left) (m.base (!left))) (!left) 1 0
        (by omega) (Nat.zero_le _) (hexp _ _)
        (by rw [next_popped, if_pos rfl, if_pos (by omega)]) (by rw [count_popped, if_pos rfl])
        (by rw [Bool.not_not, next_popped, if_neg hother])
        (by rw [Bool.not_not, count_popped, if_neg hother]; rfl)
      have hidx : m.next (!left) - 1 = m.base (!left) := by omega
      have hops : popOps k m (!left) 1 0 = [delSide (!left) k (m.next (!left) - 1)] := rfl
      rw [hops, hidx] at hopen
      refine ⟨_, hopen, ?_⟩
      simp only [seqFrom, cut, hnil, hone, if_neg hother]
      exact (drop_eq_nil_of_le hone.le).symm
    · rw [hnil] at hcut
      refine ⟨_, (Open.of_laid hl).pop _ left 0 1 (Nat.zero_le _) (by omega) (hexp _ _) ?_ ?_ ?_ ?_, hcut⟩
      · rw [next_popped, if_neg hother]
        rfl
      · rw [count_popped, if_neg hother]
        rfl
      · rw [next_popped, if_pos rfl, if_neg (by omega)]
      · rw [count_popped, if_pos rfl]

/-! ## LMOVE -/

theorem Open.congr {store' : Store} (h : Open store k m w)
    (hget : ∀ kind s, store'.get (k.elem kind s) = store.get (k.elem kind s)) :
    Open store' k m w :=
  { h.toFits with side := fun left => side_congr hget (h.side left) }

theorem move_same (h : Refines store lists) (hl : Laid store k m w) (hne : seq w ≠ [])
    (popLeft pushLeft : Bool) (hroom : m.next pushLeft + 1 < 2 ^ 62) (elem : Bytes) :
    let t := if popLeft then popLeftTarget m else popRightTarget m
    let rest := if popLeft then (seq w).tail else (seq w).dropLast
    Refines (commitList store k 0 (some (pushed (popped m t.1 t.2) pushLeft 1))
        [delSide t.1 k t.2, putSide pushLeft k ((popped m t.1 t.2).next pushLeft) elem])
      (update lists k (if pushLeft then elem :: rest else rest ++ [elem])) := by
  intro t rest
  obtain ⟨w', hopen, hseq⟩ := popOne_open hl hne popLeft
  have hroom' : (popped m t.1 t.2).next pushLeft + [elem].length < 2 ^ 62 :=
    lt_of_le_of_lt (Nat.add_le_add_right (next_popped_le m t.1 t.2 pushLeft) 1) hroom
  have hpush := hopen.push pushLeft hroom'
  have hseq' : seq (update w' pushLeft (w' pushLeft ++ [elem])) =
      if pushLeft then elem :: rest else rest ++ [elem] := by
    rw [seq_push, hseq]
    rfl
  rw [← hseq']
  refine h.commit_some (fun op hop => ?_) hpush.toFits hpush.side ?_
  · rcases mem_cons.mp hop with rfl | hop
    · exact ⟨t.1, t.2, rfl⟩
    · rw [mem_singleton.mp hop]
      exact ⟨pushLeft, _, rfl⟩
  · rw [hseq']
    cases pushLeft <;> simp

theorem batchWrite_move (store : Store) (src dst : UserKey) (after m' : ListMeta) (del put : WriteOp) :
    batchWrite store ([.op del] ++
      (if after.isEmpty then deleteFamily src 0
        else setTtlEntries src.pre (metaKey src) 0 0 ++ [writeMeta src after]) ++
      [.op put] ++ setTtlEntries dst.pre (metaKey dst) 0 0 ++ [writeMeta dst m']) =
      commitList (commitList store src 0 (if after.isEmpty then none else some after) [del])
        dst 0 (some m') [put] := by
  unfold commitList
  rw [← batchWrite_append]
  cases after.isEmpty <;> simp [append_assoc]

theorem move_other (h : Refines store lists) {src dst : UserKey} (hne : dst ≠ src)
    (hl : Laid store src m w) (hnil : seq w ≠ []) {m' : ListMeta} {w' : Bool → List Bytes}
    (ho : Open store dst m' w') (popLeft pushLeft : Bool) (hroom : m'.next pushLeft + 1 < 2 ^ 62)
    (elem : Bytes) :
    let t := if popLeft then popLeftTarget m else popRightTarget m
    let rest := if popLeft then (seq w).tail else (seq w).dropLast
    Refines (commitList (commitList store src 0
          (if (popped m t.1 t.2).isEmpty then none else some (popped m t.1 t.2)) [delSide t.1 src t.2])
        dst 0 (some (pushed m' pushLeft 1)) [putSide pushLeft dst (m'.next pushLeft) elem])
      (update (update lists src rest) dst
        (if pushLeft then elem :: seq w' else seq w' ++ [elem])) := by
  intro t rest
  obtain ⟨w₁, hopen, hseq⟩ := popOne_open hl hnil popLeft
  have hon : OnSides src [delSide t.1 src t.2] := fun op hop => by
    rw [mem_singleton.mp hop]
    exact ⟨t.1, t.2, rfl⟩
  have h₁ := h.commit hon hopen.toFits hopen.side
  rw [hseq] at h₁
  have ho₁ := ho.congr (hon.get_commitList hne store
    (if (popped m t.1 t.2).isEmpty then none else some (popped m t.1 t.2)))
  have hexp : (pushed m' pushLeft 1).expireMs = 0 := by
    cases pushLeft <;> exact ho.expire
  have hpush := (push_agrees h₁ ho₁ pushLeft (cons_ne_nil elem []) hroom).2
  rw [length_singleton, hexp] at hpush
  exact hpush

theorem fst_popOne_eq (hl : Laid store k m w) (hne : seq w ≠ []) (left : Bool) :
    (if left then (seq w).head? else (seq w).getLast?) = some (popOne store k m left).1 := by
  have hends : (if left then (seq w).head? else (seq w).getLast?) = (seqFrom left w).head? := by
    rw [seqFrom_eq]
    cases left
    · exact head?_reverse.symm
    · rfl
  obtain ⟨x, xs, hx⟩ := exists_cons_of_length_pos (l := seqFrom left w)
    (by rw [length_seqFrom]; exact length_pos_of_ne_nil hne)
  rw [hends, fst_popOne hl, hx]
  rfl

theorem moveElem_agrees (h : Refines store lists) {src dst : UserKey} (hsrc : store.get src.raw = none)
    (hdst : store.get dst.raw = none) (now : Nat) (popLeft pushLeft : Bool)
    (hroom : Room store dst 1) :
    Agrees (moveElem store now src dst popLeft pushLeft)
      (move lists src dst popLeft pushLeft) := by
  unfold moveElem move
  by_cases hslot : src.slot = dst.slot
  swap
  · rw [if_pos hslot, if_pos hslot]
    exact ⟨rfl, h⟩
  rw [if_neg (not_not.mpr hslot), if_neg (not_not.mpr hslot)]
  rcases h.cases src with ⟨hk, hroot, -⟩ | ⟨m, w, hl, hk, hne⟩
  · rw [h.listState_missing hsrc hroot, hk]
    cases popLeft <;> exact ⟨rfl, h⟩
  rw [h.listState_list hsrc hl, hk, fst_popOne_eq hl hne popLeft]
  have hempty : ¬m.isEmpty := by
    rw [ListMeta.isEmpty, beq_iff_eq, hl.len, length_eq_zero_iff]
    exact hne
  dsimp only
  rw [if_neg hempty]
  unfold Room at hroom
  by_cases hsame : src = dst
  · subst hsame
    rw [h.listState_list hdst hl]
    rw [rootMeta_of_laid hl] at hroom
    refine ⟨rfl, ?_⟩
    have href := move_same h hl hne popLeft pushLeft (hroom pushLeft) (popOne store src m popLeft).1
    simp only [Function.update_self, Function.update_idem]
    exact href
  · have hdst' : update lists src
        (if popLeft then (seq w).tail else (seq w).dropLast) dst = lists dst :=
      Function.update_of_ne (Ne.symm hsame) _ _
    rcases h.cases dst with ⟨hk', hroot', ho⟩ | ⟨m', w', hl', hk', -⟩
    · rw [h.listState_missing hdst hroot']
      rw [rootMeta_of_missing hroot'] at hroom
      refine ⟨rfl, ?_⟩
      simp only [if_neg hsame, hdst', hk', batchWrite_move]
      exact move_other h (Ne.symm hsame) hl hne ho popLeft pushLeft (hroom pushLeft) _
    · rw [h.listState_list hdst hl']
      rw [rootMeta_of_laid hl'] at hroom
      refine ⟨rfl, ?_⟩
      simp only [if_neg hsame, hdst', hk', batchWrite_move]
      exact move_other h (Ne.symm hsame) hl hne (.of_laid hl') popLeft pushLeft (hroom pushLeft) _

end

/-! ## Runs -/

inductive Cmd where
  | lpush (k : UserKey) (elems : List Bytes)
  | rpush (k : UserKey) (elems : List Bytes)
  | lpushx (k : UserKey) (elems : List Bytes)
  | rpushx (k : UserKey) (elems : List Bytes)
  | lpop (k : UserKey) (count : Option Int)
  | rpop (k : UserKey) (count : Option Int)
  | lset (k : UserKey) (index : Int) (elem : Bytes)
  | linsert (k : UserKey) (before : Bool) (pivot elem : Bytes)
  | lrem (k : UserKey) (cnt : Int) (elem : Bytes)
  | ltrim (k : UserKey) (start stop : Int)
  | rpoplpush (src dst : UserKey)
  | lmove (src dst : UserKey) (popLeft pushLeft : Bool)
  | llen (k : UserKey)
  | lindex (k : UserKey) (index : Int)
  | lrange (k : UserKey) (start stop : Int)

namespace Cmd

def keys : Cmd → List UserKey
  | lpush k _ | rpush k _ | lpushx k _ | rpushx k _ | lpop k _ | rpop k _ | lset k _ _
  | linsert k _ _ _ | lrem k _ _ | ltrim k _ _ | llen k | lindex k _ | lrange k _ _ => [k]
  | rpoplpush src dst | lmove src dst _ _ => [src, dst]

/-- The key a command adds entries to, and how many. -/
def adds : Cmd → Option (UserKey × Nat)
  | lpush k elems | rpush k elems | lpushx k elems | rpushx k elems => some (k, elems.length)
  | linsert k _ _ _ => some (k, 1)
  | rpoplpush _ dst | lmove _ dst _ _ => some (dst, 1)
  | _ => none

def run (store : Store) (now : Nat) : Cmd → Reply × Store
  | lpush k elems => Command.lpush store now k elems
  | rpush k elems => Command.rpush store now k elems
  | lpushx k elems => Command.lpushx store now k elems
  | rpushx k elems => Command.rpushx store now k elems
  | lpop k count => Command.lpop store now k count
  | rpop k count => Command.rpop store now k count
  | lset k index elem => Command.lset store now k index elem
  | linsert k before pivot elem => Command.linsert store now k before pivot elem
  | lrem k cnt elem => Command.lrem store now k cnt elem
  | ltrim k start stop => Command.ltrim store now k start stop
  | rpoplpush src dst => Command.rpoplpush store now src dst
  | lmove src dst popLeft pushLeft => Command.lmove store now src dst popLeft pushLeft
  | llen k => Command.llen store now k
  | lindex k index => Command.lindex store now k index
  | lrange k start stop => Command.lrange store now k start stop

def spec (lists : Lists) : Cmd → Reply × Lists
  | lpush k elems => on lists k (push true true "lpush" elems)
  | rpush k elems => on lists k (push false true "rpush" elems)
  | lpushx k elems => on lists k (push true false "lpushx" elems)
  | rpushx k elems => on lists k (push false false "rpushx" elems)
  | lpop k count => on lists k (Spec.pop true count)
  | rpop k count => on lists k (Spec.pop false count)
  | lset k index elem => on lists k (Spec.lset index elem)
  | linsert k before pivot elem => on lists k (Spec.linsert before pivot elem)
  | lrem k cnt elem => on lists k (Spec.lrem cnt elem)
  | ltrim k start stop => on lists k (Spec.ltrim start stop)
  | rpoplpush src dst => move lists src dst false true
  | lmove src dst popLeft pushLeft => move lists src dst popLeft pushLeft
  | llen k => on lists k Spec.llen
  | lindex k index => on lists k (Spec.lindex index)
  | lrange k start stop => on lists k (Spec.lrange start stop)

end Cmd

/-- No record sits under the bare name of a key of the command, and the indices have room. -/
def Unshadowed (store : Store) (c : Cmd) : Prop :=
  (∀ k ∈ c.keys, store.get k.raw = none) ∧ ∀ a ∈ c.adds, Room store a.1 a.2

instance decidableUnshadowed (store : Store) (c : Cmd) : Decidable (Unshadowed store c) :=
  haveI : Decidable (∀ a ∈ c.adds, Room store a.1 a.2) :=
    match c.adds with
    | none => .isTrue nofun
    | some a => decidable_of_iff (Room store a.1 a.2) (by simp)
  inferInstanceAs (Decidable (_ ∧ _))

theorem run_agrees {store : Store} {lists : Lists} (h : Refines store lists) (now : Nat) {c : Cmd}
    (hc : Unshadowed store c) : Agrees (c.run store now) (c.spec lists) := by
  obtain ⟨hraw, hroom⟩ := hc
  cases c with
  | lpush k elems =>
    exact pushVariant_agrees h (hraw k (.head _)) true true _ now (hroom (k, elems.length) rfl)
  | rpush k elems =>
    exact pushVariant_agrees h (hraw k (.head _)) false true _ now (hroom (k, elems.length) rfl)
  | lpushx k elems =>
    exact pushVariant_agrees h (hraw k (.head _)) true false _ now (hroom (k, elems.length) rfl)
  | rpushx k elems =>
    exact pushVariant_agrees h (hraw k (.head _)) false false _ now (hroom (k, elems.length) rfl)
  | lpop k count => exact pop_agrees h (hraw k (.head _)) true now count
  | rpop k count => exact pop_agrees h (hraw k (.head _)) false now count
  | lset k index elem => exact lset_agrees h (hraw k (.head _)) now index elem
  | linsert k before pivot elem =>
    exact linsert_agrees h (hraw k (.head _)) now before pivot elem (hroom (k, 1) rfl)
  | lrem k cnt elem => exact lrem_agrees h (hraw k (.head _)) now cnt elem
  | ltrim k start stop => exact ltrim_agrees h (hraw k (.head _)) now start stop
  | rpoplpush src dst =>
    exact moveElem_agrees h (hraw src (.head _)) (hraw dst (.tail _ (.head _))) now false true
      (hroom (dst, 1) rfl)
  | lmove src dst popLeft pushLeft =>
    exact moveElem_agrees h (hraw src (.head _)) (hraw dst (.tail _ (.head _))) now popLeft pushLeft
      (hroom (dst, 1) rfl)
  | llen k => exact llen_agrees h (hraw k (.head _)) now
  | lindex k index => exact lindex_agrees h (hraw k (.head _)) now index
  | lrange k start stop => exact lrange_agrees h (hraw k (.head _)) now start stop

def cmdStep (s : Store × List Reply) (a : Nat × Cmd) : Option (Store × List Reply) :=
  let r := a.2.run s.1 a.1
  some (r.2, s.2 ++ [r.1])

def specStep (s : Lists × List Reply) (a : Nat × Cmd) : Option (Lists × List Reply) :=
  let r := a.2.spec s.1
  some (r.2, s.2 ++ [r.1])

def Matches (s : Store × List Reply) (t : Lists × List Reply) : Prop := Refines s.1 t.1 ∧ s.2 = t.2

theorem cmdStep_sim (s : Store × List Reply) (t : Lists × List Reply) (a : Nat × Cmd)
    (s' : Store × List Reply) (h : Matches s t) (hok : Unshadowed s.1 a.2)
    (hs : cmdStep s a = some s') : ∃ t', specStep t a = some t' ∧ Matches s' t' := by
  cases hs
  have hagree := run_agrees h.1 a.1 hok
  exact ⟨_, rfl, hagree.refines, by rw [h.2, hagree.reply]⟩

theorem list_commands_refine {store : Store} {lists : Lists} (h : Refines store lists)
    {cmds : List (Nat × Cmd)}
    (hok : Guarded cmdStep (fun s a => Unshadowed s.1 a.2) (store, []) cmds)
    {s : Store × List Reply} (hs : exec cmdStep (store, []) cmds = some s) :
    ∃ t, exec specStep (lists, []) cmds = some t ∧ Refines s.1 t.1 ∧ s.2 = t.2 :=
  exec_sim cmdStep_sim ⟨h, rfl⟩ hok hs

theorem refines_empty : Refines empty fun _ => [] where
  holds _ := .missing rfl fun left s => by
    rw [sideGet]
    split
    · exact (window_nil _ _).symm
    · rfl
  others _ _ _ _ := rfl

def sampleKey : UserKey := ⟨[0x7b, 0x61, 0x7d], by decide⟩

def sampleOther : UserKey := ⟨[0x7b, 0x61, 0x7d, 0x31], by decide⟩

def sampleCmds : List (Nat × Cmd) :=
  [(1, .lpush sampleKey [[1], [2]]), (2, .rpush sampleKey [[3], [1]]),
    (3, .linsert sampleKey false [2] [4]), (4, .lset sampleKey (-1) [5]),
    (5, .lmove sampleKey sampleOther false true), (6, .lrem sampleKey 0 [1]),
    (7, .rpop sampleKey (some 2)), (8, .rpoplpush sampleKey sampleKey),
    (9, .lrange sampleKey 0 (-1)), (10, .ltrim sampleOther 1 0), (11, .llen sampleOther)]

theorem list_commands_refine_sample :
    ∃ s t, exec cmdStep (empty, []) sampleCmds = some s ∧
      exec specStep (fun _ => [], []) sampleCmds = some t ∧ Refines s.1 t.1 ∧ s.2 = t.2 ∧
      s.2 = [.int 2, .int 4, .int 5, .ok, .bulk [5], .int 1, .array [[3], [4]], .bulk [2],
        .array [[2]], .ok, .int 0] := by
  have hok : Guarded cmdStep (fun s a => Unshadowed s.1 a.2) (empty, []) sampleCmds := by
    decide +kernel
  have hrep : (exec cmdStep (empty, []) sampleCmds).map (·.2) =
      some [.int 2, .int 4, .int 5, .ok, .bulk [5], .int 1, .array [[3], [4]], .bulk [2],
        .array [[2]], .ok, .int 0] := by
    decide +kernel
  obtain ⟨s, hs, hrep⟩ := Option.map_eq_some_iff.mp hrep
  obtain ⟨t, ht, href, heq⟩ := list_commands_refine refines_empty hok hs
  exact ⟨s, t, hs, ht, href, heq, hrep⟩

/-- A key whose name spells the root record of `{a}`: its kind, the length of the name, the name. -/
def shadowKey : UserKey := ⟨[0x04, 0, 0, 0, 3, 0x7b, 0x61, 0x7d], by decide⟩

def shadowCmds : List (Nat × Cmd) := [(1, .lpush sampleKey [[1]]), (2, .lpush shadowKey [[2]])]

/-- A push on a key that does not exist is refused, because the root of another list sits under its
name. -/
theorem list_key_spells_record :
    ∃ s t, exec cmdStep (empty, []) shadowCmds = some s ∧
      exec specStep (fun _ => [], []) shadowCmds = some t ∧
      s.2 = [.int 1, .error wrongtype] ∧ t.2 = [.int 1, .int 1] := by
  have hs : (exec cmdStep (empty, []) shadowCmds).map (·.2) =
      some [.int 1, .error wrongtype] := by
    decide +kernel
  have ht : (exec specStep (fun _ => [], []) shadowCmds).map (·.2) = some [.int 1, .int 1] := by
    decide +kernel
  obtain ⟨s, hs, hrep⟩ := Option.map_eq_some_iff.mp hs
  obtain ⟨t, ht, hrep'⟩ := Option.map_eq_some_iff.mp ht
  exact ⟨s, t, hs, ht, hrep, hrep'⟩

end Rdb.Command
