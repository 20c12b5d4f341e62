import Rdb.Store

/-!
# EXEC under a slot that moves

EXEC replays the queued commands through the dispatch of single commands, so each is routed by
itself: by the tables of the slot, by whether its own key is here, and by an ASKING that the
first routed command uses up. Commands without a routing key always run. Among them are some
that rewrite the tables (CLUSTER SETSLOT) and one that answers a redirect (CLUSTER TEST).

`exec_whole_iff`: when EXEC runs all of its commands or none, without commands of the last two
sorts. `exec_divided`: what each of the others does to a transaction.
-/

namespace Rdb.Multi.Redirect

open Lib List

/-! ## Routing -/

structure Shared where
  importing : Nat → Option String
  migrating : Nat → Option String
  stableAddrs : List String
  perNodeSlots : Nat
  ownerMap : Nat → Option String
  bind : String

inductive RouteDecision where
  | here
  | moved (slot : Nat) (addr : String)

def serve (slot : Nat) (host addr : String) : RouteDecision :=
  if addr = host then .here else .moved slot addr

/-- The bands have inclusive upper bounds, and the last node takes the rest. -/
def route (slot : Nat) (addrs : List String) (perNodeSlots : Nat) (host : String) : RouteDecision :=
  match addrs.zipIdx.find? fun p =>
      p.2 = addrs.length - 1 || slot ≤ (p.2 + 1) * perNodeSlots % 2 ^ 64 with
  | some (addr, _) => serve slot host addr
  | none => .here

def routeWithOwners (sh : Shared) (slot : Nat) : RouteDecision :=
  match sh.ownerMap slot with
  | some owner => serve slot sh.bind owner
  | none => route slot sh.stableAddrs sh.perNodeSlots sh.bind

def movedErrorLine (slot : Nat) (addr : String) : String := s!"MOVED {slot} {addr}"

/-- The redirect of a routed command; `present` says whether its key is here. -/
def redirectLine (sh : Shared) (slot : Nat) (present asking : Bool) : Option String :=
  match sh.importing slot with
  | some src => if asking then none else some (movedErrorLine slot src)
  | none => match routeWithOwners sh slot with
    | .moved slot addr => some (movedErrorLine slot addr)
    | .here => match sh.migrating slot with
      | some dst => if present then none else some s!"ASK {slot} {dst}"
      | none => none

/-! ## The replay -/

/-- A queued command. Of the whitelisted ones, ASKING sets the flag and CLUSTER TEST answers a
redirect itself; `effect` gives the keys that are here after the command and `retable` the tables,
which CLUSTER SETSLOT rewrites. -/
structure Command where
  whitelisted : Bool
  asks : Bool := false
  key : Bytes
  answer : Option String := none
  effect : (Bytes → Bool) → Bytes → Bool := id
  retable : Shared → Shared := id

structure State where
  sh : Shared
  asking : Bool
  present : Bytes → Bool

inductive Reply where
  | ran
  | redirected (line : String)
  deriving DecidableEq

def handle (s : State) (c : Command) (asking : Bool) : Reply × State :=
  (c.answer.elim .ran .redirected, ⟨c.retable s.sh, asking, c.effect s.present⟩)

def dispatch (slot : Nat) (s : State) (c : Command) : Reply × State :=
  if c.whitelisted then handle s c (s.asking || c.asks)
  else match redirectLine s.sh slot (s.present c.key) s.asking with
    | some line => (.redirected line, { s with asking := false })
    | none => handle s c false

def replay (slot : Nat) : State → List Command → List Reply
  | _, [] => []
  | s, c :: queued => (dispatch slot s c).1 :: replay slot (dispatch slot s c).2 queued

/-- The replies of EXEC to the commands of a slot; none if the transaction is aborted. -/
def run (slot : Nat) (dirty conflicted : Bool) (s : State) (queued : List Command) : List Reply :=
  if dirty || conflicted then [] else replay slot s queued

/-! ## Whole transactions -/

/-- Every routed command finds the flag set, by an ASKING of its own. -/
def Asked : Bool → List Command → Prop
  | _, [] => True
  | asking, c :: queued =>
    if c.whitelisted then Asked (asking || c.asks) queued else asking ∧ Asked false queued

/-- Every routed command finds its key, after what the others did. -/
def Found : (Bytes → Bool) → List Command → Prop
  | _, [] => True
  | present, c :: queued =>
    (c.whitelisted ∨ present c.key) ∧ Found (c.effect present) queued

def Undivided (slot : Nat) (s : State) (queued : List Command) : Prop :=
  match s.sh.importing slot with
  | some _ => Asked s.asking queued ∨ ∀ c ∈ queued, c.whitelisted = false ∧ s.asking = false
  | none => match routeWithOwners s.sh slot with
    | .moved _ _ => (∀ c ∈ queued, c.whitelisted) ∨ ∀ c ∈ queued, c.whitelisted = false
    | .here => match s.sh.migrating slot with
      | some _ => Found s.present queued ∨
          ∀ c ∈ queued, c.whitelisted = false ∧ s.present c.key = false
      | none => True

def Whole (replies : List Reply) : Prop :=
  (∀ x ∈ replies, x = .ran) ∨ ∀ x ∈ replies, x ≠ .ran

/-- The command leaves the tables alone and answers no redirect by itself. -/
def Command.Steady (c : Command) : Prop := c.answer = none ∧ ∀ sh, c.retable sh = sh

variable {slot slot' : Nat} {src dst addr : String} {c : Command} {queued : List Command}
  {s : State}

theorem Command.Steady.handle (h : c.Steady) (asking : Bool) :
    handle s c asking = (.ran, ⟨s.sh, asking, c.effect s.present⟩) := by
  rw [Redirect.handle, h.1, h.2]
  rfl

theorem Command.Steady.sh (h : c.Steady) : (dispatch slot s c).2.sh = s.sh := by
  unfold dispatch
  rw [h.handle, h.handle]
  split
  · rfl
  · split
    · rfl
    · rfl

theorem none_ran_iff (hs : ∀ c ∈ queued, c.Steady) :
    (∀ x ∈ replay slot s queued, x ≠ .ran) ↔
      ∀ c ∈ queued, c.whitelisted = false ∧
        (redirectLine s.sh slot (s.present c.key) s.asking).isSome := by
  induction queued generalizing s with
  | nil => simp [replay]
  | cons c queued ih =>
    obtain ⟨hc, hs⟩ := forall_mem_cons.mp hs
    rw [replay, forall_mem_cons, forall_mem_cons, ih hs, hc.sh]
    unfold dispatch
    cases hw : c.whitelisted with
    | true => simp [hc.handle]
    | false =>
      cases hr : redirectLine s.sh slot (s.present c.key) s.asking with
      | none => simp [hc.handle]
      | some line =>
        -- a command that was redirected would be without the flag
        have hflag : ∀ present, (redirectLine s.sh slot present false).isSome =
            (redirectLine s.sh slot present s.asking).isSome := by
          intro present
          cases hi : s.sh.importing slot with
          | none => simp only [redirectLine, hi]
          | some src =>
            cases ha : s.asking with
            | false => rfl
            | true => simp [redirectLine, hi, ha] at hr
        simp [hflag]

theorem replay_importing (h : s.sh.importing slot = some src) (hs : ∀ c ∈ queued, c.Steady) :
    (∀ x ∈ replay slot s queued, x = .ran) ↔ Asked s.asking queued := by
  induction queued generalizing s with
  | nil => simp [replay, Asked]
  | cons c queued ih =>
    obtain ⟨hc, hs⟩ := forall_mem_cons.mp hs
    have hsh : (dispatch slot s c).2.sh = s.sh := hc.sh
    rw [replay, forall_mem_cons, ih (hsh ▸ h) hs, Asked]
    cases hw : c.whitelisted <;> cases ha : s.asking <;>
      simp [dispatch, redirectLine, hc.handle, h, hw, ha]

theorem replay_moved (h : s.sh.importing slot = none)
    (hr : routeWithOwners s.sh slot = .moved slot' addr) (hs : ∀ c ∈ queued, c.Steady) :
    (∀ x ∈ replay slot s queued, x = .ran) ↔ ∀ c ∈ queued, c.whitelisted := by
  induction queued generalizing s with
  | nil => simp [replay]
  | cons c queued ih =>
    obtain ⟨hc, hs⟩ := forall_mem_cons.mp hs
    have hsh : (dispatch slot s c).2.sh = s.sh := hc.sh
    rw [replay, forall_mem_cons, forall_mem_cons, ih (hsh ▸ h) (hsh ▸ hr) hs]
    cases hw : c.whitelisted <;> simp [dispatch, redirectLine, hc.handle, h, hr, hw]

theorem replay_migrating (h : s.sh.importing slot = none)
    (hr : routeWithOwners s.sh slot = .here) (hm : s.sh.migrating slot = some dst)
    (hs : ∀ c ∈ queued, c.Steady) :
    (∀ x ∈ replay slot s queued, x = .ran) ↔ Found s.present queued := by
  induction queued generalizing s with
  | nil => simp [replay, Found]
  | cons c queued ih =>
    obtain ⟨hc, hs⟩ := forall_mem_cons.mp hs
    have hsh : (dispatch slot s c).2.sh = s.sh := hc.sh
    rw [replay, forall_mem_cons, ih (hsh ▸ h) (hsh ▸ hr) (hsh ▸ hm) hs, Found]
    cases hw : c.whitelisted <;> cases hp : s.present c.key <;>
      simp [dispatch, redirectLine, hc.handle, h, hr, hm, hw, hp]

theorem replay_here (h : s.sh.importing slot = none) (hr : routeWithOwners s.sh slot = .here)
    (hm : s.sh.migrating slot = none) (hs : ∀ c ∈ queued, c.Steady) :
    ∀ x ∈ replay slot s queued, x = .ran := by
  induction queued generalizing s with
  | nil => simp [replay]
  | cons c queued ih =>
    obtain ⟨hc, hs⟩ := forall_mem_cons.mp hs
    have hsh : (dispatch slot s c).2.sh = s.sh := hc.sh
    rw [replay, forall_mem_cons]
    refine ⟨?_, ih (hsh ▸ h) (hsh ▸ hr) (hsh ▸ hm) hs⟩
    cases hw : c.whitelisted <;> simp [dispatch, redirectLine, hc.handle, h, hr, hm, hw]

/-- EXEC runs all of its commands or none exactly when it is aborted or the slot serves all of them
or none: with an ASKING for each, with every key here, or with no command without a key. -/
theorem exec_whole_iff (slot : Nat) (dirty conflicted : Bool) (s : State) (queued : List Command)
    (hs : ∀ c ∈ queued, c.Steady) :
    Whole (run slot dirty conflicted s queued) ↔
      dirty ∨ conflicted ∨ Undivided slot s queued := by
  by_cases habort : (dirty || conflicted)
  · rw [run, if_pos habort, ← or_assoc, ← Bool.or_eq_true]
    exact iff_of_true (.inl nofun) (.inl habort)
  rw [run, if_neg habort, ← or_assoc, ← Bool.or_eq_true, or_iff_right habort, Whole,
    none_ran_iff hs, Undivided]
  cases hi : s.sh.importing slot with
  | some src =>
    rw [replay_importing hi hs]
    refine or_congr_right (forall₂_congr fun c _ => and_congr_right fun _ => ?_)
    cases s.asking <;> simp [redirectLine, hi]
  | none =>
    cases hr : routeWithOwners s.sh slot with
    | moved slot' addr =>
      rw [replay_moved hi hr hs]
      refine or_congr_right (forall₂_congr fun c _ => and_iff_left ?_)
      simp [redirectLine, hi, hr]
    | here =>
      cases hm : s.sh.migrating slot with
      | some dst =>
        rw [replay_migrating hi hr hm hs]
        refine or_congr_right (forall₂_congr fun c _ => and_congr_right fun _ => ?_)
        cases s.present c.key <;> simp [redirectLine, hi, hr, hm]
      | none => exact iff_of_true (.inl (replay_here hi hr hm hs)) trivial

/-- The node `a`, with slot 7 on its way to `b`. -/
def sampleMigrating : Shared where
  importing _ := none
  migrating slot := if slot = 7 then some "b" else none
  stableAddrs := ["a"]
  perNodeSlots := 16384
  ownerMap _ := none
  bind := "a"

def set (key : Bytes) : Command where
  whitelisted := false
  key := key
  effect present k := present k || k = key

/-- CLUSTER SETSLOT `slot` NODE `owner`. -/
def setslotNode (slot : Nat) (owner : String) : Command where
  whitelisted := true
  key := []
  retable sh := { sh with ownerMap := fun n => if n = slot then some owner else sh.ownerMap n }

/-- Both keys are still here. -/
theorem exec_whole_present :
    Whole (run 7 false false ⟨sampleMigrating, false, fun k => k = [0x61] || k = [0x62]⟩
      [set [0x61], set [0x62]]) :=
  (exec_whole_iff 7 false false _ _ (by simp [set, Command.Steady])).mpr
    (.inr (.inr (.inl (by simp [Found, set]))))

/-- A slot that leaves serves the keys that are still there, a slot that a node imports serves the
first command after ASKING, and a stable slot serves what is in front of a CLUSTER SETSLOT. -/
theorem exec_divided :
    run 7 false false ⟨sampleMigrating, false, fun k => k = [0x61]⟩ [set [0x61], set [0x62]] =
      [.ran, .redirected "ASK 7 b"] ∧
    run 7 false false ⟨{ sampleMigrating with importing := fun _ => some "c" }, true, fun _ => true⟩
        [set [0x61], set [0x62]] = [.ran, .redirected "MOVED 7 c"] ∧
    run 8 false false ⟨sampleMigrating, false, fun _ => false⟩
        [set [0x61], setslotNode 8 "b", set [0x62]] = [.ran, .ran, .redirected "MOVED 8 b"] := by
  decide +kernel

end Rdb.Multi.Redirect
