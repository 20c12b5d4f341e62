import Rdb.Resp.Codec
import Rdb.Sql.Codec

/-!
# RESP connections

`handle_conn` appends every read to the buffer of the connection, refuses a
buffer over the cap of its trust level and serves all complete commands. Before
AUTH with the token of the cluster no command reaches `dispatch`, which stands
for the queueing of MULTI and `command::dispatch` over the state of the server
and of the connection. The output is everything written to the socket.
-/

namespace Rdb.Resp

open List Lib
open Sql (utf8)

variable {S S' : Type}

def appendString (out : Bytes) (s : String) : Bytes := out ++ 0x2b :: utf8 s ++ crlf

def appendError (out : Bytes) (msg : String) : Bytes := out ++ 0x2d :: utf8 msg ++ crlf

/-- Folds over the longer string, so that the time does not depend on the matching bytes. -/
def ctEq (a b : Bytes) : Bool :=
  let (short, long) := if a.length < b.length then (a, b) else (b, a)
  let diff := long.zipIdx.foldl (fun diff x => diff ||| (x.1 ^^^ short[x.2]?.getD 0)) 0
  a.length == b.length && diff == 0

/-- The state after a command, its reply, and whether to close the connection. -/
abbrev Dispatch (S : Type) := S → List Bytes → S × Bytes × Bool

structure Session (S : Type) where
  authed : Bool := false
  server : S
  out : Bytes := []
  deriving DecidableEq

/-- The session after `dispatch` has run the command. -/
def dispatched (dispatch : Dispatch S) (s : Session S) (argv : List Bytes) : Session S :=
  { s with
    server := (dispatch s.server argv).1
    out := s.out ++ (dispatch s.server argv).2.1 }

/-- The only command that is served before it has succeeded once. -/
def isAuth (token : Bytes) : List Bytes → Bool
  | [name, pass] => (name = utf8 "AUTH" ∨ name = utf8 "auth") ∧ ctEq pass token
  | _ => false

def processCommand (token : Bytes) (dispatch : Dispatch S) (s : Session S) (argv : List Bytes) :
    Session S × Bool :=
  if argv = [] then
    ({ s with out := appendError s.out "ERR wrong number of arguments for '' command" }, false)
  else if s.authed then (dispatched dispatch s argv, (dispatch s.server argv).2.2)
  else if isAuth token argv then
    ({ s with authed := true, out := appendString s.out "OK" }, false)
  else ({ s with out := appendError s.out "ERR: NOAUTH" }, false)

def maxConnBuf : Nat := 1024 * 1024 * 1024

def preauthMaxBuf : Nat := 64 * 1024

def tooBigCumulative : String := "Protocol error: too big cumulative request"

def handleConn (token : Bytes) (dispatch : Dispatch S) :
    Protocol UInt8 (List Bytes) (Session S) String where
  parse := parseCommand
  serve := processCommand token dispatch
  refuse s msg := { s with out := appendError s.out ("ERR " ++ msg) }
  cap s := if s.authed then maxConnBuf else preauthMaxBuf
  overflow := tooBigCumulative
  parse_nil := rfl
  shorter := parseCommand_shorter

/-- A connection after it has read `chunks`. -/
def served (token : Bytes) (dispatch : Dispatch S) (server : S)
    (chunks : List Bytes) : Conn UInt8 (Session S) String :=
  chunks.foldl (handleConn token dispatch).feed { state := { server } }

def OverSize (c : Conn UInt8 (Session S) String) : Prop :=
  c.status = .failed tooBigInline ∨ c.status = .failed tooBigCumulative
  deriving Decidable

variable {token : Bytes} {dispatch : Dispatch S}

/-- How the network cuts the stream of a client does not matter to the server, the replies or
the way the connection ends, unless a size limit ends it. -/
theorem served_independent_of_chunks (token : Bytes) (dispatch : Dispatch S) (server : S)
    (chunks chunks' : List Bytes)
    (heq : chunks.flatten = chunks'.flatten) (h : ¬OverSize (served token dispatch server chunks))
    (h' : ¬OverSize (served token dispatch server chunks')) :
    served token dispatch server chunks = served token dispatch server chunks' := by
  have hE : ∀ chunks, ¬OverSize (served token dispatch server chunks) → ∀ e,
      (served token dispatch server chunks).status = .failed e →
        e ≠ tooBigInline ∧ e ≠ tooBigCumulative := fun chunks h e he =>
    ⟨fun hi => h (.inl (hi ▸ he)), fun hc => h (.inr (hc ▸ he))⟩
  refine Protocol.run_eq_of_flatten_eq (E := fun e => e ≠ tooBigInline ∧ e ≠ tooBigCumulative)
    ?_ (fun hover => hover.2 rfl) heq (hE chunks h) (hE chunks' h')
  exact ⟨stable_parseCommand.ok, fun he hne => stable_parseCommand.error he hne.1⟩

theorem served_independent_of_chunks_ping :
    served [] (fun n _ => (n + 1, [], false)) 0 [[0x50, 0x49], [0x4e, 0x47, 0x0a]] =
      served [] (fun n _ => (n + 1, [], false)) 0 [[0x50, 0x49, 0x4e, 0x47, 0x0a]] :=
  served_independent_of_chunks _ _ _ _ _ rfl (by decide +kernel) (by decide +kernel)

/-- A client that has not authenticated leaves the server as it was, and what it reads does not
depend on the server. -/
theorem unauthenticated_isolated (token : Bytes) (dispatch : Dispatch S) (server : S)
    (dispatch' : Dispatch S') (server' : S') (chunks : List Bytes)
    (h : (served token dispatch server chunks).state.authed = false) :
    served token dispatch' server' chunks =
        (served token dispatch server chunks).map (fun s => ⟨s.authed, server', s.out⟩) ∧
      (served token dispatch server chunks).state.server = server := by
  have hmimics : ∀ {S' : Type} (dispatch' : Dispatch S') (server' : S'),
      (handleConn token dispatch).Mimics (handleConn token dispatch') (·.authed = false)
        fun s => ⟨s.authed, server', s.out⟩ := by
    intro S' dispatch' server'
    refine ⟨rfl, fun {s argv} hs => ?_, fun hs => ⟨hs, rfl⟩, fun _ => rfl, rfl⟩
    unfold handleConn processCommand at hs ⊢
    dsimp only at hs ⊢
    by_cases hnil : argv = []
    · simp_all
    · cases ha : s.authed
      · cases hauth : isAuth token argv <;> simp_all
      · simp [hnil, ha, dispatched] at hs
  obtain ⟨-, hrun⟩ := (hmimics dispatch' server').run h
  obtain ⟨-, hsame⟩ := (hmimics dispatch server).run h
  exact ⟨hrun, congrArg (·.state.server) hsame⟩

theorem unauthenticated_isolated_ping :
    served (utf8 "t") (fun n _ => (n + 1, [], false)) 1 [utf8 "PING\n", utf8 "AUTH x\n"] =
        (served (utf8 "t") (fun n _ => (n, [], true)) 0 [utf8 "PING\n", utf8 "AUTH x\n"]).map
          (fun s => ⟨s.authed, 1, s.out⟩) ∧
      (served (utf8 "t") (fun n _ => (n, [], true)) 0
        [utf8 "PING\n", utf8 "AUTH x\n"]).state.server = 0 :=
  unauthenticated_isolated _ _ _ _ _ _ (by decide +kernel)

/-! ## Pipelines -/

theorem ctEq_iff (a b : Bytes) : ctEq a b ↔ a = b := by
  have hfold : ∀ (l : List (UInt8 × Nat)) (d : UInt8),
      l.foldl (fun diff x => diff ||| (x.1 ^^^ b[x.2]?.getD 0)) d = 0 ↔
        d = 0 ∧ ∀ x ∈ l, x.1 = b[x.2]?.getD 0 := by
    intro l
    induction l with
    | nil => simp
    | cons x l ih =>
      intro d
      rw [foldl_cons, ih, UInt8.or_eq_zero_iff, UInt8.xor_eq_zero_iff, forall_mem_cons, and_assoc]
  by_cases hl : a.length = b.length
  · simp only [ctEq, hl, lt_irrefl, if_false, beq_self_eq_true, Bool.true_and, beq_iff_eq, hfold,
      true_and]
    refine ⟨fun h => ext_getElem hl fun i hi hi' => ?_, ?_⟩
    · simpa [hi'] using h (a[i], i) (mk_mem_zipIdx_iff_getElem?.mpr (by simp [hi]))
    · rintro rfl x hx
      simp [mem_zipIdx_iff_getElem?.mp hx]
  · simp only [ctEq, beq_false_of_ne hl, Bool.false_and, Bool.false_eq_true, false_iff]
    exact fun h => hl (congrArg length h)

theorem reads_command {argv : List Bytes} (h : Sendable argv)
    (hd : ∀ server, (dispatch server argv).2.2 = false) :
    (handleConn token dispatch).Reads (encodeCommand argv) argv where
  ok := parseCommand_encodeCommand h
  waits := parseCommand_waits h
  stays s := by
    unfold handleConn processCommand
    dsimp only
    split
    · rfl
    · split
      · exact hd s.server
      · split <;> rfl

theorem foldl_processCommand {cmds : List (List Bytes)} (h : ∀ argv ∈ cmds, argv ≠ [])
    (s : Session S) (ha : s.authed) :
    cmds.foldl (fun s argv => (processCommand token dispatch s argv).1) s =
      cmds.foldl (dispatched dispatch) s := by
  induction cmds generalizing s with
  | nil => rfl
  | cons argv cmds ih =>
    rw [forall_mem_cons] at h
    have hstep : (processCommand token dispatch s argv).1 = dispatched dispatch s argv := by
      unfold processCommand
      rw [if_neg h.1, if_pos ha]
    rw [foldl_cons, foldl_cons, hstep]
    exact ih h.2 _ ha

/-- A pipeline of AUTH and commands is dispatched command by command and answered in order,
however the network cuts it. -/
theorem pipeline_served (token : Bytes) (dispatch : Dispatch S) (server : S)
    (cmds : List (List Bytes)) (chunks : List Bytes)
    (hcmds : ∀ argv ∈ [utf8 "AUTH", token] :: cmds,
      argv ≠ [] ∧ Sendable argv ∧ ∀ server, (dispatch server argv).2.2 = false)
    (hsize : chunks.flatten.length ≤ preauthMaxBuf)
    (hchunks : chunks.flatten = ([utf8 "AUTH", token] :: cmds).flatMap encodeCommand) :
    served token dispatch server chunks =
      { state := cmds.foldl (dispatched dispatch)
          { authed := true, server, out := appendString [] "OK" } } := by
  have hrun : served token dispatch server chunks =
      { state := ([utf8 "AUTH", token] :: cmds).foldl
          (fun s argv => (processCommand token dispatch s argv).1) { server } } := by
    refine Protocol.run_words (fun argv hm => reads_command (hcmds argv hm).2.1 (hcmds argv hm).2.2)
      (fun s => ?_) rfl hchunks.symm
    rw [← hchunks]
    refine hsize.trans ?_
    simp only [handleConn]
    split <;> decide
  have hauth : (processCommand token dispatch { server } [utf8 "AUTH", token]).1 =
      { authed := true, server, out := appendString [] "OK" } := by
    simp [processCommand, isAuth, ctEq_iff]
  rw [hrun, foldl_cons, hauth, foldl_processCommand _ _ rfl]
  exact fun argv hm => (hcmds argv (mem_cons_of_mem _ hm)).1

theorem pipeline_served_ping :
    served (utf8 "t") (fun n _ => (n + 1, utf8 "+PONG", false)) 0
        ([[utf8 "AUTH", utf8 "t"], [utf8 "PING"], [utf8 "PING"]].map encodeCommand) =
      { state := { authed := true, server := 2, out := utf8 "+OK\r\n+PONG+PONG" } } :=
  (pipeline_served _ _ _ [[utf8 "PING"], [utf8 "PING"]] _
    (by simp only [implies_true, and_true]; decide +kernel) (by decide +kernel)
    (by decide +kernel)).trans (congrArg (Conn.mk [] · .reading) (by decide +kernel))

end Rdb.Resp
