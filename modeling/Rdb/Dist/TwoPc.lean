import Rdb.Dist.Plan
import Rdb.Dist.Recover

/-!
# The two-phase commit of a cluster

Every node has a store; a node runs the coordinator of the transactions it plans
and a recovery sweep over its own markers. The nodes exchange Prepare, Vote and
Decide messages, which may be delayed or never arrive, and ask each other for
outcomes. An action is the part of the program that runs without waiting: one
vote, one decision, one outcome write, one question of a sweep. A crash drops what
a node has in memory.

The cluster also carries its history: which transactions were started, what their
coordinators decided, which prepares were answered, which decisions were applied
to a staged slice and which outcome records were collected. No action reads it
except that transaction ids are not reused.
-/

namespace Rdb.Dist

open Lib Sql Tx Participant
open Function (update)

/-! ## Messages and tasks -/

structure PrepareReq where
  txnId : TxnId
  target : Addr
  /-- Where the participant asks for the outcome. -/
  coordinator : Addr
  commitTs : Nat
  readTs : Nat
  entries : List Entry

structure DecideReq where
  txnId : TxnId
  target : Addr
  commit : Bool
  indexOps : List WireOp

inductive Phase where
  /-- The prepare round; `waiting` for the reply of the first of `todo`. -/
  | preparing (todo : List (Addr × ParticipantPlan)) (waiting : Bool) (voted : List Addr)
      (veto : Option SqlError)
  /-- The decision goes out; `result` is what the client gets. -/
  | broadcasting (commit : Bool) (todo : List Addr) (result : Except SqlError Unit)

structure Run where
  node : Addr
  plan : CommitPlan
  phase : Phase

inductive Cause where
  /-- The node's own outcome record. -/
  | recorded
  /-- Another node's answer. -/
  | told
  /-- The lease ran out. -/
  | expired
  deriving DecidableEq

/-- A pass of the recovery sweep over the markers of a node. -/
inductive Sweep where
  | scanning (todo : List (TxnId × Marker))
  | asking (txnId : TxnId) (marker : Marker) (peers : List Addr) (definiteAbort : Bool)
      (todo : List (TxnId × Marker))
  | deciding (txnId : TxnId) (cause : Cause) (commit : Bool) (ops : List WireOp)
      (todo : List (TxnId × Marker))

structure Cluster where
  store : Addr → Store
  run : TxnId → Option Run
  sweep : Addr → Option Sweep
  prepares : List PrepareReq
  votes : List (TxnId × Addr × Vote)
  /-- Decides are retried, so a delivery does not remove one. -/
  decides : List DecideReq
  started : TxnId → Option (Addr × CommitPlan)
  verdict : TxnId → Option Bool
  prepared : List (TxnId × Addr)
  applied : List (TxnId × Addr × Bool)
  collected : List (TxnId × Addr)

structure Config where
  stableAddrs : List Addr
  /-- The HTTP address of a node; empty when it has not registered one. -/
  http : Addr → Addr

inductive Action where
  | start (node : Addr) (plan : CommitPlan)
  /-- The next participant of the prepare round, with or without a registered RPC address. -/
  | prepare (txnId : TxnId) (env : VoteEnv) (registered : Bool)
  | deliverPrepare (i : Nat) (env : VoteEnv)
  | collect (txnId : TxnId) (vote : Vote)
  | timeout (txnId : TxnId) (why : String)
  | decideAll (txnId : TxnId) (now : Nat) (persist : Except String Unit)
  | broadcast (txnId : TxnId) (now : Nat) (registered : Bool)
  | deliverDecide (i : Nat) (now : Nat)
  | crash (node : Addr)
  | sweep (node : Addr)
  | sweepNext (node : Addr)
  /-- The first peer is asked; a node that answers, or no answer. -/
  | sweepAsk (node : Addr) (answering : Option Addr)
  | sweepResolve (node : Addr) (now : Nat)
  | sweepDecide (node : Addr) (now : Nat)
  | sweepGc (node : Addr) (now : Nat)
  /-- Writes of the rest of the node. -/
  | localWrite (node : Addr) (ops : List WriteOp)

/-! ## Errors -/

def addrText (addr : Addr) : String := String.ofList (addr.map fun b => Char.ofNat b.toNat)

def mapVeto (reason : String) : SqlError :=
  if reason.startsWith "dup:" then .err .dupEntry reason else .err .writeConflict reason

def unreachablePeer (addr : Addr) (why : String) : SqlError :=
  let addr := addrText addr
  .err .writeConflict s!"2pc participant {addr} unreachable: {why}"

def spill (stage why : String) : SqlError := .err .writeConflict s!"2pc {stage} failed: {why}"

/-- The coordinator's view of the vote of its own slice. -/
def ownResult : Except String Vote → Except SqlError Unit
  | .ok .yes => .ok ()
  | .ok (.no reason) => .error (mapVeto reason)
  | .error e => .error (spill "prepare self" e)

def reply : Except String Vote → Vote
  | .ok vote => vote
  | .error e => .no s!"error: {e}"

def voteResult : Vote → Except SqlError Unit
  | .yes => .ok ()
  | .no reason => .error (mapVeto reason)

/-! ## Parts of a step -/

def CommitPlan.request (plan : CommitPlan) (addr : Addr) (pp : ParticipantPlan) : PrepareReq where
  txnId := plan.txnId
  target := addr
  coordinator := plan.coordinatorHttp
  commitTs := plan.commitTs
  readTs := plan.readTs
  entries := pp.entries

/-- The index writes the plan assigns to a participant. -/
def CommitPlan.opsFor (plan : CommitPlan) (addr : Addr) : List WireOp :=
  ((plan.participants.get addr).map (·.indexOps)).getD []

/-- The phase after the answer of `addr`: a veto does not end the round. -/
def noted (todo : List (Addr × ParticipantPlan)) (voted : List Addr) (veto : Option SqlError)
    (addr : Addr) : Except SqlError Unit → Phase
  | .ok () => .preparing todo false (voted ++ [addr]) veto
  | .error e => .preparing todo false voted (veto.or (some e))

/-- The peers a sweep asks, the coordinator first. -/
def inDoubtPeers (cfg : Config) (m : Marker) : List Addr :=
  cfg.stableAddrs.foldl (fun peers addr =>
    if !(cfg.http addr).isEmpty && !peers.contains (cfg.http addr) then
      peers ++ [cfg.http addr]
    else
      peers)
    [m.coordinator]

structure Decision where
  store : Store
  commit : Bool
  result : Except SqlError Unit

/-- The outcome record of the coordinator. A commit that cannot be recorded becomes an abort. -/
def decideOutcome (J : Serde) (store : Store) (txnId : TxnId) (plan : CommitPlan)
    (veto : Option SqlError) (now : Nat) : Except String Unit → Decision
  | .ok () =>
    let record := coordinatorOutcome now veto.isNone plan.commitTs
      (plan.participants.mapVal (·.indexOps))
    ⟨recordOutcome J store txnId record, veto.isNone, veto.elim (.ok ()) .error⟩
  | .error e =>
    ⟨store, false, .error (veto.getD (.err .writeConflict s!"sql2pc: outcome persist failed: {e}"))⟩

def afterVote (store : Store) : Except String (Vote × Store) → Store
  | .ok (_, after) => after
  | .error _ => store

namespace Cluster

def setStore (s : Cluster) (n : Addr) (store : Store) : Cluster :=
  { s with store := update s.store n store }

def setPhase (s : Cluster) (txnId : TxnId) (node : Addr) (plan : CommitPlan) (phase : Phase) :
    Cluster :=
  { s with run := update s.run txnId (some ⟨node, plan, phase⟩) }

def setSweep (s : Cluster) (n : Addr) (w : Option Sweep) : Cluster :=
  { s with sweep := update s.sweep n w }

variable (J : Serde)

def start (s : Cluster) (node : Addr) (plan : CommitPlan) : Cluster :=
  { s.setPhase plan.txnId node plan (.preparing plan.participants.entries false [] none) with
    started := update s.started plan.txnId (some (node, plan)) }

/-- The participant answers a prepare; a vote that fails writes nothing. -/
def voteAt (s : Cluster) (env : VoteEnv) (q : PrepareReq) (segments : List PendingSegment) :
    Cluster × Except String Vote :=
  let voted := vote J env (s.store q.target) q.txnId q.coordinator q.commitTs q.readTs q.entries
    segments
  ({ s with
      store := update s.store q.target (afterVote (s.store q.target) voted)
      prepared := (q.txnId, q.target) :: s.prepared },
    voted.map (·.1))

def decideAt (s : Cluster) (n : Addr) (txnId : TxnId) (commit : Bool) (ops : List WireOp)
    (now : Nat) : Cluster :=
  { s.setStore n (Participant.decide J now (s.store n) txnId n commit ops).1 with
    applied :=
      if (readMarker J (s.store n) txnId).isSome then (txnId, n, commit) :: s.applied
      else s.applied }

/-- The coordinator's decision goes out once its outcome is recorded. -/
def decideAll (s : Cluster) (txnId : TxnId) (node : Addr) (plan : CommitPlan) (voted : List Addr)
    (veto : Option SqlError) (now : Nat) (persist : Except String Unit) : Cluster :=
  let d := decideOutcome J (s.store node) txnId plan veto now persist
  { (s.setStore node d.store).setPhase txnId node plan (.broadcasting d.commit voted d.result) with
    verdict := update s.verdict txnId (some d.commit) }

def crash (s : Cluster) (n : Addr) : Cluster :=
  { s.setSweep n none with run := fun t => (s.run t).filter fun r => r.node ≠ n }

end Cluster

/-! ## Steps -/

variable (J : Serde) (cfg : Config)

/-- What the sweep makes of the answer to its question. -/
def hear (txnId : TxnId) (m : Marker) (peers : List Addr) (definiteAbort : Bool)
    (todo : List (TxnId × Marker)) : Option (Bool × List WireOp) → Sweep
  | some (true, ops) => .deciding txnId .told true ops todo
  | some (false, _) => .asking txnId m peers true todo
  | none => .asking txnId m peers definiteAbort todo

/-- The sweep of `n` up to its next wait, when it takes no decision. -/
def sweepMove (s : Cluster) (n : Addr) : Action → Option (Option Sweep)
  | .sweep _ => match s.sweep n with
    | none => some (some (.scanning (markers J (s.store n))))
    | some _ => none
  | .sweepNext _ => match s.sweep n with
    | some (.scanning ((t, m) :: todo)) => match readOutcome J (s.store n) t with
      | some rec => some (some (.deciding t .recorded rec.commit (replayOps n rec) todo))
      | none => some (some (.asking t m (inDoubtPeers cfg m) false todo))
    | _ => none
  | .sweepAsk _ answering => match s.sweep n with
    | some (.asking t m (peer :: peers) definiteAbort todo) => match answering with
      | none => some (some (hear t m peers definiteAbort todo none))
      | some x =>
        if cfg.http x = peer then
          some (some (hear t m peers definiteAbort todo
            (parseStatusBody J (statusBody J (s.store x) t n))))
        else none
    | _ => none
  | .sweepResolve _ now => match s.sweep n with
    | some (.asking t m [] definiteAbort todo) =>
      if definiteAbort then some (some (.deciding t .told false [] todo))
      else if leaseExpired now m then some (some (.deciding t .expired false [] todo))
      else some (some (.scanning todo))
    | _ => none
  | _ => none

def step (s : Cluster) : Action → Option Cluster
  | .start node plan => if (s.started plan.txnId).isSome then none else some (s.start node plan)
  | .prepare t env registered => match s.run t with
    | some ⟨node, plan, .preparing ((addr, pp) :: todo) false voted veto⟩ =>
      if addr = node then
        let (s', vote) := s.voteAt J env (plan.request addr pp) pp.segments
        some (s'.setPhase t node plan (noted todo voted veto addr (ownResult vote)))
      else if registered then
        some { s.setPhase t node plan (.preparing ((addr, pp) :: todo) true voted veto) with
          prepares := plan.request addr pp :: s.prepares }
      else
        some (s.setPhase t node plan
          (noted todo voted veto addr (.error (unreachablePeer addr "no sql_rpc registration"))))
    | _ => none
  | .deliverPrepare i env => match s.prepares[i]? with
    | some q =>
      -- segments do not travel
      let (s', vote) := { s with prepares := s.prepares.eraseIdx i }.voteAt J env q []
      some { s' with votes := (q.txnId, q.target, reply vote) :: s'.votes }
    | none => none
  | .collect t vote => match s.run t with
    | some ⟨node, plan, .preparing ((addr, _) :: todo) true voted veto⟩ =>
      if (t, addr, vote) ∈ s.votes then
        some (s.setPhase t node plan (noted todo voted veto addr (voteResult vote)))
      else none
    | _ => none
  | .timeout t why => match s.run t with
    | some ⟨node, plan, .preparing ((addr, _) :: todo) true voted veto⟩ =>
      some (s.setPhase t node plan (noted todo voted veto addr (.error (unreachablePeer addr why))))
    | _ => none
  | .decideAll t now persist => match s.run t with
    | some ⟨node, plan, .preparing [] _ voted veto⟩ =>
      some (s.decideAll J t node plan voted veto now persist)
    | _ => none
  | .broadcast t now registered => match s.run t with
    | some ⟨node, plan, .broadcasting commit (addr :: todo) result⟩ =>
      let next := s.setPhase t node plan (.broadcasting commit todo result)
      if addr = node then some (next.decideAt J node t commit (plan.opsFor addr) now)
      else if registered then
        some { next with decides := ⟨t, addr, commit, plan.opsFor addr⟩ :: s.decides }
      else some next
    | _ => none
  | .deliverDecide i now => match s.decides[i]? with
    | some d => some (s.decideAt J d.target d.txnId d.commit d.indexOps now)
    | none => none
  | .crash n => some (s.crash n)
  | .sweepDecide n now => match s.sweep n with
    | some (.deciding t _ commit ops todo) =>
      some ((s.setSweep n (some (.scanning todo))).decideAt J n t commit ops now)
    | _ => none
  | .sweepGc n now => match s.sweep n with
    | some (.scanning []) =>
      some { (s.setSweep n none).setStore n (gcOutcomes J now (s.store n)) with
        collected := (staleOutcomes J now (s.store n)).map (·, n) ++ s.collected }
    | _ => none
  | .localWrite n ops =>
    if Foreign ops then some (s.setStore n ((s.store n).write ops)) else none
  | .sweep n => (sweepMove J cfg s n (.sweep n)).map (s.setSweep n)
  | .sweepNext n => (sweepMove J cfg s n (.sweepNext n)).map (s.setSweep n)
  | .sweepAsk n answering => (sweepMove J cfg s n (.sweepAsk n answering)).map (s.setSweep n)
  | .sweepResolve n now => (sweepMove J cfg s n (.sweepResolve n now)).map (s.setSweep n)

def Cluster.init : Cluster where
  store _ := SortedMap.empty
  run _ := none
  sweep _ := none
  prepares := []
  votes := []
  decides := []
  started _ := none
  verdict _ := none
  prepared := []
  applied := []
  collected := []

end Rdb.Dist
