/-
The running system.

The state is the committed database, the tokens `uuid4` has handed out, the task
messages the broker has accepted, and every session in flight with what it has
loaded.  A step is one statement or one commit of one session.  A session that
stops taking steps has crashed: its transaction never commits.

A message accepted by the broker may be delivered at any later time, any number
of times and in any order, or never.

A reconciliation pass loads its runs in one step and finalizes each in a step of
its own.  A publisher that looks a shard up for a legacy event may be called from
a dispatch or a recovery that still references the shard; `lookupShard` is given
that copy, and no assumption is made on how old it is.
-/
import TransportLookout.Worker

namespace TransportLookout

open Relational

/-- Whose copy of the run `dispatch_available_shards` reads: a session that has
not loaded the run, the session that created it, or a worker's. -/
inductive Session
  | fresh
  | creator
  | worker (i : Nat)
deriving DecidableEq, Repr

structure Dispatch where
  runId : Uuid
  capacity : Nat
deriving DecidableEq, Repr

inductive PublishPhase
  | next
  | looked (shard : Option ScanShard)
  | sent
  | failed (error : String)
deriving DecidableEq, Repr

/-- A publication pass: the events still to handle, the current one first. -/
structure Publication where
  pending : List OutboxEvent
  phase : PublishPhase := .next
deriving DecidableEq, Repr

inductive CancelPhase
  | loaded
  | selected (shards : List ScanShard)
  | committed
deriving DecidableEq, Repr

/-- The shards a cancellation has loaded and not yet flushed. -/
def CancelPhase.shards : CancelPhase → List ScanShard
  | .selected shards => shards
  | _ => []

structure Cancellation where
  run : ScanRun
  actor : String
  phase : CancelPhase := .loaded
deriving DecidableEq, Repr

structure State where
  db : Db
  issued : List Uuid := []
  sent : List (Uuid × Uuid) := []
  executions : List Execution := []
  dispatches : List Dispatch := []
  publications : List Publication := []
  recoveries : List (List ScanShard) := []
  cancellations : List Cancellation := []
  reconciliations : List (List ScanRun) := []

inductive Action
  | createRun (scopeId profileId : Uuid) (actor : String) (runId : Uuid)
      (shards : List (Uuid × String))
  | countActive (session : Session) (runId : Uuid)
  | lease (p : Nat) (tokens eventIds : List Uuid) (now : DateTime)
  | loadEvents (limit : Nat)
  | lookupShard (p : Nat) (copy : Option ScanShard)
  | dropEvent (p : Nat) (now : DateTime)
  | bindToken (p : Nat) (token : Uuid)
  | sendTask (p : Nat) (error : Option String)
  | settleEvent (p : Nat) (now : DateTime)
  | loadStale (now : DateTime)
  | commitRecovery (p : Nat)
  | loadCancel (runId : Uuid) (actor : String)
  | selectCancel (p : Nat)
  | commitCancel (p : Nat) (now : DateTime)
  | loadActive
  | finalizeNext (p : Nat) (now : DateTime)
  | deliver (shardId token : Uuid) (workerId : String) (now : DateTime)
  | worker (i : Nat) (action : WorkerAction)
deriving DecidableEq, Repr

namespace State

def start (db : Db) : State := { db := db }

/-- The run a dispatch reads in its session. -/
def sessionRun (s : State) (runId : Uuid) : Session → Option ScanRun
  | .fresh => s.db.runs.get runId
  | .creator => (s.db.runs.get runId).map fun run => { run with status := .queued }
  | .worker i => (s.executions[i]?.bind Execution.run).filter fun run => run.id = runId

def step (settings : Settings) (s : State) : Action → Option State
  | .createRun scopeId profileId actor runId shards => do
    let scope ← s.db.scopes.get scopeId
    let profile ← s.db.profiles.get profileId
    match s.db.createRun scope profile actor runId shards with
    | .ok db => some { s with db := db }
    | .error _ => none
  | .countActive session runId => do
    let run ← s.sessionRun runId session
    if run.status.terminal then none
    else do
      let profile ← s.db.profiles.get run.profileId
      return { s with
        dispatches := s.dispatches ++ [⟨runId, s.db.dispatchCapacity profile runId⟩] }
  | .lease p tokens eventIds now => do
    let d ← s.dispatches[p]?
    let chosen := s.db.dispatchableShards d.runId now d.capacity
    if tokens.length = chosen.length ∧ eventIds.length = chosen.length ∧ tokens.Nodup ∧
        ∀ t ∈ tokens, t ∉ s.issued then do
      let db ← Db.leaseShards settings s.db now ((chosen.map ScanShard.id).zip tokens) eventIds
      return { s with
        db := db
        issued := s.issued ++ tokens
        dispatches := s.dispatches.set p { d with capacity := 0 } }
    else none
  | .loadEvents limit =>
    some { s with publications := s.publications ++ [{ pending := s.db.pendingEvents limit }] }
  | .lookupShard p copy => do
    let pub ← s.publications[p]?
    match pub.pending, pub.phase with
    | e :: _, .next =>
      -- `session.get` answers with the object the session already holds, if it holds one
      if e.legacy ∧ copy.all (fun shard => shard.id = e.payload.shardId) then
        some { s with
          publications := s.publications.set p
            { pub with phase := .looked (copy.or (s.db.shards.get e.payload.shardId)) } }
      else none
    | _, _ => none
  | .dropEvent p now => do
    let pub ← s.publications[p]?
    match pub.pending, pub.phase with
    | e :: rest, .looked shard =>
      if shard.all fun shard => shard.status ≠ .leased then
        some { s with
          db := s.db.flushEvent e (e.superseded now)
          publications := s.publications.set p { pending := rest } }
      else none
    | _, _ => none
  | .bindToken p token => do
    let pub ← s.publications[p]?
    match pub.pending, pub.phase with
    | e :: rest, .looked (some shard) =>
      if shard.status = .leased ∧ token ∉ s.issued then
        some { s with
          db := (s.db.flushShards [shard] fun shard =>
            { shard with leaseToken := some token }).flushEvent e (e.bound token)
          issued := s.issued ++ [token]
          publications := s.publications.set p { pending := e.bound token :: rest } }
      else none
    | _, _ => none
  | .sendTask p error => do
    let pub ← s.publications[p]?
    match pub.pending, pub.phase with
    | e :: _, .next =>
      if e.legacy then none
      else
        match error, e.payload.leaseToken with
        | none, some token =>
          some { s with
            sent := s.sent ++ [(e.payload.shardId, token)]
            publications := s.publications.set p { pub with phase := .sent } }
        | some error, _ =>
          some { s with publications := s.publications.set p { pub with phase := .failed error } }
        | none, none => none
    | _, _ => none
  | .settleEvent p now => do
    let pub ← s.publications[p]?
    match pub.pending, pub.phase with
    | e :: rest, .sent =>
      some { s with
        db := s.db.flushEvent e (e.delivered now)
        publications := s.publications.set p { pending := rest } }
    | e :: rest, .failed error =>
      some { s with
        db := s.db.flushEvent e (e.sendFailed error)
        publications := s.publications.set p { pending := rest } }
    | _, _ => none
  | .loadStale now =>
    some { s with recoveries := s.recoveries ++ [Db.staleShards settings s.db now] }
  | .commitRecovery p => do
    let stale ← s.recoveries[p]?
    return { s with
      db := s.db.flushShards stale ScanShard.requeued
      recoveries := s.recoveries.set p [] }
  | .loadCancel runId actor => do
    let run ← s.db.runs.get runId
    if run.status.terminal then none
    else some { s with cancellations := s.cancellations ++ [{ run := run, actor := actor }] }
  | .selectCancel p => do
    let c ← s.cancellations[p]?
    if c.phase = .loaded then
      some { s with
        cancellations := s.cancellations.set p
          { c with phase := .selected (s.db.cancellableShards c.run.id) } }
    else none
  | .commitCancel p now => do
    let c ← s.cancellations[p]?
    match c.phase with
    | .selected shards =>
      some { s with
        db := s.db.commitCancellation c.run shards c.actor now
        cancellations := s.cancellations.set p { c with phase := .committed } }
    | _ => none
  | .loadActive => some { s with reconciliations := s.reconciliations ++ [s.db.activeRuns] }
  | .finalizeNext p now => do
    let runs ← s.reconciliations[p]?
    match runs with
    | run :: rest => do
      let (db, _) ← s.db.finalizeTerminalRun run "scheduler" now
      return { s with db := db, reconciliations := s.reconciliations.set p rest }
    | [] => none
  | .deliver shardId token workerId now =>
    if (shardId, token) ∈ s.sent then
      match s.db.claimLease shardId token workerId now with
      | some db =>
        some { s with
          db := db
          executions := s.executions ++ [{ shardId := shardId, leaseToken := token }] }
      | none => some s
    else none
  | .worker i action => do
    let e ← s.executions[i]?
    let (db, e') ← e.step s.db settings action
    return { s with db := db, executions := s.executions.set i e' }

/-- Before the first request: no runs, and the scopes and profiles operators have set up. -/
def initial (scopes : Table InventoryScope) (profiles : Table ScanProfile) : State :=
  start { scopes := scopes, profiles := profiles }

end State

/-! ## A small deployment

One approved scope of two networks, scanned one shard at a time.  The scenarios
of later modules are put together from these pieces. -/

namespace Demo

def scopes : Table InventoryScope where
  rows := [{ id := "scope", cidr := "10.0.0.0/23", approved := true }]
  nodup := by decide

def profiles : Table ScanProfile where
  rows := [{ id := "profile", maxConcurrentShards := 1 }]
  nodup := by decide

def start : State := State.initial scopes profiles

def createRun : List Action :=
  [.createRun "scope" "profile" "operator" "run" [("s1", "10.0.0.0/24"), ("s2", "10.0.1.0/24")]]

/-- Dispatch `n` leases a shard under `token` and publishes it. -/
def dispatch (n : Nat) (token eventId : Uuid) (now : DateTime) : List Action :=
  [.countActive .fresh "run", .lease n [token] [eventId] now]

def publish (n : Nat) (now : DateTime) : List Action :=
  [.loadEvents 100, .sendTask n none, .settleEvent n now]

/-- Execution `i` from its claim to the commit that starts the scan. -/
def begin (i : Nat) (shardId token : Uuid) (now : DateTime) : List Action :=
  .deliver shardId token "worker" now ::
    [.loadShard, .loadRun, .clearServices, .clearHosts, .clearDiscoveries, .start now].map
      (Action.worker i)

/-- The scan of execution `i` ends and its results are confirmed. -/
def scan (i : Nat) : List Action :=
  [.exit, .recheck, .storeConfirmation, .confirm].map (Action.worker i)

def finish (i : Nat) (now : DateTime) : List Action :=
  [.finish now, .commitFinish now].map (Action.worker i)

def cancel (n : Nat) (now : DateTime) : List Action :=
  [.loadCancel "run" "operator", .selectCancel n, .commitCancel n now]

def running : List Action :=
  createRun ++ dispatch 0 "t1" "e1" 0 ++ publish 0 0 ++ begin 0 "s1" "t1" 0

end Demo

end TransportLookout
