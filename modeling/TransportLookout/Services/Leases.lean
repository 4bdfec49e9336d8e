/-
Leasing work: the first half of `services.py`.

Every function is cut where another session can act in between.  A dispatch
counts the active shards, then locks and leases queued ones in a second
transaction step.  A publication pass loads its events, then handles them one at
a time with a commit after each.  A recovery loads the stale shards in one
statement and flushes them by primary key in a later one.
-/
import TransportLookout.Services.Runs

namespace TransportLookout

open Relational

/-- Why a request or a transaction has no effect. -/
inductive Failure
  | http (statusCode : Nat) (detail : String)
  | integrity
deriving DecidableEq, Repr

namespace Db

/-- `create_run`.  `shards` are the networks `shard_cidr` cuts the scope into, in
order, each with the id of its row. -/
def createRun (db : Db) (scope : InventoryScope) (profile : ScanProfile) (actor : String)
    (runId : Uuid) (shards : List (Uuid × String)) : Except Failure Db :=
  if !scope.approved then .error (.http 409 "inventory scope is not approved")
  else if scope.zone ≠ profile.zone then
    .error (.http 422 "profile and inventory scope must use the same worker zone")
  else
    let run : ScanRun :=
      { id := runId, inventoryScopeId := scope.id, profileId := profile.id, requestedBy := actor }
    let rows := shards.map fun shard =>
      { id := shard.1, runId := runId, cidr := shard.2, zone := scope.zone : ScanShard }
    match db.runs.append? [run], db.shards.append? rows with
    | some runs, some shards =>
      .ok ({ db with runs := runs, shards := shards }.audit actor "run.created" "scan_run" runId
        [("scope_id", .text scope.id), ("profile_id", .text profile.id)])
    | _, _ => .error .integrity

/-! ## Dispatch -/

def activeShards (db : Db) (runId : Uuid) : Nat :=
  db.shards.count fun s => s.runId = runId &&
    (s.status = .leased || s.status = .running)

/-- The concurrency budget left to the run, counted before any row is locked. -/
def dispatchCapacity (db : Db) (profile : ScanProfile) (runId : Uuid) : Nat :=
  profile.maxConcurrentShards - db.activeShards runId

/-- The queued shards whose backoff has passed, in CIDR order, at most `capacity`.
`FOR UPDATE SKIP LOCKED` holds them until the leases are committed. -/
def dispatchableShards (db : Db) (runId : Uuid) (now : DateTime) (capacity : Nat) :
    List ScanShard :=
  ((db.shards.select fun s => s.runId = runId && s.status = .queued &&
      (match s.retryNotBefore with
        | none => true
        | some t => t ≤ now)).insertionSort fun a b => a.cidr ≤ b.cidr).take capacity

def leaseShard (settings : Settings) (now : DateTime) (token : Uuid) (s : ScanShard) : ScanShard :=
  { s with
    status := .leased
    leaseToken := some token
    dispatchedAt := some now
    leaseExpiresAt := some (now + seconds settings.shardLeaseSeconds)
    retryNotBefore := none }

def leaseEvent (now : DateTime) (shardId token eventId : Uuid) : OutboxEvent :=
  { id := eventId, topic := "scan_shard", payload := ⟨shardId, some token⟩, createdAt := now }

/-- Lease the chosen shards and record one publish intent for each, in one commit. -/
def leaseShards (settings : Settings) (db : Db) (now : DateTime)
    (leases : List (Uuid × Uuid)) (eventIds : List Uuid) : Option Db :=
  (db.outbox.append? (leases.zipWith (fun l id => leaseEvent now l.1 l.2 id) eventIds)).map
    fun outbox =>
      { db with
        shards := db.shards.update
          (fun s => match leases.lookup s.id with
            | some token => leaseShard settings now token s
            | none => s)
          fun s => by split <;> rfl
        outbox := outbox }

/-! ## Publication -/

/-- The undelivered events a publisher loads, oldest first. -/
def pendingEvents (db : Db) (limit : Nat) : List OutboxEvent :=
  ((db.outbox.select fun e => e.deliveredAt.isNone).insertionSort
    fun a b => a.createdAt ≤ b.createdAt).take limit

end Db

/-- The event predates execution fencing: it carries no token. -/
def OutboxEvent.legacy (e : OutboxEvent) : Bool :=
  e.topic = "scan_shard" && e.payload.leaseToken.isNone

def OutboxEvent.superseded (e : OutboxEvent) (now : DateTime) : OutboxEvent :=
  { e with
    deliveredAt := some now
    lastError := some "superseded before execution fencing upgrade" }

def OutboxEvent.bound (e : OutboxEvent) (token : Uuid) : OutboxEvent :=
  { e with payload := { e.payload with leaseToken := some token } }

def OutboxEvent.sendFailed (e : OutboxEvent) (error : String) : OutboxEvent :=
  { e with attempts := e.attempts + 1, lastError := some error }

def OutboxEvent.delivered (e : OutboxEvent) (now : DateTime) : OutboxEvent :=
  { e with attempts := e.attempts + 1, deliveredAt := some now, lastError := none }

/-! ## Recovery -/

namespace Db

/-- Leases past their expiry and executions past their heartbeat. -/
def staleShards (settings : Settings) (db : Db) (now : DateTime) : List ScanShard :=
  db.shards.select fun s =>
    (s.status = .leased && isBefore s.leaseExpiresAt now) ||
      (s.status = .running &&
        isBefore s.heartbeatAt (now - seconds settings.shardLeaseSeconds))

end Db

def ScanShard.requeued (s : ScanShard) : ScanShard :=
  { s with
    status := .queued
    leaseToken := none
    leaseExpiresAt := none
    workerId := none
    heartbeatAt := none }

end TransportLookout
