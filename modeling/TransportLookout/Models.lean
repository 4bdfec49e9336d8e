/-
The rows of the control plane.

Each table of `models.py` that the verified code reads or writes is a structure
with the columns that code uses, under the column's name.  A nullable column is
an `Option`.  `Db` is the committed database: what a statement of any session
reads under READ COMMITTED, apart from that session's own open transaction.
-/
import TransportLookout.Library.Table

namespace TransportLookout

open Relational

abbrev Uuid := String

-- Instants and durations count microseconds.
abbrev DateTime := Int

def seconds (n : Int) : Int := n * 1000000

/-- `column < now` in SQL: NULL compares to nothing. -/
def isBefore (column : Option DateTime) (now : DateTime) : Bool :=
  match column with
  | some t => t < now
  | none => false

/-- The settings the lease protocol reads, with the defaults of `config.py`. -/
structure Settings where
  shardLeaseSeconds : Nat := 3600
  maxShardAttempts : Nat := 3

inductive RunStatus
  | queued | running | completed | failed | cancelled
deriving DecidableEq, Repr

inductive ShardStatus
  | queued | leased | running | completed | failed | cancelled | deadLetter
deriving DecidableEq, Repr

inductive ScannerMode
  | nmap | masscanThenNmap
deriving DecidableEq, Repr

structure InventoryScope where
  id : Uuid
  name : String := ""
  cidr : String
  zone : String := "default"
  approved : Bool := false
deriving DecidableEq, Repr

structure ScanProfile where
  id : Uuid
  name : String := ""
  version : Nat := 1
  ports : String := ""
  arguments : String := "-sV -n"
  maxRate : Int := 500
  scannerMode : ScannerMode := .nmap
  maxConcurrentShards : Nat := 4
  timeoutSeconds : Int := 1800
  zone : String := "default"
deriving DecidableEq, Repr

structure ScanRun where
  id : Uuid
  inventoryScopeId : Uuid
  profileId : Uuid
  status : RunStatus := .queued
  requestedBy : String
  startedAt : Option DateTime := none
  completedAt : Option DateTime := none
deriving DecidableEq, Repr

structure ScanShard where
  id : Uuid
  runId : Uuid
  cidr : String
  zone : String
  status : ShardStatus := .queued
  attempts : Nat := 0
  dispatchedAt : Option DateTime := none
  leaseExpiresAt : Option DateTime := none
  workerId : Option String := none
  heartbeatAt : Option DateTime := none
  retryNotBefore : Option DateTime := none
  leaseToken : Option Uuid := none
  artifactKey : Option String := none
  discoveryArtifactKey : Option String := none
  error : Option String := none
deriving DecidableEq, Repr

structure HostObservation where
  id : Uuid
  runId : Uuid
  shardId : Uuid
  leaseToken : Option Uuid := none
  address : String
  state : String
  hostname : Option String := none
deriving DecidableEq, Repr

structure ServiceObservation where
  id : Uuid
  hostObservationId : Uuid
  protocol : String
  port : Int
  state : String
  service : Option String := none
  product : Option String := none
  version : Option String := none
deriving DecidableEq, Repr

structure DiscoveryObservation where
  runId : Uuid
  shardId : Uuid
  leaseToken : Option Uuid := none
  address : String
  protocol : String
  port : Int
deriving DecidableEq, Repr

structure CurrentExposure where
  inventoryScopeId : Uuid
  profileId : Uuid
  latestRunId : Uuid
  zone : String
  address : String
  protocol : String
  port : Int
  service : Option String
  product : Option String
  version : Option String
  firstSeenAt : DateTime
  lastSeenAt : DateTime
  scanCount : Nat
deriving DecidableEq, Repr

inductive AuditValue
  | text (s : String)
  | number (n : Nat)
deriving DecidableEq, Repr

structure AuditEvent where
  actor : String
  action : String
  resourceType : String
  resourceId : String
  detail : List (String × AuditValue) := []
deriving DecidableEq, Repr

/-- The payload of an outbox event.  Events written before execution fencing
carry no token. -/
structure Payload where
  shardId : Uuid
  leaseToken : Option Uuid
deriving DecidableEq, Repr

structure OutboxEvent where
  id : Uuid
  topic : String
  payload : Payload
  createdAt : DateTime
  deliveredAt : Option DateTime := none
  attempts : Nat := 0
  lastError : Option String := none
deriving DecidableEq, Repr

/-! ## Keys

The two observation tables without a key of their own here are keyed by their
unique constraints, `uq_discovery_observation` and `uq_current_exposure`. -/

instance : Keyed InventoryScope Uuid := ⟨InventoryScope.id⟩
instance : Keyed ScanProfile Uuid := ⟨ScanProfile.id⟩
instance : Keyed ScanRun Uuid := ⟨ScanRun.id⟩
instance : Keyed ScanShard Uuid := ⟨ScanShard.id⟩
instance : Keyed HostObservation Uuid := ⟨HostObservation.id⟩
instance : Keyed ServiceObservation Uuid := ⟨ServiceObservation.id⟩
instance : Keyed OutboxEvent Uuid := ⟨OutboxEvent.id⟩

instance : Keyed DiscoveryObservation (Uuid × String × String × Int) :=
  ⟨fun o => (o.shardId, o.address, o.protocol, o.port)⟩

abbrev ServiceKey := String × String × Int

def CurrentExposure.serviceKey (e : CurrentExposure) : ServiceKey := (e.address, e.protocol, e.port)

abbrev Pair := Uuid × Uuid

def CurrentExposure.pair (e : CurrentExposure) : Pair := (e.inventoryScopeId, e.profileId)

def ScanRun.pair (r : ScanRun) : Pair := (r.inventoryScopeId, r.profileId)

instance : Keyed CurrentExposure (Pair × ServiceKey) := ⟨fun e => (e.pair, e.serviceKey)⟩

-- Membership in a list of pairs, and in a list of discovery keys, is decided by these.
instance : LawfulBEq (Uuid × Uuid) := inferInstance
instance : LawfulBEq (Uuid × String × String × Int) := inferInstance

@[simp] theorem key_scanRun (r : ScanRun) : Keyed.key r = r.id := rfl
@[simp] theorem key_currentExposure (r : CurrentExposure) :
    Keyed.key r = (r.pair, r.serviceKey) := rfl

structure Db where
  scopes : Table InventoryScope := .empty
  profiles : Table ScanProfile := .empty
  runs : Table ScanRun := .empty
  shards : Table ScanShard := .empty
  outbox : Table OutboxEvent := .empty
  hosts : Table HostObservation := .empty
  services : Table ServiceObservation := .empty
  discoveries : Table DiscoveryObservation := .empty
  exposures : Table CurrentExposure := .empty
  audits : List AuditEvent := []

/-! ## Flushing changed columns

A session flushes an object it loaded and changed with an UPDATE keyed by the
primary key alone, naming only the columns whose value changed. -/

def ScanRun.writeBack (loaded assigned current : ScanRun) : ScanRun :=
  { current with
    status := Relational.writeBack loaded.status assigned.status current.status
    startedAt := Relational.writeBack loaded.startedAt assigned.startedAt current.startedAt
    completedAt :=
      Relational.writeBack loaded.completedAt assigned.completedAt current.completedAt }

def ScanShard.writeBack (loaded assigned current : ScanShard) : ScanShard :=
  { current with
    status := Relational.writeBack loaded.status assigned.status current.status
    attempts := Relational.writeBack loaded.attempts assigned.attempts current.attempts
    dispatchedAt :=
      Relational.writeBack loaded.dispatchedAt assigned.dispatchedAt current.dispatchedAt
    leaseExpiresAt :=
      Relational.writeBack loaded.leaseExpiresAt assigned.leaseExpiresAt current.leaseExpiresAt
    workerId := Relational.writeBack loaded.workerId assigned.workerId current.workerId
    heartbeatAt := Relational.writeBack loaded.heartbeatAt assigned.heartbeatAt current.heartbeatAt
    retryNotBefore :=
      Relational.writeBack loaded.retryNotBefore assigned.retryNotBefore current.retryNotBefore
    leaseToken := Relational.writeBack loaded.leaseToken assigned.leaseToken current.leaseToken
    artifactKey := Relational.writeBack loaded.artifactKey assigned.artifactKey current.artifactKey
    discoveryArtifactKey := Relational.writeBack loaded.discoveryArtifactKey
      assigned.discoveryArtifactKey current.discoveryArtifactKey
    error := Relational.writeBack loaded.error assigned.error current.error }

def OutboxEvent.writeBack (loaded assigned current : OutboxEvent) : OutboxEvent :=
  { current with
    payload := Relational.writeBack loaded.payload assigned.payload current.payload
    deliveredAt := Relational.writeBack loaded.deliveredAt assigned.deliveredAt current.deliveredAt
    attempts := Relational.writeBack loaded.attempts assigned.attempts current.attempts
    lastError := Relational.writeBack loaded.lastError assigned.lastError current.lastError }

namespace Db

def flushRun (db : Db) (loaded assigned : ScanRun) : Db :=
  { db with runs := db.runs.modify loaded.id (ScanRun.writeBack loaded assigned) fun _ => rfl }

def flushShards (db : Db) (loaded : List ScanShard) (assign : ScanShard → ScanShard) : Db :=
  { db with
    shards := db.shards.update
      (fun r => match loaded.find? fun l => l.id = r.id with
        | some l => ScanShard.writeBack l (assign l) r
        | none => r)
      fun r => by split <;> rfl }

def flushEvent (db : Db) (loaded assigned : OutboxEvent) : Db :=
  { db with
    outbox := db.outbox.modify loaded.id (OutboxEvent.writeBack loaded assigned) fun _ => rfl }

def audit (db : Db) (actor action resourceType resourceId : String)
    (detail : List (String × AuditValue) := []) : Db :=
  { db with audits := db.audits ++ [{ actor, action, resourceType, resourceId, detail }] }

end Db

end TransportLookout
