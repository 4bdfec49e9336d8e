/-
Runs and the read model: the second half of `services.py`.

A function that a session runs inside its own transaction takes the database as
that transaction sees it, its own flushed rows included, and returns the
database its commit publishes.  No result is a violated unique constraint: the
flush raises and the transaction is rolled back.

`finalize_terminal_run` decides from three counting queries.  They are a value
of their own, `TerminalCounts`, because a transaction may be overtaken between
its queries and its commit; `finalizeTerminalRun` is the case where it is not.
-/
import TransportLookout.Models
import Mathlib.Data.List.Sort

namespace TransportLookout

open Relational

/-- The run statuses nothing may follow. -/
def RunStatus.terminal : RunStatus → Bool
  | .completed | .failed | .cancelled => true
  | .queued | .running => false

/-- `TERMINAL_SHARD_STATUSES`. -/
def ShardStatus.terminal : ShardStatus → Bool
  | .completed | .failed | .cancelled | .deadLetter => true
  | .queued | .leased | .running => false

/-- Held by a lease or by an execution. -/
def ShardStatus.inFlight : ShardStatus → Bool
  | .leased | .running => true
  | _ => false

theorem ShardStatus.inFlight_iff {status : ShardStatus} :
    status.inFlight = true ↔ status = .leased ∨ status = .running := by
  cases status <;> decide

/-- What the finalizer's queries return for a run. -/
structure TerminalCounts where
  pending : Nat
  failed : Nat
  incomplete : Nat
deriving DecidableEq, Repr

/-- What `finalize_terminal_run` returns: the session's copy of the run is not
terminal and no shard is pending. -/
def TerminalCounts.fires (counts : TerminalCounts) (run : ScanRun) : Bool :=
  !run.status.terminal && counts.pending = 0

/-- The run object after a finalization that fires. -/
def TerminalCounts.finalized (counts : TerminalCounts) (run : ScanRun) (now : DateTime) : ScanRun :=
  { run with
    status := if counts.failed ≠ 0 then .failed else .completed
    completedAt := some now }

namespace Db

/-! ## Finalization -/

/-- Shards of the run with discovery candidates and no Nmap artifact. -/
def incompleteDiscoveryShards (db : Db) (runId : Uuid) : Nat :=
  db.shards.count fun s => s.runId = runId && s.artifactKey.isNone &&
    (db.discoveries.rows.any fun o => o.shardId = s.id)

/-- The run's up hosts joined with their open services. -/
def openServices (db : Db) (runId : Uuid) : List (HostObservation × ServiceObservation) :=
  db.hosts.rows.flatMap fun host =>
    (db.services.rows.filter fun service =>
      service.hostObservationId = host.id && host.runId = runId &&
        host.state = "up" && service.state = "open").map fun service =>
          (host, service)

/-- The row a materialization of `run` inserts for one open service. -/
def exposureRow (db : Db) (scope : InventoryScope) (run : ScanRun) (observedAt : DateTime) :
    HostObservation × ServiceObservation → CurrentExposure
  | (host, service) =>
    let key := (host.address, service.protocol, service.port)
    let existing := (db.exposures.get (run.pair, key)).map fun item =>
      (item.firstSeenAt, item.scanCount)
    let (firstSeenAt, scanCount) := existing.getD (observedAt, 0)
    { inventoryScopeId := run.inventoryScopeId
      profileId := run.profileId
      latestRunId := run.id
      zone := scope.zone
      address := host.address
      protocol := service.protocol
      port := service.port
      service := service.service
      product := service.product
      version := service.version
      firstSeenAt := firstSeenAt
      lastSeenAt := observedAt
      scanCount := scanCount + 1 }

/-- Replace the rows of the run's scope and profile.  The replaced rows are read
before they are deleted, for their first-seen times and counts. -/
def materializeCurrentExposures (db : Db) (run : ScanRun) (now : DateTime) : Option Db :=
  match db.scopes.get run.inventoryScopeId with
  | none => some db
  | some scope =>
    let observedAt := run.completedAt.getD now
    let rows := (db.openServices run.id).map (db.exposureRow scope run observedAt)
    (db.exposures.delete fun e => e.pair = run.pair).append? rows |>.map fun exposures =>
      { db with exposures := exposures }

def terminalCounts (db : Db) (runId : Uuid) : TerminalCounts where
  pending := db.shards.count fun s => s.runId = runId && !s.status.terminal
  failed := db.shards.count fun s => s.runId = runId &&
    (s.status = .failed || s.status = .deadLetter)
  incomplete := db.incompleteDiscoveryShards runId

/-- The read model after a finalization, or the audit event that says why it was
left alone. -/
def refreshInventory (db : Db) (incomplete : Nat) (run : ScanRun) (actor : String)
    (now : DateTime) : Option Db :=
  if run.status ≠ .completed then some db
  else if incomplete = 0 then db.materializeCurrentExposures run now
  else some (db.audit actor "run.inventory_update_skipped" "scan_run" run.id
    [("reason", .text "incomplete_masscan_coverage"), ("shards", .number incomplete)])

def finalizeWith (db : Db) (counts : TerminalCounts) (run : ScanRun) (actor : String)
    (now : DateTime) : Option (Db × ScanRun) :=
  if counts.fires run then
    let run' := counts.finalized run now
    ((db.flushRun run run').refreshInventory counts.incomplete run' actor now).map fun db =>
      (db.audit actor "run.finalized" "scan_run" run.id, run')
  else some (db, run)

/-- A materialization writes the read model and nothing else. -/
theorem materialize_frame {db db' : Db} {run : ScanRun} {now : DateTime}
    (h : db.materializeCurrentExposures run now = some db') :
    db' = { db with exposures := db'.exposures } := by
  rw [materializeCurrentExposures] at h
  split at h
  · cases h
    rfl
  · obtain ⟨exposures, -, rfl⟩ := Option.map_eq_some_iff.mp h
    rfl

theorem refreshInventory_frame {db db' : Db} {incomplete : Nat} {run : ScanRun} {actor : String}
    {now : DateTime} (h : db.refreshInventory incomplete run actor now = some db') :
    db' = { db with exposures := db'.exposures, audits := db'.audits } := by
  rw [refreshInventory] at h
  split at h
  · cases h
    rfl
  · split at h
    · rw [materialize_frame h]
    · cases h
      rfl

/-- A finalization that does not fire changes nothing.  One that fires flushes
the run and writes the read model and the audit log, and nothing else. -/
theorem finalizeWith_spec {db db' : Db} {counts : TerminalCounts} {run run' : ScanRun}
    {actor : String} {now : DateTime}
    (h : db.finalizeWith counts run actor now = some (db', run')) :
    (counts.fires run = false ∧ db' = db ∧ run' = run) ∨
      (counts.fires run = true ∧ run' = counts.finalized run now ∧
        db' = { db.flushRun run run' with exposures := db'.exposures, audits := db'.audits }) := by
  rw [finalizeWith] at h
  by_cases hf : counts.fires run = true
  · right
    rw [if_pos hf] at h
    obtain ⟨db₁, h₁, h₂⟩ := Option.map_eq_some_iff.mp h
    cases h₂
    refine ⟨hf, rfl, ?_⟩
    rw [refreshInventory_frame h₁]
    rfl
  · left
    rw [if_neg hf] at h
    cases h
    exact ⟨Bool.eq_false_iff.mpr hf, rfl, rfl⟩

/-- Whether it fires or not, it writes runs, exposures and audit events only. -/
theorem finalizeWith_frame {db db' : Db} {counts : TerminalCounts} {run run' : ScanRun}
    {actor : String} {now : DateTime}
    (h : db.finalizeWith counts run actor now = some (db', run')) :
    db' = { db with runs := db'.runs, exposures := db'.exposures, audits := db'.audits } ∧
      run'.id = run.id := by
  rcases finalizeWith_spec h with ⟨-, rfl, rfl⟩ | ⟨-, rfl, hdb⟩
  · exact ⟨rfl, rfl⟩
  · refine ⟨?_, rfl⟩
    rw [hdb]
    rfl

def finalizeTerminalRun (db : Db) (run : ScanRun) (actor : String) (now : DateTime) :
    Option (Db × ScanRun) :=
  db.finalizeWith (db.terminalCounts run.id) run actor now

/-- The list a reconciliation pass loads. -/
def activeRuns (db : Db) : List ScanRun :=
  db.runs.select fun run => !run.status.terminal

/-- `reconcile_terminal_runs` in one transaction; `now` gives the time of each
finalization. -/
def reconcileTerminalRuns (db : Db) (now : Uuid → DateTime) : Option Db :=
  db.activeRuns.foldlM (fun db run =>
    (db.finalizeTerminalRun run "scheduler" (now run.id)).map Prod.fst) db

/-! ## Startup backfill -/

/-- Completed runs, the latest completion first. -/
def completedRuns (db : Db) : List ScanRun :=
  (db.runs.select fun run => run.status = .completed).insertionSort
    fun a b => b.completedAt.getD 0 ≤ a.completedAt.getD 0

/-- The loop of `backfill_current_exposures`; `seen` holds the pairs refreshed. -/
def backfillLoop (now : DateTime) : List ScanRun → List Pair → Db → Option Db
  | [], _, db => some db
  | run :: rest, seen, db =>
    if run.pair ∈ seen then backfillLoop now rest seen db
    else if db.incompleteDiscoveryShards run.id ≠ 0 then backfillLoop now rest seen db
    else (db.materializeCurrentExposures run now).bind (backfillLoop now rest (run.pair :: seen))

def backfillCurrentExposures (db : Db) (now : DateTime) : Option Db :=
  backfillLoop now db.completedRuns [] db

/-! ## Cancellation -/

/-- The shards `cancel_run` loads. -/
def cancellableShards (db : Db) (runId : Uuid) : List ScanShard :=
  db.shards.select fun s => s.runId = runId &&
    (s.status = .queued || s.status = .leased)

def cancelledRun (run : ScanRun) (now : DateTime) : ScanRun :=
  { run with status := .cancelled, completedAt := some now }

/-- The commit of `cancel_run`: the loaded run and shards are flushed by primary
key, whatever other sessions committed to those rows since the load. -/
def commitCancellation (db : Db) (run : ScanRun) (shards : List ScanShard) (actor : String)
    (now : DateTime) : Db :=
  ((db.flushRun run (cancelledRun run now)).flushShards shards
    fun s => { s with status := .cancelled }).audit actor "run.cancelled" "scan_run" run.id

end Db

end TransportLookout
