/-
The gauges of `metrics.py`.

A scrape counts rows.  It reads the clock for each gauge that compares an instant, so the
readings may differ, and every query sees the database as it is at the time.
-/
import TransportLookout.Library.Partition
import TransportLookout.Services.Inventory
import TransportLookout.Services.Leases

namespace TransportLookout

open Relational

/-- The members of the class, in its order. -/
def runStatuses : List RunStatus := [.queued, .running, .completed, .failed, .cancelled]

def shardStatuses : List ShardStatus :=
  [.queued, .leased, .running, .completed, .failed, .cancelled, .deadLetter]

theorem mem_runStatuses (status : RunStatus) : status ∈ runStatuses := by
  cases status <;> decide

theorem mem_shardStatuses (status : ShardStatus) : status ∈ shardStatuses := by
  cases status <;> decide

/-- The readings of the clock, in the order of the queries. -/
structure Clock where
  workers : DateTime
  schedules : DateTime
  runs : DateTime

structure Gauges where
  runs : List (RunStatus × Nat)
  shards : List (ShardStatus × Nat)
  outboxPending : Nat
  staleWorkers : Nat
  currentExposures : Nat
  overdueSchedules : Nat
  staleRuns : Nat
deriving DecidableEq, Repr

def collectOperationalMetrics (settings : Settings) (runStaleSeconds : Nat) (db : Db)
    (schedules : Table ScanSchedule) (clock : Clock) : Gauges where
  runs := runStatuses.map fun status => (status, db.runs.count fun r => r.status = status)
  shards := shardStatuses.map fun status => (status, db.shards.count fun s => s.status = status)
  outboxPending := db.outbox.count fun e => e.deliveredAt.isNone
  staleWorkers := db.shards.count fun s =>
    s.status = .running && isBefore s.heartbeatAt
      (clock.workers - seconds settings.shardLeaseSeconds)
  currentExposures := db.exposures.rows.length
  overdueSchedules := schedules.count fun s => s.enabled && s.nextRunAt < clock.schedules
  staleRuns := db.runs.count fun r =>
    r.status = .running && isBefore r.startedAt (clock.runs - seconds runStaleSeconds)

/-! ## Series -/

section
variable (settings : Settings) (runStaleSeconds : Nat) (db : Db) (schedules : Table ScanSchedule)
  (clock : Clock)

theorem sum_runs :
    ((collectOperationalMetrics settings runStaleSeconds db schedules clock).runs.map
      Prod.snd).sum = db.runs.rows.length := by
  rw [collectOperationalMetrics, List.map_map]
  exact Partition.sum_countP (by decide) fun r _ => mem_runStatuses r.status

theorem sum_shards :
    ((collectOperationalMetrics settings runStaleSeconds db schedules clock).shards.map
      Prod.snd).sum = db.shards.rows.length := by
  rw [collectOperationalMetrics, List.map_map]
  exact Partition.sum_countP (by decide) fun r _ => mem_shardStatuses r.status

end

end TransportLookout
