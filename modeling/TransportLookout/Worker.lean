/-
The worker: `worker.py`.

`execute_shard` is a session with a program counter.  The session caches its run
and shard objects across commits (`expire_on_commit=False`) and re-reads the run
only at `refresh`.  Rows it has added and not committed are kept in the
execution, and DELETE statements keep the keys they matched until the commit.

`finish_lease` and the heartbeat are compare-and-set UPDATEs.  A row such an
UPDATE matched stays locked until its transaction ends, so the commit that
follows is possible only while the row is still the one it matched.
-/
import TransportLookout.Services.Leases

namespace TransportLookout

open Relational

/-- What `finish_lease` writes besides clearing `worker_id` and `heartbeat_at`. -/
inductive Outcome
  | completed (artifactKey discoveryArtifactKey : Option String)
  | cancelled
  | failed
  | deadLetter (error : String)
  | retry (error : String) (retryNotBefore : DateTime)
deriving DecidableEq, Repr

def Outcome.status : Outcome → ShardStatus
  | .completed _ _ => .completed
  | .cancelled => .cancelled
  | .failed => .failed
  | .deadLetter _ => .deadLetter
  | .retry _ _ => .queued

def Outcome.values (s : ScanShard) : Outcome → ScanShard
  | .completed artifactKey discoveryArtifactKey =>
    { s with artifactKey := artifactKey, discoveryArtifactKey := discoveryArtifactKey }
  | .cancelled => { s with error := some "cancelled by operator" }
  | .failed => { s with error := some "scan profile missing" }
  | .deadLetter error => { s with error := some error }
  | .retry error retryNotBefore =>
    { s with error := some error, retryNotBefore := some retryNotBefore }

def ScanShard.finish (s : ScanShard) (o : Outcome) : ScanShard :=
  { o.values s with status := o.status, workerId := none, heartbeatAt := none }

def ScanShard.claimed (s : ScanShard) (workerId : String) (now : DateTime) : ScanShard :=
  { s with
    status := .running
    leaseExpiresAt := none
    workerId := some workerId
    heartbeatAt := some now
    attempts := s.attempts + 1 }

/-- The WHERE clause every lease UPDATE and the ownership query share. -/
def ScanShard.held (shardId token : Uuid) (status : ShardStatus) (s : ScanShard) : Bool :=
  s.id = shardId && s.status = status && s.leaseToken = some token

namespace Db

def claimLease (db : Db) (shardId token : Uuid) (workerId : String) (now : DateTime) : Option Db :=
  if db.shards.count (ScanShard.held shardId token .leased) = 1 then
    some { db with
      shards := db.shards.updateWhere (ScanShard.held shardId token .leased)
        (fun s => s.claimed workerId now) fun _ => rfl }
  else none

def currentLease (db : Db) (shardId token : Uuid) : Bool :=
  db.shards.rows.any (ScanShard.held shardId token .running)

/-- The database after a `finish_lease` that matched its row. -/
def finishLease (db : Db) (shardId token : Uuid) (o : Outcome) : Db :=
  { db with
    shards := db.shards.updateWhere (ScanShard.held shardId token .running)
      (fun s => s.finish o) fun s => by cases o <;> rfl }

def heartbeat (db : Db) (shardId token : Uuid) (now : DateTime) : Db :=
  { db with
    shards := db.shards.updateWhere (ScanShard.held shardId token .running)
      (fun s => { s with heartbeatAt := some now }) fun _ => rfl }

/-- `artifact_key`, for an execution that holds a token. -/
def artifactKey (runId shardId stage token : String) : String :=
  "runs/" ++ runId ++ "/shards/" ++ shardId ++ "/attempts/" ++ token ++ "/" ++ stage ++ ".xml"

end Db

inductive Stage
  | masscan | nmap
deriving DecidableEq, Repr

/-- Where an execution of `execute_shard` stands.  Between `polling` and
`confirmed` it is inside the `try` block. -/
inductive Pc
  | claimed
  | shardLoaded
  | loaded
  | servicesCleared
  | hostsCleared
  | cleared
  | polling (stage : Stage)
  | refreshed (stage : Stage)
  | owned (stage : Stage)
  | beating (stage : Stage) (beat : Option DateTime)
  | exited (stage : Stage)
  | recording (stage : Stage)
  | discovered
  | results
  | confirmed
  | failing (error : String)
  | finishing (outcome : Outcome) (counts : Option TerminalCounts)
  | finished (status : ShardStatus)
  | stopped
deriving DecidableEq, Repr

def Pc.inTry : Pc → Bool
  | .polling _ | .refreshed _ | .owned _ | .exited _ | .recording _ | .discovered | .results
  | .confirmed => true
  | _ => false

structure Execution where
  shardId : Uuid
  leaseToken : Uuid
  pc : Pc := .claimed
  shard : Option ScanShard := none
  run : Option ScanRun := none
  profile : Option ScanProfile := none
  cancelled : Bool := false
  discoveries : List DiscoveryObservation := []
  hosts : List HostObservation := []
  services : List ServiceObservation := []
  audits : List AuditEvent := []
  doomedServices : List Uuid := []
  doomedHosts : List Uuid := []
  doomedDiscoveries : List (Uuid × String × String × Int) := []
  artifactKey : Option String := none
  discoveryArtifactKey : Option String := none
deriving DecidableEq, Repr

inductive WorkerAction
  | loadShard
  | loadRun
  | abandon
  | clearServices
  | clearHosts
  | clearDiscoveries
  | start (now : DateTime)
  | refresh
  | checkLease
  | heartbeat (now : DateTime)
  | commitHeartbeat
  | exit
  | recheck
  | addDiscoveries (observations : List (String × String × Int))
  | storeDiscovery
  | addHost (host : HostObservation) (services : List ServiceObservation)
  | storeConfirmation
  | confirm
  | fail (error : String)
  | finish (now : DateTime)
  | countShards
  | commitFinish (now : DateTime)
deriving DecidableEq, Repr

namespace Execution

variable (db : Db) (e : Execution)

/-- The transaction is rolled back and the task returns. -/
def stop : Execution :=
  { e with pc := .stopped, discoveries := [], hosts := [], services := [], audits := [] }

def owns : Bool := db.currentLease e.shardId e.leaseToken

/-- The rows the session has pending, inserted by a flush. -/
def flush : Option Db := do
  let hosts ← db.hosts.append? e.hosts
  let services ← db.services.append? e.services
  let discoveries ← db.discoveries.append? e.discoveries
  return { db with
    hosts := hosts
    services := services
    discoveries := discoveries
    audits := db.audits ++ e.audits }

def flushed : Execution :=
  { e with discoveries := [], hosts := [], services := [], audits := [] }

/-- Lines 112 to 120: the run is cancelled or gone, or its profile is missing. -/
def abandonOutcome : Option Outcome :=
  match e.run with
  | none => some .cancelled
  | some run =>
    if run.status = .cancelled then some .cancelled
    else if e.profile.isNone then some .failed
    else none

/-- The transaction that starts the scan: the run is marked running and what
earlier attempts recorded for the shard is deleted. -/
def startCommit (run : ScanRun) (now : DateTime) : Db × ScanRun :=
  let run' := { run with status := .running, startedAt := some (run.startedAt.getD now) }
  ({ db.flushRun run run' with
    services := db.services.delete fun s => s.id ∈ e.doomedServices
    hosts := db.hosts.delete fun h => h.id ∈ e.doomedHosts
    discoveries := db.discoveries.delete fun o => Keyed.key o ∈ e.doomedDiscoveries }, run')

/-- The outcome `finish_lease` is called with, by the place it is called from. -/
def outcome (settings : Settings) (now : DateTime) : Option Outcome :=
  match e.pc with
  | .exited _ => if e.cancelled then some .cancelled else none
  | .confirmed => some (.completed e.artifactKey e.discoveryArtifactKey)
  | .failing error =>
    match e.shard with
    | some shard =>
      if shard.attempts ≥ settings.maxShardAttempts then some (.deadLetter error)
      else some (.retry error (now + seconds (2 ^ shard.attempts * 30)))
    | none => none
  | _ => none

/-- The stage a scan begins with, by the profile's scanner mode. -/
def firstStage : Stage :=
  match e.profile with
  | some profile => if profile.scannerMode = .masscanThenNmap then .masscan else .nmap
  | none => .nmap

/-- One statement or commit of an execution. -/
def step (settings : Settings) : WorkerAction → Option (Db × Execution)
  | .loadShard =>
    if e.pc = .claimed then
      match db.shards.get e.shardId with
      | some shard => some (db, { e with pc := .shardLoaded, shard := some shard })
      | none => some (db, e.stop)
    else none
  | .loadRun =>
    if e.pc = .shardLoaded then
      let run := e.shard.bind fun shard => db.runs.get shard.runId
      let profile := run.bind fun run => db.profiles.get run.profileId
      some (db, { e with pc := .loaded, run := run, profile := profile })
    else none
  | .abandon =>
    if e.pc = .loaded then
      match e.abandonOutcome with
      | some o =>
        if e.owns db then
          some (db.finishLease e.shardId e.leaseToken o, { e with pc := .finished o.status })
        else some (db, e.stop)
      | none => none
    else none
  | .clearServices =>
    if e.pc = .loaded ∧ e.abandonOutcome = none then
      let hostIds := (db.hosts.select fun h => h.shardId = e.shardId).map HostObservation.id
      let doomed := db.services.select fun s => s.hostObservationId ∈ hostIds
      some (db, { e with
        pc := .servicesCleared, doomedServices := doomed.map ServiceObservation.id })
    else none
  | .clearHosts =>
    if e.pc = .servicesCleared then
      let doomed := db.hosts.select fun h => h.shardId = e.shardId
      some (db, { e with pc := .hostsCleared, doomedHosts := doomed.map HostObservation.id })
    else none
  | .clearDiscoveries =>
    if e.pc = .hostsCleared then
      let doomed := db.discoveries.select fun o => o.shardId = e.shardId
      some (db, { e with pc := .cleared, doomedDiscoveries := doomed.map Keyed.key })
    else none
  | .start now =>
    match e.pc, e.run with
    | .cleared, some run =>
      let (db', run') := e.startCommit db run now
      some (db', { e with pc := .polling e.firstStage, run := some run' })
    | _, _ => none
  | .refresh =>
    match e.pc, e.run with
    | .polling stage, some run =>
      match db.runs.get run.id with
      | some current => some (db, { e with pc := .refreshed stage, run := some current })
      | none => none
    | _, _ => none
  | .checkLease =>
    match e.pc with
    | .refreshed stage => some (db, if e.owns db then { e with pc := .owned stage } else e.stop)
    | _ => none
  | .heartbeat now =>
    match e.pc with
    | .owned stage =>
      some (db, { e with pc := .beating stage (if e.owns db then some now else none) })
    | _ => none
  | .commitHeartbeat =>
    match e.pc, e.run with
    | .beating stage beat, some run =>
      let next : Execution :=
        if run.status = .cancelled then { e.flushed with pc := .exited stage, cancelled := true }
        else { e.flushed with pc := .polling stage }
      match beat with
      | some now =>
        if e.owns db then
          (e.flush (db.heartbeat e.shardId e.leaseToken now)).map fun db' => (db', next)
        else none
      | none => (e.flush db).map fun db' => (db', next)
    | _, _ => none
  | .exit =>
    match e.pc with
    | .polling stage => some (db, { e with pc := .exited stage })
    | _ => none
  | .recheck =>
    match e.pc with
    | .exited stage =>
      if e.cancelled then none
      else some (db, if e.owns db then { e with pc := .recording stage } else e.stop)
    | _ => none
  | .addDiscoveries observations =>
    match e.pc, e.run with
    | .recording .masscan, some run =>
      some (db, { e with
        pc := .discovered
        discoveries := e.discoveries ++ observations.map fun (address, protocol, port) =>
          { runId := run.id, shardId := e.shardId, leaseToken := some e.leaseToken,
            address, protocol, port } })
    | _, _ => none
  | .storeDiscovery =>
    match e.pc, e.run with
    | .discovered, some run =>
      let candidates := (e.discoveries.map DiscoveryObservation.address).dedup
      let completed : AuditEvent :=
        { actor := "worker", action := "shard.discovery.completed", resourceType := "scan_shard",
          resourceId := e.shardId,
          detail := [("candidates", .number candidates.length),
            ("open_ports", .number e.discoveries.length), ("scanner", .text "masscan")] }
      let skipped : AuditEvent :=
        { actor := "worker", action := "shard.confirmation.skipped", resourceType := "scan_shard",
          resourceId := e.shardId, detail := [("reason", .text "no_masscan_candidates")] }
      let key := Db.artifactKey run.id e.shardId "masscan" e.leaseToken
      if candidates = [] then
        some (db, { e with
          pc := .results, discoveryArtifactKey := some key,
          audits := e.audits ++ [completed, skipped] })
      else
        some (db, { e with
          pc := .polling .nmap, discoveryArtifactKey := some key,
          audits := e.audits ++ [completed] })
    | _, _ => none
  | .addHost host services =>
    match e.pc, e.run with
    | .recording .nmap, some run =>
      some (db, { e with
        hosts := e.hosts ++
          [{ host with runId := run.id, shardId := e.shardId, leaseToken := some e.leaseToken }]
        services := e.services ++
          services.map fun service => { service with hostObservationId := host.id } })
    | _, _ => none
  | .storeConfirmation =>
    match e.pc, e.run with
    | .recording .nmap, some run =>
      some (db, { e with
        pc := .results
        artifactKey := some (Db.artifactKey run.id e.shardId "nmap" e.leaseToken) })
    | _, _ => none
  | .confirm =>
    if e.pc = .results then
      some (db, if e.owns db then { e with pc := .confirmed } else e.stop)
    else none
  | .fail error =>
    if e.pc.inTry then some (db, { e with pc := .failing error }) else none
  | .finish now =>
    match e.outcome settings now with
    | some o => some (db, if e.owns db then { e with pc := .finishing o none } else e.stop)
    | none => none
  | .countShards =>
    match e.pc, e.run with
    | .finishing o none, some run =>
      (e.flush (db.finishLease e.shardId e.leaseToken o)).map fun db' =>
        (db, { e with pc := .finishing o (some (db'.terminalCounts run.id)) })
    | _, _ => none
  | .commitFinish now =>
    match e.pc, e.run with
    | .finishing o counts, some run =>
      if e.owns db then do
        let db ← e.flush (db.finishLease e.shardId e.leaseToken o)
        let (db, run') ← db.finalizeWith (counts.getD (db.terminalCounts run.id)) run "worker" now
        return (db, { e.flushed with pc := .finished o.status, run := some run' })
      else none
    | _, _ => none

/-! ## What a step can do

Four kinds of step commit.  Every other one leaves the database as it was.
`Commit` and `Move` list them, and what follows is derived from the two lists. -/

/-- The commits of an execution, with what each requires and publishes. -/
inductive Commit (db : Db) (e : Execution) : WorkerAction → Db → Execution → Prop
  | abandon {o} (hpc : e.pc = .loaded) (ho : e.abandonOutcome = some o) (howns : e.owns db = true) :
      Commit db e .abandon (db.finishLease e.shardId e.leaseToken o)
        { e with pc := .finished o.status }
  | start {run now} (hpc : e.pc = .cleared) (hrun : e.run = some run) :
      Commit db e (.start now) (e.startCommit db run now).1
        { e with pc := .polling e.firstStage, run := some (e.startCommit db run now).2 }
  | beat {stage now run db' e'} (hpc : e.pc = .beating stage (some now)) (hrun : e.run = some run)
      (howns : e.owns db = true)
      (hflush : e.flush (db.heartbeat e.shardId e.leaseToken now) = some db')
      (he : e' = { e.flushed with pc := e'.pc, cancelled := e'.cancelled })
      (hpc' : e'.pc = .exited stage ∧ e'.cancelled = true ∧ run.status = .cancelled ∨
        e'.pc = .polling stage ∧ e'.cancelled = e.cancelled) :
      Commit db e .commitHeartbeat db' e'
  | beatLost {stage run db' e'} (hpc : e.pc = .beating stage none) (hrun : e.run = some run)
      (hflush : e.flush db = some db')
      (he : e' = { e.flushed with pc := e'.pc, cancelled := e'.cancelled })
      (hpc' : e'.pc = .exited stage ∧ e'.cancelled = true ∧ run.status = .cancelled ∨
        e'.pc = .polling stage ∧ e'.cancelled = e.cancelled) :
      Commit db e .commitHeartbeat db' e'
  | finish {o counts run now db₁ db' run'} (hpc : e.pc = .finishing o counts)
      (hrun : e.run = some run) (howns : e.owns db = true)
      (hflush : e.flush (db.finishLease e.shardId e.leaseToken o) = some db₁)
      (hfin : db₁.finalizeWith (counts.getD (db₁.terminalCounts run.id)) run "worker" now =
        some (db', run')) :
      Commit db e (.commitFinish now) db'
        { e.flushed with pc := .finished o.status, run := some run' }

/-- The steps that commit nothing, with what each requires and leaves. -/
inductive Move (settings : Settings) (db : Db) (e : Execution) : WorkerAction → Execution → Prop
  | missing (hpc : e.pc = .claimed) (hshard : db.shards.get e.shardId = none) :
      Move settings db e .loadShard e.stop
  | lost {a} (howns : e.owns db = false) : Move settings db e a e.stop
  | loadShard {shard} (hpc : e.pc = .claimed) (hshard : db.shards.get e.shardId = some shard) :
      Move settings db e .loadShard { e with pc := .shardLoaded, shard := some shard }
  | loadRun {run} (hpc : e.pc = .shardLoaded)
      (hrun : run = e.shard.bind fun shard => db.runs.get shard.runId) :
      Move settings db e .loadRun { e with
        pc := .loaded
        run := run
        profile := run.bind fun run => db.profiles.get run.profileId }
  | clearServices {hostIds doomed} (hpc : e.pc = .loaded) (ho : e.abandonOutcome = none)
      (hhosts : hostIds = (db.hosts.select fun h => h.shardId = e.shardId).map HostObservation.id)
      (hdoomed : doomed = (db.services.select fun s => s.hostObservationId ∈ hostIds).map
        ServiceObservation.id) :
      Move settings db e .clearServices
        { e with pc := .servicesCleared, doomedServices := doomed }
  | clearHosts {doomed} (hpc : e.pc = .servicesCleared)
      (hdoomed : doomed = (db.hosts.select fun h => h.shardId = e.shardId).map
        HostObservation.id) :
      Move settings db e .clearHosts { e with pc := .hostsCleared, doomedHosts := doomed }
  | clearDiscoveries {doomed} (hpc : e.pc = .hostsCleared)
      (hdoomed : doomed = (db.discoveries.select fun o => o.shardId = e.shardId).map Keyed.key) :
      Move settings db e .clearDiscoveries { e with pc := .cleared, doomedDiscoveries := doomed }
  | refresh {stage run current} (hpc : e.pc = .polling stage) (hrun : e.run = some run)
      (hcurrent : db.runs.get run.id = some current) :
      Move settings db e .refresh { e with pc := .refreshed stage, run := some current }
  | checkLease {stage} (hpc : e.pc = .refreshed stage) (howns : e.owns db = true) :
      Move settings db e .checkLease { e with pc := .owned stage }
  | heartbeat {stage now} (hpc : e.pc = .owned stage) :
      Move settings db e (.heartbeat now)
        { e with pc := .beating stage (if e.owns db then some now else none) }
  | exit {stage} (hpc : e.pc = .polling stage) :
      Move settings db e .exit { e with pc := .exited stage }
  | recheck {stage} (hpc : e.pc = .exited stage) (hflag : e.cancelled = false)
      (howns : e.owns db = true) :
      Move settings db e .recheck { e with pc := .recording stage }
  | addDiscoveries {run observations rows} (hpc : e.pc = .recording .masscan)
      (hrun : e.run = some run)
      (hrows : rows = observations.map fun (address, protocol, port) =>
        { runId := run.id, shardId := e.shardId, leaseToken := some e.leaseToken,
          address, protocol, port }) :
      Move settings db e (.addDiscoveries observations)
        { e with pc := .discovered, discoveries := e.discoveries ++ rows }
  | storeDiscovery {run pc key events} (hpc : e.pc = .discovered) (hrun : e.run = some run)
      (hnext : if (e.discoveries.map DiscoveryObservation.address).dedup = [] then pc = .results
        else pc = .polling .nmap)
      (hkey : key = Db.artifactKey run.id e.shardId "masscan" e.leaseToken)
      (hevents : ∀ event ∈ events, event.action = "shard.discovery.completed" ∨
        event.action = "shard.confirmation.skipped") :
      Move settings db e .storeDiscovery
        { e with pc := pc, discoveryArtifactKey := some key, audits := e.audits ++ events }
  | addHost {run host services} (hpc : e.pc = .recording .nmap) (hrun : e.run = some run) :
      Move settings db e (.addHost host services) { e with
        hosts := e.hosts ++
          [{ host with runId := run.id, shardId := e.shardId, leaseToken := some e.leaseToken }]
        services := e.services ++
          services.map fun service => { service with hostObservationId := host.id } }
  | storeConfirmation {run key} (hpc : e.pc = .recording .nmap) (hrun : e.run = some run)
      (hkey : key = Db.artifactKey run.id e.shardId "nmap" e.leaseToken) :
      Move settings db e .storeConfirmation { e with pc := .results, artifactKey := some key }
  | confirm (hpc : e.pc = .results) (howns : e.owns db = true) :
      Move settings db e .confirm { e with pc := .confirmed }
  | fail {error} (htry : e.pc.inTry = true) :
      Move settings db e (.fail error) { e with pc := .failing error }
  | finish {now o} (ho : e.outcome settings now = some o) (howns : e.owns db = true) :
      Move settings db e (.finish now) { e with pc := .finishing o none }
  | countShards {o run db₁} (hpc : e.pc = .finishing o none) (hrun : e.run = some run)
      (hflush : e.flush (db.finishLease e.shardId e.leaseToken o) = some db₁) :
      Move settings db e .countShards
        { e with pc := .finishing o (some (db₁.terminalCounts run.id)) }

variable {settings : Settings} {db' : Db} {e' : Execution} {a : WorkerAction} {db e}

theorem step_start {now : DateTime} (h : e.step db settings (.start now) = some (db', e')) :
    Commit db e (.start now) db' e' := by
  simp only [step] at h
  split at h
  · next run hpc hrun =>
    cases h
    exact .start hpc hrun
  · cases h

theorem step_commitHeartbeat (h : e.step db settings .commitHeartbeat = some (db', e')) :
    Commit db e .commitHeartbeat db' e' := by
  simp only [step] at h
  split at h
  · next stage beat run hpc hrun =>
    have key : ∀ x : Execution, x = (if run.status = .cancelled then
          { e.flushed with pc := .exited stage, cancelled := true }
        else { e.flushed with pc := .polling stage }) →
        x = { e.flushed with pc := x.pc, cancelled := x.cancelled } ∧
          (x.pc = .exited stage ∧ x.cancelled = true ∧ run.status = .cancelled ∨
            x.pc = .polling stage ∧ x.cancelled = e.cancelled) := by
      rintro x rfl
      by_cases hc : run.status = .cancelled
      · rw [if_pos hc]
        exact ⟨rfl, Or.inl ⟨rfl, rfl, hc⟩⟩
      · rw [if_neg hc]
        exact ⟨rfl, Or.inr ⟨rfl, rfl⟩⟩
    split at h
    · next now =>
      split at h
      · next howns =>
        obtain ⟨db₁, hflush, heq⟩ := Option.map_eq_some_iff.mp h
        cases heq
        obtain ⟨he, hpc'⟩ := key _ rfl
        exact .beat hpc hrun howns hflush he hpc'
      · cases h
    · obtain ⟨db₁, hflush, heq⟩ := Option.map_eq_some_iff.mp h
      cases heq
      obtain ⟨he, hpc'⟩ := key _ rfl
      exact .beatLost hpc hrun hflush he hpc'
  · cases h

theorem step_commitFinish {now : DateTime}
    (h : e.step db settings (.commitFinish now) = some (db', e')) :
    Commit db e (.commitFinish now) db' e' := by
  simp only [step] at h
  split at h
  · next o counts run hpc hrun =>
    split at h
    · next howns =>
      obtain ⟨db₁, hflush, h⟩ := Option.bind_eq_some_iff.mp h
      obtain ⟨⟨db₂, run'⟩, hfin, h⟩ := Option.bind_eq_some_iff.mp h
      cases h
      exact .finish hpc hrun howns hflush hfin
    · cases h
  · cases h

/-- The last commit of an owner is what the finalizer makes of it. -/
theorem commitFinish_eq {db₁ : Db} {o : Outcome} {counts : Option TerminalCounts} {run : ScanRun}
    (hpc : e.pc = .finishing o counts) (hrun : e.run = some run) (howns : e.owns db = true)
    (hflush : e.flush (db.finishLease e.shardId e.leaseToken o) = some db₁) (now : DateTime) :
    e.step db settings (.commitFinish now) =
      (db₁.finalizeWith (counts.getD (db₁.terminalCounts run.id)) run "worker" now).map fun x =>
        (x.1, { e.flushed with pc := .finished o.status, run := some x.2 }) := by
  simp only [step, hpc, hrun, howns, if_true, hflush, Option.bind_eq_bind, Option.bind_some]
  cases db₁.finalizeWith (counts.getD (db₁.terminalCounts run.id)) run "worker" now with
  | none => rfl
  | some x => rfl

/-- A step that goes on only under the lease: it moves or it stops. -/
theorem Move.of_owns {next : Execution}
    (h : some (db, if e.owns db = true then next else e.stop) = some (db', e'))
    (hmove : e.owns db = true → Move settings db e a next) :
    db' = db ∧ Move settings db e a e' := by
  cases h
  by_cases howns : e.owns db = true
  · rw [if_pos howns]
    exact ⟨rfl, hmove howns⟩
  · rw [if_neg howns]
    exact ⟨rfl, .lost (Bool.eq_false_iff.mpr howns)⟩

/-- The two lists are complete. -/
theorem step_cases (h : e.step db settings a = some (db', e')) :
    (db' = db ∧ Move settings db e a e') ∨ Commit db e a db' e' := by
  cases a with
  | start now => exact Or.inr (step_start h)
  | commitHeartbeat => exact Or.inr (step_commitHeartbeat h)
  | commitFinish now => exact Or.inr (step_commitFinish h)
  | abandon =>
    simp only [step] at h
    split at h
    · next hpc =>
      split at h
      · next o ho =>
        split at h
        · next howns =>
          cases h
          exact Or.inr (.abandon hpc ho howns)
        · next hlost =>
          cases h
          exact Or.inl ⟨rfl, .lost (Bool.eq_false_iff.mpr hlost)⟩
      · cases h
    · cases h
  | loadShard =>
    left
    simp only [step] at h
    split at h
    · next hpc =>
      split at h
      · next shard hshard =>
        cases h
        exact ⟨rfl, .loadShard hpc hshard⟩
      · next hshard =>
        cases h
        exact ⟨rfl, .missing hpc hshard⟩
    · cases h
  | loadRun =>
    left
    simp only [step] at h
    split at h
    · next hpc =>
      cases h
      exact ⟨rfl, .loadRun hpc rfl⟩
    · cases h
  | clearServices =>
    left
    simp only [step] at h
    split at h
    · next hpc =>
      cases h
      exact ⟨rfl, .clearServices hpc.1 hpc.2 rfl rfl⟩
    · cases h
  | clearHosts =>
    left
    simp only [step] at h
    split at h
    · next hpc =>
      cases h
      exact ⟨rfl, .clearHosts hpc rfl⟩
    · cases h
  | clearDiscoveries =>
    left
    simp only [step] at h
    split at h
    · next hpc =>
      cases h
      exact ⟨rfl, .clearDiscoveries hpc rfl⟩
    · cases h
  | refresh =>
    left
    simp only [step] at h
    split at h
    · next stage run hpc hrun =>
      split at h
      · next current hcurrent =>
        cases h
        exact ⟨rfl, .refresh hpc hrun hcurrent⟩
      · cases h
    · cases h
  | checkLease =>
    left
    simp only [step] at h
    split at h
    · next stage hpc => exact Move.of_owns h (.checkLease hpc)
    · cases h
  | heartbeat now =>
    left
    simp only [step] at h
    split at h
    · next stage hpc =>
      cases h
      exact ⟨rfl, .heartbeat hpc⟩
    · cases h
  | exit =>
    left
    simp only [step] at h
    split at h
    · next stage hpc =>
      cases h
      exact ⟨rfl, .exit hpc⟩
    · cases h
  | recheck =>
    left
    simp only [step] at h
    split at h
    · next stage hpc =>
      split at h
      · cases h
      · next hflag => exact Move.of_owns h (.recheck hpc (Bool.eq_false_iff.mpr hflag))
    · cases h
  | addDiscoveries observations =>
    left
    simp only [step] at h
    split at h
    · next run hpc hrun =>
      cases h
      exact ⟨rfl, .addDiscoveries hpc hrun rfl⟩
    · cases h
  | storeDiscovery =>
    left
    simp only [step] at h
    split at h
    · next run hpc hrun =>
      split at h
      · next hnone =>
        cases h
        refine ⟨rfl, .storeDiscovery hpc hrun (by rw [if_pos hnone]) rfl ?_⟩
        intro event hevent
        rcases List.mem_cons.mp hevent with rfl | hevent
        · exact Or.inl rfl
        · cases List.mem_singleton.mp hevent
          exact Or.inr rfl
      · next hsome =>
        cases h
        refine ⟨rfl, .storeDiscovery hpc hrun (by rw [if_neg hsome]) rfl ?_⟩
        intro event hevent
        cases List.mem_singleton.mp hevent
        exact Or.inl rfl
    · cases h
  | addHost host services =>
    left
    simp only [step] at h
    split at h
    · next run hpc hrun =>
      cases h
      exact ⟨rfl, .addHost hpc hrun⟩
    · cases h
  | storeConfirmation =>
    left
    simp only [step] at h
    split at h
    · next run hpc hrun =>
      cases h
      exact ⟨rfl, .storeConfirmation hpc hrun rfl⟩
    · cases h
  | confirm =>
    left
    simp only [step] at h
    split at h
    · next hpc => exact Move.of_owns h (.confirm hpc)
    · cases h
  | fail error =>
    left
    simp only [step] at h
    split at h
    · next htry =>
      cases h
      exact ⟨rfl, .fail htry⟩
    · cases h
  | finish now =>
    left
    simp only [step] at h
    split at h
    · next o ho => exact Move.of_owns h (.finish ho)
    · cases h
  | countShards =>
    left
    simp only [step] at h
    split at h
    · next o run hpc hrun =>
      obtain ⟨db₁, hflush, heq⟩ := Option.map_eq_some_iff.mp h
      cases heq
      exact ⟨rfl, .countShards hpc hrun hflush⟩
    · cases h

/-- An execution keeps the shard and the token it claimed. -/
theorem step_lease (h : e.step db settings a = some (db', e')) :
    e'.shardId = e.shardId ∧ e'.leaseToken = e.leaseToken := by
  rcases step_cases h with ⟨-, hmove⟩ | hc
  · cases hmove <;> exact ⟨rfl, rfl⟩
  · cases hc with
    | abandon | start | finish => exact ⟨rfl, rfl⟩
    | beat _ _ _ _ he _ =>
      rw [he]
      exact ⟨rfl, rfl⟩
    | beatLost _ _ _ he _ =>
      rw [he]
      exact ⟨rfl, rfl⟩

theorem flush_frame {db db' : Db} {e : Execution} (h : e.flush db = some db') :
    ∃ hosts services discoveries, db.hosts.append? e.hosts = some hosts ∧
      db.services.append? e.services = some services ∧
      db.discoveries.append? e.discoveries = some discoveries ∧
      db' = { db with
        hosts := hosts
        services := services
        discoveries := discoveries
        audits := db.audits ++ e.audits } := by
  rw [flush] at h
  obtain ⟨hosts, hh, h⟩ := Option.bind_eq_some_iff.mp h
  obtain ⟨services, hs, h⟩ := Option.bind_eq_some_iff.mp h
  obtain ⟨discoveries, hd, h⟩ := Option.bind_eq_some_iff.mp h
  cases h
  exact ⟨hosts, services, discoveries, hh, hs, hd, rfl⟩

/-- What a step does to the cached objects and to the outcome.  A field left out
when the structure is built says that the step keeps them. -/
structure Change (settings : Settings) (db : Db) (e : Execution) (a : WorkerAction)
    (e' : Execution) : Prop where
  shard : e'.shard = e.shard ∨
    (a = .loadShard ∧ e.pc = .claimed ∧ e'.run = e.run ∧
      e'.shard = db.shards.get e.shardId) := by exact Or.inl rfl
  /-- Which steps lead to the first program points. -/
  claimed : e'.pc ≠ .claimed := by
    intro h
    cases h
  shardLoaded : e'.pc = .shardLoaded → e'.shard.isSome = true := by
    intro h
    cases h
  loaded : e'.pc = .loaded → e.pc = .shardLoaded ∧
      e'.run = e.shard.bind fun shard => db.runs.get shard.runId := by
    intro h
    cases h
  run : e'.run = e.run ∨
    (a = .loadRun ∧ e'.run = e.shard.bind fun shard => db.runs.get shard.runId) ∨
    (a = .refresh ∧ ∃ run current, e.run = some run ∧ db.runs.get run.id = some current ∧
      e'.run = some current) ∨
    (∃ now run, a = .start now ∧ e.run = some run ∧
      e'.run = some (e.startCommit db run now).2) ∨
    ∃ now run run', a = .commitFinish now ∧ e.run = some run ∧ e'.run = some run' ∧
      run'.id = run.id ∧ (run'.status = .cancelled → run.status = .cancelled) := by
    exact Or.inl rfl
  cancelled : e'.cancelled = e.cancelled ∨
    (a = .commitHeartbeat ∧ e'.cancelled = true ∧ ∃ run, e.run = some run ∧
      run.status = .cancelled) := by exact Or.inl rfl
  audits : ∀ event ∈ e'.audits, event ∈ e.audits ∨
    event.action = "shard.discovery.completed" ∨
    event.action = "shard.confirmation.skipped" := by
    intro event h
    first | exact Or.inl h | cases h
  finishing : ∀ o counts, e'.pc = .finishing o counts →
    e'.shard = e.shard ∧ e'.cancelled = e.cancelled ∧
      ((a = .countShards ∧ e.pc = .finishing o none) ∨
        ∃ now, a = .finish now ∧ e.outcome settings now = some o ∧ counts = none) := by
    intro o counts h
    cases h

/-- The commit after a heartbeat goes back to the scan or leaves it cancelled. -/
theorem Change.beat {db : Db} {e e' : Execution} {stage : Stage} {run : ScanRun}
    (hrun : e.run = some run)
    (he : e' = { e.flushed with pc := e'.pc, cancelled := e'.cancelled })
    (hpc : e'.pc = .exited stage ∧ e'.cancelled = true ∧ run.status = .cancelled ∨
      e'.pc = .polling stage ∧ e'.cancelled = e.cancelled) :
    Change settings db e .commitHeartbeat e' := by
  have hnot : ∀ {pc : Pc} {P : Prop}, e'.pc = pc → pc ≠ .exited stage → pc ≠ .polling stage →
      P := by
    intro pc P heq hexited hpolling
    rcases hpc with ⟨h, -⟩ | ⟨h, -⟩
    · exact absurd (heq.symm.trans h) hexited
    · exact absurd (heq.symm.trans h) hpolling
  refine ⟨Or.inl (by rw [he]; rfl), fun h => hnot h nofun nofun, fun h => hnot h nofun nofun,
    fun h => hnot h nofun nofun, Or.inl (by rw [he]; rfl), ?_, ?_,
    fun o counts h => hnot h nofun nofun⟩
  · rcases hpc with ⟨-, hcancelled, hstatus⟩ | ⟨-, hsame⟩
    · exact Or.inr ⟨rfl, hcancelled, run, hrun, hstatus⟩
    · exact Or.inl hsame
  · intro event hevent
    rw [he] at hevent
    cases hevent

theorem step_change {db db' : Db} {e e' : Execution} {a : WorkerAction}
    (h : e.step db settings a = some (db', e')) : Change settings db e a e' := by
  rcases step_cases h with ⟨-, hmove⟩ | hc
  · cases hmove with
    | loadShard hpc hshard =>
      exact { shard := Or.inr ⟨rfl, hpc, rfl, hshard.symm⟩, shardLoaded := fun _ => rfl }
    | loadRun hpc hrun =>
      exact { run := Or.inr (Or.inl ⟨rfl, hrun⟩), loaded := fun _ => ⟨hpc, hrun⟩ }
    | refresh hpc hrun hcurrent =>
      exact { run := Or.inr (Or.inr (Or.inl ⟨rfl, _, _, hrun, hcurrent, rfl⟩)) }
    | @storeDiscovery _ pc _ _ _ _ hnext _ hevents =>
      have hpc : pc = .results ∨ pc = .polling .nmap := by
        split at hnext
        · exact Or.inl hnext
        · exact Or.inr hnext
      have haudits : ∀ event ∈ e.audits ++ _, event ∈ e.audits ∨ _ := fun event hevent =>
        (List.mem_append.mp hevent).imp id (hevents event)
      rcases hpc with rfl | rfl
      · exact { audits := haudits }
      · exact { audits := haudits }
    | addHost hpc _ =>
      refine ⟨Or.inl rfl, ?_, ?_, ?_, Or.inl rfl, Or.inl rfl, fun _ h => Or.inl h, ?_⟩
      · intro h
        rw [hpc] at h
        cases h
      · intro h
        rw [hpc] at h
        cases h
      · intro h
        rw [hpc] at h
        cases h
      · intro o counts h
        rw [hpc] at h
        cases h
    | finish ho _ =>
      refine { finishing := fun o' counts' hfin => ?_ }
      cases hfin
      exact ⟨rfl, rfl, Or.inr ⟨_, rfl, ho, rfl⟩⟩
    | countShards hpc _ _ =>
      refine { finishing := fun o' counts' hfin => ?_ }
      cases hfin
      exact ⟨rfl, rfl, Or.inl ⟨rfl, hpc⟩⟩
    | _ => exact {}
  · cases hc with
    | abandon => exact {}
    | @start run now hpc hrun =>
      exact { run := Or.inr (Or.inr (Or.inr (Or.inl ⟨now, run, rfl, hrun, rfl⟩))) }
    | beat _ hrun _ _ he hpc => exact .beat hrun he hpc
    | beatLost _ hrun _ he hpc => exact .beat hrun he hpc
    | @finish _ _ run now _ _ run' _ hrun _ _ hfin =>
      have hid : run'.id = run.id ∧ (run'.status = .cancelled → run.status = .cancelled) := by
        rcases Db.finalizeWith_spec hfin with ⟨-, -, rfl⟩ | ⟨-, rfl, -⟩
        · exact ⟨rfl, id⟩
        · refine ⟨rfl, fun h => ?_⟩
          rw [TerminalCounts.finalized] at h
          dsimp only at h
          split at h <;> cases h
      exact { run := Or.inr (Or.inr (Or.inr (Or.inr ⟨now, run, run', rfl, hrun, rfl, hid⟩))) }

/-- Once a run is loaded, the cached shard stays what it is. -/
theorem Change.shard_kept {db : Db} {e e' : Execution} {a : WorkerAction}
    (hchange : Change settings db e a e') (hclaimed : e.pc = .claimed → e.run = none)
    {run : ScanRun} (hrun : e.run = some run) : e'.shard = e.shard := by
  rcases hchange.shard with hsame | ⟨-, hpc, -, -⟩
  · exact hsame
  · rw [hclaimed hpc] at hrun
    cases hrun

/-- The run in the cache belongs to the shard in the cache. -/
theorem Change.run_of_shard {db : Db} {e e' : Execution} {a : WorkerAction}
    (hchange : Change settings db e a e') (hclaimed : e.pc = .claimed → e.run = none)
    (hpair : ∀ run, e.run = some run → ∃ l, e.shard = some l ∧ run.id = l.runId)
    {run : ScanRun} (hrun : e'.run = some run) :
    ∃ l, e'.shard = some l ∧ run.id = l.runId := by
  have hold : ∀ {run₀ : ScanRun}, e.run = some run₀ → run.id = run₀.id →
      ∃ l, e'.shard = some l ∧ run.id = l.runId := by
    intro run₀ hrun₀ hid
    obtain ⟨l, hl, hlrun⟩ := hpair run₀ hrun₀
    exact ⟨l, (hchange.shard_kept hclaimed hrun₀).trans hl, hid.trans hlrun⟩
  rcases hchange.run with hsame | ⟨rfl, hload⟩ | ⟨-, run₀, current, hrun₀, hcurrent, hload⟩ |
    ⟨now, run₀, -, hrun₀, hstart⟩ | ⟨_, run₀, run', -, hrun₀, hrun', hid, -⟩
  · exact hold (hsame ▸ hrun) rfl
  · rw [hload] at hrun
    obtain ⟨l, hl, hget⟩ := Option.bind_eq_some_iff.mp hrun
    rcases hchange.shard with hsame | ⟨ha, -, -, -⟩
    · exact ⟨l, hsame.trans hl, Table.get_key hget⟩
    · cases ha
  · rw [hload] at hrun
    cases hrun
    exact hold hrun₀ (Table.get_key hcurrent)
  · rw [hstart] at hrun
    cases hrun
    exact hold hrun₀ rfl
  · rw [hrun'] at hrun
    cases hrun
    exact hold hrun₀ hid

/-! ## Outcomes -/

/-- What `execute_shard` puts back in the queue has attempts left. -/
theorem outcome_retry {o : Outcome} {now : DateTime}
    (h : e.outcome settings now = some o) (ho : o.status = .queued) :
    ∃ l, e.shard = some l ∧ l.attempts < settings.maxShardAttempts := by
  rw [Execution.outcome] at h
  split at h
  · split at h
    · cases h
      cases ho
    · cases h
  · cases h
    cases ho
  · split at h
    · next l hl =>
      split at h
      · cases h
        cases ho
      · next hlt =>
        exact ⟨l, hl, Nat.lt_of_not_le hlt⟩
    · cases h
  · cases h

theorem abandonOutcome_cases {o : Outcome} (h : e.abandonOutcome = some o) :
    o = .cancelled ∨ o = .failed := by
  rw [Execution.abandonOutcome] at h
  split at h
  · cases h
    exact Or.inl rfl
  · split at h
    · cases h
      exact Or.inl rfl
    · split at h
      · cases h
        exact Or.inr rfl
      · cases h

theorem abandonOutcome_status {o : Outcome} (h : e.abandonOutcome = some o) :
    o.status ≠ .queued := by
  rcases abandonOutcome_cases h with rfl | rfl
  · decide
  · decide

/-- The last reading of the outcome: `exited` with the flag set. -/
theorem outcome_cancelled {o : Outcome} {now : DateTime}
    (h : e.outcome settings now = some o) (ho : o.status = .cancelled) : e.cancelled = true := by
  rw [Execution.outcome] at h
  split at h
  · split at h
    · next hflag => exact hflag
    · cases h
  · cases h
    cases ho
  · split at h
    · split at h
      · cases h
        cases ho
      · cases h
        cases ho
    · cases h
  · cases h

end Execution

end TransportLookout
