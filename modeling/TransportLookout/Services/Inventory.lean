/-
Scopes, profiles and schedules: `main.py`, and the first half of `create_run`.

A request reads the committed database and has one commit.  One that is refused
changes nothing.  `is_ipv6` stands for the IPv6 half of `ipaddress.ip_network`;
it only chooses between two texts of a refusal.  The rows of an import are those
`csv.DictReader` yields.
-/
import TransportLookout.Library.Ipv4
import TransportLookout.Library.Text
import TransportLookout.Services.Leases

namespace TransportLookout

open Relational

/-- The settings the inventory policy reads, with the defaults of `config.py`. -/
structure InventorySettings where
  maxCidrPrefix : Int := 16
  shardPrefix : Int := 24
  maxShardsPerRun : Int := 4096
  inventoryImportMaxRows : Int := 1000

/-- Why a request has no effect: a `Failure`, or an exception no one expects. -/
inductive Refusal
  | failure (f : Failure)
  | valueError
deriving DecidableEq, Repr

def refuse {α : Type} (statusCode : Nat) (detail : String) : Except Refusal α :=
  .error (.failure (.http statusCode detail))

def minutes (n : Nat) : Int := seconds (n * 60)

structure ScanSchedule where
  id : Uuid
  name : String
  inventoryScopeId : Uuid
  profileId : Uuid
  intervalMinutes : Nat
  timezone : String := "UTC"
  nextRunAt : DateTime
  enabled : Bool := true
  createdBy : String
  interval_ge : 15 ≤ intervalMinutes
deriving DecidableEq

instance : Keyed ScanSchedule Uuid := ⟨ScanSchedule.id⟩

/-! ## Networks -/

section
variable (policy : InventorySettings) (isIpv6 : String → Bool)

def parseApprovedCidr (cidr : String) : Except Refusal Ipv4.Network :=
  let tooWide := refuse 422 ("only IPv4 networks /" ++ toString policy.maxCidrPrefix ++
    " or smaller are allowed")
  match Ipv4.parse cidr with
  | some network =>
    if network.prefixLength < policy.maxCidrPrefix then tooWide else .ok network
  | none =>
    if isIpv6 cidr then tooWide else refuse 422 "cidr must be a canonical network"

def shardCidr (cidr : String) : Except Refusal (List String) :=
  match parseApprovedCidr policy isIpv6 cidr with
  | .error e => .error e
  | .ok network =>
    if policy.shardPrefix ≤ network.prefixLength then .ok [Ipv4.format network]
    else
      match network.subnets policy.shardPrefix.toNat with
      | none => .error .valueError
      | some shards =>
        if policy.maxShardsPerRun < shards.length then
          refuse 422 "run would create too many shards"
        else .ok (shards.map Ipv4.format)

/-- `create_run` up to its commit, with ids for the rows it inserts.  The scope is
cut after the checks of scope and profile and the insert of the run. -/
def Db.createRunIn (db : Db) (scope : InventoryScope) (profile : ScanProfile) (actor : String)
    (runId : Uuid) (ids : Nat → Uuid) : Except Refusal Db :=
  match db.createRun scope profile actor runId [] with
  | .error f => .error (.failure f)
  | .ok _ =>
    match shardCidr policy isIpv6 scope.cidr with
    | .error e => .error e
    | .ok cidrs =>
      match db.createRun scope profile actor runId
          (cidrs.mapIdx fun i cidr => (ids i, cidr)) with
      | .error f => .error (.failure f)
      | .ok db => .ok db

variable {policy isIpv6}

theorem parse_of_approved {cidr : String} {network : Ipv4.Network}
    (h : parseApprovedCidr policy isIpv6 cidr = .ok network) : Ipv4.parse cidr = some network := by
  rw [parseApprovedCidr] at h
  split at h
  · next n hn =>
    split at h
    · cases h
    · cases h
      exact hn
  · split at h
    · cases h
    · cases h

/-- What a scope is cut into lies inside it. -/
theorem shardCidr_inside {cidr : String} {cidrs : List String}
    (h : shardCidr policy isIpv6 cidr = .ok cidrs) : ∀ c ∈ cidrs, Ipv4.inside c cidr = true := by
  rw [shardCidr] at h
  split at h
  · cases h
  · next network hnetwork =>
    have hparse := parse_of_approved hnetwork
    split at h
    · cases h
      intro c hc
      cases List.mem_singleton.mp hc
      exact Ipv4.inside_iff.mpr ⟨network, network, Ipv4.parse_format network, hparse, .refl network⟩
    · split at h
      · cases h
      · next shards hshards =>
        split at h
        · cases h
        · cases h
          intro c hc
          obtain ⟨n, hn, rfl⟩ := List.mem_map.mp hc
          exact Ipv4.inside_iff.mpr ⟨n, network, Ipv4.parse_format n, hparse,
            Ipv4.Network.subnets_within hshards hn⟩

theorem Db.createRunIn_ok {db db' : Db} {scope : InventoryScope} {profile : ScanProfile}
    {actor : String} {runId : Uuid} {ids : Nat → Uuid}
    (h : db.createRunIn policy isIpv6 scope profile actor runId ids = .ok db') :
    ∃ cidrs, shardCidr policy isIpv6 scope.cidr = .ok cidrs ∧
      db.createRun scope profile actor runId (cidrs.mapIdx fun i cidr => (ids i, cidr)) =
        .ok db' := by
  rw [createRunIn] at h
  split at h
  · cases h
  · split at h
    · cases h
    · next cidrs hcidrs =>
      split at h
      · cases h
      · next db₁ hdb₁ =>
        cases h
        exact ⟨cidrs, hcidrs, hdb₁⟩

variable (policy isIpv6)

/-! ## Scopes -/

structure ScopeCreate where
  name : String
  cidr : String
  zone : String := "default"
deriving DecidableEq, Repr

/-- What the schema says of a payload it does not admit. -/
def ScopeCreate.problem (payload : ScopeCreate) : Option String :=
  if payload.name.length < 3 then some "String should have at least 3 characters"
  else if 120 < payload.name.length then some "String should have at most 120 characters"
  else if payload.zone.length < 1 then some "String should have at least 1 character"
  else if 64 < payload.zone.length then some "String should have at most 64 characters"
  else none

def addScope (db : Db) (payload : ScopeCreate) (actor : String) (id : Uuid) : Except Refusal Db :=
  match parseApprovedCidr policy isIpv6 payload.cidr with
  | .error e => .error e
  | .ok network =>
    let cidr := Ipv4.format network
    if db.scopes.rows.any fun s => s.name = payload.name || s.cidr = cidr then
      refuse 409 "scope name or CIDR already exists"
    else
      match db.scopes.append? [{ id, name := payload.name, cidr, zone := payload.zone }] with
      | none => .error (.failure .integrity)
      | some scopes =>
        .ok ({ db with scopes := scopes }.audit actor "inventory_scope.created"
          "inventory_scope" id [("cidr", .text cidr)])

/-- A data row, with the columns it has. -/
structure ImportRow where
  name : Option String := none
  cidr : Option String := none
  zone : Option String := none
deriving DecidableEq, Repr

def ImportRow.payload (row : ImportRow) : ScopeCreate :=
  let zone := Text.strip (match row.zone with
    | some zone => if zone = "" then "default" else zone
    | none => "default")
  { name := Text.strip (row.name.getD ""), cidr := Text.strip (row.cidr.getD "")
    zone := if zone = "" then "default" else zone }

def Refusal.detail : Refusal → String
  | .failure (.http _ detail) => detail
  | _ => ""

/-- One row of the import's loop: its candidate, with the canonical CIDR. -/
def importRow (rowNumber : Nat) (row : ImportRow) (candidates : List ScopeCreate) :
    Except Refusal ScopeCreate :=
  let refused (detail : String) := "CSV row " ++ toString rowNumber ++ ": " ++ detail
  match row.payload.problem with
  | some message => refuse 422 (refused message)
  | none =>
    match parseApprovedCidr policy isIpv6 row.payload.cidr with
    | .error e => refuse 422 (refused e.detail)
    | .ok network =>
      let candidate := { row.payload with cidr := Ipv4.format network }
      if candidates.any fun c => c.name = candidate.name || c.cidr = candidate.cidr then
        refuse 409 (refused "duplicate name or CIDR in file")
      else .ok candidate

/-- The loop over the data rows, the first of which is row 2. -/
def importLoop : Nat → List ImportRow → List ScopeCreate → Except Refusal (List ScopeCreate)
  | _, [], candidates => .ok candidates
  | rowNumber, row :: rows, candidates =>
    match importRow policy isIpv6 rowNumber row candidates with
    | .error e => .error e
    | .ok candidate => importLoop (rowNumber + 1) rows (candidates ++ [candidate])

def importScopes (db : Db) (rows : List ImportRow) (actor : String) (ids : Nat → Uuid) :
    Except Refusal Db :=
  if rows = [] then refuse 422 "CSV contains no inventory scopes"
  else if policy.inventoryImportMaxRows < rows.length then
    refuse 422 ("CSV exceeds the " ++ toString policy.inventoryImportMaxRows ++ " row limit")
  else
    match importLoop policy isIpv6 2 rows [] with
    | .error e => .error e
    | .ok candidates =>
      if db.scopes.rows.any fun s => candidates.any fun c => s.name = c.name || s.cidr = c.cidr then
        refuse 409 "one or more scope names or CIDRs already exist"
      else
        let scopes := candidates.mapIdx fun i c =>
          { id := ids i, name := c.name, cidr := c.cidr, zone := c.zone : InventoryScope }
        match db.scopes.append? scopes with
        | none => .error (.failure .integrity)
        | some table =>
          .ok { db with
            scopes := table
            audits := db.audits ++ scopes.map fun scope =>
              { actor, action := "inventory_scope.imported", resourceType := "inventory_scope",
                resourceId := scope.id,
                detail := [("cidr", .text scope.cidr), ("zone", .text scope.zone)] } }

end

def approveScope (db : Db) (scopeId : Uuid) (actor : String) : Except Refusal Db :=
  match db.scopes.get scopeId with
  | none => refuse 404 "scope not found"
  | some scope =>
    .ok ({ db with
      scopes :=
        db.scopes.modify scope.id (fun s => { s with approved := true }) fun _ => rfl }.audit
        actor "inventory_scope.approved" "inventory_scope" scope.id)

def deleteScope (db : Db) (schedules : Table ScanSchedule) (scopeId : Uuid) (actor : String) :
    Except Refusal Db :=
  match db.scopes.get scopeId with
  | none => refuse 404 "scope not found"
  | some scope =>
    if (db.runs.rows.any fun run => run.inventoryScopeId = scope.id) ||
        schedules.rows.any fun schedule => schedule.inventoryScopeId = scope.id then
      refuse 409 "scope cannot be deleted while runs or schedules reference it"
    else
      .ok ({ db with scopes := db.scopes.delete fun s => s.id = scope.id }.audit actor
        "inventory_scope.deleted" "inventory_scope" scope.id
        [("name", .text scope.name), ("cidr", .text scope.cidr)])

/-! ## Profiles -/

structure ProfileCreate where
  name : String
  ports : String
  maxRate : Int := 500
  scannerMode : ScannerMode := .nmap
  maxConcurrentShards : Nat := 4
  timeoutSeconds : Int := 1800
  zone : String := "default"
deriving DecidableEq, Repr

/-- The version after the latest one under the name. -/
def nextVersion (db : Db) (name : String) : Nat :=
  ((db.profiles.select fun p => p.name = name).map ScanProfile.version).foldr max 0 + 1

/-- The row of a payload. -/
def ProfileCreate.profile (payload : ProfileCreate) (id : Uuid) (version : Nat) : ScanProfile :=
  { id, name := payload.name, version, ports := payload.ports, maxRate := payload.maxRate,
    scannerMode := payload.scannerMode, maxConcurrentShards := payload.maxConcurrentShards,
    timeoutSeconds := payload.timeoutSeconds, zone := payload.zone }

def addProfile (db : Db) (payload : ProfileCreate) (actor : String) (id : Uuid) :
    Except Refusal Db :=
  let profile := payload.profile id (nextVersion db payload.name)
  match db.profiles.append? [profile] with
  | none => .error (.failure .integrity)
  | some profiles =>
    .ok ({ db with profiles := profiles }.audit actor "scan_profile.created" "scan_profile" id
      [("version", .number profile.version)])

def deleteProfile (db : Db) (schedules : Table ScanSchedule) (profileId : Uuid) (actor : String) :
    Except Refusal Db :=
  match db.profiles.get profileId with
  | none => refuse 404 "profile not found"
  | some profile =>
    if (db.runs.rows.any fun run => run.profileId = profile.id) ||
        schedules.rows.any fun schedule => schedule.profileId = profile.id then
      refuse 409 "profile cannot be deleted while runs or schedules reference it"
    else
      .ok ({ db with profiles := db.profiles.delete fun p => p.id = profile.id }.audit actor
        "scan_profile.deleted" "scan_profile" profile.id
        [("name", .text profile.name), ("version", .number profile.version)])

/-! ## Runs on demand -/

def addRun (policy : InventorySettings) (isIpv6 : String → Bool) (db : Db)
    (scopeId profileId : Uuid) (actor : String) (runId : Uuid) (ids : Nat → Uuid) :
    Except Refusal Db :=
  match db.scopes.get scopeId, db.profiles.get profileId with
  | some scope, some profile => db.createRunIn policy isIpv6 scope profile actor runId ids
  | _, _ => refuse 404 "scope or profile not found"

/-! ## Schedules -/

structure ScheduleCreate where
  name : String
  inventoryScopeId : Uuid
  profileId : Uuid
  intervalMinutes : Nat
  timezone : String := "UTC"
  firstRunAt : Option DateTime := none
  interval_ge : 15 ≤ intervalMinutes

/-- `add_schedule`; `zones` holds the names `ZoneInfo` finds. -/
def addSchedule (zones : List String) (db : Db) (schedules : Table ScanSchedule)
    (payload : ScheduleCreate) (actor : String) (id : Uuid) (now : DateTime) :
    Except Refusal (Db × Table ScanSchedule) :=
  if payload.timezone ∉ zones then refuse 422 "unknown IANA timezone"
  else
    match db.scopes.get payload.inventoryScopeId, db.profiles.get payload.profileId with
    | some scope, some profile =>
      if !scope.approved || scope.zone ≠ profile.zone then
        refuse 422 "schedule requires an approved scope and matching profile zone"
      else if schedules.rows.any fun s => s.name = payload.name then
        refuse 409 "schedule name already exists"
      else
        let schedule : ScanSchedule :=
          { id, name := payload.name, inventoryScopeId := scope.id, profileId := profile.id,
            intervalMinutes := payload.intervalMinutes, timezone := payload.timezone,
            nextRunAt := payload.firstRunAt.getD now, createdBy := actor,
            interval_ge := payload.interval_ge }
        match schedules.append? [schedule] with
        | none => .error (.failure .integrity)
        | some schedules =>
          .ok (db.audit actor "schedule.created" "scan_schedule" id
            [("interval_minutes", .number schedule.intervalMinutes)], schedules)
    | _, _ => refuse 404 "scope or profile not found"

def disable (schedules : Table ScanSchedule) (id : Uuid) : Table ScanSchedule :=
  schedules.modify id (fun s => { s with enabled := false }) fun _ => rfl

def disableSchedule (db : Db) (schedules : Table ScanSchedule) (scheduleId : Uuid)
    (actor : String) : Except Refusal (Db × Table ScanSchedule) :=
  match schedules.get scheduleId with
  | none => refuse 404 "schedule not found"
  | some schedule =>
    .ok (db.audit actor "schedule.disabled" "scan_schedule" schedule.id,
      disable schedules schedule.id)

/-! ## Due schedules -/

/-- The `while` loop of `dispatch_due_schedules`: whole intervals are added to an
instant until it is past `now`. -/
def catchUp (interval : Int) (now : DateTime) : Nat → DateTime → DateTime
  | 0, next => next
  | fuel + 1, next => if next ≤ now then catchUp interval now fuel (next + interval) else next

/-- The instant a dispatch at `now` advances a schedule to.  Each round of the
loop adds a microsecond at least. -/
def ScanSchedule.nextRun (s : ScanSchedule) (now : DateTime) : DateTime :=
  catchUp (minutes s.intervalMinutes) now (now - s.nextRunAt).toNat
    (s.nextRunAt + minutes s.intervalMinutes)

theorem ScanSchedule.interval_pos (s : ScanSchedule) : 0 < minutes s.intervalMinutes := by
  have hge := s.interval_ge
  rw [minutes, seconds]
  omega

theorem le_catchUp {interval : Int} (hpos : 0 < interval) (now : DateTime) (fuel : Nat)
    (next : DateTime) : next ≤ catchUp interval now fuel next := by
  induction fuel generalizing next with
  | zero => exact Int.le_refl next
  | succ fuel ih =>
    rw [catchUp]
    split
    · have hstep : next ≤ next + interval := Int.le_add_of_nonneg_right (Int.le_of_lt hpos)
      exact Int.le_trans hstep (ih (next + interval))
    · exact Int.le_refl next

/-- A round leaves less to make up, or nothing. -/
theorem round_lt {a b interval : Int} (hpos : 0 < interval) :
    (b - (a + interval)).toNat < (b - a).toNat ∨ b < a + interval := by
  omega

/-- The loop ends: it has fuel for every round. -/
theorem now_lt_catchUp {interval : Int} (hpos : 0 < interval) (now : DateTime) (fuel : Nat)
    (next : DateTime) (hfuel : (now - next).toNat < fuel ∨ now < next) :
    now < catchUp interval now fuel next := by
  induction fuel generalizing next with
  | zero => exact hfuel.resolve_left (Nat.not_lt_zero _)
  | succ fuel ih =>
    rw [catchUp]
    split
    · next hle =>
      have hfuel' := Nat.le_of_lt_succ (hfuel.resolve_right (Int.not_lt.mpr hle))
      exact ih (next + interval) ((round_lt hpos).imp_left fun h => Nat.lt_of_lt_of_le h hfuel')
    · next hlt => exact Int.not_le.mp hlt

theorem ScanSchedule.lt_nextRun (s : ScanSchedule) (now : DateTime) :
    s.nextRunAt < s.nextRun now :=
  Int.lt_of_lt_of_le (Int.lt_add_of_pos_right _ s.interval_pos)
    (le_catchUp s.interval_pos now _ _)

theorem ScanSchedule.now_lt_nextRun (s : ScanSchedule) (now : DateTime) : now < s.nextRun now :=
  now_lt_catchUp s.interval_pos now _ _ (round_lt s.interval_pos)

/-- The schedules a pass locks. -/
def dueSchedules (schedules : Table ScanSchedule) (now : DateTime) : List ScanSchedule :=
  schedules.select fun s => s.enabled && s.nextRunAt ≤ now

def advance (schedules : Table ScanSchedule) (schedule : ScanSchedule) (now : DateTime) :
    Table ScanSchedule :=
  schedules.modify schedule.id (fun s => { s with nextRunAt := schedule.nextRun now }) fun _ => rfl

theorem nextRunAt_disable (schedules : Table ScanSchedule) (id k : Uuid) :
    ((disable schedules id).get k).map ScanSchedule.nextRunAt =
      (schedules.get k).map ScanSchedule.nextRunAt := by
  rw [disable, Table.get_modify]
  cases schedules.get k with
  | none => rfl
  | some r =>
    simp only [Option.map_some, Option.some.injEq]
    split
    · rfl
    · rfl

theorem nextRunAt_advance (schedules : Table ScanSchedule) (schedule : ScanSchedule)
    (now : DateTime) (k : Uuid) :
    ((advance schedules schedule now).get k).map ScanSchedule.nextRunAt =
      if k = schedule.id then (schedules.get k).map fun _ => schedule.nextRun now
      else (schedules.get k).map ScanSchedule.nextRunAt := by
  rw [advance, Table.get_modify]
  cases schedules.get k with
  | none =>
    split
    · rfl
    · rfl
  | some r =>
    by_cases hk : k = schedule.id
    · simp only [Option.map_some, if_pos hk]
    · simp only [Option.map_some, if_neg hk]

/-- The scope and profile of a due schedule, when it may still be dispatched. -/
def dispatchable : Option InventoryScope → Option ScanProfile →
    Option (InventoryScope × ScanProfile)
  | some scope, some profile =>
    if !scope.approved || scope.zone ≠ profile.zone then none else some (scope, profile)
  | _, _ => none

theorem dispatchable_eq_some {scope : Option InventoryScope} {profile : Option ScanProfile}
    {x : InventoryScope × ScanProfile} (h : dispatchable scope profile = some x) :
    scope = some x.1 ∧ profile = some x.2 := by
  unfold dispatchable at h
  split at h
  · split at h
    · cases h
    · cases h
      exact ⟨rfl, rfl⟩
  · cases h

def Db.auditDisabled (db : Db) (schedule : ScanSchedule) : Db :=
  db.audit "scheduler" "schedule.disabled" "scan_schedule" schedule.id
    [("reason", .text "scope/profile unavailable or incompatible")]

def Db.auditDispatched (db : Db) (schedule : ScanSchedule) : Db :=
  db.audit "scheduler" "schedule.dispatched" "scan_schedule" schedule.id

/-- The ids of the run a pass creates for a schedule, and of its shards. -/
structure RunIds where
  runId : Uuid
  shardId : Nat → Uuid

/-- The loop of `dispatch_due_schedules`.  An exception of `create_run` ends the
pass; what it committed before stays. -/
def dispatchLoop (policy : InventorySettings) (isIpv6 : String → Bool) (now : DateTime)
    (ids : Uuid → RunIds) : List ScanSchedule → Db → Table ScanSchedule → Db × Table ScanSchedule
  | [], db, schedules => (db, schedules)
  | schedule :: due, db, schedules =>
    match dispatchable (db.scopes.get schedule.inventoryScopeId)
        (db.profiles.get schedule.profileId) with
    | none =>
      dispatchLoop policy isIpv6 now ids due (db.auditDisabled schedule)
        (disable schedules schedule.id)
    | some (scope, profile) =>
      match db.createRunIn policy isIpv6 scope profile schedule.createdBy (ids schedule.id).runId
          (ids schedule.id).shardId with
      | .error _ => (db, schedules)
      | .ok db =>
        dispatchLoop policy isIpv6 now ids due (db.auditDispatched schedule)
          (advance schedules schedule now)

end TransportLookout
