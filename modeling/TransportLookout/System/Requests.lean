/-
What a request does when it is not refused.

One constructor for each request, with the checks it has passed and the rows and
the audit events of its commit.  The requests are unfolded here; what a request
keeps, or writes, is read off `Performed`.
-/
import TransportLookout.System.Operations

namespace TransportLookout

open Relational

/-- The event of an imported scope. -/
def importEvent (actor : String) (scope : InventoryScope) : AuditEvent :=
  { actor, action := "inventory_scope.imported", resourceType := "inventory_scope",
    resourceId := scope.id, detail := [("cidr", .text scope.cidr), ("zone", .text scope.zone)] }

/-- The rows of the candidates of an import. -/
def importedRows (candidates : List ScopeCreate) (ids : Nat → Uuid) : List InventoryScope :=
  candidates.mapIdx fun i c =>
    { id := ids i, name := c.name, cidr := c.cidr, zone := c.zone : InventoryScope }

/-- A run creation that goes through, on demand or for a schedule. -/
structure Created (d : Deployment) (db : Db) (scope : InventoryScope) (profile : ScanProfile)
    (actor : String) (run : RunIds) (db' : Db) : Prop where
  approved : scope.approved = true
  zone : scope.zone = profile.zone
  runs : db.runs.append? [
    { id := run.runId, inventoryScopeId := scope.id, profileId := profile.id,
      requestedBy := actor }] = some db'.runs
  shards : ∃ cidrs, shardCidr d.policy d.isIpv6 scope.cidr = .ok cidrs ∧
    db.shards.append? ((cidrs.mapIdx fun i cidr => (run.shardId i, cidr)).map fun shard =>
      { id := shard.1, runId := run.runId, cidr := shard.2, zone := scope.zone : ScanShard }) =
        some db'.shards
  frame : db' = { db with runs := db'.runs, shards := db'.shards }.audit actor "run.created"
    "scan_run" run.runId [("scope_id", .text scope.id), ("profile_id", .text profile.id)]

inductive Performed (d : Deployment) (db : Db) (schedules : Table ScanSchedule) :
    Request → Db → Table ScanSchedule → Prop
  | addScope {payload actor id network scopes}
      (hnetwork : parseApprovedCidr d.policy d.isIpv6 payload.cidr = .ok network)
      (hscopes : db.scopes.append? [
        { id, name := payload.name, cidr := Ipv4.format network, zone := payload.zone }] =
          some scopes) :
      Performed d db schedules (.addScope payload actor id)
        ({ db with scopes := scopes }.audit actor "inventory_scope.created" "inventory_scope" id
          [("cidr", .text (Ipv4.format network))]) schedules
  | importScopes {rows actor ids candidates scopes}
      (hcandidates : importLoop d.policy d.isIpv6 2 rows [] = .ok candidates)
      (hscopes : db.scopes.append? (importedRows candidates ids) = some scopes) :
      Performed d db schedules (.importScopes rows actor ids)
        { db with
          scopes := scopes
          audits := db.audits ++ (importedRows candidates ids).map (importEvent actor) } schedules
  | approveScope {scopeId actor scope} (hscope : db.scopes.get scopeId = some scope) :
      Performed d db schedules (.approveScope scopeId actor)
        ({ db with
          scopes := db.scopes.modify scope.id (fun s => { s with approved := true }) fun _ => rfl
        }.audit actor "inventory_scope.approved" "inventory_scope" scope.id) schedules
  | deleteScope {scopeId actor scope} (hscope : db.scopes.get scopeId = some scope)
      (hruns : ∀ run ∈ db.runs.rows, run.inventoryScopeId ≠ scope.id)
      (hschedules : ∀ schedule ∈ schedules.rows, schedule.inventoryScopeId ≠ scope.id) :
      Performed d db schedules (.deleteScope scopeId actor)
        ({ db with scopes := db.scopes.delete fun s => s.id = scope.id }.audit actor
          "inventory_scope.deleted" "inventory_scope" scope.id
          [("name", .text scope.name), ("cidr", .text scope.cidr)]) schedules
  | addProfile {payload actor id profiles}
      (hprofiles : db.profiles.append? [payload.profile id (nextVersion db payload.name)] =
        some profiles) :
      Performed d db schedules (.addProfile payload actor id)
        ({ db with profiles := profiles }.audit actor "scan_profile.created" "scan_profile" id
          [("version", .number (nextVersion db payload.name))]) schedules
  | deleteProfile {profileId actor profile} (hprofile : db.profiles.get profileId = some profile)
      (hruns : ∀ run ∈ db.runs.rows, run.profileId ≠ profile.id)
      (hschedules : ∀ schedule ∈ schedules.rows, schedule.profileId ≠ profile.id) :
      Performed d db schedules (.deleteProfile profileId actor)
        ({ db with profiles := db.profiles.delete fun p => p.id = profile.id }.audit actor
          "scan_profile.deleted" "scan_profile" profile.id
          [("name", .text profile.name), ("version", .number profile.version)]) schedules
  | addSchedule {payload : ScheduleCreate} {actor : String} {id : Uuid} {now : DateTime}
      {scope : InventoryScope} {profile : ScanProfile} {schedule : ScanSchedule}
      {schedules' : Table ScanSchedule}
      (hscope : db.scopes.get payload.inventoryScopeId = some scope)
      (hprofile : db.profiles.get payload.profileId = some profile)
      (happroved : scope.approved = true) (hzone : scope.zone = profile.zone)
      (hschedule : schedule =
        { id, name := payload.name, inventoryScopeId := scope.id, profileId := profile.id,
          intervalMinutes := payload.intervalMinutes, timezone := payload.timezone,
          nextRunAt := payload.firstRunAt.getD now, createdBy := actor,
          interval_ge := payload.interval_ge })
      (hschedules : schedules.append? [schedule] = some schedules') :
      Performed d db schedules (.addSchedule payload actor id now)
        (db.audit actor "schedule.created" "scan_schedule" id
          [("interval_minutes", .number schedule.intervalMinutes)]) schedules'
  | disableSchedule {scheduleId actor schedule}
      (hschedule : schedules.get scheduleId = some schedule) :
      Performed d db schedules (.disableSchedule scheduleId actor)
        (db.audit actor "schedule.disabled" "scan_schedule" schedule.id)
        (disable schedules schedule.id)
  | addRun {scopeId profileId actor run scope profile db'}
      (hscope : db.scopes.get scopeId = some scope)
      (hprofile : db.profiles.get profileId = some profile)
      (hcreated : Created d db scope profile actor run db') :
      Performed d db schedules (.addRun scopeId profileId actor run) db' schedules

section
variable {d : Deployment} {db db' : Db} {schedules schedules' : Table ScanSchedule}

theorem createRunIn_created {scope : InventoryScope} {profile : ScanProfile} {actor : String}
    {run : RunIds}
    (h : db.createRunIn d.policy d.isIpv6 scope profile actor run.runId run.shardId = .ok db') :
    Created d db scope profile actor run db' := by
  obtain ⟨cidrs, hcidrs, hcreate⟩ := Db.createRunIn_ok h
  obtain ⟨happroved, hzone, hruns, hshards, -⟩ := Db.createRun_ok hcreate
  refine ⟨happroved, hzone, hruns, ⟨cidrs, hcidrs, hshards⟩, ?_⟩
  rw [Db.createRun] at hcreate
  split at hcreate
  · cases hcreate
  split at hcreate
  · cases hcreate
  dsimp only at hcreate
  split at hcreate
  · cases hcreate
    rfl
  · cases hcreate

/-- A row that is not deleted is one that nothing refers to. -/
theorem unreferenced {ρ ρ' : Type} [Keyed ρ Uuid] [Keyed ρ' Uuid] {t : Table ρ} {t' : Table ρ'}
    {f : ρ → Uuid} {f' : ρ' → Uuid} {k : Uuid}
    (h : ¬((t.rows.any fun r => f r = k) || t'.rows.any fun r => f' r = k) = true) :
    (∀ r ∈ t.rows, f r ≠ k) ∧ ∀ r ∈ t'.rows, f' r ≠ k := by
  rw [Bool.or_eq_true, not_or] at h
  constructor
  · intro r hr hk
    exact h.1 (List.any_eq_true.mpr ⟨r, hr, decide_eq_true hk⟩)
  · intro r hr hk
    exact h.2 (List.any_eq_true.mpr ⟨r, hr, decide_eq_true hk⟩)

theorem perform_ok {q : Request} (h : q.perform d db schedules = .ok (db', schedules')) :
    Performed d db schedules q db' schedules' := by
  have hdb : ∀ {x : Except Refusal Db}, x.map (·, schedules) = .ok (db', schedules') →
      x = .ok db' ∧ schedules' = schedules := by
    intro x hx
    obtain ⟨a, ha, heq⟩ := Except.map_ok hx
    cases heq
    exact ⟨ha, rfl⟩
  cases q with
  | addScope payload actor id =>
    obtain ⟨hok, rfl⟩ := hdb h
    rw [addScope] at hok
    split at hok
    · cases hok
    · next network hnetwork =>
      dsimp only at hok
      split at hok
      · cases hok
      split at hok
      · cases hok
      · next scopes hscopes =>
        cases hok
        exact .addScope hnetwork hscopes
  | importScopes rows actor ids =>
    obtain ⟨hok, rfl⟩ := hdb h
    rw [importScopes] at hok
    split at hok
    · cases hok
    split at hok
    · cases hok
    split at hok
    · cases hok
    · next candidates hcandidates =>
      split at hok
      · cases hok
      dsimp only at hok
      split at hok
      · cases hok
      · next scopes hscopes =>
        cases hok
        exact .importScopes hcandidates hscopes
  | approveScope scopeId actor =>
    obtain ⟨hok, rfl⟩ := hdb h
    rw [approveScope] at hok
    split at hok
    · cases hok
    · next scope hscope =>
      cases hok
      exact .approveScope hscope
  | deleteScope scopeId actor =>
    obtain ⟨hok, rfl⟩ := hdb h
    rw [deleteScope] at hok
    split at hok
    · cases hok
    · next scope hscope =>
      split at hok
      · cases hok
      · next hfree =>
        cases hok
        obtain ⟨hruns, hschedules⟩ := unreferenced hfree
        exact .deleteScope hscope hruns hschedules
  | addProfile payload actor id =>
    obtain ⟨hok, rfl⟩ := hdb h
    rw [addProfile] at hok
    split at hok
    · cases hok
    · next profiles hprofiles =>
      cases hok
      exact .addProfile hprofiles
  | deleteProfile profileId actor =>
    obtain ⟨hok, rfl⟩ := hdb h
    rw [deleteProfile] at hok
    split at hok
    · cases hok
    · next profile hprofile =>
      split at hok
      · cases hok
      · next hfree =>
        cases hok
        obtain ⟨hruns, hschedules⟩ := unreferenced hfree
        exact .deleteProfile hprofile hruns hschedules
  | addSchedule payload actor id now =>
    change addSchedule d.zones db schedules payload actor id now = _ at h
    rw [addSchedule] at h
    split at h
    · cases h
    split at h
    · next scope profile hscope hprofile =>
      split at h
      · cases h
      · next happroved =>
        split at h
        · cases h
        dsimp only at h
        split at h
        · cases h
        · next hadded =>
          cases h
          rw [Bool.or_eq_true, not_or] at happroved
          exact .addSchedule hscope hprofile (by simpa using happroved.1)
            (by simpa using happroved.2) rfl hadded
    · cases h
  | disableSchedule scheduleId actor =>
    change disableSchedule db schedules scheduleId actor = _ at h
    rw [disableSchedule] at h
    split at h
    · cases h
    · next schedule hschedule =>
      cases h
      exact .disableSchedule hschedule
  | addRun scopeId profileId actor run =>
    obtain ⟨hok, rfl⟩ := hdb h
    obtain ⟨scope, profile, hscope, hprofile, hcreate⟩ := addRun_ok hok
    exact .addRun hscope hprofile (createRunIn_created hcreate)

end

end TransportLookout
