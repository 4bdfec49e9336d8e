/-
Who may do what: the users an administrator provisions, and the roles of the
routes of `main.py`.

A route names the roles it takes, or takes any user.  The routes that only read are
one family, as far as this goes: they differ in what they answer.
-/
import TransportLookout.Services.Auth
import TransportLookout.Services.Profiles

namespace TransportLookout

open Relational

/-- The values of the enumeration, which audit events carry. -/
def Role.value : Role → String
  | .platformAdmin => "platform_admin"
  | .inventoryManager => "inventory_manager"
  | .scanOperator => "scan_operator"
  | .auditor => "auditor"

structure UserProvision where
  subject : String
  role : Role
deriving DecidableEq, Repr

def UserProvision.problems (payload : UserProvision) : List Problem :=
  lengthProblems "subject" 1 255 payload.subject

/-- The bound of `interval_minutes` below is a field of the payload; the other checks
are these. -/
def ScheduleCreate.problems (payload : ScheduleCreate) : List Problem :=
  lengthProblems "name" 3 120 payload.name ++
  rangeProblems "interval_minutes" 15 10080 payload.intervalMinutes

/-- The role of a user that is there is written over. -/
def assignRole (users : Table User) (subject : String) (role : Role) : Table User :=
  users.modify subject (fun user => { user with role := role }) fun _ => rfl

/-- `provision_user`.  `targetId` is the `id` column of the user's row, which nothing
but the event reads. -/
def provisionUser (driver : Driver) (db : Db) (users : Table User) (subject : String)
    (payload : UserProvision) (actor : String) (targetId : Uuid) :
    Except AuthError (Db × Table User) :=
  if subject ≠ payload.subject then
    .error (.http 422 "subject path and body must match")
  else
    match findUser driver users (.text subject) with
    | .error e => .error e
    | .ok found =>
      let assigned := match found with
        | none => users.append? [{ subject := subject, role := payload.role }]
        | some target => some (assignRole users target.subject payload.role)
      match assigned with
      | none => .error .database
      | some users =>
        .ok (db.audit actor "user.provisioned" "user" targetId
          [("subject", .text subject), ("role", .text payload.role.value)], users)

/-! ## Routes -/

inductive ReadRoute
  | me
  | listUsers
  | listScopes
  | listProfiles
  | listSchedules
  | getRun
  | listRuns
  | listAuditEvents
  | listExposures
  | exportExposures
  | getExposureDiff
  | exposureSummary
  | getRunHosts
  | getMasscanResults
deriving DecidableEq, Repr

/-- The roles of a route; none where it takes any user. -/
def ReadRoute.roles : ReadRoute → Option (List Role)
  | .listUsers => some [.platformAdmin]
  | .listAuditEvents => some [.platformAdmin, .auditor]
  | _ => none

inductive Route
  | read (route : ReadRoute)
  | provisionUser (subject : String) (payload : UserProvision) (targetId : Uuid)
  | addScope (payload : ScopeCreate) (id : Uuid)
  | importScopesCsv (body : ByteArray) (ids : Nat → Uuid)
  | approveScope (scopeId : Uuid)
  | deleteScope (scopeId : Uuid)
  | addProfile (payload : ProfileCreate) (id : Uuid)
  | deleteProfile (profileId : Uuid)
  | addSchedule (payload : ScheduleCreate) (id : Uuid) (now : DateTime)
  | disableSchedule (scheduleId : Uuid)
  | addRun (scopeId profileId : Uuid) (run : RunIds)
  | cancel (runId : Uuid)

def Route.roles : Route → Option (List Role)
  | .read route => route.roles
  | .provisionUser .. => some [.platformAdmin]
  | .addScope .. => some [.platformAdmin, .inventoryManager]
  | .importScopesCsv .. => some [.platformAdmin, .inventoryManager]
  | .approveScope _ => some [.platformAdmin]
  | .deleteScope _ => some [.platformAdmin, .inventoryManager]
  | .addProfile .. => some [.platformAdmin]
  | .deleteProfile _ => some [.platformAdmin]
  | .addSchedule .. => some [.platformAdmin, .scanOperator]
  | .disableSchedule _ => some [.platformAdmin, .scanOperator]
  | .addRun .. => some [.platformAdmin, .scanOperator]
  | .cancel _ => some [.platformAdmin, .scanOperator]

/-- The dependency of a route past `current_user`. -/
def Route.dependency (route : Route) (user : User) : Except AuthError User :=
  match route.roles with
  | none => .ok user
  | some roles => requireRoles roles user

/-- The user may take the route. -/
def Route.Admits (route : Route) (user : User) : Prop :=
  ∀ roles, route.roles = some roles → user.role ∈ roles

theorem Route.admits_of_ok {route : Route} {user user' : User}
    (h : route.dependency user = .ok user') : user' = user ∧ route.Admits user := by
  rw [dependency] at h
  split at h
  · next hnone =>
    cases h
    refine ⟨rfl, fun roles hroles => ?_⟩
    rw [hnone] at hroles
    cases hroles
  · next roles hroles =>
    rw [requireRoles] at h
    split at h
    · next hmem =>
      cases h
      refine ⟨rfl, fun roles' hroles' => ?_⟩
      rw [hroles] at hroles'
      cases hroles'
      exact hmem
    · cases h

/-- What a provisioning does: the subject has the role, and nobody else's role is
another one. -/
structure Provisions (users : Table User) (payload : UserProvision) (users' : Table User) :
    Prop where
  assigned : users'.get payload.subject = some ⟨payload.subject, payload.role⟩
  others : ∀ subject ≠ payload.subject, users'.get subject = users.get subject

theorem provisionUser_ok {driver : Driver} {db db' : Db} {users users' : Table User}
    {subject : String} {payload : UserProvision} {actor : String} {targetId : Uuid}
    (h : TransportLookout.provisionUser driver db users subject payload actor targetId =
      .ok (db', users')) :
    subject = payload.subject ∧ Provisions users payload users' ∧
      db' = db.audit actor "user.provisioned" "user" targetId
        [("subject", .text payload.subject), ("role", .text payload.role.value)] := by
  rw [TransportLookout.provisionUser] at h
  split at h
  · cases h
  · next hsubject =>
    have heq : subject = payload.subject := not_not.mp hsubject
    subst heq
    split at h
    · cases h
    · next found hfound =>
      rw [findUser] at hfound
      split at hfound
      · cases hfound
      · next s hs =>
        cases driver.bind_text hs
        cases hfound
        dsimp only at h
        split at h
        · cases h
        · next table htable =>
          cases h
          refine ⟨rfl, ?_, rfl⟩
          split at htable
          · next hnone =>
            constructor
            · exact Table.get_append?_of_mem htable (List.mem_singleton_self _)
            · intro other hother
              cases hold : users.get other with
              | some user => exact Table.get_append?_of_get htable hold
              | none =>
                refine Option.eq_none_iff_forall_ne_some.mpr fun user huser => ?_
                rcases Table.get_append? htable huser with hget | ⟨hmem, -⟩
                · rw [hold] at hget
                  cases hget
                · cases List.mem_singleton.mp hmem
                  exact hother (Table.get_key huser).symm
          · next target htarget =>
            cases htable
            have hkey : target.subject = payload.subject := Table.get_key htarget
            rw [hkey]
            constructor
            · rw [assignRole, Table.get_modify, htarget, Option.map_some, if_pos rfl, hkey]
            · intro other hother
              rw [assignRole, Table.get_modify]
              simp only [if_neg hother, Option.map_id']

end TransportLookout
