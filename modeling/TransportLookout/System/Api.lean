/-
The API in front of the control plane.

`Service` adds the users to the state.  A request is a `Call`: its header, what
`validate_oidc_token` says at that time, and the route with its arguments.  It is
given a user, its role is looked at, and then the route is taken; whatever it raises
on the way, the call is a step, and one that is refused leaves the state as it was,
except that the first call with the bootstrap token leaves its user.

The scheduler, the publisher and the workers make no calls.  Their steps are those of
`Control` that are not requests; a cancellation is loaded by its route.
-/
import TransportLookout.Services.Import
import TransportLookout.Services.Users
import TransportLookout.System.Requests

namespace TransportLookout

open Relational Trace

structure Api where
  deployment : Deployment := {}
  auth : AuthSettings := {}
  driver : Driver := postgres
  digits : Ports.Digits

structure Call where
  header : Option String
  validateOidcToken : String → Option Claims
  route : Route

structure Service where
  control : Control
  users : Table User := .empty

inductive ServiceAction
  | call (c : Call)
  | internal (a : ControlAction)

/-- The steps that no call makes. -/
def ControlAction.internal : ControlAction → Bool
  | .request _ => false
  | .system (.loadCancel ..) => false
  | _ => true

/-- The texts the driver takes. -/
def Driver.stores (driver : Driver) (s : String) : Bool := (driver.bind (.text s)).isSome

/-- What a route asks of the control plane, for a payload the schema admits. -/
def Route.action (api : Api) (db : Db) (actor : String) : Route → Option ControlAction
  | .read _ => none
  | .provisionUser .. => none
  | .addScope payload id =>
    if payload.problem.isNone then some (.request (.addScope payload actor id)) else none
  | .importScopesCsv body ids =>
    match readRows body with
    | .error _ => none
    | .ok rows =>
      if (importTexts api.deployment.policy api.deployment.isIpv6 db rows).all api.driver.stores then
        some (.request (.importScopes rows actor ids))
      else none
  | .approveScope scopeId => some (.request (.approveScope scopeId actor))
  | .deleteScope scopeId => some (.request (.deleteScope scopeId actor))
  | .addProfile payload id =>
    match payload.validate api.digits with
    | .error _ => none
    | .ok payload => some (.request (.addProfile payload actor id))
  | .deleteProfile profileId => some (.request (.deleteProfile profileId actor))
  | .addSchedule payload id now =>
    if payload.problems = [] then some (.request (.addSchedule payload actor id now)) else none
  | .disableSchedule scheduleId => some (.request (.disableSchedule scheduleId actor))
  | .addRun scopeId profileId run => some (.request (.addRun scopeId profileId actor run))
  | .cancel runId => some (.system (.loadCancel runId actor))

namespace Service

/-- A route that is taken for `actor`. -/
def answer (api : Api) (s : Service) (actor : String) : Route → Service
  | .provisionUser subject payload targetId =>
    if payload.problems = [] then
      match provisionUser api.driver s.control.base.db s.users subject payload actor targetId with
      | .error _ => s
      | .ok (db, users) =>
        { control := { s.control with base := { s.control.base with db := db } }, users := users }
    else s
  | route =>
    match (route.action api s.control.base.db actor).bind (s.control.step api.deployment) with
    | none => s
    | some control => { s with control := control }

def step (api : Api) (s : Service) : ServiceAction → Option Service
  | .call c =>
    match currentUser api.driver s.users c.validateOidcToken api.auth c.header with
    | .error _ => some s
    | .ok (user, users) =>
      match c.route.dependency user with
      | .error _ => some { s with users := users }
      | .ok user => some (answer api { s with users := users } user.subject c.route)
  | .internal a =>
    if a.internal then (s.control.step api.deployment a).map fun control =>
      { s with control := control }
    else none

/-- Before the first call, with the users that are there. -/
def initial (users : Table User) : Service := { control := Control.initial, users := users }

end Service

/-! ## What a call can do -/

/-- The call is made by `user`, who may take its route. -/
structure Call.Admitted (api : Api) (users : Table User) (c : Call) (user : User)
    (users' : Table User) : Prop where
  authenticated : currentUser api.driver users c.validateOidcToken api.auth c.header =
    .ok (user, users')
  admits : c.route.Admits user

inductive Answered (api : Api) (s : Service) (c : Call) : Service → Prop
  | refused : Answered api s c s
  | known {user users}
      (huser : currentUser api.driver s.users c.validateOidcToken api.auth c.header =
        .ok (user, users)) :
      Answered api s c { s with users := users }
  | provisioned {user users payload targetId users'} (huser : c.Admitted api s.users user users)
      (hroute : c.route = .provisionUser payload.subject payload targetId)
      (hprovisions : Provisions users payload users') :
      Answered api s c
        { control := { s.control with
            base := { s.control.base with
              db := s.control.base.db.audit user.subject "user.provisioned" "user" targetId
                [("subject", .text payload.subject), ("role", .text payload.role.value)] } }
          users := users' }
  | performed {user users a control} (huser : c.Admitted api s.users user users)
      (ha : c.route.action api s.control.base.db user.subject = some a)
      (hstep : s.control.step api.deployment a = some control) :
      Answered api s c { control := control, users := users }

section
variable {api : Api} {s s' : Service}

theorem service_internal {a : ControlAction} (h : s.step api (.internal a) = some s') :
    a.internal = true ∧ s.control.step api.deployment a = some s'.control ∧
      s'.users = s.users := by
  simp only [Service.step] at h
  split at h
  · next hinternal =>
    obtain ⟨control, hstep, heq⟩ := Option.map_eq_some_iff.mp h
    cases heq
    exact ⟨hinternal, hstep, rfl⟩
  · cases h

theorem service_call {c : Call} (h : s.step api (.call c) = some s') : Answered api s c s' := by
  simp only [Service.step] at h
  split at h
  · cases h
    exact .refused
  · next user users hauthenticated =>
    split at h
    · cases h
      exact .known hauthenticated
    · next user' hadmit =>
      cases h
      obtain ⟨rfl, hadmits⟩ := Route.admits_of_ok hadmit
      have huser : c.Admitted api s.users user' users := ⟨hauthenticated, hadmits⟩
      have hknown : Answered api s c { s with users := users } := .known hauthenticated
      have hperform : ∀ {a : ControlAction}, c.route.action api s.control.base.db user'.subject =
          some a → ∀ {control : Control}, s.control.step api.deployment a = some control →
          Answered api s c { control := control, users := users } :=
        fun ha _ hstep => .performed huser ha hstep
      cases hroute : c.route with
      | provisionUser subject payload targetId =>
        rw [Service.answer]
        split
        · split
          · exact hknown
          · next db users' hprovision =>
            obtain ⟨rfl, hprovisions, hdb⟩ := provisionUser_ok hprovision
            rw [hdb]
            exact .provisioned huser hroute hprovisions
        · exact hknown
      | _ =>
        rw [Service.answer]
        · split
          · exact hknown
          · next control hcontrol =>
            obtain ⟨a, ha, hstep⟩ := Option.bind_eq_some_iff.mp hcontrol
            rw [← hroute] at ha
            exact hperform ha hstep
        · exact nofun

end

/-! ## What a route asks for -/

/-- A request of the control plane comes from its route, with the caller as actor. -/
inductive Asks (api : Api) (actor : String) : Route → ControlAction → Prop
  | addScope {payload id} :
      Asks api actor (.addScope payload id) (.request (.addScope payload actor id))
  | importScopes {body rows ids} :
      Asks api actor (.importScopesCsv body ids) (.request (.importScopes rows actor ids))
  | approveScope {scopeId} :
      Asks api actor (.approveScope scopeId) (.request (.approveScope scopeId actor))
  | deleteScope {scopeId} :
      Asks api actor (.deleteScope scopeId) (.request (.deleteScope scopeId actor))
  | addProfile {payload payload' id} (hvalid : payload.validate api.digits = .ok payload') :
      Asks api actor (.addProfile payload id) (.request (.addProfile payload' actor id))
  | deleteProfile {profileId} :
      Asks api actor (.deleteProfile profileId) (.request (.deleteProfile profileId actor))
  | addSchedule {payload id now} :
      Asks api actor (.addSchedule payload id now) (.request (.addSchedule payload actor id now))
  | disableSchedule {scheduleId} :
      Asks api actor (.disableSchedule scheduleId) (.request (.disableSchedule scheduleId actor))
  | addRun {scopeId profileId run} :
      Asks api actor (.addRun scopeId profileId run) (.request (.addRun scopeId profileId actor run))
  | cancel {runId} : Asks api actor (.cancel runId) (.system (.loadCancel runId actor))

theorem action_asks {api : Api} {db : Db} {actor : String} {route : Route} {a : ControlAction}
    (h : route.action api db actor = some a) : Asks api actor route a := by
  cases route with
  | read | provisionUser => cases h
  | addScope payload id =>
    rw [Route.action] at h
    split at h
    · cases h
      exact .addScope
    · cases h
  | importScopesCsv body ids =>
    rw [Route.action] at h
    split at h
    · cases h
    · split at h
      · cases h
        exact .importScopes
      · cases h
  | approveScope =>
    cases h
    exact .approveScope
  | deleteScope =>
    cases h
    exact .deleteScope
  | addProfile payload id =>
    rw [Route.action] at h
    split at h
    · cases h
    · next hvalid =>
      cases h
      exact .addProfile hvalid
  | deleteProfile =>
    cases h
    exact .deleteProfile
  | addSchedule payload id now =>
    rw [Route.action] at h
    split at h
    · cases h
      exact .addSchedule
    · cases h
  | disableSchedule =>
    cases h
    exact .disableSchedule
  | addRun =>
    cases h
    exact .addRun
  | cancel =>
    cases h
    exact .cancel

/-- What a step of the service does to the control plane. -/
inductive Moves (api : Api) (s : Service) (a : ServiceAction) (control : Control) : Prop
  | same (h : control = s.control)
  | audits {events}
      (h : control = { s.control with
        base := { s.control.base with db := { s.control.base.db with audits := events } } })
  | called {c user users b} (ha : a = .call c) (huser : c.Admitted api s.users user users)
      (hasks : Asks api user.subject c.route b)
      (hstep : s.control.step api.deployment b = some control)
  | internal {b} (ha : a = .internal b) (hinternal : b.internal = true)
      (hstep : s.control.step api.deployment b = some control)

theorem service_moves {api : Api} {s s' : Service} {a : ServiceAction}
    (h : s.step api a = some s') : Moves api s a s'.control := by
  cases a with
  | call c =>
    cases service_call h with
    | refused => exact .same rfl
    | known => exact .same rfl
    | provisioned => exact .audits rfl
    | performed huser ha hstep => exact .called rfl huser (action_asks ha) hstep
  | internal a =>
    obtain ⟨hinternal, hstep, -⟩ := service_internal h
    exact .internal rfl hinternal hstep

end TransportLookout
