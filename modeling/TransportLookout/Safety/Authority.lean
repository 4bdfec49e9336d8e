/-
Who is behind a scan.

Three people stand behind a scanner command: who approved the scope, who wrote the
profile, and who asked for the run or set up its schedule.  Each was admitted by
`current_user` and `require_roles` at the time of the request, and none of the rows
they left can be changed by anyone else.  `scan_custody` says so of every command of
every run, whatever the scheduler and the workers do in between.

Roles themselves are granted by requests.  `role_grants` follows the grants back to the
users that were there, or to the bootstrap token; `no_escalation` is what it means where
there is neither.
-/
import TransportLookout.Safety.Authentication
import TransportLookout.Safety.Authorized
import TransportLookout.System.Api
import TransportLookout.System.Provenance

namespace TransportLookout

open Relational Trace

/-- An earlier call with this user and route was let in. -/
def Called (api : Api) (tr : List (Transition Service ServiceAction))
    (P : Service → User → Route → Prop) : Prop :=
  ∃ x ∈ tr, ∃ c user users, x.act = .call c ∧ c.Admitted api x.pre.users user users ∧
    P x.pre user c.route

section
variable {api : Api} {tr : List (Transition Service ServiceAction)}
  {P Q : Service → User → Route → Prop}

theorem Called.append (h : Called api tr P) (tr' : List (Transition Service ServiceAction)) :
    Called api (tr ++ tr') P := by
  obtain ⟨x, hx, hcall⟩ := h
  exact ⟨x, List.mem_append_left tr' hx, hcall⟩

theorem Called.imp (h : Called api tr P)
    (himp : ∀ s user route, route.Admits user → P s user route → Q s user route) :
    Called api tr Q := by
  obtain ⟨x, hx, c, user, users, hact, huser, hP⟩ := h
  exact ⟨x, hx, c, user, users, hact, huser, himp _ _ _ huser.admits hP⟩

end

/-! ## What the rows go back to -/

/-- The scope was approved as it is. -/
def Approves (scope : InventoryScope) (s : Service) (_ : User) (route : Route) : Prop :=
  route = .approveScope scope.id ∧
    ∃ old ∈ s.control.base.db.scopes.rows, scope = { old with approved := true }

/-- The profile was written as it is. -/
def Writes (api : Api) (profile : ScanProfile) (_ : Service) (_ : User) (route : Route) : Prop :=
  ∃ payload payload' version, route = .addProfile payload profile.id ∧
    payload.validate api.digits = .ok payload' ∧ profile = payload'.profile profile.id version

/-- The scan was asked for, by this user, now or as often as a schedule says. -/
def Orders (order : Order) (_ : Service) (user : User) (route : Route) : Prop :=
  user.subject = order.actor ∧
    ((∃ ids, route = .addRun order.inventoryScopeId order.profileId ids) ∨
      ∃ payload id now, route = .addSchedule payload id now ∧
        payload.inventoryScopeId = order.inventoryScopeId ∧ payload.profileId = order.profileId)

def Cancels (runId : Uuid) (actor : String) (_ : Service) (user : User) (route : Route) : Prop :=
  user.subject = actor ∧ route = .cancel runId

/-- Every row goes back to a call. -/
structure Custody (api : Api) (tr : List (Transition Service ServiceAction)) (s : Control) :
    Prop where
  scope : ∀ scope ∈ s.base.db.scopes.rows, scope.approved = true → Called api tr (Approves scope)
  profile : ∀ profile ∈ s.base.db.profiles.rows, Called api tr (Writes api profile)
  schedule : ∀ schedule ∈ s.schedules.rows, Called api tr (Orders schedule.order)
  run : ∀ run ∈ s.base.db.runs.rows, Called api tr (Orders run.order)
  cancellation : ∀ c ∈ s.base.cancellations, Called api tr (Cancels c.run.id c.actor)
  cancelled : ∀ run ∈ s.base.db.runs.rows, run.status = .cancelled →
    ∃ actor, Called api tr (Cancels run.id actor)

section
variable {api : Api} {tr : List (Transition Service ServiceAction)}

theorem Custody.append {s : Control} (h : Custody api tr s)
    (tr' : List (Transition Service ServiceAction)) : Custody api (tr ++ tr') s where
  scope := fun scope hscope happroved => (h.scope scope hscope happroved).append tr'
  profile := fun profile hprofile => (h.profile profile hprofile).append tr'
  schedule := fun schedule hschedule => (h.schedule schedule hschedule).append tr'
  run := fun run hrun => (h.run run hrun).append tr'
  cancellation := fun c hc => (h.cancellation c hc).append tr'
  cancelled := fun run hrun hstatus =>
    (h.cancelled run hrun hstatus).imp fun _ hcalled => hcalled.append tr'

/-- The rule: a step of the control plane keeps custody if the rows only calls make go
back to one. -/
theorem custody_control {s s' : Control} {b : ControlAction} {d : Deployment}
    (hc : Custody api tr s) (h : s.step d b = some s')
    (hscope : ∀ scope old, ∀ actor, b = .request (.approveScope scope.id actor) →
      old ∈ s.base.db.scopes.rows → scope = { old with approved := true } →
      Called api tr (Approves scope))
    (hprofile : ∀ profile payload actor version,
      b = .request (.addProfile payload actor profile.id) →
      profile = payload.profile profile.id version → Called api tr (Writes api profile))
    (hschedule : ∀ payload actor id now, b = .request (.addSchedule payload actor id now) →
      Called api tr (Orders ⟨actor, payload.inventoryScopeId, payload.profileId⟩))
    (hrun : ∀ scopeId profileId actor ids, b = .request (.addRun scopeId profileId actor ids) →
      Called api tr (Orders ⟨actor, scopeId, profileId⟩))
    (hcancel : ∀ runId actor, b = .system (.loadCancel runId actor) →
      Called api tr (Cancels runId actor)) : Custody api tr s' where
  scope := by
    intro scope hmem happroved
    rcases control_scopes h hmem happroved with hold | ⟨actor, old, hold, hb, heq⟩
    · exact hc.scope scope hold happroved
    · exact hscope scope old actor hb hold heq
  profile := by
    intro profile hmem
    rcases control_profiles h hmem with hold | ⟨payload, actor, version, hb, heq⟩
    · exact hc.profile profile hold
    · exact hprofile profile payload actor version hb heq
  schedule := by
    intro schedule hmem
    rcases control_schedules h hmem with ⟨old, hold, -, horder⟩ | ⟨payload, actor, now, hb, horder⟩
    · rw [← horder]
      exact hc.schedule old hold
    · rw [horder]
      exact hschedule payload actor schedule.id now hb
  run := by
    intro run hmem
    rcases control_runs h hmem with ⟨old, hold, -, horder⟩ |
      ⟨scopeId, profileId, actor, ids, hb, -, horder⟩ | ⟨schedule, hold, horder⟩
    · rw [← horder]
      exact hc.run old hold
    · rw [horder]
      exact hrun scopeId profileId actor ids hb
    · rw [horder]
      exact hc.schedule schedule hold
  cancellation := by
    intro c hmem
    rcases control_cancellations h hmem with ⟨old, hold, hid, hactor⟩ | hb
    · rw [← hid, ← hactor]
      exact hc.cancellation old hold
    · exact hcancel c.run.id c.actor hb
  cancelled := by
    intro run hmem hstatus
    rcases control_cancelled h hmem hstatus with ⟨old, hold, hid, hcancelled⟩ | ⟨c, hmem, hid⟩
    · rw [← hid]
      exact hc.cancelled old hold hcancelled
    · rw [← hid]
      exact ⟨c.actor, hc.cancellation c hmem⟩

theorem custody_step {s s' : Service} {a : ServiceAction} (hc : Custody api tr s.control)
    (h : s.step api a = some s') : Custody api (tr ++ [⟨s, a, s'⟩]) s'.control := by
  have hkept := hc.append [⟨s, a, s'⟩]
  cases service_moves h with
  | same heq =>
    rw [heq]
    exact hkept
  | audits heq =>
    rw [heq]
    exact ⟨hkept.scope, hkept.profile, hkept.schedule, hkept.run, hkept.cancellation,
      hkept.cancelled⟩
  | @called c user users b ha huser hasks hstep =>
    have hcalled : ∀ {P : Service → User → Route → Prop}, P s user c.route →
        Called api (tr ++ [⟨s, a, s'⟩]) P := fun hP =>
      ⟨_, List.mem_append_right tr (List.mem_singleton_self _), c, user, users, ha, huser, hP⟩
    refine custody_control hkept hstep ?_ ?_ ?_ ?_ ?_
    · intro scope old actor hb hold heq
      rw [hb] at hasks
      refine hcalled ?_
      generalize c.route = route at hasks
      cases hasks
      exact ⟨rfl, old, hold, heq⟩
    · intro profile payload actor version hb heq
      rw [hb] at hasks
      refine hcalled ?_
      generalize c.route = route at hasks
      cases hasks with
      | addProfile hvalid => exact ⟨_, payload, version, rfl, hvalid, heq⟩
    · intro payload actor id now hb
      rw [hb] at hasks
      refine hcalled ?_
      generalize c.route = route at hasks
      cases hasks
      exact ⟨rfl, Or.inr ⟨payload, id, now, rfl, rfl, rfl⟩⟩
    · intro scopeId profileId actor ids hb
      rw [hb] at hasks
      refine hcalled ?_
      generalize c.route = route at hasks
      cases hasks
      exact ⟨rfl, Or.inl ⟨ids, rfl⟩⟩
    · intro runId actor hb
      rw [hb] at hasks
      refine hcalled ?_
      generalize c.route = route at hasks
      cases hasks
      exact ⟨rfl, rfl⟩
  | @internal b ha hinternal hstep =>
    have hrequest : ∀ q, b ≠ .request q := by
      rintro q rfl
      cases hinternal
    have hload : ∀ runId actor, b ≠ .system (.loadCancel runId actor) := by
      rintro runId actor rfl
      cases hinternal
    exact custody_control hkept hstep (fun _ _ _ hb => absurd hb (hrequest _))
      (fun _ _ _ _ hb => absurd hb (hrequest _)) (fun _ _ _ _ hb => absurd hb (hrequest _))
      (fun _ _ _ _ hb => absurd hb (hrequest _)) fun _ _ hb => absurd hb (hload _ _)

end

/-! ## Runs -/

/-- Who stands behind a target of the shard: it lies in a scope an administrator approved, and
is scanned by a profile an administrator wrote, for the run of the shard, which an
administrator or an operator asked for. -/
structure Ordered (api : Api) (tr : List (Transition Service ServiceAction)) (s : Control)
    (shard : ScanShard) (target : String) (run : ScanRun) (scope : InventoryScope)
    (profile : ScanProfile) : Prop where
  of_shard : Ipv4.inside target shard.cidr = true ∨ target = shard.cidr
  of_run : s.base.db.runs.get shard.runId = some run
  of_scope : s.base.db.scopes.get run.inventoryScopeId = some scope
  of_profile : s.base.db.profiles.get run.profileId = some profile
  inside : Ipv4.inside target scope.cidr = true
  approval : Called api tr fun s user route => user.role = .platformAdmin ∧
    Approves scope s user route
  writing : Called api tr fun s user route => user.role = .platformAdmin ∧
    Writes api profile s user route
  order : Called api tr fun s user route => user.role ∈ [.platformAdmin, .scanOperator] ∧
    Orders run.order s user route

section
variable {api : Api} {tr : List (Transition Service ServiceAction)} {s : Control}

theorem called_approves {scope : InventoryScope} (h : Called api tr (Approves scope)) :
    Called api tr fun s user route => user.role = .platformAdmin ∧ Approves scope s user route := by
  refine h.imp fun s user route hadmits happroves => ⟨?_, happroves⟩
  rw [happroves.1] at hadmits
  exact List.mem_singleton.mp (hadmits _ rfl)

theorem called_writes {profile : ScanProfile} (h : Called api tr (Writes api profile)) :
    Called api tr fun s user route => user.role = .platformAdmin ∧
      Writes api profile s user route := by
  refine h.imp fun s user route hadmits hwrites => ⟨?_, hwrites⟩
  obtain ⟨_, _, _, hroute, -, -⟩ := hwrites
  rw [hroute] at hadmits
  exact List.mem_singleton.mp (hadmits _ rfl)

theorem called_orders {order : Order} (h : Called api tr (Orders order)) :
    Called api tr fun s user route => user.role ∈ [.platformAdmin, .scanOperator] ∧
      Orders order s user route := by
  refine h.imp fun s user route hadmits horders => ⟨?_, horders⟩
  rcases horders.2 with ⟨_, hroute⟩ | ⟨_, _, _, hroute, -⟩
  · rw [hroute] at hadmits
    exact hadmits _ rfl
  · rw [hroute] at hadmits
    exact hadmits _ rfl

/-- The step is one of an execution of the shard. -/
def Control.Scans (s : Control) (a : ControlAction) (shard : ScanShard) : Prop :=
  ∃ e b, s.executing a = some (e, b) ∧ s.base.db.shards.get e.shardId = some shard

theorem called_cancels {runId : Uuid} {actor : String} (h : Called api tr (Cancels runId actor)) :
    Called api tr fun s user route => user.role ∈ [.platformAdmin, .scanOperator] ∧
      Cancels runId actor s user route := by
  refine h.imp fun s user route hadmits hcancels => ⟨?_, hcancels⟩
  rw [hcancels.2] at hadmits
  exact hadmits _ rfl

/-- The shard an execution has loaded was ordered, and so is what lies inside it. -/
theorem ordered_placed (hp : Placing s) (hc : Custody api tr s) {e : Execution}
    (he : e ∈ s.base.executions) {l : ScanShard} (hl : e.shard = some l) {target : String}
    (hinside : Ipv4.inside target l.cidr = true ∨ target = l.cidr) :
    ∃ shard run scope profile, s.base.db.shards.get e.shardId = some shard ∧
      Ordered api tr s shard target run scope profile := by
  obtain ⟨r, hr, hcidr⟩ := (hp.placed e he).shard l hl
  obtain ⟨run, scope, hrun, hscope, -, hshard⟩ := hp.authorized.shard r (Table.get_mem hr)
  have hmem := Table.get_mem hrun
  obtain ⟨scope', profile, hscope', happroved, hprofile, -⟩ := hp.authorized.run run hmem
  rw [hscope] at hscope'
  cases hscope'
  rw [← hcidr] at hinside
  have htarget : Ipv4.inside target scope.cidr = true := by
    rcases hinside with hinside | rfl
    · exact Ipv4.inside_trans hinside hshard
    · exact hshard
  exact ⟨r, run, scope, profile, hr, hinside, hrun, hscope, hprofile, htarget,
    called_approves (hc.scope scope (Table.get_mem hscope) happroved),
    called_writes (hc.profile profile (Table.get_mem hprofile)),
    called_orders (hc.run run hmem)⟩

theorem ordered_network (hp : Placing s) (hc : Custody api tr s) {a : ControlAction}
    {cidr : String} (hcidr : s.network a = some cidr) :
    ∃ shard run scope profile, s.Scans a shard ∧
      Ordered api tr s shard cidr run scope profile := by
  obtain ⟨⟨e, b⟩, hx, hnetwork⟩ := Option.bind_eq_some_iff.mp hcidr
  obtain ⟨i, -, he⟩ := Control.executing_eq_some hx
  cases b with
  | start now =>
    obtain ⟨l, hl, rfl⟩ := Option.map_eq_some_iff.mp hnetwork
    obtain ⟨shard, run, scope, profile, hshard, hordered⟩ :=
      ordered_placed hp hc (List.mem_of_getElem? he) hl (Or.inr rfl)
    exact ⟨shard, run, scope, profile, ⟨e, _, hx, hshard⟩, hordered⟩
  | _ => cases hnetwork

theorem ordered_candidates (hp : Placing s) (hc : Custody api tr s)
    (hw : ∀ e ∈ s.base.executions, e.Within) {a : ControlAction} {address : String}
    (haddress : address ∈ s.candidates a) :
    ∃ shard run scope profile, s.Scans a shard ∧
      Ordered api tr s shard address run scope profile := by
  rw [Control.candidates] at haddress
  cases hx : s.executing a with
  | none =>
    rw [hx] at haddress
    cases haddress
  | some x =>
    obtain ⟨e, b⟩ := x
    obtain ⟨i, -, he⟩ := Control.executing_eq_some hx
    have hmem : e ∈ s.base.executions := List.mem_of_getElem? he
    rw [hx, Option.map_some, Option.getD_some] at haddress
    cases b with
    | storeDiscovery =>
      obtain ⟨o, ho, rfl⟩ := List.mem_map.mp (List.mem_dedup.mp haddress)
      obtain ⟨l, hl, hinside⟩ := hw e hmem o ho
      obtain ⟨shard, run, scope, profile, hshard, hordered⟩ :=
        ordered_placed hp hc hmem hl (Or.inl hinside)
      exact ⟨shard, run, scope, profile, ⟨e, _, hx, hshard⟩, hordered⟩
    | _ => cases haddress

end

/-- Masscan reports only addresses inside the network it was given. -/
def Service.reportsInside (s : Service) : ServiceAction → Bool
  | .internal a => s.control.reportsInside a
  | .call _ => true

section
variable {api : Api} {s s' : Service} {a : ServiceAction}

theorem service_placing (hp : Placing s.control) (h : s.step api a = some s') :
    Placing s'.control := by
  cases service_moves h with
  | same heq =>
    rw [heq]
    exact hp
  | audits heq =>
    rw [heq]
    exact ⟨authorized_keeps hp.authorized {}, fun e he => (hp.placed e he).of_shards
      fun _ _ hr => hr⟩
  | called _ _ _ hstep => exact placing_step hp hstep
  | internal _ _ hstep => exact placing_step hp hstep

theorem service_within (hp : Placing s.control) (hw : ∀ e ∈ s.control.base.executions, e.Within)
    (hreport : s.reportsInside a = true) (h : s.step api a = some s') :
    ∀ e ∈ s'.control.base.executions, e.Within := by
  cases service_moves h with
  | same heq | audits heq =>
    rw [heq]
    exact hw
  | @called c user users b _ _ hasks hstep =>
    refine within_control hp hw ?_ hstep
    generalize c.route = route at hasks
    cases hasks <;> rfl
  | @internal b ha _ hstep =>
    subst ha
    exact within_control hp hw hreport hstep

end

/-- What the rows of a state go back to lies in the part of the run before it. -/
theorem service_custody {api : Api} {users₀ : Table User}
    {tr : List (Transition Service ServiceAction)} {t : Service}
    (h : Path (Service.step api) (Service.initial users₀) tr t) :
    Placing t.control ∧ Custody api tr t.control := by
  induction h with
  | nil =>
    have hempty : ∀ {α : Type} {P : α → Prop}, ∀ x ∈ ([] : List α), P x :=
      fun _ hx => absurd hx List.not_mem_nil
    exact ⟨⟨authorized_empty, hempty⟩, ⟨hempty, hempty, hempty, hempty, hempty, hempty⟩⟩
  | snoc _ hs ih =>
    obtain ⟨hp, hc⟩ := ih
    exact ⟨service_placing hp hs, custody_step hc hs⟩

/-- Every target of every scanner command was ordered before the command, for the run of the
shard that is scanned, and every run that is cancelled was cancelled by a call. -/
structure ScanCustody (api : Api) (tr : List (Transition Service ServiceAction)) : Prop where
  network : ∀ l x r a cidr, tr = l ++ x :: r → x.act = .internal a →
    x.pre.control.network a = some cidr →
      ∃ shard run scope profile, x.pre.control.Scans a shard ∧
        Ordered api l x.pre.control shard cidr run scope profile
  candidate : Along Service.reportsInside tr → ∀ l x r a, tr = l ++ x :: r → x.act = .internal a →
    ∀ address ∈ x.pre.control.candidates a,
      ∃ shard run scope profile, x.pre.control.Scans a shard ∧
        Ordered api l x.pre.control shard address run scope profile
  cancelled : ∀ l x r, tr = l ++ x :: r → ∀ run ∈ x.post.control.base.db.runs.rows,
    run.status = .cancelled → ∃ actor, Called api (l ++ [x]) fun s user route =>
      user.role ∈ [.platformAdmin, .scanOperator] ∧ Cancels run.id actor s user route

namespace Demo

/-- A token here is the subject it names. -/
def api : Api where
  auth := { oidcIssuer := "https://identity.example", oidcAudience := "lookout" }
  digits := Ports.asciiDigits

def users : Table User where
  rows := [⟨"admin", .platformAdmin⟩, ⟨"manager", .inventoryManager⟩, ⟨"operator", .scanOperator⟩]
  nodup := by decide

def calls (subject : String) (route : Route) : ServiceAction :=
  .call { header := some ("Bearer " ++ subject)
          validateOidcToken := fun token => some ⟨some (.text token)⟩
          route := route }

def claimed : List Action :=
  [.countActive .creator "run", .lease 0 ["t1", "t2"] ["e1", "e2"] 0] ++ publish 0 0 ++
    [.deliver "s1" "t1" "worker" 0] ++
    [.loadShard, .loadRun, .clearServices, .clearHosts, .clearDiscoveries].map (Action.worker 0)

def ordered : List ServiceAction :=
  [calls "manager" (.addScope { name := "office", cidr := "10.0.0.0/23" } "scope"),
    calls "admin" (.approveScope "scope"),
    calls "admin" (.addProfile { name := "wide", ports := "1-1024" } "profile"),
    calls "operator" (.addRun "scope" "profile"
      ⟨"run", fun i => if i = 0 then "s1" else "s2"⟩)] ++
  claimed.map fun a => .internal (.system a)

def startScan : ControlAction := .system (.worker 0 (.start 0))

end Demo

section
variable {driver : Driver} {users users' : Table User} {validateOidcToken : String → Option Claims}
  {settings : AuthSettings} {header : Option String} {user : User}

/-- Whoever is let in is a user that is there, or the bootstrap token's. -/
theorem currentUser_ok
    (h : currentUser driver users validateOidcToken settings header = .ok (user, users')) :
    (user ∈ users.rows ∧ users' = users) ∨
      Bootstraps settings header ∧ user = ⟨"bootstrap-admin", .platformAdmin⟩ ∧
        users'.rows = users.rows ++ [user] := by
  by_cases hascii : ComparesTokens settings header → AsciiTokens settings header
  · by_cases hboot : Bootstraps settings header
    · obtain ⟨user₁, users₁, hok, hsubject, hrows⟩ := bootstrapUser_ok driver users
      rw [currentUser_bootstrap hboot (hascii hboot.1), hok] at h
      cases h
      rcases hrows with hthere | ⟨-, hrole, hadded⟩
      · exact Or.inl hthere
      · refine Or.inr ⟨hboot, ?_, hadded⟩
        cases user
        cases hsubject
        cases hrole
        rfl
    · rw [currentUser_oidc hboot hascii, oidcPath] at h
      split at h
      · split at h
        · cases h
        · next user₁ huser =>
          cases h
          left
          refine ⟨?_, rfl⟩
          rw [oidcUser] at huser
          split at huser
          · cases huser
          split at huser
          · cases huser
          split at huser
          · split at huser
            · cases huser
            · next hfound =>
              cases huser
              rw [findUser] at hfound
              split at hfound
              · cases hfound
              · exact Table.get_mem (Except.ok.inj hfound)
            · cases huser
          · cases huser
      · cases h
  · obtain ⟨hc, hnot⟩ := Classical.not_imp.mp hascii
    rw [currentUser_typeError hc hnot] at h
    cases h

end

/-- A role goes back, grant by grant, to a user that was there or to the bootstrap
token. -/
inductive Granted (api : Api) (users₀ : Table User) :
    List (Transition Service ServiceAction) → User → Prop
  | initial {tr user} (h : user ∈ users₀.rows) : Granted api users₀ tr user
  | bootstrap {l x r c users} (hact : x.act = .call c) (h : Bootstraps api.auth c.header)
      (hcurrent : currentUser api.driver x.pre.users c.validateOidcToken api.auth c.header =
        .ok (⟨"bootstrap-admin", .platformAdmin⟩, users)) :
      Granted api users₀ (l ++ x :: r) ⟨"bootstrap-admin", .platformAdmin⟩
  | provisioned {l x r c admin users payload targetId} (hact : x.act = .call c)
      (huser : c.Admitted api x.pre.users admin users) (hrole : admin.role = .platformAdmin)
      (hroute : c.route = .provisionUser payload.subject payload targetId)
      (hadmin : Granted api users₀ l admin) :
      Granted api users₀ (l ++ x :: r) ⟨payload.subject, payload.role⟩
  | bootstrapped {l x r c users payload targetId} (hact : x.act = .call c)
      (h : Bootstraps api.auth c.header)
      (huser : c.Admitted api x.pre.users ⟨"bootstrap-admin", .platformAdmin⟩ users)
      (hroute : c.route = .provisionUser payload.subject payload targetId) :
      Granted api users₀ (l ++ x :: r) ⟨payload.subject, payload.role⟩

section
variable {api : Api} {users₀ : Table User} {tr : List (Transition Service ServiceAction)}

theorem Granted.append {user : User} (h : Granted api users₀ tr user)
    (tr' : List (Transition Service ServiceAction)) : Granted api users₀ (tr ++ tr') user := by
  cases h with
  | initial h => exact .initial h
  | bootstrap hact h hcurrent =>
    rw [List.append_assoc, List.cons_append]
    exact .bootstrap hact h hcurrent
  | provisioned hact huser hrole hroute hadmin =>
    rw [List.append_assoc, List.cons_append]
    exact .provisioned hact huser hrole hroute hadmin
  | bootstrapped hact h huser hroute =>
    rw [List.append_assoc, List.cons_append]
    exact .bootstrapped hact h huser hroute

/-- A provisioning is for an administrator. -/
theorem Call.Admitted.provisions {c : Call} {user : User} {users users' : Table User}
    (h : c.Admitted api users user users') {subject : String} {payload : UserProvision}
    {targetId : Uuid} (hroute : c.route = .provisionUser subject payload targetId) :
    user.role = .platformAdmin := by
  have hadmits := h.admits
  rw [hroute] at hadmits
  exact List.mem_singleton.mp (hadmits _ rfl)

theorem granted_step {s s' : Service} {a : ServiceAction}
    (hg : ∀ user ∈ s.users.rows, Granted api users₀ tr user) (h : s.step api a = some s') :
    ∀ user ∈ s'.users.rows, Granted api users₀ (tr ++ [⟨s, a, s'⟩]) user := by
  have hkept : ∀ user ∈ s.users.rows, Granted api users₀ (tr ++ [⟨s, a, s'⟩]) user :=
    fun user huser => (hg user huser).append _
  cases a with
  | internal a =>
    obtain ⟨-, -, husers⟩ := service_internal h
    rw [husers]
    exact hkept
  | call c =>
    have hknown : ∀ {user users}, currentUser api.driver s.users c.validateOidcToken api.auth
        c.header = .ok (user, users) →
        ∀ u ∈ users.rows, Granted api users₀ (tr ++ [⟨s, .call c, s'⟩]) u := by
      intro user users hcurrent u hu
      rcases currentUser_ok hcurrent with ⟨-, rfl⟩ | ⟨hboot, rfl, hadded⟩
      · exact hkept u hu
      · rw [hadded, List.mem_append] at hu
        rcases hu with hu | hu
        · exact hkept u hu
        · rw [List.mem_singleton.mp hu]
          exact .bootstrap rfl hboot hcurrent
    cases service_call h with
    | refused => exact hkept
    | known hcurrent => exact hknown hcurrent
    | performed huser => exact hknown huser.authenticated
    | @provisioned user users payload targetId users' huser hroute hprovisions =>
      intro u hu
      have hget : users'.get u.subject = some u := Table.get_of_mem hu
      by_cases hsubject : u.subject = payload.subject
      · rw [hsubject, hprovisions.assigned] at hget
        rw [← Option.some.inj hget]
        have hrole := huser.provisions hroute
        rcases currentUser_ok huser.authenticated with ⟨hthere, -⟩ | ⟨hboot, rfl, -⟩
        · exact .provisioned rfl huser hrole hroute (hg user hthere)
        · exact .bootstrapped rfl hboot huser hroute
      · rw [hprovisions.others _ hsubject] at hget
        exact hknown huser.authenticated u (Table.get_mem hget)

end

/-- Every role in every state goes back to where roles come from. -/
theorem role_grants (api : Api) (users₀ : Table User)
    (tr : List (Transition Service ServiceAction)) (t : Service)
    (h : Path (Service.step api) (Service.initial users₀) tr t) :
    ∀ user ∈ t.users.rows, Granted api users₀ tr user := by
  induction h with
  | nil => exact fun user huser => .initial huser
  | snoc _ hs ih => exact granted_step ih hs

/-- An administrator provisions another, who provisions an auditor. -/
def Demo.provisioning : List ServiceAction :=
  [calls "admin" (.provisionUser "second" ⟨"second", .platformAdmin⟩ "u1"),
    calls "second" (.provisionUser "reader" ⟨"reader", .auditor⟩ "u2"),
    calls "reader" (.provisionUser "reader" ⟨"reader", .platformAdmin⟩ "u2")]

/-- The auditor's role goes back to the first administrator, and stays what it is. -/
theorem role_grants_chain :
    ∃ tr t, Path (Service.step Demo.api) (Service.initial Demo.users) tr t ∧
      t.users.rows = Demo.users.rows ++ [⟨"second", .platformAdmin⟩, ⟨"reader", .auditor⟩] ∧
      Granted Demo.api Demo.users tr ⟨"reader", .auditor⟩ := by
  have hrun : (runAll (Service.step Demo.api) (Service.initial Demo.users)
      Demo.provisioning).map (fun t => t.users.rows) =
      some (Demo.users.rows ++ [⟨"second", .platformAdmin⟩, ⟨"reader", .auditor⟩]) := by
    decide +kernel
  obtain ⟨tr, t, hp, hrows⟩ := Path.of_runAll_map hrun
  refine ⟨tr, t, hp, hrows, role_grants Demo.api Demo.users tr t hp _ ?_⟩
  rw [hrows]
  decide

/-! ## Nobody to start from -/

/-- Who may call, and what there is to scan. -/
structure Powerless (users₀ : Table User) (tr : List (Transition Service ServiceAction))
    (t : Service) : Prop where
  users : t.users = users₀
  approved : ∀ scope ∈ t.control.base.db.scopes.rows, scope.approved = false
  profiles : t.control.base.db.profiles.rows = []
  runs : t.control.base.db.runs.rows = []
  shards : t.control.base.db.shards.rows = []
  scans : ∀ x ∈ tr, ∀ a, x.act = .internal a → x.pre.control.network a = none

section
variable {api : Api} {users₀ : Table User}

/-- A caller, where there is no administrator and the bootstrap token is not used. -/
theorem Call.Admitted.powerless {c : Call} {user : User} {users : Table User}
    (hadmin : ∀ user ∈ users₀.rows, user.role ≠ .platformAdmin)
    (hboot : ¬Bootstraps api.auth c.header) (h : c.Admitted api users₀ user users) :
    users = users₀ ∧ user.role ≠ .platformAdmin := by
  rcases currentUser_ok h.authenticated with ⟨hthere, rfl⟩ | ⟨h, -⟩
  · exact ⟨rfl, hadmin user hthere⟩
  · exact absurd h hboot

/-- The call does not present the bootstrap token. -/
def Service.withoutBootstrap (api : Api) (_ : Service) : ServiceAction → Bool
  | .call c => !decide (Bootstraps api.auth c.header)
  | .internal _ => true

theorem users_step {s s' : Service} {a : ServiceAction}
    (hadmin : ∀ user ∈ users₀.rows, user.role ≠ .platformAdmin) (hs : s.users = users₀)
    (hboot : s.withoutBootstrap api a = true) (h : s.step api a = some s') :
    s'.users = users₀ := by
  cases a with
  | internal a =>
    obtain ⟨-, -, husers⟩ := service_internal h
    rw [husers, hs]
  | call c =>
    have hnot : ¬Bootstraps api.auth c.header := by
      simpa [Service.withoutBootstrap] using hboot
    cases service_call h with
    | refused => exact hs
    | known hcurrent =>
      rcases currentUser_ok hcurrent with ⟨-, rfl⟩ | ⟨hb, -⟩
      · exact hs
      · exact absurd hb hnot
    | performed huser =>
      rw [hs] at huser
      exact (huser.powerless hadmin hnot).1
    | provisioned huser hroute =>
      rw [hs] at huser
      exact absurd (huser.provisions hroute) (huser.powerless hadmin hnot).2

/-- Nothing goes back to a call of an administrator. -/
theorem no_calls {tr : List (Transition Service ServiceAction)} {t : Service}
    {P : Service → User → Route → Prop}
    (h : Path (Service.step api) (Service.initial users₀) tr t)
    (hadmin : ∀ user ∈ users₀.rows, user.role ≠ .platformAdmin)
    (hboot : Along (Service.withoutBootstrap api) tr)
    (hcalled : Called api tr fun s user route => user.role = .platformAdmin ∧ P s user route) :
    False := by
  obtain ⟨x, hx, c, user, users, hact, huser, hrole, -⟩ := hcalled
  have husers := (h.invariant_at (I := fun s => s.users = users₀) rfl
    (fun _ _ _ hs hb hstep => users_step hadmin hs hb hstep) hboot hx).1
  rw [husers] at huser
  have hnot := hboot x hx
  rw [hact] at hnot
  exact (huser.powerless hadmin (by simpa [Service.withoutBootstrap] using hnot)).2 hrole

end

/-- Where no user is an administrator, nobody becomes one and nothing is scanned. -/
theorem no_escalation (api : Api) (users₀ : Table User)
    (hadmin : ∀ user ∈ users₀.rows, user.role ≠ .platformAdmin)
    (tr : List (Transition Service ServiceAction)) (t : Service)
    (h : Path (Service.step api) (Service.initial users₀) tr t)
    (hboot : Along (Service.withoutBootstrap api) tr) : Powerless users₀ tr t := by
  have hscopes : ∀ {tr t}, Path (Service.step api) (Service.initial users₀) tr t →
      Along (Service.withoutBootstrap api) tr →
      ∀ scope ∈ t.control.base.db.scopes.rows, scope.approved = false := by
    intro tr t h hboot scope hscope
    refine Bool.eq_false_iff.mpr fun happroved => ?_
    exact no_calls h hadmin hboot
      (called_approves ((service_custody h).2.scope scope hscope happroved))
  have hrunless : ∀ {tr t}, Path (Service.step api) (Service.initial users₀) tr t →
      Along (Service.withoutBootstrap api) tr → ∀ run, run ∉ t.control.base.db.runs.rows := by
    intro tr t h hboot run hrun
    obtain ⟨scope, profile, hscope, happroved, -⟩ := (service_custody h).1.authorized.run run hrun
    rw [hscopes h hboot scope (Table.get_mem hscope)] at happroved
    cases happroved
  constructor
  · exact h.invariant (I := fun s => s.users = users₀) rfl
      (fun _ _ _ hs hb hstep => users_step hadmin hs hb hstep) hboot
  · exact hscopes h hboot
  · refine List.eq_nil_iff_forall_not_mem.mpr fun profile hprofile => ?_
    exact no_calls h hadmin hboot
      (called_writes ((service_custody h).2.profile profile hprofile))
  · exact List.eq_nil_iff_forall_not_mem.mpr (hrunless h hboot)
  · refine List.eq_nil_iff_forall_not_mem.mpr fun shard hshard => ?_
    obtain ⟨run, scope, hrun, -⟩ := (service_custody h).1.authorized.shard shard hshard
    exact hrunless h hboot run (Table.get_mem hrun)
  · intro x hx a hact
    obtain ⟨l, r, rfl, hl, -, -⟩ := h.split_of_mem hx
    refine Option.eq_none_iff_forall_ne_some.mpr fun cidr hcidr => ?_
    obtain ⟨hp, hc⟩ := service_custody hl
    obtain ⟨_, run, _, _, -, hordered⟩ := ordered_network hp hc hcidr
    exact hrunless hl (fun y hy => hboot y (List.mem_append_left _ hy)) run
      (Table.get_mem hordered.of_run)

/-- A manager adds a scope and asks for more, in vain. -/
theorem no_escalation_manager :
    ∃ tr t, Path (Service.step Demo.api)
        (Service.initial ⟨[⟨"manager", .inventoryManager⟩], by decide⟩) tr t ∧
      t.control.base.db.scopes.rows.map InventoryScope.id = ["scope"] ∧
      Powerless ⟨[⟨"manager", .inventoryManager⟩], by decide⟩ tr t := by
  have hrun : (runWhile (Service.step Demo.api) (Service.withoutBootstrap Demo.api)
      (Service.initial ⟨[⟨"manager", .inventoryManager⟩], by decide⟩)
      [Demo.calls "manager" (.addScope { name := "office", cidr := "10.0.0.0/23" } "scope"),
        Demo.calls "manager" (.approveScope "scope"),
        Demo.calls "manager" (.provisionUser "manager" ⟨"manager", .platformAdmin⟩ "u1")]).map
      (fun t => t.control.base.db.scopes.rows.map InventoryScope.id) = some ["scope"] := by
    decide +kernel
  obtain ⟨tr, t, hp, halong, hscopes⟩ := Path.of_runWhile_map hrun
  exact ⟨tr, t, hp, hscopes, no_escalation Demo.api _ (by decide) tr t hp halong⟩

end TransportLookout
